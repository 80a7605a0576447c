import FGDB.HashMap.AvlRemove
import FGDB.HashMap.Table
import Mathlib.Data.List.Perm.Subperm

/-!
# Buckets

The slot of a bucket stands for a sorted tree. Linking a fresh node is the
insertion into that tree, and the move of a full bucket to a child table is the
insertion of its entries, children first, into the trees of the child's slots.
-/

namespace FGDB.HashMap

open Foundation AvlTree NodeHeap
open SearchTree hiding insert find Sorted erase

variable {μ : Type}

/-- A heap whose tree is the given one. -/
structure Represents (heap : NodeHeap μ) (t : AvlTree μ) : Prop where
  rep : Rep heap none t
  nodup : (addrs t).Nodup
  below : ∀ address ∈ addrs t, address < heap.next
  sorted : AvlTree.Sorted t

/-- A slot that points to a tree, in a heap with the given next address. -/
def BucketAt (next : ℕ) (slot : VoidPtr μ) (t : AvlTree μ) : Prop :=
  ∃ heap, slot = .ofTree heap (root t) ∧ Represents heap t ∧ heap.next = next

def Bucket (slot : VoidPtr μ) (t : AvlTree μ) : Prop := ∃ next, BucketAt next slot t

theorem represents_nil (heap : NodeHeap μ) : Represents heap .nil :=
  ⟨trivial, List.nodup_nil, fun _ h ↦ absurd h List.not_mem_nil, SearchTree.sorted_nil _⟩

theorem bucketAt_null (next : ℕ) : BucketAt next (.null : VoidPtr μ) .nil :=
  ⟨⟨fun _ ↦ none, next⟩, rfl, represents_nil _, rfl⟩

theorem toTree_bucket {slot : VoidPtr μ} {t : AvlTree μ} (h : Bucket slot t) :
    ∃ heap, slot.toTree = .ok (heap, root t) ∧ Represents heap t := by
  obtain ⟨next, heap, rfl, hrep, -⟩ := h
  cases t with
  | nil => exact ⟨NodeHeap.empty, rfl, represents_nil _⟩
  | node x l r => exact ⟨heap, rfl, hrep⟩

/-- The addresses of a heap are fuel enough for every walk in its tree. -/
theorem Represents.height_lt {heap : NodeHeap μ} {t : AvlTree μ} (h : Represents heap t) :
    t.height < heap.fuel := by
  have hsub : (addrs t).Subset (List.range heap.next) := fun address hmem ↦
    List.mem_range.mpr (h.below address hmem)
  have hlength := (h.nodup.subperm hsub).length_le
  have hheight := height_le_numNodes t
  rw [List.length_range, addrs, List.length_map, length_inorder] at hlength
  unfold NodeHeap.fuel
  omega

theorem Represents.search {heap : NodeHeap μ} {t : AvlTree μ} (h : Represents heap t) (key : Str) :
    avlSearch heap.fuel heap (root t) key = .ok ((AvlTree.find key t).map Entry.addr) :=
  avlSearch_rep h.rep h.height_lt key

/-- The cell of an entry of the tree. -/
theorem Rep.load {heap : NodeHeap μ} {parent : Option ℕ} {t : AvlTree μ} (hrep : Rep heap parent t)
    {x : Entry μ} (hx : x ∈ inorder t) :
    ∃ node, heap.load (some x.addr) = .ok node ∧ node.key = x.key ∧ node.keyMeta = x.keyMeta := by
  induction t generalizing parent with
  | nil => exact absurd hx List.not_mem_nil
  | node y l r ihl ihr =>
    rcases List.mem_append.mp hx with hx | hx
    · exact ihl hrep.2.1 hx
    · rcases List.mem_cons.mp hx with rfl | hx
      · exact ⟨_, load_of_cells hrep.1, rfl, rfl⟩
      · exact ihr hrep.2.2 hx

/-- A tree and a node outside it, in one heap. -/
structure Ready (heap : NodeHeap μ) (t : AvlTree μ) (e : Entry μ) : Prop where
  rep : Rep heap none t
  new : Rep heap none (.node e .nil .nil)
  fresh : e.addr ∉ addrs t
  nodup : (addrs t).Nodup
  below : ∀ address ∈ addrs t, address < heap.next
  newBelow : e.addr < heap.next
  sorted : AvlTree.Sorted t
  absent : ∀ x ∈ inorder t, x.key ≠ e.key

theorem linkNode_ready {heap : NodeHeap μ} {t : AvlTree μ} {e : Entry μ} (h : Ready heap t e)
    (hpivots : InsertPivots e t) :
    ∃ slot, linkNode heap (root t) (some e.addr) = .ok (slot, 1) ∧
      BucketAt heap.next slot (AvlTree.insert e t) := by
  have hsorted : AvlTree.Sorted (AvlTree.insert e t) :=
    SearchTree.sorted_insert _ inorder_rebalance h.sorted h.absent
  have hnodup := nodup_addrs_insert h.nodup h.fresh
  have hbelow (address : ℕ) (hmem : address ∈ addrs (AvlTree.insert e t)) :
      address < heap.next := by
    rcases mem_addrs_insert hmem with rfl | hmem
    · exact h.newBelow
    · exact h.below address hmem
  cases t with
  | nil => exact ⟨_, rfl, heap, rfl, ⟨h.new, hnodup, hbelow, hsorted⟩, rfl⟩
  | node x l r =>
    have hfuel : (BinaryTree.node x l r).height ≤ heap.fuel :=
      Nat.le_of_lt (Represents.height_lt ⟨h.rep, h.nodup, h.below, h.sorted⟩)
    obtain ⟨heap', status, hinsert, hrep', hframe, hstatus⟩ :=
      avlInsertNode_rep (by simp) hfuel h.rep h.new h.fresh h.nodup hpivots
    refine ⟨.ofTree heap' (root (AvlTree.insert e (.node x l r))), ?_, heap', rfl,
      ⟨hrep', hnodup, fun address hmem ↦ hframe.1 ▸ hbelow address hmem, hsorted⟩, hframe.1⟩
    rw [root_node] at hinsert
    simp only [linkNode, root_node, hinsert, ok_bind, hstatus h.absent, pure_eq_ok]

/-- Linking without a pivot follows a NULL pointer. -/
theorem linkNode_null {heap : NodeHeap μ} {t : AvlTree μ} {e : Entry μ} (h : Ready heap t e)
    (hpivots : ¬ InsertPivots e t) : linkNode heap (root t) (some e.addr) = .error .nullPointer := by
  have hfuel : t.height ≤ heap.fuel :=
    Nat.le_of_lt (Represents.height_lt ⟨h.rep, h.nodup, h.below, h.sorted⟩)
  have hinsert := avlInsertNode_null hfuel h.rep h.new h.fresh h.nodup hpivots
  cases t with
  | nil => exact absurd trivial hpivots
  | node x l r =>
    rw [root_node] at hinsert
    simp only [linkNode, root_node, hinsert, error_bind]

/-- A new node leaves the tree as it is. -/
theorem avlNewNode_rep {heap : NodeHeap μ} {t : AvlTree μ} (h : Represents heap t) (key : Str)
    (keyMeta : μ) : Rep (avlNewNode heap key keyMeta).1 none t ∧
      Rep (avlNewNode heap key keyMeta).1 none (.node ⟨heap.next, key, keyMeta⟩ .nil .nil) ∧
        heap.next ∉ addrs t := by
  have hfresh : heap.next ∉ addrs t := fun hmem ↦ lt_irrefl _ (h.below _ hmem)
  have hframe : Frame [heap.next] heap
      ⟨(avlNewNode heap key keyMeta).1.cells, heap.next⟩ :=
    frame_set heap _ (List.mem_singleton.mpr rfl)
  refine ⟨?_, ⟨Function.update_self _ _ _, trivial, trivial⟩, hfresh⟩
  apply h.rep.congr
  intro address hmem
  exact hframe.2 address fun heq ↦ hfresh (List.mem_singleton.mp heq ▸ hmem)

theorem ready_new {heap : NodeHeap μ} {t : AvlTree μ} (h : Represents heap t) {key : Str}
    (habsent : AvlTree.find key t = none) (keyMeta : μ) :
    Ready (avlNewNode heap key keyMeta).1 t ⟨heap.next, key, keyMeta⟩ := by
  obtain ⟨hrep, hnew, hfresh⟩ := avlNewNode_rep h key keyMeta
  refine ⟨hrep, hnew, hfresh, h.nodup,
    fun address hmem ↦ Nat.lt_succ_of_lt (h.below address hmem), Nat.lt_succ_self _, h.sorted, ?_⟩
  exact (SearchTree.find_eq_none_iff Entry.key h.sorted).mp habsent

/-- Children before their parent. -/
def postorder : AvlTree μ → List (Entry μ)
  | .nil => []
  | .node x l r => postorder l ++ postorder r ++ [x]

theorem postorder_perm (t : AvlTree μ) : (postorder t).Perm (inorder t) := by
  induction t with
  | nil => exact List.Perm.refl _
  | node x l r ihl ihr =>
    calc (postorder l ++ postorder r ++ [x]).Perm (inorder l ++ inorder r ++ [x]) :=
          (ihl.append ihr).append_right _
      List.Perm _ (inorder l ++ x :: inorder r) := by
          rw [List.append_assoc]
          exact (List.perm_append_singleton x _).append_left _

section Remake

variable (dep : ℕ)

/-- An entry goes into the tree of its slot. -/
def link (trees : ℕ → AvlTree μ) (x : Entry μ) : ℕ → AvlTree μ :=
  Function.update trees (hash x.key dep) (AvlTree.insert x (trees (hash x.key dep)))

/-- The trees of a table after entries were inserted into them in order. -/
def distribute (trees : ℕ → AvlTree μ) (entries : List (Entry μ)) : ℕ → AvlTree μ :=
  entries.foldl (link dep) trees

/-- None of these insertions lacks its pivot. -/
def LinkPivots : (ℕ → AvlTree μ) → List (Entry μ) → Prop
  | _, [] => True
  | trees, x :: rest => InsertPivots x (trees (hash x.key dep)) ∧ LinkPivots (link dep trees x) rest

/-- The slots of a table hold trees, and the lengths are their sizes. -/
def TableAt (next : ℕ) (table : (ℕ → ℕ) × (ℕ → VoidPtr μ)) (trees : ℕ → AvlTree μ) : Prop :=
  ∀ index, table.1 index = (trees index).numNodes ∧ BucketAt next (table.2 index) (trees index)

theorem hashInsertAvlInHash_eq {old : NodeHeap μ} {parent : Option ℕ} {t : AvlTree μ} {fuel : ℕ}
    (hrep : Rep old parent t) (hfuel : t.height < fuel)
    (table : (ℕ → ℕ) × (ℕ → VoidPtr μ)) :
    hashInsertAvlInHash dep old fuel (root t) table = (postorder t).foldlM
      (fun table x ↦ moveNode dep old.next x.addr ⟨x.key, x.keyMeta, none, none, none, 1⟩ table)
      table := by
  induction t generalizing parent fuel table with
  | nil =>
    cases fuel with
    | zero => exact absurd hfuel (Nat.not_lt_zero _)
    | succ fuel => rfl
  | node x l r ihl ihr =>
    cases fuel with
    | zero => exact absurd hfuel (Nat.not_lt_zero _)
    | succ fuel =>
      simp only [BinaryTree.height] at hfuel
      have hleft : (cellOf .left x parent l r).left = root l := rfl
      have hright : (cellOf .left x parent l r).right = root r := rfl
      simp only [hashInsertAvlInHash, root_node, load_of_cells hrep.1, ok_bind, hleft, hright,
        ihl hrep.2.1 (by omega : l.height < fuel), postorder, List.foldlM_append]
      rw [bind_assoc]
      apply bind_congr
      intro table1
      rw [ihr hrep.2.2 (by omega : r.height < fuel)]
      apply bind_congr
      intro table2
      rw [List.foldlM_cons]
      exact (bind_pure (moveNode dep old.next x.addr _ table2)).symm

theorem link_spec {trees : ℕ → AvlTree μ} {x : Entry μ} {index : ℕ}
    (hsorted : AvlTree.Sorted (trees index)) (habsent : ∀ y ∈ inorder (trees index), y.key ≠ x.key) :
    AvlTree.Sorted (link dep trees x index) ∧ (inorder (link dep trees x index)).Perm
      (inorder (trees index) ++ [x].filter fun x ↦ hash x.key dep = index) := by
  unfold link
  by_cases hindex : hash x.key dep = index
  · rw [hindex, Function.update_self, List.filter_singleton, decide_eq_true hindex,
      cond_true]
    exact ⟨SearchTree.sorted_insert _ inorder_rebalance hsorted habsent,
      (SearchTree.perm_inorder_insert _ inorder_rebalance hsorted habsent).trans
        (List.perm_append_singleton x _).symm⟩
  · rw [Function.update_of_ne (Ne.symm hindex), List.filter_singleton,
      decide_eq_false hindex, cond_false, List.append_nil]
    exact ⟨hsorted, List.Perm.refl _⟩

/-- The entries in the slots after a distribution. -/
theorem distribute_spec {trees : ℕ → AvlTree μ} {entries : List (Entry μ)}
    (hsorted : ∀ index, AvlTree.Sorted (trees index))
    (hdistinct : entries.Pairwise fun x y ↦ x.key ≠ y.key)
    (habsent : ∀ x ∈ entries, ∀ index, ∀ y ∈ inorder (trees index), y.key ≠ x.key) (index : ℕ) :
    AvlTree.Sorted (distribute dep trees entries index) ∧
      (inorder (distribute dep trees entries index)).Perm
        (inorder (trees index) ++ entries.filter fun x ↦ hash x.key dep = index) := by
  induction entries generalizing trees with
  | nil => simpa [distribute] using hsorted index
  | cons x rest ih =>
    have hstep (i : ℕ) : AvlTree.Sorted (link dep trees x i) ∧
        (inorder (link dep trees x i)).Perm
          (inorder (trees i) ++ [x].filter fun x ↦ hash x.key dep = i) :=
      link_spec dep (hsorted i) (habsent x (by simp) i)
    obtain ⟨hx, hrest⟩ := List.pairwise_cons.mp hdistinct
    have habsent' (y : Entry μ) (hy : y ∈ rest) (i : ℕ) :
        ∀ z ∈ inorder (link dep trees x i), z.key ≠ y.key := by
      intro z hz
      rcases List.mem_append.mp ((hstep i).2.mem_iff.mp hz) with hz | hz
      · exact habsent y (List.mem_cons_of_mem _ hy) i z hz
      · rw [List.mem_singleton.mp (List.mem_of_mem_filter hz)]
        exact hx y hy
    obtain ⟨hsorted', hperm'⟩ := ih (fun i ↦ (hstep i).1) hrest habsent'
    refine ⟨hsorted', hperm'.trans ?_⟩
    have hsplit : (x :: rest).filter (fun x ↦ hash x.key dep = index) =
        [x].filter (fun x ↦ hash x.key dep = index) ++
          rest.filter fun x ↦ hash x.key dep = index := by
      rw [← List.filter_append, List.singleton_append]
    rw [hsplit, ← List.append_assoc]
    exact (hstep index).2.append_right _

theorem numNodes_link {trees : ℕ → AvlTree μ} {x : Entry μ} {index : ℕ}
    (hsorted : AvlTree.Sorted (trees index)) (habsent : ∀ y ∈ inorder (trees index), y.key ≠ x.key) :
    (link dep trees x index).numNodes =
      (trees index).numNodes + if hash x.key dep = index then 1 else 0 := by
  rw [← length_inorder, (link_spec dep hsorted habsent).2.length_eq, List.length_append,
    length_inorder, List.filter_singleton]
  by_cases hindex : hash x.key dep = index
  · rw [decide_eq_true hindex, cond_true, if_pos hindex, List.length_singleton]
  · rw [decide_eq_false hindex, cond_false, if_neg hindex, List.length_nil]

theorem toTree_bucketAt {next : ℕ} {slot : VoidPtr μ} {t : AvlTree μ} (h : BucketAt next slot t) :
    ∃ heap, slot.toTree = .ok (heap, root t) ∧ Represents heap t ∧
      ∀ address ∈ addrs t, address < next := by
  obtain ⟨heap, rfl, hrep, rfl⟩ := h
  cases t with
  | nil =>
    exact ⟨NodeHeap.empty, rfl, represents_nil _, fun address hmem ↦ absurd hmem List.not_mem_nil⟩
  | node x l r => exact ⟨heap, rfl, hrep, hrep.below⟩

/-- The entries are still to move, into a table whose trees do not know their keys and addresses and
whose counters do not overflow. -/
structure Moving (next : ℕ) (table : (ℕ → ℕ) × (ℕ → VoidPtr μ)) (trees : ℕ → AvlTree μ)
    (entries : List (Entry μ)) : Prop where
  table : TableAt next table trees
  distinct : entries.Pairwise fun x y ↦ x.key ≠ y.key ∧ x.addr ≠ y.addr
  below : ∀ x ∈ entries, x.addr < next
  absent : ∀ x ∈ entries, ∀ index, ∀ y ∈ inorder (trees index), y.key ≠ x.key ∧ y.addr ≠ x.addr
  small : ∀ index, (trees index).numNodes + entries.length < 2 ^ 32

section Moves

variable {next : ℕ} {table : (ℕ → ℕ) × (ℕ → VoidPtr μ)} {trees : ℕ → AvlTree μ} {x : Entry μ}
  {entries : List (Entry μ)}

/-- The tree of the slot of the first entry, with the node of this entry next to it. -/
theorem Moving.ready (h : Moving next table trees (x :: entries)) :
    ∃ heap moved, (table.2 (hash x.key dep)).toTree = .ok (heap, root (trees (hash x.key dep))) ∧
      ({ heap.set x.addr ⟨x.key, x.keyMeta, none, none, none, 1⟩ with next := next } :
        NodeHeap μ) = moved ∧ Ready moved (trees (hash x.key dep)) x ∧ moved.next = next := by
  obtain ⟨heap, htree, hrep, hnext⟩ := toTree_bucketAt (h.table (hash x.key dep)).2
  have habsent := h.absent x List.mem_cons_self (hash x.key dep)
  have hfresh : x.addr ∉ addrs (trees (hash x.key dep)) := by
    intro hmem
    obtain ⟨y, hy, haddr⟩ := List.mem_map.mp hmem
    exact (habsent y hy).2 haddr
  refine ⟨heap, _, htree, rfl, ?_, rfl⟩
  refine ⟨(hrep.rep.set _ hfresh).congr fun _ _ ↦ rfl, ⟨Function.update_self _ _ _, trivial, trivial⟩,
    hfresh, hrep.nodup, hnext, h.below x List.mem_cons_self, hrep.sorted,
    fun y hy ↦ (habsent y hy).1⟩

theorem Moving.sorted (h : Moving next table trees entries) (index : ℕ) :
    AvlTree.Sorted (trees index) := by
  obtain ⟨heap, -, hrep, -⟩ := (h.table index).2
  exact hrep.sorted

/-- Moving one entry links it into the tree of its slot. -/
theorem Moving.step (h : Moving next table trees (x :: entries))
    (hpivots : InsertPivots x (trees (hash x.key dep))) :
    ∃ table', moveNode dep next x.addr ⟨x.key, x.keyMeta, none, none, none, 1⟩ table = .ok table' ∧
      Moving next table' (link dep trees x) entries := by
  obtain ⟨heap, moved, htree, hmoved, hready, hnext⟩ := h.ready dep
  obtain ⟨slot, hlink, hslot⟩ := linkNode_ready hready hpivots
  obtain ⟨hx, hdistinct⟩ := List.pairwise_cons.mp h.distinct
  have habsent := h.absent x List.mem_cons_self
  have hlinked (index : ℕ) := link_spec dep (h.sorted index) fun y hy ↦ (habsent index y hy).1
  have hsize (index : ℕ) := numNodes_link dep (h.sorted index) fun y hy ↦ (habsent index y hy).1
  refine ⟨(Function.update table.1 (hash x.key dep) (wrap32 (table.1 (hash x.key dep) + 1)),
    Function.update table.2 (hash x.key dep) slot), ?_, ?_, hdistinct,
    fun y hy ↦ h.below y (List.mem_cons_of_mem _ hy), fun y hy index z hz ↦ ?_, fun index ↦ ?_⟩
  · simp only [moveNode, htree, ok_bind, hmoved, hlink, pure_eq_ok]
  · intro index
    have hsmall := h.small index
    rw [List.length_cons] at hsmall
    by_cases hindex : index = hash x.key dep
    · subst hindex
      rw [hsize, if_pos rfl, link]
      simp only [Function.update_self]
      refine ⟨?_, hnext ▸ hslot⟩
      rw [(h.table _).1]
      exact Nat.mod_eq_of_lt (by omega)
    · rw [link]
      simp only [Function.update_of_ne hindex]
      exact h.table index
  · rcases List.mem_append.mp ((hlinked index).2.mem_iff.mp hz) with hz | hz
    · exact h.absent y (List.mem_cons_of_mem _ hy) index z hz
    · rw [List.mem_singleton.mp (List.mem_of_mem_filter hz)]
      exact hx y hy
  · have hsmall := h.small index
    have hgrown := hsize index
    rw [List.length_cons] at hsmall
    split at hgrown <;> omega

/-- The move of entries into a table. -/
theorem Moving.moves (h : Moving next table trees entries) (hpivots : LinkPivots dep trees entries) :
    ∃ table', entries.foldlM (fun table x ↦
        moveNode dep next x.addr ⟨x.key, x.keyMeta, none, none, none, 1⟩ table) table = .ok table' ∧
      TableAt next table' (distribute dep trees entries) := by
  induction entries generalizing table trees with
  | nil => exact ⟨table, rfl, h.table⟩
  | cons x rest ih =>
    obtain ⟨table1, hmove, hrest⟩ := h.step dep hpivots.1
    obtain ⟨table', hfold, htable⟩ := ih hrest hpivots.2
    refine ⟨table', ?_, htable⟩
    rw [List.foldlM_cons, hmove, ok_bind, hfold]

/-- A move that lacks a pivot follows a NULL pointer. -/
theorem Moving.null (h : Moving next table trees entries)
    (hpivots : ¬ LinkPivots dep trees entries) : entries.foldlM (fun table x ↦
      moveNode dep next x.addr ⟨x.key, x.keyMeta, none, none, none, 1⟩ table) table =
        .error .nullPointer := by
  induction entries generalizing table trees with
  | nil => exact absurd trivial hpivots
  | cons x rest ih =>
    rw [List.foldlM_cons]
    by_cases hfirst : InsertPivots x (trees (hash x.key dep))
    · obtain ⟨table1, hmove, hrest⟩ := h.step dep hfirst
      rw [hmove, ok_bind]
      exact ih hrest fun hlater ↦ hpivots ⟨hfirst, hlater⟩
    · obtain ⟨heap, moved, htree, hmoved, hready, -⟩ := h.ready dep
      have hnull := linkNode_null hready hfirst
      simp only [moveNode, htree, ok_bind, hmoved, hnull, error_bind]

end Moves

/-- The entries of a bucket are to move into an empty table. -/
theorem Represents.moving {heap : NodeHeap μ} {t : AvlTree μ} (h : Represents heap t)
    (hsmall : t.numNodes < 2 ^ 32) :
    Moving heap.next (fun _ ↦ 0, fun _ ↦ .null) (fun _ ↦ .nil) (postorder t) := by
  have hlength : (postorder t).length = t.numNodes :=
    (postorder_perm t).length_eq.trans (length_inorder t)
  refine ⟨fun _ ↦ ⟨rfl, bucketAt_null _⟩, ?_, ?_, fun _ _ _ _ hy ↦ absurd hy List.not_mem_nil,
    fun _ ↦ by simp only [BinaryTree.numNodes]; omega⟩
  · have hinorder : (inorder t).Pairwise fun x y ↦ x.key ≠ y.key ∧ x.addr ≠ y.addr := by
      apply List.Pairwise.and
      · exact h.sorted.imp fun hlt ↦ ne_of_lt hlt
      · exact List.pairwise_map.mp h.nodup
    exact ((postorder_perm t).pairwise_iff fun hxy ↦ ⟨hxy.1.symm, hxy.2.symm⟩).mpr hinorder
  · intro x hx
    exact h.below _ (List.mem_map_of_mem ((postorder_perm t).mem_iff.mp hx))

/-- The entries of a bucket can move to a table of the given depth: no insertion lacks its pivot,
and no slot of the table is full afterwards. -/
def RemakeSafe (t : AvlTree μ) : Prop :=
  LinkPivots dep (fun _ ↦ .nil) (postorder t) ∧
    ∀ index, ((postorder t).filter fun x ↦ hash x.key dep = index).length < maxHashDep

/-- A bucket becomes a table whose slots hold its entries by their hash. -/
theorem remake_spec {heap : NodeHeap μ} {t : AvlTree μ} (h : Represents heap t)
    (hsmall : t.numNodes < 2 ^ 32) (hsafe : RemakeSafe dep t) :
    ∃ table trees, hashInsertAvlInHash dep heap heap.fuel (root t) (fun _ ↦ 0, fun _ ↦ .null) =
      .ok table ∧ TableAt heap.next table trees ∧
        ∀ index, (trees index).numNodes < maxHashDep ∧
          ∀ x, x ∈ inorder (trees index) ↔ x ∈ inorder t ∧ hash x.key dep = index := by
  have hmoving := h.moving hsmall
  obtain ⟨table, hfold, htable⟩ := hmoving.moves dep hsafe.1
  refine ⟨table, _, (hashInsertAvlInHash_eq dep h.rep h.height_lt _).trans hfold, htable, ?_⟩
  intro index
  have hspec := distribute_spec dep (fun _ ↦ SearchTree.sorted_nil _)
    (hmoving.distinct.imp fun hxy ↦ hxy.1)
    (fun x hx index y hy ↦ (hmoving.absent x hx index y hy).1) index
  simp only [inorder_nil, List.nil_append] at hspec
  constructor
  · rw [← length_inorder, hspec.2.length_eq]
    exact hsafe.2 index
  · intro x
    rw [hspec.2.mem_iff, List.mem_filter, (postorder_perm t).mem_iff, decide_eq_true_iff]

end Remake

end FGDB.HashMap
