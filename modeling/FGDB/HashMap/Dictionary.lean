import FGDB.HashMap.Bucket

/-!
# The map as a dictionary

A table holds a dictionary when each of its slots gives the keys that are routed
to it what the dictionary gives them. Search, insertion and removal keep this,
the last two as long as no insertion lacks its pivot, no full bucket moves into
a single slot, and no removal rotates below the root of its bucket.
-/

namespace FGDB.HashMap

open Foundation AvlTree NodeHeap
open SearchTree hiding insert find Sorted erase

variable {μ : Type}

/-- The tree behind a pointer. -/
def treeOf : ℕ → NodeHeap μ → Option ℕ → AvlTree μ
  | 0, _, _ => .nil
  | _ + 1, _, none => .nil
  | fuel + 1, heap, some address =>
    match heap.cells address with
    | none => .nil
    | some node => .node ⟨address, node.key, node.keyMeta⟩ (treeOf fuel heap node.left)
        (treeOf fuel heap node.right)

def slotTree : VoidPtr μ → AvlTree μ
  | .null => .nil
  | .avlnode heap root => treeOf heap.fuel heap (some root)
  | .hmNode _ _ _ => .nil

/-- The heap has the tree with its links; its heights may be out of date. -/
def Linked (heap : NodeHeap μ) : Option ℕ → AvlTree μ → Prop
  | _, .nil => True
  | parent, .node e l r =>
    (∃ hight, heap.cells e.addr = some { cellOf .left e parent l r with hight := hight }) ∧
      Linked heap (some e.addr) l ∧ Linked heap (some e.addr) r

theorem Rep.linked {heap : NodeHeap μ} {parent : Option ℕ} {t : AvlTree μ}
    (hrep : Rep heap parent t) : Linked heap parent t := by
  induction t generalizing parent with
  | nil => trivial
  | node e l r ihl ihr => exact ⟨⟨_, hrep.1⟩, ihl hrep.2.1, ihr hrep.2.2⟩

theorem treeOf_linked {heap : NodeHeap μ} {parent : Option ℕ} {t : AvlTree μ} {fuel : ℕ}
    (hlinked : Linked heap parent t) (hfuel : t.height < fuel) : treeOf fuel heap (root t) = t := by
  induction t generalizing parent fuel with
  | nil =>
    cases fuel with
    | zero => exact absurd hfuel (Nat.not_lt_zero _)
    | succ fuel => rfl
  | node x l r ihl ihr =>
    cases fuel with
    | zero => exact absurd hfuel (Nat.not_lt_zero _)
    | succ fuel =>
      simp only [BinaryTree.height] at hfuel
      obtain ⟨⟨hight, hcell⟩, hl, hr⟩ := hlinked
      have hl := ihl hl (by omega : l.height < fuel)
      have hr := ihr hr (by omega : r.height < fuel)
      simp only [treeOf, root_node, hcell]
      exact congrArg₂ (BinaryTree.node x) hl hr

theorem treeOf_rep {heap : NodeHeap μ} {parent : Option ℕ} {t : AvlTree μ} {fuel : ℕ}
    (hrep : Rep heap parent t) (hfuel : t.height < fuel) : treeOf fuel heap (root t) = t :=
  treeOf_linked hrep.linked hfuel

theorem slotTree_bucket {slot : VoidPtr μ} {t : AvlTree μ} (h : Bucket slot t) :
    slotTree slot = t := by
  obtain ⟨next, heap, rfl, hrep, -⟩ := h
  have htree := treeOf_rep hrep.rep hrep.height_lt
  cases t with
  | nil => rfl
  | node x l r => exact htree

/-- Inserting the key, if it is absent, reaches no rebalancing without its pivot, also when the
bucket becomes a table. -/
def InsertSafe (key : Str) : VoidPtr μ → Prop
  | .null => True
  | .avlnode _ _ => True
  | .hmNode dep lenOfList top =>
    if lenOfList (hash key dep) < maxHashDep then
      AvlTree.find key (slotTree (top (hash key dep))) = none →
      ∀ addr keyMeta, InsertPivots ⟨addr, key, keyMeta⟩ (slotTree (top (hash key dep))) ∧
        (lenOfList (hash key dep) + 1 = maxHashDep →
          RemakeSafe (dep + 1) (AvlTree.insert ⟨addr, key, keyMeta⟩ (slotTree (top (hash key dep)))))
    else InsertSafe key (top (hash key dep))

/-- Deleting the key, if it is present, rotates nothing below the root of its bucket, and finds its
pivot there. -/
def DeleteSafe (key : Str) : VoidPtr μ → Prop
  | .null => True
  | .avlnode _ _ => True
  | .hmNode dep lenOfList top =>
    if lenOfList (hash key dep) < maxHashDep then
      AvlTree.find key (slotTree (top (hash key dep))) ≠ none →
      EraseStill key (slotTree (top (hash key dep))) ∧
        HasPivot (AvlTree.erase key (slotTree (top (hash key dep))))
    else DeleteSafe key (top (hash key dep))

/-- The tree of a slot gives the keys routed to it what the dictionary gives them. -/
structure SlotHolds (d : Str → Option μ) (dep index : ℕ) (routed : Str → Prop) (slot : VoidPtr μ)
    (t : AvlTree μ) : Prop where
  bucket : Bucket slot t
  hashed : ∀ x ∈ inorder t, hash x.key dep = index
  agrees : ∀ key, routed key → d key = (AvlTree.find key t).map Entry.keyMeta

def TableHolds (d : Str → Option μ) : VoidPtr μ → ℕ → (Str → Prop) → Prop
  | .null, _, _ => False
  | .avlnode _ _, _, _ => False
  | .hmNode dep lenOfList top, depth, routed => dep = depth ∧ ∀ index,
    (lenOfList index < maxHashDep ∧ ∃ t, t.numNodes = lenOfList index ∧
      SlotHolds d dep index (fun key ↦ routed key ∧ hash key dep = index) (top index) t) ∨
    (lenOfList index = maxHashDep + 1 ∧
      TableHolds d (top index) (depth + 1) fun key ↦ routed key ∧ hash key dep = index)

/-- What a table says about one of its slots. -/
def EntryHolds (d : Str → Option μ) (dep index len : ℕ) (slot : VoidPtr μ) (depth : ℕ)
    (routed : Str → Prop) : Prop :=
  (len < maxHashDep ∧ ∃ t, t.numNodes = len ∧
    SlotHolds d dep index (fun key ↦ routed key ∧ hash key dep = index) slot t) ∨
  (len = maxHashDep + 1 ∧
    TableHolds d slot (depth + 1) fun key ↦ routed key ∧ hash key dep = index)

theorem tableHolds_iff {d : Str → Option μ} {dep : ℕ} {lenOfList : ℕ → ℕ} {top : ℕ → VoidPtr μ}
    {depth : ℕ} {routed : Str → Prop} : TableHolds d (.hmNode dep lenOfList top) depth routed ↔
      dep = depth ∧ ∀ index, EntryHolds d dep index (lenOfList index) (top index) depth routed :=
  Iff.rfl

theorem TableHolds.congr {d d' : Str → Option μ} {node : VoidPtr μ} {depth : ℕ}
    {routed : Str → Prop} (h : TableHolds d node depth routed)
    (heq : ∀ key, routed key → d key = d' key) : TableHolds d' node depth routed := by
  induction node generalizing depth routed with
  | null => exact h
  | avlnode heap root => exact h
  | hmNode dep lenOfList top ih =>
    refine ⟨h.1, fun index ↦ ?_⟩
    rcases h.2 index with ⟨hlen, t, hsize, hslot⟩ | ⟨hlen, htable⟩
    · exact .inl ⟨hlen, t, hsize, hslot.bucket, hslot.hashed, fun key hkey ↦
        (heq key hkey.1).symm.trans (hslot.agrees key hkey)⟩
    · exact .inr ⟨hlen, ih index htable fun key hkey ↦ heq key hkey.1⟩

theorem EntryHolds.congr {d d' : Str → Option μ} {dep index len : ℕ} {slot : VoidPtr μ}
    {depth : ℕ} {routed : Str → Prop} (h : EntryHolds d dep index len slot depth routed)
    (heq : ∀ key, routed key → hash key dep = index → d key = d' key) :
    EntryHolds d' dep index len slot depth routed := by
  rcases h with ⟨hlen, t, hsize, hslot⟩ | ⟨hlen, htable⟩
  · exact .inl ⟨hlen, t, hsize, hslot.bucket, hslot.hashed, fun key hkey ↦
      (heq key hkey.1 hkey.2).symm.trans (hslot.agrees key hkey)⟩
  · exact .inr ⟨hlen, htable.congr fun key hkey ↦ heq key hkey.1 hkey.2⟩

/-- A change of one slot, for a dictionary that changes at one key of this slot. -/
theorem tableHolds_update {d d' : Str → Option μ} {dep : ℕ} {lenOfList lenOfList' : ℕ → ℕ}
    {top : ℕ → VoidPtr μ} {depth index : ℕ} {routed : Str → Prop} {slot : VoidPtr μ}
    (h : TableHolds d (.hmNode dep lenOfList top) depth routed)
    (hd : ∀ key, hash key dep ≠ index → d key = d' key)
    (hlen : ∀ other, other ≠ index → lenOfList' other = lenOfList other)
    (hentry : EntryHolds d' dep index (lenOfList' index) slot depth routed) :
    TableHolds d' (.hmNode dep lenOfList' (Function.update top index slot)) depth routed := by
  refine ⟨h.1, fun other ↦ ?_⟩
  by_cases hother : other = index
  · rw [hother, Function.update_self]
    exact hentry
  · rw [Function.update_of_ne hother, hlen other hother]
    exact (tableHolds_iff.mp h).2 other |>.congr fun key _ hkey ↦ hd key (hkey ▸ hother)

/-- The search finds what the dictionary has. -/
theorem searchFrom_holds {d : Str → Option μ} {node : VoidPtr μ} {depth : ℕ}
    {routed : Str → Prop} (h : TableHolds d node depth routed) {key : Str} (hkey : routed key) :
    ∃ found, searchFrom key node = .ok found ∧ found.map AvlNode.keyMeta = d key := by
  induction node generalizing depth routed with
  | null => exact h.elim
  | avlnode heap root => exact h.elim
  | hmNode dep lenOfList top ih =>
    rcases h.2 (hash key dep) with ⟨hlen, t, hsize, hslot⟩ | ⟨hlen, htable⟩
    · obtain ⟨heap, htree, hrep⟩ := toTree_bucket hslot.bucket
      have hagrees := hslot.agrees key ⟨hkey, rfl⟩
      have hsearch := hrep.search key
      cases hfind : AvlTree.find key t with
      | none =>
        rw [hfind] at hagrees hsearch
        refine ⟨none, ?_, hagrees.symm⟩
        simp only [searchFrom, if_pos hlen, htree, ok_bind, hsearch, Option.map_none, pure_eq_ok]
      | some x =>
        rw [hfind] at hagrees hsearch
        have hx := ((SearchTree.find_eq_some_iff Entry.key hrep.sorted).mp hfind).1
        obtain ⟨node, hload, -, hmeta⟩ := hrep.rep.load hx
        refine ⟨some node, ?_, ?_⟩
        · simp only [searchFrom, if_pos hlen, htree, ok_bind, hsearch, Option.map_some, hload,
            pure_eq_ok]
        · rw [hagrees, Option.map_some, Option.map_some, hmeta]
    · obtain ⟨found, hsearch, hfound⟩ := ih (hash key dep) htable ⟨hkey, rfl⟩
      refine ⟨found, ?_, hfound⟩
      rw [searchFrom, if_neg (by omega), hsearch]

theorem find_insert {t : AvlTree μ} {e : Entry μ} (hsorted : AvlTree.Sorted t)
    (habsent : AvlTree.find e.key t = none) (key : Str) :
    AvlTree.find key (AvlTree.insert e t) = if key = e.key then some e else AvlTree.find key t :=
  SearchTree.find_insert _ inorder_rebalance hsorted
    ((SearchTree.find_eq_none_iff Entry.key hsorted).mp habsent) key

/-- A full bucket becomes a child table that holds the same. -/
theorem remake_holds {d : Str → Option μ} {dep index : ℕ} {routed : Str → Prop}
    {slot : VoidPtr μ} {t : AvlTree μ} (hslot : SlotHolds d dep index routed slot t)
    (hsize : t.numNodes = maxHashDep) (hsafe : RemakeSafe (dep + 1) t)
    {lenOfList : ℕ → ℕ} {top : ℕ → VoidPtr μ} (htop : top index = slot)
    (hlen : lenOfList index = maxHashDep) :
    ∃ childLen childTop, hashRemake dep lenOfList top index = .ok (.hmNode dep
      (Function.update lenOfList index (maxHashDep + 1))
      (Function.update top index (.hmNode (dep + 1) childLen childTop))) ∧
        (∀ other, childLen other < maxHashDep) ∧
          TableHolds d (.hmNode (dep + 1) childLen childTop) (dep + 1) routed := by
  obtain ⟨heap, htree, hrep⟩ := toTree_bucket hslot.bucket
  obtain ⟨table, trees, hmove, htable, htrees⟩ :=
    remake_spec (dep + 1) hrep (by rw [hsize]; decide) hsafe
  refine ⟨table.1, table.2, ?_, fun other ↦ (htable other).1 ▸ (htrees other).1, rfl,
    fun other ↦ .inl ?_⟩
  · have hwrap : wrap32 (maxHashDep + 1) = maxHashDep + 1 := rfl
    simp only [hashRemake, hlen, ne_eq, not_true_eq_false, if_false, htop, htree, ok_bind, hmove,
      hwrap, pure_eq_ok]
  · obtain ⟨hcount, hbucket⟩ := htable other
    obtain ⟨hfew, hmem⟩ := htrees other
    refine ⟨hcount ▸ hfew, trees other, hcount.symm, ⟨_, hbucket⟩,
      fun x hx ↦ ((hmem x).mp hx).2, fun key hkey ↦ ?_⟩
    have hsorted : AvlTree.Sorted (trees other) := by
      obtain ⟨heap', -, hrep', -⟩ := hbucket
      exact hrep'.sorted
    have hfind : AvlTree.find key t = AvlTree.find key (trees other) := by
      apply SearchTree.find_congr Entry.key hrep.sorted hsorted
      intro x hx
      rw [hmem, hx, and_iff_left hkey.2]
    rw [hslot.agrees key hkey.1, hfind]

/-- Inserting an absent key binds it. -/
theorem insertFrom_holds {d : Str → Option μ} {node : VoidPtr μ} {depth : ℕ}
    {routed : Str → Prop} (h : TableHolds d node depth routed) {key : Str} (hkey : routed key)
    (habsent : d key = none) (hsafe : InsertSafe key node) (keyMeta : μ) :
    ∃ node', insertFrom key keyMeta node = .ok (node', 1) ∧
      TableHolds (Function.update d key (some keyMeta)) node' depth routed := by
  induction node generalizing depth routed with
  | null => exact h.elim
  | avlnode heap root => exact h.elim
  | hmNode dep lenOfList top ih =>
    have hd (other : Str) (hother : hash other dep ≠ hash key dep) :
        d other = Function.update d key (some keyMeta) other := by
      have hne : other ≠ key := fun heq ↦ hother (congrArg (hash · dep) heq)
      rw [Function.update_of_ne hne]
    unfold InsertSafe at hsafe
    rcases h.2 (hash key dep) with ⟨hlen, t, hsize, hslot⟩ | ⟨hlen, htable⟩
    · rw [if_pos hlen, slotTree_bucket hslot.bucket] at hsafe
      obtain ⟨heap, htree, hrep⟩ := toTree_bucket hslot.bucket
      have hnone : AvlTree.find key t = none := by
        have := hslot.agrees key ⟨hkey, rfl⟩
        rw [habsent] at this
        exact Option.map_eq_none_iff.mp this.symm
      have hperm : (inorder (AvlTree.insert ⟨heap.next, key, keyMeta⟩ t)).Perm
          (⟨heap.next, key, keyMeta⟩ :: inorder t) :=
        SearchTree.perm_inorder_insert _ inorder_rebalance hrep.sorted
          ((SearchTree.find_eq_none_iff Entry.key hrep.sorted).mp hnone)
      obtain ⟨hpivots, hremake⟩ := hsafe hnone heap.next keyMeta
      obtain ⟨slot, hlink, hbucket⟩ := linkNode_ready (ready_new hrep hnone keyMeta) hpivots
      have hslot' : SlotHolds (Function.update d key (some keyMeta)) dep (hash key dep)
          (fun other ↦ routed other ∧ hash other dep = hash key dep) slot
          (AvlTree.insert ⟨heap.next, key, keyMeta⟩ t) := by
        refine ⟨⟨_, hbucket⟩, fun x hx ↦ ?_, fun other hother ↦ ?_⟩
        · rcases List.mem_cons.mp (hperm.mem_iff.mp hx) with rfl | hx
          · rfl
          · exact hslot.hashed x hx
        · rw [find_insert hrep.sorted hnone]
          by_cases heq : other = key
          · rw [heq, Function.update_self, if_pos rfl, Option.map_some]
          · rw [Function.update_of_ne heq, if_neg heq]
            exact hslot.agrees other hother
      have hwrap : wrap32 (lenOfList (hash key dep) + 1) = lenOfList (hash key dep) + 1 := by
        unfold wrap32
        unfold maxHashDep at hlen
        omega
      have hsize' : (AvlTree.insert ⟨heap.next, key, keyMeta⟩ t).numNodes =
          lenOfList (hash key dep) + 1 := by
        rw [← hsize, ← length_inorder, ← length_inorder]
        exact hperm.length_eq
      have hinsert : insertFrom key keyMeta (.hmNode dep lenOfList top) = do
          return (← hashRemake dep (Function.update lenOfList (hash key dep)
            (lenOfList (hash key dep) + 1)) (Function.update top (hash key dep) slot)
              (hash key dep), 1) := by
        have hnot : ¬ ((1 : ℤ) = -1) := by decide
        have hlink' : linkNode (avlNewNode heap key keyMeta).1 (root t)
            (avlNewNode heap key keyMeta).2 = .ok (slot, 1) := hlink
        rw [insertFrom, if_neg (by omega)]
        simp only [htree, ok_bind, hlink', hwrap, if_neg hnot]
      by_cases hfull : lenOfList (hash key dep) + 1 = maxHashDep
      · obtain ⟨childLen, childTop, hremade, -, hchild⟩ := remake_holds hslot' (hsize'.trans hfull)
          (hremake hfull) (Function.update_self (hash key dep) slot top)
          ((Function.update_self _ _ lenOfList).trans hfull)
        refine ⟨_, hinsert.trans (by rw [hremade]; rfl), ?_⟩
        · rw [Function.update_idem, Function.update_idem]
          apply tableHolds_update h hd
          · exact fun other hother ↦ Function.update_of_ne hother _ _
          · rw [Function.update_self]
            exact .inr ⟨rfl, h.1 ▸ hchild⟩
      · have hnot : Function.update lenOfList (hash key dep) (lenOfList (hash key dep) + 1)
            (hash key dep) ≠ maxHashDep := by
          rwa [Function.update_self]
        refine ⟨_, hinsert.trans (by rw [hashRemake, if_pos hnot]; rfl), ?_⟩
        · apply tableHolds_update h hd
          · exact fun other hother ↦ Function.update_of_ne hother _ _
          · rw [Function.update_self]
            exact .inl ⟨by omega, _, hsize', hslot'⟩
    · obtain ⟨child, hinsert, hchild⟩ := ih (hash key dep) htable ⟨hkey, rfl⟩
        (by rwa [if_neg (by omega)] at hsafe)
      refine ⟨.hmNode dep lenOfList (Function.update top (hash key dep) child), ?_,
        tableHolds_update h hd (fun _ _ ↦ rfl) (.inr ⟨hlen, hchild⟩)⟩
      rw [insertFrom, if_pos (by omega), hinsert]
      rfl

theorem fill_key (x m : Entry μ) : (fill x m).key = m.key := rfl

theorem fill_keyMeta (x m : Entry μ) : (fill x m).keyMeta = m.keyMeta := rfl

theorem sorted_rebalance {t : AvlTree μ} (h : AvlTree.Sorted t) :
    AvlTree.Sorted (rebalance t) := by
  unfold AvlTree.Sorted SearchTree.Sorted
  rw [inorder_rebalance]
  exact h

theorem sorted_erase {t : AvlTree μ} (h : AvlTree.Sorted t) (key : Str) :
    AvlTree.Sorted (AvlTree.erase key t) :=
  SearchTree.sorted_erase Entry.key fill_key h key

/-- The removal of the only node. -/
theorem avlRemoveNode_only {heap : NodeHeap μ} {y : Entry μ} {key : Str} (hy : y.key = key)
    (hrep : Rep heap none (.node y .nil .nil)) : avlRemoveNode heap.fuel heap (some y.addr) key =
      .ok (avlDeleteNode heap (some y.addr), none, 1) := by
  have hkey : (cellOf .left y none (.nil : AvlTree μ) .nil).key = y.key := rfl
  have hleft : (cellOf .left y none (.nil : AvlTree μ) .nil).left = none := rfl
  have hright : (cellOf .left y none (.nil : AvlTree μ) .nil).right = none := rfl
  have hparent : (cellOf .left y none (.nil : AvlTree μ) .nil).parent = none := rfl
  simp only [NodeHeap.fuel, avlRemoveNode, load_of_cells hrep.1, ok_bind, hkey,
    (keyComp_eq_zero_iff _ _).mpr hy, if_true, hleft, hright, removeLeaf, hparent, forgetLeaf,
    avlCalcHight, pure_eq_ok]

/-- The removal of a present key leaves the tree without it, with all links right. -/
theorem avlRemoveNode_represents {heap : NodeHeap μ} {t : AvlTree μ} (h : Represents heap t)
    {key : Str} {x : Entry μ} (hfind : AvlTree.find key t = some x) (hstill : EraseStill key t)
    (hpivot : HasPivot (AvlTree.erase key t)) :
    ∃ heap', avlRemoveNode heap.fuel heap (root t) key =
      .ok (heap', root (rebalance (AvlTree.erase key t)), 1) ∧
        Represents heap' (rebalance (AvlTree.erase key t)) := by
  by_cases hnil : AvlTree.erase key t = .nil
  · rw [hnil]
    rcases erase_eq_nil hnil with rfl | ⟨y, rfl, hy⟩
    · cases hfind
    · exact ⟨_, avlRemoveNode_only hy h.rep, represents_nil _⟩
  · obtain ⟨heap', hremove, hrep', hframe⟩ :=
      avlRemoveNode_rep h.rep h.nodup h.height_lt hstill hpivot hnil
    obtain ⟨hnodup, hsub⟩ := @addrs_erase μ key t h.nodup
    refine ⟨heap', hremove, hrep', ?_, ?_, ?_⟩
    · rwa [addrs_rebalance]
    · intro address hmem
      rw [addrs_rebalance] at hmem
      exact hframe.1 ▸ h.below address (hsub address hmem)
    · exact sorted_rebalance (sorted_erase h.sorted key)

theorem find_erase {t : AvlTree μ} (hsorted : AvlTree.Sorted t) (key key' : Str) :
    (AvlTree.find key (rebalance (AvlTree.erase key' t))).map Entry.keyMeta =
      if key = key' then none else (AvlTree.find key t).map Entry.keyMeta := by
  have hsorted' := sorted_erase hsorted key'
  have hfind : AvlTree.find key (rebalance (AvlTree.erase key' t)) =
      AvlTree.find key (AvlTree.erase key' t) := by
    apply SearchTree.find_congr Entry.key (sorted_rebalance hsorted') hsorted'
    intro x _
    rw [inorder_rebalance]
  rw [hfind]
  exact SearchTree.find_erase Entry.key fill_keyMeta fill_key hsorted key key'

/-- Deleting a present key unbinds it. -/
theorem deleteFrom_holds {d : Str → Option μ} {node : VoidPtr μ} {depth : ℕ}
    {routed : Str → Prop} (h : TableHolds d node depth routed) {key : Str} (hkey : routed key)
    {keyMeta : μ} (hpresent : d key = some keyMeta) (hsafe : DeleteSafe key node) :
    ∃ node', deleteFrom key node = .ok node' ∧
      TableHolds (Function.update d key none) node' depth routed := by
  induction node generalizing depth routed with
  | null => exact h.elim
  | avlnode heap root => exact h.elim
  | hmNode dep lenOfList top ih =>
    have hd (other : Str) (hother : hash other dep ≠ hash key dep) :
        d other = Function.update d key none other := by
      have hne : other ≠ key := fun heq ↦ hother (congrArg (hash · dep) heq)
      rw [Function.update_of_ne hne]
    unfold DeleteSafe at hsafe
    rcases h.2 (hash key dep) with ⟨hlen, t, hsize, hslot⟩ | ⟨hlen, htable⟩
    · rw [if_pos hlen, slotTree_bucket hslot.bucket] at hsafe
      obtain ⟨heap, htree, hrep⟩ := toTree_bucket hslot.bucket
      obtain ⟨x, hfind⟩ : ∃ x, AvlTree.find key t = some x := by
        have hfound := hslot.agrees key ⟨hkey, rfl⟩
        rw [hpresent] at hfound
        obtain ⟨x, hx, -⟩ := Option.map_eq_some_iff.mp hfound.symm
        exact ⟨x, hx⟩
      obtain ⟨hstill, hpivot⟩ := hsafe (by simp [hfind])
      obtain ⟨heap', hremove, hrep'⟩ := avlRemoveNode_represents hrep hfind hstill hpivot
      have hsize' : (rebalance (AvlTree.erase key t)).numNodes + 1 = lenOfList (hash key dep) := by
        rw [← hsize, ← SearchTree.numNodes_erase Entry.key fill_key hrep.sorted hfind,
          ← length_inorder, inorder_rebalance, length_inorder]
        rfl
      have hwrap : wrap32 (lenOfList (hash key dep) + (2 ^ 32 - 1)) =
          (rebalance (AvlTree.erase key t)).numNodes := by
        unfold wrap32
        unfold maxHashDep at hlen
        omega
      refine ⟨.hmNode dep (Function.update lenOfList (hash key dep)
        (rebalance (AvlTree.erase key t)).numNodes)
          (Function.update top (hash key dep)
            (.ofTree heap' (root (rebalance (AvlTree.erase key t))))), ?_, ?_⟩
      · rw [deleteFrom, if_pos hlen]
        simp only [htree, ok_bind, hremove, if_true, hwrap, pure_eq_ok]
      · apply tableHolds_update h hd
        · exact fun other hother ↦ Function.update_of_ne hother _ _
        · rw [Function.update_self]
          refine .inl ⟨by omega, _, rfl, ⟨_, heap', rfl, hrep', rfl⟩, fun y hy ↦ ?_, fun other hother ↦ ?_⟩
          · rw [inorder_rebalance] at hy
            have hpairs := SearchTree.inorder_erase Entry.key fill_key hrep.sorted key
            have hkeyMem : y.key ∈ (inorder (AvlTree.erase key t)).map Entry.key :=
              List.mem_map_of_mem hy
            rw [AvlTree.erase, hpairs] at hkeyMem
            obtain ⟨z, hz, hzy⟩ := List.mem_map.mp hkeyMem
            rw [← hzy]
            exact hslot.hashed z (List.mem_of_mem_filter hz)
          · rw [find_erase hrep.sorted]
            by_cases heq : other = key
            · rw [heq, Function.update_self, if_pos rfl]
            · rw [Function.update_of_ne heq, if_neg heq]
              exact hslot.agrees other hother
    · obtain ⟨child, hdelete, hchild⟩ := ih (hash key dep) htable ⟨hkey, rfl⟩
        (by rwa [if_neg (by omega)] at hsafe)
      refine ⟨.hmNode dep lenOfList (Function.update top (hash key dep) child), ?_,
        tableHolds_update h hd (fun _ _ ↦ rfl) (.inr ⟨hlen, hchild⟩)⟩
      rw [deleteFrom, if_neg (by omega), hdelete]
      rfl

end FGDB.HashMap
