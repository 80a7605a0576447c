import FGDB.HashMap.Sequence

/-!
# The end of the map

The shutdown erases the map: the nodes of a tree after their children, each with its
key, and a table after its slots. What a child table has was routed to it, so the keys
that are destroyed are those of the dictionary.
-/

namespace FGDB.HashMap

open Foundation AvlTree NodeHeap
open SearchTree hiding insert find Sorted erase

variable {μ : Type}

/-- `avl_erase`, with the keys in the order in which they are destroyed. The children are read from
the node when their turn comes. -/
def avlErase : ℕ → NodeHeap μ → Option ℕ → Outcome (NodeHeap μ × List Str)
  | 0, _, _ => .error .nontermination
  | _ + 1, heap, none => .ok (heap, [])
  | fuel + 1, heap, some address => do
    let left := (← heap.load (some address)).left
    let (heap, before) ← left.elim (.ok (heap, [])) fun child ↦ avlErase fuel heap (some child)
    let right := (← heap.load (some address)).right
    let (heap, after) ← right.elim (.ok (heap, [])) fun child ↦ avlErase fuel heap (some child)
    let heap ← heap.modify (some address) fun node ↦ { node with left := none, right := none }
    let key := (← heap.load (some address)).key
    return (avlDeleteNode heap (some address), before ++ after ++ [key])

/-- The keys that are destroyed in a slot. A length that is the threshold itself would be taken for
that of a tree. -/
def eraseSlot (table : Outcome (List Str × ℤ)) (len : ℕ) (slot : VoidPtr μ) :
    Outcome (List Str) :=
  if maxHashDep < len then do
    let (keys, _) ← table
    return keys
  else if 0 < len then do
    let (heap, root) ← slot.toTree
    let (_, keys) ← avlErase heap.fuel heap root
    return keys
  else return []

/-- `hash_erase`, with the keys that are destroyed. -/
def hashErase : VoidPtr μ → Outcome (List Str × ℤ)
  | .null => .ok ([], 0)
  | .avlnode _ _ => .error .typeConfusion
  | .hmNode _ lenOfList top => do
    let keys ← (List.range maxHashNode).foldlM (fun keys index ↦ do
      let more ← eraseSlot (hashErase (top index)) (lenOfList index) (top index)
      return keys ++ more) []
    return (keys, 1)

/-- `hashmap_delete`. -/
def hashmapDelete (hashmap : VoidPtr μ) : Outcome (List Str) := do
  let (keys, result) ← hashErase hashmap
  if result = 1 then return keys else .error .assertionFailed

section Tree

variable {heap : NodeHeap μ} {parent : Option ℕ} {t : AvlTree μ} {fuel : ℕ}

theorem avlErase_child (hfuel : 0 < fuel) (heap : NodeHeap μ) (node : Option ℕ) :
    (node.elim (.ok (heap, [])) fun child ↦ avlErase fuel heap (some child)) =
      avlErase fuel heap node := by
  obtain ⟨fuel, rfl⟩ := Nat.exists_eq_succ_of_ne_zero (Nat.ne_of_gt hfuel)
  cases node with
  | none => rfl
  | some address => rfl

/-- Every node of the tree is freed, once, and no other one. -/
theorem avlErase_rep (hrep : Rep heap parent t) (hnodup : (addrs t).Nodup)
    (hfuel : t.height < fuel) : ∃ heap', avlErase fuel heap (root t) =
      .ok (heap', (postorder t).map Entry.key) ∧ Frame (addrs t) heap heap' ∧
        ∀ address ∈ addrs t, heap'.cells address = none := by
  induction t generalizing heap parent fuel with
  | nil =>
    obtain ⟨fuel, rfl⟩ := Nat.exists_eq_succ_of_ne_zero (Nat.ne_of_gt (Nat.zero_lt_of_lt hfuel))
    exact ⟨heap, rfl, .refl _ _, fun _ hmem ↦ absurd hmem List.not_mem_nil⟩
  | node e l r ihl ihr =>
    obtain ⟨fuel, rfl⟩ := Nat.exists_eq_succ_of_ne_zero (Nat.ne_of_gt (Nat.zero_lt_of_lt hfuel))
    simp only [BinaryTree.height] at hfuel
    have haddrs : addrs (.node e l r) = addrs l ++ e.addr :: addrs r := by
      rw [addrs, inorder_node, List.map_append, List.map_cons]
      rfl
    rw [haddrs] at hnodup ⊢
    obtain ⟨hnodupl, hnodupr, hapart⟩ := List.nodup_append.mp hnodup
    obtain ⟨her, hnodupr⟩ := List.nodup_cons.mp hnodupr
    have hel : e.addr ∉ addrs l := fun hmem ↦ hapart _ hmem _ List.mem_cons_self rfl
    obtain ⟨heap1, hleft, hframe1, hfreed1⟩ :=
      ihl hrep.2.1 hnodupl (by omega : l.height < fuel)
    have hcell1 : heap1.cells e.addr = some (cellOf .left e parent l r) :=
      (hframe1.2 _ hel).trans hrep.1
    have hrep1 : Rep heap1 (some e.addr) r := hrep.2.2.frame hframe1 fun address hmem hin ↦
      hapart _ hin _ (List.mem_cons_of_mem _ hmem) rfl
    obtain ⟨heap2, hright, hframe2, hfreed2⟩ := ihr hrep1 hnodupr (by omega : r.height < fuel)
    have hcell2 : heap2.cells e.addr = some (cellOf .left e parent l r) :=
      (hframe2.2 _ her).trans hcell1
    have hpos : 0 < fuel := by omega
    obtain ⟨bare, hbare⟩ : ∃ bare : AvlNode μ, bare =
      { cellOf .left e parent l r with left := none, right := none } := ⟨_, rfl⟩
    have hmodify : heap2.modify (some e.addr)
        (fun node ↦ { node with left := none, right := none }) = .ok (heap2.set e.addr bare) := by
      rw [modify_of_cells hcell2, hbare]
    have hload : (heap2.set e.addr bare).load (some e.addr) = .ok bare :=
      load_of_cells (Function.update_self _ _ _)
    have hkey : bare.key = e.key := by
      rw [hbare]
      rfl
    refine ⟨avlDeleteNode (heap2.set e.addr bare) (some e.addr), ?_, ?_, ?_⟩
    · have hl : (cellOf .left e parent l r).left = root l := rfl
      have hr : (cellOf .left e parent l r).right = root r := rfl
      simp only [avlErase, root_node, load_of_cells hrep.1, ok_bind, hl, avlErase_child hpos, hleft,
        load_of_cells hcell1, hr, hright, hmodify, hload, hkey, pure_eq_ok, postorder,
        List.map_append, List.map_singleton]
    · have hmem : e.addr ∈ addrs l ++ e.addr :: addrs r :=
        List.mem_append_right _ List.mem_cons_self
      have hleft' := hframe1.mono fun address h ↦
        (List.mem_append_left (e.addr :: addrs r) h : address ∈ addrs l ++ e.addr :: addrs r)
      have hright' := hframe2.mono fun address h ↦
        (List.mem_append_right (addrs l) (List.mem_cons_of_mem e.addr h) :
          address ∈ addrs l ++ e.addr :: addrs r)
      exact ((hleft'.trans hright').trans (frame_set heap2 bare hmem)).trans (frame_delete _ hmem)
    · have hother {address : ℕ} (hne : address ≠ e.addr) :
          (avlDeleteNode (heap2.set e.addr bare) (some e.addr)).cells address =
            heap2.cells address := by
        have hdelete := (frame_delete (heap2.set e.addr bare)
          (List.mem_singleton_self e.addr)).2 address fun h ↦ hne (List.mem_singleton.mp h)
        exact hdelete.trans (Function.update_of_ne hne _ _)
      intro address hmem
      by_cases heq : address = e.addr
      · rw [heq]
        exact Function.update_self _ _ _
      · rw [hother heq]
        rcases List.mem_append.mp hmem with hmem | hmem
        · rw [hframe2.2 address fun hin ↦ hapart _ hmem _ (List.mem_cons_of_mem _ hin) rfl]
          exact hfreed1 address hmem
        · exact hfreed2 address ((List.mem_cons.mp hmem).resolve_left heq)

end Tree

section Table

/-- The keys behind a pointer are routed to it. -/
def Routes : VoidPtr μ → (Str → Prop) → Prop
  | .null, _ => True
  | .avlnode heap address, routed =>
    ∀ x ∈ inorder (slotTree (.avlnode heap address)), routed x.key
  | .hmNode dep _ top, routed =>
    ∀ index, Routes (top index) fun key ↦ routed key ∧ hash key dep = index

variable {d : Str → Option μ} {dep index depth len : ℕ} {routed : Str → Prop} {slot : VoidPtr μ}
  {t : AvlTree μ}

theorem Bucket.routes_iff (h : Bucket slot t) :
    Routes slot routed ↔ ∀ x ∈ inorder t, routed x.key := by
  rw [← slotTree_bucket h]
  obtain ⟨next, heap, rfl, -, -⟩ := h
  cases t with
  | nil => exact iff_of_true trivial fun x hx ↦ absurd hx List.not_mem_nil
  | node e l r => exact Iff.rfl

/-- The keys of the tree of a slot are destroyed. -/
theorem eraseSlot_tree {table : Outcome (List Str × ℤ)} (h : Bucket slot t)
    (hlen : len < maxHashDep) (hsize : t.numNodes = len) :
    eraseSlot table len slot = .ok ((postorder t).map Entry.key) := by
  obtain ⟨heap, htree, hrep⟩ := toTree_bucket h
  obtain ⟨heap', herase, -⟩ := avlErase_rep hrep.rep hrep.nodup hrep.height_lt
  rw [eraseSlot, if_neg (by omega)]
  by_cases hpos : 0 < len
  · simp only [if_pos hpos, htree, ok_bind, herase, pure_eq_ok]
  · cases t with
    | nil =>
      rw [if_neg hpos]
      rfl
    | node e l r =>
      rw [BinaryTree.numNodes] at hsize
      omega

/-- A slot has the keys of the dictionary that are routed to it, each once. -/
theorem SlotHolds.keys (h : SlotHolds d dep index routed slot t) (hroutes : Routes slot routed) :
    ((postorder t).map Entry.key).Nodup ∧
      ∀ key, key ∈ (postorder t).map Entry.key ↔ routed key ∧ d key ≠ none := by
  obtain ⟨heap, htree, hrep⟩ := toTree_bucket h.bucket
  have hperm := (postorder_perm t).map Entry.key
  constructor
  · rw [hperm.nodup_iff]
    exact ((SearchTree.sorted_iff_map Entry.key t).mp hrep.sorted).imp fun hlt ↦ hlt.ne
  · intro key
    rw [hperm.mem_iff, List.mem_map]
    constructor
    · rintro ⟨x, hx, rfl⟩
      have hrouted := h.bucket.routes_iff.mp hroutes x hx
      have hfind : AvlTree.find x.key t = some x :=
        (SearchTree.find_eq_some_iff Entry.key hrep.sorted).mpr ⟨hx, rfl⟩
      refine ⟨hrouted, ?_⟩
      rw [h.agrees x.key hrouted, hfind]
      exact Option.some_ne_none _
    · rintro ⟨hrouted, hpresent⟩
      rw [h.agrees key hrouted, ne_eq, Option.map_eq_none_iff, ← ne_eq,
        Option.ne_none_iff_exists'] at hpresent
      obtain ⟨x, hx⟩ := hpresent
      exact ⟨x, (SearchTree.find_eq_some_iff Entry.key hrep.sorted).mp hx⟩

/-- Every key of the dictionary is destroyed, once. -/
theorem hashErase_holds {node : VoidPtr μ} (h : TableHolds d node depth routed)
    (hroutes : Routes node routed) : ∃ keys, hashErase node = .ok (keys, 1) ∧ keys.Nodup ∧
      ∀ key, key ∈ keys ↔ routed key ∧ d key ≠ none := by
  induction node generalizing depth routed with
  | null => exact h.elim
  | avlnode heap root => exact h.elim
  | hmNode dep lenOfList top ih =>
    have hslot (index : ℕ) : ∃ more, eraseSlot (hashErase (top index)) (lenOfList index)
        (top index) = .ok more ∧ more.Nodup ∧
          ∀ key, key ∈ more ↔ (routed key ∧ hash key dep = index) ∧ d key ≠ none := by
      rcases h.2 index with ⟨hlen, t, hsize, hslot⟩ | ⟨hlen, htable⟩
      · exact ⟨_, eraseSlot_tree hslot.bucket hlen hsize, hslot.keys (hroutes index)⟩
      · obtain ⟨keys, herase, hkeys⟩ := ih index htable (hroutes index)
        refine ⟨keys, ?_, hkeys⟩
        rw [eraseSlot, if_pos (by omega), herase]
        rfl
    obtain ⟨keys, hloop, hnodup, hmem⟩ := @foldlM_range_ok _
      (fun keys index ↦ do
        let more ← eraseSlot (hashErase (top index)) (lenOfList index) (top index)
        return keys ++ more)
      (fun count keys ↦ keys.Nodup ∧
        ∀ key, key ∈ keys ↔ (routed key ∧ d key ≠ none) ∧ hash key dep < count) maxHashNode [] 
      ⟨.nil, fun key ↦ iff_of_false List.not_mem_nil fun h ↦ Nat.not_lt_zero _ h.2⟩ (by
        intro index keys hindex hkeys
        obtain ⟨more, herase, hnodup, hmem⟩ := hslot index
        refine ⟨keys ++ more, ?_, ?_, fun key ↦ ?_⟩
        · rw [herase]
          rfl
        · refine List.nodup_append.mpr ⟨hkeys.1, hnodup, ?_⟩
          rintro key hkey _ hkey' rfl
          have hlt := ((hkeys.2 key).mp hkey).2
          have heq := ((hmem key).mp hkey').1.2
          omega
        · rw [List.mem_append, hkeys.2, hmem, Nat.lt_succ_iff_lt_or_eq]
          tauto)
    refine ⟨keys, ?_, hnodup, fun key ↦ ?_⟩
    · rw [hashErase, hloop]
      rfl
    · rw [hmem, and_iff_left (hash_lt key dep)]

end Table

section Kept

variable {d : Str → Option μ} {node node' slot : VoidPtr μ} {dep index depth : ℕ}
  {lenOfList lenOfList' : ℕ → ℕ} {top : ℕ → VoidPtr μ} {routed : Str → Prop} {t : AvlTree μ}
  {key : Str} {keyMeta : μ} {result : ℤ}

theorem routes_update (h : Routes (.hmNode dep lenOfList top) routed)
    (hslot : Routes slot fun key ↦ routed key ∧ hash key dep = index) :
    Routes (.hmNode dep lenOfList' (Function.update top index slot)) routed := by
  intro other
  by_cases hother : other = index
  · rw [hother, Function.update_self]
    exact hslot
  · rw [Function.update_of_ne hother]
    exact h other

/-- What was in a full bucket stays routed in its child table. -/
theorem hashRemake_routes (hbucket : Bucket slot t) (hfew : t.numNodes < 2 ^ 32)
    (hsafe : lenOfList index = maxHashDep → RemakeSafe (dep + 1) t) (htop : top index = slot)
    (hroutes : Routes (.hmNode dep lenOfList top) routed)
    (h : hashRemake dep lenOfList top index = .ok node') : Routes node' routed := by
  by_cases hfull : lenOfList index = maxHashDep
  · obtain ⟨heap, htree, hrep⟩ := toTree_bucket hbucket
    obtain ⟨table, trees, hmove, htable, htrees⟩ := remake_spec (dep + 1) hrep hfew (hsafe hfull)
    simp only [hashRemake, hfull, ne_eq, not_true_eq_false, if_false, htop, htree, ok_bind, hmove,
      pure_eq_ok] at h
    rw [← Except.ok.inj h]
    refine routes_update hroutes fun other ↦ ?_
    have hslot := hroutes index
    rw [htop, hbucket.routes_iff] at hslot
    rw [Bucket.routes_iff ⟨_, (htable other).2⟩]
    intro x hx
    obtain ⟨hmem, hhash⟩ := ((htrees other).2 x).mp hx
    exact ⟨hslot x hmem, hhash⟩
  · rw [hashRemake, if_pos hfull] at h
    rw [← Except.ok.inj h]
    exact hroutes

/-- A key is inserted where it is routed to. -/
theorem insertFrom_routes (h : TableHolds d node depth routed) (hroutes : Routes node routed)
    (hkey : routed key) (habsent : d key = none) (hsafe : InsertSafe key node)
    (hinsert : insertFrom key keyMeta node = .ok (node', result)) : Routes node' routed := by
  induction node generalizing depth routed node' result with
  | null => exact h.elim
  | avlnode heap root => exact h.elim
  | hmNode dep lenOfList top ih =>
    unfold InsertSafe at hsafe
    rcases h.2 (hash key dep) with ⟨hlen, t, hsize, hslot⟩ | ⟨hlen, htable⟩
    · rw [if_pos hlen, slotTree_bucket hslot.bucket] at hsafe
      obtain ⟨heap, htree, hrep⟩ := toTree_bucket hslot.bucket
      have hnone : AvlTree.find key t = none := by
        have hagrees := hslot.agrees key ⟨hkey, rfl⟩
        rw [habsent] at hagrees
        exact Option.map_eq_none_iff.mp hagrees.symm
      have hperm : (inorder (AvlTree.insert ⟨heap.next, key, keyMeta⟩ t)).Perm
          (⟨heap.next, key, keyMeta⟩ :: inorder t) :=
        SearchTree.perm_inorder_insert _ inorder_rebalance hrep.sorted
          ((SearchTree.find_eq_none_iff Entry.key hrep.sorted).mp hnone)
      obtain ⟨hpivots, hremake⟩ := hsafe hnone heap.next keyMeta
      obtain ⟨slot, hlink, hbucket⟩ := linkNode_ready (ready_new hrep hnone keyMeta) hpivots
      have hnot : ¬ ((1 : ℤ) = -1) := by decide
      have hlink' : linkNode (avlNewNode heap key keyMeta).1 (root t)
          (avlNewNode heap key keyMeta).2 = .ok (slot, 1) := hlink
      rw [insertFrom, if_neg (by omega)] at hinsert
      simp only [htree, ok_bind, hlink', if_neg hnot] at hinsert
      obtain ⟨next, hnext, hinsert⟩ := bind_eq_ok.mp hinsert
      obtain ⟨rfl, -⟩ := Prod.mk.inj (Except.ok.inj hinsert)
      have hsize' : (AvlTree.insert ⟨heap.next, key, keyMeta⟩ t).numNodes = t.numNodes + 1 := by
        rw [← length_inorder, ← length_inorder]
        exact hperm.length_eq
      unfold maxHashDep at hlen
      refine hashRemake_routes ⟨_, hbucket⟩ (by omega) (fun hfull ↦ hremake ?_)
        (Function.update_self _ _ _) (routes_update hroutes ?_) hnext
      · rw [Function.update_self, wrap32] at hfull
        unfold maxHashDep at hfull ⊢
        omega
      · rw [Bucket.routes_iff ⟨_, hbucket⟩]
        intro x hx
        rcases List.mem_cons.mp (hperm.mem_iff.mp hx) with rfl | hx
        · exact ⟨hkey, rfl⟩
        · exact hslot.bucket.routes_iff.mp (hroutes _) x hx
    · rw [insertFrom, if_pos (by omega)] at hinsert
      obtain ⟨⟨child, answer⟩, hchild, hinsert⟩ := bind_eq_ok.mp hinsert
      obtain ⟨rfl, -⟩ := Prod.mk.inj (Except.ok.inj hinsert)
      refine routes_update hroutes (ih (hash key dep) htable (hroutes _) ⟨hkey, rfl⟩ ?_ hchild)
      rwa [if_neg (by omega)] at hsafe

/-- What is left in a bucket was routed to it. -/
theorem deleteFrom_routes (h : TableHolds d node depth routed) (hroutes : Routes node routed)
    (hkey : routed key) (hpresent : d key = some keyMeta) (hsafe : DeleteSafe key node)
    (hdelete : deleteFrom key node = .ok node') : Routes node' routed := by
  induction node generalizing depth routed node' with
  | null => exact h.elim
  | avlnode heap root => exact h.elim
  | hmNode dep lenOfList top ih =>
    unfold DeleteSafe at hsafe
    rcases h.2 (hash key dep) with ⟨hlen, t, hsize, hslot⟩ | ⟨hlen, htable⟩
    · rw [if_pos hlen, slotTree_bucket hslot.bucket] at hsafe
      obtain ⟨heap, htree, hrep⟩ := toTree_bucket hslot.bucket
      have hagrees := hslot.agrees key ⟨hkey, rfl⟩
      rw [hpresent] at hagrees
      obtain ⟨x, hfind, -⟩ := Option.map_eq_some_iff.mp hagrees.symm
      obtain ⟨hstill, hpivot⟩ := hsafe (by simp [hfind])
      obtain ⟨heap', hremove, hrep'⟩ := avlRemoveNode_represents hrep hfind hstill hpivot
      have hbucket : Bucket (.ofTree heap' (root (rebalance (AvlTree.erase key t))))
          (rebalance (AvlTree.erase key t)) := ⟨_, heap', rfl, hrep', rfl⟩
      rw [deleteFrom, if_pos hlen] at hdelete
      simp only [htree, ok_bind, hremove, pure_eq_ok] at hdelete
      rw [← Except.ok.inj hdelete]
      refine routes_update hroutes (hbucket.routes_iff.mpr fun y hy ↦ ?_)
      rw [inorder_rebalance] at hy
      have hmem : y.key ∈ (inorder (AvlTree.erase key t)).map Entry.key := List.mem_map_of_mem hy
      rw [AvlTree.erase, SearchTree.inorder_erase Entry.key fill_key hrep.sorted key] at hmem
      obtain ⟨z, hz, hzy⟩ := List.mem_map.mp hmem
      rw [← hzy]
      exact hslot.bucket.routes_iff.mp (hroutes _) z (List.mem_of_mem_filter hz)
    · rw [deleteFrom, if_neg (by omega)] at hdelete
      obtain ⟨child, hchild, hdelete⟩ := bind_eq_ok.mp hdelete
      rw [← Except.ok.inj hdelete]
      refine routes_update hroutes (ih (hash key dep) htable (hroutes _) ⟨hkey, rfl⟩ ?_ hchild)
      rwa [if_neg (by omega)] at hsafe

end Kept

section Run

variable {d : Str → Option μ} {hmap hmap' : VoidPtr μ}

/-- The map stands for a dictionary and has no other keys. -/
structure MapRoutes (d : Str → Option μ) (hmap : VoidPtr μ) : Prop where
  holds : MapHolds d hmap
  routes : Routes hmap fun _ ↦ True

theorem hashmapNew_routes : MapRoutes (fun _ ↦ none) (hashmapNew : VoidPtr μ) :=
  ⟨hashmapNew_holds, fun _ ↦ trivial⟩

/-- The end of the map destroys the keys of the dictionary, each once. -/
theorem MapRoutes.hashmapDelete (h : MapRoutes d hmap) : ∃ keys,
    hashmapDelete hmap = .ok keys ∧ keys.Nodup ∧ ∀ key, key ∈ keys ↔ d key ≠ none := by
  obtain ⟨keys, herase, hnodup, hmem⟩ := hashErase_holds h.holds h.routes
  refine ⟨keys, ?_, hnodup, fun key ↦ (hmem key).trans (and_iff_right trivial)⟩
  rw [HashMap.hashmapDelete, herase]
  rfl

theorem MapRoutes.insertKey (h : MapRoutes d hmap) {key : Str} (habsent : d key = none)
    (hsafe : InsertSafe key hmap) (keyMeta : μ) : ∃ hmap',
      hashmapInsertKey hmap keyMeta key = .ok (hmap', 0, .success) ∧
        MapRoutes (Function.update d key (some keyMeta)) hmap' := by
  obtain ⟨found, hsearch, hfound⟩ := hashSearch_holds h.holds key
  rw [habsent, Option.map_eq_none_iff] at hfound
  obtain ⟨hmap', hinsert, hholds⟩ := insertFrom_holds h.holds trivial habsent hsafe keyMeta
  have hroutes := insertFrom_routes h.holds h.routes trivial habsent hsafe hinsert
  obtain ⟨dep, lenOfList, top, rfl⟩ := h.holds.not_null
  refine ⟨hmap', ?_, hholds, hroutes⟩
  simp [hashmapInsertKey, hsearch, hfound, hashInsert, hinsert]

theorem MapRoutes.deleteKey (h : MapRoutes d hmap) {key : Str} {pointer : μ}
    (hpresent : d key = some pointer) (hsafe : DeleteSafe key hmap) (metas : μ → Outcome KeyMeta)
    {keyMeta : KeyMeta} (hmeta : metas pointer = .ok keyMeta) : ∃ hmap',
      hashmapDeleteKey metas hmap key =
        .ok (hmap', some { keyMeta with weakKey := none }, .success) ∧
          MapRoutes (Function.update d key none) hmap' := by
  obtain ⟨found, hsearch, hfound⟩ := hashSearch_holds h.holds key
  rw [hpresent] at hfound
  obtain ⟨node, rfl, hnode⟩ := Option.map_eq_some_iff.mp hfound
  obtain ⟨hmap', hdelete, hholds⟩ := deleteFrom_holds h.holds trivial hpresent hsafe
  have hroutes := deleteFrom_routes h.holds h.routes trivial hpresent hsafe hdelete
  obtain ⟨dep, lenOfList, top, rfl⟩ := h.holds.not_null
  refine ⟨hmap', ?_, hholds, hroutes⟩
  simp [hashmapDeleteKey, hsearch, hnode, hmeta, hashDelete, hdelete]

theorem hashmapStep_routes {call : HashmapCall μ} (h : MapRoutes d hmap)
    (hsafe : CallSafe hmap call) :
    ∃ hmap', hashmapStep hmap call = .ok (hmap', (dictionaryStep d call).2) ∧
      MapRoutes (dictionaryStep d call).1 hmap' := by
  obtain ⟨hmap', hstep, hholds⟩ := hashmapStep_simulates h.holds hsafe
  refine ⟨hmap', hstep, hholds, ?_⟩
  cases call with
  | insertKey keyMeta key =>
    cases hkey : d key with
    | some old =>
      rw [hashmapStep, hashmapInsertKey_present h.holds hkey] at hstep
      rw [← (Prod.mk.inj (Except.ok.inj hstep)).1]
      exact h.routes
    | none =>
      obtain ⟨next, hinsert, hroutes⟩ := h.insertKey hkey hsafe keyMeta
      rw [hashmapStep, hinsert] at hstep
      rw [← (Prod.mk.inj (Except.ok.inj hstep)).1]
      exact hroutes.routes
  | lookupKey key =>
    rw [hashmapStep, hashmapLookupKey_holds h.holds key] at hstep
    rw [← (Prod.mk.inj (Except.ok.inj hstep)).1]
    exact h.routes
  | deleteKey metas key =>
    cases hkey : d key with
    | none =>
      rw [hashmapStep, hashmapDeleteKey_absent h.holds hkey] at hstep
      rw [← (Prod.mk.inj (Except.ok.inj hstep)).1]
      exact h.routes
    | some old =>
      obtain ⟨next, hdelete, hroutes⟩ :=
        h.deleteKey hkey hsafe (fun pointer ↦ .ok (metas pointer)) rfl
      rw [hashmapStep, hdelete] at hstep
      rw [← (Prod.mk.inj (Except.ok.inj hstep)).1]
      exact hroutes.routes

/-- The calls on a new map succeed, and its end then destroys the keys that a dictionary has after
them, each once. -/
def ErasesDictionary (calls : List (HashmapCall μ)) : Prop :=
  ∃ hmap answers keys, run hashmapStep hashmapNew calls = .ok (hmap, answers) ∧
    hashmapDelete hmap = .ok keys ∧ keys.Nodup ∧
      ∀ key, key ∈ keys ↔ (runSpec dictionaryStep (fun _ ↦ none) calls).1 key ≠ none

/-- After every sequence of safe calls no freed node is touched by the end of the map, and no key
is left or destroyed twice. -/
theorem erasesDictionary_of_safe {calls : List (HashmapCall μ)}
    (hsafe : EachStep hashmapStep CallSafe hashmapNew calls) : ErasesDictionary calls := by
  obtain ⟨hmap, hrun, hroutes⟩ :=
    run_simulates (fun _ _ _ h hcall ↦ hashmapStep_routes h hcall) hashmapNew_routes hsafe
  obtain ⟨keys, hdelete, hkeys⟩ := hroutes.hashmapDelete
  exact ⟨hmap, _, keys, hrun, hdelete, hkeys⟩

/-- One key comes, and it is destroyed with the map. -/
theorem erasesDictionary_one_key : ErasesDictionary [.insertKey 7 (byteKey 0x61)] := by
  apply erasesDictionary_of_safe
  apply And.intro
  · intro _ _ _
    exact ⟨trivial, fun hfull ↦ absurd hfull (by decide)⟩
  · intro next output hinsert
    trivial

end Run

end FGDB.HashMap
