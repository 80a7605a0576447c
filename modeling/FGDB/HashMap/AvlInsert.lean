import FGDB.HashMap.AvlTree

/-!
# Searching and inserting in a bucket

The search of the cells is the search of the tree. The insertion of the cells is
the insertion of the tree with the source's rebalancing on the way back, as long
as every rebalancing finds the pivot it dereferences.
-/

namespace FGDB.HashMap

open Foundation AvlTree NodeHeap
open SearchTree hiding insert find Sorted

variable {μ : Type}

namespace AvlTree

def insert (e : Entry μ) (t : AvlTree μ) : AvlTree μ := SearchTree.insert Entry.key rebalance e t

def find (key : Str) (t : AvlTree μ) : Option (Entry μ) := SearchTree.find Entry.key key t

def Sorted (t : AvlTree μ) : Prop := SearchTree.Sorted Entry.key t

/-- On the path of the insertion no rebalancing lacks its pivot. -/
def InsertPivots (e : Entry μ) : AvlTree μ → Prop
  | .nil => True
  | .node x l r =>
    if x.key < e.key then InsertPivots e r ∧ HasPivot (.node x l (insert e r))
    else if e.key < x.key then InsertPivots e l ∧ HasPivot (.node x (insert e l) r)
    else True

instance decidableInsertPivots (e : Entry μ) : (t : AvlTree μ) → Decidable (InsertPivots e t)
  | .nil => isTrue trivial
  | .node x l r =>
    have := decidableInsertPivots e l
    have := decidableInsertPivots e r
    inferInstanceAs (Decidable (if x.key < e.key then
      InsertPivots e r ∧ HasPivot (.node x l (insert e r))
      else if e.key < x.key then InsertPivots e l ∧ HasPivot (.node x (insert e l) r) else True))

section Equations

variable {e x : Entry μ} {l r : AvlTree μ}

theorem insert_of_lt (h : x.key < e.key) :
    AvlTree.insert e (.node x l r) = rebalance (join .right x (AvlTree.insert e r) l) := by
  simp only [AvlTree.insert, SearchTree.insert, if_pos h, join]

theorem insert_of_gt (h : e.key < x.key) :
    AvlTree.insert e (.node x l r) = rebalance (join .left x (AvlTree.insert e l) r) := by
  simp only [AvlTree.insert, SearchTree.insert, if_neg h.not_gt, if_pos h, join]

theorem insert_of_eq (h : x.key = e.key) :
    AvlTree.insert e (.node x l r) = .node x l r := by
  simp only [AvlTree.insert, SearchTree.insert, if_neg h.not_lt, if_neg h.not_gt]

end Equations

theorem addrs_insert_perm_or_eq (e : Entry μ) (t : AvlTree μ) :
    (addrs (insert e t)).Perm (e.addr :: addrs t) ∨ addrs (insert e t) = addrs t := by
  rcases inorder_insert_perm_or_eq Entry.key inorder_rebalance e t with h | h
  · exact .inl (h.map Entry.addr)
  · exact .inr (congrArg (List.map Entry.addr) h)

theorem mem_addrs_insert {e : Entry μ} {t : AvlTree μ} {address : ℕ}
    (h : address ∈ addrs (insert e t)) : address = e.addr ∨ address ∈ addrs t := by
  rcases addrs_insert_perm_or_eq e t with hperm | heq
  · exact List.mem_cons.mp (hperm.mem_iff.mp h)
  · exact .inr (heq ▸ h)

theorem nodup_addrs_insert {e : Entry μ} {t : AvlTree μ} (hnodup : (addrs t).Nodup)
    (hfresh : e.addr ∉ addrs t) : (addrs (insert e t)).Nodup := by
  rcases addrs_insert_perm_or_eq e t with hperm | heq
  · exact hperm.nodup_iff.mpr (List.nodup_cons.mpr ⟨hfresh, hnodup⟩)
  · exact heq ▸ hnodup

end AvlTree

theorem avlSearch_rep {heap : NodeHeap μ} {parent : Option ℕ} {t : AvlTree μ} {fuel : ℕ}
    (hrep : Rep heap parent t) (hfuel : t.height < fuel) (key : Str) :
    avlSearch fuel heap (root t) key = .ok ((AvlTree.find key t).map Entry.addr) := by
  induction t generalizing parent fuel with
  | nil =>
    cases fuel with
    | zero => exact absurd hfuel (Nat.not_lt_zero _)
    | succ fuel => rfl
  | node x l r ihl ihr =>
    cases fuel with
    | zero => exact absurd hfuel (Nat.not_lt_zero _)
    | succ fuel =>
      simp only [BinaryTree.height] at hfuel
      have hkey : (cellOf .left x parent l r).key = x.key := rfl
      have hleft : (cellOf .left x parent l r).left = root l := rfl
      have hright : (cellOf .left x parent l r).right = root r := rfl
      simp only [avlSearch, root_node, load_of_cells hrep.1, ok_bind, hkey, hleft, hright]
      rcases lt_trichotomy x.key key with hlt | heq | hgt
      · have hpos := (keyComp_pos_iff _ _).mpr hlt
        rw [if_neg (by omega), if_pos hpos, ihr hrep.2.2 (by omega)]
        simp only [AvlTree.find, SearchTree.find, if_pos hlt]
      · rw [if_pos ((keyComp_eq_zero_iff _ _).mpr heq)]
        simp [AvlTree.find, SearchTree.find, heq]
      · have hneg := (keyComp_neg_iff _ _).mpr hgt
        rw [if_neg (by omega), if_neg (by omega), ihl hrep.2.1 (by omega)]
        simp only [AvlTree.find, SearchTree.find, if_neg hgt.not_gt, if_pos hgt]

/-- The child of the side the key belongs to: the new node, or the subtree with it. -/
theorem insertNear_rep {heap : NodeHeap μ} {x e : Entry μ} {near : AvlTree μ} {fuel : ℕ}
    (hnew : Rep heap none (.node e .nil .nil))
    (hnear : near ≠ .nil → ∃ heap' status, avlInsertNode fuel heap (root near) (some e.addr) =
      .ok (heap', root (insert e near), status) ∧ Rep heap' (some x.addr) (insert e near) ∧
        Frame (e.addr :: addrs near) heap heap') :
    ∃ heap1 parent1, (root near).elim (.ok (heap, some e.addr)) (fun address ↦ do
      let (heap, child, _) ← avlInsertNode fuel heap (some address) (some e.addr)
      return (heap, child)) = .ok (heap1, root (insert e near)) ∧
        Rep heap1 parent1 (insert e near) ∧ Frame (e.addr :: addrs near) heap heap1 := by
  cases near with
  | nil => exact ⟨heap, none, rfl, hnew, Frame.refl _ _⟩
  | node y a b =>
    obtain ⟨heap1, status, hinsert, hrep1, hframe1⟩ := hnear (by simp)
    refine ⟨heap1, some x.addr, ?_, hrep1, hframe1⟩
    simp only [root_node] at hinsert
    simp only [root_node, Option.elim_some, hinsert, ok_bind, pure_eq_ok]

/-- The step of the insertion at a node, for either side. -/
theorem avlInsertNode_join {heap : NodeHeap μ} {side : Side} {parent : Option ℕ} {x e : Entry μ}
    {near far : AvlTree μ} {fuel : ℕ} (hrep : Rep heap parent (join side x near far))
    (hnew : Rep heap none (.node e .nil .nil)) (hfresh : e.addr ∉ addrs (join side x near far))
    (hnodup : (addrs (join side x near far)).Nodup) (horder : keyComp x.key e.key ≠ 0)
    (hside : (if keyComp x.key e.key > 0 then Side.right else Side.left) = side)
    (hnear : near ≠ .nil → ∃ heap' status, avlInsertNode fuel heap (root near) (some e.addr) =
      .ok (heap', root (insert e near), status) ∧ Rep heap' (some x.addr) (insert e near) ∧
        Frame (e.addr :: addrs near) heap heap') :
    EndsIn (avlInsertNode (fuel + 1) heap (some x.addr) (some e.addr))
      (e.addr :: addrs (join side x near far)) heap parent (join side x (insert e near) far) := by
  obtain ⟨hcell, hrepNear, hrepFar⟩ := rep_join.mp hrep
  obtain ⟨hxNear, hxFar, hnodupNear, hnodupFar, hdisjoint⟩ := nodup_addrs_join.mp hnodup
  have hxe : x.addr ≠ e.addr := fun h ↦ hfresh (mem_addrs_join.mpr (.inl h.symm))
  have heNear : e.addr ∉ addrs near := fun h ↦ hfresh (mem_addrs_join.mpr (.inr (.inl h)))
  have heFar : e.addr ∉ addrs far := fun h ↦ hfresh (mem_addrs_join.mpr (.inr (.inr h)))
  obtain ⟨heap1, parent1, hcalled, hrep1, hframe1⟩ := insertNear_rep hnew hnear
  have hnodup1 := nodup_addrs_insert hnodupNear heNear
  have hx1 : x.addr ∉ addrs (insert e near) := fun h ↦ (mem_addrs_insert h).elim hxe hxNear
  have hfar1 (a : ℕ) (h : a ∈ addrs far) : a ∉ addrs (insert e near) := fun h' ↦
    (mem_addrs_insert h').elim (fun heq ↦ heFar (heq ▸ h)) fun hmem ↦ hdisjoint a hmem h
  have hcell1 : heap1.cells x.addr = some (cellOf side x parent near far) :=
    (hframe1.2 _ (by simp [hxe, hxNear])).trans hcell
  have hrepFar1 : Rep heap1 (some x.addr) far := hrepFar.frame hframe1 fun a h h' ↦
    (List.mem_cons.mp h').elim (fun heq ↦ heFar (heq ▸ h)) fun hmem ↦ hdisjoint a hmem h
  obtain ⟨heap2, hheap2⟩ : ∃ heap2, heap1.set x.addr ((cellOf side x parent near far).setChild side
    (root (insert e near))) = heap2 := ⟨_, rfl⟩
  obtain ⟨heap3, hadopt, hrep3, hframe3⟩ :=
    adopt_rep (hheap2 ▸ hrep1.set _ hx1) hnodup1 (some x.addr)
  have hstale3 : Stale heap3 side parent x (insert e near) far := by
    refine ⟨max near.height far.height + 1, ?_, hrep3,
      (hheap2 ▸ hrepFar1.set _ hxFar : Rep heap2 _ far).frame hframe3 hfar1⟩
    rw [hframe3.2 _ hx1, ← hheap2, cells_set_self]
    cases side <;> rfl
  have hnodup3 : (addrs (join side x (insert e near) far)).Nodup :=
    nodup_addrs_join.mpr ⟨hx1, hxFar, hnodup1, hnodupFar, fun a h h' ↦ hfar1 a h' h⟩
  obtain ⟨heap4, hcalc4, hrep4, hframe4⟩ := avlCalcHight_stale hstale3 hnodup3
  refine ⟨heap4, none, ?_, hrep4, ?_, ?_⟩
  · have hkey : (cellOf side x parent near far).key = x.key := by cases side <;> rfl
    have hnewKey : (cellOf .left e none (.nil : AvlTree μ) .nil).key = e.key := rfl
    simp only [pure_eq_ok] at hcalled
    simp only [avlInsertNode, load_of_cells hcell, load_of_cells hnew.1, ok_bind, hkey, hnewKey,
      if_neg horder, hside, child_cellOf, pure_eq_ok, hcalled, modify_of_cells hcell1, hheap2,
      hadopt, hcalc4, root_join, avlDeleteNode]
  · have hx : x.addr ∈ e.addr :: addrs (join side x near far) :=
      List.mem_cons_of_mem _ (mem_addrs_join.mpr (.inl rfl))
    have hnearMem (a : ℕ) (h : a ∈ e.addr :: addrs near) :
        a ∈ e.addr :: addrs (join side x near far) :=
      (List.mem_cons.mp h).elim (fun heq ↦ List.mem_cons.mpr (.inl heq)) fun hmem ↦
        List.mem_cons_of_mem _ (mem_addrs_join.mpr (.inr (.inl hmem)))
    have hinsertMem (a : ℕ) (h : a ∈ addrs (insert e near)) :
        a ∈ e.addr :: addrs (join side x near far) :=
      hnearMem a (List.mem_cons.mpr (mem_addrs_insert h))
    have hframe2 : Frame (e.addr :: addrs (join side x near far)) heap1 heap2 :=
      hheap2 ▸ frame_set heap1 _ hx
    exact (((hframe1.mono hnearMem).trans hframe2).trans (hframe3.mono hinsertMem)).trans
      (hframe4.mono (by simpa using hx))
  · rintro node ⟨⟩

/-- The rebalancing at a node of the path may turn a tree that has the addresses of the old one and
that of the new node. -/
theorem EndsIn.inserts {call : Outcome (NodeHeap μ × Option ℕ × ℤ)} {heap : NodeHeap μ}
    {parent : Option ℕ} {t t' : AvlTree μ} {e : Entry μ}
    (h : EndsIn call (e.addr :: addrs t) heap parent t') (hinsert : insert e t = rebalance t')
    (hfresh : e.addr ∉ addrs t) (hnodup : (addrs t).Nodup) (hpivot : HasPivot t') :
    ∃ heap', call = .ok (heap', root (insert e t), 1) ∧ Rep heap' parent (insert e t) ∧
      Frame (e.addr :: addrs t) heap heap' := by
  have hsame : addrs (insert e t) = addrs t' := by rw [hinsert, addrs_rebalance]
  rw [hinsert]
  apply h.ok _ _ hpivot
  · rw [← hsame]
    exact nodup_addrs_insert hnodup hfresh
  · intro address hmem
    rw [← hsame] at hmem
    exact List.mem_cons.mpr (mem_addrs_insert hmem)

/-- The insertion of the cells is the insertion of the tree. -/
theorem avlInsertNode_rep {heap : NodeHeap μ} {parent : Option ℕ} {t : AvlTree μ} {e : Entry μ}
    {fuel : ℕ} (hne : t ≠ .nil) (hfuel : t.height ≤ fuel) (hrep : Rep heap parent t)
    (hnew : Rep heap none (.node e .nil .nil)) (hfresh : e.addr ∉ addrs t)
    (hnodup : (addrs t).Nodup) (hpivots : InsertPivots e t) :
    ∃ heap' status, avlInsertNode fuel heap (root t) (some e.addr) =
      .ok (heap', root (insert e t), status) ∧ Rep heap' parent (insert e t) ∧
        Frame (e.addr :: addrs t) heap heap' ∧
          ((∀ x ∈ inorder t, x.key ≠ e.key) → status = 1) := by
  induction t generalizing heap parent fuel with
  | nil => exact absurd rfl hne
  | node x l r ihl ihr =>
    cases fuel with
    | zero => simp at hfuel
    | succ fuel =>
      simp only [BinaryTree.height] at hfuel
      have hparts := (@nodup_addrs_join μ .left x l r).mp hnodup
      have hmem {address : ℕ} := @mem_addrs_join μ .left x l r address
      unfold InsertPivots at hpivots
      rcases lt_trichotomy x.key e.key with hlt | heq | hgt
      · rw [if_pos hlt] at hpivots
        have hpos := (keyComp_pos_iff _ _).mpr hlt
        have hends := @avlInsertNode_join μ heap .right parent x e r l fuel hrep hnew hfresh hnodup
          hpos.ne' (if_pos hpos) fun hr ↦ by
            obtain ⟨heap', status, hbelow⟩ := ihr hr (by omega : r.height ≤ fuel) hrep.2.2 hnew
              (fun h ↦ hfresh (hmem.mpr (.inr (.inr h)))) hparts.2.2.2.1 hpivots.1
            exact ⟨heap', status, hbelow.1, hbelow.2.1, hbelow.2.2.1⟩
        obtain ⟨heap', hstep, hrep', hframe⟩ :=
          hends.inserts (insert_of_lt hlt) hfresh hnodup hpivots.2
        exact ⟨heap', 1, hstep, hrep', hframe, fun _ ↦ rfl⟩
      · have hzero := (keyComp_eq_zero_iff _ _).mpr heq
        rw [insert_of_eq heq]
        refine ⟨heap, -1, ?_, hrep, Frame.refl _ _, fun h ↦ absurd heq (h x (by simp))⟩
        have hkey : (cellOf .left x parent l r).key = x.key := rfl
        have hnewKey : (cellOf .left e none (.nil : AvlTree μ) .nil).key = e.key := rfl
        simp only [avlInsertNode, root_node, load_of_cells hrep.1, load_of_cells hnew.1, ok_bind,
          hkey, hnewKey, if_pos hzero, pure_eq_ok]
      · rw [if_neg hgt.not_gt, if_pos hgt] at hpivots
        have hneg := (keyComp_neg_iff _ _).mpr hgt
        have hends := @avlInsertNode_join μ heap .left parent x e l r fuel hrep hnew hfresh hnodup
          hneg.ne (if_neg hneg.not_gt) fun hl ↦ by
            obtain ⟨heap', status, hbelow⟩ := ihl hl (by omega : l.height ≤ fuel) hrep.2.1 hnew
              (fun h ↦ hfresh (hmem.mpr (.inr (.inl h)))) hparts.2.2.1 hpivots.1
            exact ⟨heap', status, hbelow.1, hbelow.2.1, hbelow.2.2.1⟩
        obtain ⟨heap', hstep, hrep', hframe⟩ :=
          hends.inserts (insert_of_gt hgt) hfresh hnodup hpivots.2
        exact ⟨heap', 1, hstep, hrep', hframe, fun _ ↦ rfl⟩

/-- A fault below ends the insertion at a node, for either side. -/
theorem avlInsertNode_fault {heap : NodeHeap μ} {side : Side} {parent : Option ℕ} {x e : Entry μ}
    {near far : AvlTree μ} {fuel : ℕ} {fault : Fault} (hrep : Rep heap parent (join side x near far))
    (hnew : Rep heap none (.node e .nil .nil)) (horder : keyComp x.key e.key ≠ 0)
    (hside : (if keyComp x.key e.key > 0 then Side.right else Side.left) = side)
    (hne : near ≠ .nil)
    (hnear : avlInsertNode fuel heap (root near) (some e.addr) = .error fault) :
    avlInsertNode (fuel + 1) heap (some x.addr) (some e.addr) = .error fault := by
  have hkey : (cellOf side x parent near far).key = x.key := by cases side <;> rfl
  have hnewKey : (cellOf .left e none (.nil : AvlTree μ) .nil).key = e.key := rfl
  cases near with
  | nil => exact absurd rfl hne
  | node y a b =>
    rw [root_node] at hnear
    simp only [avlInsertNode, load_of_cells (rep_join.mp hrep).1, load_of_cells hnew.1, ok_bind, hkey,
      hnewKey, if_neg horder, hside, child_cellOf, root_node, Option.elim_some, hnear, error_bind]

/-- An insertion that lacks a pivot on its path follows a NULL pointer. -/
theorem avlInsertNode_null {heap : NodeHeap μ} {parent : Option ℕ} {t : AvlTree μ} {e : Entry μ}
    {fuel : ℕ} (hfuel : t.height ≤ fuel) (hrep : Rep heap parent t)
    (hnew : Rep heap none (.node e .nil .nil)) (hfresh : e.addr ∉ addrs t)
    (hnodup : (addrs t).Nodup) (hpivots : ¬ InsertPivots e t) :
    avlInsertNode fuel heap (root t) (some e.addr) = .error .nullPointer := by
  induction t generalizing heap parent fuel with
  | nil => exact absurd trivial hpivots
  | node x l r ihl ihr =>
    cases fuel with
    | zero => simp at hfuel
    | succ fuel =>
      simp only [BinaryTree.height] at hfuel
      have hparts := (@nodup_addrs_join μ .left x l r).mp hnodup
      have hmem {address : ℕ} := @mem_addrs_join μ .left x l r address
      have hfreshl : e.addr ∉ addrs l := fun h ↦ hfresh (hmem.mpr (.inr (.inl h)))
      have hfreshr : e.addr ∉ addrs r := fun h ↦ hfresh (hmem.mpr (.inr (.inr h)))
      unfold InsertPivots at hpivots
      rcases lt_trichotomy x.key e.key with hlt | heq | hgt
      · rw [if_pos hlt] at hpivots
        have hpos := (keyComp_pos_iff _ _).mpr hlt
        by_cases hbelow : InsertPivots e r
        · have hends := @avlInsertNode_join μ heap .right parent x e r l fuel hrep hnew hfresh
            hnodup hpos.ne' (if_pos hpos) fun hr ↦ by
              obtain ⟨heap', status, hbelow⟩ := avlInsertNode_rep hr (by omega : r.height ≤ fuel)
                hrep.2.2 hnew hfreshr hparts.2.2.2.1 hbelow
              exact ⟨heap', status, hbelow.1, hbelow.2.1, hbelow.2.2.1⟩
          exact hends.fails fun hpivot ↦ hpivots ⟨hbelow, hpivot⟩
        · apply @avlInsertNode_fault μ heap .right parent x e r l fuel _ hrep hnew hpos.ne'
            (if_pos hpos)
          · rintro rfl
            exact hbelow trivial
          · exact ihr (by omega : r.height ≤ fuel) hrep.2.2 hnew hfreshr hparts.2.2.2.1 hbelow
      · rw [if_neg heq.not_lt, if_neg heq.not_gt] at hpivots
        exact absurd trivial hpivots
      · rw [if_neg hgt.not_gt, if_pos hgt] at hpivots
        have hneg := (keyComp_neg_iff _ _).mpr hgt
        by_cases hbelow : InsertPivots e l
        · have hends := @avlInsertNode_join μ heap .left parent x e l r fuel hrep hnew hfresh
            hnodup hneg.ne (if_neg hneg.not_gt) fun hl ↦ by
              obtain ⟨heap', status, hbelow⟩ := avlInsertNode_rep hl (by omega : l.height ≤ fuel)
                hrep.2.1 hnew hfreshl hparts.2.2.1 hbelow
              exact ⟨heap', status, hbelow.1, hbelow.2.1, hbelow.2.2.1⟩
          exact hends.fails fun hpivot ↦ hpivots ⟨hbelow, hpivot⟩
        · apply @avlInsertNode_fault μ heap .left parent x e l r fuel _ hrep hnew hneg.ne
            (if_neg hneg.not_gt)
          · rintro rfl
            exact hbelow trivial
          · exact ihl (by omega : l.height ≤ fuel) hrep.2.1 hnew hfreshl hparts.2.2.1 hbelow

end FGDB.HashMap
