import FGDB.HashMap.AvlInsert

/-!
# Removing from a bucket

The recursive calls of the removal drop the root that they return, so a rotation
anywhere below the root of the bucket is lost. When there is none, the removal
of the cells is the removal of the tree, rebalanced at its root.
-/

namespace FGDB.HashMap

open Foundation AvlTree NodeHeap
open SearchTree hiding insert find Sorted erase

variable {μ : Type}

namespace AvlTree

/-- A node gets the key and the meta of another. -/
def fill (x m : Entry μ) : Entry μ := { x with key := m.key, keyMeta := m.keyMeta }

@[simp] theorem fill_addr (x m : Entry μ) : (fill x m).addr = x.addr := rfl

def erase (key : Str) (t : AvlTree μ) : AvlTree μ := SearchTree.erase Entry.key fill key t

/-- Taking the last node away leaves nothing to rotate on the way to it. -/
def PopStill : AvlTree μ → Prop
  | .nil => True
  | .node _ _ .nil => True
  | .node e l (.node y a b) => PopStill (.node y a b) ∧ Still (.node e l (dropLast (.node y a b)))

/-- The removal rotates nothing below the root. -/
def EraseStill (key : Str) : AvlTree μ → Prop
  | .nil => True
  | .node x l r =>
    if x.key < key then EraseStill key r ∧ Still (erase key r)
    else if key < x.key then EraseStill key l ∧ Still (erase key l)
    else r ≠ .nil → PopStill l

instance decidablePopStill : (t : AvlTree μ) → Decidable (PopStill t)
  | .nil => isTrue trivial
  | .node _ _ .nil => isTrue trivial
  | .node e l (.node y a b) =>
    have := decidablePopStill (.node y a b)
    inferInstanceAs (Decidable
      (PopStill (.node y a b) ∧ Still (.node e l (dropLast (.node y a b)))))

instance decidableEraseStill (key : Str) : (t : AvlTree μ) → Decidable (EraseStill key t)
  | .nil => isTrue trivial
  | .node x l r =>
    have := decidableEraseStill key l
    have := decidableEraseStill key r
    inferInstanceAs (Decidable (if x.key < key then EraseStill key r ∧ Still (erase key r)
      else if key < x.key then EraseStill key l ∧ Still (erase key l)
      else ¬ r = .nil → PopStill l))

section Equations

variable {x : Entry μ} {l r : AvlTree μ} {key : Str}

theorem erase_of_lt (h : x.key < key) :
    AvlTree.erase key (.node x l r) = join .right x (AvlTree.erase key r) l := by
  simp only [AvlTree.erase, SearchTree.erase, if_pos h, join]

theorem erase_of_gt (h : key < x.key) :
    AvlTree.erase key (.node x l r) = join .left x (AvlTree.erase key l) r := by
  simp only [AvlTree.erase, SearchTree.erase, if_neg h.not_gt, if_pos h, join]

theorem erase_of_eq (h : x.key = key) :
    AvlTree.erase key (.node x l r) = eraseRoot fill x l r := by
  simp only [AvlTree.erase, SearchTree.erase, if_neg h.not_lt, if_neg h.not_gt]

end Equations

theorem Still.hasPivot {t : AvlTree μ} (h : Still t) : HasPivot t := by
  cases t with
  | nil => trivial
  | node e l r =>
    intro hhigh _ hleft
    exact absurd ⟨hhigh, .inr hleft⟩ h.2

theorem addrs_eq_dropLast_append {t : AvlTree μ} {m : Entry μ} (h : last t = some m) :
    addrs t = addrs (dropLast t) ++ [m.addr] := by
  rw [addrs, inorder_eq_dropLast_append h, List.map_append, addrs, List.map_cons, List.map_nil]

theorem root_dropLast (x y : Entry μ) (l a b : AvlTree μ) :
    root (dropLast (.node x l (.node y a b))) = some x.addr := rfl

/-- The addresses after the removal of the root are among those before it. -/
theorem addrs_eraseRoot {x : Entry μ} {l r : AvlTree μ} (hnodup : (addrs (join .left x l r)).Nodup) :
    (addrs (eraseRoot fill x l r)).Nodup ∧
      ∀ a ∈ addrs (eraseRoot fill x l r), a ∈ addrs (join .left x l r) := by
  obtain ⟨hxl, hxr, hnodupl, hnodupr, hdisjoint⟩ := nodup_addrs_join.mp hnodup
  cases l with
  | nil =>
    cases r with
    | nil => exact ⟨List.nodup_nil, fun a h ↦ absurd h (List.not_mem_nil)⟩
    | node m a b =>
      obtain ⟨hma, hmb, hrest⟩ := (@nodup_addrs_join μ .left m a b).mp hnodupr
      have hmem {c : ℕ} := @mem_addrs_join μ .left m a b c
      have hmem' {c : ℕ} := @mem_addrs_join μ .left (fill x m) a b c
      refine ⟨(@nodup_addrs_join μ .left (fill x m) a b).mpr
        ⟨fun h ↦ hxr (hmem.mpr (.inr (.inl h))), fun h ↦ hxr (hmem.mpr (.inr (.inr h))), hrest⟩, ?_⟩
      intro c hc
      rcases hmem'.mp hc with rfl | h
      · exact mem_addrs_join.mpr (.inl rfl)
      · exact mem_addrs_join.mpr (.inr (.inr (hmem.mpr (.inr h))))
  | node m a b =>
    cases r with
    | nil =>
      obtain ⟨hma, hmb, hrest⟩ := (@nodup_addrs_join μ .left m a b).mp hnodupl
      have hmem {c : ℕ} := @mem_addrs_join μ .left m a b c
      have hmem' {c : ℕ} := @mem_addrs_join μ .left (fill x m) a b c
      refine ⟨(@nodup_addrs_join μ .left (fill x m) a b).mpr
        ⟨fun h ↦ hxl (hmem.mpr (.inr (.inl h))), fun h ↦ hxl (hmem.mpr (.inr (.inr h))), hrest⟩, ?_⟩
      intro c hc
      rcases hmem'.mp hc with rfl | h
      · exact mem_addrs_join.mpr (.inl rfl)
      · exact mem_addrs_join.mpr (.inr (.inl (hmem.mpr (.inr h))))
    | node n c d =>
      obtain ⟨p, hp⟩ := exists_last m a b
      have hsplit := addrs_eq_dropLast_append hp
      have hdrop (q : ℕ) (h : q ∈ addrs (dropLast (.node m a b))) : q ∈ addrs (.node m a b) := by
        rw [hsplit]
        exact List.mem_append_left _ h
      have heq : eraseRoot fill x (.node m a b) (.node n c d) =
          join .left (fill x p) (dropLast (.node m a b)) (.node n c d) := by
        simp only [eraseRoot, hp, Option.map_some, Option.getD_some, join]
      rw [heq]
      rw [hsplit] at hnodupl
      refine ⟨nodup_addrs_join.mpr ⟨fun h ↦ hxl (hdrop _ h), hxr,
        (List.nodup_append'.mp hnodupl).1, hnodupr, fun q h ↦ hdisjoint q (hdrop q h)⟩, ?_⟩
      intro q hq
      rcases mem_addrs_join.mp hq with rfl | h | h
      · exact mem_addrs_join.mpr (.inl rfl)
      · exact mem_addrs_join.mpr (.inr (.inl (hdrop q h)))
      · exact mem_addrs_join.mpr (.inr (.inr h))

theorem addrs_erase {key : Str} {t : AvlTree μ} (hnodup : (addrs t).Nodup) :
    (addrs (AvlTree.erase key t)).Nodup ∧ ∀ a ∈ addrs (AvlTree.erase key t), a ∈ addrs t := by
  induction t with
  | nil => exact ⟨List.nodup_nil, fun a h ↦ h⟩
  | node x l r ihl ihr =>
    obtain ⟨hxl, hxr, hnodupl, hnodupr, hdisjoint⟩ := (@nodup_addrs_join μ .left x l r).mp hnodup
    have hmem {c : ℕ} := @mem_addrs_join μ .left x l r c
    rcases lt_trichotomy x.key key with hlt | heq | hgt
    · obtain ⟨hnodup', hsub⟩ := ihr hnodupr
      rw [erase_of_lt hlt]
      refine ⟨nodup_addrs_join.mpr ⟨fun h ↦ hxr (hsub _ h), hxl, hnodup', hnodupl,
        fun a h h' ↦ hdisjoint a h' (hsub a h)⟩, ?_⟩
      intro a ha
      rcases mem_addrs_join.mp ha with h | h | h
      · exact hmem.mpr (.inl h)
      · exact hmem.mpr (.inr (.inr (hsub a h)))
      · exact hmem.mpr (.inr (.inl h))
    · rw [erase_of_eq heq]
      exact addrs_eraseRoot hnodup
    · obtain ⟨hnodup', hsub⟩ := ihl hnodupl
      rw [erase_of_gt hgt]
      refine ⟨nodup_addrs_join.mpr ⟨fun h ↦ hxl (hsub _ h), hxr, hnodup', hnodupr,
        fun a h ↦ hdisjoint a (hsub a h)⟩, ?_⟩
      intro a ha
      rcases mem_addrs_join.mp ha with h | h | h
      · exact hmem.mpr (.inl h)
      · exact hmem.mpr (.inr (.inl (hsub a h)))
      · exact hmem.mpr (.inr (.inr h))

/-- A removal that leaves something leaves its root in place. -/
theorem root_erase {key : Str} {t : AvlTree μ} (h : AvlTree.erase key t ≠ .nil) :
    root (AvlTree.erase key t) = root t := by
  cases t with
  | nil => exact absurd rfl h
  | node x l r =>
    rcases lt_trichotomy x.key key with hlt | heq | hgt
    · rw [erase_of_lt hlt, root_join, root_node]
    · rw [erase_of_eq heq] at h ⊢
      cases l with
      | nil =>
        cases r with
        | nil => exact absurd rfl h
        | node m a b => rfl
      | node m a b =>
        cases r with
        | nil => rfl
        | node n c d =>
          obtain ⟨p, hp⟩ := exists_last m a b
          simp only [eraseRoot, hp, Option.map_some, Option.getD_some]
          rfl
    · rw [erase_of_gt hgt, root_join, root_node]

theorem erase_eq_nil {key : Str} {t : AvlTree μ} (h : AvlTree.erase key t = .nil) :
    t = .nil ∨ ∃ y, t = .node y .nil .nil ∧ y.key = key := by
  cases t with
  | nil => exact .inl rfl
  | node x l r =>
    rcases lt_trichotomy x.key key with hlt | heq | hgt
    · rw [erase_of_lt hlt] at h
      cases h
    · rw [erase_of_eq heq] at h
      cases l with
      | nil =>
        cases r with
        | nil => exact .inr ⟨x, rfl, heq⟩
        | node m a b => cases h
      | node m a b => cases r <;> cases h
    · rw [erase_of_gt hgt] at h
      cases h

end AvlTree

/-- Height and rotation of a node whose subtrees are right. -/
theorem calc_rebalance_stale {heap : NodeHeap μ} {side : Side} {parent : Option ℕ} {e : Entry μ}
    {near far : AvlTree μ} (hstale : Stale heap side parent e near far)
    (hnodup : (addrs (join side e near far)).Nodup) (hpivot : HasPivot (join side e near far)) :
    ∃ heap1 heap2, avlCalcHight heap (some e.addr) = .ok heap1 ∧
      avlRebalance heap1 (some e.addr) =
        .ok (heap2, root (rebalance (join side e near far))) ∧
      Rep heap2 parent (rebalance (join side e near far)) ∧
      Frame (addrs (join side e near far)) heap heap2 := by
  obtain ⟨heap1, hcalc, hrep1, hframe1⟩ := avlCalcHight_stale hstale hnodup
  obtain ⟨heap2, hbalance, hrep2, hframe2⟩ := avlRebalance_rep hrep1 hnodup hpivot
  rw [root_join] at hbalance
  refine ⟨heap1, heap2, hcalc, hbalance, hrep2, (hframe1.mono ?_).trans hframe2⟩
  simpa using mem_addrs_join.mpr (.inl rfl)

theorem goRight_rep {heap : NodeHeap μ} {parent : Option ℕ} {t : AvlTree μ} {fuel : ℕ}
    (hrep : Rep heap parent t) (hfuel : t.height ≤ fuel) (hne : t ≠ .nil) :
    goRight fuel heap (root t) = .ok ((last t).map Entry.addr) := by
  induction t generalizing parent fuel with
  | nil => exact absurd rfl hne
  | node x l r _ ihr =>
    cases fuel with
    | zero => simp at hfuel
    | succ fuel =>
      simp only [BinaryTree.height] at hfuel
      have hright : (cellOf .left x parent l r).right = root r := rfl
      simp only [goRight, root_node, load_of_cells hrep.1, ok_bind, hright]
      cases r with
      | nil => rfl
      | node y a b => exact ihr hrep.2.2 (by omega : (BinaryTree.node y a b).height ≤ fuel) (by simp)

/-- The cell of the last node of a tree. -/
theorem exists_last_cell {heap : NodeHeap μ} {parent : Option ℕ} {t : AvlTree μ}
    (hrep : Rep heap parent t) (hne : t ≠ .nil) :
    ∃ m node, last t = some m ∧ heap.cells m.addr = some node ∧ node.key = m.key ∧
      node.keyMeta = m.keyMeta := by
  induction t generalizing parent with
  | nil => exact absurd rfl hne
  | node x l r _ ihr =>
    cases r with
    | nil => exact ⟨x, _, rfl, hrep.1, rfl, rfl⟩
    | node y a b => exact ihr hrep.2.2 (by simp)

theorem last_mem_addrs {t : AvlTree μ} {m : Entry μ} (h : last t = some m) : m.addr ∈ addrs t := by
  rw [addrs_eq_dropLast_append h]
  simp

/-- One step of the climb, at a node that needs no rotation. -/
theorem climb_still {heap : NodeHeap μ} {parent : Option ℕ} {e : Entry μ} {l r : AvlTree μ}
    {target : ℕ} (hstale : Stale heap .left parent e l r)
    (hnodup : (addrs (join .left e l r)).Nodup) (hstill : Still (.node e l r))
    (htarget : e.addr ≠ target) :
    ∃ heap', (∀ fuel, climb (fuel + 1) heap (some e.addr) (some target) =
      climb fuel heap' parent (some target)) ∧ Rep heap' parent (.node e l r) ∧
        Frame (addrs (join .left e l r)) heap heap' := by
  obtain ⟨heap1, heap2, hcalc, hbalance, hrep, hframe⟩ :=
    calc_rebalance_stale hstale hnodup hstill.hasPivot
  rw [show join .left e l r = .node e l r from rfl, rebalance_of_still hstill] at hbalance hrep
  have hload : heap2.load (some e.addr) = .ok (cellOf .left e parent l r) := load_of_cells hrep.1
  refine ⟨heap2, fun fuel ↦ ?_, hrep, hframe⟩
  have hne : ¬ some e.addr = some target := by simpa using htarget
  simp only [climb, if_neg hne, hcalc, ok_bind, hbalance, root_node, hload, parent_cellOf]

/-- Unlinking the predecessor leaves its parent with its left child. The content of the predecessor
does not matter any more. -/
theorem unlink_stale {heap heap0 : NodeHeap μ} {parent : Option ℕ} {e y : Entry μ}
    {l a : AvlTree μ} {key : Str} {keyMeta : μ} (hrep : Rep heap parent (.node e l (.node y a .nil)))
    (hnodup : (addrs (.node e l (.node y a .nil))).Nodup)
    (hheap0 : heap0 = heap.set y.addr
      { cellOf .left y (some e.addr) a .nil with key := key, keyMeta := keyMeta }) :
    ∃ heap1, unlink heap0 (some y.addr) = .ok heap1 ∧ Stale heap1 .left parent e l a ∧
      (addrs (join .left e l a)).Nodup ∧ Frame (addrs (.node e l (.node y a .nil))) heap0 heap1 ∧
        ∀ c ∈ addrs (join .left e l a), c ∈ addrs (.node e l (.node y a .nil)) := by
  obtain ⟨hel, her, hnodupl, hnodupr, hdisjoint⟩ := (@nodup_addrs_join μ .left e l _).mp hnodup
  obtain ⟨hya, -, hnodupa, -⟩ := (@nodup_addrs_join μ .left y a .nil).mp hnodupr
  have hmemr {c : ℕ} := @mem_addrs_join μ .left y a .nil c
  have hmem {c : ℕ} := @mem_addrs_join μ .left e l (.node y a .nil) c
  have hey : e.addr ≠ y.addr := fun h ↦ her (hmemr.mpr (.inl h))
  have hea : e.addr ∉ addrs a := fun h ↦ her (hmemr.mpr (.inr (.inl h)))
  have hyl : y.addr ∉ addrs l := fun h ↦ hdisjoint _ h (hmemr.mpr (.inl rfl))
  have hla (c : ℕ) (h : c ∈ addrs l) : c ∉ addrs a := fun h' ↦
    hdisjoint c h (hmemr.mpr (.inr (.inl h')))
  have hy0 : heap0.cells y.addr = some { cellOf .left y (some e.addr) a .nil with
      key := key, keyMeta := keyMeta } := by
    rw [hheap0, cells_set_self]
  have he0 : heap0.cells e.addr = some (cellOf .left e parent l (.node y a .nil)) := by
    rw [hheap0, cells_set_of_ne _ _ hey]
    exact hrep.1
  have ha0 : Rep heap0 (some y.addr) a := hheap0 ▸ hrep.2.2.2.1.set _ hya
  have hl0 : Rep heap0 (some e.addr) l := hheap0 ▸ hrep.2.1.set _ hyl
  obtain ⟨heap1, hadopt, hrepa1, hframe1⟩ := adopt_rep ha0 hnodupa (some e.addr)
  have he1 : heap1.cells e.addr = some (cellOf .left e parent l (.node y a .nil)) :=
    (hframe1.2 _ hea).trans he0
  obtain ⟨heap2, hheap2⟩ : ∃ heap2, heap1.set e.addr
    { cellOf .left e parent l (.node y a .nil) with right := root a } = heap2 := ⟨_, rfl⟩
  refine ⟨avlDeleteNode heap2 (some y.addr), ?_, ?_,
    nodup_addrs_join.mpr ⟨hel, hea, hnodupl, hnodupa, hla⟩, ?_, fun c h ↦ ?_⟩
  · have hleft : (cellOf .left y (some e.addr) a .nil).left = root a := rfl
    have hparent : (cellOf .left y (some e.addr) a .nil).parent = some e.addr := rfl
    simp only [unlink, load_of_cells hy0, ok_bind, hleft, hparent, hadopt, modify_of_cells he1,
      pure_eq_ok]
    rw [← hheap2]
  · have hnot : e.addr ∉ [y.addr] := by simpa using hey
    refine ⟨max l.height (BinaryTree.node y a .nil).height + 1, ?_, ?_, ?_⟩
    · rw [(frame_delete heap2 (List.mem_singleton.mpr rfl)).2 _ hnot, ← hheap2, cells_set_self]
      rfl
    · exact (hheap2 ▸ (hl0.frame hframe1 hla).set _ hel : Rep heap2 _ l).delete hyl
    · exact (hheap2 ▸ hrepa1.set _ hea : Rep heap2 _ a).delete hya
  · have hsub : ∀ c ∈ addrs a, c ∈ addrs (.node e l (.node y a .nil)) := fun c h ↦
      hmem.mpr (.inr (.inr (hmemr.mpr (.inr (.inl h)))))
    have hframe2 : Frame (addrs (.node e l (.node y a .nil))) heap1 heap2 :=
      hheap2 ▸ frame_set heap1 _ (hmem.mpr (.inl rfl))
    exact ((hframe1.mono hsub).trans hframe2).trans
      (frame_delete heap2 (hmem.mpr (.inr (.inr (hmemr.mpr (.inl rfl))))))
  · rcases mem_addrs_join.mp h with h | h | h
    · exact hmem.mpr (.inl h)
    · exact hmem.mpr (.inr (.inl h))
    · exact hmem.mpr (.inr (.inr (hmemr.mpr (.inr (.inl h)))))

/-- Unlinking the predecessor and climbing to the node makes every subtree on the way right. -/
theorem unlink_climb {heap heap0 : NodeHeap μ} {parent : Option ℕ} {e y : Entry μ}
    {l a b : AvlTree μ} {m : Entry μ} {node : AvlNode μ} {target : ℕ} {key : Str} {keyMeta : μ}
    (hrep : Rep heap parent (.node e l (.node y a b)))
    (hnodup : (addrs (.node e l (.node y a b))).Nodup)
    (hstill : PopStill (.node e l (.node y a b))) (htarget : target ∉ addrs (.node e l (.node y a b)))
    (hlast : last (.node e l (.node y a b)) = some m) (hcell : heap.cells m.addr = some node)
    (hheap0 : heap0 = heap.set m.addr { node with key := key, keyMeta := keyMeta }) :
    ∃ heap1 heap2 steps, unlink heap0 (some m.addr) = .ok heap1 ∧
      steps ≤ (BinaryTree.node e l (.node y a b)).height ∧
      (∀ fuel, climb (fuel + steps) heap1 node.parent (some target) =
        climb fuel heap2 parent (some target)) ∧
      Rep heap2 parent (dropLast (.node e l (.node y a b))) ∧
      Frame (addrs (.node e l (.node y a b))) heap0 heap2 := by
  induction b generalizing heap heap0 parent e y l a with
  | nil =>
    obtain rfl : y = m := by simpa [last] using hlast
    obtain rfl : cellOf .left y (some e.addr) a .nil = node := by
      simpa [hcell] using hrep.2.2.1.symm
    have hmem {c : ℕ} := @mem_addrs_join μ .left e l (.node y a .nil) c
    obtain ⟨heap1, hunlink, hstale, hnodup', hframe1, hsub⟩ := unlink_stale hrep hnodup hheap0
    have hte : e.addr ≠ target := fun h ↦ htarget (by rw [← h]; exact hmem.mpr (.inl rfl))
    obtain ⟨heap2, hclimb, hrep2, hframe2⟩ := climb_still hstale hnodup' hstill.2 hte
    refine ⟨heap1, heap2, 1, hunlink, ?_, hclimb, hrep2, hframe1.trans (hframe2.mono hsub)⟩
    simp
  | node z c d _ ihd =>
    obtain ⟨hel, her, hnodupl, hnodupr, hdisjoint⟩ := (@nodup_addrs_join μ .left e l _).mp hnodup
    have hmem {q : ℕ} := @mem_addrs_join μ .left e l (.node y a (.node z c d)) q
    have hlast' : last (.node y a (.node z c d)) = some m := hlast
    have hem : e.addr ≠ m.addr := fun h ↦ her (h ▸ last_mem_addrs hlast')
    have hml : m.addr ∉ addrs l := fun h ↦ hdisjoint _ h (last_mem_addrs hlast')
    obtain ⟨heap1, heap2, steps, hunlink, hsteps, hclimb, hrep2, hframe2⟩ :=
      ihd hrep.2.2 hnodupr hstill.1 (fun h ↦ htarget (hmem.mpr (.inr (.inr h)))) hlast' hcell hheap0
    have he0 : heap0.cells e.addr = some (cellOf .left e parent l (.node y a (.node z c d))) := by
      rw [hheap0, cells_set_of_ne _ _ hem]
      exact hrep.1
    have hl0 : Rep heap0 (some e.addr) l := hheap0 ▸ hrep.2.1.set _ hml
    have hdrop (q : ℕ) (h : q ∈ addrs (dropLast (.node y a (.node z c d)))) :
        q ∈ addrs (.node y a (.node z c d)) := by
      rw [addrs_eq_dropLast_append hlast']
      exact List.mem_append_left _ h
    have hnodupDrop : (addrs (dropLast (.node y a (.node z c d)))).Nodup := by
      rw [addrs_eq_dropLast_append hlast'] at hnodupr
      exact (List.nodup_append'.mp hnodupr).1
    have hstale : Stale heap2 .left parent e l (dropLast (.node y a (.node z c d))) :=
      ⟨_, (hframe2.2 _ her).trans he0, hl0.frame hframe2 hdisjoint, hrep2⟩
    have hnodup' : (addrs (join .left e l (dropLast (.node y a (.node z c d))))).Nodup :=
      nodup_addrs_join.mpr ⟨hel, fun h ↦ her (hdrop _ h), hnodupl, hnodupDrop,
        fun q h h' ↦ hdisjoint q h (hdrop q h')⟩
    have hte : e.addr ≠ target := fun h ↦ htarget (by rw [← h]; exact hmem.mpr (.inl rfl))
    obtain ⟨heap3, hclimb3, hrep3, hframe3⟩ := climb_still hstale hnodup' hstill.2 hte
    refine ⟨heap1, heap3, steps + 1, hunlink, ?_, fun fuel ↦ ?_, hrep3, ?_⟩
    · have hheight : (BinaryTree.node e l (.node y a (.node z c d))).height =
          max l.height (BinaryTree.node y a (.node z c d)).height + 1 := rfl
      omega
    · rw [← add_assoc, Nat.add_right_comm, hclimb, hclimb3]
    · refine (hframe2.mono fun q h ↦ hmem.mpr (.inr (.inr h))).trans (hframe3.mono ?_)
      intro q h
      rcases mem_addrs_join.mp h with h | h | h
      · exact hmem.mpr (.inl h)
      · exact hmem.mpr (.inr (.inl h))
      · exact hmem.mpr (.inr (.inr (hdrop q h)))

/-- The only child gives its content and its subtrees to its parent. -/
theorem removeSingle_rep {heap : NodeHeap μ} {side : Side} {parent : Option ℕ} {x m : Entry μ}
    {a b : AvlTree μ} (hrep : Rep heap parent (join side x (.node m a b) .nil))
    (hnodup : (addrs (join side x (.node m a b) .nil)).Nodup) :
    EndsIn (removeSingle heap (some x.addr) (some m.addr))
      (addrs (join side x (.node m a b) .nil)) heap parent (.node (fill x m) a b) := by
  obtain ⟨hx, hm, -⟩ := rep_join.mp hrep
  obtain ⟨hmcell, hrepa, hrepb⟩ := hm
  obtain ⟨hxm, -, hnodupm, -⟩ := nodup_addrs_join.mp hnodup
  obtain ⟨hma, hmb, hnodupa, hnodupb, hab⟩ := (@nodup_addrs_join μ .left m a b).mp hnodupm
  have hmem {c : ℕ} := @mem_addrs_join μ .left m a b c
  have hne : x.addr ≠ m.addr := fun h ↦ hxm (hmem.mpr (.inl h))
  have hxa : x.addr ∉ addrs a := fun h ↦ hxm (hmem.mpr (.inr (.inl h)))
  have hxb : x.addr ∉ addrs b := fun h ↦ hxm (hmem.mpr (.inr (.inr h)))
  obtain ⟨here, hhere⟩ : ∃ here, cellOf side x parent (.node m a b) .nil = here := ⟨_, rfl⟩
  rw [hhere] at hx
  obtain ⟨c1, hc1⟩ : ∃ c1, { here with key := m.key, keyMeta := m.keyMeta } = c1 := ⟨_, rfl⟩
  obtain ⟨heap1, hheap1⟩ : ∃ heap1, heap.set x.addr c1 = heap1 := ⟨_, rfl⟩
  have hm1 : heap1.cells m.addr = some (cellOf .left m (some x.addr) a b) := by
    rw [← hheap1, cells_set_of_ne _ _ hne.symm, hmcell]
  obtain ⟨heap2, hheap2⟩ : ∃ heap2, heap1.set m.addr { cellOf .left m (some x.addr) a b with
    key := here.key, keyMeta := here.keyMeta } = heap2 := ⟨_, rfl⟩
  have hx2 : heap2.cells x.addr = some c1 := by
    rw [← hheap2, cells_set_of_ne _ _ hne, ← hheap1, cells_set_self]
  obtain ⟨heap3, hheap3⟩ : ∃ heap3, heap2.set x.addr { c1 with left := root a } = heap3 :=
    ⟨_, rfl⟩
  have hkeep {t : AvlTree μ} {p : Option ℕ} (h : Rep heap p t) (hxt : x.addr ∉ addrs t)
      (hmt : m.addr ∉ addrs t) : Rep heap3 p t := by
    rw [← hheap3, ← hheap2, ← hheap1]
    exact ((h.set _ hxt).set _ hmt).set _ hxt
  obtain ⟨heap4, hadopt4, hrepa4, hframe4⟩ :=
    adopt_rep (hkeep hrepa hxa hma) hnodupa (some x.addr)
  have hx4 : heap4.cells x.addr = some { c1 with left := root a } := by
    rw [hframe4.2 _ hxa, ← hheap3, cells_set_self]
  have hrepb4 : Rep heap4 (some m.addr) b :=
    (hkeep hrepb hxb hmb).frame hframe4 fun q h h' ↦ hab q h' h
  obtain ⟨heap5, hheap5⟩ : ∃ heap5, heap4.set x.addr
    { c1 with left := root a, right := root b } = heap5 := ⟨_, rfl⟩
  obtain ⟨heap6, hadopt6, hrepb6, hframe6⟩ :=
    adopt_rep (hheap5 ▸ hrepb4.set _ hxb : Rep heap5 _ b) hnodupb (some x.addr)
  have hstale : Stale heap6 .left parent (fill x m) a b := by
    refine ⟨here.hight, ?_, ?_, hrepb6⟩
    · change heap6.cells x.addr = _
      rw [hframe6.2 _ hxb, ← hheap5, cells_set_self, ← hc1, ← hhere]
      cases side <;> rfl
    · exact (hheap5 ▸ hrepa4.set _ hxa : Rep heap5 _ a).frame hframe6 hab
  have hnodup6 : (addrs (join .left (fill x m) a b)).Nodup :=
    nodup_addrs_join.mpr ⟨hxa, hxb, hnodupa, hnodupb, hab⟩
  obtain ⟨heap7, hcalc, hrep7, hframe7⟩ := avlCalcHight_stale hstale hnodup6
  have hmfresh : m.addr ∉ addrs (.node (fill x m) a b) := by
    intro h
    rcases (@mem_addrs_join μ .left (fill x m) a b _).mp h with h | h | h
    · exact hne h.symm
    · exact hma h
    · exact hmb h
  have hxmem : x.addr ∈ addrs (join side x (.node m a b) .nil) := mem_addrs_join.mpr (.inl rfl)
  have hmid {q : ℕ} (h : q = m.addr ∨ q ∈ addrs a ∨ q ∈ addrs b) :
      q ∈ addrs (join side x (.node m a b) .nil) :=
    mem_addrs_join.mpr (.inr (.inl (hmem.mpr h)))
  refine ⟨heap7, some m.addr, ?_, hrep7, ?_, fun address h ↦ ?_⟩
  · have hkey : (cellOf .left m (some x.addr) a b).key = m.key := rfl
    have hmeta : (cellOf .left m (some x.addr) a b).keyMeta = m.keyMeta := rfl
    have hleft : (cellOf .left m (some x.addr) a b).left = root a := rfl
    have hright : (cellOf .left m (some x.addr) a b).right = root b := rfl
    have hcalc' : avlCalcHight heap6 (some x.addr) = .ok heap7 := hcalc
    simp only [removeSingle, load_of_cells hx, load_of_cells hmcell, ok_bind, hkey, hmeta,
      modify_of_cells hx, hc1, hheap1, modify_of_cells hm1, hheap2]
    simp only [modify_of_cells hx2, ok_bind, hleft, hright, hheap3, hadopt4, modify_of_cells hx4,
      hheap5, hadopt6, hcalc', pure_eq_ok]
    rfl
  · have hframe1 : Frame (addrs (join side x (.node m a b) .nil)) heap heap1 :=
      hheap1 ▸ frame_set heap _ hxmem
    have hframe2 : Frame (addrs (join side x (.node m a b) .nil)) heap1 heap2 :=
      hheap2 ▸ frame_set heap1 _ (hmid (.inl rfl))
    have hframe3 : Frame (addrs (join side x (.node m a b) .nil)) heap2 heap3 :=
      hheap3 ▸ frame_set heap2 _ hxmem
    have hframe5 : Frame (addrs (join side x (.node m a b) .nil)) heap4 heap5 :=
      hheap5 ▸ frame_set heap4 _ hxmem
    exact (((((hframe1.trans hframe2).trans hframe3).trans
      (hframe4.mono fun q h ↦ hmid (.inr (.inl h)))).trans hframe5).trans
      (hframe6.mono fun q h ↦ hmid (.inr (.inr h)))).trans (hframe7.mono (by simpa using hxmem))
  · cases h
    exact ⟨hmid (.inl rfl), hmfresh⟩

/-- The contents of the node and of its predecessor before the predecessor is unlinked from a node
below. -/
theorem removeInner_swap {heap : NodeHeap μ} {parent : Option ℕ} {x m : Entry μ} {l r : AvlTree μ}
    {mid : AvlNode μ} {fuel : ℕ} (hrep : Rep heap parent (.node x l r))
    (hnodup : (addrs (.node x l r)).Nodup) (hlast : last l = some m)
    (hm : heap.cells m.addr = some mid) (hkey : mid.key = m.key) (hmeta : mid.keyMeta = m.keyMeta)
    (hfuel : l.height < fuel) :
    ∃ heap1 heap2, heap2 = heap1.set m.addr { mid with key := x.key, keyMeta := x.keyMeta } ∧
      heap1.cells m.addr = some mid ∧ Rep heap1 (some x.addr) l ∧
      heap2.cells x.addr = some (cellOf .left (fill x m) parent l r) ∧ Rep heap2 (some x.addr) r ∧
      Frame (addrs (.node x l r)) heap heap2 ∧
      removeInner fuel heap (some x.addr) =
        if some m.addr = root l then do
          let heap ← heap2.modify (some x.addr) fun node ↦ { node with left := mid.left }
          let heap ← heap.adopt mid.left (some x.addr)
          let heap ← avlCalcHight heap (some x.addr)
          let (heap, node) ← avlRebalance heap (some x.addr)
          return (avlDeleteNode heap (some m.addr), node, 1)
        else do
          let heap ← unlink heap2 (some m.addr)
          let heap ← climb fuel heap mid.parent (some x.addr)
          let heap ← avlCalcHight heap (some x.addr)
          let (heap, node) ← avlRebalance heap (some x.addr)
          return (heap, node, 1) := by
  obtain ⟨hx, hrepl, hrepr⟩ := hrep
  obtain ⟨hxl, hxr, hnodupl, hnodupr, hdisjoint⟩ := (@nodup_addrs_join μ .left x l r).mp hnodup
  have hmem {q : ℕ} := @mem_addrs_join μ .left x l r q
  have hml : m.addr ∈ addrs l := last_mem_addrs hlast
  have hne : x.addr ≠ m.addr := fun h ↦ hxl (h ▸ hml)
  obtain ⟨heap1, hheap1⟩ : ∃ heap1, heap.set x.addr (cellOf .left (fill x m) parent l r) = heap1 :=
    ⟨_, rfl⟩
  have hm1 : heap1.cells m.addr = some mid := by
    rw [← hheap1, cells_set_of_ne _ _ hne.symm, hm]
  refine ⟨heap1, _, rfl, hm1, hheap1 ▸ hrepl.set _ hxl, ?_, ?_, ?_, ?_⟩
  · rw [cells_set_of_ne _ _ hne, ← hheap1, cells_set_self]
  · rw [← hheap1]
    exact (hrepr.set _ hxr).set _ fun h ↦ hdisjoint _ hml h
  · rw [← hheap1]
    exact (frame_set heap _ (hmem.mpr (.inl rfl))).trans
      (frame_set _ _ (hmem.mpr (.inr (.inl hml))))
  · have hne' : l ≠ .nil := by
      rintro rfl
      cases hlast
    have hgo : goRight fuel heap (root l) = .ok (some m.addr) := by
      rw [goRight_rep hrepl (Nat.le_of_lt hfuel) hne', hlast, Option.map_some]
    have hleft : (cellOf .left x parent l r).left = root l := rfl
    have hkey' : (cellOf .left x parent l r).key = x.key := rfl
    have hmeta' : (cellOf .left x parent l r).keyMeta = x.keyMeta := rfl
    have hset : heap.modify (some x.addr)
        (fun node ↦ { node with key := m.key, keyMeta := m.keyMeta }) = .ok heap1 :=
      (modify_of_cells hx _).trans (congrArg Except.ok hheap1)
    simp only [removeInner, load_of_cells hx, ok_bind, hleft, hgo, load_of_cells hm, hkey, hmeta,
      hset, modify_of_cells hm1, hkey', hmeta']

/-- The predecessor gives its content to the node and leaves, with nothing to rotate on the way. -/
theorem removeInner_rep {heap : NodeHeap μ} {parent : Option ℕ} {x p n : Entry μ}
    {a b c d : AvlTree μ} {fuel : ℕ}
    (hrep : Rep heap parent (.node x (.node p a b) (.node n c d)))
    (hnodup : (addrs (.node x (.node p a b) (.node n c d))).Nodup)
    (hstill : PopStill (.node p a b)) (hfuel : (BinaryTree.node p a b).height < fuel) :
    EndsIn (removeInner fuel heap (some x.addr)) (addrs (.node x (.node p a b) (.node n c d))) heap
      parent (eraseRoot fill x (.node p a b) (.node n c d)) := by
  obtain ⟨m, mid, hlast, hm, hmidKey, hmidMeta⟩ := exists_last_cell hrep.2.1 (by simp)
  obtain ⟨heap1, heap2, hheap2, hm1, hrepl1, hx2, hrepr2, hframe2, hcall⟩ :=
    removeInner_swap hrep hnodup hlast hm hmidKey hmidMeta hfuel
  obtain ⟨-, hrepl, -⟩ := hrep
  obtain ⟨hxl, hxr, hnodupl, hnodupr, hdisjoint⟩ :=
    (@nodup_addrs_join μ .left x (.node p a b) (.node n c d)).mp hnodup
  have hmem {q : ℕ} := @mem_addrs_join μ .left x (.node p a b) (.node n c d) q
  have hml : m.addr ∈ addrs (.node p a b) := last_mem_addrs hlast
  have hne : x.addr ≠ m.addr := fun h ↦ hxl (h ▸ hml)
  have hsplit := addrs_eq_dropLast_append hlast
  have hdrop (q : ℕ) (h : q ∈ addrs (dropLast (.node p a b))) : q ∈ addrs (.node p a b) := by
    rw [hsplit]
    exact List.mem_append_left _ h
  have hnodupDrop : (addrs (dropLast (.node p a b))).Nodup := by
    rw [hsplit] at hnodupl
    exact (List.nodup_append'.mp hnodupl).1
  have heq : eraseRoot fill x (.node p a b) (.node n c d) =
      join .left (fill x m) (dropLast (.node p a b)) (.node n c d) := by
    simp only [eraseRoot, hlast, Option.map_some, Option.getD_some, join]
  rw [heq]
  have hnodup' : (addrs (join .left (fill x m) (dropLast (.node p a b)) (.node n c d))).Nodup :=
    nodup_addrs_join.mpr ⟨fun h ↦ hxl (hdrop _ h), hxr, hnodupDrop, hnodupr,
      fun q h ↦ hdisjoint q (hdrop q h)⟩
  have hxmem : x.addr ∈ addrs (.node x (.node p a b) (.node n c d)) := hmem.mpr (.inl rfl)
  have hmmem : m.addr ∈ addrs (.node x (.node p a b) (.node n c d)) := hmem.mpr (.inr (.inl hml))
  cases b with
  | nil =>
    obtain rfl : p = m := by simpa [last] using hlast
    obtain rfl : cellOf .left p (some x.addr) a .nil = mid := by simpa [hm] using hrepl.1.symm
    obtain ⟨hpa, -, hnodupa, -⟩ := (@nodup_addrs_join μ .left p a .nil).mp hnodupl
    have hmeml {q : ℕ} := @mem_addrs_join μ .left p a .nil q
    have hxa : x.addr ∉ addrs a := fun h ↦ hxl (hmeml.mpr (.inr (.inl h)))
    obtain ⟨heap3, hheap3⟩ : ∃ heap3, heap2.set x.addr { cellOf .left (fill x p) parent
      (.node p a .nil) (.node n c d) with left := root a } = heap3 := ⟨_, rfl⟩
    have hrepa3 : Rep heap3 (some p.addr) a := by
      rw [← hheap3, hheap2]
      exact (hrepl1.2.1.set _ hpa).set _ hxa
    obtain ⟨heap4, hadopt4, hrepa4, hframe4⟩ := adopt_rep hrepa3 hnodupa (some x.addr)
    have hstale : Stale heap4 .left parent (fill x p) a (.node n c d) := by
      refine ⟨max (BinaryTree.node p a .nil).height (BinaryTree.node n c d).height + 1, ?_, hrepa4,
        ?_⟩
      · rw [fill_addr, hframe4.2 _ hxa, ← hheap3, cells_set_self]
        rfl
      · exact (hheap3 ▸ hrepr2.set _ hxr : Rep heap3 _ (.node n c d)).frame hframe4
          fun q h h' ↦ hdisjoint q (hmeml.mpr (.inr (.inl h'))) h
    obtain ⟨heap5, hcalc, hrep5, hframe5⟩ := avlCalcHight_stale hstale hnodup'
    have hpfresh : p.addr ∉ addrs (join .left (fill x p) a (.node n c d)) := by
      intro h
      rcases mem_addrs_join.mp h with h | h | h
      · exact hne h.symm
      · exact hpa h
      · exact hdisjoint _ hml h
    refine ⟨heap5, some p.addr, ?_, hrep5, ?_, fun address h ↦ ?_⟩
    · have hleft : (cellOf .left p (some x.addr) a .nil).left = root a := rfl
      have hcalc' : avlCalcHight heap4 (some x.addr) = .ok heap5 := hcalc
      rw [hcall, root_node, if_pos rfl]
      simp only [modify_of_cells hx2, ok_bind, hleft, hheap3, hadopt4, hcalc', pure_eq_ok]
      rfl
    · have hframe3 : Frame (addrs (.node x (.node p a .nil) (.node n c d))) heap2 heap3 :=
        hheap3 ▸ frame_set heap2 _ hxmem
      exact ((hframe2.trans hframe3).trans (hframe4.mono fun q h ↦
        hmem.mpr (.inr (.inl (hmeml.mpr (.inr (.inl h))))))).trans
          (hframe5.mono (by simpa using hxmem))
    · cases h
      exact ⟨hmmem, hpfresh⟩
  | node z e f =>
    obtain ⟨heap3, heap4, steps, hunlink, hsteps, hclimb, hrep4, hframe4⟩ :=
      unlink_climb hrepl1 hnodupl hstill hxl hlast hm1 hheap2
    have hmp : ¬ some m.addr = root (.node p a (.node z e f)) := by
      intro h
      have hlastz : last (.node z e f) = some m := hlast
      exact ((@nodup_addrs_join μ .left p a (.node z e f)).mp hnodupl).2.1
        (Option.some.inj h ▸ last_mem_addrs hlastz)
    obtain ⟨rest, hrest⟩ := Nat.exists_eq_add_of_lt (lt_of_le_of_lt hsteps hfuel)
    have hclimbed : climb fuel heap3 mid.parent (some x.addr) = .ok heap4 := by
      rw [hrest, show steps + rest + 1 = (rest + 1) + steps by omega, hclimb]
      simp [climb]
    have hstale : Stale heap4 .left parent (fill x m) (dropLast (.node p a (.node z e f)))
        (.node n c d) := by
      refine ⟨max (BinaryTree.node p a (.node z e f)).height (BinaryTree.node n c d).height + 1, ?_,
        hrep4, hrepr2.frame hframe4 fun q h h' ↦ hdisjoint q h' h⟩
      rw [fill_addr, hframe4.2 _ hxl, hx2]
      rfl
    obtain ⟨heap5, hcalc, hrep5, hframe5⟩ := avlCalcHight_stale hstale hnodup'
    have hcalc' : avlCalcHight heap4 (some x.addr) = .ok heap5 := hcalc
    refine ⟨heap5, none, ?_, hrep5, (hframe2.trans (hframe4.mono fun q h ↦
      hmem.mpr (.inr (.inl h)))).trans (hframe5.mono (by simpa using hxmem)), ?_⟩
    · rw [hcall, if_neg hmp]
      simp only [hunlink, ok_bind, hclimbed, hcalc', pure_eq_ok]
      rfl
    · rintro node ⟨⟩

/-- A leaf leaves its parent, whose height is made right. -/
theorem removeLeaf_rep {heap : NodeHeap μ} {side : Side} {parent : Option ℕ} {x y : Entry μ}
    {far : AvlTree μ} (hrep : Rep heap parent (join side x (.node y .nil .nil) far))
    (hnodup : (addrs (join side x (.node y .nil .nil) far)).Nodup) :
    ∃ heap', removeLeaf heap (some y.addr) = .ok (heap', none, 1) ∧
      Rep heap' parent (join side x .nil far) ∧
        Frame (addrs (join side x (.node y .nil .nil) far)) heap heap' := by
  obtain ⟨hx, hy, hfar⟩ := rep_join.mp hrep
  obtain ⟨hxy, hxfar, -, hnodupFar, hdisjoint⟩ := nodup_addrs_join.mp hnodup
  have hymem : y.addr ∈ addrs (.node y .nil .nil) := List.mem_singleton.mpr rfl
  have hyfar : y.addr ∉ addrs far := hdisjoint _ hymem
  have hyx : y.addr ≠ x.addr := fun h ↦ hxy (h ▸ hymem)
  obtain ⟨heap1, hheap1⟩ : ∃ heap1, heap.set x.addr
    ((cellOf side x parent (.node y .nil .nil) far).setChild side none) = heap1 := ⟨_, rfl⟩
  have hstale : Stale heap1 side parent x .nil far := by
    refine ⟨max (BinaryTree.node y .nil .nil).height far.height + 1, ?_, rep_nil _ _,
      hheap1 ▸ hfar.set _ hxfar⟩
    rw [← hheap1, cells_set_self]
    cases side <;> rfl
  have hnodup1 : (addrs (join side x .nil far)).Nodup :=
    nodup_addrs_join.mpr ⟨List.not_mem_nil, hxfar, List.nodup_nil, hnodupFar,
      fun a h ↦ absurd h List.not_mem_nil⟩
  obtain ⟨heap2, hcalc, hrep2, hframe2⟩ := avlCalcHight_stale hstale hnodup1
  have hyfresh : y.addr ∉ addrs (join side x .nil far) := by
    intro h
    rcases mem_addrs_join.mp h with h | h | h
    · exact hyx h
    · exact List.not_mem_nil h
    · exact hyfar h
  refine ⟨avlDeleteNode heap2 (some y.addr), ?_, hrep2.delete hyfresh, ?_⟩
  · have hparent : (cellOf .left y (some x.addr) (.nil : AvlTree μ) .nil).parent = some x.addr := rfl
    have hroot : root far ≠ some y.addr := by
      intro h
      cases far with
      | nil => cases h
      | node z a b =>
        have haddr : z.addr = y.addr := Option.some.inj h
        exact hyfar (haddr ▸ (@mem_addrs_join μ .left z a b _).mpr (.inl rfl))
    have hforget : forgetLeaf heap (some x.addr) (some y.addr) = .ok heap1 := by
      simp only [forgetLeaf, load_of_cells hx, ok_bind, modify_of_cells hx, ← hheap1]
      cases side with
      | left => exact if_pos rfl
      | right => exact (if_neg hroot).trans (if_pos rfl)
    simp only [removeLeaf, load_of_cells hy.1, ok_bind, hparent, hforget, hcalc, pure_eq_ok]
  · have hxmem : x.addr ∈ addrs (join side x (.node y .nil .nil) far) :=
      mem_addrs_join.mpr (.inl rfl)
    have hframe1 : Frame (addrs (join side x (.node y .nil .nil) far)) heap heap1 :=
      hheap1 ▸ frame_set heap _ hxmem
    exact (hframe1.trans (hframe2.mono (by simpa using hxmem))).trans
      (frame_delete heap2 (mem_addrs_join.mpr (.inr (.inl hymem))))

/-- What the call on a child leaves behind: the subtree without the key, under a node whose height
may be out of date. -/
theorem avlRemoveNode_child {heap : NodeHeap μ} {side : Side} {parent : Option ℕ} {x : Entry μ}
    {near far : AvlTree μ} {key : Str} {fuel : ℕ} (hrep : Rep heap parent (join side x near far))
    (hnodup : (addrs (join side x near far)).Nodup) (hfuel : near.height < fuel)
    (hnear : AvlTree.erase key near ≠ .nil → ∃ heap', avlRemoveNode fuel heap (root near) key =
      .ok (heap', root (AvlTree.erase key near), 1) ∧
        Rep heap' (some x.addr) (AvlTree.erase key near) ∧ Frame (addrs near) heap heap') :
    ∃ heap' node status, avlRemoveNode fuel heap (root near) key = .ok (heap', node, status) ∧
      Stale heap' side parent x (AvlTree.erase key near) far ∧
        Frame (addrs (join side x near far)) heap heap' := by
  obtain ⟨hx, hrepNear, hrepFar⟩ := rep_join.mp hrep
  obtain ⟨hxNear, hxFar, hnodupNear, hnodupFar, hdisjoint⟩ := nodup_addrs_join.mp hnodup
  obtain ⟨fuel, rfl⟩ : ∃ more, fuel = more + 1 := ⟨fuel - 1, by omega⟩
  by_cases hnil : AvlTree.erase key near = .nil
  · rw [hnil]
    rcases erase_eq_nil hnil with rfl | ⟨y, rfl, hy⟩
    · exact ⟨heap, none, -1, rfl, hrep.stale, Frame.refl _ _⟩
    · obtain ⟨heap', hleaf, hrep', hframe⟩ := removeLeaf_rep hrep hnodup
      refine ⟨heap', none, 1, ?_, hrep'.stale, hframe⟩
      have hkey : (cellOf .left y (some x.addr) (.nil : AvlTree μ) .nil).key = y.key := rfl
      have hleft : (cellOf .left y (some x.addr) (.nil : AvlTree μ) .nil).left = none := rfl
      have hright : (cellOf .left y (some x.addr) (.nil : AvlTree μ) .nil).right = none := rfl
      simp only [avlRemoveNode, root_node, load_of_cells hrepNear.1, ok_bind, hkey,
        (keyComp_eq_zero_iff _ _).mpr hy, if_true, hleft, hright, hleaf]
  · obtain ⟨heap', hcall, hrep', hframe⟩ := hnear hnil
    refine ⟨heap', _, _, hcall, ⟨max near.height far.height + 1, ?_, hrep', ?_⟩,
      hframe.mono fun a h ↦ mem_addrs_join.mpr (.inr (.inl h))⟩
    · rw [hframe.2 _ hxNear, hx]
      cases side <;> simp [cellOf, AvlNode.setChild, Side.other, root_erase hnil]
    · exact hrepFar.frame hframe fun a h h' ↦ hdisjoint a h' h

/-- The step of the removal at a node above the key, for either side. -/
theorem avlRemoveNode_join {heap : NodeHeap μ} {side : Side} {parent : Option ℕ} {x : Entry μ}
    {near far : AvlTree μ} {key : Str} {fuel : ℕ} (hrep : Rep heap parent (join side x near far))
    (hnodup : (addrs (join side x near far)).Nodup) (hfuel : near.height < fuel)
    (horder : keyComp x.key key ≠ 0)
    (hside : (if keyComp x.key key > 0 then Side.right else Side.left) = side)
    (hnear : AvlTree.erase key near ≠ .nil → ∃ heap', avlRemoveNode fuel heap (root near) key =
      .ok (heap', root (AvlTree.erase key near), 1) ∧
        Rep heap' (some x.addr) (AvlTree.erase key near) ∧ Frame (addrs near) heap heap') :
    EndsIn (avlRemoveNode (fuel + 1) heap (some x.addr) key) (addrs (join side x near far)) heap
      parent (join side x (AvlTree.erase key near) far) := by
  obtain ⟨hxNear, hxFar, hnodupNear, hnodupFar, hdisjoint⟩ := nodup_addrs_join.mp hnodup
  obtain ⟨heap1, node, status, hcall, hstale, hframe1⟩ :=
    avlRemoveNode_child hrep hnodup hfuel hnear
  obtain ⟨hnodupErase, hsub⟩ := @addrs_erase μ key near hnodupNear
  have hnodup' : (addrs (join side x (AvlTree.erase key near) far)).Nodup :=
    nodup_addrs_join.mpr ⟨fun h ↦ hxNear (hsub _ h), hxFar, hnodupErase, hnodupFar,
      fun a h ↦ hdisjoint a (hsub a h)⟩
  obtain ⟨heap2, hcalc, hrep2, hframe2⟩ := avlCalcHight_stale hstale hnodup'
  have hxmem : x.addr ∈ addrs (join side x near far) := mem_addrs_join.mpr (.inl rfl)
  refine ⟨heap2, none, ?_, hrep2, hframe1.trans (hframe2.mono (by simpa using hxmem)), nofun⟩
  have hkey : (cellOf side x parent near far).key = x.key := by cases side <;> rfl
  simp only [avlRemoveNode, load_of_cells (rep_join.mp hrep).1, ok_bind, hkey, if_neg horder,
    hside, child_cellOf, hcall, hcalc, root_join, avlDeleteNode, pure_eq_ok]

/-- The removal at the node of the key, when something is left below it. -/
theorem avlRemoveNode_here {heap : NodeHeap μ} {parent : Option ℕ} {x : Entry μ}
    {l r : AvlTree μ} {key : Str} {fuel : ℕ} (hrep : Rep heap parent (.node x l r))
    (hnodup : (addrs (.node x l r)).Nodup) (hfuel : (BinaryTree.node x l r).height ≤ fuel)
    (hkey : x.key = key) (hstill : r ≠ .nil → PopStill l) (hleft : eraseRoot fill x l r ≠ .nil) :
    EndsIn (avlRemoveNode (fuel + 1) heap (some x.addr) key) (addrs (.node x l r)) heap parent
      (eraseRoot fill x l r) := by
  have hcellKey : (cellOf .left x parent l r).key = x.key := rfl
  have hcellLeft : (cellOf .left x parent l r).left = root l := rfl
  have hcellRight : (cellOf .left x parent l r).right = root r := rfl
  simp only [avlRemoveNode, load_of_cells hrep.1, ok_bind, hcellKey,
    (keyComp_eq_zero_iff _ _).mpr hkey, if_true, hcellLeft, hcellRight]
  cases l with
  | nil =>
    cases r with
    | nil => exact absurd rfl hleft
    | node m a b => exact @removeSingle_rep μ heap .right parent x m a b hrep hnodup
  | node m a b =>
    cases r with
    | nil => exact @removeSingle_rep μ heap .left parent x m a b hrep hnodup
    | node n c d =>
      simp only [BinaryTree.height] at hfuel
      exact removeInner_rep hrep hnodup (hstill (by simp)) (by
        simp only [BinaryTree.height]
        omega)

theorem EndsIn.erases {call : Outcome (NodeHeap μ × Option ℕ × ℤ)} {heap : NodeHeap μ}
    {parent : Option ℕ} {t : AvlTree μ} {key : Str}
    (h : EndsIn call (addrs t) heap parent (AvlTree.erase key t)) (hnodup : (addrs t).Nodup)
    (hpivot : HasPivot (AvlTree.erase key t)) :
    ∃ heap', call = .ok (heap', root (rebalance (AvlTree.erase key t)), 1) ∧
      Rep heap' parent (rebalance (AvlTree.erase key t)) ∧ Frame (addrs t) heap heap' :=
  h.ok (@addrs_erase μ key t hnodup).1 (@addrs_erase μ key t hnodup).2 hpivot

/-- The removal of the cells is the removal of the tree with one rebalancing at its root, when it
rotates nothing below. -/
theorem avlRemoveNode_ends {heap : NodeHeap μ} {parent : Option ℕ} {t : AvlTree μ} {key : Str}
    {fuel : ℕ} (hrep : Rep heap parent t) (hnodup : (addrs t).Nodup) (hfuel : t.height < fuel)
    (hstill : EraseStill key t) (hleft : AvlTree.erase key t ≠ .nil) :
    EndsIn (avlRemoveNode fuel heap (root t) key) (addrs t) heap parent (AvlTree.erase key t) := by
  induction t generalizing heap parent fuel with
  | nil => exact absurd rfl hleft
  | node x l r ihl ihr =>
    cases fuel with
    | zero => exact absurd hfuel (Nat.not_lt_zero _)
    | succ fuel =>
      have hparts := (@nodup_addrs_join μ .left x l r).mp hnodup
      have hheight : (BinaryTree.node x l r).height = max l.height r.height + 1 := rfl
      unfold EraseStill at hstill
      rcases lt_trichotomy x.key key with hlt | heq | hgt
      · have hpos := (keyComp_pos_iff _ _).mpr hlt
        rw [if_pos hlt] at hstill
        rw [erase_of_lt hlt]
        refine @avlRemoveNode_join μ heap .right parent x r l key fuel hrep hnodup (by omega)
          hpos.ne' (if_pos hpos) fun hr ↦ ?_
        have hbelow := (ihr hrep.2.2 hparts.2.2.2.1 (by omega : r.height < fuel) hstill.1 hr).erases
          hparts.2.2.2.1 hstill.2.hasPivot
        rwa [rebalance_of_still hstill.2] at hbelow
      · rw [if_neg heq.not_lt, if_neg heq.not_gt] at hstill
        rw [erase_of_eq heq] at hleft ⊢
        exact avlRemoveNode_here hrep hnodup (by omega) heq hstill hleft
      · have hneg := (keyComp_neg_iff _ _).mpr hgt
        rw [if_neg hgt.not_gt, if_pos hgt] at hstill
        rw [erase_of_gt hgt]
        refine @avlRemoveNode_join μ heap .left parent x l r key fuel hrep hnodup (by omega)
          hneg.ne (if_neg hneg.not_gt) fun hl ↦ ?_
        have hbelow := (ihl hrep.2.1 hparts.2.2.1 (by omega : l.height < fuel) hstill.1 hl).erases
          hparts.2.2.1 hstill.2.hasPivot
        rwa [rebalance_of_still hstill.2] at hbelow

theorem avlRemoveNode_rep {heap : NodeHeap μ} {parent : Option ℕ} {t : AvlTree μ} {key : Str}
    {fuel : ℕ} (hrep : Rep heap parent t) (hnodup : (addrs t).Nodup) (hfuel : t.height < fuel)
    (hstill : EraseStill key t) (hpivot : HasPivot (AvlTree.erase key t))
    (hleft : AvlTree.erase key t ≠ .nil) :
    ∃ heap', avlRemoveNode fuel heap (root t) key =
      .ok (heap', root (rebalance (AvlTree.erase key t)), 1) ∧
        Rep heap' parent (rebalance (AvlTree.erase key t)) ∧ Frame (addrs t) heap heap' :=
  (avlRemoveNode_ends hrep hnodup hfuel hstill hleft).erases hnodup hpivot

end FGDB.HashMap
