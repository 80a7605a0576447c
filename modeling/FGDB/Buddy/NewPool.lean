import FGDB.Buddy.Geometry

/-!
# The block of a new pool

A new pool is one block: the header, the states of the nodes and the chunks. Its size
is computed in 32 bits, so a pool of more than `2 ^ 21` kilobytes gets a block without
room for its chunks, or none at all when the logarithm does not end.
-/

namespace FGDB.Buddy

open Foundation

/-- `sizeof(struct buddy)`, and where its array begins. -/
def sizeofBuddy : ℕ := 16

def treeStart : ℕ := 12

/-- The numbers of `buddy_new`; `bytes` is what malloc is asked for. -/
structure NewBlock where
  allocSize : ℕ
  hight : ℕ
  buddySize : ℕ
  bytes : ℕ
  deriving DecidableEq, Repr

/-- The arithmetic of `buddy_new`; the logarithms are those of the size, taken twice, and of the
smallest chunk. -/
def blockOf (sizeLog sizeLog' chunkLog : ℕ) : NewBlock :=
  let allocSize := shiftLeft sizeLog
  let hight := wrap32 (sizeLog' + 2 ^ 32 - chunkLog + 1)
  let buddySize := wrap32 (sizeofBuddy + wrap32 (shiftLeft hight + (2 ^ 32 - 1)))
  ⟨allocSize, hight, buddySize, wrap32 (buddySize + wrap32 (allocSize * 1 * kb))⟩

/-- `buddy_new` up to its call of malloc. The size is a `size_t` of which the logarithm takes 32
bits. -/
def newBlock (rounds size : ℕ) : Outcome NewBlock := do
  let sizeLog ← bsqrtLoop rounds (wrap32 size)
  let sizeLog' ← bsqrtLoop rounds (wrap32 size)
  let chunkLog ← bsqrtLoop rounds (minChunk / kb)
  return blockOf sizeLog sizeLog' chunkLog

/-- The kilobytes of a pool of so many, rounded up to a power of two. -/
def poolSize (size : ℕ) : ℕ := 2 ^ Nat.clog 2 size

/-- The numbers are those of the design: nothing has wrapped around. -/
structure Exact (size : ℕ) (block : NewBlock) : Prop where
  allocSize : block.allocSize = poolSize size
  hight : block.hight = Nat.clog 2 size + 1
  buddySize : block.buddySize = sizeofBuddy + (2 ^ block.hight - 1)
  bytes : block.bytes = block.buddySize + block.allocSize * kb

/-- The block has room for the header, a byte for each node and, behind them, the pool. -/
structure Roomy (size : ℕ) (block : NewBlock) : Prop where
  nodes : treeStart + (2 ^ block.hight - 1) ≤ block.buddySize
  pool : block.buddySize + poolSize size * kb ≤ block.bytes

/-- The product that is the place of a node is a place of the pool. -/
def PlacesInside (size : ℕ) (block : NewBlock) : Prop :=
  ∀ pos < 2 ^ block.hight - 1,
    nodeOffset pos * capasityFromPos block.hight pos * kb < poolSize size * kb ∧
    nodeOffset pos * capasityFromPos block.hight pos * kb < 2 ^ 32

/-- The logarithm ends, and the block is computed exactly and large enough. -/
def Provides (size : ℕ) : Prop :=
  ∃ rounds block, newBlock rounds size = .ok block ∧ Exact size block ∧ Roomy size block ∧
    PlacesInside size block

/-- `_capasity_from_pos` is exact for all nodes, too. -/
def CapacitiesExact (size : ℕ) : Prop :=
  ∀ pos < 2 ^ (Nat.clog 2 size + 1) - 1, capasityFromPos (Nat.clog 2 size + 1) pos =
    nodeCapacity (Nat.clog 2 size + 1) pos

section NewBlock

variable {rounds size logarithm : ℕ} {block : NewBlock}

theorem newBlock_eq (hends : wrap32 size < 2 ^ 31) :
    newBlock 32 size = .ok (blockOf (bsqrt (wrap32 size)) (bsqrt (wrap32 size)) 0) := by
  have hchunk : bsqrtLoop 32 (minChunk / kb) = .ok 0 := bsqrtLoop_eq (by decide)
  rw [newBlock, bsqrtLoop_eq hends, hchunk]
  rfl

theorem wrap_hight (h : logarithm < 32) : wrap32 (logarithm + 2 ^ 32 - 0 + 1) = logarithm + 1 := by
  unfold wrap32
  omega

/-- The node tree of the new block is the one of the allocator. -/
theorem newBlock_hight (h : newBlock rounds size = .ok block) :
    block.hight = (buddyNew size).level := by
  obtain ⟨sizeLog, -, h⟩ := bind_eq_ok.mp h
  obtain ⟨sizeLog', hsize, h⟩ := bind_eq_ok.mp h
  obtain ⟨chunkLog, hchunk, h⟩ := bind_eq_ok.mp h
  obtain ⟨hends, rfl⟩ := bsqrtReturns_iff.mp ⟨rounds, hsize⟩
  obtain ⟨-, rfl⟩ := bsqrtReturns_iff.mp ⟨rounds, hchunk⟩
  have hlt : bsqrt (wrap32 size) < 32 := Nat.lt_succ_of_le (bsqrt_le hends.le)
  have hzero : bsqrt (minChunk / kb) = 0 := by decide +kernel
  rw [← Except.ok.inj h, buddyNew_level, blockOf, hzero]
  exact wrap_hight hlt

theorem newBlock_bytes_lt (h : newBlock rounds size = .ok block) : block.bytes < 2 ^ 32 := by
  obtain ⟨sizeLog, -, h⟩ := bind_eq_ok.mp h
  obtain ⟨sizeLog', -, h⟩ := bind_eq_ok.mp h
  obtain ⟨chunkLog, -, h⟩ := bind_eq_ok.mp h
  rw [← Except.ok.inj h]
  exact Nat.mod_lt _ (by decide)

theorem poolSize_le_iff (bound : ℕ) : poolSize size ≤ 2 ^ bound ↔ size ≤ 2 ^ bound := by
  rw [poolSize, Nat.pow_le_pow_iff_right Nat.one_lt_two, Nat.clog_le_iff_le_pow Nat.one_lt_two]

/-- No block of fewer than `2 ^ 32` bytes has room for a larger pool. -/
theorem le_of_provides (h : Provides size) : size ≤ 2 ^ 21 := by
  obtain ⟨rounds, block, hblock, -, hroomy, -⟩ := h
  have hbytes := newBlock_bytes_lt hblock
  have hpool := hroomy.pool
  unfold kb at hpool
  have hlt : Nat.clog 2 size < 22 := by
    apply (Nat.pow_lt_pow_iff_right Nat.one_lt_two).mp
    change poolSize size < 2 ^ 22
    omega
  exact (poolSize_le_iff 21).mp (Nat.pow_le_pow_right Nat.two_pos (Nat.le_of_lt_succ hlt))

theorem shiftLeft_eq (h : logarithm < 32) : shiftLeft logarithm = 2 ^ logarithm := by
  rw [shiftLeft, Nat.mod_eq_of_lt h, Nat.one_shiftLeft]
  exact Nat.mod_eq_of_lt (Nat.pow_lt_pow_right Nat.one_lt_two h)

/-- Up to a logarithm of 21 nothing wraps around. -/
theorem blockOf_eq (h : logarithm ≤ 21) : blockOf logarithm logarithm 0 =
    ⟨2 ^ logarithm, logarithm + 1, sizeofBuddy + (2 ^ (logarithm + 1) - 1),
      sizeofBuddy + (2 ^ (logarithm + 1) - 1) + 2 ^ logarithm * kb⟩ := by
  have hpos : 0 < 2 ^ logarithm := Nat.two_pow_pos _
  have hle : 2 ^ logarithm ≤ 2 ^ 21 := Nat.pow_le_pow_right Nat.two_pos h
  have hnodes : wrap32 (2 ^ (logarithm + 1) + (2 ^ 32 - 1)) = 2 ^ (logarithm + 1) - 1 := by
    unfold wrap32
    rw [pow_succ]
    omega
  have hbuddy : wrap32 (sizeofBuddy + (2 ^ (logarithm + 1) - 1)) =
      sizeofBuddy + (2 ^ (logarithm + 1) - 1) := by
    unfold wrap32 sizeofBuddy
    rw [pow_succ]
    omega
  have hchunks : wrap32 (2 ^ logarithm * 1 * kb) = 2 ^ logarithm * kb := by
    unfold wrap32 kb
    omega
  have hbytes : wrap32 (sizeofBuddy + (2 ^ (logarithm + 1) - 1) + 2 ^ logarithm * kb) =
      sizeofBuddy + (2 ^ (logarithm + 1) - 1) + 2 ^ logarithm * kb := by
    unfold wrap32 sizeofBuddy kb
    rw [pow_succ]
    omega
  simp only [blockOf, wrap_hight (by omega : logarithm < 32), shiftLeft_eq (by omega : logarithm < 32),
    shiftLeft_eq (by omega : logarithm + 1 < 32), hnodes, hbuddy, hchunks, hbytes]

theorem provides_of_le (h : size ≤ 2 ^ 21) : Provides size := by
  have hwrap : wrap32 size = size := Nat.mod_eq_of_lt (by omega)
  have hclog : bsqrt (wrap32 size) = Nat.clog 2 size := by rw [hwrap, bsqrt_eq_clog]
  have hle : Nat.clog 2 size ≤ 21 := (Nat.clog_le_iff_le_pow Nat.one_lt_two).mpr h
  have hblock := newBlock_eq (show wrap32 size < 2 ^ 31 by omega)
  rw [hclog] at hblock
  obtain ⟨block, hsame⟩ : ∃ block, blockOf (Nat.clog 2 size) (Nat.clog 2 size) 0 = block := ⟨_, rfl⟩
  have hnumbers := hsame.symm.trans (blockOf_eq hle)
  have hexact : Exact size block := by
    rw [hnumbers]
    exact ⟨rfl, rfl, rfl, rfl⟩
  rw [hsame] at hblock
  refine ⟨32, block, hblock, hexact, ⟨?_, ?_⟩, fun pos hpos ↦ ?_⟩
  · rw [hexact.buddySize]
    exact Nat.add_le_add_right (by decide) _
  · rw [hexact.bytes, hexact.allocSize]
  · have hlevel : block.hight ≤ 22 := hexact.hight.trans_le (Nat.succ_le_succ hle)
    have hdepth := depth_lt hpos
    have hbounds := firstLeaf_bounds hdepth
    have hcapacity : 0 < capacity block.hight pos := Nat.two_pow_pos _
    have hpool : poolSize size = 2 ^ (block.hight - 1) := by
      rw [hexact.hight, Nat.add_sub_cancel, poolSize]
    have hsmall : 2 ^ (block.hight - 1) ≤ 2 ^ 21 := Nat.pow_le_pow_right Nat.two_pos (by omega)
    rw [offset_mul_capasity hlevel, nodeOffset_mul hdepth, hpool]
    unfold kb
    omega

end NewBlock

/-- For all nodes the capacity is computed exactly in the trees of up to 21 levels. -/
theorem capacitiesExact_of_le {size : ℕ} (h : size ≤ 2 ^ 20) : CapacitiesExact size := by
  intro pos _
  have hle : Nat.clog 2 size ≤ 20 := (Nat.clog_le_iff_le_pow Nat.one_lt_two).mpr h
  rw [capasityFromPos_eq (by omega), nodeCapacity_eq]

theorem le_of_capacitiesExact {size : ℕ} (hsize : size ≤ 2 ^ 21) (h : CapacitiesExact size) :
    size ≤ 2 ^ 20 := by
  by_contra hlarge
  have hclog : Nat.clog 2 size = 21 := by
    apply le_antisymm ((Nat.clog_le_iff_le_pow Nat.one_lt_two).mpr hsize)
    exact (Nat.lt_clog_iff_pow_lt Nat.one_lt_two).mpr (Nat.lt_of_not_le hlarge)
  have hroot := h 0 (by rw [hclog]; decide)
  rw [hclog, capasity_root] at hroot
  exact absurd hroot (by decide +kernel)

/-- A new pool gets what it needs exactly when it has at most `2 ^ 21` kilobytes; with the capacity
of its root among the computations, at most `2 ^ 20`. -/
theorem provides_iff (size : ℕ) : (Provides size ↔ size ≤ 2 ^ 21) ∧
    (Provides size ∧ CapacitiesExact size ↔ size ≤ 2 ^ 20) := by
  refine ⟨⟨le_of_provides, provides_of_le⟩, fun h ↦ ?_, fun h ↦ ?_⟩
  · exact le_of_capacitiesExact (le_of_provides h.1) h.2
  · exact ⟨provides_of_le (h.trans (by decide)), capacitiesExact_of_le h⟩

/-- The bytes of the chunks of a pool of 4 GB are 0 in 32 bits. -/
theorem not_provides_four_gigabytes : ¬ ∀ size, 1 ≤ size → size < 2 ^ 64 → Provides size := by
  intro h
  exact absurd (le_of_provides (h (2 ^ 22) (by decide) (by decide))) (by decide)

end FGDB.Buddy
