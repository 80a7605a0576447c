import FGDB.Buddy.Pool
import Mathlib.Algebra.Order.Group.Nat

/-!
# Requests to the buddy allocator

A request is rounded down to kilobytes before it is rounded up to a power of two, so
its block is too small when the kilobytes are a power of two and bytes are left over.
The search itself finds a node of the rounded size whenever a FREE one is in reach,
apart from the pools whose root is worth more than an `int` holds.
-/

namespace FGDB.Buddy

open Foundation

variable {level size bytes : ℕ} {pool : Pool} {info : BuddyInfo} {block : ℕ × ℕ}

/-- The block of a request holds its bytes, inside the pool and beside the live blocks. -/
structure HoldsBytes (size bytes : ℕ) (pool : Pool) (block : ℕ × ℕ) : Prop where
  fits : bytes ≤ capacity pool.info.level block.1 * kb
  inside : block.2 + bytes ≤ poolBytes size
  apart : ∀ other ∈ pool.live, block.2 + bytes ≤ other.2 ∨
    other.2 + capacity pool.info.level other.1 * kb ≤ block.2

theorem bsqrt_eq_clog (num : ℕ) : bsqrt num = Nat.clog 2 num :=
  le_antisymm (bsqrt_le (Nat.le_pow_clog Nat.one_lt_two num))
    (Nat.clog_le_of_le_pow (le_pow_bsqrt num))

/-- Rounded down to kilobytes and up to a power of two, a size does not get smaller unless it is
a power of two of kilobytes and more. -/
theorem le_allocSize_iff (hsmall : bytes / kb < 2 ^ 32) : bytes ≤ allocSize bytes * kb ↔
    ((bytes / kb).isPowerOfTwo → kb ∣ bytes) := by
  have hsize : allocSize bytes = 2 ^ bsqrt (bytes / kb) := by
    rw [allocSize_eq, wrap32, Nat.mod_eq_of_lt hsmall]
  rw [hsize]
  by_cases hpow : (bytes / kb).isPowerOfTwo
  · obtain ⟨e, he⟩ := hpow
    have hback : 2 ^ bsqrt (bytes / kb) = bytes / kb := by
      rw [he, bsqrt_eq_clog, Nat.clog_pow 2 e Nat.one_lt_two]
    rw [hback]
    constructor
    · intro hle _
      exact Nat.dvd_of_mod_eq_zero (by have := Nat.div_add_mod' bytes kb; omega)
    · intro hdvd
      rw [Nat.div_mul_cancel (hdvd ⟨e, he⟩)]
  · have hlt : bytes / kb < 2 ^ bsqrt (bytes / kb) :=
      lt_of_le_of_ne (le_pow_bsqrt _) fun heq ↦ hpow ⟨_, heq⟩
    apply iff_of_true
    · calc
        bytes ≤ (bytes / kb + 1) * kb := (Nat.lt_mul_of_div_lt (Nat.lt_succ_self _) kb_pos).le
        _ ≤ 2 ^ bsqrt (bytes / kb) * kb := Nat.mul_le_mul_right kb hlt
    · exact fun h ↦ absurd h hpow

theorem poolBytes_eq (size : ℕ) : poolBytes size = 2 ^ ((buddyNew size).level - 1) * kb := by
  rw [poolBytes, Nat.one_shiftLeft, buddyNew_level, Nat.add_sub_cancel]

/-- The bytes of a granted block are inside the pool and beside the live blocks. -/
theorem Granted.room (hgranted : Granted level bytes pool.info info block) (h : Kept level pool) :
    block.2 + capacity level block.1 * kb ≤ 2 ^ (level - 1) * kb ∧
      ∀ other ∈ pool.live, block.2 + capacity level block.1 * kb ≤ other.2 ∨
        other.2 + capacity level other.1 * kb ≤ block.2 := by
  have hchildren := hgranted.grants.childrenFree h.childrenFree
  have hused (m : ℕ) (hm : pool.info.tree m = .used) : info.tree m = .used :=
    (hgranted.grants.used_iff m).mpr (.inr hm)
  rw [hgranted.address, ← Nat.add_mul]
  constructor
  · exact Nat.mul_le_mul_right kb (firstLeaf_bounds hgranted.inside).2
  · intro other hother
    have hlive := h.used_of_live hother
    have hne : block.1 ≠ other.1 := by
      intro heq
      rw [← heq, hgranted.grants.free] at hlive
      cases hlive
    have hapart := used_apart hchildren hgranted.grants.taken (hused _ hlive) hgranted.inside
      (h.inside other hother) hne
    rw [h.address other hother, ← Nat.add_mul]
    exact hapart.imp (Nat.mul_le_mul_right kb) (Nat.mul_le_mul_right kb)

theorem capacity_le (level pos : ℕ) : capacity level pos ≤ 2 ^ (level - 1) :=
  Nat.pow_le_pow_right Nat.two_pos (Nat.sub_le _ _)

/-- The block is large enough when the rounding is right and the pool is. -/
theorem Granted.fits_iff (hgranted : Granted level bytes pool.info info block) :
    bytes ≤ capacity level block.1 * kb ↔
      bytes ≤ 2 ^ (level - 1) * kb ∧ ((bytes / kb).isPowerOfTwo → kb ∣ bytes) := by
  have hinside : bytes ≤ capacity level block.1 * kb → bytes ≤ 2 ^ (level - 1) * kb :=
    fun h ↦ h.trans (Nat.mul_le_mul_right kb (capacity_le level block.1))
  have hsmall (hle : bytes ≤ 2 ^ (level - 1) * kb) : bytes / kb < 2 ^ 32 := by
    have hlevel := hgranted.level_le
    calc
      bytes / kb ≤ 2 ^ (level - 1) := Nat.div_le_of_le_mul (by rwa [Nat.mul_comm])
      _ ≤ 2 ^ 21 := Nat.pow_le_pow_right Nat.two_pos (by omega)
      _ < 2 ^ 32 := by decide
  rcases hgranted.size with hsize | ⟨hlevel, hroot, hlarge⟩
  · constructor
    · intro hle
      have hpool := hinside hle
      rw [hsize] at hle
      exact ⟨hpool, (le_allocSize_iff (hsmall hpool)).mp hle⟩
    · intro ⟨hpool, hround⟩
      rw [hsize]
      exact (le_allocSize_iff (hsmall hpool)).mpr hround
  · have hcapacity : capacity level block.1 = 2 ^ (level - 1) := by
      rw [hroot, capacity, depth_root, Nat.sub_zero]
    rw [hcapacity]
    refine ⟨fun hle ↦ ⟨hle, ?_⟩, And.left⟩
    rw [← le_allocSize_iff (hsmall hle)]
    rw [allocSize_eq] at hlarge ⊢
    have hlast : 2 ^ (level - 1) ≤ 2 ^ bsqrt (wrap32 (bytes / kb)) := by
      rw [hlevel]
      exact Nat.pow_le_pow_right Nat.two_pos ((Nat.pow_lt_pow_iff_right Nat.one_lt_two).mp hlarge)
    exact hle.trans (Nat.mul_le_mul_right kb hlast)

/-- In a reached pool, a block that was handed out holds the requested bytes exactly when they fit
in the pool and are whole kilobytes in case these are a power of two. -/
theorem holdsBytes_iff {calls : List PoolCall} {outputs : List (Option ℕ)}
    (hcalls : EachStep poolStep FreesLive (newPool size) calls)
    (hrun : run poolStep (newPool size) calls = .ok (pool, outputs))
    (halloc : buddyAlloc pool.info bytes = .ok (info, some block)) :
    HoldsBytes size bytes pool block ↔
      bytes ≤ poolBytes size ∧ ((bytes / kb).isPowerOfTwo → kb ∣ bytes) := by
  have h := kept_of_run hcalls hrun
  have hgranted := h.granted (level_pos size) halloc
  rw [poolBytes_eq, ← hgranted.fits_iff]
  obtain ⟨hinside, hapart⟩ := hgranted.room h
  constructor
  · intro hholds
    rw [← h.level_eq]
    exact hholds.fits
  · intro hfits
    refine ⟨by rwa [h.level_eq], ?_, fun other hother ↦ ?_⟩
    · rw [poolBytes_eq]
      exact (Nat.add_le_add_left hfits _).trans hinside
    · rw [h.level_eq]
      rcases hapart other hother with hbelow | habove
      · exact .inl ((Nat.add_le_add_left hfits _).trans hbelow)
      · exact .inr habove

theorem exists_of_block (halloc : (buddyAlloc info bytes).toOption.bind Prod.snd = some block) :
    ∃ info', buddyAlloc info bytes = .ok (info', some block) := by
  cases hresult : buddyAlloc info bytes with
  | error fault =>
    rw [hresult] at halloc
    cases halloc
  | ok result =>
    rw [hresult] at halloc
    have hblock : result.2 = some block := halloc
    exact ⟨result.1, by rw [← hblock]⟩

/-- Two kilobytes in a pool of four. -/
theorem holdsBytes_two_kilobytes : HoldsBytes 4 2048 (newPool 4) (1, 0) := by
  have hblock : (buddyAlloc (newPool 4).info 2048).toOption.bind Prod.snd = some (1, 0) := by
    decide +kernel
  have hcalls : EachStep poolStep FreesLive (newPool 4) [] := trivial
  obtain ⟨info, halloc⟩ := exists_of_block hblock
  exact (holdsBytes_iff hcalls rfl halloc).mpr (by decide +kernel)

/-- A byte more than a kilobyte gets a kilobyte. -/
theorem not_holdsBytes_one_byte_more : ¬ ∀ size calls pool outputs bytes info block,
    EachStep poolStep FreesLive (newPool size) calls →
    run poolStep (newPool size) calls = .ok (pool, outputs) → 1 ≤ bytes →
    buddyAlloc pool.info bytes = .ok (info, some block) → HoldsBytes size bytes pool block := by
  intro hall
  have hblock : (buddyAlloc (newPool 4).info 1025).toOption.bind Prod.snd = some (3, 0) := by
    decide +kernel
  obtain ⟨info, halloc⟩ := exists_of_block hblock
  have hholds := hall 4 [] (newPool 4) [] 1025 info (3, 0) trivial rfl (by decide) halloc
  exact absurd hholds.fits (by decide +kernel)

/-- The kilobytes of a request, rounded down and up to a power of two. -/
def requestSize (bytes : ℕ) : ℕ := 2 ^ Nat.clog 2 (bytes / kb)

/-- A FREE node under SPLIT ones only that is large enough. -/
structure InReach (pool : Pool) (bytes pos : ℕ) : Prop where
  exposed : Exposed pool.info.tree 0 pos
  inside : depth pos < pool.info.level
  large : requestSize bytes ≤ capacity pool.info.level pos

/-- A request gets a node of its size under one in reach, and nothing when none is in reach. -/
structure Finds (pool : Pool) (bytes : ℕ) (info : BuddyInfo) (result : Option (ℕ × ℕ)) : Prop where
  found : result.isSome ↔ ∃ pos, InReach pool bytes pos
  under : ∀ block ∈ result, ∃ pos, InReach pool bytes pos ∧ Under pos block.1
  size : ∀ block ∈ result, capacity pool.info.level block.1 = requestSize bytes
  grants : ∀ block ∈ result, Grants pool.info.tree info.tree block.1
  kept : result = none → info.tree = pool.info.tree

/-- The search comes to an end without an index outside the tree. -/
def Searches (pool : Pool) (bytes : ℕ) : Prop :=
  ∃ info result, buddyAlloc pool.info bytes = .ok (info, result) ∧ Finds pool bytes info result

/-- The root of the pool is worth what an `int` holds, or it does not matter. -/
def RootFits (size bytes : ℕ) (pool : Pool) : Prop :=
  wrap32 size ≤ 2 ^ 20 ∨
    (wrap32 size ≤ 2 ^ 21 ∧ (requestSize bytes ≤ 2 ^ 21 ∨ pool.info.tree 0 ≠ .free)) ∨
    (2 ^ 21 < wrap32 size ∧ poolBytes size < requestSize bytes * kb)

theorem allocSize_eq_requestSize (hsmall : bytes / kb < 2 ^ 32) :
    allocSize bytes = requestSize bytes := by
  rw [allocSize_eq, wrap32, Nat.mod_eq_of_lt hsmall, bsqrt_eq_clog, requestSize]

/-- A node that is granted is under one that is in reach. -/
theorem Grants.exposed {tree tree' : ℕ → BlockState} {pos : ℕ} (h : Grants tree tree' pos) :
    ∃ m, Exposed tree 0 m ∧ Under m pos := by
  have hover (m : ℕ) (hunder : Under m pos) (hfree : tree m = .free) :
      ∃ n, Exposed tree 0 n ∧ Under n pos := by
    induction m using Nat.strong_induction_on with
    | _ m ih =>
      by_cases hsplit : ∀ n, n ≠ m → Under n m → tree n = .split
      · exact ⟨m, ⟨.root m, hfree, fun n hn _ hnm ↦ hsplit n hn hnm⟩, hunder⟩
      · push Not at hsplit
        obtain ⟨n, hne, hnm, hopen⟩ := hsplit
        have hnpos := hnm.trans hunder
        have hlt : n < m := lt_of_le_of_ne hnm.le hne
        have hne' : n ≠ pos := (hlt.trans_le hunder.le).ne
        have hstate : tree n = .free := by
          cases hn : tree n with
          | free => rfl
          | used => exact absurd hn (h.above n hne' hnpos).1
          | split => exact absurd hn hopen
        exact ih n hlt hnpos hstate
  exact hover pos (.refl pos) h.free

theorem depth_pos {pos : ℕ} (h : pos ≠ 0) : 0 < depth pos :=
  Nat.log_pos Nat.one_lt_two (by omega)

theorem capacity_root (level : ℕ) : capacity level 0 = 2 ^ (level - 1) := by
  rw [capacity, depth_root, Nat.sub_zero]

/-- A granted node of the right size is what the search should find. -/
theorem Granted.finds (hgranted : Granted level bytes pool.info info block)
    (hlevel : pool.info.level = level) (hsize : capacity level block.1 = requestSize bytes) :
    Finds pool bytes info (some block) := by
  obtain ⟨rfl⟩ := hlevel
  obtain ⟨m, hexposed, hunder⟩ := hgranted.grants.exposed
  have hreach : InReach pool bytes m := by
    refine ⟨hexposed, ?_, ?_⟩
    · exact lt_of_le_of_lt hunder.log_le hgranted.inside
    · rw [← hsize]
      exact capacity_le_of_under hunder
  refine ⟨iff_of_true rfl ⟨m, hreach⟩, ?_, ?_, ?_, nofun⟩
  · intro other hother
    obtain rfl := Option.mem_some.mp hother
    exact ⟨m, hreach, hunder⟩
  · intro other hother
    obtain rfl := Option.mem_some.mp hother
    exact hsize
  · intro other hother
    obtain rfl := Option.mem_some.mp hother
    exact hgranted.grants

theorem finds_none (hnone : ∀ pos, ¬ InReach pool bytes pos) :
    Finds pool bytes pool.info none :=
  ⟨iff_of_false nofun fun ⟨pos, hpos⟩ ↦ hnone pos hpos, nofun, nofun, nofun, fun _ ↦ rfl⟩

theorem searches_iff_of_ok {result : Option (ℕ × ℕ)}
    (hcall : buddyAlloc pool.info bytes = .ok (info, result)) :
    Searches pool bytes ↔ Finds pool bytes info result := by
  constructor
  · intro ⟨info', result', hcall', hfinds⟩
    rw [hcall] at hcall'
    cases hcall'
    exact hfinds
  · intro hfinds
    exact ⟨info, result, hcall, hfinds⟩

/-- A pool that is too large stays as it is. -/
theorem eq_newPool {calls : List PoolCall} {outputs : List (Option ℕ)}
    (hcalls : EachStep poolStep FreesLive (newPool size) calls)
    (hrun : run poolStep (newPool size) calls = .ok (pool, outputs))
    (hlevel : 22 < (buddyNew size).level) : pool = newPool size := by
  have hkeeps (before : Pool) (call : PoolCall) (after : Pool) (output : Option ℕ)
      (h : before = newPool size) (hcall : FreesLive before call)
      (hstep : poolStep before call = .ok (after, output)) : after = newPool size := by
    rw [h] at hcall hstep
    cases call with
    | alloc bytes =>
      obtain ⟨result, halloc, -⟩ := bind_eq_ok.mp hstep
      have hnone : buddyAlloc (newPool size).info bytes = .ok ((newPool size).info, none) :=
        buddyAlloc_over (bitsEnd_of_alloc halloc) hlevel
      rw [poolStep_alloc hnone] at hstep
      exact (Prod.mk.inj (Except.ok.inj hstep)).1.symm
    | free ptr =>
      obtain ⟨pos, hpos⟩ := hcall
      cases hpos
  exact run_invariant hkeeps rfl hcalls hrun

/-- In a reached pool the search is complete and exact if and only if the root of the pool is worth
what an `int` holds, or does not matter. -/
theorem searches_iff {calls : List PoolCall} {outputs : List (Option ℕ)}
    (hcalls : EachStep poolStep FreesLive (newPool size) calls)
    (hrun : run poolStep (newPool size) calls = .ok (pool, outputs)) (_hlow : 2 ^ 10 ≤ bytes)
    (hhigh : bytes ≤ 2 ^ 40) : Searches pool bytes ↔ RootFits size bytes pool := by
  have h := kept_of_run hcalls hrun
  have hkb : bytes / kb ≤ 2 ^ 30 := by
    calc
      bytes / kb ≤ 2 ^ 40 / kb := Nat.div_le_div_right hhigh
      _ = 2 ^ 30 := by decide
  have hrequest := allocSize_eq_requestSize (show bytes / kb < 2 ^ 32 by omega)
  have hbits : BitsEnd (bytes / kb) := by
    rw [BitsEnd, wrap32, Nat.mod_eq_of_lt (by omega)]
    omega
  have hsmall := level_le_iff size 20
  have hlarge := level_le_iff size 21
  have hbytes := poolBytes_eq size
  have hover := eq_newPool hcalls hrun
  have hpositive := level_pos size
  obtain ⟨level, hlevel⟩ : ∃ level, (buddyNew size).level = level := ⟨_, rfl⟩
  rw [hlevel] at h hsmall hlarge hbytes hover hpositive
  have hroot : capacity level 0 = 2 ^ (level - 1) := capacity_root level
  rcases h.alloc_cases hpositive hbits with ⟨info, block, hcall, hgranted⟩ | ⟨hcall, hrefused⟩
  · rw [searches_iff_of_ok hcall]
    have hlevelLe := hgranted.level_le
    have hexact (hsize : capacity level block.1 = requestSize bytes) :
        Finds pool bytes info (some block) ↔ RootFits size bytes pool := by
      refine iff_of_true (hgranted.finds h.level_eq hsize) (.inr (.inl ⟨hlarge.mp hlevelLe, .inl ?_⟩))
      calc
        requestSize bytes = capacity level block.1 := hsize.symm
        _ ≤ 2 ^ (level - 1) := capacity_le level block.1
        _ ≤ 2 ^ 21 := Nat.pow_le_pow_right Nat.two_pos (by omega)
    rcases hgranted.size with hsize | ⟨rfl, hblock, hmore⟩
    · exact hexact (hsize.trans hrequest)
    · rw [hrequest] at hmore
      by_cases hle : requestSize bytes ≤ 2 ^ 21
      · apply hexact
        rw [hblock, hroot]
        rw [requestSize] at hmore hle ⊢
        exact pow_eq_of_half hle (by omega)
      · apply iff_of_false
        · intro hfinds
          have hsize := hfinds.size block rfl
          rw [h.level_eq, hblock, hroot] at hsize
          exact hle hsize.symm.le
        · intro hfits
          rcases hfits with hfew | ⟨-, hle' | hbusy⟩ | ⟨hmany, -⟩
          · have hlt := hsmall.mpr hfew
            omega
          · exact hle hle'
          · rw [← hblock] at hbusy
            exact hbusy hgranted.grants.free
          · have hlt := hlarge.mp hlevelLe
            omega
  · rw [searches_iff_of_ok hcall]
    cases hrefused with
    | small hlevelLe hfits hnone =>
      apply iff_of_true
      · apply finds_none
        intro pos hpos
        have hlt := hnone pos hpos.exposed (h.level_eq ▸ hpos.inside)
        have hle := hpos.large
        rw [h.level_eq, ← hrequest] at hle
        omega
      · rcases hfits with hfew | hless
        · exact .inl (hsmall.mp hfew)
        · rw [hrequest] at hless
          exact .inr (.inl ⟨hlarge.mp hlevelLe, .inl (by omega)⟩)
    | root hlevelEq hmore hbusy =>
      rw [hrequest] at hmore
      apply iff_of_true
      · apply finds_none
        intro pos hpos
        have hne : pos ≠ 0 := by
          intro hzero
          rw [hzero] at hpos
          exact hbusy hpos.exposed.free
        have hdepth := depth_pos hne
        have hle : requestSize bytes ≤ 2 ^ 20 := by
          calc
            requestSize bytes ≤ capacity level pos := h.level_eq ▸ hpos.large
            _ ≤ 2 ^ 20 := Nat.pow_le_pow_right Nat.two_pos (by omega)
        omega
      · exact .inr (.inl ⟨hlarge.mp hlevelEq.le, .inr hbusy⟩)
    | beyond hlevelGt =>
      have hpool := hover hlevelGt
      have hfree (m : ℕ) : pool.info.tree m = .free := by
        rw [hpool]
        rfl
      have hmany : 2 ^ 21 < wrap32 size := by
        by_contra hle
        have hlt := hlarge.mpr (Nat.le_of_not_lt hle)
        omega
      have hiff : RootFits size bytes pool ↔ 2 ^ (level - 1) < requestSize bytes := by
        rw [RootFits, hbytes, Nat.mul_lt_mul_right kb_pos]
        omega
      rw [hiff]
      constructor
      · intro hfinds
        by_contra hle
        have hreach : InReach pool bytes 0 := by
          refine ⟨⟨.refl 0, hfree 0, fun m hm _ hunder ↦ ?_⟩, ?_, ?_⟩
          · exact absurd (Nat.le_zero.mp hunder.le) hm
          · rwa [depth_root, h.level_eq]
          · rw [h.level_eq, hroot]
            exact not_lt.mp hle
        exact nomatch hfinds.found.mpr ⟨0, hreach⟩
      · intro hlt
        apply finds_none
        intro pos hpos
        have hle := hpos.large
        have hcapacity := capacity_le level pos
        rw [h.level_eq] at hle
        omega

/-- A pool of four chunks is searched for two kilobytes. -/
theorem searches_two_kilobytes : Searches (newPool 4) 2048 := by
  have hcalls : EachStep poolStep FreesLive (newPool 4) [] := trivial
  exact (searches_iff hcalls rfl (by decide) (by decide +kernel)).mpr (.inl (by decide))

/-- The largest pool gives itself for a request of twice its size. -/
theorem not_searches_largest_pool : ¬ ∀ size calls pool outputs bytes,
    EachStep poolStep FreesLive (newPool size) calls →
    run poolStep (newPool size) calls = .ok (pool, outputs) → 2 ^ 10 ≤ bytes → bytes ≤ 2 ^ 40 →
    Searches pool bytes := by
  intro hall
  have hblock : (buddyAlloc (newPool (2 ^ 21)).info (2 ^ 32)).toOption.bind Prod.snd =
      some (0, 0) := by decide +kernel
  obtain ⟨info, halloc⟩ := exists_of_block hblock
  have hsearches := hall (2 ^ 21) [] (newPool (2 ^ 21)) [] (2 ^ 32) trivial rfl (by decide +kernel)
    (by decide +kernel)
  have hfinds := (searches_iff_of_ok halloc).mp hsearches
  have hsize := hfinds.size (0, 0) rfl
  exact absurd hsize (by decide +kernel)

end FGDB.Buddy
