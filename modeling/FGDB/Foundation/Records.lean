import FGDB.Foundation.Memory
import Mathlib.Algebra.BigOperators.Group.List.Basic

/-!
# Length-prefixed records in memory

A record is a two-byte size and that many bytes. A region of records knows where
each one starts; they follow each other without overlapping, gaps allowed. A new
record goes behind the last one. Compaction moves every record down to the end
of the one before it. It reads the size of a record once more after the move, at
the place the record came from. When the record slides over its own start, two
bytes of its content lie there; otherwise it is the size it had.
-/

namespace FGDB.Foundation.Records

open Memory

def sizeAt (memory : Memory) (place : ℕ) : ℕ := leValue (load memory place 2)

def payloadAt (memory : Memory) (place : ℕ) : List UInt8 :=
  load memory (place + 2) (sizeAt memory place)

/-- The first byte behind a record. -/
def endAt (memory : Memory) (place : ℕ) : ℕ := place + 2 + sizeAt memory place

def record (payload : List UInt8) : List UInt8 := leBytes 2 payload.length ++ payload

@[simp] theorem length_record (payload : List UInt8) :
    (record payload).length = 2 + payload.length := by
  simp [record]

@[simp] theorem length_payloadAt (memory : Memory) (place : ℕ) :
    (payloadAt memory place).length = sizeAt memory place := by
  simp [payloadAt]

theorem sizeAt_lt (memory : Memory) (place : ℕ) : sizeAt memory place < 2 ^ 16 := by
  have hlt := leValue_lt (load memory place 2)
  rwa [length_load] at hlt

/-- Two memories that have the same bytes in a record have the same record. -/
theorem record_congr {memory memory' : Memory} {place place' : ℕ}
    (h : load memory place (2 + sizeAt memory place) =
      load memory' place' (2 + sizeAt memory place)) :
    sizeAt memory' place' = sizeAt memory place ∧
      payloadAt memory' place' = payloadAt memory place := by
  rw [load_add, load_add] at h
  obtain ⟨hsize, hpayload⟩ := List.append_inj h (by simp)
  have hsame : sizeAt memory' place' = sizeAt memory place := congrArg leValue hsize.symm
  refine ⟨hsame, ?_⟩
  rw [payloadAt, hsame]
  exact hpayload.symm

theorem AgreeBelow.record {memory memory' : Memory} {limit place : ℕ}
    (h : AgreeBelow limit memory memory') (hle : endAt memory place ≤ limit) :
    sizeAt memory' place = sizeAt memory place ∧
      payloadAt memory' place = payloadAt memory place := by
  apply record_congr
  apply h.load_eq
  unfold endAt at hle
  omega

theorem record_store (memory : Memory) (place : ℕ) {payload : List UInt8}
    (h : payload.length < 2 ^ 16) :
    sizeAt (store memory place (record payload)) place = payload.length ∧
      payloadAt (store memory place (record payload)) place = payload := by
  have hload := load_store_of_length memory place (record payload) (length_record payload)
  rw [load_add, record] at hload
  obtain ⟨hsize, hpayload⟩ := List.append_inj hload (by simp)
  have hsame : sizeAt (store memory place (Records.record payload)) place = payload.length :=
    (congrArg leValue hsize).trans (leValue_leBytes_of_lt h)
  refine ⟨hsame, ?_⟩
  rw [payloadAt, hsame]
  exact hpayload

/-- The records at the places follow each other and end before the stop. -/
structure Packed (memory : Memory) (places : List ℕ) (stop : ℕ) : Prop where
  ordered : places.Pairwise fun place later ↦ endAt memory place ≤ later
  inside : ∀ place ∈ places, endAt memory place ≤ stop

section Packed

variable {memory memory' : Memory} {places : List ℕ} {stop : ℕ}

theorem packed_nil (memory : Memory) (stop : ℕ) : Packed memory [] stop :=
  ⟨List.Pairwise.nil, fun _ h ↦ absurd h List.not_mem_nil⟩

theorem packed_cons {place : ℕ} : Packed memory (place :: places) stop ↔
    endAt memory place ≤ stop ∧ (∀ later ∈ places, endAt memory place ≤ later) ∧
      Packed memory places stop := by
  constructor
  · intro h
    have hordered := List.pairwise_cons.mp h.ordered
    exact ⟨h.inside place List.mem_cons_self, hordered.1, hordered.2,
      fun later hlater ↦ h.inside later (List.mem_cons_of_mem _ hlater)⟩
  · intro h
    refine ⟨List.pairwise_cons.mpr ⟨h.2.1, h.2.2.ordered⟩, fun later hlater ↦ ?_⟩
    rcases List.mem_cons.mp hlater with rfl | hlater
    · exact h.1
    · exact h.2.2.inside later hlater

theorem Packed.congr (h : Packed memory places stop)
    (hsize : ∀ place ∈ places, sizeAt memory' place = sizeAt memory place) :
    Packed memory' places stop := by
  have hend (place : ℕ) (hplace : place ∈ places) : endAt memory' place = endAt memory place := by
    rw [endAt, endAt, hsize place hplace]
  refine ⟨h.ordered.imp_of_mem fun hplace _ hle ↦ (hend _ hplace).trans_le hle, ?_⟩
  intro place hplace
  rw [hend place hplace]
  exact h.inside place hplace

theorem Packed.agree (h : Packed memory places stop) (hagree : AgreeBelow stop memory memory') :
    Packed memory' places stop ∧ places.map (payloadAt memory') = places.map (payloadAt memory) :=
  ⟨h.congr fun place hplace ↦ (AgreeBelow.record hagree (h.inside place hplace)).1,
    List.map_congr_left fun place hplace ↦
      (AgreeBelow.record hagree (h.inside place hplace)).2⟩

theorem Packed.sublist (h : Packed memory places stop) {fewer : List ℕ}
    (hsub : fewer.Sublist places) : Packed memory fewer stop :=
  ⟨h.ordered.sublist hsub, fun place hplace ↦ h.inside place (hsub.mem hplace)⟩

theorem Packed.mono (h : Packed memory places stop) {more : ℕ} (hle : stop ≤ more) :
    Packed memory places more :=
  ⟨h.ordered, fun place hplace ↦ (h.inside place hplace).trans hle⟩

/-- A record stored behind the others. -/
theorem Packed.push (h : Packed memory places stop) {payload : List UInt8}
    (hpayload : payload.length < 2 ^ 16) :
    Packed (store memory stop (record payload)) (places ++ [stop]) (stop + 2 + payload.length) ∧
      (places ++ [stop]).map (payloadAt (store memory stop (record payload))) =
        places.map (payloadAt memory) ++ [payload] := by
  obtain ⟨hold, hvalues⟩ := h.agree (agreeBelow_store (record payload) (Nat.le_refl stop)).symm
  obtain ⟨hsize, hvalue⟩ := record_store memory stop hpayload
  have hend : endAt (store memory stop (record payload)) stop = stop + 2 + payload.length := by
    rw [endAt, hsize]
  refine ⟨⟨?_, ?_⟩, ?_⟩
  · rw [List.pairwise_append]
    refine ⟨hold.ordered, List.pairwise_singleton _ _, fun place hplace later hlater ↦ ?_⟩
    rw [List.mem_singleton.mp hlater]
    exact hold.inside place hplace
  · intro place hplace
    rcases List.mem_append.mp hplace with hplace | hplace
    · have hinside := hold.inside place hplace
      omega
    · rw [List.mem_singleton.mp hplace, hend]
  · rw [List.map_append, hvalues, List.map_singleton, hvalue]

/-- The bytes that the records take. -/
def used (memory : Memory) (places : List ℕ) : ℕ :=
  (places.map fun place ↦ 2 + sizeAt memory place).sum

theorem used_eq_of_payloads {places' : List ℕ}
    (h : places'.map (payloadAt memory') = places.map (payloadAt memory)) :
    used memory' places' = used memory places := by
  have hlength (m : Memory) (ps : List ℕ) :
      used m ps = ((ps.map (payloadAt m)).map fun payload ↦ 2 + payload.length).sum := by
    rw [List.map_map]
    simp only [used, Function.comp_def, length_payloadAt]
  rw [hlength, hlength, h]

theorem length_le_used (memory : Memory) (places : List ℕ) :
    2 * places.length ≤ used memory places := by
  induction places with
  | nil => exact Nat.zero_le _
  | cons place rest ih =>
    simp only [used, List.map_cons, List.sum_cons, List.length_cons] at ih ⊢
    omega

/-- A record stored behind the others takes its own bytes. -/
theorem Packed.used_push (h : Packed memory places stop) {payload : List UInt8}
    (hpayload : payload.length < 2 ^ 16) :
    used (store memory stop (record payload)) (places ++ [stop]) =
      used memory places + (2 + payload.length) := by
  have hagree : AgreeBelow stop memory (store memory stop (record payload)) :=
    (agreeBelow_store _ (Nat.le_refl _)).symm
  have hold : used (store memory stop (record payload)) places = used memory places :=
    used_eq_of_payloads (h.agree hagree).2
  rw [← hold, used, used, List.map_append, List.sum_append, List.map_singleton,
    List.sum_singleton, (record_store memory stop hpayload).1]

/-- Records that follow each other from a target on take no more bytes than there are behind it. -/
theorem Packed.used_le_from (h : Packed memory places stop) {target : ℕ}
    (hbelow : ∀ place ∈ places, target ≤ place) (htarget : target ≤ stop) :
    target + used memory places ≤ stop := by
  induction places generalizing target with
  | nil => exact htarget
  | cons place rest ih =>
    obtain ⟨hinside, hlater, hrest⟩ := packed_cons.mp h
    have hle := hbelow place List.mem_cons_self
    have hnext := ih hrest hlater hinside
    unfold endAt at hnext
    rw [used, List.map_cons, List.sum_cons]
    unfold used at hnext
    omega

theorem Packed.used_le (h : Packed memory places stop) : used memory places ≤ stop := by
  have hall := h.used_le_from (fun _ _ ↦ Nat.zero_le _) (Nat.zero_le _)
  rwa [Nat.zero_add] at hall

end Packed

/-- Move the records down, starting at a target; the new places and the end of the last one. -/
def compact : Memory → List ℕ → ℕ → Memory × List ℕ × ℕ
  | memory, [], target => (memory, [], target)
  | memory, place :: rest, target =>
    let moved := move memory target place (2 + sizeAt memory place)
    let (final, places, stop) := compact moved rest (target + (2 + sizeAt moved place))
    (final, target :: places, stop)

/-- Every record stays where it is or moves to a place that ends before its old one starts. -/
def Apart (memory : Memory) : List ℕ → ℕ → Prop
  | [], _ => True
  | place :: rest, target =>
    (place = target ∨ target + (2 + sizeAt memory place) ≤ place) ∧
      Apart memory rest (target + (2 + sizeAt memory place))

/-- Records that take all the bytes stay where they are. -/
theorem Packed.apart_of_full {memory : Memory} {places : List ℕ} {stop target : ℕ}
    (h : Packed memory places stop) (hbelow : ∀ place ∈ places, target ≤ place)
    (hfull : target + used memory places = stop) : Apart memory places target := by
  induction places generalizing target with
  | nil => trivial
  | cons place rest ih =>
    obtain ⟨hinside, hlater, hrest⟩ := packed_cons.mp h
    have hle := hbelow place List.mem_cons_self
    have hsum : used memory (place :: rest) = 2 + sizeAt memory place + used memory rest := rfl
    have hused := hrest.used_le_from hlater hinside
    unfold endAt at hused
    have hplace : place = target := by omega
    refine ⟨.inl hplace, ih hrest (fun later hmem ↦ ?_) (by omega)⟩
    have hend := hlater later hmem
    unfold endAt at hend
    omega

theorem Apart.congr {memory memory' : Memory} {places : List ℕ} {target : ℕ}
    (h : Apart memory places target)
    (hsize : ∀ place ∈ places, sizeAt memory' place = sizeAt memory place) :
    Apart memory' places target := by
  induction places generalizing target with
  | nil => trivial
  | cons place rest ih =>
    have hplace := hsize place List.mem_cons_self
    refine ⟨by rw [hplace]; exact h.1, ?_⟩
    rw [hplace]
    exact ih h.2 fun later hlater ↦ hsize later (List.mem_cons_of_mem _ hlater)

/-- One move of the compaction. -/
theorem move_record {memory : Memory} {place target : ℕ}
    (happart : place = target ∨ target + (2 + sizeAt memory place) ≤ place) :
    let moved := move memory target place (2 + sizeAt memory place)
    sizeAt moved place = sizeAt memory place ∧ sizeAt moved target = sizeAt memory place ∧
      payloadAt moved target = payloadAt memory place := by
  have hlength : (load memory place (2 + sizeAt memory place)).length =
      2 + sizeAt memory place := length_load _ _ _
  obtain ⟨hsize, hpayload⟩ := @record_congr memory
    (move memory target place (2 + sizeAt memory place)) place target
      (load_store_of_length _ _ _ hlength).symm
  refine ⟨?_, hsize, hpayload⟩
  rcases happart with rfl | happart
  · exact hsize
  · apply congrArg leValue
    exact load_store_of_disjoint _ _ _ _ (.inr (by rw [hlength]; exact happart))

/-- What is read as the size at the place of a record that was moved down to a target. -/
def reread (memory : Memory) (place target : ℕ) : ℕ :=
  leValue [if place - target < 2 + sizeAt memory place then memory (place + (place - target))
      else memory place,
    if place - target + 1 < 2 + sizeAt memory place then memory (place + (place - target) + 1)
      else memory (place + 1)]

theorem reread_lt (memory : Memory) (place target : ℕ) : reread memory place target < 2 ^ 16 := by
  have htwo (low high : UInt8) : leValue [low, high] < 2 ^ 16 := by
    have hlt := leValue_lt [low, high]
    rwa [List.length_cons, List.length_singleton] at hlt
  exact htwo _ _

theorem move_inside {memory : Memory} {place target count index : ℕ} (h : index < count) :
    move memory target place count (target + index) = memory (place + index) := by
  rw [move, store_inside _ _ _ ((length_load _ _ _).symm ▸ h), getElem_load]

theorem move_above {memory : Memory} {place target count other : ℕ} (h : target + count ≤ other) :
    move memory target place count other = memory other :=
  store_of_le _ _ _ ((length_load _ _ _).symm ▸ h)

theorem sizeAt_move {memory : Memory} {place target : ℕ} (h : target ≤ place) :
    sizeAt (move memory target place (2 + sizeAt memory place)) place =
      reread memory place target := by
  obtain ⟨gap, rfl⟩ := Nat.exists_eq_add_of_le h
  obtain ⟨count, hcount⟩ : ∃ count, 2 + sizeAt memory (target + gap) = count := ⟨_, rfl⟩
  have hload (m : Memory) (at' : ℕ) : load m at' 2 = [m at', m (at' + 1)] := rfl
  rw [sizeAt, hload, reread, hcount, Nat.add_sub_cancel_left]
  congr 2
  · split
    · next hlt => exact move_inside hlt
    · next hge => exact move_above (by omega)
  · congr 1
    split
    · next hlt => exact move_inside hlt
    · next hge => exact move_above (by omega)

/-- Every record that is moved to the end of the one before it still shows its size at its place. -/
def SizesKept (memory : Memory) : List ℕ → ℕ → Prop
  | [], _ => True
  | place :: rest, target => reread memory place target = sizeAt memory place ∧
    SizesKept memory rest (target + (2 + sizeAt memory place))

instance decidableSizesKept (memory : Memory) :
    (places : List ℕ) → (target : ℕ) → Decidable (SizesKept memory places target)
  | [], _ => isTrue trivial
  | place :: rest, target =>
    have := decidableSizesKept memory rest (target + (2 + sizeAt memory place))
    inferInstanceAs (Decidable (reread memory place target = sizeAt memory place ∧ _))

theorem Apart.sizesKept {memory : Memory} {places : List ℕ} {target : ℕ}
    (h : Apart memory places target) : SizesKept memory places target := by
  induction places generalizing target with
  | nil => trivial
  | cons place rest ih =>
    apply And.intro _ (ih h.2)
    have hle : target ≤ place := by
      have hcases := h.1
      omega
    rw [← sizeAt_move hle]
    exact (move_record h.1).1

theorem SizesKept.congr {memory memory' : Memory} {places : List ℕ} {target : ℕ}
    (hsame : ∀ place ∈ places, ∀ other, place ≤ other → memory' other = memory other) :
    SizesKept memory' places target ↔ SizesKept memory places target := by
  induction places generalizing target with
  | nil => exact Iff.rfl
  | cons place rest ih =>
    have hplace := hsame place List.mem_cons_self
    have hsize : sizeAt memory' place = sizeAt memory place :=
      congrArg leValue (load_congr fun index _ ↦ hplace _ (Nat.le_add_right _ _))
    have hreread : reread memory' place target = reread memory place target := by
      rw [reread, reread, hsize, hplace _ (Nat.le_refl _), hplace _ (Nat.le_add_right _ _),
        hplace _ (Nat.le_add_right _ _), hplace _ (by omega)]
    rw [SizesKept, SizesKept, hreread, hsize,
      ih fun later hlater ↦ hsame later (List.mem_cons_of_mem _ hlater)]

/-- Where the records go, one behind another. -/
def packedPlaces (memory : Memory) : List ℕ → ℕ → List ℕ
  | [], _ => []
  | place :: rest, target =>
    target :: packedPlaces memory rest (target + (2 + sizeAt memory place))

theorem packedPlaces_congr {memory memory' : Memory} {places : List ℕ} {target : ℕ}
    (hsize : ∀ place ∈ places, sizeAt memory' place = sizeAt memory place) :
    packedPlaces memory' places target = packedPlaces memory places target := by
  induction places generalizing target with
  | nil => rfl
  | cons place rest ih =>
    rw [packedPlaces, packedPlaces, hsize place List.mem_cons_self,
      ih fun later hlater ↦ hsize later (List.mem_cons_of_mem _ hlater)]

theorem le_of_mem_packedPlaces {memory : Memory} {places : List ℕ} {target place : ℕ}
    (h : place ∈ packedPlaces memory places target) : target ≤ place := by
  induction places generalizing target with
  | nil => exact absurd h List.not_mem_nil
  | cons first rest ih =>
    rcases List.mem_cons.mp h with rfl | h
    · exact Nat.le_refl _
    · have hle := ih h
      omega

/-- What the first move of a compaction leaves for the others. -/
structure MoveEffect (memory moved : Memory) (place : ℕ) (rest : List ℕ) (target stop : ℕ) :
    Prop where
  reread : sizeAt moved place = reread memory place target
  size : sizeAt moved target = sizeAt memory place
  payload : payloadAt moved target = payloadAt memory place
  packed : Packed moved rest stop
  below : ∀ later ∈ rest, target + (2 + sizeAt memory place) ≤ later
  sizes : ∀ later ∈ rest, sizeAt moved later = sizeAt memory later
  kept : ∀ next, SizesKept moved rest next ↔ SizesKept memory rest next
  payloads : rest.map (payloadAt moved) = rest.map (payloadAt memory)
  outside : ∀ other, other < target ∨ endAt memory place ≤ other → moved other = memory other

theorem move_effect {memory : Memory} {place : ℕ} {rest : List ℕ} {target stop : ℕ}
    (h : Packed memory (place :: rest) stop) (htarget : target ≤ place) :
    MoveEffect memory (move memory target place (2 + sizeAt memory place)) place rest target
      stop := by
  obtain ⟨hinside, hlater, hrest⟩ := packed_cons.mp h
  have hlength : (load memory place (2 + sizeAt memory place)).length =
      2 + sizeAt memory place := length_load _ _ _
  obtain ⟨hsize, hpayload⟩ := @record_congr memory
    (move memory target place (2 + sizeAt memory place)) place target
      (load_store_of_length _ _ _ hlength).symm
  have hframe (other : ℕ) (hother : other < target ∨ endAt memory place ≤ other) :
      move memory target place (2 + sizeAt memory place) other = memory other := by
    rw [move]
    rcases hother with hother | hother
    · exact store_of_lt _ _ _ hother
    · refine store_of_le _ _ _ ?_
      unfold endAt at hother
      omega
  have hkept (later : ℕ) (hmem : later ∈ rest) :
      sizeAt (move memory target place (2 + sizeAt memory place)) later = sizeAt memory later ∧
        payloadAt (move memory target place (2 + sizeAt memory place)) later =
          payloadAt memory later := by
    apply record_congr
    apply load_congr
    intro index _
    have hle := hlater later hmem
    exact (hframe _ (.inr (by omega))).symm
  refine ⟨sizeAt_move htarget, hsize, hpayload, hrest.congr fun later hmem ↦ (hkept later hmem).1,
    ?_, fun later hmem ↦ (hkept later hmem).1, fun next ↦ SizesKept.congr ?_,
    List.map_congr_left fun later hmem ↦ (hkept later hmem).2, hframe⟩
  · intro later hmem
    have hle := hlater later hmem
    unfold endAt at hle
    omega
  · intro later hmem other hother
    exact hframe other (.inr ((hlater later hmem).trans hother))

/-- Compaction keeps the payloads in their order, closes every gap and touches nothing outside
the region. -/
theorem compact_spec {memory : Memory} {places : List ℕ} {target stop : ℕ}
    (h : Packed memory places stop) (hbelow : ∀ place ∈ places, target ≤ place)
    (hkept : SizesKept memory places target) :
    ∃ final, compact memory places target =
        (final, packedPlaces memory places target, target + used memory places) ∧
      Packed final (packedPlaces memory places target) (target + used memory places) ∧
      (packedPlaces memory places target).map (payloadAt final) =
        places.map (payloadAt memory) ∧
      (∀ place, place < target ∨ stop ≤ place → final place = memory place) := by
  induction places generalizing memory target with
  | nil => exact ⟨memory, rfl, packed_nil _ _, rfl, fun _ _ ↦ rfl⟩
  | cons place rest ih =>
    have hmove := move_effect h (hbelow place List.mem_cons_self)
    obtain ⟨moved, hmoved⟩ : ∃ moved, move memory target place (2 + sizeAt memory place) = moved :=
      ⟨_, rfl⟩
    rw [hmoved] at hmove
    have hused : used moved rest = used memory rest := used_eq_of_payloads hmove.payloads
    obtain ⟨final, hcompact, hpacked, hvalues, houtside⟩ :=
      ih hmove.packed hmove.below ((hmove.kept _).mpr hkept.2)
    have hend : target + (2 + sizeAt memory place) + used moved rest =
        target + used memory (place :: rest) := by
      rw [hused, used, used, List.map_cons, List.sum_cons]
      omega
    rw [packedPlaces_congr hmove.sizes, hend] at hcompact hpacked
    rw [packedPlaces_congr hmove.sizes] at hvalues
    have htop : sizeAt final target = sizeAt memory place ∧
        payloadAt final target = payloadAt memory place := by
      rw [← hmove.size, ← hmove.payload]
      apply record_congr
      apply load_congr
      intro index hindex
      rw [hmove.size] at hindex
      exact (houtside _ (.inl (by omega))).symm
    refine ⟨final, ?_, packed_cons.mpr ⟨?_, ?_, hpacked⟩, ?_, ?_⟩
    · simp only [compact, hmoved, hmove.reread, hkept.1, hcompact, packedPlaces]
    · rw [endAt, htop.1, ← hend]
      omega
    · intro later hmem
      rw [endAt, htop.1]
      have hle := le_of_mem_packedPlaces hmem
      omega
    · rw [packedPlaces, List.map_cons, List.map_cons, htop.2, hvalues, hmove.payloads]
    · intro other hother
      have hinside := (packed_cons.mp h).1
      rw [houtside other, hmove.outside other]
      · rcases hother with hother | hother
        · exact .inl hother
        · exact .inr (hinside.trans hother)
      · rcases hother with hother | hother
        · exact .inl (by omega)
        · exact .inr hother

end FGDB.Foundation.Records
