import Mathlib.Data.List.Basic
import Mathlib.Data.List.Forall2
import Mathlib.Tactic.Common

/-!
# Runs of a faulting step function

A step function reads a state and an input and either faults or returns the next
state with an output. A run feeds it a list of inputs. The induction rules here
carry a step lemma to every run: an invariant of the reached states, and a
simulation of a total reference machine. They take a side condition on the state
before each step, so a result can say which inputs it is about.
-/

namespace FGDB.Foundation

/-- What ends a program instead of a next state. -/
inductive Fault
  | nullPointer
  | danglingPointer
  | outOfBounds
  | divisionByZero
  | assertionFailed
  | typeConfusion
  | indeterminate
  | nontermination
  | exit
  deriving DecidableEq, Repr

/-- A computation of a program that may fault. -/
abbrev Outcome (α : Type) := Except Fault α

variable {σ ρ ι ω α β : Type}

@[simp] theorem ok_bind (value : α) (next : α → Outcome β) :
    ((Except.ok value : Outcome α) >>= next) = next value := rfl

@[simp] theorem error_bind (fault : Fault) (next : α → Outcome β) :
    ((Except.error fault : Outcome α) >>= next) = Except.error fault := rfl

@[simp] theorem pure_eq_ok (value : α) : (pure value : Outcome α) = Except.ok value := rfl

theorem bind_eq_ok {first : Outcome α} {next : α → Outcome β} {result : β} :
    (first >>= next) = Except.ok result ↔
      ∃ value, first = Except.ok value ∧ next value = Except.ok result := by
  cases first with
  | error fault => simp
  | ok value => simp

/-- What is looked up and found is there. -/
theorem elim_eq_ok {found : Option α} {fault : Fault} {value : α} :
    found.elim (.error fault) .ok = (.ok value : Outcome α) ↔ found = some value := by
  cases found with
  | none => exact iff_of_false nofun nofun
  | some found => rw [Option.elim_some, Except.ok.injEq, Option.some.injEq]

theorem toOption_eq_some {outcome : Outcome α} {value : α} :
    outcome.toOption = some value ↔ outcome = .ok value := by
  cases outcome with
  | error fault => exact iff_of_false nofun nofun
  | ok found =>
    rw [Except.ok.injEq]
    exact Option.some_inj

/-- A computation has returned when something is seen of its result. -/
theorem exists_ok_of_map {view : α → β} {outcome : Outcome α} {seen : β}
    (h : outcome.toOption.map view = some seen) : ∃ value, outcome = .ok value ∧ view value = seen := by
  obtain ⟨value, hvalue, hseen⟩ := Option.map_eq_some_iff.mp h
  exact ⟨value, toOption_eq_some.mp hvalue, hseen⟩

/-- Whatever ends the computation is one of some faults. -/
def FailsOnly (allowed : Fault → Prop) (outcome : Outcome α) : Prop :=
  ∀ fault, outcome = .error fault → allowed fault

theorem failsOnly_ok (allowed : Fault → Prop) (value : α) :
    FailsOnly allowed (.ok value : Outcome α) := nofun

theorem failsOnly_error {allowed : Fault → Prop} {fault : Fault} (h : allowed fault) :
    FailsOnly allowed (.error fault : Outcome α) := by
  intro fault' hfault
  rwa [← Except.error.inj hfault]

theorem FailsOnly.bind {allowed : Fault → Prop} {first : Outcome α} {next : α → Outcome β}
    (hfirst : FailsOnly allowed first)
    (hnext : ∀ value, first = .ok value → FailsOnly allowed (next value)) :
    FailsOnly allowed (first >>= next) := by
  intro fault hfault
  cases h : first with
  | error fault' =>
    rw [h, error_bind] at hfault
    rw [← Except.error.inj hfault]
    exact hfirst fault' h
  | ok value =>
    rw [h, ok_bind] at hfault
    exact hnext value h fault hfault

/-- A loop over the numbers below a bound succeeds when each of its steps does, from what the
steps before it establish. -/
theorem foldlM_range_ok {step : σ → ℕ → Outcome σ} {inv : ℕ → σ → Prop} {count : ℕ} {start : σ}
    (hinit : inv 0 start) (hstep : ∀ index state, index < count → inv index state →
      ∃ next, step state index = .ok next ∧ inv (index + 1) next) :
    ∃ final, (List.range count).foldlM step start = .ok final ∧ inv count final := by
  induction count with
  | zero => exact ⟨start, rfl, hinit⟩
  | succ count ih =>
    obtain ⟨middle, hloop, hinv⟩ := ih fun index state hlt ↦ hstep index state (by omega)
    obtain ⟨final, hnext, hfinal⟩ := hstep count middle (Nat.lt_succ_self _) hinv
    refine ⟨final, ?_, hfinal⟩
    rw [List.range_succ, List.foldlM_append, hloop, ok_bind, List.foldlM_cons, hnext]
    rfl

/-- A loop over the numbers below a bound that succeeds keeps what each of its steps keeps. -/
theorem foldlM_range_invariant {step : σ → ℕ → Outcome σ} {inv : ℕ → σ → Prop} {count : ℕ}
    {start final : σ} (hinit : inv 0 start) (hstep : ∀ index state next, index < count →
      inv index state → step state index = .ok next → inv (index + 1) next)
    (h : (List.range count).foldlM step start = .ok final) : inv count final := by
  induction count generalizing final with
  | zero =>
    rw [List.range_zero, List.foldlM_nil, pure_eq_ok, Except.ok.injEq] at h
    rwa [← h]
  | succ count ih =>
    rw [List.range_succ, List.foldlM_append] at h
    obtain ⟨middle, hloop, h⟩ := bind_eq_ok.mp h
    rw [List.foldlM_cons] at h
    obtain ⟨last, hnext, h⟩ := bind_eq_ok.mp h
    rw [List.foldlM_nil, pure_eq_ok, Except.ok.injEq] at h
    rw [← h]
    apply hstep count middle last (Nat.lt_succ_self count) _ hnext
    apply ih _ hloop
    intro index state next hlt
    exact hstep index state next (Nat.lt_succ_of_lt hlt)

/-- Feed a list of inputs to the step function and collect its outputs. -/
def run (step : σ → ι → Outcome (σ × ω)) : σ → List ι → Outcome (σ × List ω)
  | state, [] => .ok (state, [])
  | state, input :: rest => do
    let (next, output) ← step state input
    let (final, outputs) ← run step next rest
    return (final, output :: outputs)

/-- The reference machine never faults. -/
def runSpec (spec : ρ → ι → ρ × ω) : ρ → List ι → ρ × List ω
  | model, [] => (model, [])
  | model, input :: rest =>
    ((runSpec spec (spec model input).1 rest).1,
      (spec model input).2 :: (runSpec spec (spec model input).1 rest).2)

/-- A reference machine that reads its inputs through a map. -/
theorem runSpec_map (spec : ρ → α → ρ × ω) (view : ι → α) (model : ρ) (inputs : List ι) :
    runSpec (fun model input ↦ spec model (view input)) model inputs =
      runSpec spec model (inputs.map view) := by
  induction inputs generalizing model with
  | nil => rfl
  | cons input rest ih =>
    rw [List.map_cons, runSpec, runSpec, ih]

/-- Every step of the run meets a condition on its input and the state before it. -/
def EachStep (step : σ → ι → Outcome (σ × ω)) (ok : σ → ι → Prop) : σ → List ι → Prop
  | _, [] => True
  | state, input :: rest =>
    ok state input ∧ ∀ next output, step state input = .ok (next, output) →
      EachStep step ok next rest

variable {step : σ → ι → Outcome (σ × ω)} {spec : ρ → ι → ρ × ω} {ok : σ → ι → Prop}

instance decidableEachStep [∀ state input, Decidable (ok state input)] :
    (state : σ) → (inputs : List ι) → Decidable (EachStep step ok state inputs)
  | _, [] => isTrue trivial
  | state, input :: rest =>
    match hstep : step state input with
    | .error _ => decidable_of_iff (ok state input)
        ⟨fun h ↦ ⟨h, fun _ _ hok ↦ by rw [hstep] at hok; exact nomatch hok⟩, And.left⟩
    | .ok (next, _) =>
      have := decidableEachStep next rest
      decidable_of_iff (ok state input ∧ EachStep step ok next rest)
        ⟨fun h ↦ ⟨h.1, fun _ _ hok ↦ by rw [hstep] at hok; cases hok; exact h.2⟩,
          fun h ↦ ⟨h.1, h.2 _ _ hstep⟩⟩

@[simp] theorem run_nil (state : σ) : run step state [] = .ok (state, []) := rfl

theorem run_cons_eq_ok {state final : σ} {input : ι} {rest : List ι} {outputs : List ω} :
    run step state (input :: rest) = .ok (final, outputs) ↔
      ∃ next output tail, step state input = .ok (next, output) ∧
        run step next rest = .ok (final, tail) ∧ outputs = output :: tail := by
  simp only [run, bind_eq_ok, Prod.exists, pure_eq_ok, Except.ok.injEq, Prod.mk.injEq]
  constructor
  · rintro ⟨next, output, hstep, last, tail, hrun, rfl, rfl⟩
    exact ⟨next, output, tail, hstep, hrun, rfl⟩
  · rintro ⟨next, output, tail, hstep, hrun, rfl⟩
    exact ⟨next, output, hstep, final, tail, hrun, rfl, rfl⟩

theorem run_cons_of_step {state next : σ} {input : ι} {rest : List ι} {output : ω}
    (hstep : step state input = .ok (next, output)) :
    run step state (input :: rest) =
      (run step next rest >>= fun result ↦ .ok (result.1, output :: result.2)) := by
  simp only [run, hstep, ok_bind]
  rfl

theorem run_cons_of_fault {state : σ} {input : ι} {rest : List ι} {fault : Fault}
    (hstep : step state input = .error fault) : run step state (input :: rest) = .error fault := by
  simp only [run, hstep, error_bind]

/-- The last step of a run starts in the state its first inputs reach. -/
theorem run_append_eq_ok {state final : σ} {first second : List ι} {outputs : List ω} :
    run step state (first ++ second) = .ok (final, outputs) ↔
      ∃ middle before after, run step state first = .ok (middle, before) ∧
        run step middle second = .ok (final, after) ∧ outputs = before ++ after := by
  induction first generalizing state outputs with
  | nil =>
    simp only [List.nil_append, run_nil, Except.ok.injEq, Prod.mk.injEq]
    constructor
    · intro hrun
      exact ⟨state, [], outputs, ⟨rfl, rfl⟩, hrun, rfl⟩
    · rintro ⟨middle, before, after, ⟨rfl, rfl⟩, hrun, rfl⟩
      simpa using hrun
  | cons input rest ih =>
    simp only [List.cons_append, run_cons_eq_ok, ih]
    constructor
    · rintro ⟨next, output, tail, hstep, ⟨middle, before, after, hfirst, hsecond, rfl⟩, rfl⟩
      exact ⟨middle, output :: before, after, ⟨next, output, before, hstep, hfirst, rfl⟩,
        hsecond, rfl⟩
    · rintro ⟨middle, before, after, ⟨next, output, tail, hstep, hfirst, rfl⟩, hsecond, rfl⟩
      exact ⟨next, output, tail ++ after, hstep, ⟨middle, tail, after, hfirst, hsecond, rfl⟩,
        rfl⟩

theorem EachStep.mono {ok' : σ → ι → Prop} (himp : ∀ state input, ok state input → ok' state input)
    {state : σ} {inputs : List ι} (h : EachStep step ok state inputs) :
    EachStep step ok' state inputs := by
  induction inputs generalizing state with
  | nil => trivial
  | cons input rest ih =>
    exact ⟨himp _ _ h.1, fun next output hstep ↦ ih (h.2 next output hstep)⟩

theorem EachStep.and {ok' : σ → ι → Prop} {state : σ} {inputs : List ι}
    (h : EachStep step ok state inputs) (h' : EachStep step ok' state inputs) :
    EachStep step (fun state input ↦ ok state input ∧ ok' state input) state inputs := by
  induction inputs generalizing state with
  | nil => trivial
  | cons input rest ih =>
    exact ⟨⟨h.1, h'.1⟩, fun next output hstep ↦ ih (h.2 next output hstep) (h'.2 next output hstep)⟩

theorem eachStep_of_forall {request : ι → Prop} {state : σ} {inputs : List ι}
    (h : ∀ input ∈ inputs, request input) :
    EachStep step (fun _ input ↦ request input) state inputs := by
  induction inputs generalizing state with
  | nil => trivial
  | cons input rest ih =>
    rw [List.forall_mem_cons] at h
    exact ⟨h.1, fun next output _ ↦ ih h.2⟩

theorem eachStep_of_all (h : ∀ state input, ok state input) {state : σ} {inputs : List ι} :
    EachStep step ok state inputs := by
  induction inputs generalizing state with
  | nil => trivial
  | cons input rest ih => exact ⟨h state input, fun _ _ _ ↦ ih⟩

/-- No step of a run that ends well faults. -/
theorem eachStep_of_run {state final : σ} {inputs : List ι} {outputs : List ω}
    (hrun : run step state inputs = .ok (final, outputs)) :
    EachStep step (fun state input ↦ ∃ result, step state input = .ok result) state inputs := by
  induction inputs generalizing state outputs with
  | nil => trivial
  | cons input rest ih =>
    obtain ⟨next, output, tail, hnext, hrest, -⟩ := run_cons_eq_ok.mp hrun
    refine ⟨⟨(next, output), hnext⟩, fun next' output' hnext' ↦ ?_⟩
    rw [hnext] at hnext'
    cases hnext'
    exact ih hrest

/-- Of a run that ends well a request on the inputs alone is one on each of them. -/
theorem eachStep_iff_forall {request : ι → Prop} {state final : σ} {inputs : List ι}
    {outputs : List ω} (hrun : run step state inputs = .ok (final, outputs)) :
    EachStep step (fun _ input ↦ request input) state inputs ↔
      ∀ input ∈ inputs, request input := by
  refine ⟨fun h ↦ ?_, eachStep_of_forall⟩
  induction inputs generalizing state outputs with
  | nil => exact fun _ hmem ↦ absurd hmem List.not_mem_nil
  | cons input rest ih =>
    obtain ⟨next, output, tail, hnext, hrest, -⟩ := run_cons_eq_ok.mp hrun
    rw [List.forall_mem_cons]
    exact ⟨h.1, ih hrest (h.2 next output hnext)⟩

theorem EachStep.take {state : σ} {first second : List ι}
    (h : EachStep step ok state (first ++ second)) : EachStep step ok state first := by
  induction first generalizing state with
  | nil => trivial
  | cons input rest ih =>
    exact ⟨h.1, fun next output hstep ↦ ih (h.2 next output hstep)⟩

/-- A property that the first state has and every admitted step keeps holds of each
reached state. -/
theorem run_invariant {inv : σ → Prop}
    (hstep : ∀ state input next output, inv state → ok state input →
      step state input = .ok (next, output) → inv next)
    {state final : σ} {inputs : List ι} {outputs : List ω} (hinit : inv state)
    (hok : EachStep step ok state inputs) (hrun : run step state inputs = .ok (final, outputs)) :
    inv final := by
  induction inputs generalizing state outputs with
  | nil =>
    simp only [run_nil, Except.ok.injEq, Prod.mk.injEq] at hrun
    rwa [← hrun.1]
  | cons input rest ih =>
    obtain ⟨next, output, tail, hnext, hrest, -⟩ := run_cons_eq_ok.mp hrun
    exact ih (hstep state input next output hinit hok.1 hnext) (hok.2 next output hnext) hrest

/-- What follows from a property that the admitted steps keep holds before each of them. -/
theorem EachStep.of_invariant {inv : σ → Prop} {ok' : σ → ι → Prop}
    (hstep : ∀ state input next output, inv state → ok state input →
      step state input = .ok (next, output) → inv next)
    (himp : ∀ state input, inv state → ok state input → ok' state input) {state : σ}
    {inputs : List ι} (hinit : inv state) (hok : EachStep step ok state inputs) :
    EachStep step ok' state inputs := by
  induction inputs generalizing state with
  | nil => trivial
  | cons input rest ih =>
    refine ⟨himp state input hinit hok.1, fun next output hnext ↦ ?_⟩
    exact ih (hstep state input next output hinit hok.1 hnext) (hok.2 next output hnext)

/-- A step that succeeds and keeps a property makes every admitted run succeed. -/
theorem run_succeeds {inv : σ → Prop}
    (hstep : ∀ state input, inv state → ok state input →
      ∃ next output, step state input = .ok (next, output) ∧ inv next)
    {state : σ} {inputs : List ι} (hinit : inv state) (hok : EachStep step ok state inputs) :
    ∃ final outputs, run step state inputs = .ok (final, outputs) ∧ inv final := by
  induction inputs generalizing state with
  | nil => exact ⟨state, [], rfl, hinit⟩
  | cons input rest ih =>
    obtain ⟨next, output, hnext, hinv⟩ := hstep state input hinit hok.1
    obtain ⟨final, outputs, hrun, hfinal⟩ := ih hinv (hok.2 next output hnext)
    refine ⟨final, output :: outputs, ?_, hfinal⟩
    rw [run_cons_of_step hnext, hrun]
    rfl

/-- A step whose output answers that of the reference machine makes every admitted run do so: the
run does not fault and each output answers the reference's. -/
theorem run_related {spec : ρ → ι → ρ × β} {rel : σ → ρ → Prop} {answers : ω → β → Prop}
    (hstep : ∀ state model input, rel state model → ok state input →
      ∃ next output, step state input = .ok (next, output) ∧
        answers output (spec model input).2 ∧ rel next (spec model input).1)
    {state : σ} {model : ρ} {inputs : List ι} (hinit : rel state model)
    (hok : EachStep step ok state inputs) :
    ∃ final outputs, run step state inputs = .ok (final, outputs) ∧
      List.Forall₂ answers outputs (runSpec spec model inputs).2 ∧
        rel final (runSpec spec model inputs).1 := by
  induction inputs generalizing state model with
  | nil => exact ⟨state, [], rfl, .nil, hinit⟩
  | cons input rest ih =>
    obtain ⟨next, output, hnext, hanswers, hrel⟩ := hstep state model input hinit hok.1
    obtain ⟨final, outputs, hrun, houtputs, hfinal⟩ := ih hrel (hok.2 next output hnext)
    refine ⟨final, output :: outputs, ?_, .cons hanswers houtputs, hfinal⟩
    rw [run_cons_of_step hnext, hrun]
    rfl

/-- A step that follows the reference machine makes every admitted run follow it: the run
does not fault and its outputs are the reference's. -/
theorem run_simulates {rel : σ → ρ → Prop}
    (hstep : ∀ state model input, rel state model → ok state input →
      ∃ next, step state input = .ok (next, (spec model input).2) ∧
        rel next (spec model input).1)
    {state : σ} {model : ρ} {inputs : List ι} (hinit : rel state model)
    (hok : EachStep step ok state inputs) :
    ∃ final, run step state inputs = .ok (final, (runSpec spec model inputs).2) ∧
      rel final (runSpec spec model inputs).1 := by
  have hsame (state : σ) (model : ρ) (input : ι) (hrel : rel state model) (hinput : ok state input) :
      ∃ next output, step state input = .ok (next, output) ∧
        output = (spec model input).2 ∧ rel next (spec model input).1 := by
    obtain ⟨next, hnext, hrel⟩ := hstep state model input hrel hinput
    exact ⟨next, _, hnext, rfl, hrel⟩
  obtain ⟨final, outputs, hrun, houtputs, hfinal⟩ := run_related hsame hinit hok
  rw [List.forall₂_eq_eq_eq] at houtputs
  exact ⟨final, houtputs ▸ hrun, hfinal⟩

/-- When a condition says exactly which steps follow the reference machine, a run follows it to
every point if and only if all its steps meet the condition. The inputs may be restricted by what
the reference machine is asked. -/
theorem forall_prefix_simulates_iff {rel : σ → ρ → Prop} {asked : ρ → ι → Prop}
    (hstep : ∀ state model input, rel state model → asked model input →
      ((∃ next, step state input = .ok (next, (spec model input).2) ∧
        rel next (spec model input).1) ↔ ok state input))
    {state : σ} {model : ρ} {inputs : List ι} (hinit : rel state model)
    (hasked : EachStep (fun model input ↦ .ok (spec model input)) asked model inputs) :
    (∀ done, done <+: inputs → ∃ final, run step state done =
        .ok (final, (runSpec spec model done).2) ∧ rel final (runSpec spec model done).1) ↔
      EachStep step ok state inputs := by
  induction inputs generalizing state model with
  | nil =>
    refine iff_of_true (fun done hdone ↦ ?_) trivial
    rw [List.prefix_nil.mp hdone]
    exact ⟨state, rfl, hinit⟩
  | cons input rest ih =>
    have hrest := hasked.2 (spec model input).1 (spec model input).2 rfl
    constructor
    · intro h
      have hfirst : ∃ next, step state input = .ok (next, (spec model input).2) ∧
          rel next (spec model input).1 := by
        obtain ⟨final, hrun, hrel⟩ := h [input] ⟨rest, rfl⟩
        obtain ⟨next, output, tail, hnext, hnil, houtput⟩ := run_cons_eq_ok.mp hrun
        cases hnil
        cases houtput
        exact ⟨final, hnext, hrel⟩
      refine ⟨(hstep state model input hinit hasked.1).mp hfirst, fun next output hnext ↦ ?_⟩
      obtain ⟨next', hnext', hrel⟩ := hfirst
      rw [hnext'] at hnext
      cases hnext
      apply (ih hrel hrest).mp
      intro done hdone
      obtain ⟨final, hrun, hfinal⟩ := h (input :: done) (List.cons_prefix_cons.mpr ⟨rfl, hdone⟩)
      obtain ⟨middle, output, tail, hmiddle, hlater, houtputs⟩ := run_cons_eq_ok.mp hrun
      rw [hnext'] at hmiddle
      cases hmiddle
      cases houtputs
      exact ⟨final, hlater, hfinal⟩
    · intro h done hdone
      cases done with
      | nil => exact ⟨state, rfl, hinit⟩
      | cons first done =>
        obtain ⟨rfl, hbelow⟩ := List.cons_prefix_cons.mp hdone
        obtain ⟨next, hnext, hrel⟩ := (hstep state model first hinit hasked.1).mpr h.1
        obtain ⟨final, hrun, hfinal⟩ := (ih hrel hrest).mpr (h.2 next _ hnext) done hbelow
        refine ⟨final, ?_, hfinal⟩
        rw [run_cons_of_step hnext, hrun]
        rfl

/-- A run that is computed ends in a state with a property that is computed. -/
theorem exists_run_of_any {p : σ → Prop} [DecidablePred p] {state : σ} {inputs : List ι}
    (h : (run step state inputs).toOption.any (fun result ↦ decide (p result.1)) = true) :
    ∃ final outputs, run step state inputs = .ok (final, outputs) ∧ p final := by
  cases hrun : run step state inputs with
  | error fault =>
    rw [hrun] at h
    cases h
  | ok result =>
    rw [hrun] at h
    exact ⟨result.1, result.2, rfl, of_decide_eq_true h⟩

/-- What holds before every step and at the end holds in all states of a run. -/
theorem forall_prefix_of_eachStep {p : σ → Prop} {state final : σ} {inputs : List ι}
    {outputs : List ω} (hbefore : EachStep step (fun state _ ↦ p state) state inputs)
    (hrun : run step state inputs = .ok (final, outputs)) (hfinal : p final) :
    ∀ done, done <+: inputs → ∀ reached outputs, run step state done = .ok (reached, outputs) →
      p reached := by
  intro done hdone reached outputs' hreached
  induction inputs generalizing state done outputs outputs' with
  | nil =>
    rw [List.prefix_nil.mp hdone, run_nil] at hreached
    cases hreached
    cases hrun
    exact hfinal
  | cons input rest ih =>
    cases done with
    | nil =>
      rw [run_nil] at hreached
      cases hreached
      exact hbefore.1
    | cons first done =>
      obtain ⟨rfl, hbelow⟩ := List.cons_prefix_cons.mp hdone
      obtain ⟨next, output, tail, hnext, hrest, -⟩ := run_cons_eq_ok.mp hrun
      obtain ⟨next', output', tail', hnext', hrest', -⟩ := run_cons_eq_ok.mp hreached
      rw [hnext] at hnext'
      cases hnext'
      exact ih (hbefore.2 next output hnext) hrest done hbelow tail' hrest'

/-- When a condition on a step says exactly whether a property holds after it, the property holds in
all states of a run if and only if it holds in the first one and all steps meet the condition. -/
theorem forall_prefix_iff {inv good : σ → Prop} {ok' : σ → ι → Prop}
    (hstep : ∀ state input next output, inv state → good state → ok state input →
      step state input = .ok (next, output) → inv next ∧ (good next ↔ ok' state input))
    (hfault : ∀ state input fault, inv state → good state → ok state input →
      step state input = .error fault → ok' state input)
    {state : σ} {inputs : List ι} (hinit : inv state) (hok : EachStep step ok state inputs) :
    (∀ done, done <+: inputs → ∀ final outputs, run step state done = .ok (final, outputs) →
      good final) ↔ good state ∧ EachStep step ok' state inputs := by
  induction inputs generalizing state with
  | nil =>
    constructor
    · intro h
      exact ⟨h [] (List.prefix_refl _) state [] rfl, trivial⟩
    · intro h done hdone final outputs hrun
      rw [List.prefix_nil.mp hdone, run_nil] at hrun
      cases hrun
      exact h.1
  | cons input rest ih =>
    constructor
    · intro h
      have hgood : good state := h [] List.nil_prefix state [] rfl
      refine ⟨hgood, ?_, fun next output hnext ↦ ?_⟩
      · cases hnext : step state input with
        | error fault => exact hfault state input fault hinit hgood hok.1 hnext
        | ok result =>
          apply (hstep state input result.1 result.2 hinit hgood hok.1 hnext).2.mp
          apply h [input] _ result.1 [result.2]
          · rw [run, hnext]
            rfl
          · exact ⟨rest, rfl⟩
      · have hinv := (hstep state input next output hinit hgood hok.1 hnext).1
        refine ((ih hinv (hok.2 next output hnext)).mp fun done hdone final outputs hrun ↦ ?_).2
        apply h (input :: done) _ final (output :: outputs)
        · rw [run_cons_of_step hnext, hrun]
          rfl
        · exact (List.cons_prefix_cons).mpr ⟨rfl, hdone⟩
    · intro ⟨hgood, hinput, hrest⟩ done hdone final outputs hrun
      cases done with
      | nil =>
        rw [run_nil] at hrun
        cases hrun
        exact hgood
      | cons first done =>
        obtain ⟨rfl, hrest'⟩ := List.cons_prefix_cons.mp hdone
        obtain ⟨next, output, tail, hnext, hrun, -⟩ := run_cons_eq_ok.mp hrun
        obtain ⟨hinv, hiff⟩ := hstep state first next output hinit hgood hok.1 hnext
        exact (ih hinv (hok.2 next output hnext)).mpr ⟨hiff.mpr hinput, hrest next output hnext⟩
          done hrest' final tail hrun

/-- When a condition says exactly which steps do not end in a fault, a run does not end in it if and
only if all its steps meet the condition. -/
theorem run_ne_fault_iff {inv : σ → Prop} {fault : Fault}
    (hstep : ∀ state input, inv state → ok state input →
      ∃ next output, step state input = .ok (next, output) ∧ inv next)
    (hfault : ∀ state input, inv state → ¬ ok state input → step state input = .error fault)
    {state : σ} {inputs : List ι} (hinit : inv state) :
    run step state inputs ≠ .error fault ↔ EachStep step ok state inputs := by
  constructor
  · intro h
    induction inputs generalizing state with
    | nil => trivial
    | cons input rest ih =>
      by_cases hok : ok state input
      · obtain ⟨next, output, hnext, hinv⟩ := hstep state input hinit hok
        refine ⟨hok, fun next' output' hnext' ↦ ?_⟩
        rw [hnext] at hnext'
        cases hnext'
        apply ih hinv
        intro hrest
        apply h
        rw [run_cons_of_step hnext, hrest, error_bind]
      · exact absurd (run_cons_of_fault (hfault state input hinit hok)) h
  · intro h
    obtain ⟨final, outputs, hrun, -⟩ := run_succeeds hstep hinit h
    rw [hrun]
    exact nofun

/-- Two conditions that agree on the reached states admit the same runs. -/
theorem eachStep_congr {inv : σ → Prop} {ok' : σ → ι → Prop}
    (hstep : ∀ state input next output, inv state → step state input = .ok (next, output) →
      inv next)
    (hiff : ∀ state input, inv state → (ok state input ↔ ok' state input)) {state : σ}
    {inputs : List ι} (hinit : inv state) :
    EachStep step ok state inputs ↔ EachStep step ok' state inputs := by
  induction inputs generalizing state with
  | nil => exact Iff.rfl
  | cons input rest ih =>
    apply and_congr (hiff state input hinit)
    apply forall_congr'
    intro next
    apply forall_congr'
    intro output
    apply imp_congr_right
    intro hnext
    exact ih (hstep state input next output hinit hnext)

end FGDB.Foundation
