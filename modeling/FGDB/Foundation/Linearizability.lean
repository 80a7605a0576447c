import FGDB.Foundation.Run
import Mathlib.Data.List.Nodup

/-!
# Linearizability

Operations on a shared object are called and return, in any interleaving. A history is
linearizable when the operations can be put in one order that does not contradict the order
of returns and calls in it, such that their results are those of a sequential
specification. An object that has, for each operation, one step at which it takes
effect shows such histories: the order is that of these steps.
-/

namespace FGDB.Foundation

variable {ι α α' ω ω' ρ β β' σ κ : Type}

/-- What is seen of the operations. -/
inductive HistoryEvent (ι α ω : Type)
  | call (id : ι) (op : α)
  | ret (id : ι) (result : ω)
  deriving DecidableEq, Repr

/-- What happens to the operations, with the steps at which they take effect. -/
inductive TraceEvent (ι α ω : Type)
  | call (id : ι) (op : α)
  | point (id : ι) (op : α) (result : ω)
  | ret (id : ι) (result : ω)
  deriving DecidableEq, Repr

structure Effect (ι α ω : Type) where
  id : ι
  op : α
  result : ω
  deriving DecidableEq, Repr

namespace TraceEvent

section Kinds

variable {id other : ι} {op : α} {result result' : ω}

theorem call_ne_point (op' : α) : (call id op' : TraceEvent ι α ω) ≠ point other op result := nofun

theorem call_ne_ret : (call id op : TraceEvent ι α ω) ≠ ret other result := nofun

theorem call_ne_call (hne : id ≠ other) (op' : α) :
    (call id op : TraceEvent ι α ω) ≠ call other op' := fun heq ↦ hne (call.inj heq).1

theorem point_ne_call (op' : α) : (point id op result : TraceEvent ι α ω) ≠ call other op' := nofun

theorem point_ne_ret : (point id op result : TraceEvent ι α ω) ≠ ret other result' := nofun

theorem ret_ne_call : (ret id result : TraceEvent ι α ω) ≠ call other op := nofun

theorem ret_ne_point : (ret id result : TraceEvent ι α ω) ≠ point other op result' := nofun

end Kinds

def seen : TraceEvent ι α ω → Option (HistoryEvent ι α ω)
  | call id op => some (.call id op)
  | point _ _ _ => none
  | ret id result => some (.ret id result)

def effect : TraceEvent ι α ω → Option (Effect ι α ω)
  | point id op result => some ⟨id, op, result⟩
  | call _ _ | ret _ _ => none

/-- The same event in other words. -/
def map (ask : ι → α → α') (tell : ι → ω → ω') : TraceEvent ι α ω → TraceEvent ι α' ω'
  | call id op => call id (ask id op)
  | point id op result => point id (ask id op) (tell id result)
  | ret id result => ret id (tell id result)

end TraceEvent

def Effect.map (ask : ι → α → α') (tell : ι → ω → ω') (e : Effect ι α ω) : Effect ι α' ω' :=
  ⟨e.id, ask e.id e.op, tell e.id e.result⟩

def history (trace : List (TraceEvent ι α ω)) : List (HistoryEvent ι α ω) :=
  trace.filterMap TraceEvent.seen

/-- The operations in the order in which they take effect. -/
def effects (trace : List (TraceEvent ι α ω)) : List (Effect ι α ω) :=
  trace.filterMap TraceEvent.effect

/-- The results of the operations are those of the specification, in this order. -/
def Legal (spec : ρ → α → ρ × β) (answers : ω → β → Prop) (start : ρ)
    (order : List (Effect ι α ω)) : Prop :=
  List.Forall₂ answers (order.map Effect.result) (runSpec spec start (order.map Effect.op)).2

/-- An order that explains a history. Every operation that has returned is in it, and one that has
returned before another one was called comes before that one. -/
structure Linearizes (spec : ρ → α → ρ × β) (answers : ω → β → Prop) (start : ρ)
    (order : List (Effect ι α ω)) (events : List (HistoryEvent ι α ω)) : Prop where
  once : (order.map Effect.id).Nodup
  called : ∀ e ∈ order, .call e.id e.op ∈ events
  returned : ∀ id result, .ret id result ∈ events → ∃ op, ⟨id, op, result⟩ ∈ order
  legal : Legal spec answers start order
  realTime : ∀ e ∈ order, ∀ e' ∈ order,
    [.ret e.id e.result, .call e'.id e'.op].Sublist events → [e, e'].Sublist order

/-- The operation has not been called. -/
def Uncalled (trace : List (TraceEvent ι α ω)) (id : ι) : Prop := ∀ op, .call id op ∉ trace

/-- The operation has not taken effect. -/
def Unpointed (trace : List (TraceEvent ι α ω)) (id : ι) : Prop :=
  ∀ op result, .point id op result ∉ trace

/-- The operation has not returned. -/
def Unreturned (trace : List (TraceEvent ι α ω)) (id : ι) : Prop := ∀ result, .ret id result ∉ trace

/-- Traces in which an operation is called once, takes effect at most once and only after its call,
and returns at most once, with the result that it had then. -/
inductive Pointed : List (TraceEvent ι α ω) → Prop
  | nil : Pointed []
  | call {trace : List (TraceEvent ι α ω)} {id : ι} {op : α} (h : Pointed trace)
    (hnew : Uncalled trace id) : Pointed (trace ++ [.call id op])
  | point {trace : List (TraceEvent ι α ω)} {id : ι} {op : α} {result : ω} (h : Pointed trace)
    (hcalled : .call id op ∈ trace) (hnew : Unpointed trace id) :
    Pointed (trace ++ [.point id op result])
  | ret {trace : List (TraceEvent ι α ω)} {id : ι} {op : α} {result : ω} (h : Pointed trace)
    (hpoint : .point id op result ∈ trace) (hnew : Unreturned trace id) :
    Pointed (trace ++ [.ret id result])

section Concat

variable {trace : List (TraceEvent ι α ω)} {id : ι} {last : TraceEvent ι α ω}

theorem not_mem_concat {event : TraceEvent ι α ω} (h : event ∉ trace) (hlast : event ≠ last) :
    event ∉ trace ++ [last] := by
  rw [List.mem_append, List.mem_singleton, not_or]
  exact ⟨h, hlast⟩

theorem Uncalled.concat (h : Uncalled trace id) (hlast : ∀ op, .call id op ≠ last) :
    Uncalled (trace ++ [last]) id := fun op ↦ not_mem_concat (h op) (hlast op)

theorem Unpointed.concat (h : Unpointed trace id) (hlast : ∀ op result, .point id op result ≠ last) :
    Unpointed (trace ++ [last]) id := fun op result ↦ not_mem_concat (h op result) (hlast op result)

theorem Unreturned.concat (h : Unreturned trace id) (hlast : ∀ result, .ret id result ≠ last) :
    Unreturned (trace ++ [last]) id := fun result ↦ not_mem_concat (h result) (hlast result)

end Concat

section Pointed

variable {trace : List (TraceEvent ι α ω)} {id : ι} {op : α} {result : ω}

theorem history_append (first second : List (TraceEvent ι α ω)) :
    history (first ++ second) = history first ++ history second := List.filterMap_append

theorem effects_append (first second : List (TraceEvent ι α ω)) :
    effects (first ++ second) = effects first ++ effects second := List.filterMap_append

theorem effects_call : effects (trace ++ [.call id op]) = effects trace := by
  rw [effects_append]
  exact List.append_nil _

theorem effects_point :
    effects (trace ++ [.point id op result]) = effects trace ++ [⟨id, op, result⟩] :=
  effects_append ..

theorem effects_ret : effects (trace ++ [.ret id result]) = effects trace := by
  rw [effects_append]
  exact List.append_nil _

theorem mem_history_call : .call id op ∈ history trace ↔ .call id op ∈ trace := by
  rw [history, List.mem_filterMap]
  constructor
  · rintro ⟨event, hmem, hseen⟩
    cases event <;> cases hseen
    exact hmem
  · exact fun hmem ↦ ⟨_, hmem, rfl⟩

theorem mem_history_ret : .ret id result ∈ history trace ↔ .ret id result ∈ trace := by
  rw [history, List.mem_filterMap]
  constructor
  · rintro ⟨event, hmem, hseen⟩
    cases event <;> cases hseen
    exact hmem
  · exact fun hmem ↦ ⟨_, hmem, rfl⟩

theorem mem_effects : ⟨id, op, result⟩ ∈ effects trace ↔ .point id op result ∈ trace := by
  rw [effects, List.mem_filterMap]
  constructor
  · rintro ⟨event, hmem, heffect⟩
    cases event <;> cases heffect
    exact hmem
  · exact fun hmem ↦ ⟨_, hmem, rfl⟩

/-- An operation that has taken effect was called. -/
theorem Pointed.called (h : Pointed trace) (hpoint : .point id op result ∈ trace) :
    .call id op ∈ trace := by
  induction h with
  | nil => cases hpoint
  | call h hnew ih | ret h hpoint' hnew ih =>
    rcases List.mem_append.mp hpoint with hmem | hmem
    · exact List.mem_append_left _ (ih hmem)
    · cases List.mem_singleton.mp hmem
  | point h hcalled hnew ih =>
    rcases List.mem_append.mp hpoint with hmem | hmem
    · exact List.mem_append_left _ (ih hmem)
    · cases List.mem_singleton.mp hmem
      exact List.mem_append_left _ hcalled

/-- An operation that has returned has taken effect. -/
theorem Pointed.returned (h : Pointed trace) (hret : .ret id result ∈ trace) :
    ∃ op, .point id op result ∈ trace := by
  induction h with
  | nil => cases hret
  | call h hnew ih | point h hcalled hnew ih =>
    rcases List.mem_append.mp hret with hmem | hmem
    · obtain ⟨op, hpoint⟩ := ih hmem
      exact ⟨op, List.mem_append_left _ hpoint⟩
    · cases List.mem_singleton.mp hmem
  | ret h hpoint hnew ih =>
    rcases List.mem_append.mp hret with hmem | hmem
    · obtain ⟨op, hpoint'⟩ := ih hmem
      exact ⟨op, List.mem_append_left _ hpoint'⟩
    · cases List.mem_singleton.mp hmem
      exact ⟨_, List.mem_append_left _ hpoint⟩

theorem Pointed.unpointed (h : Pointed trace) (huncalled : Uncalled trace id) : Unpointed trace id :=
  fun op _ hpoint ↦ huncalled op (h.called hpoint)

theorem Pointed.unreturned (h : Pointed trace) (hunpointed : Unpointed trace id) :
    Unreturned trace id := by
  intro result hret
  obtain ⟨op, hpoint⟩ := h.returned hret
  exact hunpointed op result hpoint

theorem Pointed.once (h : Pointed trace) : ((effects trace).map Effect.id).Nodup := by
  induction h with
  | nil => exact List.nodup_nil
  | call h hnew ih => rwa [effects_call]
  | ret h hpoint hnew ih => rwa [effects_ret]
  | @point trace id op result h hcalled hnew ih =>
    rw [effects_point, List.map_append]
    refine ih.append (List.nodup_singleton id) (List.disjoint_singleton.mpr ?_)
    intro hmem
    obtain ⟨⟨id', op', result'⟩, heffect, hid⟩ := List.mem_map.mp hmem
    cases hid
    exact hnew op' result' (mem_effects.mp heffect)

/-- Two elements one behind the other, of which the second is not the last one. -/
theorem pair_sublist_concat {τ : Type} {l : List τ} {a b last : τ} (hne : b ≠ last)
    (h : [a, b].Sublist (l ++ [last])) : [a, b].Sublist l := by
  obtain ⟨first, second, hsplit, hfirst, hsecond⟩ := List.sublist_append_iff.mp h
  rcases List.sublist_singleton.mp hsecond with rfl | rfl
  · rw [List.append_nil] at hsplit
    exact hsplit ▸ hfirst
  · have hlast := congrArg List.getLast? hsplit
    rw [List.getLast?_concat] at hlast
    cases hlast
    exact absurd rfl hne

/-- The order of the effects does not contradict the order of returns and calls. -/
theorem Pointed.realTime (h : Pointed trace) {e e' : Effect ι α ω} (he : e ∈ effects trace)
    (he' : e' ∈ effects trace)
    (hbefore : [.ret e.id e.result, .call e'.id e'.op].Sublist (history trace)) :
    [e, e'].Sublist (effects trace) := by
  induction h with
  | nil => cases he
  | @call trace id op h hnew ih =>
    rw [effects_call] at he he' ⊢
    have hne : (.call e'.id e'.op : HistoryEvent ι α ω) ≠ .call id op := by
      -- the new operation has not taken effect
      intro heq
      cases heq
      exact hnew _ (h.called (mem_effects.mp he'))
    rw [history_append] at hbefore
    exact ih he he' (pair_sublist_concat hne hbefore)
  | @point trace id op result h hcalled hnew ih =>
    have hhistory : history (trace ++ [.point id op result]) = history trace := by
      rw [history_append]
      exact List.append_nil _
    rw [hhistory] at hbefore
    have hseen : e ∈ effects trace := by
      obtain ⟨op', hpoint⟩ := h.returned (mem_history_ret.mp (hbefore.subset List.mem_cons_self))
      rw [effects_point] at he
      rcases List.mem_append.mp he with hmem | hmem
      · exact hmem
      · rw [List.mem_singleton.mp hmem] at hpoint
        exact absurd hpoint (hnew _ _)
    rw [effects_point] at he' ⊢
    rcases List.mem_append.mp he' with hmem | hmem
    · exact (ih hseen hmem hbefore).trans (List.sublist_append_left _ _)
    · rw [List.mem_singleton.mp hmem]
      exact (List.singleton_sublist.mpr hseen).append (List.Sublist.refl _)
  | @ret trace id op result h hpoint hnew ih =>
    rw [effects_ret] at he he' ⊢
    have hne : (.call e'.id e'.op : HistoryEvent ι α ω) ≠ .ret id result := nofun
    rw [history_append] at hbefore
    exact ih he he' (pair_sublist_concat hne hbefore)

/-- A trace whose operations have, where they take effect, the results of the specification shows a
linearizable history. -/
theorem Pointed.linearizes {spec : ρ → α → ρ × β} {answers : ω → β → Prop} {start : ρ}
    (h : Pointed trace) (hlegal : Legal spec answers start (effects trace)) :
    Linearizes spec answers start (effects trace) (history trace) where
  once := h.once
  called e he := mem_history_call.mpr (h.called (mem_effects.mp he))
  returned id result hret := by
    obtain ⟨op, hpoint⟩ := h.returned (mem_history_ret.mp hret)
    exact ⟨op, mem_effects.mpr hpoint⟩
  legal := hlegal
  realTime _ he _ he' hbefore := h.realTime he he' hbefore

end Pointed

section Map

variable {ask : ι → α → α'} {tell : ι → ω → ω'} {trace : List (TraceEvent ι α ω)}

theorem effects_map (ask : ι → α → α') (tell : ι → ω → ω') (trace : List (TraceEvent ι α ω)) :
    effects (trace.map (TraceEvent.map ask tell)) = (effects trace).map (Effect.map ask tell) := by
  rw [effects, effects, List.filterMap_map, List.map_filterMap]
  congr 1
  funext event
  cases event <;> rfl

/-- In other words, too, an operation is called before it takes effect and returns after it. -/
theorem Pointed.map (h : Pointed trace) : Pointed (trace.map (TraceEvent.map ask tell)) := by
  induction h with
  | nil => exact .nil
  | call h hnew ih =>
    rw [List.map_append]
    refine .call ih fun op hmem ↦ ?_
    obtain ⟨event, hevent, hsame⟩ := List.mem_map.mp hmem
    cases event <;> cases hsame
    exact hnew _ hevent
  | point h hcalled hnew ih =>
    rw [List.map_append]
    refine .point ih (List.mem_map_of_mem hcalled) fun op result hmem ↦ ?_
    obtain ⟨event, hevent, hsame⟩ := List.mem_map.mp hmem
    cases event <;> cases hsame
    exact hnew _ _ hevent
  | ret h hpoint hnew ih =>
    rw [List.map_append]
    refine .ret ih (List.mem_map_of_mem hpoint) fun result hmem ↦ ?_
    obtain ⟨event, hevent, hsame⟩ := List.mem_map.mp hmem
    cases event <;> cases hsame
    exact hnew _ hevent

/-- Operations that another specification understands in the same way are legal for it. -/
theorem Legal.map {spec : ρ → α → ρ × β} {spec' : ρ → α' → ρ × β'} {answers : ω → β → Prop}
    {answers' : ω' → β' → Prop} {start : ρ} {order : List (Effect ι α ω)}
    (hstep : ∀ state, ∀ e ∈ order, (spec' state (ask e.id e.op)).1 = (spec state e.op).1 ∧
      (answers e.result (spec state e.op).2 →
        answers' (tell e.id e.result) (spec' state (ask e.id e.op)).2))
    (h : Legal spec answers start order) :
    Legal spec' answers' start (order.map (Effect.map ask tell)) ∧
      (runSpec spec' start ((order.map (Effect.map ask tell)).map Effect.op)).1 =
        (runSpec spec start (order.map Effect.op)).1 := by
  induction order generalizing start with
  | nil => exact ⟨.nil, rfl⟩
  | cons e rest ih =>
    obtain ⟨hstate, hanswer⟩ := hstep start e List.mem_cons_self
    obtain ⟨hfirst, hrest⟩ := List.forall₂_cons.mp h
    obtain ⟨hlegal, hfinal⟩ :=
      ih (fun state e' hmem ↦ hstep state e' (List.mem_cons_of_mem e hmem)) hrest
    rw [← hstate] at hlegal
    nth_rewrite 1 [← hstate] at hfinal
    exact ⟨.cons (hanswer hfirst) hlegal, hfinal⟩

end Map

section Spec

variable {spec : ρ → α → ρ × β} {answers : ω → β → Prop}

theorem runSpec_concat (spec : ρ → α → ρ × β) (start : ρ) (ops : List α) (op : α) :
    runSpec spec start (ops ++ [op]) = ((spec (runSpec spec start ops).1 op).1,
      (runSpec spec start ops).2 ++ [(spec (runSpec spec start ops).1 op).2]) := by
  induction ops generalizing start with
  | nil => rfl
  | cons first rest ih => simp only [List.cons_append, runSpec, ih]

/-- Each result is that of the specification in some state. -/
theorem Legal.answered {start : ρ} {order : List (Effect ι α ω)} (h : Legal spec answers start order)
    {e : Effect ι α ω} (hmem : e ∈ order) : ∃ state, answers e.result (spec state e.op).2 := by
  induction order generalizing start with
  | nil => cases hmem
  | cons first rest ih =>
    obtain ⟨hfirst, hrest⟩ := List.forall₂_cons.mp h
    rcases List.mem_cons.mp hmem with rfl | hmem
    · exact ⟨start, hfirst⟩
    · exact ih hrest hmem

/-- One more operation takes effect. -/
theorem Legal.concat {start : ρ} {order : List (Effect ι α ω)} (h : Legal spec answers start order)
    {e : Effect ι α ω}
    (hanswers : answers e.result (spec (runSpec spec start (order.map Effect.op)).1 e.op).2) :
    Legal spec answers start (order ++ [e]) := by
  rw [Legal, List.map_append, List.map_append, List.map_singleton, List.map_singleton,
    runSpec_concat]
  exact List.rel_append h (.cons hanswers .nil)

end Spec

section Trace

variable {step : σ → κ → Outcome (σ × Option ω)} {ok : σ → κ → Prop} {inv : σ → List ω → Prop}

/-- What the steps keep of the state and of what has been put out before it holds at the end. -/
theorem run_traced {state final : σ} {before : List ω} {inputs : List κ}
    {outputs : List (Option ω)}
    (hstep : ∀ state before input next output, inv state before → ok state input →
      step state input = .ok (next, output) → inv next (before ++ output.toList))
    (hinit : inv state before) (hok : EachStep step ok state inputs)
    (hrun : run step state inputs = .ok (final, outputs)) :
    inv final (before ++ outputs.filterMap id) := by
  induction inputs generalizing state before outputs with
  | nil =>
    rw [run_nil] at hrun
    cases hrun
    exact (List.append_nil before).symm ▸ hinit
  | cons input rest ih =>
    obtain ⟨next, output, tail, hnext, hrest, rfl⟩ := run_cons_eq_ok.mp hrun
    have hfinal := ih (hstep state before input next output hinit hok.1 hnext)
      (hok.2 next output hnext) hrest
    rw [List.append_assoc] at hfinal
    cases output <;> exact hfinal

/-- When each admitted step succeeds and keeps it, admitted runs succeed. -/
theorem run_traced_succeeds {state : σ} {before : List ω} {inputs : List κ}
    (hstep : ∀ state before input, inv state before → ok state input →
      ∃ next output, step state input = .ok (next, output) ∧ inv next (before ++ output.toList))
    (hinit : inv state before) (hok : EachStep step ok state inputs) :
    ∃ final outputs, run step state inputs = .ok (final, outputs) ∧
      inv final (before ++ outputs.filterMap id) := by
  induction inputs generalizing state before with
  | nil => exact ⟨state, [], rfl, (List.append_nil before).symm ▸ hinit⟩
  | cons input rest ih =>
    obtain ⟨next, output, hnext, hinv⟩ := hstep state before input hinit hok.1
    obtain ⟨final, outputs, hrun, hfinal⟩ := ih hinv (hok.2 next output hnext)
    refine ⟨final, output :: outputs, ?_, ?_⟩
    · rw [run_cons_of_step hnext, hrun]
      rfl
    · rw [List.append_assoc] at hfinal
      cases output <;> exact hfinal

end Trace

end FGDB.Foundation
