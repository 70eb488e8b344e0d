import Mathlib.Data.List.Basic

/-!
# Transition systems with observed events

A machine is a partial step function: a label resolves every choice of a step (who moves, what the environment
answers), and a step emits a list of events.  `RunWhere M ok s₀ tr s` says that from `s₀` the machine can emit the
trace `tr` and be in `s`, by steps that all satisfy `ok`; `Run` puts no condition on the steps.

The rules of this file are the induction over runs (`RunWhere.invariant`), the continuation of a run
(`RunWhere.trans`), the replay of a given schedule (`RunWhere.of_exec`, and `RunWhere.of_restrict` for one whose steps
satisfy a condition), the projection of a run onto a component (`RunWhere.project`) and forward simulation
(`RunWhere.simulates`).
`Throughout` says that every event of a trace is allowed by the trace before it.
-/

/-- A labelled transition system whose steps emit events. -/
structure Machine (State Label Event : Type) where
  next : State → Label → Option (State × List Event)

namespace Machine

variable {State Label Event State' Label' Event' : Type}

/-- The runs from `s₀` whose steps all satisfy `ok`, with the events they emit. -/
inductive RunWhere (M : Machine State Label Event) (ok : State → Label → Prop) (s₀ : State) :
    List Event → State → Prop
  | start : RunWhere M ok s₀ [] s₀
  | step {tr s l s' es} : RunWhere M ok s₀ tr s → ok s l → M.next s l = some (s', es) →
      RunWhere M ok s₀ (tr ++ es) s'

/-- The runs from `s₀`. -/
abbrev Run (M : Machine State Label Event) (s₀ : State) (tr : List Event) (s : State) : Prop :=
  M.RunWhere (fun _ _ => True) s₀ tr s

variable {M : Machine State Label Event} {M' : Machine State' Label' Event'}
  {ok : State → Label → Prop} {s₀ s : State} {tr : List Event}

/-- A property of trace and state that holds at the start and is kept by every step holds along every run. -/
theorem RunWhere.invariant (Inv : List Event → State → Prop) (hrun : M.RunWhere ok s₀ tr s) (h₀ : Inv [] s₀)
    (hstep : ∀ tr s l s' es, Inv tr s → ok s l → M.next s l = some (s', es) → Inv (tr ++ es) s') :
    Inv tr s := by
  induction hrun with
  | start => exact h₀
  | step _ hok hs ih => exact hstep _ _ _ _ _ ih hok hs

/-- A run can be continued by a run. -/
theorem RunWhere.trans {tr' : List Event} {s' : State} (hrun : M.RunWhere ok s₀ tr s)
    (hrun' : M.RunWhere ok s tr' s') : M.RunWhere ok s₀ (tr ++ tr') s' := by
  induction hrun' with
  | start => rwa [List.append_nil]
  | step _ hok hs ih =>
    rw [← List.append_assoc]
    exact .step ih hok hs

/-- Every event of a run was emitted by one of its steps. -/
theorem RunWhere.step_of_event (hrun : M.RunWhere ok s₀ tr s) {past future : List Event} {e : Event}
    (htr : tr = past ++ e :: future) : ∃ tr' s' l s'' es es', M.RunWhere ok s₀ tr' s' ∧ ok s' l ∧
      M.next s' l = some (s'', es ++ e :: es') ∧ past = tr' ++ es := by
  induction hrun generalizing past future with
  | start => simp at htr
  | @step tr s l s' es hrun hok hs ih =>
    rcases List.append_eq_append_iff.1 htr with ⟨es₁, rfl, hes⟩ | ⟨rest, htr', hrest⟩
    · exact ⟨tr, s, l, s', es₁, future, hrun, hok, by rw [← hes]; exact hs, rfl⟩
    · cases rest with
      | nil =>
        cases hrest
        rw [List.append_nil] at htr'
        exact ⟨tr, s, l, s', [], future, hrun, hok, hs, by rw [htr', List.append_nil]⟩
      | cons e' rest =>
        cases hrest
        exact ih htr'

/-- Replay a schedule; `none` when one of its steps is not enabled. -/
def exec (M : Machine State Label Event) : State → List Label → Option (State × List Event)
  | s, [] => some (s, [])
  | s, l :: ls =>
    match M.next s l with
    | none => none
    | some (s', es) => (exec M s' ls).map fun r => (r.1, es ++ r.2)

private theorem run_extend {ls : List Label} : ∀ {tr : List Event} {s s' : State} {es : List Event},
    M.Run s₀ tr s → M.exec s ls = some (s', es) → M.Run s₀ (tr ++ es) s' := by
  induction ls with
  | nil =>
    intro tr s s' es hrun h
    simp only [exec, Option.some.injEq, Prod.mk.injEq] at h
    obtain ⟨rfl, rfl⟩ := h
    simpa using hrun
  | cons l ls ih =>
    intro tr s s' es hrun h
    simp only [exec] at h
    split at h
    · cases h
    · rename_i s₁ es₁ hs
      obtain ⟨r, hr, h⟩ := Option.map_eq_some_iff.1 h
      simp only [Prod.mk.injEq] at h
      obtain ⟨rfl, rfl⟩ := h
      rw [← List.append_assoc]
      exact ih (hrun.step trivial hs) hr

/-- A schedule that replays is a run. -/
theorem RunWhere.of_exec {ls : List Label} {es : List Event} (h : M.exec s₀ ls = some (s, es)) : M.Run s₀ es s := by
  simpa using run_extend .start h

/-- The machine that takes only the steps that satisfy `ok`. -/
def restrict (M : Machine State Label Event) (ok : State → Label → Prop) [∀ s l, Decidable (ok s l)] :
    Machine State Label Event where
  next s l := if ok s l then M.next s l else none

theorem RunWhere.of_restrict [∀ s l, Decidable (ok s l)] (hrun : (M.restrict ok).Run s₀ tr s) :
    M.RunWhere ok s₀ tr s := by
  induction hrun with
  | start => exact .start
  | step _ _ hs ih =>
    simp only [restrict, Option.ite_none_right_eq_some] at hs
    exact .step ih hs.1 hs.2

/-- A run projects onto a component: every step either leaves the component alone and shows it no event, or is a
step of the component. -/
theorem RunWhere.project (hrun : M.RunWhere ok s₀ tr s) (f : State → State') (π : Event → Option Event')
    (hstep : ∀ s l s' es, ok s l → M.next s l = some (s', es) →
      (f s' = f s ∧ es.filterMap π = []) ∨ ∃ l', M'.next (f s) l' = some (f s', es.filterMap π)) :
    M'.Run (f s₀) (tr.filterMap π) (f s) := by
  induction hrun with
  | start => exact .start
  | step _ hok hs ih =>
    rw [List.filterMap_append]
    rcases hstep _ _ _ _ hok hs with ⟨hf, hes⟩ | ⟨l', hl'⟩
    · rw [hf, hes, List.append_nil]
      exact ih
    · exact ih.step trivial hl'

/-- A machine whose steps another one can follow, from related states to related states and with the same events, has
only runs of the other. -/
theorem RunWhere.simulates (hrun : M.RunWhere ok s₀ tr s) (M' : Machine State' Label' Event)
    (R : State → State' → Prop) {t₀ : State'} (h₀ : R s₀ t₀)
    (hstep : ∀ s t l s' es, R s t → ok s l → M.next s l = some (s', es) →
      ∃ l' t', M'.next t l' = some (t', es) ∧ R s' t') : ∃ t, M'.Run t₀ tr t ∧ R s t := by
  induction hrun with
  | start => exact ⟨t₀, .start, h₀⟩
  | step _ hok hs ih =>
    obtain ⟨t, hrun', hR⟩ := ih
    obtain ⟨l', t', hs', hR'⟩ := hstep _ _ _ _ _ hR hok hs
    exact ⟨t', hrun'.step trivial hs', hR'⟩

end Machine

/-- Every event of the trace is allowed by the part of the trace before it. -/
def Throughout {Event : Type} (allowed : List Event → Event → Prop) (tr : List Event) : Prop :=
  ∀ past e future, tr = past ++ e :: future → allowed past e

namespace Throughout

variable {Event : Type} {allowed : List Event → Event → Prop} {tr : List Event}

theorem nil : Throughout allowed [] := by
  intro past e future h
  simp at h

theorem snoc {e : Event} (h : Throughout allowed tr) (he : allowed tr e) : Throughout allowed (tr ++ [e]) := by
  intro past e' future hsplit
  rcases List.eq_nil_or_concat future with rfl | ⟨future', last, rfl⟩
  · obtain ⟨rfl, hlast⟩ := List.append_inj' hsplit rfl
    obtain rfl := List.singleton_inj.1 hlast
    exact he
  · rw [List.concat_eq_append, ← List.cons_append, ← List.append_assoc] at hsplit
    exact h past e' future' (List.append_inj' hsplit rfl).1

end Throughout
