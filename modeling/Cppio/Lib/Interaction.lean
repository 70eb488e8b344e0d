import Mathlib.Data.List.Basic

/-!
# Programs that make calls

An interaction is a computation that makes calls to its environment and goes on with each reply, until it is done or
crashes.  `respond s c r` is the state of the environment after the call `c` is answered by `r` in the state `s`, and
`none` if that answer is not possible there.  `play` carries an interaction through with a list of replies and lists
the calls with their replies; `run` carries it through with an environment that replies from its state.

`Ensures respond p Q s` says that from `s` the interaction `p` ends, if it does, so that `Q` holds of its result, of
the state and of the calls it made, whatever the replies (`Ensures.of_play`).  Calls are taken one by one
(`ensures_call`), and parts are put together by `Ensures.bind`.  `Only P` says that every call it makes satisfies `P`,
also if it does not end.  `Safe` says that there is no crash, and `interpret` carries out every call by an interaction
with another environment.
-/

inductive Interaction (C A α : Type) where
  | done (a : α)
  | call (c : C) (k : A → Interaction C A α)
  | crash

namespace Interaction

variable {C A C' A' α β σ : Type}

def bind (p : Interaction C A α) (f : α → Interaction C A β) : Interaction C A β :=
  match p with
  | .done a => f a
  | .call c k => .call c fun r => (k r).bind f
  | .crash => .crash

def map (f : α → β) (p : Interaction C A α) : Interaction C A β := p.bind fun a => .done (f a)

/-- Carry out every call by an interaction with another environment. -/
def interpret (h : C → Interaction C' A' A) : Interaction C A α → Interaction C' A' α
  | .done a => .done a
  | .call c k => (h c).bind fun r => (k r).interpret h
  | .crash => .crash

/-- Carry an interaction through with an environment that replies from a state. -/
def run (answer : C → σ → A × σ) : Interaction C A α → σ → Option (α × σ)
  | .done a, s => some (a, s)
  | .call c k, s => run answer (k (answer c s).1) (answer c s).2
  | .crash, _ => none

/-- Carry an interaction through with the given replies. -/
def play (respond : σ → C → A → Option σ) : Interaction C A α → σ → List A → Option (α × σ × List (C × A))
  | .done a, s, [] => some (a, s, [])
  | .call c k, s, r :: rs =>
    match respond s c r with
    | some s' => (play respond (k r) s' rs).map fun (a, s'', log) => (a, s'', (c, r) :: log)
    | none => none
  | .done _, _, _ :: _ => none
  | .call _ _, _, [] => none
  | .crash, _, _ => none

/-- `Q` holds at the end, whatever the replies. -/
def Ensures (respond : σ → C → A → Option σ) :
    Interaction C A α → (α → σ → List (C × A) → Prop) → σ → Prop
  | .done a, Q, s => Q a s []
  | .call c k, Q, s => ∀ r s', respond s c r = some s' →
      Ensures respond (k r) (fun a s'' log => Q a s'' ((c, r) :: log)) s'
  | .crash, _, _ => True

/-- Every call that is made satisfies `P`, whatever the replies. -/
def Only (P : C → Prop) : Interaction C A α → Prop
  | .done _ => True
  | .call c k => P c ∧ ∀ r, Only P (k r)
  | .crash => True

/-- The interaction does not crash, whatever the replies. -/
def Safe : Interaction C A α → Prop
  | .done _ => True
  | .call _ k => ∀ r, Safe (k r)
  | .crash => False

variable {respond : σ → C → A → Option σ} {p : Interaction C A α} {s : σ}
  {Q Q' : α → σ → List (C × A) → Prop}

@[simp] theorem ensures_done {a : α} : Ensures respond (.done a) Q s ↔ Q a s [] := Iff.rfl

@[simp] theorem ensures_crash : Ensures respond (.crash : Interaction C A α) Q s ↔ True := Iff.rfl

@[simp] theorem ensures_call {c : C} {k : A → Interaction C A α} : Ensures respond (.call c k) Q s ↔
    ∀ r s', respond s c r = some s' → Ensures respond (k r) (fun a s'' log => Q a s'' ((c, r) :: log)) s' := Iff.rfl

@[simp] theorem ensures_ite {c : Prop} [Decidable c] {q : Interaction C A α} :
    Ensures respond (if c then p else q) Q s ↔ (c → Ensures respond p Q s) ∧ (¬ c → Ensures respond q Q s) := by
  split <;> simp_all

@[simp] theorem only_done {P : C → Prop} {a : α} : (.done a : Interaction C A α).Only P ↔ True := Iff.rfl

@[simp] theorem only_call {P : C → Prop} {c : C} {k : A → Interaction C A α} :
    (.call c k : Interaction C A α).Only P ↔ P c ∧ ∀ r, (k r).Only P := Iff.rfl

@[simp] theorem only_ite {P : C → Prop} {c : Prop} [Decidable c] {q : Interaction C A α} :
    (if c then p else q).Only P ↔ (c → p.Only P) ∧ (¬ c → q.Only P) := by
  split <;> simp_all

@[simp] theorem safe_done {a : α} : (.done a : Interaction C A α).Safe ↔ True := Iff.rfl

@[simp] theorem safe_call {c : C} {k : A → Interaction C A α} :
    (.call c k : Interaction C A α).Safe ↔ ∀ r, (k r).Safe := Iff.rfl

@[simp] theorem safe_ite {c : Prop} [Decidable c] {q : Interaction C A α} :
    (if c then p else q).Safe ↔ (c → p.Safe) ∧ (¬ c → q.Safe) := by
  split <;> simp_all

theorem Only.mono {P P' : C → Prop} (h : p.Only P) (hP : ∀ c, P c → P' c) : p.Only P' := by
  induction p with
  | done a => trivial
  | call c k ih => exact ⟨hP c h.1, fun r => ih r (h.2 r)⟩
  | crash => trivial

theorem Only.bind {P : C → Prop} {f : α → Interaction C A β} (h : p.Only P) (hf : ∀ a, (f a).Only P) :
    (p.bind f).Only P := by
  induction p with
  | done a => exact hf a
  | call c k ih => exact ⟨h.1, fun r => ih r (h.2 r)⟩
  | crash => trivial

theorem Ensures.mono (h : Ensures respond p Q s) (hQ : ∀ a s log, Q a s log → Q' a s log) :
    Ensures respond p Q' s := by
  induction p generalizing Q Q' s with
  | done a => exact hQ _ _ _ h
  | call c k ih => exact fun r s' hs => ih r (h r s' hs) fun a s log => hQ a s _
  | crash => trivial

theorem Ensures.bind {f : α → Interaction C A β} {Q : β → σ → List (C × A) → Prop}
    (h : Ensures respond p (fun a s' log => Ensures respond (f a) (fun b s'' log' => Q b s'' (log ++ log')) s') s) :
    Ensures respond (p.bind f) Q s := by
  induction p generalizing Q s with
  | done a => exact h
  | call c k ih => exact fun r s' hs => ih r (h r s' hs)
  | crash => trivial

theorem Ensures.of_play (h : Ensures respond p Q s) {rs : List A} {a : α} {s' : σ} {log : List (C × A)}
    (hplay : p.play respond s rs = some (a, s', log)) : Q a s' log := by
  induction p generalizing Q s rs log with
  | done b =>
    cases rs with
    | nil =>
      cases hplay
      exact h
    | cons r rs => cases hplay
  | call c k ih =>
    cases rs with
    | nil => cases hplay
    | cons r rs =>
      simp only [play] at hplay
      split at hplay
      · rename_i s₁ hs
        obtain ⟨⟨b, s₂, log'⟩, hrest, heq⟩ := Option.map_eq_some_iff.1 hplay
        cases heq
        exact ih r (h r s₁ hs) hrest
      · cases hplay
  | crash => cases hplay

/-- The same when something is made of the outcome. -/
theorem Ensures.of_map_play (h : Ensures respond p Q s) {rs : List A} {f : α × σ × List (C × A) → β} {b : β}
    (hplay : (p.play respond s rs).map f = some b) : ∃ a s' log, Q a s' log ∧ f (a, s', log) = b := by
  obtain ⟨⟨a, s', log⟩, hplay, hb⟩ := Option.map_eq_some_iff.1 hplay
  exact ⟨a, s', log, h.of_play hplay, hb⟩

end Interaction
