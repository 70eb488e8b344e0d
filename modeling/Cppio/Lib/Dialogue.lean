import Mathlib.Data.List.Basic

/-!
# Dialogues with a stream

A dialogue is a computation that asks its environment for elements of a stream, `n` at most at a time, and goes on
with the answer.  `run` answers from a state, and `answers` lists the answers given.  `Reads chunk fits p xs a` says
that `p` takes exactly the elements `xs`, in whatever chunks they come (each non-empty, within what was asked for and
with the property `fits`), and is then done with `a`; at no point does it ask for more than what is left of `xs`.

Loops that collect `len` elements and then go on are handled by `Reads.gather`, and `Reads.run` carries a dialogue
through with an environment that delivers a stream in chunks of its own choice.
-/

inductive Dialogue (A α : Type) where
  | done (a : α)
  | ask (n : Nat) (k : A → Dialogue A α)

namespace Dialogue

variable {A α β σ ε : Type}

def bind (p : Dialogue A α) (f : α → Dialogue A β) : Dialogue A β :=
  match p with
  | .done a => f a
  | .ask n k => .ask n fun x => (k x).bind f

/-- Carry a dialogue through with an environment that answers from a state. -/
def run (answer : Nat → σ → A × σ) : Dialogue A α → σ → α × σ
  | .done a, s => (a, s)
  | .ask n k, s => run answer (k (answer n s).1) (answer n s).2

/-- The answers a dialogue is given while it is carried through. -/
def answers (answer : Nat → σ → A × σ) : Dialogue A α → σ → List A
  | .done _, _ => []
  | .ask n k, s => (answer n s).1 :: answers answer (k (answer n s).1) (answer n s).2

theorem run_bind (answer : Nat → σ → A × σ) (f : α → Dialogue A β) (p : Dialogue A α) : ∀ s,
    (p.bind f).run answer s = (f (p.run answer s).1).run answer (p.run answer s).2 := by
  induction p with
  | done a => exact fun s => rfl
  | ask n k ih => exact fun s => ih _ _

theorem answers_bind (answer : Nat → σ → A × σ) (f : α → Dialogue A β) (p : Dialogue A α) : ∀ s,
    (p.bind f).answers answer s =
      p.answers answer s ++ (f (p.run answer s).1).answers answer (p.run answer s).2 := by
  induction p with
  | done a => exact fun s => rfl
  | ask n k ih => exact fun s => congrArg _ (ih _ _)

/-- `p` takes exactly the elements `xs`, in any chunks, and is then done with `a`. -/
def Reads (chunk : List ε → A) (fits : List ε → Prop) (p : Dialogue A α) (xs : List ε) (a : α) : Prop :=
  match p with
  | .done b => xs = [] ∧ b = a
  | .ask n k => 0 < n ∧ n ≤ xs.length ∧ ∀ ys zs, xs = ys ++ zs → ys ≠ [] → ys.length ≤ n → fits ys →
      Reads chunk fits (k (chunk ys)) zs a

variable {chunk : List ε → A} {fits : List ε → Prop} {p : Dialogue A α} {xs : List ε} {a : α}

theorem Reads.done : Reads chunk fits (.done a) [] a := ⟨rfl, rfl⟩

theorem Reads.ask_pos {n : Nat} {k : A → Dialogue A α} (h : Reads chunk fits (.ask n k) xs a) : 0 < n := h.1

theorem Reads.ask_le {n : Nat} {k : A → Dialogue A α} (h : Reads chunk fits (.ask n k) xs a) : n ≤ xs.length := h.2.1

theorem Reads.next {n : Nat} {k : A → Dialogue A α} {ys zs : List ε} (h : Reads chunk fits (.ask n k) (ys ++ zs) a)
    (hne : ys ≠ []) (hle : ys.length ≤ n) (hfit : fits ys) : Reads chunk fits (k (chunk ys)) zs a :=
  h.2.2 ys zs rfl hne hle hfit

/-- A loop that asks for what is missing of `len` elements and, when it has them, goes on as `K`. -/
theorem Reads.gather {len : Nat} {p K : List ε → Dialogue A α}
    (hask : ∀ got, got.length < len → ∃ k, p got = .ask (len - got.length) k ∧
      ∀ ys, ys ≠ [] → ys.length ≤ len - got.length → fits ys → k (chunk ys) = p (got ++ ys))
    (hgo : ∀ got, got.length = len → p got = K got) {xs zs : List ε} (hlen : xs.length = len)
    (h : Reads chunk fits (K xs) zs a) : Reads chunk fits (p []) (xs ++ zs) a := by
  -- the induction is on what is still missing, with the elements split into those taken and the rest
  suffices hloop : ∀ m got todo, todo.length = m → xs = got ++ todo → Reads chunk fits (p got) (todo ++ zs) a from
    hloop xs.length [] xs rfl rfl
  intro m
  induction m using Nat.strongRecOn with
  | ind m ih =>
    intro got todo hm hxs
    have hcount : got.length + todo.length = len := by rw [← hlen, hxs, List.length_append]
    rcases Nat.lt_or_eq_of_le (Nat.le.intro hcount) with hlt | heq
    · obtain ⟨k, hk, hnext⟩ := hask got hlt
      rw [hk]
      refine ⟨by omega, by rw [List.length_append]; omega, fun ys rest hsplit hne hle hfit => ?_⟩
      rw [hnext ys hne hle hfit]
      have hpre : ys <+: todo :=
        List.prefix_of_prefix_length_le ⟨rest, hsplit.symm⟩ (List.prefix_append _ _) (by omega)
      obtain ⟨todo', rfl⟩ := hpre
      rw [List.append_assoc, List.append_cancel_left_eq] at hsplit
      rw [← hsplit]
      have hpos := List.length_pos_iff.2 hne
      rw [List.length_append] at hm
      exact ih todo'.length (by omega) (got ++ ys) todo' rfl (by rw [hxs, List.append_assoc])
    · obtain rfl := List.length_eq_zero_iff.1 (show todo.length = 0 by omega)
      rw [List.append_nil] at hxs
      rw [hgo got heq, ← hxs]
      exact h

/-! ### Sources -/

/-- An environment that gives out the stream `pending` in order, in chunks of any size it likes. -/
def Delivers (chunk : List ε → A) (answer : Nat → σ → A × σ) (pending : σ → List ε) : Prop :=
  ∀ n s, 0 < n → pending s ≠ [] → ∃ ys, ys ≠ [] ∧ ys.length ≤ n ∧ (answer n s).1 = chunk ys ∧
    pending s = ys ++ pending (answer n s).2

/-- A dialogue carried through with a source takes its elements off the front of the stream and leaves the rest. -/
theorem Reads.run {answer : Nat → σ → A × σ} {pending : σ → List ε} (hsrc : Delivers chunk answer pending)
    (p : Dialogue A α) : ∀ {xs rest s}, Reads chunk fits p xs a →
      (∀ ys, ys ≠ [] → ys.length ≤ xs.length → fits ys) → pending s = xs ++ rest →
      (p.run answer s).1 = a ∧ pending (p.run answer s).2 = rest := by
  induction p with
  | done b =>
    intro xs rest s h _ hs
    obtain ⟨rfl, rfl⟩ := h
    exact ⟨rfl, hs⟩
  | ask n k ih =>
    intro xs rest s h hfits hs
    have hle := h.ask_le
    have hne : pending s ≠ [] := by
      rw [hs]
      exact List.append_ne_nil_of_left_ne_nil (List.length_pos_iff.1 (Nat.lt_of_lt_of_le h.ask_pos hle)) _
    obtain ⟨ys, hys, hyn, hans, hsplit⟩ := hsrc n s h.ask_pos hne
    have hpre : ys <+: xs :=
      List.prefix_of_prefix_length_le ⟨_, hsplit.symm⟩ (by rw [hs]; exact List.prefix_append _ _) (by omega)
    obtain ⟨zs, rfl⟩ := hpre
    rw [hs, List.append_assoc, List.append_cancel_left_eq] at hsplit
    rw [List.length_append] at hle hfits
    rw [Dialogue.run]
    refine ih _ ?_ (fun ws hne hws => hfits ws hne (by omega)) hsplit.symm
    rw [hans]
    exact h.next hys hyn (hfits ys hys (by omega))

end Dialogue
