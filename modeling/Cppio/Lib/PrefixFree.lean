import Mathlib.Data.List.Basic

/-!
# Prefix-free codes

A code gives a non-empty word to every `a` with the property `P`, and no word is a prefix of another.  A stream is the
words of a list of such `a`, one behind the other.  It can be taken apart in one way only (`PrefixFree.eq_of_append`):
what it starts with, a list of words or a part of one, is that of a prefix of the list (`isPrefix_of_append`,
`isPrefix_iff`).
-/

variable {α β : Type} {encode : α → List β} {P : α → Prop}

structure PrefixFree (encode : α → List β) (P : α → Prop) : Prop where
  ne_nil : ∀ a, P a → encode a ≠ []
  eq_of_isPrefix : ∀ a b, P a → P b → encode a <+: encode b → a = b

namespace PrefixFree

/-- The elements start with a word. -/
def HasWord (encode : α → List β) (P : α → Prop) (xs : List β) : Prop := ∃ a, P a ∧ encode a <+: xs

theorem not_hasWord_nil (h : PrefixFree encode P) : ¬ HasWord encode P [] := by
  rintro ⟨a, ha, hpre⟩
  exact h.ne_nil a ha (List.prefix_nil.1 hpre)

theorem eq_of_append (h : PrefixFree encode P) {a b : α} (ha : P a) (hb : P b) {xs ys : List β}
    (heq : encode a ++ xs = encode b ++ ys) : a = b ∧ xs = ys := by
  have hab : a = b := by
    have hpa : encode a <+: encode b ++ ys := ⟨xs, heq⟩
    have hpb : encode b <+: encode b ++ ys := List.prefix_append _ _
    rcases Nat.le_total (encode a).length (encode b).length with hle | hle
    · exact h.eq_of_isPrefix a b ha hb (List.prefix_of_prefix_length_le hpa hpb hle)
    · exact (h.eq_of_isPrefix b a hb ha (List.prefix_of_prefix_length_le hpb hpa hle)).symm
  subst hab
  exact ⟨rfl, List.append_cancel_left heq⟩

/-- A stream that ends within a word holds no more words than those before it. -/
theorem isPrefix_of_append (h : PrefixFree encode P) {as bs : List α} (has : ∀ a ∈ as, P a) (hbs : ∀ b ∈ bs, P b)
    {rest : List β} (hrest : ¬ HasWord encode P rest)
    (hpre : bs.flatMap encode <+: as.flatMap encode ++ rest) : bs <+: as := by
  induction bs generalizing as with
  | nil => exact List.nil_prefix
  | cons b bs ih =>
    obtain ⟨more, hmore⟩ := hpre
    rw [List.flatMap_cons, List.append_assoc] at hmore
    cases as with
    | nil =>
      rw [List.flatMap_nil, List.nil_append] at hmore
      exact absurd ⟨b, hbs b (List.mem_cons_self ..), _, hmore⟩ hrest
    | cons a as =>
      rw [List.flatMap_cons, List.append_assoc] at hmore
      obtain ⟨rfl, hlater⟩ := h.eq_of_append (hbs b (List.mem_cons_self ..)) (has a (List.mem_cons_self ..)) hmore
      exact List.cons_prefix_cons.2 ⟨rfl, ih (fun a ha => has a (List.mem_cons_of_mem _ ha))
        (fun b hb => hbs b (List.mem_cons_of_mem _ hb)) ⟨more, hlater⟩⟩

theorem flatMap_isPrefix {as bs : List α} (h : bs <+: as) (encode : α → List β) :
    bs.flatMap encode <+: as.flatMap encode := by
  obtain ⟨more, rfl⟩ := h
  rw [List.flatMap_append]
  exact List.prefix_append _ _

theorem isPrefix_iff (h : PrefixFree encode P) {as bs : List α} (has : ∀ a ∈ as, P a) (hbs : ∀ b ∈ bs, P b) :
    bs.flatMap encode <+: as.flatMap encode ↔ bs <+: as := by
  refine ⟨fun hpre => h.isPrefix_of_append has hbs h.not_hasWord_nil ?_, fun hpre => flatMap_isPrefix hpre encode⟩
  rwa [List.append_nil]

end PrefixFree
