/-
Ordered choice: a search that tries its alternatives in ascending order and stops at the first success.

An alternative is a word, which says what was chosen at each step, with an outcome. Words over ordered letters are
compared lexicographically. `Best R S r` says what such a search over the alternatives `S` has to return: nothing when
there is none, and otherwise a result that realizes (`R`) the outcome of the least word.

- `nil_le_word`, `cons_le_word`, `cons_lt_word`: how words that start alike or differently compare.
- `Best.left`: a success in the first of two groups of alternatives.
- `Best.image`: alternatives that all start with one more choice.
-/
import Mathlib.Tactic

namespace Gss.Core

/-! ## Words -/

section Words

variable {Λ : Type*} [LinearOrder Λ]

theorem nil_le_word (w : List Λ) : [] ≤ w := by
  cases w with
  | nil => exact le_rfl
  | cons a w => exact le_of_lt (List.Lex.nil (r := (· < ·)))

theorem cons_lt_word {a b : Λ} (h : a < b) (w w' : List Λ) : a :: w < b :: w' := List.Lex.rel h

theorem cons_le_word (a : Λ) {w w' : List Λ} (h : w ≤ w') : a :: w ≤ a :: w' := by
  rcases h.eq_or_lt with rfl | h
  · exact le_rfl
  · exact le_of_lt (List.Lex.cons h)

end Words

/-! ## The best alternative -/

variable {W W' α α' β β' : Type*} [LinearOrder W] [LinearOrder W']

/-- r realizes the outcome of the least word of S, or there is none -/
def Best (R : β → α → Prop) (S : Set (W × α)) : Option β → Prop
  | none => S = ∅
  | some b => ∃ w a, (w, a) ∈ S ∧ R b a ∧ ∀ x ∈ S, w ≤ x.1

section Best

variable {R : β → α → Prop} {S T : Set (W × α)}

theorem Best.mono {R' : β → α → Prop} {b : β} (h : Best R S (some b)) (hR : ∀ a, R b a → R' b a) :
    Best R' S (some b) := by
  obtain ⟨w, a, hm, hr, hl⟩ := h
  exact ⟨w, a, hm, hR a hr, hl⟩

/-- a success among the first alternatives is the best of all -/
theorem Best.left {b : β} (h : Best R S (some b)) (hlt : ∀ x ∈ S, ∀ y ∈ T, x.1 ≤ y.1) :
    Best R (S ∪ T) (some b) := by
  obtain ⟨w, a, hm, hr, hl⟩ := h
  refine ⟨w, a, Or.inl hm, hr, ?_⟩
  rintro x (hx | hx)
  · exact hl x hx
  · exact hlt _ hm x hx

/-- the alternatives after one more choice -/
theorem Best.image {r : Option β} (h : Best R S r) {f : W → W'} (hf : Monotone f) {g : α → α'} {k : β → β'}
    {R' : β' → α' → Prop} (hR : ∀ b, r = some b → ∀ a, R b a → R' (k b) (g a)) :
    Best R' ((fun x : W × α => (f x.1, g x.2)) '' S) (r.map k) := by
  cases r with
  | none =>
    have hS : S = ∅ := h
    rw [hS, Set.image_empty]
    rfl
  | some b =>
    obtain ⟨w, a, hm, hr, hl⟩ := h
    refine ⟨f w, g a, ⟨_, hm, rfl⟩, hR b rfl a hr, ?_⟩
    rintro _ ⟨x, hx, rfl⟩
    exact hf (hl x hx)

end Best

end Gss.Core
