/-
Lexical normalization of paths: a path is split at the separator; empty segments and `.` are dropped, and `..` takes
back the segment before it. At the start of an absolute path `..` is dropped; at the start of a relative one it stays.
Nothing is looked up in a file system.

A normalized path `LexPath` carries what makes it normal: no segment is empty or `.`, and in an absolute path none is
`..`.

- `infix_of_mem_splitOn`: a segment is a contiguous part of the path.
- `foldl_enter_plain`: segments without `..` are appended, as far as they are proper.
- `within_append`, `within_append_sep`: what follows a path and a separator, and has no segment `..`, stays within the
  path.
-/
import Mathlib.Tactic

namespace Gss.Core

variable {α : Type*} [DecidableEq α]

/-- what a normalized path keeps -/
structure Proper (dot : α) (absolute : Bool) (st : List (List α)) : Prop where
  proper : ∀ s ∈ st, s ≠ [] ∧ s ≠ [dot]
  rooted : absolute = true → [dot, dot] ∉ st

/-- a normalized path -/
structure LexPath (dot : α) where
  /-- it starts at the root -/
  absolute : Bool
  segs : List (List α)
  normal : Proper dot absolute segs

/-- p lies within root: the segments of root are the first ones of p -/
def LexPath.Within {dot : α} (root p : LexPath dot) : Prop := p.absolute = root.absolute ∧ root.segs <+: p.segs

/-- the segments after one more segment -/
def enter (dot : α) (absolute : Bool) (st : List (List α)) (seg : List α) : List (List α) :=
  if seg = [] ∨ seg = [dot] then st
  else if seg = [dot, dot] then
    match st.getLast? with
    | none => if absolute then [] else [seg]
    | some last => if last = seg then st ++ [seg] else st.dropLast
  else st ++ [seg]

/-- the segments of a path -/
def lexSegs (sep dot : α) (absolute : Bool) (p : List α) : List (List α) :=
  (p.splitOn sep).foldl (enter dot absolute) []

section Normal

variable {dot : α} {absolute : Bool}

omit [DecidableEq α] in
theorem proper_nil : Proper dot absolute ([] : List (List α)) := ⟨by simp, by simp⟩

omit [DecidableEq α] in
theorem proper_snoc {st : List (List α)} (h : Proper dot absolute st) {seg : List α} (h1 : seg ≠ [])
    (h2 : seg ≠ [dot]) (h3 : absolute = true → seg ≠ [dot, dot]) : Proper dot absolute (st ++ [seg]) := by
  refine ⟨?_, ?_⟩
  · intro s hs
    rcases List.mem_append.1 hs with hs | hs
    · exact h.proper s hs
    · rw [List.mem_singleton.1 hs]
      exact ⟨h1, h2⟩
  · intro ha hs
    rcases List.mem_append.1 hs with hs | hs
    · exact h.rooted ha hs
    · exact h3 ha (List.mem_singleton.1 hs).symm

theorem enter_proper {st : List (List α)} (h : Proper dot absolute st) (seg : List α) :
    Proper dot absolute (enter dot absolute st seg) := by
  unfold enter
  split
  · exact h
  rename_i h1
  rw [not_or] at h1
  split
  · rename_i h2
    split
    · split
      · exact proper_nil
      · rename_i ha
        exact proper_snoc proper_nil h1.1 h1.2 fun hab => absurd hab ha
    · rename_i last hl
      split
      · -- the last segment is a `..` already, so the path is relative
        rename_i hlast
        refine proper_snoc h h1.1 h1.2 fun hab => ?_
        have hm := List.mem_of_getLast? hl
        rw [hlast, h2] at hm
        exact absurd hm (h.rooted hab)
      · exact ⟨fun s hs => h.proper s (List.dropLast_subset st hs),
          fun hab hs => h.rooted hab (List.dropLast_subset st hs)⟩
  · rename_i h2
    exact proper_snoc h h1.1 h1.2 fun _ => h2

theorem foldl_enter_proper (l : List (List α)) {st : List (List α)} (h : Proper dot absolute st) :
    Proper dot absolute (l.foldl (enter dot absolute) st) := by
  induction l generalizing st with
  | nil => exact h
  | cons s l ih => exact ih (enter_proper h s)

/-- **Without `..` nothing is taken back.** -/
theorem foldl_enter_plain {l : List (List α)} (hl : [dot, dot] ∉ l) (st : List (List α)) :
    l.foldl (enter dot absolute) st = st ++ l.filter fun s => s ≠ [] ∧ s ≠ [dot] := by
  induction l generalizing st with
  | nil => simp
  | cons s l ih =>
    rw [List.mem_cons, not_or] at hl
    have hs : enter dot absolute st s = st ++ [s].filter fun s => s ≠ [] ∧ s ≠ [dot] := by
      unfold enter
      by_cases h1 : s = [] ∨ s = [dot]
      · rw [if_pos h1]
        rcases h1 with rfl | rfl <;> simp
      · rw [if_neg h1, if_neg (Ne.symm hl.1)]
        rw [not_or] at h1
        simp [h1]
    calc (s :: l).foldl (enter dot absolute) st
        = (st ++ [s].filter fun s => s ≠ [] ∧ s ≠ [dot]) ++ l.filter fun s => s ≠ [] ∧ s ≠ [dot] := by
          rw [List.foldl_cons, hs, ih hl.2]
      _ = st ++ (s :: l).filter fun s => s ≠ [] ∧ s ≠ [dot] := by
          rw [List.append_assoc, ← List.filter_append, List.singleton_append]

end Normal

/-- a path, normalized -/
def lexNormal (sep dot : α) (p : List α) : LexPath dot :=
  ⟨decide (p.head? = some sep), lexSegs sep dot (decide (p.head? = some sep)) p, foldl_enter_proper _ proper_nil⟩

/-! ## Paths within a path -/

/-- a segment is a contiguous part of the path -/
theorem infix_of_mem_splitOn {sep : α} {l s : List α} (hs : s ∈ l.splitOn sep) : s <:+: l := by
  -- the first segment is moreover a prefix, which carries the induction
  have h : ∃ t ts, l.splitOn sep = t :: ts ∧ t <+: l ∧ ∀ u ∈ ts, u <:+: l := by
    clear hs s
    induction l with
    | nil => exact ⟨[], [], rfl, List.prefix_refl _, by simp⟩
    | cons x l ih =>
      obtain ⟨t, ts, he, ht, hts⟩ := ih
      rw [List.splitOn_cons_eq_if_modifyHead, he]
      split_ifs
      · refine ⟨[], t :: ts, rfl, List.nil_prefix, ?_⟩
        intro u hu
        rcases List.mem_cons.1 hu with rfl | hu
        · exact ht.isInfix.trans (List.suffix_cons x l).isInfix
        · exact (hts u hu).trans (List.suffix_cons x l).isInfix
      · refine ⟨x :: t, ts, rfl, (List.prefix_cons_inj x).2 ht, ?_⟩
        intro u hu
        exact (hts u hu).trans (List.suffix_cons x l).isInfix
  obtain ⟨t, ts, he, ht, hts⟩ := h
  rw [he] at hs
  rcases List.mem_cons.1 hs with rfl | hs
  · exact ht.isInfix
  · exact hts s hs

section Within

variable {sep dot : α}

theorem lexSegs_append (absolute : Bool) (a b : List α) :
    lexSegs sep dot absolute (a ++ sep :: b) =
      (b.splitOn sep).foldl (enter dot absolute) (lexSegs sep dot absolute a) := by
  rw [lexSegs, List.splitOn_append_cons_self, List.foldl_append, lexSegs]

/-- a separator at the end makes no difference -/
theorem lexSegs_sep (absolute : Bool) (a : List α) :
    lexSegs sep dot absolute (a ++ [sep]) = lexSegs sep dot absolute a := by
  rw [lexSegs_append]
  simp [enter]

theorem within_of_segs {root p : List α} (hh : p.head? = root.head?)
    (hs : ∀ absolute, lexSegs sep dot absolute root <+: lexSegs sep dot absolute p) :
    (lexNormal sep dot root).Within (lexNormal sep dot p) := by
  refine ⟨?_, ?_⟩
  · simp only [lexNormal, hh]
  · simp only [lexNormal, hh]
    exact hs _

/-- **What follows a path and a separator stays within the path** when none of its segments is `..`. -/
theorem within_append {a b : List α} (ha : a ≠ []) (hb : [dot, dot] ∉ b.splitOn sep) :
    (lexNormal sep dot a).Within (lexNormal sep dot (a ++ sep :: b)) := by
  apply within_of_segs
  · cases a with
    | nil => exact absurd rfl ha
    | cons x a => rfl
  · intro absolute
    rw [lexSegs_append, foldl_enter_plain hb]
    exact List.prefix_append _ _

/-- the same for a path that ends with the separator; the path may be the root -/
theorem within_append_sep (a : List α) {b : List α} (hb : [dot, dot] ∉ b.splitOn sep) :
    (lexNormal sep dot (a ++ [sep])).Within (lexNormal sep dot (a ++ sep :: b)) := by
  apply within_of_segs
  · cases a <;> rfl
  · intro absolute
    rw [lexSegs_sep, lexSegs_append, foldl_enter_plain hb]
    exact List.prefix_append _ _

end Within

end Gss.Core
