/-
Segment templates and path templates (router/detail/impl/router.cpp): segment_template, its comparison operators, and
the rules that parse the text of a route.

A template is a literal or a replacement field `{id}` with an optional modifier; the structure carries that a literal
has no modifier and that a field's text stands in braces. What Boost.URL does is a parameter `Url`: the decoding of a
segment, whether a text between braces is an identifier with a modifier, and the rule for a literal segment.

- `same_iff`, `lt_iff`: operator== and operator< compare what the template accepts (`elem`), not the field's name. The
  order is by kind: literal, {id}, {id?}, {id*}, {id+}; the comment at operator< has the last two the other way round.
- `rangeRule_fuel`: the loop of the path rule ends before its fuel does.
- `parsePath_iff`: a text is accepted when each of its parts between the slashes is a template.
-/
import Gss.Core.Trie
import Gss.Server.Json

namespace Gss.Router

open Gss.Core

/-! ## Boost.URL -/

/-- the parts of Boost.URL that the router calls -/
structure Url where
  /-- operator* of pct_string_view: the segment without its escapes -/
  decode : Bytes → Bytes
  /-- grammar::parse(s, id_rule) succeeds -/
  idRule : Bytes → Bool
  /-- segment_rule on the front of a text: the decoded segment, and the rest; none for a malformed escape -/
  segmentRule : Bytes → Option (Bytes × Bytes)
  /-- a rule advances -/
  advances : ∀ it d rest, segmentRule it = some (d, rest) → rest.length ≤ it.length

def slash : UInt8 := 47

/-- Boost.URL on texts without escapes -/
def Url.unescaped : Url where
  decode s := s
  idRule s := s.all fun c => c.toNat ∈ [63, 42, 43, 95] ∨ 48 ≤ c ∧ c ≤ 57 ∨ 65 ≤ c ∧ c ≤ 90 ∨ 97 ≤ c ∧ c ≤ 122
  segmentRule it := some (it.takeWhile (· ≠ slash), it.dropWhile (· ≠ slash))
  advances it d rest h := by
    cases h
    exact (List.dropWhile_suffix _).length_le

/-! ## Model -/

def lbrace : UInt8 := 123

def rbrace : UInt8 := 125

/-- segment_template::modifier -/
inductive Modifier where
  | none
  | optional
  | star
  | plus
deriving DecidableEq, Repr

def Modifier.toNat : Modifier → ℕ
  | none => 0
  | optional => 1
  | star => 2
  | plus => 3

structure SegmentTemplate where
  /-- str_ -/
  str : Bytes
  /-- is_literal_ -/
  isLiteral : Bool
  /-- modifier_ -/
  modifier : Modifier
  plain : isLiteral = true → modifier = .none
  braced : isLiteral = false → ∃ s, str = lbrace :: s ++ [rbrace]
deriving DecidableEq, Repr

namespace SegmentTemplate

/-- a literal segment -/
def literal (str : Bytes) : SegmentTemplate := ⟨str, true, .none, fun _ => rfl, fun h => (by cases h)⟩

/-- the modifier at the end of the text between the braces -/
def modifierOf (s : Bytes) : Modifier :=
  if s.getLast? = some 63 then .optional
  else if s.getLast? = some 42 then .star
  else if s.getLast? = some 43 then .plus
  else .none

/-- a replacement field with s between the braces -/
def field (s : Bytes) : SegmentTemplate :=
  ⟨lbrace :: s ++ [rbrace], false, modifierOf s, fun h => (by cases h), fun _ => ⟨s, rfl⟩⟩

/-- id(), on a field: the text between the braces, without a modifier -/
def id (t : SegmentTemplate) : Bytes :=
  let r := t.str.tail.dropLast
  if r.getLast? = some 63 ∨ r.getLast? = some 43 ∨ r.getLast? = some 42 then r.dropLast else r

def hasModifier (t : SegmentTemplate) : Bool := !t.isLiteral && t.modifier ≠ .none

def isOptional (t : SegmentTemplate) : Bool := t.modifier = .optional

def isStar (t : SegmentTemplate) : Bool := t.modifier = .star

def isPlus (t : SegmentTemplate) : Bool := t.modifier = .plus

/-- operator== -/
def same (a b : SegmentTemplate) : Bool :=
  if a.isLiteral ≠ b.isLiteral then false
  else if a.isLiteral then a.str = b.str
  else a.modifier = b.modifier

/-- operator<: the enum has star before plus; the list in the comment on operator< has them the other way round -/
def lt (a b : SegmentTemplate) : Bool :=
  if b.isLiteral then false
  else if a.isLiteral then !b.isLiteral
  else a.modifier.toNat < b.modifier.toNat

/-- match(seg) -/
def matchSeg (u : Url) (t : SegmentTemplate) (seg : Bytes) : Bool := if t.isLiteral then u.decode seg = t.str else true

/-! ## What a template accepts -/

def elem (t : SegmentTemplate) : Elem Bytes :=
  if t.isLiteral then .lit t.str
  else
    match t.modifier with
    | .none => .one
    | .optional => .opt
    | .star => .star
    | .plus => .plus

/-- a segment fits a literal when it decodes to it -/
def Fits (u : Url) (l seg : Bytes) : Prop := u.decode seg = l

variable {t a b : SegmentTemplate}

theorem isField_elem (t : SegmentTemplate) : t.elem.isField = !t.isLiteral := by
  unfold elem
  cases t.isLiteral <;> cases t.modifier <;> rfl

theorem elem_of_literal (h : t.isLiteral = true) : t.elem = .lit t.str := if_pos h

theorem elem_of_field (h : t.isLiteral = false) : t.elem =
    match t.modifier with
    | .none => .one
    | .optional => .opt
    | .star => .star
    | .plus => .plus := if_neg (by simp [h])

theorem rank_of_field (h : t.isLiteral = false) : t.elem.rank = t.modifier.toNat + 1 := by
  rw [elem_of_field h]
  cases t.modifier <;> rfl

/-- **operator==**: two fields are equal when their modifiers are, whatever their names. -/
theorem same_iff : a.same b = true ↔ a.elem = b.elem := by
  unfold same
  cases ha : a.isLiteral <;> cases hb : b.isLiteral
  · rw [elem_of_field ha, elem_of_field hb]
    cases a.modifier <;> cases b.modifier <;> simp
  · rw [elem_of_field ha, elem_of_literal hb]
    cases a.modifier <;> simp
  · rw [elem_of_literal ha, elem_of_field hb]
    cases b.modifier <;> simp
  · simp [elem_of_literal ha, elem_of_literal hb]

/-- **operator<** compares the kinds. -/
theorem lt_iff : a.lt b = true ↔ a.elem.rank < b.elem.rank := by
  unfold lt
  cases ha : a.isLiteral <;> cases hb : b.isLiteral
  · rw [rank_of_field ha, rank_of_field hb]
    simp
  · simp [elem_of_literal hb, Elem.rank]
  · rw [elem_of_literal ha, rank_of_field hb]
    simp [Elem.rank]
  · simp [elem_of_literal hb, Elem.rank]

theorem isOptional_iff : t.isOptional = true ↔ t.elem = .opt := by
  cases h : t.isLiteral
  · rw [elem_of_field h, isOptional]
    cases t.modifier <;> simp
  · simp [elem_of_literal h, isOptional, t.plain h]

theorem isStar_iff : t.isStar = true ↔ t.elem = .star := by
  cases h : t.isLiteral
  · rw [elem_of_field h, isStar]
    cases t.modifier <;> simp
  · simp [elem_of_literal h, isStar, t.plain h]

theorem isPlus_iff : t.isPlus = true ↔ t.elem = .plus := by
  cases h : t.isLiteral
  · rw [elem_of_field h, isPlus]
    cases t.modifier <;> simp
  · simp [elem_of_literal h, isPlus, t.plain h]

/-- a field without a modifier takes one segment -/
theorem hasModifier_iff (h : t.isLiteral = false) : t.hasModifier = true ↔ t.elem ≠ .one := by
  rw [elem_of_field h, hasModifier, h]
  cases t.modifier <;> simp

theorem matchSeg_iff (u : Url) (t : SegmentTemplate) (seg : Bytes) :
    t.matchSeg u seg = true ↔ t.isLiteral = true → Fits u t.str seg := by
  unfold matchSeg
  split_ifs with h <;> simp [h, Fits]

theorem isLiteral_of_lit {l : Bytes} (h : t.elem = .lit l) : t.isLiteral = true := by
  have hf := isField_elem t
  rw [h, Elem.isField, eq_comm] at hf
  simpa using hf

theorem isLiteral_of_field (h : t.elem.isField = true) : t.isLiteral = false := by
  rw [isField_elem] at h
  simpa using h

theorem matchSeg_lit {l : Bytes} (h : t.elem = .lit l) (u : Url) (seg : Bytes) :
    t.matchSeg u seg = true ↔ u.decode seg = l := by
  have hl := isLiteral_of_lit h
  rw [elem_of_literal hl, Elem.lit.injEq] at h
  rw [matchSeg_iff, h]
  exact forall_prop_of_true hl

theorem matchSeg_field (h : t.elem.isField = true) (u : Url) (seg : Bytes) : t.matchSeg u seg = true := by
  rw [matchSeg_iff, isLiteral_of_field h]
  simp

theorem hasModifier_eq (h : t.elem.isField = true) : t.hasModifier = decide (t.elem ≠ .one) := by
  rw [Bool.eq_iff_iff, hasModifier_iff (isLiteral_of_field h), decide_eq_true_iff]

theorem isOptional_eq : t.isOptional = decide (t.elem = .opt) := by
  rw [Bool.eq_iff_iff, isOptional_iff, decide_eq_true_iff]

end SegmentTemplate

/-! ## Path templates -/

/-- the replacement field at the front of a text -/
def replacement (u : Url) : Bytes → Option (SegmentTemplate × Bytes)
  | [] => none
  | c :: it =>
    if c = lbrace ∧ rbrace ∈ it then
      let s := it.takeWhile (· ≠ rbrace)
      if s = [] ∨ u.idRule s then some (.field s, (it.dropWhile (· ≠ rbrace)).tail) else none
    else none

/-- segment_template_rule; none when the assertion on the literal rule fails -/
def parseSegment (u : Url) (it : Bytes) : Option (SegmentTemplate × Bytes) :=
  match replacement u it with
  | some r => some r
  | none => (u.segmentRule it).map fun r => (.literal r.1, r.2)

/-- the repeated part of path_template_rule: a slash and a segment template -/
def rangeRule (u : Url) : ℕ → Bytes → Option (List SegmentTemplate × Bytes)
  | 0, it => some ([], it)
  | fuel + 1, it =>
    match it with
    | [] => some ([], [])
    | c :: rest =>
      if c = slash then do
        let (t, rest) ← parseSegment u rest
        let (ts, rest) ← rangeRule u fuel rest
        return (t :: ts, rest)
      else some ([], it)

/-- removes one leading slash -/
def dropSlash (it : Bytes) : Bytes := if it.head? = some slash then it.tail else it

/-- grammar::parse(path, path_template_rule): an optional slash, then the templates; none when the assertion fails, and
no templates when the text is not used up -/
def parsePath (u : Url) (path : Bytes) : Option (Option (List SegmentTemplate)) := do
  let (t, rest) ← parseSegment u (dropSlash path)
  let (ts, rest) ← rangeRule u rest.length rest
  return if rest = [] then some (t :: ts) else none

theorem replacement_length {u : Url} {it rest : Bytes} {t : SegmentTemplate} (h : replacement u it = some (t, rest)) :
    rest.length ≤ it.length := by
  cases it with
  | nil => cases h
  | cons c it =>
    simp only [replacement] at h
    split_ifs at h
    cases h
    have h1 : (it.dropWhile (· ≠ rbrace)).length ≤ it.length := (List.dropWhile_suffix _).length_le
    simp only [List.length_tail, List.length_cons]
    omega

theorem parseSegment_length {u : Url} {it rest : Bytes} {t : SegmentTemplate} (h : parseSegment u it = some (t, rest)) :
    rest.length ≤ it.length := by
  unfold parseSegment at h
  split at h
  · rename_i r hr
    cases h
    exact replacement_length hr
  · obtain ⟨⟨d, r⟩, hr, he⟩ := Option.map_eq_some_iff.1 h
    cases he
    exact u.advances it _ _ hr

/-- **The loop of the path rule ends before its fuel does.** -/
theorem rangeRule_fuel (u : Url) (it : Bytes) {fuel : ℕ} (h : it.length ≤ fuel) :
    rangeRule u fuel it = rangeRule u it.length it := by
  induction fuel using Nat.strong_induction_on generalizing it with
  | _ fuel ih =>
    cases it with
    | nil => cases fuel <;> rfl
    | cons c it =>
      obtain ⟨fuel, rfl⟩ : ∃ k, fuel = k + 1 := ⟨fuel - 1, by simp at h; omega⟩
      rw [List.length_cons, rangeRule, rangeRule]
      split_ifs with hc
      · cases hp : parseSegment u it with
        | none => rfl
        | some r =>
          obtain ⟨t, rest⟩ := r
          have hlen := parseSegment_length hp
          have hle : it.length ≤ fuel := by simpa using h
          have h1 : rangeRule u fuel rest = rangeRule u rest.length rest := ih fuel (by omega) rest (by omega)
          have h2 : rangeRule u it.length rest = rangeRule u rest.length rest := by
            rcases Nat.lt_or_ge it.length (fuel + 1) with hlt | hge
            · exact ih it.length hlt rest hlen
            · omega
          simp only [Option.bind_eq_bind, Option.bind_some, h1, h2]
      · rfl

/-! ### What is accepted -/

/-- Boost.URL's rules stay in the text, and segments and identifiers end before a slash -/
structure Url.Slashed (u : Url) : Prop where
  suffix : ∀ it d rest, u.segmentRule it = some (d, rest) → rest <:+ it
  segment : ∀ x y, slash ∉ x →
    u.segmentRule (x ++ slash :: y) = (u.segmentRule x).map fun r => (r.1, r.2 ++ slash :: y)
  id : ∀ s, u.idRule s = true → slash ∉ s

/-- the template is read from the whole text -/
def Reads (u : Url) (x : Bytes) (t : SegmentTemplate) : Prop := parseSegment u x = some (t, [])

section Grammar

variable {u : Url}

/-- a text up to its first slash -/
theorem splitOn_cases (it : Bytes) : ∃ x, slash ∉ x ∧ (it = x ∧ it.splitOn slash = [x] ∨
    ∃ y, it = x ++ slash :: y ∧ it.splitOn slash = x :: y.splitOn slash) := by
  by_cases h : slash ∈ it
  · obtain ⟨x, y, rfl, hx⟩ := List.eq_append_cons_of_mem h
    exact ⟨x, hx, Or.inr ⟨y, rfl, List.splitOn_append_cons_self_of_not_mem hx y⟩⟩
  · exact ⟨it, h, Or.inl ⟨rfl, List.splitOn_eq_singleton h⟩⟩

/-- a replacement field is found, or not, before the first slash -/
theorem replacement_slash (hu : u.Slashed) {x : Bytes} (hx : slash ∉ x) (y : Bytes) :
    replacement u (x ++ slash :: y) = (replacement u x).map fun r => (r.1, r.2 ++ slash :: y) := by
  cases x with
  | nil => simp [replacement, slash, lbrace]
  | cons c x =>
    rw [List.mem_cons, not_or] at hx
    simp only [List.cons_append, replacement]
    by_cases hc : c = lbrace
    swap
    · simp [hc]
    by_cases hr : rbrace ∈ x
    · -- the brace is in x
      obtain ⟨s, z, rfl, hs⟩ := List.eq_append_cons_of_mem hr
      have hne : ∀ a ∈ s, decide (a ≠ rbrace) = true := by
        intro a ha
        simpa using ne_of_mem_of_not_mem ha hs
      have htake : ∀ w, (s ++ rbrace :: w).takeWhile (fun a => decide (a ≠ rbrace)) = s := by
        intro w
        rw [List.takeWhile_append_of_pos hne]
        simp
      have hdrop : ∀ w, (s ++ rbrace :: w).dropWhile (fun a => decide (a ≠ rbrace)) = rbrace :: w := by
        intro w
        rw [List.dropWhile_append_of_pos hne]
        simp
      have hmem : ∀ w, rbrace ∈ s ++ rbrace :: w := fun w => by simp
      rw [List.append_assoc, List.cons_append]
      simp only [htake, hdrop, hc, hmem, and_self, if_true, List.tail_cons]
      split_ifs <;> rfl
    · -- an identifier would go on behind the slash
      have hid : ¬ ((x ++ slash :: y).takeWhile (fun a => decide (a ≠ rbrace)) = [] ∨
          u.idRule ((x ++ slash :: y).takeWhile fun a => decide (a ≠ rbrace)) = true) := by
        have hne : ∀ a ∈ x, decide (a ≠ rbrace) = true := by
          intro a ha
          simpa using ne_of_mem_of_not_mem ha hr
        rw [List.takeWhile_append_of_pos hne, List.takeWhile_cons_of_pos (by decide)]
        rintro (h | h)
        · simp at h
        · exact hu.id _ h (by simp)
      simp only [hr, and_false, if_false, Option.map_none, if_neg hid, ite_self]

theorem parseSegment_slash (hu : u.Slashed) {x : Bytes} (hx : slash ∉ x) (y : Bytes) :
    parseSegment u (x ++ slash :: y) = (parseSegment u x).map fun r => (r.1, r.2 ++ slash :: y) := by
  unfold parseSegment
  rw [replacement_slash hu hx]
  cases replacement u x with
  | some r => rfl
  | none => simp [hu.segment x y hx, Function.comp_def]

theorem parseSegment_suffix (hu : u.Slashed) {it rest : Bytes} {t : SegmentTemplate}
    (h : parseSegment u it = some (t, rest)) : rest <:+ it := by
  unfold parseSegment at h
  split at h
  · rename_i r hr
    cases h
    cases it with
    | nil => cases hr
    | cons c it =>
      simp only [replacement] at hr
      split_ifs at hr
      cases hr
      exact ((List.tail_suffix _).trans (List.dropWhile_suffix _)).trans (List.suffix_cons _ _)
  · obtain ⟨⟨d, r⟩, hr, he⟩ := Option.map_eq_some_iff.1 h
    cases he
    exact hu.suffix it d _ hr

/-- a template and then the repeated part use up the text -/
def Templates (u : Url) (it : Bytes) (ts : List SegmentTemplate) : Prop :=
  ∃ t rest ts', parseSegment u it = some (t, rest) ∧ rangeRule u rest.length rest = some (ts', []) ∧ ts = t :: ts'

/-- the repeated part starts with a slash -/
theorem rangeRule_iff {r : Bytes} {ts : List SegmentTemplate} : rangeRule u r.length r = some (ts, []) ↔
    r = [] ∧ ts = [] ∨ ∃ y, r = slash :: y ∧ Templates u y ts := by
  cases r with
  | nil => simp [rangeRule, eq_comm]
  | cons c y =>
    rw [List.length_cons, rangeRule]
    by_cases hc : c = slash
    · rw [if_pos hc]
      simp only [Templates, hc, List.cons.injEq, true_and, reduceCtorEq, false_and, false_or, exists_eq_left']
      constructor
      · intro h
        obtain ⟨⟨t, rest⟩, hp, h⟩ := Option.bind_eq_some_iff.1 h
        obtain ⟨⟨ts', rest'⟩, hr, h⟩ := Option.bind_eq_some_iff.1 h
        rw [rangeRule_fuel u rest (parseSegment_length hp)] at hr
        cases h
        exact ⟨t, rest, ts', hp, hr, rfl⟩
      · intro h
        obtain ⟨t, rest, ts', hp, hr, rfl⟩ := h
        rw [← rangeRule_fuel u rest (parseSegment_length hp)] at hr
        simp [hp, hr]
    · simp [hc]

/-- **The templates** of a text are those of its parts between the slashes. -/
theorem templates_iff (hu : u.Slashed) (it : Bytes) (ts : List SegmentTemplate) :
    Templates u it ts ↔ List.Forall₂ (Reads u) (it.splitOn slash) ts := by
  induction hn : it.length using Nat.strong_induction_on generalizing it ts with
  | _ n ih =>
    obtain ⟨x, hx, h | h⟩ := splitOn_cases it
    · obtain ⟨rfl, hs⟩ := h
      rw [hs]
      constructor
      · intro h
        obtain ⟨t, rest, ts', hp, hr, rfl⟩ := h
        rcases rangeRule_iff.1 hr with ⟨rfl, rfl⟩ | ⟨y, rfl, -⟩
        · exact .cons hp .nil
        · exact absurd ((parseSegment_suffix hu hp).subset List.mem_cons_self) hx
      · intro h
        cases h with
        | cons hp h =>
          cases h
          exact ⟨_, [], [], hp, rangeRule_iff.2 (Or.inl ⟨rfl, rfl⟩), rfl⟩
    · obtain ⟨y, rfl, hs⟩ := h
      have hlt : y.length < n := by
        rw [← hn, List.length_append, List.length_cons]
        omega
      have hy := fun ts => ih y.length hlt y ts rfl
      rw [hs]
      constructor
      · intro h
        obtain ⟨t, rest, ts', hp, hr, rfl⟩ := h
        rw [parseSegment_slash hu hx] at hp
        obtain ⟨⟨t0, r⟩, hp', he⟩ := Option.map_eq_some_iff.1 hp
        cases he
        -- what is left begins with the slash
        rcases rangeRule_iff.1 hr with ⟨hnil, -⟩ | ⟨y', hy', hts⟩
        · simp at hnil
        · cases r with
          | nil =>
            rw [List.nil_append, List.cons.injEq] at hy'
            exact .cons hp' ((hy ts').1 (hy'.2 ▸ hts))
          | cons a r =>
            rw [List.cons_append, List.cons.injEq] at hy'
            have hmem := (parseSegment_suffix hu hp').subset List.mem_cons_self
            exact absurd (hy'.1 ▸ hmem) hx
      · intro h
        cases h with
        | @cons _ t _ ts' hp h =>
          refine ⟨t, slash :: y, ts', ?_, rangeRule_iff.2 (Or.inr ⟨y, rfl, (hy ts').2 h⟩), rfl⟩
          rw [parseSegment_slash hu hx, hp]
          rfl

theorem unescaped_slashed : Url.unescaped.Slashed where
  suffix it d rest h := by
    cases h
    exact List.dropWhile_suffix _
  segment x y hx := by
    have hne : ∀ a ∈ x, decide (a ≠ slash) = true := by
      intro a ha
      simpa using ne_of_mem_of_not_mem ha hx
    have htake : x.takeWhile (fun a => decide (a ≠ slash)) = x := by
      have h : (x ++ []).takeWhile (fun a => decide (a ≠ slash)) = x ++ [] := List.takeWhile_append_of_pos hne
      rwa [List.append_nil] at h
    have hdrop : x.dropWhile (fun a => decide (a ≠ slash)) = [] := by
      have h : (x ++ []).dropWhile (fun a => decide (a ≠ slash)) = [] := List.dropWhile_append_of_pos hne
      rwa [List.append_nil] at h
    simp only [Url.unescaped, List.takeWhile_append_of_pos hne, List.dropWhile_append_of_pos hne, Option.map_some,
      htake, hdrop]
    simp
  id s h := by
    intro hmem
    have h' := List.all_eq_true.1 h slash hmem
    revert h'
    decide

/-- **path_template_rule** accepts a text when each of its parts between the slashes is a template, a slash at the front
aside, and gives these templates. The loop of its range rule ends for every text: more fuel than the text is long
changes nothing. -/
theorem parsePath_iff (hu : u.Slashed) (path : Bytes) (ts : List SegmentTemplate) :
    (parsePath u path = some (some ts) ↔ List.Forall₂ (Reads u) ((dropSlash path).splitOn slash) ts) ∧
      ∀ it fuel, it.length ≤ fuel → rangeRule u fuel it = rangeRule u it.length it := by
  refine ⟨?_, fun it fuel => rangeRule_fuel u it⟩
  rw [← templates_iff hu, parsePath]
  constructor
  · intro h
    obtain ⟨⟨t, rest⟩, hp, h⟩ := Option.bind_eq_some_iff.1 h
    obtain ⟨⟨ts', rest'⟩, hr, h⟩ := Option.bind_eq_some_iff.1 h
    have h : (if rest' = [] then some (t :: ts') else none) = some ts := Option.some.inj h
    split_ifs at h with h0
    cases h
    exact ⟨t, rest, ts', hp, h0 ▸ hr, rfl⟩
  · intro h
    obtain ⟨t, rest, ts', hp, hr, rfl⟩ := h
    simp [hp, hr]

/-- /files/{id} -/
theorem parsePath_iff_files :
    (parsePath Url.unescaped (bytes "/files/\x7bid\x7d") = some (some [.literal (bytes "files"), .field (bytes "id")]) ↔
      List.Forall₂ (Reads Url.unescaped) ((dropSlash (bytes "/files/\x7bid\x7d")).splitOn slash)
        [.literal (bytes "files"), .field (bytes "id")]) ∧
      ∀ it fuel, it.length ≤ fuel → rangeRule Url.unescaped fuel it = rangeRule Url.unescaped it.length it :=
  parsePath_iff unescaped_slashed (bytes "/files/\x7bid\x7d") [.literal (bytes "files"), .field (bytes "id")]

end Grammar
end Gss.Router
