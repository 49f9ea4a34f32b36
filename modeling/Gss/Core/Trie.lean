/-
Patterns over sequences of segments, and tries that share the patterns' common prefixes.

A pattern is a list of elements: a literal takes one segment that fits it, a field takes one segment (`one`), at most
one (`opt`), any number (`star`) or at least one (`plus`). A match has a word, one letter for each element: the rank of
the element's kind and the number of segments left after it. Ascending words are: literals first, then `one`, `opt`,
`star`, `plus`; within a kind the longer part first; and the end of the pattern before anything that takes no segment.

- `Matches.unique`: a word says which pattern it is a match of, and what its fields take.
- `Trie.walk_iff`: the walks down a trie that use up the segments are the matches of the patterns in it.
- `mem_alts_iff`, `via_lit`, `via_one`, `via_opt`, `mem_via_many`: the walks from a node, by the child they go to and by
  what it takes. A depth-first search tries them in this order.
- `via_le`, `taking_le`: this is the order of their words.
-/
import Gss.Core.Choice

namespace Gss.Core

/-! ## Patterns -/

inductive Elem (L : Type*) where
  | lit (l : L)
  | one
  | opt
  | star
  | plus
deriving DecidableEq, Repr

namespace Elem

variable {L : Type*}

def isField : Elem L → Bool
  | lit _ => false
  | _ => true

/-- the order in which the kinds are tried -/
def rank : Elem L → ℕ
  | lit _ => 0
  | one => 1
  | opt => 2
  | star => 3
  | plus => 4

/-- the field may take k segments -/
def Takes : Elem L → ℕ → Prop
  | lit _, _ => False
  | one, k => k = 1
  | opt, k => k ≤ 1
  | star, _ => True
  | plus, k => 1 ≤ k

theorem Takes.isField {e : Elem L} {k : ℕ} (h : e.Takes k) : e.isField = true := by
  cases e with
  | lit l => exact h.elim
  | _ => rfl

theorem rank_eq_zero {e : Elem L} : e.rank = 0 ↔ e.isField = false := by
  cases e <;> simp [rank, Elem.isField]

theorem rank_inj {e e' : Elem L} (he : e.isField = true) (h : e.rank = e'.rank) : e = e' := by
  cases e <;> cases e' <;> simp_all [rank, Elem.isField]

end Elem

/-- the number of fields -/
def fields {L : Type*} (q : List (Elem L)) : ℕ := q.countP Elem.isField

@[simp] theorem fields_nil {L : Type*} : fields ([] : List (Elem L)) = 0 := rfl

@[simp] theorem fields_lit {L : Type*} (l : L) (q : List (Elem L)) : fields (.lit l :: q) = fields q := by
  simp [fields, Elem.isField]

theorem fields_field {L : Type*} {e : Elem L} (he : e.isField = true) (q : List (Elem L)) :
    fields (e :: q) = fields q + 1 := by
  simp [fields, he]

@[simp] theorem fields_append {L : Type*} (p q : List (Elem L)) : fields (p ++ q) = fields p + fields q := by
  simp [fields]

abbrev Letter := ℕ ×ₗ ℕ

/-- an element of this rank leaves `rest` segments -/
def letter (rank rest : ℕ) : Letter := toLex (rank, rest)

theorem letter_lt {a b c d : ℕ} : letter a b < letter c d ↔ a < c ∨ a = c ∧ b < d := Prod.Lex.toLex_lt_toLex

theorem letter_inj {a b c d : ℕ} (h : letter a b = letter c d) : a = c ∧ b = d := by
  have h' : (a, b) = (c, d) := toLex.injective h
  exact ⟨congrArg Prod.fst h', congrArg Prod.snd h'⟩

section Matches

variable {L σ : Type*} {fits : L → σ → Prop}

/-- the pattern matches the segments by this word; each field takes one entry of the last list -/
inductive Matches (fits : L → σ → Prop) : List (Elem L) → List σ → List Letter → List (List σ) → Prop where
  | nil : Matches fits [] [] [] []
  | lit {l : L} {s : σ} {q : List (Elem L)} {segs : List σ} {w : List Letter} {caps : List (List σ)} (hl : fits l s)
      (h : Matches fits q segs w caps) : Matches fits (.lit l :: q) (s :: segs) (letter 0 segs.length :: w) caps
  | field {e : Elem L} {taken : List σ} {q : List (Elem L)} {segs : List σ} {w : List Letter} {caps : List (List σ)}
      (he : e.Takes taken.length) (h : Matches fits q segs w caps) :
      Matches fits (e :: q) (taken ++ segs) (letter e.rank segs.length :: w) (taken :: caps)

/-- a literal fits the first segment -/
theorem Matches.fits_head {l : L} {q : List (Elem L)} {segs : List σ} {w : List Letter} {caps : List (List σ)}
    (h : Matches fits (.lit l :: q) segs w caps) : ∃ s ∈ segs.head?, fits l s := by
  cases h with
  | lit hl h => exact ⟨_, rfl, hl⟩
  | field he h => exact he.elim

/-- each field takes its part -/
theorem Matches.length_caps {q : List (Elem L)} {segs : List σ} {w : List Letter} {caps : List (List σ)}
    (h : Matches fits q segs w caps) : caps.length = fields q := by
  induction h with
  | nil => rfl
  | lit hl h ih => rw [fields_lit, ih]
  | field he h ih => rw [fields_field he.isField, List.length_cons, ih]

/-- **A word says what it is the word of**, where a segment fits one literal only. -/
theorem Matches.unique (hf : ∀ l l' s, fits l s → fits l' s → l = l') {q q' : List (Elem L)} {segs : List σ}
    {w : List Letter} {caps caps' : List (List σ)} (h : Matches fits q segs w caps)
    (h' : Matches fits q' segs w caps') : q = q' ∧ caps = caps' := by
  induction h generalizing q' caps' with
  | nil =>
    generalize ([] : List σ) = segs' at h'
    cases h'
    exact ⟨rfl, rfl⟩
  | lit hl h ih =>
    generalize hx : letter 0 _ = x at h'
    generalize hs : _ :: _ = segs' at h'
    cases h' with
    | lit hl' h' =>
      obtain ⟨rfl, rfl⟩ := List.cons.inj hs
      obtain ⟨rfl, rfl⟩ := ih h'
      exact ⟨by rw [hf _ _ _ hl hl'], rfl⟩
    | field he h' =>
      have h0 := (letter_inj hx).1
      rw [eq_comm, Elem.rank_eq_zero, he.isField] at h0
      cases h0
  | @field e taken q segs w caps he h ih =>
    generalize hx : letter e.rank _ = x at h'
    generalize hs : taken ++ segs = segs' at h'
    cases h' with
    | lit hl' h' =>
      have h0 := (letter_inj hx).1
      rw [Elem.rank_eq_zero, he.isField] at h0
      cases h0
    | field he' h' =>
      obtain ⟨hrank, hrest⟩ := letter_inj hx
      obtain ⟨rfl, rfl⟩ := List.append_inj' hs hrest
      obtain ⟨rfl, rfl⟩ := ih h'
      exact ⟨by rw [Elem.rank_inj he.isField hrank], rfl⟩

/-- an element that takes one segment takes this one -/
def Elem.Accepts (fits : L → σ → Prop) : Elem L → σ → Prop
  | lit l, s => fits l s
  | _, _ => True

/-- where each element takes one segment, a match is a match of each -/
theorem matches_iff_forall₂ {q : List (Elem L)} (hq : ∀ e ∈ q, e.isField = true → e = .one) {segs : List σ} :
    (∃ w caps, Matches fits q segs w caps) ↔ List.Forall₂ (Elem.Accepts fits) q segs := by
  constructor
  · intro h
    obtain ⟨w, caps, h⟩ := h
    induction h with
    | nil => exact .nil
    | lit hl h ih => exact .cons hl (ih fun e he => hq e (List.mem_cons_of_mem _ he))
    | @field e taken q segs w caps he h ih =>
      have hone := hq e List.mem_cons_self he.isField
      subst hone
      obtain ⟨s, rfl⟩ := List.length_eq_one_iff.1 he
      exact .cons trivial (ih fun e he => hq e (List.mem_cons_of_mem _ he))
  · intro h
    induction h with
    | nil => exact ⟨[], [], .nil⟩
    | @cons e s q segs he h ih =>
      obtain ⟨w, caps, hm⟩ := ih fun e he => hq e (List.mem_cons_of_mem _ he)
      cases hf : e.isField with
      | false =>
        cases e with
        | lit l => exact ⟨_, _, .lit he hm⟩
        | _ => cases hf
      | true =>
        obtain rfl := hq e List.mem_cons_self hf
        exact ⟨_, _, .field (show Elem.one.Takes [s].length from rfl) hm⟩

end Matches

/-! ## Tries -/

/-- A rooted tree whose nodes carry elements; a node stands for the pattern that leads to it. -/
structure Trie (ι L : Type*) where
  mem : Set ι
  root : ι
  child : ι → ι → Prop
  elem : ι → Elem L
  pat : ι → List (Elem L)
  child_mem : ∀ {i c}, i ∈ mem → child i c → c ∈ mem
  parent : ∀ {c}, c ∈ mem → c ≠ root → ∃ i ∈ mem, child i c
  pat_root : pat root = []
  pat_child : ∀ {i c}, i ∈ mem → child i c → pat c = pat i ++ [elem c]
  inj : ∀ {i j}, i ∈ mem → j ∈ mem → pat i = pat j → i = j

/-- a walk down from i to j that uses up the segments; each field on the way takes its part -/
inductive Walk {ι L σ : Type*} (child : ι → ι → Prop) (elem : ι → Elem L) (fits : L → σ → Prop) :
    ι → List σ → List Letter → List (ι × List σ) → ι → Prop where
  | stop (i : ι) : Walk child elem fits i [] [] [] i
  | lit {i c j : ι} {l : L} {s : σ} {segs : List σ} {w : List Letter} {es : List (ι × List σ)} (hc : child i c)
      (he : elem c = .lit l) (hl : fits l s) (h : Walk child elem fits c segs w es j) :
      Walk child elem fits i (s :: segs) (letter 0 segs.length :: w) es j
  | field {i c j : ι} {taken : List σ} {segs : List σ} {w : List Letter} {es : List (ι × List σ)} (hc : child i c)
      (he : (elem c).Takes taken.length) (h : Walk child elem fits c segs w es j) :
      Walk child elem fits i (taken ++ segs) (letter (elem c).rank segs.length :: w) ((c, taken) :: es) j

section Walk

variable {ι L σ : Type*} {child : ι → ι → Prop} {elem : ι → Elem L} {fits : L → σ → Prop} {i p c : ι} {segs : List σ}
  {w : List Letter} {es : List (ι × List σ)}

/-- one literal more at the end -/
theorem Walk.snoc_lit (h : Walk child elem fits i segs w es p) (hc : child p c) {l : L} (he : elem c = .lit l) {s : σ}
    (hl : fits l s) : ∃ w', Walk child elem fits i (segs ++ [s]) w' es c := by
  induction h with
  | stop i => exact ⟨_, .lit hc he hl (.stop c)⟩
  | lit hc' he' hl' _ ih =>
    obtain ⟨w', hw⟩ := ih hc
    exact ⟨_, .lit hc' he' hl' hw⟩
  | field hc' he' _ ih =>
    obtain ⟨w', hw⟩ := ih hc
    rw [List.append_assoc]
    exact ⟨_, .field hc' he' hw⟩

/-- one field more at the end -/
theorem Walk.snoc_field (h : Walk child elem fits i segs w es p) (hc : child p c) {taken : List σ}
    (he : (elem c).Takes taken.length) : ∃ w', Walk child elem fits i (segs ++ taken) w' (es ++ [(c, taken)]) c := by
  induction h with
  | stop i =>
    have hw : Walk child elem fits i (taken ++ []) _ [(c, taken)] c := .field hc he (.stop c)
    rw [List.append_nil] at hw
    exact ⟨_, hw⟩
  | lit hc' he' hl' _ ih =>
    obtain ⟨w', hw⟩ := ih hc
    exact ⟨_, .lit hc' he' hl' hw⟩
  | field hc' he' _ ih =>
    obtain ⟨w', hw⟩ := ih hc
    rw [List.append_assoc]
    exact ⟨_, .field hc' he' hw⟩

/-- **The last step of a walk.** -/
theorem Walk.unsnoc {j : ι} (h : Walk child elem fits i segs w es j) : j = i ∧ segs = [] ∧ es = [] ∨
    ∃ p ss w' es', child p j ∧ Walk child elem fits i ss w' es' p ∧
      ((∃ l s, elem j = .lit l ∧ fits l s ∧ segs = ss ++ [s] ∧ es = es') ∨
        ∃ taken, (elem j).Takes taken.length ∧ segs = ss ++ taken ∧ es = es' ++ [(j, taken)]) := by
  induction h with
  | stop i => exact Or.inl ⟨rfl, rfl, rfl⟩
  | @lit i c j l s segs w es hc he hl h ih =>
    refine Or.inr ?_
    rcases ih with ⟨rfl, rfl, rfl⟩ | ih
    · exact ⟨i, [], [], [], hc, .stop i, Or.inl ⟨l, s, he, hl, rfl, rfl⟩⟩
    · obtain ⟨p, ss, w', es', hp, hw, hlast⟩ := ih
      refine ⟨p, s :: ss, _, es', hp, .lit hc he hl hw, ?_⟩
      rcases hlast with ⟨l', s', he', hl', rfl, rfl⟩ | ⟨taken, ht, rfl, rfl⟩
      · exact Or.inl ⟨l', s', he', hl', rfl, rfl⟩
      · exact Or.inr ⟨taken, ht, rfl, rfl⟩
  | @field i c j taken segs w es hc he h ih =>
    refine Or.inr ?_
    rcases ih with ⟨rfl, rfl, rfl⟩ | ih
    · exact ⟨i, [], [], [], hc, .stop i, Or.inr ⟨taken, he, by simp, rfl⟩⟩
    · obtain ⟨p, ss, w', es', hp, hw, hlast⟩ := ih
      refine ⟨p, taken ++ ss, _, (c, taken) :: es', hp, .field hc he hw, ?_⟩
      rcases hlast with ⟨l', s', he', hl', rfl, rfl⟩ | ⟨taken', ht, rfl, rfl⟩
      · exact Or.inl ⟨l', s', he', hl', by simp, rfl⟩
      · exact Or.inr ⟨taken', ht, by simp, rfl⟩

end Walk

/-- the patterns of the fields of q, after p -/
def fieldPats {L : Type*} : List (Elem L) → List (Elem L) → List (List (Elem L))
  | _, [] => []
  | p, e :: q => if e.isField then (p ++ [e]) :: fieldPats (p ++ [e]) q else fieldPats (p ++ [e]) q

theorem fieldPats_ne_nil {L : Type*} {p q : List (Elem L)} : ∀ x ∈ fieldPats p q, x ≠ [] := by
  induction q generalizing p with
  | nil =>
    intro x hx
    cases hx
  | cons e q ih =>
    intro x hx
    rw [fieldPats] at hx
    split_ifs at hx
    · rcases List.mem_cons.1 hx with rfl | hx
      · simp
      · exact ih x hx
    · exact ih x hx

theorem length_fieldPats {L : Type*} (p q : List (Elem L)) : (fieldPats p q).length = fields q := by
  induction q generalizing p with
  | nil => rfl
  | cons e q ih =>
    rw [fieldPats]
    split_ifs with he
    · rw [List.length_cons, ih, fields_field he]
    · rw [ih, fields, fields, List.countP_cons_of_neg he]

theorem fieldPats_prefix {L : Type*} {p q : List (Elem L)} : ∀ x ∈ fieldPats p q, x <+: p ++ q := by
  induction q generalizing p with
  | nil =>
    intro x hx
    cases hx
  | cons e q ih =>
    have happ : p ++ e :: q = (p ++ [e]) ++ q := by simp
    intro x hx
    rw [fieldPats] at hx
    rw [happ]
    split_ifs at hx
    · rcases List.mem_cons.1 hx with rfl | hx
      · exact List.prefix_append _ _
      · exact ih x hx
    · exact ih x hx

/-- after literals there is only the last field -/
theorem fieldPats_last {L : Type*} {p q : List (Elem L)} (hq : fields q = 0) {e : Elem L} (he : e.isField = true) :
    fieldPats p (q ++ [e]) = [p ++ (q ++ [e])] := by
  induction q generalizing p with
  | nil => simp [fieldPats, he]
  | cons x q ih =>
    have hx : ¬ x.isField = true := by
      intro hx
      rw [fields_field hx] at hq
      cases hq
    rw [fields, List.countP_cons_of_neg hx] at hq
    rw [List.cons_append, fieldPats, if_neg hx, ih hq]
    simp

namespace Trie

variable {ι L σ : Type*} {fits : L → σ → Prop} (t : Trie ι L)

/-- each prefix of a pattern in the trie is one -/
theorem prefix_mem {j : ι} (hj : j ∈ t.mem) {p q : List (Elem L)} (h : t.pat j = p ++ q) :
    ∃ i ∈ t.mem, t.pat i = p := by
  induction q using List.reverseRecOn generalizing j with
  | nil => exact ⟨j, hj, by simpa using h⟩
  | append_singleton q e ih =>
    have hne : j ≠ t.root := by
      rintro rfl
      rw [t.pat_root] at h
      simp at h
    obtain ⟨i, hi, hc⟩ := t.parent hj hne
    rw [t.pat_child hi hc, ← List.append_assoc] at h
    exact ih hi (List.append_inj_left' h rfl)

/-- the child of i on the way to a longer pattern -/
theorem child_of_pat {i j : ι} (hi : i ∈ t.mem) (hj : j ∈ t.mem) {e : Elem L} {q : List (Elem L)}
    (h : t.pat j = t.pat i ++ e :: q) : ∃ c, t.child i c ∧ t.elem c = e ∧ t.pat j = t.pat c ++ q := by
  obtain ⟨c, hc, hpat⟩ := t.prefix_mem hj (p := t.pat i ++ [e]) (q := q) (by simpa using h)
  have hne : c ≠ t.root := by
    rintro rfl
    rw [t.pat_root] at hpat
    simp at hpat
  obtain ⟨i', hi', hchild⟩ := t.parent hc hne
  have hp := t.pat_child hi' hchild
  rw [hpat] at hp
  obtain ⟨hii, he⟩ := List.append_inj' hp rfl
  obtain rfl := t.inj hi hi' hii
  refine ⟨c, hchild, (List.singleton_inj.1 he).symm, ?_⟩
  rw [hpat, h]
  simp

/-- a walk matches the rest of the pattern, and meets its fields -/
theorem walk_matches {i j : ι} {segs : List σ} {w : List Letter} {es : List (ι × List σ)} (hi : i ∈ t.mem)
    (h : Walk t.child t.elem fits i segs w es j) :
    j ∈ t.mem ∧ ∃ q, t.pat j = t.pat i ++ q ∧ Matches fits q segs w (es.map Prod.snd) ∧
      es.map (fun x => t.pat x.1) = fieldPats (t.pat i) q := by
  induction h with
  | stop i => exact ⟨hi, [], by simp, .nil, rfl⟩
  | @lit i c j l s segs w es hc he hl h ih =>
    obtain ⟨hj, q, hq, hm, hf⟩ := ih (t.child_mem hi hc)
    have hp := t.pat_child hi hc
    rw [he] at hp
    refine ⟨hj, .lit l :: q, by rw [hq, hp]; simp, .lit hl hm, ?_⟩
    rw [hf, hp]
    rfl
  | @field i c j taken segs w es hc he h ih =>
    obtain ⟨hj, q, hq, hm, hf⟩ := ih (t.child_mem hi hc)
    have hp := t.pat_child hi hc
    refine ⟨hj, t.elem c :: q, by rw [hq, hp]; simp, .field he hm, ?_⟩
    rw [List.map_cons, hf, fieldPats, if_pos he.isField, hp]

/-- the fields of a walk are nodes of the trie -/
theorem walk_mem {i j : ι} {segs : List σ} {w : List Letter} {es : List (ι × List σ)} (hi : i ∈ t.mem)
    (h : Walk t.child t.elem fits i segs w es j) : ∀ x ∈ es, x.1 ∈ t.mem := by
  induction h with
  | stop i =>
    intro x hx
    cases hx
  | lit hc he hl h ih => exact ih (t.child_mem hi hc)
  | @field i c j taken segs w es hc he h ih =>
    intro x hx
    rcases List.mem_cons.1 hx with rfl | hx
    · exact t.child_mem hi hc
    · exact ih (t.child_mem hi hc) x hx

theorem matches_walk {i j : ι} {q : List (Elem L)} {segs : List σ} {w : List Letter} {caps : List (List σ)}
    (hi : i ∈ t.mem) (hj : j ∈ t.mem) (hq : t.pat j = t.pat i ++ q) (h : Matches fits q segs w caps) :
    ∃ es, Walk t.child t.elem fits i segs w es j ∧ es.map Prod.snd = caps := by
  induction h generalizing i with
  | nil =>
    obtain rfl := t.inj hj hi (by simpa using hq)
    exact ⟨[], .stop j, rfl⟩
  | lit hl h ih =>
    obtain ⟨c, hc, he, hpat⟩ := t.child_of_pat hi hj hq
    obtain ⟨es, hw, hes⟩ := ih (t.child_mem hi hc) hpat
    exact ⟨es, .lit hc he hl hw, hes⟩
  | @field e taken q segs w caps he h ih =>
    obtain ⟨c, hc, rfl, hpat⟩ := t.child_of_pat hi hj hq
    obtain ⟨es, hw, hes⟩ := ih (t.child_mem hi hc) hpat
    exact ⟨(c, taken) :: es, .field hc he hw, by rw [List.map_cons, hes]⟩

/-- **The walks from the root are the matches of the patterns in the trie.** -/
theorem walk_iff {segs : List σ} {w : List Letter} {j : ι} {caps : List (List σ)} (hr : t.root ∈ t.mem) :
    (∃ es, Walk t.child t.elem fits t.root segs w es j ∧ es.map Prod.snd = caps) ↔
      j ∈ t.mem ∧ Matches fits (t.pat j) segs w caps := by
  constructor
  · intro h
    obtain ⟨es, hw, rfl⟩ := h
    obtain ⟨hj, q, hq, hm, -⟩ := t.walk_matches hr hw
    rw [t.pat_root, List.nil_append] at hq
    exact ⟨hj, hq ▸ hm⟩
  · intro h
    exact t.matches_walk hr h.1 (by rw [t.pat_root, List.nil_append]) h.2

end Trie

/-! ## The walks from a node -/

section Alts

variable {ι L σ : Type*} (child : ι → ι → Prop) (elem : ι → Elem L) (fits : L → σ → Prop) (stop : ι → Prop)

/-- the walks from i that use up the segments and end at a node where the search may stop -/
def Alts (i : ι) (segs : List σ) : Set (List Letter × ι × List (ι × List σ)) :=
  { x | Walk child elem fits i segs x.1 x.2.2 x.2.1 ∧ stop x.2.1 }

/-- the walks past a literal c -/
def Past (c : ι) (rest : List σ) : Set (List Letter × ι × List (ι × List σ)) :=
  (fun x => (letter 0 rest.length :: x.1, x.2)) '' Alts child elem fits stop c rest

/-- the walks through a field c that takes its part -/
def Taking (c : ι) (taken rest : List σ) : Set (List Letter × ι × List (ι × List σ)) :=
  (fun x => (letter (elem c).rank rest.length :: x.1, x.2.1, (c, taken) :: x.2.2)) '' Alts child elem fits stop c rest

/-- the walks that go to c first -/
def Via (c : ι) (segs : List σ) : Set (List Letter × ι × List (ι × List σ)) :=
  { x | (∃ l s rest, elem c = .lit l ∧ segs = s :: rest ∧ fits l s ∧ x ∈ Past child elem fits stop c rest) ∨
    ∃ taken rest, segs = taken ++ rest ∧ (elem c).Takes taken.length ∧ x ∈ Taking child elem fits stop c taken rest }

variable {child elem fits stop} {i c d : ι} {segs rest : List σ} {s : σ} {x y : List Letter × ι × List (ι × List σ)}

/-- **The first step** of a walk. -/
theorem mem_alts_iff : x ∈ Alts child elem fits stop i segs ↔
    segs = [] ∧ stop i ∧ x = ([], i, []) ∨ ∃ c, child i c ∧ x ∈ Via child elem fits stop c segs := by
  obtain ⟨w, j, es⟩ := x
  constructor
  · intro h
    obtain ⟨h, hj⟩ := h
    dsimp only at h hj
    cases h with
    | stop => exact Or.inl ⟨rfl, hj, rfl⟩
    | @lit _ c _ l s segs w _ hc he hl h =>
      exact Or.inr ⟨c, hc, Or.inl ⟨l, s, segs, he, rfl, hl, ⟨w, j, es⟩, ⟨h, hj⟩, rfl⟩⟩
    | @field _ c _ taken segs w es hc he h =>
      exact Or.inr ⟨c, hc, Or.inr ⟨taken, segs, rfl, he, ⟨w, j, es⟩, ⟨h, hj⟩, rfl⟩⟩
  · rintro (h | h)
    · obtain ⟨rfl, hi, hx⟩ := h
      cases hx
      exact ⟨.stop i, hi⟩
    · obtain ⟨c, hc, hvia⟩ := h
      rcases hvia with h | h
      · obtain ⟨l, s, rest, he, rfl, hl, ⟨v, k, fs⟩, hy, hxy⟩ := h
        cases hxy
        exact ⟨.lit hc he hl hy.1, hy.2⟩
      · obtain ⟨taken, rest, rfl, ht, ⟨v, k, fs⟩, hy, hxy⟩ := h
        cases hxy
        exact ⟨.field hc ht hy.1, hy.2⟩

theorem via_lit {l : L} (he : elem c = .lit l) (hl : fits l s) :
    Via child elem fits stop c (s :: rest) = Past child elem fits stop c rest := by
  ext x
  constructor
  · rintro (h | h)
    · obtain ⟨_, _, _, _, hs, _, hx⟩ := h
      obtain ⟨rfl, rfl⟩ := List.cons.inj hs
      exact hx
    · obtain ⟨_, _, _, ht, _⟩ := h
      rw [he] at ht
      exact ht.elim
  · intro hx
    exact Or.inl ⟨l, s, rest, he, rfl, hl, hx⟩

/-- no walk goes past a literal that does not fit -/
theorem via_lit_empty {l : L} (he : elem c = .lit l) (hl : ¬ fits l s) :
    Via child elem fits stop c (s :: rest) = ∅ := by
  refine Set.eq_empty_of_forall_notMem ?_
  rintro x (h | h)
  · obtain ⟨l', s', _, he', hs, hl', _⟩ := h
    rw [he, Elem.lit.injEq] at he'
    obtain ⟨rfl, -⟩ := List.cons.inj hs
    exact hl (he' ▸ hl')
  · obtain ⟨_, _, _, ht, _⟩ := h
    rw [he] at ht
    exact ht

/-- a field takes a part -/
theorem mem_via_field (he : (elem c).isField = true) : x ∈ Via child elem fits stop c segs ↔
    ∃ taken rest, segs = taken ++ rest ∧ (elem c).Takes taken.length ∧
      x ∈ Taking child elem fits stop c taken rest := by
  constructor
  · rintro (h | h)
    · obtain ⟨l, _, _, hl, _⟩ := h
      rw [hl] at he
      cases he
    · exact h
  · exact Or.inr

theorem via_one (he : elem c = .one) :
    Via child elem fits stop c (s :: rest) = Taking child elem fits stop c [s] rest := by
  ext x
  rw [mem_via_field (by rw [he]; rfl), he]
  constructor
  · intro h
    obtain ⟨taken, rest', hs, ht, hx⟩ := h
    obtain ⟨a, rfl⟩ := List.length_eq_one_iff.1 ht
    obtain ⟨rfl, rfl⟩ := List.cons.inj hs
    exact hx
  · intro hx
    exact ⟨[s], rest, rfl, rfl, hx⟩

theorem via_opt (he : elem c = .opt) : Via child elem fits stop c (s :: rest) =
    Taking child elem fits stop c [s] rest ∪ Taking child elem fits stop c [] (s :: rest) := by
  ext x
  rw [mem_via_field (by rw [he]; rfl), he]
  constructor
  · intro h
    obtain ⟨taken, rest', hs, ht, hx⟩ := h
    cases taken with
    | nil => exact Or.inr (by rw [hs]; exact hx)
    | cons a taken =>
      obtain rfl : taken = [] := List.eq_nil_of_length_eq_zero (by simpa [Elem.Takes] using ht)
      obtain ⟨rfl, rfl⟩ := List.cons.inj hs
      exact Or.inl hx
  · rintro (hx | hx)
    · exact ⟨[s], rest, rfl, le_rfl, hx⟩
    · exact ⟨[], s :: rest, rfl, Nat.zero_le _, hx⟩

/-- a star takes any prefix, and a plus one that is not empty -/
theorem mem_via_many {first : ℕ} (he : elem c = .star ∧ first = 0 ∨ elem c = .plus ∧ first = 1) :
    x ∈ Via child elem fits stop c segs ↔
      ∃ n, first ≤ n ∧ n ≤ segs.length ∧ x ∈ Taking child elem fits stop c (segs.take n) (segs.drop n) := by
  have hf : (elem c).isField = true := by rcases he with h | h <;> rw [h.1] <;> rfl
  have htakes : ∀ n, (elem c).Takes n ↔ first ≤ n := by
    intro n
    rcases he with h | h <;> simp [h.1, h.2, Elem.Takes]
  rw [mem_via_field hf]
  constructor
  · intro h
    obtain ⟨taken, rest, rfl, ht, hx⟩ := h
    exact ⟨taken.length, (htakes _).1 ht, by simp, by simpa using hx⟩
  · intro h
    obtain ⟨n, hn, hle, hx⟩ := h
    refine ⟨_, _, (List.take_append_drop n segs).symm, ?_, hx⟩
    rwa [List.length_take_of_le hle, htakes]

/-- where no segment is left, a field can only take nothing -/
theorem via_nil : Via child elem fits stop c ([] : List σ) =
    { x | (elem c).Takes 0 ∧ x ∈ Taking child elem fits stop c [] [] } := by
  ext x
  constructor
  · rintro (h | h)
    · obtain ⟨_, _, _, _, hs, _⟩ := h
      cases hs
    · obtain ⟨taken, rest, hs, ht, hx⟩ := h
      obtain ⟨rfl, rfl⟩ := List.append_eq_nil_iff.1 hs.symm
      exact ⟨ht, hx⟩
  · intro h
    exact Or.inr ⟨[], [], rfl, h.1, h.2⟩

/-! ### Their order -/

theorem via_word (h : x ∈ Via child elem fits stop c segs) : ∃ k w, x.1 = letter (elem c).rank k :: w := by
  rcases h with h | h
  · obtain ⟨l, s, rest, he, -, -, y, -, rfl⟩ := h
    rw [he]
    exact ⟨_, _, rfl⟩
  · obtain ⟨taken, rest, -, -, y, -, rfl⟩ := h
    exact ⟨_, _, rfl⟩

theorem via_le (hlt : (elem c).rank < (elem d).rank) (hx : x ∈ Via child elem fits stop c segs)
    (hy : y ∈ Via child elem fits stop d segs) : x.1 ≤ y.1 := by
  obtain ⟨k, w, hk⟩ := via_word hx
  obtain ⟨k', w', hk'⟩ := via_word hy
  rw [hk, hk']
  exact (cons_lt_word (letter_lt.2 (Or.inl hlt)) w w').le

/-- the walks that leave less come first -/
theorem taking_le {taken taken' rest' : List σ} (hlt : rest.length < rest'.length)
    (hx : x ∈ Taking child elem fits stop c taken rest) (hy : y ∈ Taking child elem fits stop c taken' rest') :
    x.1 ≤ y.1 := by
  obtain ⟨x, -, rfl⟩ := hx
  obtain ⟨y, -, rfl⟩ := hy
  exact (cons_lt_word (letter_lt.2 (Or.inr ⟨rfl, hlt⟩)) _ _).le

end Alts

end Gss.Core
