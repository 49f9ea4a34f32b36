/-
What the parts of try_match may return, on a path without dot segments.

The walks down the tree that use up the path and end at a node with a resource are the alternatives (`alts`); the search
goes through them in the order of their words, so that the first success is the least. Two things keep it from being
exact. A literal child that fails, and a star or plus that fails, leave in the arrays what they wrote; so the views that
are returned may have others before or between them. And the arrays may overflow.

- `Clean`: no node has a literal child with fields below it beside a field, nor a star beside a plus. Then the views are
  exactly those of the walk.
- `Roomy`: clean, without star and plus, and no more fields on a way than there are slots. Then nothing overflows.
- `Post`: what a part of the search may return. `Post.orElse`: two parts, one after the other.
- `findOptional_spec`, `starLoop_spec`: the end of the path, and a star or plus.
-/
import Gss.Router.Find

namespace Gss.Router

open Gss.Core SegmentTemplate

variable {V : Type*}

/-! ## Alternatives -/

section Alternatives

variable (u : Url) (ns : List (Node V)) (level : ℤ)

def IsChild (i c : ℕ) : Prop := c ∈ (nodeAt ns i).childIdx.toList

def elemAt (c : ℕ) : Elem Bytes := (nodeAt ns c).seg.elem

/-- try_match stops at level 0 with a resource -/
def Ends (j : ℕ) : Prop := level = 0 ∧ (nodeAt ns j).resource.isSome = true

/-- the alternatives from i -/
abbrev alts (i : ℕ) (segs : List Bytes) := Alts (IsChild ns) (elemAt ns) (Fits u) (Ends ns level) i segs

abbrev via (c : ℕ) (segs : List Bytes) := Via (IsChild ns) (elemAt ns) (Fits u) (Ends ns level) c segs

abbrev past (c : ℕ) (rest : List Bytes) := Past (IsChild ns) (elemAt ns) (Fits u) (Ends ns level) c rest

abbrev taking (c : ℕ) (taken rest : List Bytes) :=
  Taking (IsChild ns) (elemAt ns) (Fits u) (Ends ns level) c taken rest

/-- the alternatives by one of these children -/
def viaAny (cs : List ℕ) (segs : List Bytes) : Set (List Letter × ℕ × List (ℕ × List Bytes)) :=
  { x | ∃ c ∈ cs, x ∈ via u ns level c segs }

end Alternatives

/-- the segments a view shows, with the id -/
def seen (segs : List Bytes) (x : View × Bytes) : List Bytes × Bytes :=
  (match x.1 with
    | none => []
    | some (i, j) => (segs.drop i).take (j - i), x.2)

/-- the fields of a walk, with their ids -/
def entries (ns : List (Node V)) (es : List (ℕ × List Bytes)) : List (List Bytes × Bytes) :=
  es.map fun x => (x.2, (nodeAt ns x.1).seg.id)

/-- no field is below the node -/
def Bare (ns : List (Node V)) (pat : ℕ → List (Elem Bytes)) (i : ℕ) : Prop :=
  ∀ j, j < ns.length → pat i <+: pat j → fields (pat j) = fields (pat i)

structure Clean (ns : List (Node V)) (pat : ℕ → List (Elem Bytes)) : Prop where
  literal : ∀ i c d, i < ns.length → IsChild ns i c → IsChild ns i d → (elemAt ns c).isField = false →
    (elemAt ns d).isField = true → Bare ns pat c
  many : ∀ i c d, i < ns.length → IsChild ns i c → IsChild ns i d → elemAt ns c = .star → elemAt ns d ≠ .plus

structure Roomy (ns : List (Node V)) (pat : ℕ → List (Elem Bytes)) (N : ℕ) : Prop extends Clean ns pat where
  single : ∀ i, i < ns.length → i ≠ 0 → elemAt ns i ≠ .star ∧ elemAt ns i ≠ .plus
  room : ∀ i, i < ns.length → fields (pat i) ≤ N

section Search

variable {u : Url} {ns : List (Node V)} {pat : ℕ → List (Elem Bytes)} {segs : List Bytes} {level : ℤ}

/-- the result b, from o on, is what the walk a gives -/
def Found (ns : List (Node V)) (pat : ℕ → List (Elem Bytes)) (segs : List Bytes) (o : Out) (b : ℕ × Out)
    (a : ℕ × List (ℕ × List Bytes)) : Prop :=
  b.1 = a.1 ∧ ∃ more, o.Ext b.2 more ∧ (entries ns a.2).Sublist (more.map (seen segs)) ∧
    (Clean ns pat → more.map (seen segs) = entries ns a.2)

/-! ### One child after the other -/

theorem viaAny_nil : viaAny u ns level [] segs = ∅ := by simp [viaAny]

theorem viaAny_cons (c : ℕ) (cs : List ℕ) :
    viaAny u ns level (c :: cs) segs = via u ns level c segs ∪ viaAny u ns level cs segs := by
  ext x
  simp [viaAny]

theorem alts_eq_viaAny {i : ℕ} (h : segs ≠ [] ∨ ¬ Ends ns level i) :
    alts u ns level i segs = viaAny u ns level (nodeAt ns i).childIdx.toList segs := by
  ext x
  rw [mem_alts_iff]
  constructor
  · rintro (hx | hx)
    · rcases h with h | h
      · exact absurd hx.1 h
      · exact absurd hx.2.1 h
    · exact hx
  · exact Or.inr

/-- two children of a node with the same rank that some walk each goes by are the same -/
theorem eq_of_via (h : Tree ns pat) {i c d : ℕ} (hi : i < ns.length) (hc : IsChild ns i c) (hd : IsChild ns i d)
    (hr : (elemAt ns c).rank = (elemAt ns d).rank) {x y : List Letter × ℕ × List (ℕ × List Bytes)}
    (hx : x ∈ via u ns level c segs) (hy : y ∈ via u ns level d segs) : c = d := by
  refine h.child_inj hi hc hd ?_
  cases hf : (elemAt ns c).isField with
  | true => exact Elem.rank_inj hf hr
  | false =>
    have hfd : (elemAt ns d).isField = false := by
      rw [← Elem.rank_eq_zero, ← hr, Elem.rank_eq_zero]
      exact hf
    rcases hx with hx | hx
    · rcases hy with hy | hy
      · obtain ⟨l, s, rest, he, rfl, hl, _⟩ := hx
        obtain ⟨l', s', rest', he', hs, hl', _⟩ := hy
        obtain ⟨rfl, rfl⟩ := List.cons.inj hs
        have hll : l = l' := hl.symm.trans hl'
        exact he.trans (hll ▸ he'.symm)
      · obtain ⟨_, _, _, ht, _⟩ := hy
        rw [ht.isField] at hfd
        cases hfd
    · obtain ⟨_, _, _, ht, _⟩ := hx
      rw [ht.isField] at hf
      cases hf

/-- the children are in the order of their alternatives -/
theorem via_le_viaAny (h : Tree ns pat) {i c : ℕ} {cs : List ℕ} (hi : i < ns.length)
    (hcs : (c :: cs).Sublist (nodeAt ns i).childIdx.toList) {x y : List Letter × ℕ × List (ℕ × List Bytes)}
    (hx : x ∈ via u ns level c segs) (hy : y ∈ viaAny u ns level cs segs) : x.1 ≤ y.1 := by
  obtain ⟨d, hd, hy⟩ := hy
  have hle := (List.pairwise_cons.1 ((h.sorted i hi).sublist hcs)).1 d hd
  rcases Nat.lt_or_eq_of_le hle with hlt | heq
  · have hrank : (elemAt ns c).rank < (elemAt ns d).rank := hlt
    exact via_le hrank hx hy
  · have hne : c ∉ cs := (List.nodup_cons.1 ((h.nodup i hi).sublist hcs)).1
    have hcd := eq_of_via h hi (hcs.subset List.mem_cons_self) (hcs.subset (List.mem_cons_of_mem _ hd)) heq hx hy
    exact absurd (hcd ▸ hd) hne

/-! ### One child -/

theorem best_past {c j : ℕ} {rest : List Bytes} {o o' : Out}
    (h : Best (Found ns pat segs o) (alts u ns level c rest) (some (j, o'))) :
    Best (Found ns pat segs o) (past u ns level c rest) (some (j, o')) := by
  have hmono : Monotone (letter 0 rest.length :: · : List Letter → List Letter) := fun _ _ => cons_le_word _
  exact h.image hmono (g := id) (k := id) fun b _ a hb => hb

/-- the view of a field before those of the rest -/
theorem best_taking {c j : ℕ} {taken rest : List Bytes} {o o1 o' o'' : Out} {e : View × Bytes}
    (h : Best (Found ns pat segs o1) (alts u ns level c rest) (some (j, o')))
    (hext : ∀ more, o1.Ext o' more → o.Ext o'' (e :: more)) (he : seen segs e = (taken, (nodeAt ns c).seg.id)) :
    Best (Found ns pat segs o) (taking u ns level c taken rest) (some (j, o'')) := by
  have hmono : Monotone (letter (elemAt ns c).rank rest.length :: · : List Letter → List Letter) :=
    fun _ _ => cons_le_word _
  refine h.image hmono (g := fun a => (a.1, (c, taken) :: a.2)) (k := fun b => (b.1, o'')) ?_
  intro b hb a hfound
  cases hb
  obtain ⟨hj, more, hmore, hsub, hexact⟩ := hfound
  refine ⟨hj, e :: more, hext more hmore, ?_, ?_⟩
  · rw [List.map_cons, he]
    exact hsub.cons_cons _
  · intro hclean
    rw [List.map_cons, he, hexact hclean]
    rfl

theorem taking_empty {c : ℕ} {taken rest : List Bytes} (h : alts u ns level c rest = ∅) :
    taking u ns level c taken rest = ∅ := Set.image_eq_empty.2 h

theorem past_empty {c : ℕ} {rest : List Bytes} (h : alts u ns level c rest = ∅) : past u ns level c rest = ∅ :=
  Set.image_eq_empty.2 h

/-- what was left in the arrays before does no harm when the walk is not exact, and there is none when it is -/
theorem best_after {S : Set (List Letter × ℕ × List (ℕ × List Bytes))} {o o1 : Out} {b : ℕ × Out}
    {more : List (View × Bytes)} (h : Best (Found ns pat segs o1) S (some b)) (hext : o.Ext o1 more)
    (hclean : Clean ns pat → more = []) : Best (Found ns pat segs o) S (some b) := by
  refine h.mono ?_
  intro a hfound
  obtain ⟨hj, more', hmore, hsub, hexact⟩ := hfound
  refine ⟨hj, more ++ more', hext.trans hmore, ?_, ?_⟩
  · rw [List.map_append]
    exact hsub.trans (List.sublist_append_right _ _)
  · intro hc
    rw [hclean hc, List.nil_append]
    exact hexact hc

/-! ### Fields on the way -/

/-- a child comes after its parent, and is a node -/
theorem child_bounds (h : Tree ns pat) {i c : ℕ} (hc : IsChild ns i c) : i < c ∧ c < ns.length := by
  rcases Nat.lt_or_ge i ns.length with hi | hi
  · obtain ⟨hlt, hic, -⟩ := h.of_child hi hc
    exact ⟨hic, hlt⟩
  · simp [IsChild, nodeAt, List.getElem?_eq_none hi, Node.make] at hc

/-- a child that has the element of all children is the only one -/
theorem children_eq (h : Tree ns pat) {i c : ℕ} (hi : i < ns.length) (hc : IsChild ns i c)
    (hall : ∀ d, IsChild ns i d → elemAt ns d = elemAt ns c) : (nodeAt ns i).childIdx.toList = [c] := by
  have hrep : (nodeAt ns i).childIdx.toList = List.replicate (nodeAt ns i).childIdx.toList.length c :=
    List.eq_replicate_of_mem fun d hd => h.child_inj hi hd hc (hall d hd)
  have hle : (nodeAt ns i).childIdx.toList.length ≤ 1 := by
    have hnd := h.nodup i hi
    rwa [hrep, List.nodup_replicate] at hnd
  have hpos : 0 < (nodeAt ns i).childIdx.toList.length := List.length_pos_of_mem hc
  rw [hrep, show (nodeAt ns i).childIdx.toList.length = 1 by omega]
  rfl

theorem fields_child (h : Tree ns pat) {i c : ℕ} (hi : i < ns.length) (hc : IsChild ns i c) :
    fields (pat c) = fields (pat i) + if (elemAt ns c).isField then 1 else 0 := by
  rw [(h.of_child hi hc).2.2.2, fields_append]
  congr 1
  cases he : (nodeAt ns c).seg.elem <;> simp [elemAt, he, fields, Elem.isField]

theorem bare_child (h : Tree ns pat) {i c : ℕ} (hi : i < ns.length) (hc : IsChild ns i c) (hb : Bare ns pat i) :
    (elemAt ns c).isField = false ∧ Bare ns pat c := by
  obtain ⟨hlt, -, -, hpat⟩ := h.of_child hi hc
  have hpre : pat i <+: pat c := ⟨_, hpat.symm⟩
  have hfc := hb c hlt hpre
  refine ⟨?_, ?_⟩
  · have hf := fields_child h hi hc
    rw [hfc] at hf
    cases he : (elemAt ns c).isField with
    | false => rfl
    | true =>
      rw [if_pos he] at hf
      omega
  · intro j hj hp
    rw [hfc]
    exact hb j hj (hpre.trans hp)

/-! ### What a part of the search may return -/

/-- from o on, at or below i: the arrays overflow, or the result is the least of S -/
def Post (ns : List (Node V)) (pat : ℕ → List (Elem Bytes)) (segs : List Bytes)
    (S : Set (List Letter × ℕ × List (ℕ × List Bytes))) (i : ℕ) (o : Out) : Except Fault (Option ℕ × Out) → Prop
  | .error e => e = .overflow ∧ ¬ (Roomy ns pat o.slots.length ∧ o.n ≤ fields (pat i))
  | .ok (r, o') => Best (Found ns pat segs o) S (r.map fun j => (j, o')) ∧
      (r = none → ∃ more, o.Ext o' more ∧ (Bare ns pat i → more = []))

/-- the rest of the search, after something that failed -/
theorem Post.after {S : Set (List Letter × ℕ × List (ℕ × List Bytes))} {i : ℕ} {o o1 : Out}
    {more : List (View × Bytes)} (hext : o.Ext o1 more) (hclean : Clean ns pat → more = [] ∨ S = ∅)
    (hroomy : Roomy ns pat o.slots.length → more = []) (hbare : Bare ns pat i → more = [])
    {res : Except Fault (Option ℕ × Out)} (h : Post ns pat segs S i o1 res) : Post ns pat segs S i o res := by
  match res with
  | .error e =>
    refine ⟨h.1, ?_⟩
    intro hr
    have hn := hext.n_eq
    rw [hroomy hr.1, List.length_nil, Nat.add_zero] at hn
    exact h.2 ⟨hext.length ▸ hr.1, hn ▸ hr.2⟩
  | .ok (some j, o2) =>
    refine ⟨best_after h.1 hext ?_, fun h0 => (by cases h0)⟩
    intro hc
    refine (hclean hc).resolve_right ?_
    rintro rfl
    obtain ⟨w, a, hw, -⟩ := h.1
    exact hw
  | .ok (none, o2) =>
    refine ⟨h.1, ?_⟩
    intro _
    obtain ⟨more', hmore, hb⟩ := h.2 rfl
    exact ⟨more ++ more', hext.trans hmore, fun hbi => by rw [hbare hbi, hb hbi]; rfl⟩

/-- the arrays are full -/
theorem not_roomy_of_full (h : Tree ns pat) {i c : ℕ} (hi : i < ns.length) (hc : IsChild ns i c)
    (hf : (elemAt ns c).isField = true) {o : Out} (hfull : o.slots.length ≤ o.n) :
    ¬ (Roomy ns pat o.slots.length ∧ o.n ≤ fields (pat i)) := by
  intro hr
  have hroom := hr.1.room c (h.of_child hi hc).1
  rw [fields_child h hi hc, if_pos hf] at hroom
  omega

/-- a field that has been written leaves room below it -/
theorem roomy_child (h : Tree ns pat) {i c : ℕ} (hi : i < ns.length) (hc : IsChild ns i c)
    (hf : (elemAt ns c).isField = true) {o o1 : Out} {e : View × Bytes} (hext : o.Ext o1 [e])
    (hr : Roomy ns pat o.slots.length ∧ o.n ≤ fields (pat i)) :
    Roomy ns pat o1.slots.length ∧ o1.n ≤ fields (pat c) := by
  have hn := hext.n_eq
  rw [fields_child h hi hc, if_pos hf, hext.length, hn]
  exact ⟨hr.1, Nat.add_le_add_right hr.2 1⟩

/-- a field, when what is below it has been searched -/
theorem Post.taking (h : Tree ns pat) {i c : ℕ} (hi : i < ns.length) (hc : IsChild ns i c)
    (hf : (elemAt ns c).isField = true) {taken rest : List Bytes} {o o1 : Out} {e : View × Bytes}
    (hext : o.Ext o1 [e]) (he : seen segs e = (taken, (nodeAt ns c).seg.id)) {res : Except Fault (Option ℕ × Out)}
    (hres : Post ns pat segs (alts u ns level c rest) c o1 res) :
    Post ns pat segs (taking u ns level c taken rest) i o res := by
  match res with
  | .error f => exact ⟨hres.1, fun hr => hres.2 (roomy_child h hi hc hf hext hr)⟩
  | .ok (some j, o2) => exact ⟨best_taking hres.1 (fun more hmore => hext.trans hmore) he, fun h0 => (by cases h0)⟩
  | .ok (none, o2) =>
    refine ⟨taking_empty hres.1, ?_⟩
    intro _
    obtain ⟨more, hmore, -⟩ := hres.2 rfl
    refine ⟨_, hext.trans hmore, ?_⟩
    intro hb
    rw [(bare_child h hi hc hb).1] at hf
    cases hf

/-- a literal, when what is below it has been searched; it stays the node whose fields count -/
theorem Post.past {c : ℕ} {rest : List Bytes} {o : Out} {res : Except Fault (Option ℕ × Out)}
    (hres : Post ns pat segs (alts u ns level c rest) c o res) :
    Post ns pat segs (past u ns level c rest) c o res := by
  match res with
  | .error f => exact hres
  | .ok (some j, o2) => exact ⟨best_past hres.1, fun h0 => (by cases h0)⟩
  | .ok (none, o2) => exact ⟨past_empty hres.1, hres.2⟩

/-- the parent of a literal -/
theorem Post.of_literal (h : Tree ns pat) {i c : ℕ} (hi : i < ns.length) (hc : IsChild ns i c)
    (hl : (elemAt ns c).isField = false) {S : Set (List Letter × ℕ × List (ℕ × List Bytes))} {o : Out}
    {res : Except Fault (Option ℕ × Out)} (hres : Post ns pat segs S c o res) : Post ns pat segs S i o res := by
  have hfields := fields_child h hi hc
  rw [hl, if_neg (by decide), Nat.add_zero] at hfields
  match res with
  | .error f => exact ⟨hres.1, fun hr => hres.2 (hfields ▸ hr)⟩
  | .ok (some j, o2) => exact ⟨hres.1, fun h0 => (by cases h0)⟩
  | .ok (none, o2) =>
    refine ⟨hres.1, ?_⟩
    intro _
    obtain ⟨more, hmore, hb⟩ := hres.2 rfl
    exact ⟨more, hmore, fun hbi => hb (bare_child h hi hc hbi).2⟩

/-- **One after the other**: what comes first decides when it succeeds. -/
theorem Post.orElse {S T : Set (List Letter × ℕ × List (ℕ × List Bytes))} {i : ℕ} {o : Out}
    {res : Except Fault (Option ℕ × Out)} {f : Option ℕ × Out → Except Fault (Option ℕ × Out)}
    (hres : Post ns pat segs S i o res) (hle : ∀ x ∈ S, ∀ y ∈ T, x.1 ≤ y.1)
    (hsome : ∀ j o', f (some j, o') = .ok (some j, o'))
    (hnone : ∀ o' more, o.Ext o' more → (Bare ns pat i → more = []) → Post ns pat segs T i o (f (none, o'))) :
    Post ns pat segs (S ∪ T) i o (res >>= f) := by
  match res with
  | .error e => exact hres
  | .ok (some j, o') =>
    have hf : (Except.ok (some j, o') >>= f) = .ok (some j, o') := hsome j o'
    rw [hf]
    exact ⟨hres.1.left hle, fun h0 => (by cases h0)⟩
  | .ok (none, o') =>
    obtain ⟨more, hmore, hb⟩ := hres.2 rfl
    have hS : S = ∅ := hres.1
    rw [hS, Set.empty_union]
    exact hnone o' more hmore hb

/-! ### At the end of the path -/

theorem via_end {c : ℕ} (h : (elemAt ns c).Takes 0) : via u ns level c [] = taking u ns level c [] [] := by
  ext x
  rw [via, via_nil]
  exact and_iff_right h

theorem via_end_empty {c : ℕ} (h : ¬ (elemAt ns c).Takes 0) : via u ns level c [] = ∅ := by
  refine Set.eq_empty_of_forall_notMem ?_
  intro x hx
  rw [via, via_nil] at hx
  exact h hx.1

/-- find_optional_resource goes to the children that may take nothing -/
theorem skips_iff (c : ℕ) :
    (!(nodeAt ns c).seg.isOptional && !(nodeAt ns c).seg.isStar) = true ↔ ¬ (elemAt ns c).Takes 0 := by
  have hopt : (nodeAt ns c).seg.isOptional = true ↔ elemAt ns c = .opt := isOptional_iff
  have hstar : (nodeAt ns c).seg.isStar = true ↔ elemAt ns c = .star := isStar_iff
  rw [Bool.and_eq_true, Bool.not_eq_true', Bool.not_eq_true', ← Bool.not_eq_true, ← Bool.not_eq_true, hopt, hstar]
  cases elemAt ns c <;> simp [Elem.Takes]

theorem optionalLoop_skips {rec : ℕ → Out → Except Fault (Option ℕ × Out)} {cs : List ℕ}
    (hcs : ∀ c ∈ cs, ¬ (elemAt ns c).Takes 0) (o : Out) : optionalLoop rec ns cs o = .ok (none, o) := by
  induction cs with
  | nil => rfl
  | cons c cs ih =>
    rw [optionalLoop, if_pos ((skips_iff c).2 (hcs c List.mem_cons_self))]
    exact ih fun d hd => hcs d (List.mem_cons_of_mem _ hd)

/-- no resource, and no child that may take nothing -/
theorem findOptional_fails {i : ℕ} (hres : (nodeAt ns i).resource = none) (hne : (nodeAt ns i).childIdx.toList ≠ [])
    (hno : ∀ c ∈ (nodeAt ns i).childIdx.toList, ¬ (elemAt ns c).Takes 0) {fuel : ℕ} (hfuel : 0 < fuel) (o : Out) :
    findOptional ns fuel i o = .ok (none, o) := by
  obtain ⟨fuel, rfl⟩ : ∃ k, fuel = k + 1 := ⟨fuel - 1, by omega⟩
  have hempty : ¬ (nodeAt ns i).childIdx.empty = true := by rwa [ChildIdxVector.empty_iff]
  rw [findOptional, if_neg (by simp [hres]), if_neg hempty]
  exact optionalLoop_skips hno o

theorem optionalLoop_spec (h : Tree ns pat) {i : ℕ} (hi : i < ns.length)
    {rec : ℕ → Out → Except Fault (Option ℕ × Out)}
    (hrec : ∀ c o, IsChild ns i c → o.n ≤ o.slots.length → Post ns pat segs (alts u ns 0 c []) c o (rec c o))
    {cs : List ℕ} (hcs : cs.Sublist (nodeAt ns i).childIdx.toList) {o : Out} (ho : o.n ≤ o.slots.length) :
    Post ns pat segs (viaAny u ns 0 cs []) i o (optionalLoop rec ns cs o) := by
  induction cs generalizing o with
  | nil => exact ⟨viaAny_nil, fun _ => ⟨[], .refl ho, fun _ => rfl⟩⟩
  | cons c cs ih =>
    have hc : IsChild ns i c := hcs.subset List.mem_cons_self
    have hcs' : cs.Sublist (nodeAt ns i).childIdx.toList := (List.sublist_cons_self c cs).trans hcs
    rw [viaAny_cons]
    unfold optionalLoop
    by_cases hno : (elemAt ns c).Takes 0
    · rw [if_neg (mt (skips_iff c).1 (not_not_intro hno)), via_end hno]
      cases hpush : o.push none (nodeAt ns c).seg.id with
      | error e => exact ⟨(Out.push_error hpush).1, not_roomy_of_full h hi hc hno.isField (Out.push_error hpush).2⟩
      | ok o1 =>
        have hext := Out.push_ok ho hpush
        refine Post.orElse (Post.taking h hi hc hno.isField hext rfl (hrec c o1 hc hext.le')) ?_ (fun _ _ => rfl) ?_
        · intro x hx y hy
          rw [← via_end hno] at hx
          exact via_le_viaAny h hi hcs hx hy
        · intro o2 more hmore hb
          have hback := hmore.rewind_zero
          exact (ih hcs' hback.le').after hback (fun _ => Or.inl rfl) (fun _ => rfl) fun _ => rfl
    · rw [if_pos ((skips_iff c).2 hno), via_end_empty hno, Set.empty_union]
      exact ih hcs' ho

/-- a node with a resource is the least end -/
theorem best_here {i : ℕ} {o : Out} (ho : o.n ≤ o.slots.length) (hr : (nodeAt ns i).resource.isSome = true) :
    Best (Found ns pat segs o) (alts u ns 0 i []) (some (i, o)) :=
  ⟨[], (i, []), ⟨.stop i, rfl, hr⟩, ⟨rfl, [], .refl ho, List.Sublist.refl _, fun _ => rfl⟩, fun x _ => nil_le_word x.1⟩

theorem findOptional_spec (h : Tree ns pat)
    (hw : ∀ i, i < ns.length → i ≠ 0 → (nodeAt ns i).resource = none → (nodeAt ns i).childIdx.toList ≠ [])
    {fuel i : ℕ} (hi : i < ns.length) (h0 : i ≠ 0) (hfuel : ns.length < fuel + i) {o : Out}
    (ho : o.n ≤ o.slots.length) : Post ns pat segs (alts u ns 0 i []) i o (findOptional ns fuel i o) := by
  induction fuel generalizing i o with
  | zero => omega
  | succ fuel ih =>
    unfold findOptional
    split_ifs with hr hempty
    · exact ⟨best_here ho hr, fun h0 => (by cases h0)⟩
    · rw [ChildIdxVector.empty_iff] at hempty
      exact absurd hempty (hw i hi h0 (by simpa using hr))
    · rw [alts_eq_viaAny (Or.inr fun hend => hr hend.2)]
      refine optionalLoop_spec h hi ?_ (List.Sublist.refl _) ho
      intro c o' hc ho'
      obtain ⟨hlt, hic, -⟩ := h.of_child hi hc
      exact ih hlt (by omega) (by omega) ho'

/-! ### A star or plus -/

/-- the walks through c that leave the segments from one of these positions on -/
def takingTo (u : Url) (ns : List (Node V)) (level : ℤ) (segs : List Bytes) (c it first k : ℕ) :
    Set (List Letter × ℕ × List (ℕ × List Bytes)) :=
  { x | ∃ start, first ≤ start ∧ start ≤ first + k ∧
    x ∈ taking u ns level c ((segs.drop it).take (start - it)) (segs.drop start) }

theorem takingTo_zero (c it first : ℕ) : takingTo u ns level segs c it first 0 =
    taking u ns level c ((segs.drop it).take (first - it)) (segs.drop first) := by
  ext x
  constructor
  · intro h
    obtain ⟨start, h1, h2, hx⟩ := h
    obtain rfl : start = first := by omega
    exact hx
  · intro hx
    exact ⟨first, le_rfl, le_rfl, hx⟩

theorem takingTo_succ (c it first k : ℕ) : takingTo u ns level segs c it first (k + 1) =
    taking u ns level c ((segs.drop it).take (first + k + 1 - it)) (segs.drop (first + k + 1)) ∪
      takingTo u ns level segs c it first k := by
  ext x
  constructor
  · intro h
    obtain ⟨start, h1, h2, hx⟩ := h
    rcases Nat.lt_or_ge (first + k) start with hlt | hge
    · obtain rfl : start = first + k + 1 := by omega
      exact Or.inl hx
    · exact Or.inr ⟨start, h1, hge, hx⟩
  · rintro (hx | hx)
    · exact ⟨first + k + 1, by omega, le_rfl, hx⟩
    · obtain ⟨start, h1, h2, hx⟩ := hx
      exact ⟨start, h1, by omega, hx⟩

/-- all of them -/
theorem via_eq_takingTo {c it first : ℕ} (hit : it < segs.length)
    (he : elemAt ns c = .star ∧ first = it ∨ elemAt ns c = .plus ∧ first = it + 1) :
    via u ns level c (segs.drop it) = takingTo u ns level segs c it first (segs.length - first) := by
  have he' : elemAt ns c = .star ∧ first - it = 0 ∨ elemAt ns c = .plus ∧ first - it = 1 := by
    rcases he with h | h
    · exact Or.inl ⟨h.1, by omega⟩
    · exact Or.inr ⟨h.1, by omega⟩
  have hle : it ≤ first := by rcases he with h | h <;> omega
  ext x
  rw [via, mem_via_many he']
  simp only [List.length_drop, List.drop_drop]
  constructor
  · intro h
    obtain ⟨n, h1, h2, hx⟩ := h
    refine ⟨it + n, by omega, by omega, ?_⟩
    rwa [Nat.add_sub_cancel_left]
  · intro h
    obtain ⟨start, h1, h2, hx⟩ := h
    have hsub : it + (start - it) = start := by omega
    exact ⟨start - it, by omega, by omega, by rwa [hsub]⟩

theorem starLoop_spec (h : Tree ns pat) {i c it first : ℕ} (hi : i < ns.length) (hc : IsChild ns i c)
    (he : elemAt ns c = .star ∧ first = it ∨ elemAt ns c = .plus ∧ first = it + 1)
    {rec : ℕ → Out → Except Fault (Option ℕ × Out)}
    (hrec : ∀ start o, first ≤ start → start ≤ segs.length → o.n ≤ o.slots.length →
      Post ns pat segs (alts u ns level c (segs.drop start)) c o (rec start o))
    {k : ℕ} (hk : first + k ≤ segs.length) {o o1 : Out}
    (hext : o.Ext o1 [(some (it, it + 1), (nodeAt ns c).seg.id)]) :
    Post ns pat segs (takingTo u ns level segs c it first k) i o
      (starLoop rec (nodeAt ns c).seg.isPlus o.n first k o1) := by
  have hf : (elemAt ns c).isField = true := by rcases he with h | h <;> rw [h.1] <;> rfl
  have hnot : ¬ Bare ns pat i := by
    intro hb
    rw [(bare_child h hi hc hb).1] at hf
    cases hf
  have hplus : (nodeAt ns c).seg.isPlus = true ↔ first = it + 1 := by
    rw [isPlus_iff]
    rcases he with h | h
    · have h1 : (nodeAt ns c).seg.elem = .star := h.1
      rw [h1]
      exact iff_of_false (by simp) (by omega)
    · exact iff_of_true h.1 h.2
  induction k generalizing o1 with
  | zero =>
    have hback : o.Ext (o1.rewind (o.n + 1)) [(some (it, it + 1), (nodeAt ns c).seg.id)] := hext.rewind le_rfl
    have hpost := hrec first (o1.rewind (o.n + 1)) le_rfl hk hback.le'
    rw [takingTo_zero]
    unfold starLoop
    match hres : rec first (o1.rewind (o.n + 1)) with
    | .error f =>
      rw [hres] at hpost
      exact ⟨hpost.1, fun hr => hpost.2 (roomy_child h hi hc hf hback hr)⟩
    | .ok (some j, o2) =>
      rw [hres] at hpost
      refine ⟨?_, fun h0 => (by cases h0)⟩
      cases hp : (nodeAt ns c).seg.isPlus with
      | true =>
        refine best_taking hpost.1 (fun more hmore => hback.trans hmore) ?_
        rw [hplus.1 hp]
        rfl
      | false =>
        have hfirst : first = it := by
          rcases he with h | h
          · exact h.2
          · rw [hplus.2 h.2] at hp
            cases hp
        refine best_taking hpost.1 (fun more hmore => (hback.trans hmore).setView none) ?_
        rw [hfirst, Nat.sub_self]
        rfl
    | .ok (none, o2) =>
      rw [hres] at hpost
      obtain ⟨more, hmore, -⟩ := hpost.2 rfl
      exact ⟨taking_empty hpost.1, fun _ => ⟨_, hback.trans hmore, fun hb => absurd hb hnot⟩⟩
  | succ k ih =>
    have hpost := hrec (first + k + 1) o1 (by omega) hk hext.le'
    rw [takingTo_succ]
    unfold starLoop
    match hres : rec (first + k + 1) o1 with
    | .error f =>
      rw [hres] at hpost
      exact ⟨hpost.1, fun hr => hpost.2 (roomy_child h hi hc hf hext hr)⟩
    | .ok (some j, o2) =>
      rw [hres] at hpost
      obtain ⟨_, _, _, ⟨_, more, hmore, _⟩, _⟩ := hpost.1
      have hlt : it < first + k + 1 := by omega
      obtain ⟨o3, hextend, -⟩ := (hext.trans hmore).extend (k := first + k + 1) hlt
      simp only [bind, Except.bind, hextend]
      refine ⟨?_, fun h0 => (by cases h0)⟩
      refine Best.left (best_taking (e := (some (it, first + k + 1), (nodeAt ns c).seg.id)) hpost.1 ?_ rfl) ?_
      · intro more' hmore'
        obtain ⟨o4, hextend', hext'⟩ := (hext.trans hmore').extend (k := first + k + 1) hlt
        rw [hextend] at hextend'
        cases hextend'
        exact hext'
      · intro x hx y hy
        obtain ⟨start, h1, h2, hy⟩ := hy
        refine taking_le ?_ hx hy
        simp only [List.length_drop]
        omega
    | .ok (none, o2) =>
      rw [hres] at hpost
      obtain ⟨more, hmore, -⟩ := hpost.2 rfl
      rw [taking_empty hpost.1, Set.empty_union]
      exact ih (by omega) ((hext.trans hmore).rewind (k := 1) (by simp))

end Search

end Gss.Router
