/-
Whether router::find returns, on any path, dot segments or not, in a router that inserts leave in which no template
takes back a segment of its own (`Inserted`).

A double dot takes the pointers one view back when the node it leaves is a field. A part of the search that fails may
have taken back more than it wrote, and after a literal child the pointers are not set back. Where literals and fields
do not meet, no literal is tried, so the pointers stay with the node.

- `find_ends`: the search ends, on any path.
- `find_returns`: when no literal is beside a field, without star and plus, and with enough slots, find returns on any
  path.
-/
import Gss.Router.Lookup

namespace Gss.Router

open Gss.Core SegmentTemplate

variable {V : Type*}

section Search

variable {u : Url} {ns : List (Node V)} {pat : ℕ → List (Elem Bytes)} {segs : List Bytes}

/-! ## The search ends -/

/-- the fuel lasts -/
def Lasts {α : Type} (res : Except Fault α) : Prop := res ≠ .error .fuel

theorem lasts_ok {α : Type} (a : α) : Lasts (.ok a) := fun h => (by cases h)

theorem Lasts.bind {α β : Type} {res : Except Fault α} (h : Lasts res) {f : α → Except Fault β}
    (hf : ∀ a, Lasts (f a)) : Lasts (res >>= f) := by
  cases res with
  | error e => exact fun he => h (by cases he; rfl)
  | ok a => exact hf a

theorem lasts_push (o : Out) (v : View) (id : Bytes) : Lasts (o.push v id) := by
  unfold Out.push
  split_ifs <;> exact fun h => (by cases h)

theorem lasts_pop (o : Out) : Lasts o.pop := by
  unfold Out.pop
  split_ifs <;> exact fun h => (by cases h)

theorem lasts_extend (o : Out) (n j : ℕ) : Lasts (o.extend n j) := by
  unfold Out.extend
  repeat' split
  all_goals exact fun h => (by cases h)

theorem optionalLoop_lasts {rec : ℕ → Out → Except Fault (Option ℕ × Out)} {cs : List ℕ}
    (hrec : ∀ c ∈ cs, ∀ o, Lasts (rec c o)) (o : Out) : Lasts (optionalLoop rec ns cs o) := by
  induction cs generalizing o with
  | nil => exact lasts_ok _
  | cons c cs ih =>
    have ih := ih fun c hc => hrec c (List.mem_cons_of_mem _ hc)
    unfold optionalLoop
    dsimp only
    split_ifs
    · exact ih o
    · refine (lasts_push _ _ _).bind fun o1 => (hrec c List.mem_cons_self o1).bind ?_
      rintro ⟨_ | j, o2⟩
      · exact ih _
      · exact lasts_ok _

theorem findOptional_lasts (h : Tree ns pat) {fuel i : ℕ} (hfuel : ns.length ≤ fuel + i) (hpos : 0 < fuel) (o : Out) :
    Lasts (findOptional ns fuel i o) := by
  induction fuel generalizing i o with
  | zero => omega
  | succ fuel ih =>
    unfold findOptional
    split_ifs
    · exact lasts_ok _
    · exact fun h => (by cases h)
    · refine optionalLoop_lasts ?_ o
      intro c hc o'
      have hbounds := child_bounds h hc
      exact ih (by omega) (by omega) o'

theorem starLoop_lasts {rec : ℕ → Out → Except Fault (Option ℕ × Out)} {plus : Bool} {n first k : ℕ}
    (hrec : ∀ start o, first ≤ start → start ≤ first + k → Lasts (rec start o)) (o : Out) :
    Lasts (starLoop rec plus n first k o) := by
  induction k generalizing o with
  | zero =>
    unfold starLoop
    refine Lasts.bind (hrec first _ le_rfl le_rfl) ?_
    rintro ⟨_ | j, o1⟩ <;> exact lasts_ok _
  | succ k ih =>
    unfold starLoop
    refine Lasts.bind (hrec (first + k + 1) _ (by omega) le_rfl) ?_
    rintro ⟨_ | j, o1⟩
    · exact ih (fun start o h1 h2 => hrec start o h1 (by omega)) _
    · exact (lasts_extend _ _ _).bind fun o2 => lasts_ok _

theorem childLoop_lasts {rec : ℕ → ℕ → Out → Except Fault (Option ℕ × Out)} {branch : Bool} {it : ℕ} {s : Bytes}
    (hit : it < segs.length) {cs : List ℕ}
    (hrec : ∀ start, ∀ c ∈ cs, ∀ o, it ≤ start → start ≤ segs.length → Lasts (rec start c o)) (o : Out) :
    Lasts (childLoop rec u ns segs branch it s cs o) := by
  induction cs generalizing o with
  | nil => exact lasts_ok _
  | cons c cs ih =>
    have ih := ih fun start c hc => hrec start c (List.mem_cons_of_mem _ hc)
    have hstay := fun o => hrec it c List.mem_cons_self o le_rfl hit.le
    have hnext := fun o => hrec (it + 1) c List.mem_cons_self o (Nat.le_succ it) hit
    unfold childLoop
    dsimp only
    split_ifs
    · exact ih o
    · -- a literal
      refine (hnext o).bind ?_
      rintro ⟨_ | j, o1⟩
      · exact ih _
      · exact lasts_ok _
    · exact lasts_ok _
    · -- {id}
      refine (lasts_push _ _ _).bind fun o1 => (hnext o1).bind ?_
      rintro ⟨_ | j, o2⟩
      · exact ih _
      · exact lasts_ok _
    · exact (lasts_push _ _ _).bind fun o1 => lasts_ok _
    · -- {id?}, with the segment and without
      refine (lasts_push _ _ _).bind fun o1 => (hnext o1).bind ?_
      rintro ⟨_ | j, o2⟩
      · refine (lasts_push _ _ _).bind fun o3 => (hstay o3).bind ?_
        rintro ⟨_ | j, o4⟩
        · exact ih _
        · exact lasts_ok _
      · exact lasts_ok _
    · exact lasts_ok _
    all_goals
      refine (lasts_push _ _ _).bind fun o1 => Lasts.bind (starLoop_lasts ?_ o1) ?_
      · exact fun start o h1 h2 => hrec start c List.mem_cons_self o (by omega) (by omega)
      · rintro ⟨_ | j, o2⟩
        · exact ih _
        · exact lasts_ok _

theorem tryMatch_lasts (h : Tree ns pat) {fuel it cur : ℕ} {level : ℤ} (hit : it ≤ segs.length)
    (hfuel : (segs.length - it) * (ns.length + 1) + (ns.length - cur) < fuel) (o : Out) :
    Lasts (tryMatch u ns segs fuel it cur level o) := by
  induction fuel generalizing it cur level o with
  | zero => omega
  | succ fuel ih =>
    rcases Nat.lt_or_ge it segs.length with hlt | hge
    · have hs : segs[it]? = some segs[it] := List.getElem?_eq_getElem hlt
      have hnext : ∀ cur level o, Lasts (tryMatch u ns segs fuel (it + 1) cur level o) := fun cur level o =>
        ih hlt (fuel_ahead (by omega : segs.length - (it + 1) < segs.length - it) (Nat.sub_le _ _) hfuel) o
      by_cases hdot : u.decode segs[it] = dot
      · rw [tryMatch_dot hs hdot]
        exact hnext _ _ _
      by_cases hdotdot : u.decode segs[it] = dotdot
      · by_cases hup : level ≤ 0 ∧ cur ≠ 0
        · rw [tryMatch_back hs hdotdot hup]
          refine Lasts.bind ?_ fun o1 => hnext _ _ _
          split_ifs
          · exact lasts_ok o
          · exact lasts_pop o
        · rw [tryMatch_up hs hdotdot hup]
          exact hnext _ _ _
      rcases Int.lt_or_le level 0 with hlevel | hlevel
      · rw [tryMatch_down hs ⟨hdot, hdotdot⟩ hlevel]
        exact hnext _ _ _
      rw [tryMatch_children hs ⟨hdot, hdotdot⟩ hlevel]
      refine Lasts.bind (childLoop_lasts hlt ?_ o) ?_
      · intro start c hc o' h1 h2
        have hbounds := child_bounds h hc
        refine ih h2 ?_ o'
        rcases Nat.eq_or_lt_of_le h1 with rfl | hlt'
        · omega
        · exact fuel_ahead (by omega : segs.length - start < segs.length - it) (Nat.sub_le _ _) hfuel
      · rintro ⟨_ | c | _, o1⟩
        · exact lasts_ok _
        · exact hnext _ _ _
        · exact hnext _ _ _
    · rw [tryMatch_end (List.getElem?_eq_none hge)]
      have hpos := h.pos
      split_ifs
      · exact lasts_ok _
      · exact findOptional_lasts h (by omega) hpos o
      · exact lasts_ok _

/-! ## Where literals and fields do not meet -/

/-- as roomy, and no literal is beside a field -/
structure Calm (ns : List (Node V)) (pat : ℕ → List (Elem Bytes)) (N : ℕ) : Prop extends Roomy ns pat N where
  alike : ∀ i c d, i < ns.length → IsChild ns i c → IsChild ns i d → (elemAt ns c).isField = (elemAt ns d).isField

/-- N slots, and one view for each field down to i -/
structure Full (pat : ℕ → List (Elem Bytes)) (N i : ℕ) (o : Out) : Prop where
  length : o.slots.length = N
  views : o.n = fields (pat i)

/-- the pointers are in the arrays -/
def Within (N : ℕ) (res : Except Fault (Option ℕ × Out)) : Prop :=
  ∃ x o, res = .ok (x, o) ∧ o.slots.length = N ∧ o.n ≤ N

def StepWithin (ns : List (Node V)) (pat : ℕ → List (Elem Bytes)) (N i : ℕ) (res : Except Fault (Step × Out)) : Prop :=
  ∃ st o, res = .ok (st, o) ∧
    match st with
    | .found _ => o.slots.length = N ∧ o.n ≤ N
    | .moved c => IsChild ns i c ∧ Full pat N c o
    | .unmatched => Full pat N i o

variable {N i c : ℕ} {o o' : Out}

theorem Full.rewind (h : Full pat N i o) (ho' : o'.slots.length = N) : Full pat N i (o'.rewind o.n) := ⟨ho', h.views⟩

/-- going down by a literal -/
theorem Full.literal (h : Full pat N i o) (ht : Tree ns pat) (hi : i < ns.length) (hc : IsChild ns i c)
    (hl : (elemAt ns c).isField = false) : Full pat N c o :=
  ⟨h.length, by rw [h.views, fields_child ht hi hc, hl]; rfl⟩

/-- going down by a field -/
theorem Full.push (h : Full pat N i o) (ht : Tree ns pat) (hcalm : Calm ns pat N) (hi : i < ns.length)
    (hc : IsChild ns i c) (hf : (elemAt ns c).isField = true) (v : View) (id : Bytes) :
    ∃ o1, o.push v id = .ok o1 ∧ Full pat N c o1 := by
  have hfields := fields_child ht hi hc
  have hroom := hcalm.room c (ht.of_child hi hc).1
  rw [hf, if_pos rfl] at hfields
  refine ⟨⟨o.slots.set o.n (v, id), o.n + 1⟩, if_pos ?_, by simpa using h.length, by rw [hfields, h.views]⟩
  rw [h.length, h.views]
  omega

theorem optionalLoop_calm (ht : Tree ns pat) (hcalm : Calm ns pat N) (hi : i < ns.length)
    {rec : ℕ → Out → Except Fault (Option ℕ × Out)} (hrec : ∀ c o, IsChild ns i c → Full pat N c o → Within N (rec c o))
    {cs : List ℕ} (hcs : ∀ c ∈ cs, IsChild ns i c) (h : Full pat N i o) : Within N (optionalLoop rec ns cs o) := by
  induction cs generalizing o with
  | nil => exact ⟨none, o, rfl, h.length, h.views ▸ hcalm.room i hi⟩
  | cons c cs ih =>
    have hc := hcs c List.mem_cons_self
    have hcs' : ∀ d ∈ cs, IsChild ns i d := fun d hd => hcs d (List.mem_cons_of_mem _ hd)
    unfold optionalLoop
    dsimp only
    split_ifs with hskip
    · exact ih hcs' h
    · rw [skips_iff, not_not] at hskip
      obtain ⟨o1, hpush, hfull⟩ := h.push ht hcalm hi hc hskip.isField none (nodeAt ns c).seg.id
      obtain ⟨x, o2, hres, hlen, hle⟩ := hrec c o1 hc hfull
      rw [hpush]
      simp only [bind, Except.bind, hres]
      cases x with
      | none => exact ih hcs' (h.rewind hlen)
      | some j => exact ⟨some j, o2, rfl, hlen, hle⟩

theorem findOptional_calm (ht : Tree ns pat) (hcalm : Calm ns pat N)
    (hw : ∀ i, i < ns.length → (nodeAt ns i).resource = none → (nodeAt ns i).childIdx.toList ≠ []) {fuel : ℕ}
    (hi : i < ns.length) (hfuel : ns.length ≤ fuel + i) (h : Full pat N i o) : Within N (findOptional ns fuel i o) := by
  induction fuel generalizing i o with
  | zero => omega
  | succ fuel ih =>
    unfold findOptional
    split_ifs with hr hempty
    · exact ⟨_, o, rfl, h.length, h.views ▸ hcalm.room i hi⟩
    · rw [ChildIdxVector.empty_iff] at hempty
      exact absurd hempty (hw i hi (by simpa using hr))
    · refine optionalLoop_calm ht hcalm hi ?_ (fun c hc => hc) h
      intro c o' hc hfull
      obtain ⟨hlt, hic, -⟩ := ht.of_child hi hc
      exact ih hlt (by omega) hfull

/-- a literal is not branched at -/
theorem not_branches (ht : Tree ns pat) (hcalm : Calm ns pat N) (hi : i < ns.length) (hc : IsChild ns i c)
    (hl : (elemAt ns c).isField = false) (s : Bytes) : branches u ns i s = false := by
  rw [← Bool.not_eq_true]
  intro hb
  obtain ⟨d, hd, hf⟩ := field_of_branches ht hi hb
  rw [hcalm.alike i d c hi hd hc, hl] at hf
  cases hf

theorem childLoop_calm (ht : Tree ns pat) (hcalm : Calm ns pat N) (hi : i < ns.length) {it : ℕ} {s : Bytes}
    {rec : ℕ → ℕ → Out → Except Fault (Option ℕ × Out)}
    (hrec : ∀ start c o, (start = it ∨ start = it + 1) → IsChild ns i c → Full pat N c o → Within N (rec start c o))
    {cs : List ℕ} (hcs : ∀ c ∈ cs, IsChild ns i c) (h : Full pat N i o) :
    StepWithin ns pat N i (childLoop rec u ns segs (branches u ns i s) it s cs o) := by
  induction cs generalizing o with
  | nil => exact ⟨.unmatched, o, rfl, h⟩
  | cons c cs ih =>
    have hc := hcs c List.mem_cons_self
    have hcs' : ∀ d ∈ cs, IsChild ns i d := fun d hd => hcs d (List.mem_cons_of_mem _ hd)
    obtain ⟨hclt, hic, -⟩ := ht.of_child hi hc
    have hsingle := hcalm.single c hclt (by omega)
    cases he : elemAt ns c with
    | lit l =>
      by_cases hs : u.decode s = l
      · have hlit : (elemAt ns c).isField = false := by rw [he]; rfl
        rw [childLoop_lit he hs, not_branches ht hcalm hi hc hlit, if_neg Bool.false_ne_true]
        exact ⟨.moved c, o, rfl, hc, h.literal ht hi hc hlit⟩
      · rw [childLoop_pass he hs]
        exact ih hcs' h
    | one =>
      have hf : (elemAt ns c).isField = true := by rw [he]; rfl
      obtain ⟨o1, hpush, hfull⟩ := h.push ht hcalm hi hc hf (some (it, it + 1)) (nodeAt ns c).seg.id
      obtain ⟨x, o2, hres, hlen, hle⟩ := hrec (it + 1) c o1 (Or.inr rfl) hc hfull
      rw [childLoop_one he, hpush]
      simp only [bind, Except.bind, hres]
      split_ifs
      · cases x with
        | none => exact ih hcs' (h.rewind hlen)
        | some j => exact ⟨.found j, o2, rfl, hlen, hle⟩
      · exact ⟨.moved c, o1, rfl, hc, hfull⟩
    | opt =>
      have hf : (elemAt ns c).isField = true := by rw [he]; rfl
      obtain ⟨o1, hpush, hfull⟩ := h.push ht hcalm hi hc hf (some (it, it + 1)) (nodeAt ns c).seg.id
      obtain ⟨x, o2, hres, hlen, hle⟩ := hrec (it + 1) c o1 (Or.inr rfl) hc hfull
      rw [childLoop_opt he, hpush]
      simp only [bind, Except.bind, hres]
      cases x with
      | some j => exact ⟨.found j, o2, rfl, hlen, hle⟩
      | none =>
        -- once more, without the segment
        obtain ⟨o3, hpush', hfull'⟩ := (h.rewind hlen).push ht hcalm hi hc hf none (nodeAt ns c).seg.id
        obtain ⟨y, o4, hres', hlen', hle'⟩ := hrec it c o3 (Or.inl rfl) hc hfull'
        simp only [hpush', hres']
        cases y with
        | some j => exact ⟨.found j, o4, rfl, hlen', hle'⟩
        | none => exact ih hcs' (h.rewind hlen')
    | star => exact absurd he hsingle.1
    | plus => exact absurd he hsingle.2

/-- going back takes the view of a field back -/
theorem Full.back (h : Full pat N c o) (ht : Tree ns pat) (hc : c < ns.length) (h0 : c ≠ 0) :
    ∃ o', (if (nodeAt ns c).seg.isLiteral then .ok o else o.pop) = .ok o' ∧
      (nodeAt ns c).parentIdx.getD 0 < c ∧ Full pat N ((nodeAt ns c).parentIdx.getD 0) o' := by
  obtain ⟨p, hpc, hp, -⟩ := ht.parent c hc h0
  have hchild : IsChild ns p c := (ht.child p c (hpc.trans hc)).2 ⟨hc, h0, hp⟩
  have hfields := fields_child ht (hpc.trans hc) hchild
  rw [elemAt, isField_elem] at hfields
  rw [hp, Option.getD_some]
  cases hl : (nodeAt ns c).seg.isLiteral with
  | true =>
    rw [hl] at hfields
    exact ⟨o, rfl, hpc, h.length, by rw [h.views, hfields]; rfl⟩
  | false =>
    rw [hl, Bool.not_false, if_pos rfl] at hfields
    have hn := h.views
    refine ⟨{ o with n := o.n - 1 }, ?_, hpc, h.length, by simp only; omega⟩
    rw [if_neg (by decide), Out.pop, if_neg (by omega)]

theorem tryMatch_calm (ht : Tree ns pat) (hcalm : Calm ns pat N)
    (hw : ∀ i, i < ns.length → (nodeAt ns i).resource = none → (nodeAt ns i).childIdx.toList ≠ []) {fuel it cur : ℕ}
    {level : ℤ} (hcur : cur < ns.length)
    (hfuel : (segs.length - it) * (ns.length + 1) + (ns.length - cur) < fuel) (h : Full pat N cur o) :
    Within N (tryMatch u ns segs fuel it cur level o) := by
  induction fuel generalizing it cur level o with
  | zero => omega
  | succ fuel ih =>
    rcases Nat.lt_or_ge it segs.length with hlt | hge
    · have hs : segs[it]? = some segs[it] := List.getElem?_eq_getElem hlt
      have hnext : ∀ {cur level o}, cur < ns.length → Full pat N cur o →
          Within N (tryMatch u ns segs fuel (it + 1) cur level o) := fun hcur h =>
        ih hcur (fuel_ahead (by omega : segs.length - (it + 1) < segs.length - it) (Nat.sub_le _ _) hfuel) h
      by_cases hdot : u.decode segs[it] = dot
      · rw [tryMatch_dot hs hdot]
        exact hnext hcur h
      by_cases hdotdot : u.decode segs[it] = dotdot
      · by_cases hup : level ≤ 0 ∧ cur ≠ 0
        · obtain ⟨o', hback, hlt', hfull⟩ := h.back ht hcur hup.2
          rw [tryMatch_back hs hdotdot hup, hback]
          exact hnext (hlt'.trans hcur) hfull
        · rw [tryMatch_up hs hdotdot hup]
          exact hnext hcur h
      rcases Int.lt_or_le level 0 with hlevel | hlevel
      · rw [tryMatch_down hs ⟨hdot, hdotdot⟩ hlevel]
        exact hnext hcur h
      have hloop : StepWithin ns pat N cur (childLoop (fun it i o => tryMatch u ns segs fuel it i level o) u ns segs
          (branches u ns cur segs[it]) it segs[it] (nodeAt ns cur).childIdx.toList o) := by
        refine childLoop_calm ht hcalm hcur ?_ (fun c hc => hc) h
        intro start c o' hstart hc hfull
        obtain ⟨hclt, hic, -⟩ := ht.of_child hcur hc
        rcases hstart with rfl | rfl
        · exact ih hclt (by omega) hfull
        · exact hnext hclt hfull
      obtain ⟨st, o', hres, hst⟩ := hloop
      rw [tryMatch_children hs ⟨hdot, hdotdot⟩ hlevel, hres]
      cases st with
      | found j => exact ⟨some j, o', rfl, hst⟩
      | moved c => exact hnext (ht.of_child hcur hst.1).1 hst.2
      | unmatched => exact hnext hcur hst
    · rw [tryMatch_end (List.getElem?_eq_none hge)]
      have hroom := hcalm.room cur hcur
      rw [← h.views] at hroom
      split_ifs with hlevel hr
      · exact ⟨none, o, rfl, h.length, hroom⟩
      · exact findOptional_calm ht hcalm hw hcur (by omega) h
      · exact ⟨some cur, o, rfl, h.length, hroom⟩

end Search

/-! ## Any path -/

/-- unmixed, without star and plus, no more than N fields, and no literal where another route has a field -/
structure Steady (routes : List (List SegmentTemplate × V)) (N : ℕ) : Prop extends Fit routes N where
  alike : ∀ r ∈ routes, ∀ r' ∈ routes, ∀ p e q e' q', shape r.1 = p ++ e :: q → shape r'.1 = p ++ e' :: q' →
    e.isField = e'.isField

theorem steady_iff {routes : List (List SegmentTemplate × V)} {N : ℕ} :
    Steady routes N ↔ Fit routes N ∧ Meet (fun e _ e' => e.isField = e'.isField) routes := by
  rw [meet_iff]
  exact ⟨fun h => ⟨h.toFit, h.alike⟩, fun h => ⟨h.1, h.2⟩⟩

instance (routes : List (List SegmentTemplate × V)) (N : ℕ) : Decidable (Steady routes N) :=
  decidable_of_iff' _ steady_iff

section Routes

variable {u : Url} {ns : List (Node V)} {pat : ℕ → List (Elem Bytes)} {routes : List (List SegmentTemplate × V)}

theorem Holds.calm (h : Holds ns pat routes) {N : ℕ} (hs : Steady routes N) : Calm ns pat N where
  toRoomy := h.roomy hs.toFit
  alike := by
    intro i c d hi hc hd
    obtain ⟨r, hr, q, hq⟩ := h.route_of_child hi hc
    obtain ⟨r', hr', q', hq'⟩ := h.route_of_child hi hd
    exact hs.alike r hr r' hr' _ _ _ _ _ hq hq'

variable {ps : List (Bytes × V)} {r : Impl V}

/-- **The search ends**, on any path. -/
theorem find_ends (h : Inserted u ps r) (path : List Bytes) (m : MatchesStorage) : find u r path m ≠ .error .fuel := by
  obtain ⟨pat, hholds⟩ := h.holds
  have hlasts : Lasts (findImpl u r path ⟨m.slots, 0⟩) :=
    tryMatch_lasts hholds.tree (Nat.zero_le _) (lt_fuelFor r.nodes (pathOf path)) ⟨m.slots, 0⟩
  intro hfuel
  unfold find at hfuel
  split at hfuel
  · rename_i e he
    cases hfuel
    exact hlasts he
  all_goals cases hfuel

theorem find_ends_small :
    find Url.unescaped smallRouter [bytes "..", bytes "files", bytes "."] (slotsOf 0) ≠ .error .fuel :=
  find_ends small_inserted _ _

/-- **It returns**, on any path, and writes nothing outside the arrays: when there are routes, no literal is beside a
field, there are no star and plus, and as many slots as a route has fields. -/
theorem find_returns (h : Inserted u ps r) (hne : routesOf u ps ≠ []) {m : MatchesStorage}
    (hs : Steady (routesOf u ps) m.slots.length) (path : List Bytes) :
    ∃ v m', find u r path m = .ok (v, m') ∧ m'.slots.length = m.slots.length ∧ m'.size ≤ m.slots.length := by
  obtain ⟨pat, hholds⟩ := h.holds
  have hw : ∀ i, i < r.nodes.length → (nodeAt r.nodes i).resource = none → (nodeAt r.nodes i).childIdx.toList ≠ [] := by
    intro i hi hres
    by_cases h0 : i = 0
    · obtain ⟨x, hx⟩ := List.exists_mem_of_ne_nil _ hne
      have hpre : pat i <+: shape x.1 := by rw [h0, hholds.tree.root]; exact List.nil_prefix
      exact (on_route hholds.tree hholds.names hholds.resources hi hx (List.mem_map_of_mem hx) hpre).resolve_left
        (not_not_intro hres)
    · exact hholds.childIdx_ne_nil hi h0 hres
  have hfull : Full pat m.slots.length 0 ⟨m.slots, 0⟩ := ⟨rfl, by rw [hholds.tree.root]; rfl⟩
  obtain ⟨x, o, hres, hlen, hle⟩ : Within m.slots.length (findImpl u r path ⟨m.slots, 0⟩) :=
    tryMatch_calm hholds.tree (hholds.calm hs) hw hholds.tree.pos (lt_fuelFor r.nodes (pathOf path)) hfull
  cases x with
  | none => exact ⟨none, ⟨o.slots, 0⟩, by rw [find, hres], hlen, Nat.zero_le _⟩
  | some j => exact ⟨_, ⟨o.slots, o.n⟩, by rw [find, hres], hlen, hle⟩

/-- up and down in files/{dir}/{name} -/
theorem find_returns_small : ∃ v m', find Url.unescaped smallRouter
    [bytes "files", bytes "a", bytes "..", bytes "..", bytes "..", bytes "x", bytes "files", bytes "b"] (slotsOf 2) =
      .ok (v, m') ∧ m'.slots.length = 2 ∧ m'.size ≤ 2 :=
  find_returns small_inserted (by decide) (m := slotsOf 2) (by decide) _

end Routes

end Gss.Router
