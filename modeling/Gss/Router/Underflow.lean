/-
How the double dots of a path take the pointers of router::find before the arrays of the caller.

When the search goes back over a field it takes the field's view back. A try that fails below a literal child may have
gone back over a field above the place where it began, and its view is not put back; a try below a star is put back, but
an empty view may have been written in the place of the star's.

- `find_underflows`: all routes go by an {id}, some of them on with a literal, some with {id} or {id?}. A path down to
  the literal and two segments back makes the pointers get before the arrays.
- `find_null_view`: all routes are literals, a star and a literal. A path that goes on behind the last literal by one
  segment and comes back makes a view of the star that starts at no segment.
-/
import Gss.Router.Overflow

namespace Gss.Router

open Gss.Core SegmentTemplate

variable {V : Type*}

section Underflow

variable {u : Url} {ns : List (Node V)} {pat : ℕ → List (Elem Bytes)} {segs : List Bytes} {level : ℤ}
  {routes : List (List SegmentTemplate × V)} {q0 : List (Elem Bytes)}

/-! ## At the end of the path -/

/-- no resource, and the only child takes something -/
theorem tryMatch_ends_without {i : ℕ} (hres : (nodeAt ns i).resource = none) {c : ℕ}
    (hc : (nodeAt ns i).childIdx.toList = [c]) (hno : ¬ (elemAt ns c).Takes 0) (hpos : 0 < ns.length) {it : ℕ}
    (hit : segs[it]? = none) (fuel : ℕ) (o : Out) : tryMatch u ns segs (fuel + 1) it i 0 o = .ok (none, o) := by
  rw [tryMatch_end hit, if_neg (by simp), if_pos (by rw [hres]; rfl)]
  exact findOptional_fails hres (by simp [hc]) (by rw [hc]; simpa using hno) hpos o

/-! ## Back over a field -/

/-- a double dot at a child of i -/
theorem tryMatch_back_to (h : Tree ns pat) {i c : ℕ} (hi : i < ns.length) (hc : IsChild ns i c) {it : ℕ} {s : Bytes}
    (hit : segs[it]? = some s) (hs : u.decode s = dotdot) (hlevel : level ≤ 0) (fuel : ℕ) (o : Out) :
    tryMatch u ns segs (fuel + 1) it c level o = (if (elemAt ns c).isField then o.pop else .ok o) >>= fun o1 =>
      tryMatch u ns segs fuel (it + 1) i level o1 := by
  obtain ⟨-, hic, hp, -⟩ := h.of_child hi hc
  rw [tryMatch_back hit hs ⟨hlevel, by omega⟩, hp, elemAt, isField_elem]
  cases (nodeAt ns c).seg.isLiteral <;> rfl

/-- i is an {id}, the only child of p -/
structure Single (ns : List (Node V)) (p i : ℕ) : Prop where
  bare : (nodeAt ns p).resource = none
  children : (nodeAt ns p).childIdx.toList = [i]
  one : elemAt ns i = .one

/-- two double dots at a child of i, at the end of the path -/
theorem tryMatch_twice_back (h : Tree ns pat) {p i c : ℕ} (hs : Single ns p i) (hp : p < ns.length) (hi : i < ns.length)
    (hc : IsChild ns i c) {it : ℕ} {d d' : Bytes} (hdrop : segs.drop it = [d, d']) (hd : u.decode d = dotdot)
    (hd' : u.decode d' = dotdot) (fuel : ℕ) (o : Out) : tryMatch u ns segs (fuel + 3) it c 0 o =
      (if (elemAt ns c).isField then o.pop else .ok o) >>= fun o1 => o1.pop >>= fun o2 => .ok (none, o2) := by
  have hget : ∀ k, segs[it + k]? = [d, d'][k]? := fun k => by rw [← hdrop, List.getElem?_drop]
  have hit : segs[it]? = some d := hget 0
  have hit' : segs[it + 1]? = some d' := hget 1
  have hpi : IsChild ns p i := by rw [IsChild, hs.children]; exact List.mem_singleton_self i
  have hf : (elemAt ns i).isField = true := by rw [hs.one]; rfl
  have hno : ¬ (elemAt ns i).Takes 0 := by rw [hs.one]; simp [Elem.Takes]
  rw [tryMatch_back_to h hi hc hit hd le_rfl]
  congr 1
  funext o1
  rw [tryMatch_back_to h hp hpi hit' hd' le_rfl, if_pos hf]
  congr 1
  funext o2
  exact tryMatch_ends_without hs.bare hs.children hno h.pos (hget 2) fuel o2

/-- after the literal has failed, the field has no view to put back -/
theorem childLoop_underflows (h : Tree ns pat) {i it : ℕ} (hi : i < ns.length) {s a : Bytes} (hs : u.decode s = a)
    {rec : ℕ → ℕ → Out → Except Fault (Option ℕ × Out)}
    (hrec : ∀ c o, IsChild ns i c → rec (it + 1) c o =
      (if (elemAt ns c).isField then o.pop else .ok o) >>= fun o1 => o1.pop >>= fun o2 => .ok (none, o2))
    {cs : List ℕ} (hcs : cs.Sublist (nodeAt ns i).childIdx.toList) {d : ℕ} (hd : d ∈ cs)
    (hed : elemAt ns d = .one ∨ elemAt ns d = .opt) {o : Out} (hroom : 0 < o.slots.length)
    (ho : o.n = 0 ∨ o.n = 1 ∧ ∃ c ∈ cs, elemAt ns c = .lit a) :
    childLoop rec u ns segs true it s cs o = .error .underflow := by
  induction cs generalizing o with
  | nil => cases hd
  | cons c cs ih =>
    have hc : IsChild ns i c := hcs.subset List.mem_cons_self
    have hcs' := (List.sublist_cons_self c cs).trans hcs
    have hsorted : ∀ x ∈ cs, (elemAt ns c).rank ≤ (elemAt ns x).rank :=
      (List.pairwise_cons.1 ((h.sorted i hi).sublist hcs)).1
    have hrec' := fun o => hrec c o hc
    -- a field comes after the literal
    have hn : (elemAt ns c).isField = true → o.n = 0 := by
      intro hf
      refine ho.resolve_right ?_
      intro ho
      obtain ⟨-, x, hx, hxa⟩ := ho
      rcases List.mem_cons.1 hx with rfl | hx
      · rw [hxa] at hf
        cases hf
      · have hrank := hsorted x hx
        rw [hxa] at hrank
        rw [Elem.rank_eq_zero.1 (Nat.le_zero.1 hrank)] at hf
        cases hf
    have hfail : (elemAt ns c).isField = true → ∃ o1, o.push (some (it, it + 1)) (nodeAt ns c).seg.id = .ok o1 ∧
        rec (it + 1) c o1 = .error .underflow := by
      intro hf
      refine ⟨⟨o.slots.set 0 _, 1⟩, by rw [Out.push, hn hf, if_pos hroom], ?_⟩
      rw [hrec', if_pos hf]
      rfl
    have hmany : d ∈ cs → ¬ (elemAt ns c).rank ≥ 3 := by
      intro hd
      have hrank := hsorted d hd
      rcases hed with hed | hed <;> rw [hed, Elem.rank] at hrank <;> omega
    cases he : elemAt ns c with
    | lit l =>
      have hdc : d ≠ c := by
        rintro rfl
        rw [he] at hed
        simp at hed
      have hdcs := List.mem_of_ne_of_mem hdc hd
      simp only [he, Elem.isField, Bool.false_eq_true, if_false] at hrec'
      by_cases hl : u.decode s = l
      · rw [childLoop_lit he hl, if_pos rfl, hrec']
        rcases ho with h0 | ⟨h1, -⟩
        · simp [bind, Except.bind, Out.pop, h0]
        · have hpop : o.pop = .ok { o with n := 0 } := by rw [Out.pop, if_neg (by omega), h1]
          simp only [bind, Except.bind, hpop]
          exact ih hcs' hdcs hroom (Or.inl rfl)
      · rw [childLoop_pass he hl]
        refine ih hcs' hdcs hroom (ho.imp_right ?_)
        intro ho
        obtain ⟨h1, x, hx, hxa⟩ := ho
        refine ⟨h1, x, List.mem_of_ne_of_mem ?_ hx, hxa⟩
        rintro rfl
        rw [he, Elem.lit.injEq] at hxa
        exact hl (hs.trans hxa.symm)
    | one =>
      obtain ⟨o1, hpush, hres⟩ := hfail (by rw [he]; rfl)
      rw [childLoop_one he, hpush]
      simp only [bind, Except.bind, hres, if_true]
    | opt =>
      obtain ⟨o1, hpush, hres⟩ := hfail (by rw [he]; rfl)
      rw [childLoop_opt he, hpush]
      simp only [bind, Except.bind, hres]
    | _ =>
      have hdc : d ≠ c := by
        rintro rfl
        rw [he] at hed
        simp at hed
      refine absurd ?_ (hmany (List.mem_of_ne_of_mem hdc hd))
      rw [he]
      decide

/-- where two children match, the search branches -/
theorem branches_of_two {i c d : ℕ} (hc : IsChild ns i c) (hd : IsChild ns i d) (hcd : c ≠ d) {s : Bytes}
    (hmc : (nodeAt ns c).seg.matchSeg u s = true) (hmd : (nodeAt ns d).seg.matchSeg u s = true) :
    branches u ns i s = true := by
  rw [← Bool.not_eq_false]
  exact fun hb => hcd (eq_of_not_branches hb hc hd hmc hmd)

/-- **Underflow.** When all routes begin with literals and an {id}, some of them go on with a literal and some with {id}
or {id?}, then a path down to the literal, and back over it and the {id}, makes the pointers get before the arrays. -/
theorem find_underflows {ps : List (Bytes × V)} {r : Impl V} (hr : Inserted u ps r) {ts : List SegmentTemplate}
    {a : Bytes} {e : Elem Bytes} (hlit : ∀ t ∈ ts, t.isLiteral = true)
    (hall : ∀ x ∈ routesOf u ps, shape ts ++ [.one] <+: shape x.1)
    (hliteral : ∃ x ∈ routesOf u ps, shape ts ++ [.one, .lit a] <+: shape x.1) (he : e = .one ∨ e = .opt)
    (hfield : ∃ x ∈ routesOf u ps, shape ts ++ [.one, e] <+: shape x.1) {ss : List Bytes} {p s d d' : Bytes}
    (hplain : Plain u (ss ++ [p, s])) (hss : List.Forall₂ (fun t s => u.decode s = t.str) ts ss) (hs : u.decode s = a)
    (hd : u.decode d = dotdot) (hd' : u.decode d' = dotdot) {m : MatchesStorage} (hm : 0 < m.slots.length) :
    find u r (ss ++ [p, s, d, d']) m = .error .underflow := by
  obtain ⟨pat, h⟩ := hr.holds
  obtain ⟨x, hx, hxa⟩ := hliteral
  obtain ⟨y, hy, hye⟩ := hfield
  have hne : routesOf u ps ≠ [] := List.ne_nil_of_mem hx
  have hpath : pathOf (ss ++ [p, s, d, d']) = ss ++ [p, s, d, d'] := if_neg (by simp)
  have hp := hplain p (by simp)
  have hps := hplain s (by simp)
  obtain ⟨fuel, hfuel⟩ : ∃ k, fuelFor r.nodes (ss ++ [p, s, d, d']) = k + 5 + ss.length := by
    refine exists_fuel _ ?_
    simp only [List.length_append, List.length_cons, List.length_nil]
    omega
  -- down to the {id}
  obtain ⟨i0, hi0, hp0, hdown⟩ := tryMatch_descends h hne hall le_rfl hlit
    (fun s hs => hplain s (List.mem_append_left _ hs)) hss
    (show (ss ++ [p, s, d, d']).drop 0 = ss ++ [p, s, d, d'] from rfl) h.tree.pos (q := [.one])
    (by rw [h.tree.root]; rfl) (fuel + 5) ⟨m.slots, 0⟩
  rw [h.tree.root, List.nil_append] at hp0
  obtain ⟨i, hc, hi, hone, hpi⟩ := only_child h hne hall hi0 (e := .one) (q := []) (by rw [hp0])
  have hsingle : Single r.nodes i0 i := ⟨no_resource h hall hi0 (e := .one) (q := []) (by rw [hp0]), hc, hone⟩
  -- its children
  obtain ⟨c, hci, hca⟩ := child_of_route h hi (e := .lit a) hx (by rw [hpi, hp0]; simpa using hxa)
  obtain ⟨f, hfi, hfe⟩ := child_of_route h hi (e := e) hy (by rw [hpi, hp0]; simpa using hye)
  have hff : (elemAt r.nodes f).isField = true := by rcases he with rfl | rfl <;> rw [hfe] <;> rfl
  have hcf : c ≠ f := by
    rintro rfl
    rw [hca] at hff
    cases hff
  have hbranch : branches u r.nodes i s = true :=
    branches_of_two hci hfi hcf ((matchSeg_lit hca u s).2 hs) (matchSeg_field hff u s)
  have hget : ∀ k, (ss ++ [p, s, d, d'])[ss.length + k]? = [p, s, d, d'][k]? := fun k => by
    rw [List.getElem?_append_right (Nat.le_add_right _ _), Nat.add_sub_cancel_left]
  have hit : (ss ++ [p, s, d, d'])[ss.length]? = some p := hget 0
  have hit' : (ss ++ [p, s, d, d'])[ss.length + 1]? = some s := hget 1
  have hdrop : (ss ++ [p, s, d, d']).drop (ss.length + 1 + 1) = [d, d'] := by
    rw [Nat.add_assoc, List.drop_length_add_append]
    rfl
  have hpush : (⟨m.slots, 0⟩ : Out).push (some (ss.length, ss.length + 1)) (nodeAt r.nodes i).seg.id =
      .ok ⟨m.slots.set 0 (some (ss.length, ss.length + 1), (nodeAt r.nodes i).seg.id), 1⟩ := if_pos hm
  have hloop : childLoop (fun it i o => tryMatch u r.nodes (ss ++ [p, s, d, d']) (fuel + 3) it i 0 o) u r.nodes
      (ss ++ [p, s, d, d']) true (ss.length + 1) s (nodeAt r.nodes i).childIdx.toList
      ⟨m.slots.set 0 (some (ss.length, ss.length + 1), (nodeAt r.nodes i).seg.id), 1⟩ = .error .underflow :=
    childLoop_underflows h.tree hi hs (fun c o hc => tryMatch_twice_back h.tree hsingle hi0 hi hc hdrop hd hd' fuel o)
      (List.Sublist.refl _) hfi (hfe ▸ he) (by simpa using hm) (Or.inr ⟨rfl, c, hci, hca⟩)
  rw [find, findImpl, hpath, hfuel, hdown, Nat.zero_add, tryMatch_takes hc hone hit ⟨hp.1, hp.2.1⟩ le_rfl, hpush]
  simp only [bind, Except.bind]
  rw [tryMatch_children hit' ⟨hps.1, hps.2.1⟩ le_rfl, hbranch, hloop]
  rfl

/-- users/{id}/profile and users/{id}/{page}, on users/7/profile/../.. -/
def pages : List (Bytes × ℕ) := [(bytes "users/\x7bid\x7d/profile", 0), (bytes "users/\x7bid\x7d/\x7bpage\x7d", 1)]

theorem find_underflows_pages : ∃ r, insertAll Url.unescaped .make pages = some r ∧
    find Url.unescaped r [bytes "users", bytes "7", bytes "profile", bytes "..", bytes ".."] (slotsOf 20) =
      .error .underflow := by
  have hr : Inserted Url.unescaped pages ((insertAll Url.unescaped .make pages).getD .make) := ⟨by decide, rfl⟩
  have hlit : ∀ t ∈ [SegmentTemplate.literal (bytes "users")], t.isLiteral = true := by decide
  have hplain : Plain Url.unescaped ([bytes "users"] ++ [bytes "7", bytes "profile"]) := by decide
  exact ⟨_, rfl, find_underflows hr hlit (by decide) (a := bytes "profile") (by decide) (Or.inl rfl) (by decide) hplain
    (.cons rfl .nil) rfl rfl rfl (by decide)⟩

/-! ## A view without a beginning -/

/-- one double dot at the end does not lead out of a star -/
theorem leaves_last {l : List Bytes} {d : Bytes} (hl : dotdot ∉ l) (hk : ∃ x ∈ l, x ≠ dot) :
    leaves true (l ++ [d]) 0 0 = false := by
  rw [← Bool.not_eq_true, leaves_iff]
  intro h
  obtain ⟨q, hq, hle⟩ := h
  -- the double dot is the last segment
  have hql : q <+: l := by
    have hlen := hq.length_le
    simp only [List.length_append, List.length_singleton] at hlen
    exact List.prefix_of_prefix_length_le ((List.prefix_append _ _).trans hq) (List.prefix_append _ _) (by omega)
  obtain ⟨x, hx, hdot⟩ := hk
  have hqe : q = l := by
    obtain ⟨t, rfl⟩ := hql
    cases t with
    | nil => simp
    | cons y t =>
      rw [List.append_assoc, List.prefix_append_right_inj, List.cons_append, List.cons_prefix_cons] at hq
      exact absurd (by simp [hq.1]) hl
  subst hqe
  have hpos : 0 < q.countP named := by
    rw [List.countP_pos_iff]
    exact ⟨x, hx, by simpa [named] using ⟨hdot, fun he => hl (he ▸ hx)⟩⟩
  rw [List.count_eq_zero.2 hl, Bool.toNat_true] at hle
  omega

/-- the only child of i is a star, whose only child is the literal l, which is a leaf with a resource -/
structure Middle (ns : List (Node V)) (l : Bytes) (i c j : ℕ) : Prop where
  bare : (nodeAt ns i).resource = none
  children : (nodeAt ns i).childIdx.toList = [c]
  star : elemAt ns c = .star
  bare' : (nodeAt ns c).resource = none
  children' : (nodeAt ns c).childIdx.toList = [j]
  lit : elemAt ns j = .lit l
  leaf : (nodeAt ns j).childIdx.toList = []
  resource : (nodeAt ns j).resource.isSome = true

section Middle

variable {i c j : ℕ} {l : Bytes}

theorem Middle.not_takes (h : Middle ns l i c j) : ¬ (elemAt ns j).Takes 0 := by rw [h.lit]; exact id

/-- the search goes over the star, and comes back with an empty view in its place -/
theorem Middle.back (h : Middle ns l i c j) (ht : Tree ns pat) (hi : i < ns.length) {it : ℕ} {d : Bytes}
    (hit : segs[it]? = some d) (hend : segs[it + 1]? = none) (hd : u.decode d = dotdot) (fuel : ℕ) {o : Out} {n : ℕ}
    (hn : o.n = n + 1) (hroom : n < o.slots.length) : tryMatch u ns segs (fuel + 2) it c 0 o =
      .ok (none, ⟨o.slots.set n (none, (nodeAt ns c).seg.id), n⟩) := by
  have hc : IsChild ns i c := by rw [IsChild, h.children]; exact List.mem_singleton_self c
  have hf : (elemAt ns c).isField = true := by rw [h.star]; rfl
  have hpop : o.pop = .ok ⟨o.slots, n⟩ := by rw [Out.pop, if_neg (by omega), hn, Nat.add_sub_cancel]
  have hpush : (⟨o.slots, n⟩ : Out).push none (nodeAt ns c).seg.id =
      .ok ⟨o.slots.set n (none, (nodeAt ns c).seg.id), n + 1⟩ := if_pos hroom
  have hic := child_bounds ht hc
  obtain ⟨k, hk⟩ : ∃ k, ns.length = k + 2 := ⟨ns.length - 2, by omega⟩
  have hempty : ¬ (nodeAt ns i).childIdx.empty = true := by rw [ChildIdxVector.empty_iff, h.children]; simp
  have hskip : ¬ (!(nodeAt ns c).seg.isOptional && !(nodeAt ns c).seg.isStar) = true := by
    rw [skips_iff, not_not, h.star]
    trivial
  rw [tryMatch_back_to ht hi hc hit hd le_rfl, if_pos hf, hpop]
  simp only [bind, Except.bind]
  rw [tryMatch_end hend, if_neg (by simp), if_pos (by rw [h.bare]; rfl), hk, findOptional,
    if_neg (by simp [h.bare]), if_neg hempty, h.children, optionalLoop]
  simp only [if_neg hskip, hpush, bind, Except.bind]
  rw [findOptional_fails h.bare' (by simp [h.children']) (by rw [h.children']; simpa using h.not_takes)
    (Nat.succ_pos k)]
  rfl

/-- one segment and a double dot lead back to the star -/
theorem Middle.around (h : Middle ns l i c j) (ht : Tree ns pat) {it : ℕ} {b d : Bytes}
    (hdrop : segs.drop it = [b, d]) (hb : u.decode b ≠ dot ∧ u.decode b ≠ dotdot) (hd : u.decode d = dotdot) (fuel : ℕ)
    (o : Out) : tryMatch u ns segs (fuel + 3) it c 0 o = .ok (none, o) := by
  have hget : ∀ k, segs[it + k]? = [b, d][k]? := fun k => by rw [← hdrop, List.getElem?_drop]
  have hit : segs[it]? = some b := hget 0
  have hit' : segs[it + 1]? = some d := hget 1
  have hc : IsChild ns i c := by rw [IsChild, h.children]; exact List.mem_singleton_self c
  have hj : IsChild ns c j := by rw [IsChild, h.children']; exact List.mem_singleton_self j
  have hf : ¬ (elemAt ns j).isField = true := by rw [h.lit]; exact Bool.false_ne_true
  have hend : tryMatch u ns segs (fuel + 1) (it + 1 + 1) c 0 o = .ok (none, o) :=
    tryMatch_ends_without h.bare' h.children' h.not_takes ht.pos (hget 2) fuel o
  by_cases hl : u.decode b = l
  · rw [tryMatch_moves h.children' h.lit hit hb hl le_rfl,
      tryMatch_back_to ht (child_bounds ht hc).2 hj hit' hd le_rfl, if_neg hf]
    exact hend
  · rw [tryMatch_passes h.children' h.lit hit hb hl le_rfl, tryMatch_up hit' hd (by omega)]
    exact hend

/-- behind the literal, one segment and a double dot lead back to it -/
theorem Middle.found (h : Middle ns l i c j) {it : ℕ} {s b d : Bytes} (hdrop : segs.drop it = [s, b, d])
    (hs : u.decode s = l) (hl : l ≠ dot ∧ l ≠ dotdot) (hb : u.decode b ≠ dot ∧ u.decode b ≠ dotdot)
    (hd : u.decode d = dotdot) (fuel : ℕ) (o : Out) : tryMatch u ns segs (fuel + 4) it c 0 o = .ok (some j, o) := by
  have hget : ∀ k, segs[it + k]? = [s, b, d][k]? := fun k => by rw [← hdrop, List.getElem?_drop]
  have hit : segs[it]? = some s := hget 0
  have hit' : segs[it + 1]? = some b := hget 1
  have hit'' : segs[it + 1 + 1]? = some d := hget 2
  have hend : segs[it + 1 + 1 + 1]? = none := hget 3
  rw [tryMatch_moves h.children' h.lit hit (hs ▸ hl) hs le_rfl, tryMatch_children hit' hb le_rfl, h.leaf]
  simp only [childLoop, bind, Except.bind]
  rw [tryMatch_up hit'' hd (by omega)]
  exact tryMatch_stops hend h.resource

theorem starLoop_fail {rec : ℕ → Out → Except Fault (Option ℕ × Out)} {plus : Bool} {n first k : ℕ} {o o' : Out}
    (h : rec (first + k + 1) o = .ok (none, o')) :
    starLoop rec plus n first (k + 1) o = starLoop rec plus n first k (o'.rewind (n + 1)) := by
  rw [starLoop, h]
  rfl

/-- the star takes what comes before the literal, after a shorter try has overwritten its view -/
theorem Middle.starLoop (h : Middle ns l i c j) (ht : Tree ns pat) (hi : i < ns.length) {it : ℕ} {cs : List Bytes}
    {s b d : Bytes} (hdrop : segs.drop it = cs ++ [s, b, d]) (hcs : cs ≠ []) (hs : u.decode s = l)
    (hl : l ≠ dot ∧ l ≠ dotdot) (hb : u.decode b ≠ dot ∧ u.decode b ≠ dotdot) (hd : u.decode d = dotdot) (fuel : ℕ)
    {plus : Bool} {n : ℕ} {o : Out} (hroom : n < o.slots.length) :
    Router.starLoop (fun start => tryMatch u ns segs (fuel + 4) start c 0) plus n it (segs.length - it) o =
      .error .nullView := by
  obtain ⟨m, hm⟩ : ∃ m, cs.length = m + 1 := ⟨cs.length - 1, by have := List.length_pos_of_ne_nil hcs; omega⟩
  have hlen : segs.length - it = m + 4 := by
    rw [← List.length_drop, hdrop, List.length_append, hm]
    rfl
  -- where the literal is
  have hlast : segs.drop (it + m + 1) = [s, b, d] := by
    rw [Nat.add_assoc, ← List.drop_drop, hdrop, ← hm, List.drop_left]
  have hdrop1 : segs.drop (it + (m + 1) + 1) = [b, d] := by
    rw [show it + (m + 1) + 1 = it + m + 1 + 1 by omega, ← List.drop_drop, hlast]
    rfl
  have hget : ∀ k, segs[it + m + 1 + k]? = [s, b, d][k]? := fun k => by rw [← hlast, List.getElem?_drop]
  have hit : segs[it + (m + 2) + 1]? = some d := by rw [show it + (m + 2) + 1 = it + m + 1 + 2 by omega]; exact hget 2
  have hend : segs[it + (m + 2) + 1 + 1]? = none := by
    rw [show it + (m + 2) + 1 + 1 = it + m + 1 + 3 by omega]
    exact hget 3
  -- the tries, from the longest
  have h1 : tryMatch u ns segs (fuel + 4) (it + (m + 3) + 1) c 0 o = .ok (none, o) :=
    tryMatch_ends_without h.bare' h.children' h.not_takes ht.pos hend (fuel + 3) o
  have h2 := h.back ht hi hit hend hd (fuel + 2) (o := o.rewind (n + 1)) rfl hroom
  have h3 := h.around ht hdrop1 hb hd (fuel + 1)
    ⟨o.slots.set n (none, (nodeAt ns c).seg.id), n + 1⟩
  have h4 := h.found hlast hs hl hb hd fuel (Out.rewind ⟨o.slots.set n (none, (nodeAt ns c).seg.id), n + 1⟩ (n + 1))
  rw [hlen, starLoop_fail h1, starLoop_fail h2, starLoop_fail h3, Router.starLoop, h4]
  simp [bind, Except.bind, Out.rewind, Out.extend, hroom]

end Middle

/-- **A view without a beginning.** When all routes are literals, a star and a literal l, a path of the literals, any
segments, one that is l, one more and a double dot makes find give the star a view that starts at no segment. -/
theorem find_null_view {ps : List (Bytes × V)} {r : Impl V} (hr : Inserted u ps r) {ts : List SegmentTemplate}
    {l : Bytes} (hlit : ∀ t ∈ ts, t.isLiteral = true) (hne : routesOf u ps ≠ [])
    (hall : ∀ x ∈ routesOf u ps, shape x.1 = shape ts ++ [.star, .lit l]) {ss cs : List Bytes} {s b d : Bytes}
    (hplain : Plain u (ss ++ (cs ++ [s, b]))) (hraw : s ≠ dot) (hcs : cs ≠ [])
    (hss : List.Forall₂ (fun t s => u.decode s = t.str) ts ss) (hs : u.decode s = l) (hd : u.decode d = dotdot)
    {m : MatchesStorage} (hm : 0 < m.slots.length) : find u r (ss ++ (cs ++ [s, b, d])) m = .error .nullView := by
  obtain ⟨pat, h⟩ := hr.holds
  set segs := ss ++ (cs ++ [s, b, d]) with hsegs
  have hpre : ∀ x ∈ routesOf u ps, shape ts ++ [.star, .lit l] <+: shape x.1 := fun x hx => hall x hx ▸ List.prefix_rfl
  have hpath : pathOf segs = segs := if_neg (by simp [hsegs])
  have hps := hplain s (by simp)
  have hpb := hplain b (by simp)
  obtain ⟨fuel, hfuel⟩ : ∃ k, fuelFor r.nodes segs = k + 5 + ss.length := by
    refine exists_fuel _ ?_
    have hpos := List.length_pos_of_ne_nil hcs
    simp only [hsegs, List.length_append, List.length_cons, List.length_nil]
    omega
  -- down to the star
  obtain ⟨i, hi, hpi, hdown⟩ := tryMatch_descends h hne hpre le_rfl hlit
    (fun s hs => hplain s (List.mem_append_left _ hs)) hss (show segs.drop 0 = ss ++ (cs ++ [s, b, d]) from hsegs)
    h.tree.pos (q := [.star, .lit l])
    (by rw [h.tree.root, List.nil_append]) (fuel + 5) ⟨m.slots, 0⟩
  rw [h.tree.root, List.nil_append] at hpi
  obtain ⟨c, hc, hci, hce, hpc⟩ := only_child h hne hpre hi (e := .star) (q := [.lit l]) (by rw [hpi])
  obtain ⟨j, hj, hji, hje, hpj⟩ := only_child h hne hpre hci (e := .lit l) (q := []) (by rw [hpc, hpi]; simp)
  have hpj' : pat j = shape ts ++ [.star, .lit l] := by rw [hpj, hpc, hpi]; simp
  have hmid : Middle r.nodes l i c j := by
    obtain ⟨x, hx⟩ := List.exists_mem_of_ne_nil _ hne
    exact ⟨no_resource h hpre hi (e := .star) (q := [.lit l]) (by rw [hpi]), hc, hce,
      no_resource h hpre hci (e := .lit l) (q := []) (by rw [hpc, hpi]; simp), hj, hje, no_child h hall hji hpj',
      (resource_isSome h hji).2 ⟨x, hx, (hall x hx).trans hpj'.symm⟩⟩
  -- the first segment of the star
  obtain ⟨s0, cs', rfl⟩ := List.exists_cons_of_ne_nil hcs
  have hps0 := hplain s0 (by simp)
  have hdrop : segs.drop ss.length = s0 :: cs' ++ [s, b, d] := by rw [hsegs, List.drop_left]
  have hit : segs[ss.length]? = some s0 := by
    rw [← List.head?_drop, hdrop]
    rfl
  have hleaves : leaves (nodeAt r.nodes c).seg.isStar (segs.drop ss.length) 0 0 = false := by
    have hnot : dotdot ∉ s0 :: cs' ++ [s, b] := fun hmem => (hplain _ (List.mem_append_right _ hmem)).2.2 rfl
    rw [isStar_iff.2 hce, hdrop, show s0 :: cs' ++ [s, b, d] = s0 :: cs' ++ [s, b] ++ [d] by simp]
    exact leaves_last hnot ⟨s, by simp, hraw⟩
  have hplus : (nodeAt r.nodes c).seg.isPlus = false := by
    rw [← Bool.not_eq_true, isPlus_iff, show (nodeAt r.nodes c).seg.elem = .star from hce]
    simp
  have hstar : Router.starLoop (fun start => tryMatch u r.nodes segs (fuel + 4) start c 0) false 0 ss.length
      (segs.length - ss.length) ⟨m.slots.set 0 (some (ss.length, ss.length + 1), (nodeAt r.nodes c).seg.id), 1⟩ =
        .error .nullView :=
    hmid.starLoop h.tree hi hdrop (by simp) hs (hs ▸ ⟨hps.1, hps.2.1⟩) ⟨hpb.1, hpb.2.1⟩ hd fuel (by simpa using hm)
  have hpush : (⟨m.slots, 0⟩ : Out).push (some (ss.length, ss.length + 1)) (nodeAt r.nodes c).seg.id =
      .ok ⟨m.slots.set 0 (some (ss.length, ss.length + 1), (nodeAt r.nodes c).seg.id), 1⟩ := if_pos hm
  rw [find, findImpl, hpath, hfuel, hdown, Nat.zero_add, tryMatch_children hit ⟨hps0.1, hps0.2.1⟩ le_rfl, hc,
    childLoop_many (Or.inl hce), hleaves, if_neg Bool.false_ne_true, hpush]
  simp only [bind, Except.bind, hplus, Bool.false_eq_true, if_false, hstar]

/-- {dirs*}/index, on a/index/b/.. -/
theorem find_null_view_index : ∃ r : Impl ℕ, insertAll Url.unescaped .make [(bytes "\x7bdirs*\x7d/index", 0)] = some r ∧
    find Url.unescaped r [bytes "a", bytes "index", bytes "b", bytes ".."] (slotsOf 20) = .error .nullView := by
  have hr : Inserted Url.unescaped [(bytes "\x7bdirs*\x7d/index", 0)]
      ((insertAll Url.unescaped .make [(bytes "\x7bdirs*\x7d/index", 0)]).getD .make) := ⟨by decide, rfl⟩
  have hlit : ∀ t ∈ ([] : List SegmentTemplate), t.isLiteral = true := by decide
  have hplain : Plain Url.unescaped ([] ++ ([bytes "a"] ++ [bytes "index", bytes "b"])) := by decide
  exact ⟨_, rfl, find_null_view hr hlit (l := bytes "index") (by decide) (by decide) hplain (by decide) (by decide) .nil
    rfl rfl (by decide)⟩

end Underflow

end Gss.Router
