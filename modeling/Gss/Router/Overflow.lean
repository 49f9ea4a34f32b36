/-
How router::find writes behind the arrays of the caller.

try_match goes on with the children of a node after a segment that no child matches, one level up, where it cannot
succeed any more. A star or plus there fails at each of the segments that are left, and each time leaves one view in the
arrays: after the last try the pointers are not set back. So a path with more segments than there are slots makes the
pointers run out of the arrays, however many slots there are.

- `find_overflows`: when all routes have the same pattern, literals and then a star or plus, on a path that starts with
  some other segment, goes on with the literals, and has more segments after them than there are slots.
-/
import Gss.Router.Lookup

namespace Gss.Router

open Gss.Core SegmentTemplate

variable {V : Type*}

section Overflow

variable {u : Url} {ns : List (Node V)} {pat : ℕ → List (Elem Bytes)} {segs : List Bytes} {level : ℤ}

/-! ## Above level 0 -/

/-- at a leaf the search fails, and leaves the arrays -/
theorem tryMatch_leaf (hplain : Plain u segs) {c : ℕ} (hleaf : (nodeAt ns c).childIdx.toList = []) (hlevel : 0 < level)
    {it fuel : ℕ} (hfuel : segs.length - it < fuel) (o : Out) :
    tryMatch u ns segs fuel it c level o = .ok (none, o) := by
  induction fuel generalizing it level with
  | zero => omega
  | succ fuel ih =>
    cases hit : segs[it]? with
    | none => rw [tryMatch_end hit, if_pos hlevel.ne']
    | some s =>
      obtain ⟨hlt, rfl⟩ := List.getElem?_eq_some_iff.1 hit
      have hp := hplain _ (List.getElem_mem hlt)
      rw [tryMatch_children hit ⟨hp.1, hp.2.1⟩ hlevel.le, hleaf]
      exact ih (by omega) (by omega)

/-- a star or plus that fails leaves its view -/
theorem starLoop_fails {rec : ℕ → Out → Except Fault (Option ℕ × Out)} {plus : Bool} {n first k : ℕ}
    (hrec : ∀ start o, first ≤ start → rec start o = .ok (none, o)) (o : Out) :
    starLoop rec plus n first k o = .ok (none, o.rewind (n + 1)) := by
  induction k generalizing o with
  | zero =>
    unfold starLoop
    rw [hrec _ _ le_rfl]
    rfl
  | succ k ih =>
    unfold starLoop
    rw [hrec _ _ (by omega)]
    exact ih _

/-- the only child of the node is a star or plus without children -/
structure Ending (ns : List (Node V)) (i c : ℕ) : Prop where
  children : (nodeAt ns i).childIdx.toList = [c]
  leaf : (nodeAt ns c).childIdx.toList = []
  many : elemAt ns c = .star ∨ elemAt ns c = .plus

theorem childLoop_ending {i c it : ℕ} (h : Ending ns i c) (hplain : Plain u segs) {s : Bytes} {branch : Bool}
    {rec : ℕ → ℕ → Out → Except Fault (Option ℕ × Out)}
    (hrec : ∀ start o, it ≤ start → rec start c o = .ok (none, o)) (o : Out) :
    childLoop rec u ns segs branch it s [c] o =
      (o.push (some (it, it + 1)) (nodeAt ns c).seg.id).map fun o1 => (.unmatched, o1.rewind (o.n + 1)) := by
  have hdots : dotdot ∉ segs.drop it := fun hmem => (hplain _ (List.mem_of_mem_drop hmem)).2.2 rfl
  rw [childLoop_many h.many, leaves_plain hdots, if_neg Bool.false_ne_true]
  cases o.push (some (it, it + 1)) (nodeAt ns c).seg.id with
  | error e => rfl
  | ok o1 =>
    have hstar : ∀ first k, it ≤ first → starLoop (fun start => rec start c) (nodeAt ns c).seg.isPlus o.n first k o1 =
        .ok (none, o1.rewind (o.n + 1)) :=
      fun first k hle => starLoop_fails (fun start o h1 => hrec start o (hle.trans h1)) o1
    simp only [bind, Except.bind]
    rw [hstar _ _ (by split_ifs <;> omega)]
    rfl

theorem branches_single {i c : ℕ} (h : (nodeAt ns i).childIdx.toList = [c]) (s : Bytes) :
    branches u ns i s = false := by
  rw [branches, if_neg]
  rw [← ChildIdxVector.length_toList, h, List.length_singleton]
  exact lt_irrefl 1

/-- each segment that is left makes the star or plus leave one view more -/
theorem tryMatch_fills (hplain : Plain u segs) {i c : ℕ} (h : Ending ns i c) (hlevel : 0 < level) {it fuel : ℕ}
    (hfuel : segs.length - it + 1 < fuel) {o : Out} (ho : o.n ≤ o.slots.length)
    (hmany : o.slots.length < o.n + (segs.length - it)) :
    tryMatch u ns segs fuel it i level o = .error .overflow := by
  induction fuel generalizing it level o with
  | zero => omega
  | succ fuel ih =>
    have hlt : it < segs.length := by omega
    have hp := hplain _ (List.getElem_mem hlt)
    have hrec : ∀ start o, it ≤ start → tryMatch u ns segs fuel start c level o = .ok (none, o) :=
      fun start o h1 => tryMatch_leaf hplain h.leaf hlevel (by omega) o
    have hloop : childLoop (fun it i o => tryMatch u ns segs fuel it i level o) u ns segs (branches u ns i segs[it]) it
        segs[it] [c] o = _ := childLoop_ending h hplain hrec o
    rw [tryMatch_children (List.getElem?_eq_getElem hlt) ⟨hp.1, hp.2.1⟩ hlevel.le, h.children, hloop]
    cases hpush : o.push (some (it, it + 1)) (nodeAt ns c).seg.id with
    | error e =>
      obtain ⟨rfl, -⟩ := Out.push_error hpush
      rfl
    | ok o1 =>
      have hext := Out.push_ok ho hpush
      have hn := hext.n_eq
      have hback : o.Ext (o1.rewind (o.n + 1)) _ := hext.rewind (k := 1) le_rfl
      refine ih (by omega) (by omega) hback.le' ?_
      rw [hback.length]
      simp only [Out.rewind]
      omega

/-- a literal that is the only child, and matches, is gone to -/
theorem tryMatch_moves {i c : ℕ} (hc : (nodeAt ns i).childIdx.toList = [c]) {l : Bytes} (he : elemAt ns c = .lit l)
    {it : ℕ} {s : Bytes} (hit : segs[it]? = some s) (hp : u.decode s ≠ dot ∧ u.decode s ≠ dotdot) (hs : u.decode s = l)
    (hlevel : 0 ≤ level) (fuel : ℕ) (o : Out) :
    tryMatch u ns segs (fuel + 1) it i level o = tryMatch u ns segs fuel (it + 1) c level o := by
  rw [tryMatch_children hit hp hlevel, branches_single hc, hc, childLoop_lit he hs]
  rfl

/-- one that does not match is passed by -/
theorem tryMatch_passes {i c : ℕ} (hc : (nodeAt ns i).childIdx.toList = [c]) {l : Bytes} (he : elemAt ns c = .lit l)
    {it : ℕ} {s : Bytes} (hit : segs[it]? = some s) (hp : u.decode s ≠ dot ∧ u.decode s ≠ dotdot) (hs : u.decode s ≠ l)
    (hlevel : 0 ≤ level) (fuel : ℕ) (o : Out) :
    tryMatch u ns segs (fuel + 1) it i level o = tryMatch u ns segs fuel (it + 1) i (level + 1) o := by
  rw [tryMatch_children hit hp hlevel, hc, childLoop_pass he hs]
  rfl

/-- and {id} is taken -/
theorem tryMatch_takes {i c : ℕ} (hc : (nodeAt ns i).childIdx.toList = [c]) (he : elemAt ns c = .one) {it : ℕ}
    {s : Bytes}
    (hit : segs[it]? = some s) (hp : u.decode s ≠ dot ∧ u.decode s ≠ dotdot) (hlevel : 0 ≤ level) (fuel : ℕ) (o : Out) :
    tryMatch u ns segs (fuel + 1) it i level o = o.push (some (it, it + 1)) (nodeAt ns c).seg.id >>= fun o1 =>
      tryMatch u ns segs fuel (it + 1) c level o1 := by
  rw [tryMatch_children hit hp hlevel, branches_single hc, hc, childLoop_one he]
  cases o.push (some (it, it + 1)) (nodeAt ns c).seg.id <;> rfl

/-! ## A common beginning -/

section Beginning

variable {routes : List (List SegmentTemplate × V)} {q0 : List (Elem Bytes)}

/-- a node has a child for each way that a route goes on -/
theorem child_of_route (h : Holds ns pat routes) {i : ℕ} (hi : i < ns.length) {e : Elem Bytes}
    {x : List SegmentTemplate × V} (hx : x ∈ routes) (hpre : pat i ++ [e] <+: shape x.1) :
    ∃ c, IsChild ns i c ∧ elemAt ns c = e := by
  obtain ⟨j, hj, hp⟩ := h.node hx
  obtain ⟨q, hq⟩ := hpre
  obtain ⟨c, hc, he, -⟩ := h.tree.trie.child_of_pat (i := i) (j := j) (e := e) (q := q) hi hj
    (show pat j = pat i ++ e :: q by rw [hp, ← hq]; simp)
  exact ⟨c, hc, he⟩

/-- where all routes begin alike, each node has one child -/
theorem only_child (h : Holds ns pat routes) (hne : routes ≠ []) (hall : ∀ x ∈ routes, q0 <+: shape x.1) {i : ℕ}
    (hi : i < ns.length) {e : Elem Bytes} {q : List (Elem Bytes)} (hq : q0 = pat i ++ e :: q) :
    ∃ c, (nodeAt ns i).childIdx.toList = [c] ∧ c < ns.length ∧ elemAt ns c = e ∧ pat c = pat i ++ [e] := by
  obtain ⟨x, hx⟩ := List.exists_mem_of_ne_nil _ hne
  obtain ⟨c, hchild, he⟩ := child_of_route h hi (e := e) hx (List.IsPrefix.trans ⟨q, by rw [hq]; simp⟩ (hall x hx))
  obtain ⟨hlt, -, -, hpat⟩ := h.tree.of_child hi hchild
  have hpat : pat c = pat i ++ [e] := by rw [hpat, show (nodeAt ns c).seg.elem = e from he]
  refine ⟨c, children_eq h.tree hi hchild ?_, hlt, he, hpat⟩
  intro d hd
  obtain ⟨y, hy, q', hq'⟩ := h.route_of_child hi hd
  obtain ⟨q2, hq2⟩ := hall y hy
  rw [← hq2, hq, List.append_assoc, List.append_cancel_left_eq, List.cons_append, List.cons.injEq] at hq'
  exact hq'.1.symm.trans he.symm

/-- and no resource -/
theorem no_resource (h : Holds ns pat routes) (hall : ∀ x ∈ routes, q0 <+: shape x.1) {i : ℕ} (hi : i < ns.length)
    {e : Elem Bytes} {q : List (Elem Bytes)} (hq : q0 = pat i ++ e :: q) : (nodeAt ns i).resource = none := by
  rw [h.resources i hi, Option.eq_none_iff_forall_not_mem]
  intro v hv
  obtain ⟨x, hx, hp⟩ := lastFor_eq_some.1 ⟨v, hv⟩
  have hlen := (hall x hx).length_le
  rw [hp, hq] at hlen
  simp at hlen

/-- at the end of a route that no other goes on from, there is no child -/
theorem no_child (h : Holds ns pat routes) (hall : ∀ x ∈ routes, shape x.1 = q0) {i : ℕ} (hi : i < ns.length)
    (hp : pat i = q0) : (nodeAt ns i).childIdx.toList = [] := by
  rw [List.eq_nil_iff_forall_not_mem]
  intro d hd
  obtain ⟨y, hy, q, hq⟩ := h.route_of_child hi hd
  rw [hall y hy, hp] at hq
  have hlen := congrArg List.length hq
  simp at hlen

/-- what follows the literals that all routes begin with -/
theorem tryMatch_descends (h : Holds ns pat routes) (hne : routes ≠ []) (hall : ∀ x ∈ routes, q0 <+: shape x.1)
    (hlevel : 0 ≤ level) {ts : List SegmentTemplate} (hlit : ∀ t ∈ ts, t.isLiteral = true) {ss cs : List Bytes}
    (hplain : Plain u ss) (hsegs : List.Forall₂ (fun t s => u.decode s = t.str) ts ss) {it cur : ℕ}
    (hdrop : segs.drop it = ss ++ cs) (hcur : cur < ns.length) {q : List (Elem Bytes)}
    (hq : q0 = pat cur ++ (shape ts ++ q)) (fuel : ℕ) (o : Out) :
    ∃ j, j < ns.length ∧ pat j = pat cur ++ shape ts ∧
      tryMatch u ns segs (fuel + ss.length) it cur level o = tryMatch u ns segs fuel (it + ss.length) j level o := by
  induction hsegs generalizing it cur with
  | nil => exact ⟨cur, hcur, by simp, rfl⟩
  | @cons t s ts ss hs hrest ih =>
    obtain ⟨c, hc, hlt, he, hpc⟩ := only_child h hne hall hcur (e := t.elem) (q := shape ts ++ q) hq
    rw [elem_of_literal (hlit t List.mem_cons_self)] at he
    have hit : segs[it]? = some s := by
      rw [← List.head?_drop, hdrop]
      rfl
    have hp := hplain s List.mem_cons_self
    have hdrop' : segs.drop (it + 1) = ss ++ cs := by
      rw [← List.drop_drop, hdrop]
      rfl
    obtain ⟨j, hj, hpj, htry⟩ := ih (fun y hy => hlit y (List.mem_cons_of_mem _ hy))
      (fun y hy => hplain y (List.mem_cons_of_mem _ hy)) hdrop' hlt (by rw [hpc, hq]; simp [shape])
    refine ⟨j, hj, by rw [hpj, hpc]; simp [shape], ?_⟩
    rw [List.length_cons, ← Nat.add_assoc, tryMatch_moves hc he hit ⟨hp.1, hp.2.1⟩ hs hlevel, htry]
    congr 1
    omega

end Beginning

/-- **Overflow.** When all routes have the same pattern, literals and then a star or plus, a path that starts with a
segment that the first literal does not fit, goes on with the literals, and has more segments after them than there are
slots, makes find write behind the arrays. -/
theorem find_overflows {ps : List (Bytes × V)} {r : Impl V} (hr : Inserted u ps r) {t0 t : SegmentTemplate}
    {ts : List SegmentTemplate} (hne : routesOf u ps ≠ [])
    (hall : ∀ x ∈ routesOf u ps, shape x.1 = shape (t0 :: ts ++ [t]))
    (hlit : ∀ t ∈ t0 :: ts, t.isLiteral = true) (hmany : t.elem = .star ∨ t.elem = .plus) {s0 : Bytes}
    {ss cs : List Bytes} (hplain : Plain u (s0 :: (ss ++ cs))) (hs0 : u.decode s0 ≠ t0.str)
    (hss : List.Forall₂ (fun t s => u.decode s = t.str) (t0 :: ts) ss) {m : MatchesStorage}
    (hcs : m.slots.length < cs.length) : find u r (s0 :: (ss ++ cs)) m = .error .overflow := by
  obtain ⟨pat, h⟩ := hr.holds
  have hpre : ∀ x ∈ routesOf u ps, shape (t0 :: ts ++ [t]) <+: shape x.1 := fun x hx => hall x hx ▸ List.prefix_rfl
  have hpath : pathOf (s0 :: (ss ++ cs)) = s0 :: (ss ++ cs) := if_neg (List.cons_ne_nil _ _)
  have hp := hplain s0 List.mem_cons_self
  -- past the first segment
  obtain ⟨c, hc, -, he, -⟩ := only_child h hne hpre h.tree.pos (e := t0.elem) (q := shape (ts ++ [t]))
    (by rw [h.tree.root]; rfl)
  rw [elem_of_literal (hlit t0 List.mem_cons_self)] at he
  -- along the literals
  obtain ⟨fuel, hfuel, hlt⟩ : ∃ k, fuelFor r.nodes (s0 :: (ss ++ cs)) = k + ss.length + 1 ∧ cs.length + 1 < k := by
    have hpos := h.tree.pos
    have hmul : (s0 :: (ss ++ cs)).length + 1 + ((s0 :: (ss ++ cs)).length + 1) ≤
        fuelFor r.nodes (s0 :: (ss ++ cs)) := by
      rw [← Nat.mul_two]
      exact Nat.mul_le_mul_left _ (by omega)
    simp only [List.length_cons, List.length_append] at hmul
    exact ⟨fuelFor r.nodes (s0 :: (ss ++ cs)) - 1 - ss.length, by omega, by omega⟩
  obtain ⟨i, hi, hpi, hdown⟩ := tryMatch_descends h hne hpre zero_le_one hlit
    (fun s hs => hplain s (List.mem_cons_of_mem _ (List.mem_append_left _ hs))) hss
    (show (s0 :: (ss ++ cs)).drop 1 = ss ++ cs from rfl) h.tree.pos (q := [t.elem])
    (by rw [h.tree.root, shape_concat, List.nil_append]) fuel ⟨m.slots, 0⟩
  rw [h.tree.root, List.nil_append] at hpi
  -- to the star or plus
  obtain ⟨d, hd, hlt', hed, hpd⟩ := only_child h hne hpre hi (e := t.elem) (q := []) (by rw [hpi, shape_concat])
  have hend : Ending r.nodes i d :=
    ⟨hd, no_child h hall hlt' (by rw [hpd, hpi, shape_concat]), by rw [hed]; exact hmany⟩
  have hlen : (s0 :: (ss ++ cs)).length - (1 + ss.length) = cs.length := by
    simp only [List.length_cons, List.length_append]
    omega
  have hfills : tryMatch u r.nodes (s0 :: (ss ++ cs)) fuel (1 + ss.length) i 1 ⟨m.slots, 0⟩ = .error .overflow :=
    tryMatch_fills hplain hend Int.one_pos (by omega) (Nat.zero_le _) (by simp only [hlen]; omega)
  rw [find, findImpl, hpath, hfuel, tryMatch_passes hc he rfl ⟨hp.1, hp.2.1⟩ hs0 le_rfl]
  simp only [zero_add, hdown, hfills]

/-- a/{x*} with one slot, on b/a/c/d -/
theorem find_overflows_one : ∃ r : Impl ℕ, insertAll Url.unescaped .make [(bytes "a/\x7bx*\x7d", 0)] = some r ∧
    find Url.unescaped r [bytes "b", bytes "a", bytes "c", bytes "d"] (slotsOf 1) = .error .overflow := by
  have hr : Inserted Url.unescaped [(bytes "a/\x7bx*\x7d", 0)]
      ((insertAll Url.unescaped .make [(bytes "a/\x7bx*\x7d", 0)]).getD .make) := ⟨by decide, rfl⟩
  have hall : ∀ x ∈ routesOf Url.unescaped [(bytes "a/\x7bx*\x7d", 0)],
      shape x.1 = shape (SegmentTemplate.literal (bytes "a") :: [] ++ [.field (bytes "x*")]) := by decide
  have hplain : Plain Url.unescaped (bytes "b" :: ([bytes "a"] ++ [bytes "c", bytes "d"])) := by decide
  exact ⟨_, rfl, find_overflows hr (by decide) hall (by decide) (Or.inl rfl) hplain (by decide) (.cons rfl .nil)
    (by decide)⟩

end Overflow

end Gss.Router
