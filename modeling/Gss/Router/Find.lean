/-
impl::try_match, impl::find_optional_resource, impl::find_impl and router::find (router/detail/impl/router.cpp,
router/router.hpp).

A path is the list of its encoded segments; an iterator is a position in it. `matches` and `ids` point into the two
arrays of the caller's matches_storage and move together, so there is one array of pairs (`Out`). A view into the path
is the positions of its first segment and of the segment after its last; none is the empty view. The search is
recursive, with two loops inside (over the children, and over the ends of the segments a star or plus takes), so it has
fuel. What the source leaves undefined is a `Fault`.

- `Out.Ext`: what a part of the search that takes nothing back leaves of the arrays.
-/
import Gss.Router.Routes

namespace Gss.Router

open Gss.Core SegmentTemplate

variable {V : Type*}

/-! ## Model -/

inductive Fault where
  /-- behind the arrays -/
  | overflow
  /-- matches and ids before the arrays -/
  | underflow
  /-- BOOST_ASSERT of a child -/
  | assertion
  /-- the end of an empty view is set: it has no beginning -/
  | nullView
  /-- a view that ends before it starts -/
  | negativeView
  /-- the model's fuel has run out -/
  | fuel
deriving DecidableEq, Repr

abbrev View := Option (ℕ × ℕ)

/-- matches_storage_ and ids_storage_ up to their ends, and the index that matches and ids point to -/
structure Out where
  slots : List (View × Bytes)
  n : ℕ
deriving DecidableEq, Repr

/-- *matches++ = v; *ids++ = id -/
def Out.push (o : Out) (v : View) (id : Bytes) : Except Fault Out :=
  if o.n < o.slots.length then .ok ⟨o.slots.set o.n (v, id), o.n + 1⟩ else .error .overflow

/-- both pointers one back -/
def Out.pop (o : Out) : Except Fault Out := if o.n = 0 then .error .underflow else .ok { o with n := o.n - 1 }

/-- matches = matches0 + ..; ids = ids0 + .. -/
def Out.rewind (o : Out) (n : ℕ) : Out := { o with n := n }

/-- *matches0 = v -/
def Out.setView (o : Out) (n : ℕ) (v : View) : Out :=
  { o with slots := o.slots.modify n fun s => (v, s.2) }

/-- the view at matches0 now ends with segment j - 1 -/
def Out.extend (o : Out) (n j : ℕ) : Except Fault Out :=
  match o.slots[n]? with
  | some (some (i, _), _) => if i < j then .ok (o.setView n (some (i, j))) else .error .negativeView
  | some (none, _) => .error .nullView
  | none => .error .overflow

/-- find_optional_resource's loop over the children -/
def optionalLoop (rec : ℕ → Out → Except Fault (Option ℕ × Out)) (ns : List (Node V)) :
    List ℕ → Out → Except Fault (Option ℕ × Out)
  | [], o => .ok (none, o)
  | i :: cs, o =>
    let c := nodeAt ns i
    if !c.seg.isOptional && !c.seg.isStar then optionalLoop rec ns cs o
    else do
      let o1 ← o.push none c.seg.id
      match ← rec i o1 with
      | (some j, o2) => return (some j, o2)
      | (none, o2) => optionalLoop rec ns cs (o2.rewind o.n)

def findOptional (ns : List (Node V)) : ℕ → ℕ → Out → Except Fault (Option ℕ × Out)
  | 0, _, _ => .error .fuel
  | fuel + 1, root, o =>
    if (nodeAt ns root).resource.isSome then .ok (some root, o)
    else if (nodeAt ns root).childIdx.empty then .error .assertion
    else optionalLoop (findOptional ns fuel) ns (nodeAt ns root).childIdx.toList o

/-- the loop that counts branches_lb -/
def branchesLoop (u : Url) (ns : List (Node V)) (s : Bytes) : List ℕ → ℕ → Bool
  | [], _ => false
  | i :: cs, lb =>
    let c := nodeAt ns i
    let lb := if c.seg.isLiteral || !c.seg.hasModifier then lb + (c.seg.matchSeg u s).toNat else 2
    if 1 < lb then true else branchesLoop u ns s cs lb

/-- branch -/
def branches (u : Url) (ns : List (Node V)) (cur : ℕ) (s : Bytes) : Bool :=
  if 1 < (nodeAt ns cur).childIdx.size then branchesLoop u ns s (nodeAt ns cur).childIdx.toList 0 else false

/-- the look at the next segments before a star or plus: a ".." sends us to a parent directory -/
def leaves (star : Bool) : List Bytes → ℕ → ℕ → Bool
  | [], _, _ => false
  | s :: segs, ndotdot, nnondot =>
    if s = dotdot then
      if nnondot + star.toNat ≤ ndotdot + 1 then true else leaves star segs (ndotdot + 1) nnondot
    else leaves star segs ndotdot (if s = dot then nnondot else nnondot + 1)

/-- the loop over the subranges of a star or plus, from `first + k` down to `first`; `it` and `n` are where the segment
and its view are -/
def starLoop (rec : ℕ → Out → Except Fault (Option ℕ × Out)) (plus : Bool) (n first : ℕ) :
    ℕ → Out → Except Fault (Option ℕ × Out)
  | 0, o => do
    match ← rec first (o.rewind (n + 1)) with
    | (some j, o1) => return (some j, if plus then o1 else o1.setView n none)
    | (none, o1) => return (none, o1)
  | k + 1, o => do
    match ← rec (first + k + 1) o with
    | (some j, o1) =>
      let o2 ← o1.extend n (first + k + 1)
      return (some j, o2)
    | (none, o1) => starLoop rec plus n first k (o1.rewind (n + 1))

/-- how the loop over the children ends: with r, with another cur, or with neither -/
inductive Step where
  | found (r : ℕ)
  | moved (cur : ℕ)
  | unmatched
deriving DecidableEq, Repr

/-- try_match's loop over the children -/
def childLoop (rec : ℕ → ℕ → Out → Except Fault (Option ℕ × Out)) (u : Url) (ns : List (Node V)) (segs : List Bytes)
    (branch : Bool) (it : ℕ) (s : Bytes) : List ℕ → Out → Except Fault (Step × Out)
  | [], o => .ok (.unmatched, o)
  | i :: cs, o =>
    let c := nodeAt ns i
    if !c.seg.matchSeg u s then childLoop rec u ns segs branch it s cs o
    else if c.seg.isLiteral then
      if branch then do
        match ← rec (it + 1) i o with
        | (some j, o1) => return (.found j, o1)
        | (none, o1) => childLoop rec u ns segs branch it s cs o1
      else .ok (.moved i, o)
    else if !c.seg.hasModifier then do
      let o1 ← o.push (some (it, it + 1)) c.seg.id
      if branch then
        match ← rec (it + 1) i o1 with
        | (some j, o2) => return (.found j, o2)
        | (none, o2) => childLoop rec u ns segs branch it s cs (o2.rewind o.n)
      else return (.moved i, o1)
    else if c.seg.isOptional then do
      let o1 ← o.push (some (it, it + 1)) c.seg.id
      match ← rec (it + 1) i o1 with
      | (some j, o2) => return (.found j, o2)
      | (none, o2) =>
        let o3 ← (o2.rewind o.n).push none c.seg.id
        match ← rec it i o3 with
        | (some j, o4) => return (.found j, o4)
        | (none, o4) => childLoop rec u ns segs branch it s cs (o4.rewind o.n)
    else if leaves c.seg.isStar (segs.drop it) 0 0 then .ok (.unmatched, o)
    else do
      let o1 ← o.push (some (it, it + 1)) c.seg.id
      let first := if c.seg.isPlus then it + 1 else it
      match ← starLoop (fun start => rec start i) c.seg.isPlus o.n first (segs.length - first) o1 with
      | (some j, o2) => return (.found j, o2)
      | (none, o2) => childLoop rec u ns segs branch it s cs o2

def tryMatch (u : Url) (ns : List (Node V)) (segs : List Bytes) :
    ℕ → ℕ → ℕ → ℤ → Out → Except Fault (Option ℕ × Out)
  | 0, _, _, _, _ => .error .fuel
  | fuel + 1, it, cur, level, o =>
    match segs[it]? with
    | none =>
      if level ≠ 0 then .ok (none, o)
      else if (nodeAt ns cur).resource.isNone then findOptional ns ns.length cur o
      else .ok (some cur, o)
    | some s =>
      if u.decode s = dot then tryMatch u ns segs fuel (it + 1) cur level o
      else if u.decode s = dotdot then
        if level ≤ 0 ∧ cur ≠ 0 then do
          let o1 ← if (nodeAt ns cur).seg.isLiteral then .ok o else o.pop
          tryMatch u ns segs fuel (it + 1) ((nodeAt ns cur).parentIdx.getD 0) level o1
        else tryMatch u ns segs fuel (it + 1) cur (level - 1) o
      else if level < 0 then tryMatch u ns segs fuel (it + 1) cur (level + 1) o
      else do
        match ← childLoop (fun it i o => tryMatch u ns segs fuel it i level o) u ns segs (branches u ns cur s) it s
            (nodeAt ns cur).childIdx.toList o with
        | (.found j, o1) => return (some j, o1)
        | (.moved c, o1) => tryMatch u ns segs fuel (it + 1) c level o1
        | (.unmatched, o1) => tryMatch u ns segs fuel (it + 1) cur (level + 1) o1

/-- matches_storage: its two arrays, as long as they are, and size_ -/
structure MatchesStorage where
  slots : List (View × Bytes)
  size : ℕ
deriving DecidableEq, Repr

/-- find_impl's path: an empty one is read as "./", which has one segment, the empty one -/
def pathOf (segs : List Bytes) : List Bytes := if segs = [] then [[]] else segs

/-- enough fuel for try_match -/
def fuelFor (ns : List (Node V)) (segs : List Bytes) : ℕ := (segs.length + 1) * (ns.length + 1)

/-- find_impl: the node whose resource is returned -/
def findImpl (u : Url) (r : Impl V) (path : List Bytes) (o : Out) : Except Fault (Option ℕ × Out) :=
  tryMatch u r.nodes (pathOf path) (fuelFor r.nodes (pathOf path)) 0 0 0 o

/-- router::find -/
def find (u : Url) (r : Impl V) (path : List Bytes) (m : MatchesStorage) :
    Except Fault (Option V × MatchesStorage) :=
  match findImpl u r path ⟨m.slots, 0⟩ with
  | .error e => .error e
  | .ok (some j, o) => .ok ((nodeAt r.nodes j).resource, ⟨o.slots, o.n⟩)
  | .ok (none, o) => .ok (none, ⟨o.slots, 0⟩)

/-! ## The look ahead -/

/-- no dot segment, as it is written -/
def named (s : Bytes) : Bool := s ≠ dot ∧ s ≠ dotdot

/-- **The look ahead**: a double dot leads out of the segments when the names before it are no more than the double
dots. -/
theorem leaves_iff {star : Bool} {l : List Bytes} {a b : ℕ} : leaves star l a b = true ↔
    ∃ q, q ++ [dotdot] <+: l ∧ b + q.countP named + star.toNat ≤ a + q.count dotdot + 1 := by
  induction l generalizing a b with
  | nil =>
    rw [leaves]
    refine iff_of_false Bool.false_ne_true ?_
    intro h
    obtain ⟨q, hq, -⟩ := h
    simp at hq
  | cons s l ih =>
    -- the double dot is the first segment, or comes later
    have hsplit : (∃ q, q ++ [dotdot] <+: s :: l ∧ b + q.countP named + star.toNat ≤ a + q.count dotdot + 1) ↔
        s = dotdot ∧ b + star.toNat ≤ a + 1 ∨ ∃ q, q ++ [dotdot] <+: l ∧
          b + (s :: q).countP named + star.toNat ≤ a + (s :: q).count dotdot + 1 := by
      constructor
      · intro h
        obtain ⟨q, hq, hle⟩ := h
        cases q with
        | nil => exact Or.inl ⟨((List.cons_prefix_cons.1 hq).1).symm, by simpa using hle⟩
        | cons x q =>
          rw [List.cons_append, List.cons_prefix_cons] at hq
          obtain ⟨rfl, hq⟩ := hq
          exact Or.inr ⟨q, hq, hle⟩
      · rintro (⟨rfl, hle⟩ | ⟨q, hq, hle⟩)
        · exact ⟨[], by simp, by simpa using hle⟩
        · exact ⟨s :: q, List.cons_prefix_cons.2 ⟨rfl, hq⟩, hle⟩
    rw [hsplit, leaves]
    by_cases hs : s = dotdot
    · have hname : ¬ named s = true := by simp [named, hs]
      rw [if_pos hs]
      split_ifs with hle
      · exact iff_of_true rfl (Or.inl ⟨hs, hle⟩)
      · rw [ih, or_iff_right fun h => hle h.2]
        refine exists_congr fun q => and_congr_right fun _ => ?_
        rw [List.countP_cons_of_neg hname, hs, List.count_cons_self]
        omega
    · rw [if_neg hs, ih, or_iff_right fun h => hs h.1]
      refine exists_congr fun q => and_congr_right fun _ => ?_
      rw [List.count_cons_of_ne hs, List.countP_cons]
      by_cases hdot : s = dot
      · simp [named, hdot]
      · rw [if_neg hdot, if_pos (by simp [named, hdot, hs])]
        omega

/-! ## One child -/

section Child

variable {rec : ℕ → ℕ → Out → Except Fault (Option ℕ × Out)} {u : Url} {ns : List (Node V)} {segs : List Bytes}
  {branch : Bool} {it i : ℕ} {s : Bytes} {cs : List ℕ}

/-- a literal that does not match is passed by -/
theorem childLoop_pass {l : Bytes} (h : (nodeAt ns i).seg.elem = .lit l) (hs : u.decode s ≠ l) (o : Out) :
    childLoop rec u ns segs branch it s (i :: cs) o = childLoop rec u ns segs branch it s cs o := by
  have hm : (nodeAt ns i).seg.matchSeg u s = false := by rw [← Bool.not_eq_true, matchSeg_lit h]; exact hs
  simp only [childLoop, hm, Bool.not_false, if_true]

theorem childLoop_lit {l : Bytes} (h : (nodeAt ns i).seg.elem = .lit l) (hs : u.decode s = l) (o : Out) :
    childLoop rec u ns segs branch it s (i :: cs) o =
      if branch then rec (it + 1) i o >>= fun
        | (some j, o1) => .ok (.found j, o1)
        | (none, o1) => childLoop rec u ns segs branch it s cs o1
      else .ok (.moved i, o) := by
  simp only [childLoop, (matchSeg_lit h u s).2 hs, isLiteral_of_lit h, Bool.not_true, Bool.false_eq_true, if_true,
    if_false]
  rfl

theorem childLoop_one (h : (nodeAt ns i).seg.elem = .one) (o : Out) :
    childLoop rec u ns segs branch it s (i :: cs) o = o.push (some (it, it + 1)) (nodeAt ns i).seg.id >>= fun o1 =>
      if branch then rec (it + 1) i o1 >>= fun
        | (some j, o2) => .ok (.found j, o2)
        | (none, o2) => childLoop rec u ns segs branch it s cs (o2.rewind o.n)
      else .ok (.moved i, o1) := by
  have hf : (nodeAt ns i).seg.elem.isField = true := by rw [h]; rfl
  simp only [childLoop, matchSeg_field hf, isLiteral_of_field hf, hasModifier_eq hf, h, ne_eq, not_true, decide_false,
    Bool.not_true, Bool.not_false, Bool.false_eq_true, if_true, if_false]
  rfl

theorem childLoop_opt (h : (nodeAt ns i).seg.elem = .opt) (o : Out) :
    childLoop rec u ns segs branch it s (i :: cs) o = o.push (some (it, it + 1)) (nodeAt ns i).seg.id >>= fun o1 =>
      rec (it + 1) i o1 >>= fun
        | (some j, o2) => .ok (.found j, o2)
        | (none, o2) => (o2.rewind o.n).push none (nodeAt ns i).seg.id >>= fun o3 =>
          rec it i o3 >>= fun
            | (some j, o4) => .ok (.found j, o4)
            | (none, o4) => childLoop rec u ns segs branch it s cs (o4.rewind o.n) := by
  have hf : (nodeAt ns i).seg.elem.isField = true := by rw [h]; rfl
  have hne : Elem.opt ≠ (.one : Elem Bytes) := by simp
  simp only [childLoop, matchSeg_field hf, isLiteral_of_field hf, hasModifier_eq hf, isOptional_eq, h, hne, ne_eq,
    not_false_eq_true, decide_true, Bool.not_true, Bool.false_eq_true, if_true, if_false]
  rfl

theorem childLoop_many (h : (nodeAt ns i).seg.elem = .star ∨ (nodeAt ns i).seg.elem = .plus) (o : Out) :
    childLoop rec u ns segs branch it s (i :: cs) o =
      if leaves (nodeAt ns i).seg.isStar (segs.drop it) 0 0 then .ok (.unmatched, o)
      else
        let first := if (nodeAt ns i).seg.isPlus then it + 1 else it
        o.push (some (it, it + 1)) (nodeAt ns i).seg.id >>= fun o1 =>
          starLoop (fun start => rec start i) (nodeAt ns i).seg.isPlus o.n first (segs.length - first) o1 >>= fun
            | (some j, o2) => .ok (.found j, o2)
            | (none, o2) => childLoop rec u ns segs branch it s cs o2 := by
  have hf : (nodeAt ns i).seg.elem.isField = true := by rcases h with h | h <;> rw [h] <;> rfl
  have hone : (nodeAt ns i).seg.elem ≠ .one := by rcases h with h | h <;> rw [h] <;> simp
  have hopt : (nodeAt ns i).seg.elem ≠ .opt := by rcases h with h | h <;> rw [h] <;> simp
  simp only [childLoop, matchSeg_field hf, isLiteral_of_field hf, hasModifier_eq hf, isOptional_eq, hone, hopt, ne_eq,
    not_false_eq_true, decide_true, decide_false, Bool.not_true, Bool.false_eq_true, if_false]
  rfl

end Child

/-! ## One segment -/

section Segment

variable {u : Url} {ns : List (Node V)} {segs : List Bytes} {fuel it cur : ℕ} {level : ℤ} {s : Bytes} {o : Out}

theorem tryMatch_end (h : segs[it]? = none) : tryMatch u ns segs (fuel + 1) it cur level o =
    if level ≠ 0 then .ok (none, o)
    else if (nodeAt ns cur).resource.isNone then findOptional ns ns.length cur o
    else .ok (some cur, o) := by
  simp only [tryMatch, h]

/-- with a resource -/
theorem tryMatch_stops (h : segs[it]? = none) (hres : (nodeAt ns cur).resource.isSome = true) :
    tryMatch u ns segs (fuel + 1) it cur 0 o = .ok (some cur, o) := by
  rw [tryMatch_end h, if_neg (not_not_intro rfl), if_neg]
  rw [Option.isNone_iff_eq_none]
  exact Option.isSome_iff_ne_none.1 hres

theorem tryMatch_dot (h : segs[it]? = some s) (hs : u.decode s = dot) :
    tryMatch u ns segs (fuel + 1) it cur level o = tryMatch u ns segs fuel (it + 1) cur level o := by
  simp only [tryMatch, h, hs, if_true]

/-- a double dot in the tree -/
theorem tryMatch_back (h : segs[it]? = some s) (hs : u.decode s = dotdot) (hup : level ≤ 0 ∧ cur ≠ 0) :
    tryMatch u ns segs (fuel + 1) it cur level o =
      (if (nodeAt ns cur).seg.isLiteral then .ok o else o.pop) >>= fun o1 =>
        tryMatch u ns segs fuel (it + 1) ((nodeAt ns cur).parentIdx.getD 0) level o1 := by
  have hne : dotdot ≠ dot := by decide
  simp only [tryMatch, h, hs, if_neg hne, if_true, if_pos hup]
  split_ifs <;> rfl

/-- a double dot at the root, or beyond the tree -/
theorem tryMatch_up (h : segs[it]? = some s) (hs : u.decode s = dotdot) (hup : ¬ (level ≤ 0 ∧ cur ≠ 0)) :
    tryMatch u ns segs (fuel + 1) it cur level o = tryMatch u ns segs fuel (it + 1) cur (level - 1) o := by
  have hne : dotdot ≠ dot := by decide
  simp only [tryMatch, h, hs, if_neg hne, if_true, if_neg hup]

/-- a segment above the root -/
theorem tryMatch_down (h : segs[it]? = some s) (hs : u.decode s ≠ dot ∧ u.decode s ≠ dotdot) (hlevel : level < 0) :
    tryMatch u ns segs (fuel + 1) it cur level o = tryMatch u ns segs fuel (it + 1) cur (level + 1) o := by
  simp only [tryMatch, h, if_neg hs.1, if_neg hs.2, if_pos hlevel]

/-- the children of the node are tried -/
theorem tryMatch_children (h : segs[it]? = some s) (hs : u.decode s ≠ dot ∧ u.decode s ≠ dotdot) (hlevel : 0 ≤ level) :
    tryMatch u ns segs (fuel + 1) it cur level o =
      childLoop (fun it i o => tryMatch u ns segs fuel it i level o) u ns segs (branches u ns cur s) it s
          (nodeAt ns cur).childIdx.toList o >>= fun
        | (.found j, o1) => .ok (some j, o1)
        | (.moved c, o1) => tryMatch u ns segs fuel (it + 1) c level o1
        | (.unmatched, o1) => tryMatch u ns segs fuel (it + 1) cur (level + 1) o1 := by
  simp only [tryMatch, h, if_neg hs.1, if_neg hs.2, if_neg hlevel.not_gt]
  rfl

end Segment

/-! ## The arrays -/

namespace Out

/-- what the caller would see now -/
def live (o : Out) : List (View × Bytes) := o.slots.take o.n

/-- what is live in o stays, and more is after it -/
structure Ext (o o' : Out) (more : List (View × Bytes)) : Prop where
  le : o.n ≤ o.slots.length
  length : o'.slots.length = o.slots.length
  le' : o'.n ≤ o'.slots.length
  live : o'.live = o.live ++ more

variable {o o' o'' : Out} {more more' : List (View × Bytes)} {v v' : View} {id : Bytes}

theorem length_live (h : o.n ≤ o.slots.length) : o.live.length = o.n := by
  rw [live, List.length_take_of_le h]

theorem Ext.refl (h : o.n ≤ o.slots.length) : o.Ext o [] := ⟨h, rfl, h, (List.append_nil _).symm⟩

theorem Ext.trans (h : o.Ext o' more) (h' : o'.Ext o'' more') : o.Ext o'' (more ++ more') :=
  ⟨h.le, h'.length.trans h.length, h'.le', by rw [h'.live, h.live, List.append_assoc]⟩

theorem Ext.n_eq (h : o.Ext o' more) : o'.n = o.n + more.length := by
  have hlen := congrArg List.length h.live
  rwa [length_live h.le', List.length_append, length_live h.le] at hlen

/-- back to where only the first k of them are live -/
theorem Ext.rewind (h : o.Ext o' more) {k : ℕ} (hk : k ≤ more.length) : o.Ext (o'.rewind (o.n + k)) (more.take k) := by
  have hn := h.n_eq
  have hle := h.le'
  refine ⟨h.le, h.length, ?_, ?_⟩
  · simp only [Out.rewind]
    omega
  · have htake : (o'.rewind (o.n + k)).live = o'.live.take (o.n + k) := by
      simp only [Out.live, Out.rewind]
      rw [List.take_take, min_eq_left (by omega)]
    rw [htake, h.live, List.take_append, length_live h.le, List.take_of_length_le (by rw [length_live h.le]; omega)]
    simp

theorem Ext.rewind_zero (h : o.Ext o' more) : o.Ext (o'.rewind o.n) [] := by
  simpa using h.rewind (Nat.zero_le _)

theorem push_ok (h : o.n ≤ o.slots.length) (hp : o.push v id = .ok o') : o.Ext o' [(v, id)] := by
  unfold push at hp
  split_ifs at hp with hlt
  cases hp
  refine ⟨h, by simp, by simpa using hlt, ?_⟩
  rw [live, live, List.take_add_one, List.getElem?_set_self hlt, List.take_set_of_le le_rfl]
  rfl

theorem push_error {e : Fault} (hp : o.push v id = .error e) : e = .overflow ∧ o.slots.length ≤ o.n := by
  unfold push at hp
  split_ifs at hp with hlt
  cases hp
  exact ⟨rfl, not_lt.1 hlt⟩

theorem getElem?_of_ext {x : View × Bytes} (h : o.Ext o' (x :: more)) : o'.slots[o.n]? = some x := by
  have hn := h.n_eq
  rw [List.length_cons] at hn
  have hlive : o'.live[o.n]? = (o.live ++ x :: more)[o.n]? := by rw [h.live]
  rw [List.getElem?_append_right (by rw [length_live h.le]), length_live h.le, Nat.sub_self, live,
    List.getElem?_take_of_lt (by omega)] at hlive
  exact hlive

/-- the first of them gets another view -/
theorem Ext.setView (h : o.Ext o' ((v, id) :: more)) (v' : View) : o.Ext (o'.setView o.n v') ((v', id) :: more) := by
  refine ⟨h.le, by simp [Out.setView, h.length], by simpa [Out.setView] using h.le', ?_⟩
  have hmodify : (o'.setView o.n v').live = o'.live.modify o.n fun s => (v', s.2) := by
    refine List.ext_getElem? ?_
    intro k
    simp only [Out.setView, Out.live, List.getElem?_take, List.getElem?_modify]
    split_ifs <;> simp
  have hlen := length_live h.le
  rw [hmodify, h.live, List.modify_eq_take_drop, List.take_append_of_le_length (by rw [hlen]),
    List.drop_append_of_le_length (by rw [hlen])]
  simp [← hlen]

/-- the first of them now ends with segment k - 1 -/
theorem Ext.extend {i j k : ℕ} (h : o.Ext o' ((some (i, j), id) :: more)) (hk : i < k) :
    ∃ o'', o'.extend o.n k = .ok o'' ∧ o.Ext o'' ((some (i, k), id) :: more) := by
  refine ⟨_, ?_, h.setView (some (i, k))⟩
  rw [Out.extend, getElem?_of_ext h]
  exact if_pos hk

end Out

end Gss.Router
