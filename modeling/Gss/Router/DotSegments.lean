/-
Dot segments in the path that router::find is given.

try_match keeps a node and a level above it: a segment that no child matches takes the level up, and a double dot takes
it down again before it goes back in the tree. `resolved` says what the dot segments of a path mean: a double dot takes
back the segment before it. The two differ in that the children of the node are also tried above level 0 (`Strays`).

- `find_resolves`: when the fields are all {id} and no literal is beside one, a path that does not stray is found as the
  path it resolves to.
- `find_strays`: a path that begins with a segment that no route has, goes on with the literals of a route and comes
  back from the last of them is found as that route, which does not match what it resolves to.
- `find_star`: a star that is alone takes the rest of the path as it is written, when no double dot leads out of it.
  Double dots that are escaped do not count, and are given to the resource.
-/
import Gss.Router.Returns
import Gss.Router.Overflow

namespace Gss.Router

open Gss.Core SegmentTemplate

variable {V : Type*}

/-! ## The routes -/

/-- each field is an {id}, no literal is where another route has a field, and no route has more than N fields -/
structure Straight (routes : List (List SegmentTemplate × V)) (N : ℕ) : Prop where
  one : ∀ r ∈ routes, ∀ e ∈ shape r.1, e.isField = true → e = .one
  alike : ∀ r ∈ routes, ∀ r' ∈ routes, ∀ p e q e' q', shape r.1 = p ++ e :: q → shape r'.1 = p ++ e' :: q' →
    e.isField = e'.isField
  room : ∀ r ∈ routes, fields (shape r.1) ≤ N

theorem straight_iff {routes : List (List SegmentTemplate × V)} {N : ℕ} : Straight routes N ↔
    (∀ r ∈ routes, (∀ e ∈ shape r.1, e.isField = true → e = .one) ∧ fields (shape r.1) ≤ N) ∧
      Meet (fun e _ e' => e.isField = e'.isField) routes := by
  rw [meet_iff]
  exact ⟨fun h => ⟨fun r hr => ⟨h.one r hr, h.room r hr⟩, h.alike⟩,
    fun h => ⟨fun r hr => (h.1 r hr).1, h.2, fun r hr => (h.1 r hr).2⟩⟩

instance (routes : List (List SegmentTemplate × V)) (N : ℕ) : Decidable (Straight routes N) :=
  decidable_of_iff' _ straight_iff

theorem Straight.steady {routes : List (List SegmentTemplate × V)} {N : ℕ} (h : Straight routes N) :
    Steady routes N where
  literal := by
    intro r hr r' hr' p l q e q' hs hs' hf
    rw [← h.alike r hr r' hr' p (.lit l) q e q' hs hs'] at hf
    cases hf
  many := by
    intro r hr r' hr' p q q' hs
    have hstar := h.one r hr .star (by rw [hs]; simp) rfl
    cases hstar
  single := by
    intro r hr
    refine ⟨?_, ?_⟩
    · intro hm
      cases h.one r hr _ hm rfl
    · intro hm
      cases h.one r hr _ hm rfl
  room := h.room
  alike := h.alike

section Routes

variable {u : Url} {ns : List (Node V)} {pat : ℕ → List (Elem Bytes)} {routes : List (List SegmentTemplate × V)} {N : ℕ}

instance (u : Url) (e : Elem Bytes) (s : Bytes) : Decidable (e.Accepts (Fits u) s) :=
  match e with
  | .lit l => inferInstanceAs (Decidable (u.decode s = l))
  | .one => isTrue trivial
  | .opt => isTrue trivial
  | .star => isTrue trivial
  | .plus => isTrue trivial

/-- the segments are those of the beginning of a route -/
def OnRoute (u : Url) (routes : List (List SegmentTemplate × V)) (p : List Bytes) : Prop :=
  ∃ r ∈ routes, List.Forall₂ (Elem.Accepts (Fits u)) ((shape r.1).take p.length) p

instance (u : Url) (routes : List (List SegmentTemplate × V)) (p : List Bytes) : Decidable (OnRoute u routes p) :=
  inferInstanceAs (Decidable (∃ r ∈ routes, List.Forall₂ (Elem.Accepts (Fits u)) ((shape r.1).take p.length) p))

/-- **The way is clear**: two patterns that go on from the same beginning with the same segments are the same. -/
theorem Straight.unique (hs : Straight routes N) {r r' : List SegmentTemplate × V} (hr : r ∈ routes) (hr' : r' ∈ routes)
    {p q q' t t' : List (Elem Bytes)} (hq : shape r.1 = p ++ (q ++ t)) (hq' : shape r'.1 = p ++ (q' ++ t'))
    {segs : List Bytes} (h : List.Forall₂ (Elem.Accepts (Fits u)) q segs)
    (h' : List.Forall₂ (Elem.Accepts (Fits u)) q' segs) : q = q' := by
  induction h generalizing p q' with
  | nil =>
    cases h'
    rfl
  | @cons e s q segs he h ih =>
    cases h' with
    | @cons e' _ q' _ he' h' =>
      have hee : e = e' := by
        have halike := hs.alike r hr r' hr' p e (q ++ t) e' (q' ++ t') hq hq'
        cases hf : e.isField with
        | true =>
          have he1 := hs.one r hr e (by rw [hq]; simp) hf
          have he1' := hs.one r' hr' e' (by rw [hq']; simp) (halike ▸ hf)
          rw [he1, he1']
        | false =>
          rw [hf] at halike
          cases e with
          | lit l =>
            cases e' with
            | lit l' => exact congrArg _ (he.symm.trans he')
            | _ => cases halike
          | _ => cases hf
      subst hee
      have hpq : shape r.1 = (p ++ [e]) ++ (q ++ t) := by rw [hq]; simp
      have hpq' : shape r'.1 = (p ++ [e]) ++ (q' ++ t') := by rw [hq']; simp
      rw [ih hpq hpq' h']

/-- the root is on every route -/
theorem route_of_node (h : Holds ns pat routes) (hne : routes ≠ []) {i : ℕ} (hi : i < ns.length) :
    ∃ r ∈ routes, pat i <+: shape r.1 := by
  by_cases h0 : i = 0
  · obtain ⟨r, hr⟩ := List.exists_mem_of_ne_nil _ hne
    exact ⟨r, hr, by rw [h0, h.tree.root]; exact List.nil_prefix⟩
  · exact h.on_route hi h0

/-- one node at most for the segments -/
theorem node_unique (h : Holds ns pat routes) (hne : routes ≠ []) (hs : Straight routes N) {i j : ℕ}
    (hi : i < ns.length)
    (hj : j < ns.length) {p : List Bytes} (hip : List.Forall₂ (Elem.Accepts (Fits u)) (pat i) p)
    (hjp : List.Forall₂ (Elem.Accepts (Fits u)) (pat j) p) : i = j := by
  obtain ⟨r, hr, t, ht⟩ := route_of_node h hne hi
  obtain ⟨r', hr', t', ht'⟩ := route_of_node h hne hj
  exact h.tree.inj i j hi hj (hs.unique (p := []) hr hr' ht.symm ht'.symm hip hjp)

theorem onRoute_iff (h : Holds ns pat routes) (hne : routes ≠ []) {p : List Bytes} : OnRoute u routes p ↔
    ∃ i, i < ns.length ∧ List.Forall₂ (Elem.Accepts (Fits u)) (pat i) p := by
  constructor
  · intro hp
    obtain ⟨r, hr, hp⟩ := hp
    obtain ⟨j, hj, hpj⟩ := h.node hr
    obtain ⟨i, hi, hpi⟩ := h.tree.trie.prefix_mem (j := j) (p := (shape r.1).take p.length)
      (q := (shape r.1).drop p.length) hj (hpj.trans (List.take_append_drop _ _).symm)
    have hpi : pat i = (shape r.1).take p.length := hpi
    exact ⟨i, hi, hpi ▸ hp⟩
  · intro hp
    obtain ⟨i, hi, hp⟩ := hp
    obtain ⟨r, hr, q, hq⟩ := route_of_node h hne hi
    refine ⟨r, hr, ?_⟩
    rw [← hq, ← hp.length_eq, List.take_left]
    exact hp

theorem accepts_child (h : Holds ns pat routes) {i c : ℕ} (hi : i < ns.length) {p : List Bytes}
    (hp : List.Forall₂ (Elem.Accepts (Fits u)) (pat i) p) (hc : IsChild ns i c) {x : Bytes}
    (hx : (elemAt ns c).Accepts (Fits u) x) : List.Forall₂ (Elem.Accepts (Fits u)) (pat c) (p ++ [x]) := by
  rw [(h.tree.of_child hi hc).2.2.2]
  exact List.rel_append hp (.cons hx .nil)

/-- one child at most for the next segment -/
theorem child_unique (h : Holds ns pat routes) (hne : routes ≠ []) (hs : Straight routes N) {i c d : ℕ}
    (hi : i < ns.length) {p : List Bytes} (hp : List.Forall₂ (Elem.Accepts (Fits u)) (pat i) p) (hc : IsChild ns i c)
    (hd : IsChild ns i d) {x : Bytes} (hcx : (elemAt ns c).Accepts (Fits u) x)
    (hdx : (elemAt ns d).Accepts (Fits u) x) :
    c = d :=
  node_unique h hne hs (h.tree.of_child hi hc).1 (h.tree.of_child hi hd).1 (accepts_child h hi hp hc hcx)
    (accepts_child h hi hp hd hdx)

/-- a route goes on with x from a node when the node has a child for x -/
theorem onRoute_snoc (h : Holds ns pat routes) (hne : routes ≠ []) (hs : Straight routes N) {i : ℕ} (hi : i < ns.length)
    {p : List Bytes} (hp : List.Forall₂ (Elem.Accepts (Fits u)) (pat i) p) {x : Bytes} : OnRoute u routes (p ++ [x]) ↔
      ∃ c, IsChild ns i c ∧ (elemAt ns c).Accepts (Fits u) x := by
  rw [onRoute_iff h hne]
  constructor
  · intro hx
    obtain ⟨c, hc, hx⟩ := hx
    have h0 : c ≠ 0 := by
      rintro rfl
      rw [h.tree.root] at hx
      have hlen := hx.length_eq
      simp at hlen
    obtain ⟨j, hjc, hpar, hpat⟩ := h.tree.parent c hc h0
    have hj := hjc.trans hc
    have hlen : (pat j).length = p.length := by
      have hlen := hx.length_eq
      rw [hpat, List.length_append, List.length_append] at hlen
      exact Nat.add_right_cancel hlen
    have hbegin := List.forall₂_take_append _ _ _ hx
    have hend := List.forall₂_drop_append _ _ _ hx
    rw [hpat, ← hlen, List.take_left] at hbegin
    rw [hpat, ← hlen, List.drop_left] at hend
    obtain rfl := node_unique h hne hs hj hi hbegin hp
    exact ⟨c, (h.tree.child j c hj).2 ⟨hc, h0, hpar⟩, (List.forall₂_cons.1 hend).1⟩
  · intro hx
    obtain ⟨c, hc, hx⟩ := hx
    exact ⟨c, (h.tree.of_child hi hc).1, accepts_child h hi hp hc hx⟩

/-! ## One segment -/

/-- the child that accepts the segment is gone to -/
theorem childLoop_to {rec : ℕ → ℕ → Out → Except Fault (Option ℕ × Out)} {segs : List Bytes} {it c : ℕ} {x : Bytes}
    {cs : List ℕ} (hone : ∀ d ∈ cs, (elemAt ns d).isField = true → elemAt ns d = .one) (hc : c ∈ cs)
    (hx : (elemAt ns c).Accepts (Fits u) x) (hother : ∀ d ∈ cs, (elemAt ns d).Accepts (Fits u) x → d = c) (o : Out) :
    childLoop rec u ns segs false it x cs o =
      (if (elemAt ns c).isField then o.push (some (it, it + 1)) (nodeAt ns c).seg.id else .ok o) >>= fun o1 =>
        .ok (.moved c, o1) := by
  induction cs with
  | nil => cases hc
  | cons d cs ih =>
    by_cases hd : (elemAt ns d).Accepts (Fits u) x
    · obtain rfl := hother d List.mem_cons_self hd
      cases he : elemAt ns d with
      | lit l =>
        rw [he] at hx
        rw [childLoop_lit he hx]
        rfl
      | _ =>
        have hone : elemAt ns d = .one := hone d List.mem_cons_self (by rw [he]; rfl)
        rw [childLoop_one hone]
        rfl
    · have hne : c ≠ d := fun hcd => hd (hcd ▸ hx)
      cases he : elemAt ns d with
      | lit l =>
        rw [he] at hd
        rw [childLoop_pass he hd]
        exact ih (fun e he => hone e (List.mem_cons_of_mem _ he)) (List.mem_of_ne_of_mem hne hc)
          fun e he => hother e (List.mem_cons_of_mem _ he)
      | _ =>
        rw [he] at hd
        exact absurd trivial hd

/-- no child accepts it -/
theorem childLoop_none {rec : ℕ → ℕ → Out → Except Fault (Option ℕ × Out)} {segs : List Bytes} {branch : Bool} {it : ℕ}
    {x : Bytes} {cs : List ℕ} (hno : ∀ d ∈ cs, ¬ (elemAt ns d).Accepts (Fits u) x) (o : Out) :
    childLoop rec u ns segs branch it x cs o = .ok (.unmatched, o) := by
  induction cs with
  | nil => rfl
  | cons d cs ih =>
    have hd := hno d List.mem_cons_self
    cases he : elemAt ns d with
    | lit l =>
      rw [he] at hd
      rw [childLoop_pass he hd]
      exact ih fun e he => hno e (List.mem_cons_of_mem _ he)
    | _ =>
      rw [he] at hd
      exact absurd trivial hd

/-- a field is an {id} -/
theorem one_of_field (h : Holds ns pat routes) (hs : Straight routes N) {i c : ℕ} (hi : i < ns.length)
    (hc : IsChild ns i c) (hf : (elemAt ns c).isField = true) : elemAt ns c = .one := by
  obtain ⟨r, hr, q, hq⟩ := h.route_of_child hi hc
  exact hs.one r hr _ (by rw [hq]; simp) hf

/-- the search does not branch -/
theorem branches_straight (h : Holds ns pat routes) (hs : Straight routes N) {i : ℕ} (hi : i < ns.length) (x : Bytes) :
    branches u ns i x = false := by
  rw [← Bool.not_eq_true]
  intro hb
  obtain ⟨d, hd, hf⟩ := field_of_branches h.tree hi hb
  -- beside a field there are fields only, so that it is alone
  have hone := children_eq h.tree hi hd fun c hc => by
    have hcf : (elemAt ns c).isField = true := ((h.calm hs.steady).alike i c d hi hc hd).trans hf
    rw [one_of_field h hs hi hc hcf, one_of_field h hs hi hd hf]
  rw [branches_single hone] at hb
  cases hb

end Routes

/-! ## Resolving a path -/

/-- what is left of the path when its dot segments are resolved -/
def resolved (u : Url) (path : List Bytes) : Stack Bytes := (resolving u.decode).run (resolving u.decode).init path

/-- the segment comes after one that no route has there, and a route has it in that one's place -/
def Strays (u : Url) (routes : List (List SegmentTemplate × V)) (s : Stack Bytes) (x : Bytes) : Prop :=
  u.decode x ≠ dot ∧ u.decode x ≠ dotdot ∧ s.level = 0 ∧ ∃ k < s.segs.length, OnRoute u routes (s.segs.take k) ∧
    ¬ OnRoute u routes (s.segs.take (k + 1)) ∧ OnRoute u routes (s.segs.take k ++ [x])

instance (u : Url) (routes : List (List SegmentTemplate × V)) (s : Stack Bytes) (x : Bytes) :
    Decidable (Strays u routes s x) :=
  inferInstanceAs (Decidable (u.decode x ≠ dot ∧ u.decode x ≠ dotdot ∧ s.level = 0 ∧ ∃ k < s.segs.length,
    OnRoute u routes (s.segs.take k) ∧ ¬ OnRoute u routes (s.segs.take (k + 1)) ∧
    OnRoute u routes (s.segs.take k ++ [x])))

section Resolve

variable {u : Url} {ns : List (Node V)} {pat : ℕ → List (Elem Bytes)} {routes : List (List SegmentTemplate × V)} {N : ℕ}
  {segs ss rest : List Bytes} {cur it : ℕ} {level : ℤ} {o : Out} {s : Stack Bytes} {x : Bytes}

/-- the search stands at the node that ss leads to, with the views of its fields -/
structure Stands (u : Url) (ns : List (Node V)) (pat : ℕ → List (Elem Bytes)) (segs : List Bytes) (N : ℕ)
    (ss : List Bytes)
    (cur : ℕ) (o : Out) : Prop where
  lt : cur < ns.length
  full : Full pat N cur o
  walk : ∃ w es, Walk (IsChild ns) (elemAt ns) (Fits u) 0 ss w es cur ∧ o.live.map (seen segs) = entries ns es

/-- as it stands where s is; rest is what no route has -/
structure On (u : Url) (ns : List (Node V)) (pat : ℕ → List (Elem Bytes)) (segs : List Bytes) (N : ℕ) (s : Stack Bytes)
    (ss rest : List Bytes) (cur : ℕ) (level : ℤ) (o : Out) : Prop where
  stands : Stands u ns pat segs N ss cur o
  segs : s.segs = ss ++ rest
  level : level = s.level + rest.length
  above : s.level = 0 ∨ s.level < 0 ∧ s.segs = []
  rest : ∀ y ∈ rest.head?, ∀ c, IsChild ns cur c → ¬ (elemAt ns c).Accepts (Fits u) y

/-- the node accepts what leads to it -/
theorem Stands.accepts (h : Stands u ns pat segs N ss cur o) (hh : Holds ns pat routes) (hne : routes ≠ [])
    (hs : Straight routes N) : List.Forall₂ (Elem.Accepts (Fits u)) (pat cur) ss := by
  obtain ⟨w, es, hw, -⟩ := h.walk
  obtain ⟨hj, q, hq, hm, -⟩ := hh.tree.trie.walk_matches hh.tree.pos hw
  have hroot : hh.tree.trie.pat 0 = [] := hh.tree.root
  rw [hroot, List.nil_append] at hq
  have hq : pat cur = q := hq
  obtain ⟨r, hr, t, ht⟩ := route_of_node hh hne h.lt
  rw [hq]
  refine (matches_iff_forall₂ ?_).1 ⟨w, _, hm⟩
  intro e he
  exact hs.one r hr e (by rw [← ht, hq]; exact List.mem_append_left _ he)

/-! ### The moves -/

/-- down to a child -/
theorem Stands.move (h : Stands u ns pat segs N ss cur o) (hh : Holds ns pat routes) (hs : Straight routes N)
    (hit : segs[it]? = some x) {c : ℕ} (hc : IsChild ns cur c) (hx : (elemAt ns c).Accepts (Fits u) x) :
    ∃ o', (if (elemAt ns c).isField then o.push (some (it, it + 1)) (nodeAt ns c).seg.id else .ok o) = .ok o' ∧
      Stands u ns pat segs N (ss ++ [x]) c o' := by
  have hlt := (hh.tree.of_child h.lt hc).1
  obtain ⟨w, es, hw, hlive⟩ := h.walk
  cases hf : (elemAt ns c).isField with
  | false =>
    obtain ⟨l, hl⟩ : ∃ l, elemAt ns c = .lit l := by
      cases he : elemAt ns c with
      | lit l => exact ⟨l, rfl⟩
      | _ => rw [he] at hf; cases hf
    rw [hl] at hx
    obtain ⟨w', hw'⟩ := hw.snoc_lit hc hl hx
    exact ⟨o, rfl, hlt, h.full.literal hh.tree h.lt hc hf, w', es, hw', hlive⟩
  | true =>
    have hone := one_of_field hh hs h.lt hc hf
    obtain ⟨o', hpush, hfull⟩ := h.full.push hh.tree (hh.calm hs.steady) h.lt hc hf (some (it, it + 1))
      (nodeAt ns c).seg.id
    have hle : o.n ≤ o.slots.length := by
      rw [h.full.length, h.full.views]
      exact (hh.roomy hs.steady.toFit).room cur h.lt
    have hext := Out.push_ok hle hpush
    obtain ⟨w', hw'⟩ := hw.snoc_field hc (show (elemAt ns c).Takes [x].length by rw [hone]; rfl)
    refine ⟨o', hpush, hlt, hfull, w', _, hw', ?_⟩
    have hdrop : segs.drop it = x :: segs.drop (it + 1) := by
      obtain ⟨hlt, rfl⟩ := List.getElem?_eq_some_iff.1 hit
      exact List.drop_eq_getElem_cons hlt
    rw [hext.live, List.map_append, hlive]
    simp [entries, seen, hdrop]

theorem live_pop (hle : o.n ≤ o.slots.length) {o' : Out} (hp : o.pop = .ok o') : o'.live = o.live.dropLast := by
  unfold Out.pop at hp
  split_ifs at hp with hn
  cases hp
  calc o.slots.take (o.n - 1)
      = o.live.take (o.n - 1) := by rw [Out.live, List.take_take, min_eq_left (Nat.sub_le _ _)]
    _ = o.live.dropLast := by rw [List.dropLast_eq_take, Out.length_live hle]

/-- back to the parent -/
theorem Stands.back (h : Stands u ns pat segs N ss cur o) (hh : Holds ns pat routes) (hs : Straight routes N)
    (h0 : cur ≠ 0) : ∃ o', (if (nodeAt ns cur).seg.isLiteral then .ok o else o.pop) = .ok o' ∧ ss ≠ [] ∧
      Stands u ns pat segs N ss.dropLast ((nodeAt ns cur).parentIdx.getD 0) o' := by
  obtain ⟨o', hback, hlt, hfull⟩ := h.full.back hh.tree h.lt h0
  obtain ⟨w, es, hw, hlive⟩ := h.walk
  rcases hw.unsnoc with ⟨hc, -⟩ | ⟨p, ss', w', es', hpc, hw', hlast⟩
  · exact absurd hc h0
  have hp : p < ns.length := (hh.tree.trie.walk_matches hh.tree.pos hw').1
  obtain ⟨-, -, hpar, -⟩ := hh.tree.of_child hp hpc
  rw [hpar, Option.getD_some] at hlt hfull ⊢
  rcases hlast with ⟨l, y, he, hl, rfl, rfl⟩ | ⟨taken, ht, rfl, rfl⟩
  · -- a literal
    have hlit : (nodeAt ns cur).seg.isLiteral = true := isLiteral_of_lit he
    rw [hlit, if_pos rfl, Except.ok.injEq] at hback
    subst hback
    rw [List.dropLast_concat]
    exact ⟨o, if_pos hlit, by simp, hp, hfull, w', es, hw', hlive⟩
  · -- a field has taken one segment
    have hone := one_of_field hh hs hp hpc ht.isField
    have hlit : ¬ (nodeAt ns cur).seg.isLiteral = true := by
      rw [isLiteral_of_field ht.isField]
      exact Bool.false_ne_true
    rw [if_neg hlit] at hback
    rw [hone] at ht
    obtain ⟨y, rfl⟩ := List.length_eq_one_iff.1 ht
    have hle : o.n ≤ o.slots.length := by
      rw [h.full.length, h.full.views]
      exact (hh.roomy hs.steady.toFit).room cur h.lt
    rw [List.dropLast_concat]
    refine ⟨o', by rw [if_neg hlit, hback], by simp, hp, hfull, w', es', hw', ?_⟩
    calc o'.live.map (seen segs)
        = (entries ns (es' ++ [(cur, [y])])).dropLast := by rw [live_pop hle hback, List.map_dropLast, hlive]
      _ = entries ns es' := by rw [entries, List.map_append, List.map_singleton, List.dropLast_concat, entries]

/-! ### Along the path -/

/-- try_match goes on where the resolution does -/
def Follows (u : Url) (ns : List (Node V)) (pat : ℕ → List (Elem Bytes)) (segs : List Bytes) (N fuel it cur : ℕ)
    (level : ℤ)
    (o : Out) (s' : Stack Bytes) : Prop :=
  ∃ ss' rest' cur' level' o', tryMatch u ns segs (fuel + 1) it cur level o =
    tryMatch u ns segs fuel (it + 1) cur' level' o' ∧ On u ns pat segs N s' ss' rest' cur' level' o'

theorem step_dot (hx : u.decode x = dot) : resolveStep u.decode s x = s := if_pos hx

theorem step_dotdot (hx : u.decode x = dotdot) : resolveStep u.decode s x =
    if s.segs = [] then { s with level := s.level - 1 } else { s with segs := s.segs.dropLast } := by
  rw [resolveStep, hx, if_neg (by decide), if_pos rfl]

theorem step_plain (hx : u.decode x ≠ dot ∧ u.decode x ≠ dotdot) : resolveStep u.decode s x =
    if s.level < 0 then { s with level := s.level + 1 } else { s with segs := s.segs ++ [x] } := by
  rw [resolveStep, if_neg hx.1, if_neg hx.2]

/-- a double dot -/
theorem On.parent (h : On u ns pat segs N s ss rest cur level o) (hh : Holds ns pat routes) (hne : routes ≠ [])
    (hs : Straight routes N) (hit : segs[it]? = some x) (hx : u.decode x = dotdot) (fuel : ℕ) :
    Follows u ns pat segs N fuel it cur level o (resolveStep u.decode s x) := by
  have hsegs := h.segs
  have hlevel := h.level
  rw [step_dotdot hx]
  rcases List.eq_nil_or_concat' rest with rfl | ⟨rest, y, rfl⟩
  · rw [List.append_nil] at hsegs
    rw [List.length_nil, Nat.cast_zero, add_zero] at hlevel
    by_cases h0 : cur = 0
    · -- at the root
      have hss : ss = [] := by
        have hacc := h.stands.accepts hh hne hs
        rw [h0, hh.tree.root] at hacc
        exact List.forall₂_nil_left_iff.1 hacc
      refine ⟨ss, [], cur, level - 1, o, tryMatch_up hit hx (fun hup => hup.2 h0), h.stands, ?_, ?_, ?_, ?_⟩
      · rw [if_pos (hsegs.trans hss), hsegs, List.append_nil]
      · rw [if_pos (hsegs.trans hss)]
        simp [hlevel]
      · rw [if_pos (hsegs.trans hss)]
        refine Or.inr ⟨?_, hsegs.trans hss⟩
        rcases h.above with h1 | h1 <;> simp only <;> omega
      · intro y hy
        cases hy
    · -- in the tree
      obtain ⟨o', hback, hss, hstands⟩ := h.stands.back hh hs h0
      have hne' : s.segs ≠ [] := hsegs ▸ hss
      have hzero : s.level = 0 := h.above.resolve_right fun h1 => hne' h1.2
      refine ⟨ss.dropLast, [], _, level, o', ?_, hstands, ?_, ?_, ?_, ?_⟩
      · rw [tryMatch_back hit hx ⟨by omega, h0⟩, hback]
        rfl
      · rw [if_neg hne', hsegs, List.append_nil]
      · rw [if_neg hne']
        simp [hlevel]
      · rw [if_neg hne']
        exact Or.inl hzero
      · intro y hy
        cases hy
  · -- above the node
    have hne' : s.segs ≠ [] := by rw [hsegs]; simp
    have hzero : s.level = 0 := h.above.resolve_right fun h1 => hne' h1.2
    rw [List.length_append, List.length_singleton, Nat.cast_add, Nat.cast_one] at hlevel
    refine ⟨ss, rest, cur, level - 1, o, tryMatch_up hit hx (fun hup => by omega), h.stands, ?_, ?_, ?_, ?_⟩
    · rw [if_neg hne', hsegs, ← List.append_assoc, List.dropLast_concat]
    · rw [if_neg hne']
      simp only
      omega
    · rw [if_neg hne']
      exact Or.inl hzero
    · intro z hz
      refine h.rest z ?_
      cases rest with
      | nil => cases hz
      | cons a rest => exact hz

/-- another segment, below the root or at it -/
theorem On.child (h : On u ns pat segs N s ss rest cur level o) (hh : Holds ns pat routes) (hne : routes ≠ [])
    (hs : Straight routes N) (hit : segs[it]? = some x) (hx : u.decode x ≠ dot ∧ u.decode x ≠ dotdot)
    (hstays : ¬ Strays u routes s x) (hzero : s.level = 0) (fuel : ℕ) :
    Follows u ns pat segs N fuel it cur level o { s with segs := s.segs ++ [x] } := by
  have hlevel := h.level
  rw [hzero, zero_add] at hlevel
  have hbelow : 0 ≤ level := by omega
  by_cases hc : ∃ c, IsChild ns cur c ∧ (elemAt ns c).Accepts (Fits u) x
  · obtain ⟨c, hc, hcx⟩ := hc
    cases rest with
    | nil =>
      obtain ⟨o', hmove, hstands⟩ := h.stands.move hh hs hit hc hcx
      have hone : ∀ d ∈ (nodeAt ns cur).childIdx.toList, (elemAt ns d).isField = true → elemAt ns d = .one :=
        fun d hd => one_of_field hh hs h.stands.lt hd
      have hother : ∀ d ∈ (nodeAt ns cur).childIdx.toList, (elemAt ns d).Accepts (Fits u) x → d = c :=
        fun d hd hdx => child_unique hh hne hs h.stands.lt (h.stands.accepts hh hne hs) hd hc hdx hcx
      refine ⟨ss ++ [x], [], c, level, o', ?_, hstands, ?_, ?_, ?_, ?_⟩
      · rw [tryMatch_children hit hx hbelow, branches_straight hh hs h.stands.lt, childLoop_to hone hc hcx hother,
          hmove]
        rfl
      · simp [h.segs]
      · simp [hlevel, hzero]
      · exact Or.inl hzero
      · intro y hy
        cases hy
    | cons y rest =>
      -- the segment strays
      refine absurd ?_ hstays
      have hacc := h.stands.accepts hh hne hs
      have htake : s.segs.take ss.length = ss := by rw [h.segs, List.take_left]
      have htake' : s.segs.take (ss.length + 1) = ss ++ [y] := by
        rw [h.segs, List.take_length_add_append]
        rfl
      refine ⟨hx.1, hx.2, hzero, ss.length, by rw [h.segs]; simp, ?_, ?_, ?_⟩
      · rw [htake]
        exact (onRoute_iff hh hne).2 ⟨cur, h.stands.lt, hacc⟩
      · rw [htake', onRoute_snoc hh hne hs h.stands.lt hacc]
        intro hd
        obtain ⟨d, hd, hdy⟩ := hd
        exact h.rest y rfl d hd hdy
      · rw [htake, onRoute_snoc hh hne hs h.stands.lt hacc]
        exact ⟨c, hc, hcx⟩
  · rw [not_exists] at hc
    refine ⟨ss, rest ++ [x], cur, level + 1, o, ?_, h.stands, ?_, ?_, ?_, ?_⟩
    · rw [tryMatch_children hit hx hbelow, childLoop_none fun d hd hdx => hc d ⟨hd, hdx⟩]
      rfl
    · simp [h.segs]
    · simp [hlevel, hzero]
    · exact Or.inl hzero
    · intro y hy
      cases rest with
      | nil =>
        obtain rfl : x = y := Option.some.inj hy
        exact fun d hd hdx => hc d ⟨hd, hdx⟩
      | cons a rest => exact h.rest y hy

/-- **One segment** of a path that does not stray. -/
theorem On.step (h : On u ns pat segs N s ss rest cur level o) (hh : Holds ns pat routes) (hne : routes ≠ [])
    (hs : Straight routes N) (hit : segs[it]? = some x) (hstays : ¬ Strays u routes s x) (fuel : ℕ) :
    Follows u ns pat segs N fuel it cur level o (resolveStep u.decode s x) := by
  by_cases hdot : u.decode x = dot
  · rw [step_dot hdot]
    exact ⟨ss, rest, cur, level, o, tryMatch_dot hit hdot, h⟩
  by_cases hdotdot : u.decode x = dotdot
  · exact h.parent hh hne hs hit hdotdot fuel
  rw [step_plain ⟨hdot, hdotdot⟩]
  rcases h.above with hzero | ⟨habove, hnil⟩
  · rw [if_neg (by omega)]
    exact h.child hh hne hs hit ⟨hdot, hdotdot⟩ hstays hzero fuel
  · -- above the root
    have hsegs := h.segs
    rw [hnil, eq_comm, List.append_eq_nil_iff] at hsegs
    obtain ⟨rfl, rfl⟩ := hsegs
    have hlevel := h.level
    rw [List.length_nil, Nat.cast_zero, add_zero] at hlevel
    rw [if_pos habove]
    refine ⟨[], [], cur, level + 1, o, tryMatch_down hit ⟨hdot, hdotdot⟩ (by omega), h.stands, hnil, ?_, ?_, ?_⟩
    · simp [hlevel]
    · rcases Int.lt_or_eq_of_le (show s.level + 1 ≤ 0 by omega) with h1 | h1
      · exact Or.inr ⟨h1, hnil⟩
      · exact Or.inl h1
    · intro y hy
      cases hy

theorem on_root (ht : Tree ns pat) (segs : List Bytes) (slots : List (View × Bytes)) :
    On u ns pat segs slots.length (resolving u.decode).init [] [] 0 0 ⟨slots, 0⟩ where
  stands := ⟨ht.pos, ⟨rfl, by rw [ht.root]; rfl⟩, [], [], .stop 0, rfl⟩
  segs := rfl
  level := rfl
  above := Or.inl rfl
  rest y hy := by cases hy

/-- **The whole path.** -/
theorem On.run (h : On u ns pat segs N s ss rest cur level o) (hh : Holds ns pat routes) (hne : routes ≠ [])
    (hs : Straight routes N) {l : List Bytes} (hdrop : segs.drop it = l)
    (hstays : (resolving u.decode).Along (fun s x => ¬ Strays u routes s x) s l) (fuel : ℕ) :
    ∃ ss' rest' cur' level' o', tryMatch u ns segs (fuel + l.length) it cur level o =
      tryMatch u ns segs fuel (it + l.length) cur' level' o' ∧
        On u ns pat segs N ((resolving u.decode).run s l) ss' rest' cur' level' o' := by
  induction l generalizing s ss rest it cur level o with
  | nil => exact ⟨ss, rest, cur, level, o, rfl, h⟩
  | cons x l ih =>
    have hit : segs[it]? = some x := by
      rw [← List.head?_drop, hdrop]
      rfl
    have hdrop' : segs.drop (it + 1) = l := by
      rw [← List.drop_drop, hdrop]
      rfl
    obtain ⟨ss1, rest1, cur1, level1, o1, hstep, hon⟩ := h.step hh hne hs hit hstays.1 (fuel + l.length)
    obtain ⟨ss', rest', cur', level', o', hrun, hon'⟩ := ih hon hdrop' hstays.2
    refine ⟨ss', rest', cur', level', o', ?_, hon'⟩
    rw [List.length_cons, ← Nat.add_assoc, hstep, hrun]
    congr 1
    omega

/-- at the end there is nothing to do for find_optional_resource -/
theorem On.at_end (h : On u ns pat segs N s ss rest cur level o) (hh : Holds ns pat routes) (hne : routes ≠ [])
    (hs : Straight routes N) (hit : segs[it]? = none) (fuel : ℕ) : tryMatch u ns segs (fuel + 1) it cur level o =
      .ok (if level = 0 ∧ (nodeAt ns cur).resource.isSome = true then some cur else none, o) := by
  rw [tryMatch_end hit]
  by_cases hzero : level = 0
  · cases hr : (nodeAt ns cur).resource with
    | some v => simp [hzero]
    | none =>
      have hchildren : (nodeAt ns cur).childIdx.toList ≠ [] := by
        obtain ⟨r, hr', hpre⟩ := route_of_node hh hne h.stands.lt
        exact (on_route hh.tree hh.names hh.resources h.stands.lt hr' (List.mem_map_of_mem hr') hpre).resolve_left
          (not_not_intro hr)
      have hno : ∀ c ∈ (nodeAt ns cur).childIdx.toList, ¬ (elemAt ns c).Takes 0 := by
        intro c hc ht
        rw [one_of_field hh hs h.stands.lt hc ht.isField] at ht
        cases ht
      have hisNone : (none : Option V).isNone = true := rfl
      rw [if_neg (not_not_intro hzero), if_pos hisNone, findOptional_fails hr hchildren hno hh.tree.pos]
      simp
  · rw [if_pos hzero, if_neg fun h1 => hzero h1.1]

/-- the segments that no route has are not matched -/
theorem On.routeAlts_empty (h : On u ns pat segs N s ss rest cur level o) (hh : Holds ns pat routes) (hne : routes ≠ [])
    (hs : Straight routes N) (hno : rest = [] → (nodeAt ns cur).resource = none) : routeAlts u routes s.segs = ∅ := by
  have hacc := h.stands.accepts hh hne hs
  refine Set.eq_empty_of_forall_notMem ?_
  rintro ⟨w, q, caps⟩ ⟨⟨r, hr, hq⟩, hm⟩
  dsimp only at hq hm
  have hforall := (matches_iff_forall₂ (fun e he => hs.one r hr e (hq ▸ he))).1 ⟨w, caps, hm⟩
  rw [h.segs] at hforall
  cases rest with
  | nil =>
    obtain ⟨j, hj, hp⟩ := hh.node hr
    rw [List.append_nil] at hforall
    obtain rfl := node_unique hh hne hs hj h.stands.lt (hp.trans hq ▸ hforall) hacc
    have hsome := (resource_isSome hh hj).2 ⟨r, hr, hp.symm⟩
    rw [hno rfl] at hsome
    cases hsome
  | cons y rest =>
    -- the route would go on from the node
    have hon : OnRoute u routes (ss ++ [y]) := by
      refine ⟨r, hr, ?_⟩
      have htake := List.forall₂_take (ss.length + 1) hforall
      rw [List.take_length_add_append] at htake
      rw [hq, List.length_append, List.length_singleton]
      exact htake
    rw [onRoute_snoc hh hne hs h.stands.lt hacc] at hon
    obtain ⟨c, hc, hcy⟩ := hon
    exact h.rest y rfl c hc hcy

end Resolve

/-! ## find -/

section Find

variable {u : Url} {ps : List (Bytes × V)} {r : Impl V}

/-- **Dot segments.** When the fields of all routes are {id}, no literal is beside one, and there are as many slots as a
route has fields, find returns on any path that does not stray: what the routes have for the path that it resolves to,
with its views, and nothing when they do not have it. -/
theorem find_resolves (h : Inserted u ps r) (hne : routesOf u ps ≠ []) {m : MatchesStorage}
    (hs : Straight (routesOf u ps) m.slots.length) {path : List Bytes}
    (hstays : (resolving u.decode).Along (fun s x => ¬ Strays u (routesOf u ps) s x) (resolving u.decode).init
      (pathOf path)) :
    (∃ m', find u r path m = .ok (none, m') ∧ m'.size = 0 ∧ ((resolved u (pathOf path)).level ≠ 0 ∨
        routeAlts u (routesOf u ps) (resolved u (pathOf path)).segs = ∅)) ∨
      ∃ v m' w q caps, find u r path m = .ok (some v, m') ∧ (resolved u (pathOf path)).level = 0 ∧
        (w, q, caps) ∈ routeAlts u (routesOf u ps) (resolved u (pathOf path)).segs ∧
        lastFor (routesOf u ps) q = some v ∧ m'.views (pathOf path) = caps.zip (idsOf (routesOf u ps) q) := by
  obtain ⟨pat, hh⟩ := h.holds
  obtain ⟨fuel, hfuel⟩ : ∃ k, fuelFor r.nodes (pathOf path) = k + 1 + (pathOf path).length := exists_fuel _ (by omega)
  have hstart : On u r.nodes pat (pathOf path) m.slots.length (resolving u.decode).init [] [] 0 0 ⟨m.slots, 0⟩ :=
    on_root hh.tree (pathOf path) m.slots
  obtain ⟨ss, rest, cur, level, o, hrun, hon⟩ := hstart.run hh hne hs
    (show (pathOf path).drop 0 = pathOf path from rfl) hstays (fuel + 1)
  have hon : On u r.nodes pat (pathOf path) m.slots.length (resolved u (pathOf path)) ss rest cur level o := hon
  have hfind : findImpl u r path ⟨m.slots, 0⟩ =
      .ok (if level = 0 ∧ (nodeAt r.nodes cur).resource.isSome = true then some cur else none, o) := by
    rw [findImpl, hfuel, hrun]
    exact hon.at_end hh hne hs (List.getElem?_eq_none (by omega)) fuel
  have hlevel := hon.level
  by_cases hfound : level = 0 ∧ (nodeAt r.nodes cur).resource.isSome = true
  · -- a node with a resource
    right
    obtain ⟨hzero, hres⟩ := hfound
    obtain ⟨v, hv⟩ := Option.isSome_iff_exists.1 hres
    have habove : (resolved u (pathOf path)).level = 0 := by
      rcases hon.above with h1 | ⟨h1, hnil⟩
      · exact h1
      · rw [hon.segs, List.append_eq_nil_iff] at hnil
        rw [hnil.2] at hlevel
        simp at hlevel
        omega
    have hrest : rest = [] := List.eq_nil_of_length_eq_zero (by omega)
    obtain ⟨w, es, hw, hlive⟩ := hon.stands.walk
    have hsegs : (resolved u (pathOf path)).segs = ss := by rw [hon.segs, hrest, List.append_nil]
    refine ⟨v, ⟨o.slots, o.n⟩, w, pat cur, es.map Prod.snd, ?_, habove, ?_, ?_, ?_⟩
    · rw [find, hfind, if_pos ⟨hzero, hres⟩, ← hv]
    · rw [hsegs]
      exact (alts_iff hh).2 ⟨cur, es, rfl, rfl, hw, rfl, hres⟩
    · rw [← hh.resources cur hon.stands.lt, hv]
    · rw [← entries_eq hh hw, ← hlive]
      rfl
  · left
    refine ⟨⟨o.slots, 0⟩, ?_, rfl, ?_⟩
    · rw [find, hfind, if_neg hfound]
    · rw [or_iff_not_imp_left, not_not]
      intro hzero
      refine hon.routeAlts_empty hh hne hs ?_
      rintro rfl
      rw [hzero] at hlevel
      have hnone : ¬ (nodeAt r.nodes cur).resource.isSome = true := fun h1 => hfound ⟨by simpa using hlevel, h1⟩
      simpa using hnone

/-- up, down again and over a dot in files/{dir}/{name} -/
theorem find_resolves_small :
    (resolved Url.unescaped (pathOf [bytes "files", bytes "x", bytes "..", bytes "a", bytes ".", bytes "b"])).segs =
        [bytes "files", bytes "a", bytes "b"] ∧
      ∃ v m', find Url.unescaped smallRouter [bytes "files", bytes "x", bytes "..", bytes "a", bytes ".", bytes "b"]
        (slotsOf 2) = .ok (v, m') := by
  refine ⟨by decide, ?_⟩
  have hstays : (resolving Url.unescaped.decode).Along
      (fun s x => ¬ Strays Url.unescaped (routesOf Url.unescaped small) s x) (resolving Url.unescaped.decode).init
      (pathOf [bytes "files", bytes "x", bytes "..", bytes "a", bytes ".", bytes "b"]) := by decide
  rcases find_resolves small_inserted (m := slotsOf 2) (by decide) (by decide) hstays with h | h
  · obtain ⟨m', h, -⟩ := h
    exact ⟨none, m', h⟩
  · obtain ⟨v, m', w, q, caps, h, -⟩ := h
    exact ⟨some v, m', h⟩

end Find

/-! ## A path that strays -/

section Strays

variable {u : Url} {ns : List (Node V)} {pat : ℕ → List (Elem Bytes)} {routes : List (List SegmentTemplate × V)}

/-- the root has no child for a segment that no route begins with -/
theorem root_rejects (h : Holds ns pat routes) {s0 : Bytes} (hs0 : ¬ OnRoute u routes [s0]) {c : ℕ}
    (hc : IsChild ns 0 c) : ¬ (elemAt ns c).Accepts (Fits u) s0 := by
  intro hx
  obtain ⟨r, hr, q, hq⟩ := h.route_of_child h.tree.pos hc
  rw [h.tree.root, List.nil_append] at hq
  exact hs0 ⟨r, hr, by rw [hq]; exact .cons hx .nil⟩

/-- no route matches a path that begins with it -/
theorem routeAlts_empty {s0 : Bytes} (hs0 : ¬ OnRoute u routes [s0]) (ss : List Bytes) :
    routeAlts u routes (s0 :: ss) = ∅ := by
  refine Set.eq_empty_of_forall_notMem ?_
  rintro ⟨w, q, caps⟩ ⟨⟨r, hr, hq⟩, hm⟩
  dsimp only at hq hm
  have hon : ∀ e q', q = e :: q' → e.Accepts (Fits u) s0 → OnRoute u routes [s0] := by
    intro e q' he hx
    exact ⟨r, hr, by rw [hq, he]; exact .cons hx .nil⟩
  cases q with
  | nil => cases hm
  | cons e q' =>
    refine hs0 (hon e q' rfl ?_)
    cases e with
    | lit l =>
      obtain ⟨s, hs, hl⟩ := hm.fits_head
      obtain rfl : s0 = s := Option.some.inj hs
      exact hl
    | _ => trivial

theorem spells_undotted {ts : List SegmentTemplate} (hdots : Undotted ts) {ss : List Bytes}
    (hsegs : List.Forall₂ (fun t s => u.decode s = t.str) ts ss) :
    ∀ s ∈ ss, u.decode s ≠ dot ∧ u.decode s ≠ dotdot := by
  induction hsegs with
  | nil =>
    intro s hs
    cases hs
  | @cons t s ts ss hs _ ih =>
    have ht := hdots t List.mem_cons_self
    exact List.forall_mem_cons.2 ⟨hs ▸ ht, ih fun x hx => hdots x (List.mem_cons_of_mem _ hx)⟩

variable {ps : List (Bytes × V)} {r : Impl V}

/-- **The wrong route.** A path that begins with a segment no route begins with, goes on with the literals of a route,
and goes back over the last of them, is found as that route; no route matches what the path resolves to. -/
theorem find_strays (h : Inserted u ps r) {x : List SegmentTemplate × V} (hx : x ∈ routesOf u ps) {s0 d : Bytes}
    {ss : List Bytes} (hp : u.decode s0 ≠ dot ∧ u.decode s0 ≠ dotdot) (hs0 : ¬ OnRoute u (routesOf u ps) [s0])
    (hspells : Spells u x.1 ss) (hss : ss ≠ []) (hd : u.decode d = dotdot) (m : MatchesStorage) :
    find u r (s0 :: (ss ++ [d])) m = .ok (lastFor (routesOf u ps) (shape x.1), ⟨m.slots, 0⟩) ∧
      (resolved u (s0 :: (ss ++ [d]))).level = 0 ∧
        routeAlts u (routesOf u ps) (resolved u (s0 :: (ss ++ [d]))).segs = ∅ := by
  obtain ⟨pat, hh⟩ := h.holds
  obtain ⟨hlit, hsegs⟩ := hspells
  have hdots := routesOf_undotted hx
  obtain ⟨j, hj, hpj⟩ := hh.node hx
  have hres := (resource_isSome hh hj).2 ⟨x, hx, hpj.symm⟩
  refine ⟨?_, ?_⟩
  · have hpath : pathOf (s0 :: (ss ++ [d])) = s0 :: (ss ++ [d]) := if_neg (List.cons_ne_nil _ _)
    obtain ⟨fuel, hfuel⟩ : ∃ k, fuelFor r.nodes (s0 :: (ss ++ [d])) = k + 2 + (ss.length + 1) := by
      refine exists_fuel _ ?_
      simp only [List.length_cons, List.length_append, List.length_nil]
      omega
    have hback : (s0 :: (ss ++ [d]))[1 + ss.length]? = some d := by
      rw [Nat.add_comm 1, List.getElem?_cons_succ, List.getElem?_concat_length]
    have hnone : (s0 :: (ss ++ [d]))[1 + ss.length + 1]? = none := List.getElem?_eq_none (by simp)
    -- one level above the root, down the literals, and the double dot takes the level back
    have hend : tryMatch u r.nodes (s0 :: (ss ++ [d])) (fuel + 2) (1 + ss.length) j 1 ⟨m.slots, 0⟩ =
        .ok (some j, ⟨m.slots, 0⟩) := by
      rw [tryMatch_up hback hd (by omega)]
      exact tryMatch_stops hnone hres
    have hdown := tryMatch_literals hh.tree hj zero_le_one hlit hdots hsegs
      (show (s0 :: (ss ++ [d])).drop 1 = ss ++ [d] from rfl) hh.tree.pos
      (by rw [hh.tree.root, hpj, List.nil_append]) hend
    have hfirst : tryMatch u r.nodes (s0 :: (ss ++ [d])) (fuel + 2 + (ss.length + 1)) 0 0 0 ⟨m.slots, 0⟩ =
        .ok (some j, ⟨m.slots, 0⟩) := by
      rw [← Nat.add_assoc, tryMatch_children (show (s0 :: (ss ++ [d]))[0]? = some s0 from rfl) hp le_rfl,
        childLoop_none fun c hc => root_rejects hh hs0 hc]
      exact hdown
    rw [find, findImpl, hpath, hfuel, hfirst]
    simp only
    rw [hh.resources j hj, hpj]
  · have hplain : ∀ s ∈ s0 :: ss, u.decode s ≠ dot ∧ u.decode s ≠ dotdot :=
      List.forall_mem_cons.2 ⟨hp, spells_undotted hdots hsegs⟩
    have hrun : resolved u (s0 :: (ss ++ [d])) = ⟨s0 :: ss.dropLast, 0⟩ := by
      have hsnoc : resolved u ((s0 :: ss) ++ [d]) = _ := Machine.run_snoc _ _ _ _
      have hstep : resolveStep u.decode ⟨s0 :: ss, 0⟩ d = _ := step_dotdot hd
      rw [List.cons_append] at hsnoc
      rw [hsnoc, run_plain hplain rfl]
      refine hstep.trans ?_
      rw [if_neg (List.cons_ne_nil _ _), List.dropLast_cons_of_ne_nil hss]
    rw [hrun]
    exact ⟨rfl, routeAlts_empty hs0 _⟩

/-- x/files/.. is found as files -/
theorem find_strays_small : find Url.unescaped smallRouter [bytes "x", bytes "files", bytes ".."] (slotsOf 0) =
    .ok (some 1, slotsOf 0) := by
  have hx : ([SegmentTemplate.literal (bytes "files")], 1) ∈ routesOf Url.unescaped small := by decide
  have hspells : Spells Url.unescaped [.literal (bytes "files")] [bytes "files"] :=
    ⟨by simp [SegmentTemplate.literal], .cons rfl .nil⟩
  have hs0 : ¬ OnRoute Url.unescaped (routesOf Url.unescaped small) [bytes "x"] := by decide
  exact (find_strays small_inserted hx (by decide) hs0 hspells (by simp)
    (show Url.unescaped.decode (bytes "..") = dotdot from rfl) (slotsOf 0)).1

end Strays

/-! ## A star at the end -/

section Star

variable {u : Url} {ns : List (Node V)} {segs cs : List Bytes} {i d it : ℕ} {c : Bytes} {o : Out}

/-- a star that is alone, with a resource, takes all that is left -/
theorem tryMatch_star (hd : (nodeAt ns i).childIdx.toList = [d]) (hstar : elemAt ns d = .star)
    (hres : (nodeAt ns d).resource.isSome = true) (hdrop : segs.drop it = c :: cs)
    (hc : u.decode c ≠ dot ∧ u.decode c ≠ dotdot) (hin : leaves true (c :: cs) 0 0 = false)
    (hroom : o.n < o.slots.length) (fuel : ℕ) : ∃ o', tryMatch u ns segs (fuel + 2) it i 0 o = .ok (some d, o') ∧
      o.Ext o' [(some (it, segs.length), (nodeAt ns d).seg.id)] := by
  have hit : segs[it]? = some c := by
    rw [← List.head?_drop, hdrop]
    rfl
  have hlen : segs.length - it = cs.length + 1 := by
    rw [← List.length_drop, hdrop]
    rfl
  have hend : it + cs.length + 1 = segs.length := by
    have hlt := (List.getElem?_eq_some_iff.1 hit).1
    omega
  have hisStar : (nodeAt ns d).seg.isStar = true := isStar_iff.2 hstar
  have hisPlus : (nodeAt ns d).seg.isPlus = false := by
    rw [← Bool.not_eq_true, isPlus_iff]
    intro h
    rw [elemAt, h] at hstar
    cases hstar
  have hpush : o.push (some (it, it + 1)) (nodeAt ns d).seg.id = .ok ⟨o.slots.set o.n _, o.n + 1⟩ := if_pos hroom
  obtain ⟨o', hextend, hext⟩ := (Out.push_ok hroom.le hpush).extend (List.getElem?_eq_some_iff.1 hit).1
  -- the first try takes all
  have htry : ∀ o, tryMatch u ns segs (fuel + 1) segs.length d 0 o = .ok (some d, o) :=
    fun o => tryMatch_stops (List.getElem?_eq_none le_rfl) hres
  refine ⟨o', ?_, hext⟩
  rw [tryMatch_children hit hc le_rfl, hd, childLoop_many (Or.inl hstar), hisStar, hdrop, hin,
    if_neg Bool.false_ne_true, hisPlus, hpush]
  simp only [bind, Except.bind, Bool.false_eq_true, if_false, hlen, starLoop, hend, htry, hextend]
  rfl

variable {ps : List (Bytes × V)} {r : Impl V}

/-- **A star takes the rest as it is written.** When all routes that go on from some literals go on with a star, and one
of them ends there, a path that goes on from the literals with a name, and then with anything that no double dot leads
out of, is found as that route. The view of the star is all of it. -/
theorem find_star (h : Inserted u ps r) {ts : List SegmentTemplate} {x : List SegmentTemplate × V}
    (hx : x ∈ routesOf u ps) (hshape : shape x.1 = shape ts ++ [.star])
    (hall : ∀ y ∈ routesOf u ps, ∀ e, shape ts ++ [e] <+: shape y.1 → e = .star) {ss : List Bytes}
    (hspells : Spells u ts ss) (hc : u.decode c ≠ dot ∧ u.decode c ≠ dotdot)
    (hin : ∀ q, q ++ [dotdot] <+: c :: cs → q.count dotdot < q.countP named) {m : MatchesStorage}
    (hm : 0 < m.slots.length) : ∃ m', find u r (ss ++ c :: cs) m = .ok (lastFor (routesOf u ps) (shape x.1), m') ∧
      m'.views (ss ++ c :: cs) = [c :: cs].zip (idsOf (routesOf u ps) (shape x.1)) := by
  obtain ⟨pat, hh⟩ := h.holds
  obtain ⟨hlit, hsegs⟩ := hspells
  have hdots : Undotted ts := (routesOf_undotted hx).take hlit (hshape ▸ List.prefix_append _ _)
  have hpath : pathOf (ss ++ c :: cs) = ss ++ c :: cs := if_neg (by simp)
  -- the node of the literals, and the star
  obtain ⟨j, hj, hpj⟩ := hh.node hx
  obtain ⟨i, hi, hpi⟩ := hh.tree.trie.prefix_mem (j := j) (p := shape ts) (q := [.star]) hj (hpj.trans hshape)
  have hi : i < r.nodes.length := hi
  have hpi : pat i = shape ts := hpi
  obtain ⟨d, hd, hstar⟩ := child_of_route hh hi (e := .star) hx (by rw [hpi, hshape])
  obtain ⟨hdlt, hid, -, hpd⟩ := hh.tree.of_child hi hd
  have hpd : pat d = shape x.1 := by rw [hpd, hpi, hshape, show (nodeAt r.nodes d).seg.elem = .star from hstar]
  have hchildren : (nodeAt r.nodes i).childIdx.toList = [d] := children_eq hh.tree hi hd fun e he => by
    obtain ⟨y, hy, q, hq⟩ := hh.route_of_child hi he
    rw [hstar]
    exact hall y hy _ ⟨q, by rw [hq, hpi]; simp⟩
  have hres := (resource_isSome hh hdlt).2 ⟨x, hx, hpd.symm⟩
  have hleaves : leaves true (c :: cs) 0 0 = false := by
    rw [← Bool.not_eq_true, leaves_iff]
    intro h
    obtain ⟨q, hq, hle⟩ := h
    have hlt := hin q hq
    rw [Bool.toNat_true] at hle
    omega
  obtain ⟨fuel, hfuel⟩ : ∃ k, fuelFor r.nodes (ss ++ c :: cs) = k + 2 + ss.length := by
    refine exists_fuel _ ?_
    simp only [List.length_append, List.length_cons]
    omega
  have hdrop : (ss ++ c :: cs).drop (0 + ss.length) = c :: cs := by simp
  obtain ⟨o', htake, hext⟩ := tryMatch_star hchildren hstar hres hdrop hc hleaves
    (show (⟨m.slots, 0⟩ : Out).n < _ from hm) fuel
  have hfind := tryMatch_literals hh.tree hi le_rfl hlit hdots hsegs
    (show (ss ++ c :: cs).drop 0 = ss ++ c :: cs from rfl) hh.tree.pos
    (by rw [hh.tree.root, hpi, List.nil_append]) htake
  refine ⟨⟨o'.slots, o'.n⟩, ?_, ?_⟩
  · rw [find, findImpl, hpath, hfuel, hfind]
    simp only
    rw [hh.resources d hdlt, hpd]
  · have hlive : o'.live = [(some (0 + ss.length, (ss ++ c :: cs).length), (nodeAt r.nodes d).seg.id)] := by
      rw [hext.live]
      rfl
    have hids : idsOf (routesOf u ps) (shape x.1) = [(nodeAt r.nodes d).seg.id] := by
      have hfields : fields (shape ts) = 0 := by
        rw [fields, List.countP_eq_zero]
        intro e he
        obtain ⟨t, ht, rfl⟩ := List.mem_map.1 he
        rw [elem_of_literal (hlit t ht)]
        exact Bool.false_ne_true
      have hname : firstSeg ((routesOf u ps).map Prod.fst) (shape x.1) = some (nodeAt r.nodes d).seg :=
        (hh.names _ (by rw [hshape]; simp) _).2 ⟨d, hdlt, hpd, rfl⟩
      rw [idsOf, hshape, fieldPats_last hfields rfl, List.nil_append, ← hshape, List.filterMap_cons, hname]
      rfl
    rw [MatchesStorage.views, show o'.slots.take o'.n = o'.live from rfl, hlive, hids]
    simp [seen]

/-- an escape that Boost.URL decodes to a double dot -/
def escaped : Url := { Url.unescaped with decode := fun s => if s = bytes "%2E%2E" then bytes ".." else s }

/-- files/{path*} gives the resource a path that leads out of files -/
theorem find_star_escaped : ∃ r m', insertAll escaped .make [(bytes "files/\x7bpath*\x7d", 0)] = some r ∧
    find escaped r [bytes "files", bytes "a", bytes "%2E%2E", bytes "%2E%2E", bytes "etc"] (slotsOf 20) =
      .ok (some 0, m') ∧
      m'.views [bytes "files", bytes "a", bytes "%2E%2E", bytes "%2E%2E", bytes "etc"] =
        [([bytes "a", bytes "%2E%2E", bytes "%2E%2E", bytes "etc"], bytes "path")] ∧
      (resolved escaped [bytes "files", bytes "a", bytes "%2E%2E", bytes "%2E%2E", bytes "etc"]).segs =
        [bytes "etc"] := by
  have hr : Inserted escaped [(bytes "files/\x7bpath*\x7d", 0)]
      ((insertAll escaped .make [(bytes "files/\x7bpath*\x7d", 0)]).getD .make) := ⟨by decide, rfl⟩
  have hroutes : routesOf escaped [(bytes "files/\x7bpath*\x7d", 0)] =
      [([SegmentTemplate.literal (bytes "files"), .field (bytes "path*")], 0)] := by decide
  have hx : ([SegmentTemplate.literal (bytes "files"), .field (bytes "path*")], 0) ∈
      routesOf escaped [(bytes "files/\x7bpath*\x7d", 0)] := by
    rw [hroutes]
    exact List.mem_singleton_self _
  have hall : ∀ y ∈ routesOf escaped [(bytes "files/\x7bpath*\x7d", 0)], ∀ e,
      shape [SegmentTemplate.literal (bytes "files")] ++ [e] <+: shape y.1 → e = .star := by
    intro y hy e he
    rw [hroutes, List.mem_singleton] at hy
    subst hy
    exact (List.cons_prefix_cons.1 (List.cons_prefix_cons.1 he).2).1
  have hspells : Spells escaped [.literal (bytes "files")] [bytes "files"] :=
    ⟨by simp [SegmentTemplate.literal], .cons rfl .nil⟩
  have hin : ∀ q, q ++ [dotdot] <+: [bytes "a", bytes "%2E%2E", bytes "%2E%2E", bytes "etc"] →
      q.count dotdot < q.countP named := by
    intro q hq
    have hmem : dotdot ∈ [bytes "a", bytes "%2E%2E", bytes "%2E%2E", bytes "etc"] := hq.subset (by simp)
    exact absurd hmem (by decide)
  obtain ⟨m', hfind, hviews⟩ := find_star hr hx rfl hall hspells (by decide) hin (m := slotsOf 20) (by decide)
  exact ⟨_, m', rfl, hfind, hviews, by decide⟩

end Star

end Gss.Router
