/-
What the router's nodes say about the routes that were inserted.

A path template is resolved like a path: a dot segment does nothing, a double dot takes the last segment back, or counts
one level above the root, which the next segment takes back (`resolve`). insert throws when a level above the root is
left. A double dot that takes back a segment goes through the tree: when the node was created for this template, it is
removed again, and the removal is where `ChildIdxVector.eraseRemove` goes wrong. `Kept` says that each double dot takes
back a segment of a route that was there before.

- `insertImpl_spec`: such an insert adds the resolved route, or throws and changes no route.
- `insertAll_holds`: after any number of such inserts the nodes are the prefixes of the routes, each named by the first
  route through it and with the resource of the last route that ends there.
- `insertAll_nodes`: the same, for a new router.
- `Inserted`: a router that such inserts leave.
- `insertImpl_undefined`: a template that takes back a segment of its own, where no other child is, is undefined.
- `destroy_perm`: the destructor leaves exactly those resources that a later insert of the same pattern has replaced.
-/
import Gss.Router.Pool

namespace Gss.Router

open Gss.Core SegmentTemplate
open scoped List

variable {V : Type*}

/-! ## Routes -/

/-- the pattern of a list of templates -/
def shape (r : List SegmentTemplate) : List (Elem Bytes) := r.map SegmentTemplate.elem

@[simp] theorem shape_nil : shape [] = [] := rfl

@[simp] theorem shape_concat (r : List SegmentTemplate) (t : SegmentTemplate) :
    shape (r ++ [t]) = shape r ++ [t.elem] := by
  simp [shape]

@[simp] theorem length_shape (r : List SegmentTemplate) : (shape r).length = r.length := by simp [shape]

/-- the template of r at the end of the pattern q -/
def segAt (r : List SegmentTemplate) (q : List (Elem Bytes)) : Option SegmentTemplate :=
  if q <+: shape r then r[q.length - 1]? else none

/-- the first template with the pattern q -/
def firstSeg (rs : List (List SegmentTemplate)) (q : List (Elem Bytes)) : Option SegmentTemplate :=
  rs.findSome? fun r => segAt r q

/-- the resource of the last route with the pattern q -/
def lastFor (routes : List (List SegmentTemplate × V)) (q : List (Elem Bytes)) : Option V :=
  (routes.filter fun r => shape r.1 = q).getLast?.map Prod.snd

theorem firstSeg_concat (rs : List (List SegmentTemplate)) (r : List SegmentTemplate) (q : List (Elem Bytes)) :
    firstSeg (rs ++ [r]) q = (firstSeg rs q).or (segAt r q) := by
  simp [firstSeg, List.findSome?_append]

theorem lastFor_concat (routes : List (List SegmentTemplate × V)) (r : List SegmentTemplate) (v : V)
    (q : List (Elem Bytes)) : lastFor (routes ++ [(r, v)]) q = if shape r = q then some v else lastFor routes q := by
  unfold lastFor
  split_ifs with h <;> simp [h]

/-- a prefix that is not empty has a last template -/
theorem segAt_eq_some_iff {r : List SegmentTemplate} {q : List (Elem Bytes)} (hq : q ≠ []) :
    (∃ t, segAt r q = some t) ↔ q <+: shape r := by
  unfold segAt
  split_ifs with h
  · have hlen := h.length_le
    have hpos := List.length_pos_of_ne_nil hq
    rw [length_shape] at hlen
    refine iff_of_true ⟨_, List.getElem?_eq_getElem (by omega)⟩ h
  · exact iff_of_false (by simp) h

theorem segAt_concat {r : List SegmentTemplate} {t : SegmentTemplate} {q : List (Elem Bytes)} (hq : q ≠ []) :
    segAt (r ++ [t]) q = if q = shape (r ++ [t]) then some t else segAt r q := by
  by_cases he : q = shape (r ++ [t])
  · rw [if_pos he, he, segAt, if_pos (List.prefix_rfl), length_shape]
    simp
  · rw [if_neg he, segAt, segAt, shape_concat]
    by_cases hp : q <+: shape r
    · have hlen := hp.length_le
      have hpos := List.length_pos_of_ne_nil hq
      rw [length_shape] at hlen
      rw [if_pos (hp.trans (List.prefix_append _ _)), if_pos hp, List.getElem?_append_left (by omega)]
    · rw [if_neg hp, if_neg]
      rw [List.prefix_concat_iff]
      rintro (h | h)
      · exact he (by rw [h, shape_concat])
      · exact hp h

theorem firstSeg_eq_some {rs : List (List SegmentTemplate)} {q : List (Elem Bytes)} (hq : q ≠ []) :
    (∃ t, firstSeg rs q = some t) ↔ ∃ r ∈ rs, q <+: shape r := by
  simp only [firstSeg, ← Option.isSome_iff_exists, List.isSome_findSome?, List.any_eq_true]
  refine exists_congr fun r => and_congr_right fun _ => ?_
  rw [Option.isSome_iff_exists, segAt_eq_some_iff hq]

theorem lastFor_eq_some {routes : List (List SegmentTemplate × V)} {q : List (Elem Bytes)} :
    (∃ v, lastFor routes q = some v) ↔ ∃ r ∈ routes, shape r.1 = q := by
  unfold lastFor
  rw [← Option.isSome_iff_exists, Option.isSome_map, Option.isSome_iff_ne_none, ne_eq, List.getLast?_eq_none_iff,
    List.filter_eq_nil_iff]
  simp

/-! ## Resolving a template -/

/-- the segments that stand, and the level above the root -/
structure Stack (α : Type*) where
  segs : List α
  level : ℤ

/-- one segment more, with this name -/
def resolveStep {α : Type*} (name : α → Bytes) (s : Stack α) (t : α) : Stack α :=
  if name t = dot then s
  else if name t = dotdot then
    if s.segs = [] then { s with level := s.level - 1 } else { s with segs := s.segs.dropLast }
  else if s.level < 0 then { s with level := s.level + 1 }
  else { s with segs := s.segs ++ [t] }

def resolving {α : Type*} (name : α → Bytes) : Machine (Stack α) α := ⟨⟨[], 0⟩, resolveStep name⟩

/-- for templates -/
abbrev resolver : Machine (Stack SegmentTemplate) SegmentTemplate := resolving SegmentTemplate.str

def resolve (ts : List SegmentTemplate) : Stack SegmentTemplate := resolver.run resolver.init ts

/-- a double dot takes back a segment of a route in rs -/
def Keeps (rs : List (List SegmentTemplate)) (s : Stack SegmentTemplate) (t : SegmentTemplate) : Prop :=
  t.str = dotdot → s.segs = [] ∨ ∃ r ∈ rs, shape s.segs <+: shape r

/-- the template takes back no segment of its own -/
def Kept (rs : List (List SegmentTemplate)) (ts : List SegmentTemplate) : Prop :=
  resolver.Along (Keeps rs) resolver.init ts

instance (rs : List (List SegmentTemplate)) (s : Stack SegmentTemplate) (t : SegmentTemplate) :
    Decidable (Keeps rs s t) :=
  inferInstanceAs (Decidable (t.str = dotdot → s.segs = [] ∨ ∃ r ∈ rs, shape s.segs <+: shape r))

instance (rs : List (List SegmentTemplate)) (ts : List SegmentTemplate) : Decidable (Kept rs ts) :=
  inferInstanceAs (Decidable (resolver.Along (Keeps rs) resolver.init ts))

/-- no dot segments -/
def Undotted (ts : List SegmentTemplate) : Prop := ∀ t ∈ ts, t.str ≠ dot ∧ t.str ≠ dotdot

instance (ts : List SegmentTemplate) : Decidable (Undotted ts) :=
  inferInstanceAs (Decidable (∀ t ∈ ts, t.str ≠ dot ∧ t.str ≠ dotdot))

/-- segments that are not dot segments stay -/
theorem run_plain {α : Type*} {name : α → Bytes} {l : List α} (h : ∀ t ∈ l, name t ≠ dot ∧ name t ≠ dotdot)
    {s : Stack α} (hs : s.level = 0) : (resolving name).run s l = { s with segs := s.segs ++ l } := by
  induction l generalizing s with
  | nil => simp
  | cons t l ih =>
    have ht := h t List.mem_cons_self
    have hstep : (resolving name).step s t = { s with segs := s.segs ++ [t] } := by
      simp [resolving, resolveStep, ht.1, ht.2, hs]
    have hrun := ih (fun x hx => h x (List.mem_cons_of_mem _ hx)) (s := { s with segs := s.segs ++ [t] }) hs
    rw [Machine.run_cons, hstep, hrun]
    simp

/-- no dot segment stands -/
theorem resolve_undotted (ts : List SegmentTemplate) : Undotted (resolve ts).segs := by
  refine resolver.run_invariant (I := fun s => Undotted s.segs) ?_ (fun t ht => (by cases ht)) ts
  intro s t h
  show Undotted (resolveStep SegmentTemplate.str s t).segs
  unfold resolveStep
  split_ifs with hdot hdd hs hl
  · exact h
  · exact h
  · exact fun x hx => h x (List.mem_of_mem_dropLast hx)
  · exact h
  · intro x hx
    rcases List.mem_append.1 hx with hx | hx
    · exact h x hx
    · rw [List.mem_singleton.1 hx]
      exact ⟨hdot, hdd⟩

/-- literals are named as those of the route that they begin -/
theorem Undotted.take {r ts : List SegmentTemplate} (h : Undotted r) (hlit : ∀ t ∈ ts, t.isLiteral = true)
    (hp : shape ts <+: shape r) : Undotted ts := by
  intro t ht
  obtain ⟨x, hx, he⟩ := List.mem_map.1 (hp.subset (List.mem_map_of_mem ht))
  rw [elem_of_literal (hlit t ht)] at he
  have hl := isLiteral_of_lit he
  rw [elem_of_literal hl, Elem.lit.injEq] at he
  rw [← he]
  exact h x hx

/-! ## The nodes and the routes -/

/-- the nodes are the prefixes of rs, named by the first of them -/
def Names (ns : List (Node V)) (pat : ℕ → List (Elem Bytes)) (rs : List (List SegmentTemplate)) : Prop :=
  ∀ q, q ≠ [] → ∀ t, firstSeg rs q = some t ↔ ∃ i, i < ns.length ∧ pat i = q ∧ (nodeAt ns i).seg = t

/-- the resources are those of the last routes -/
def Resources (ns : List (Node V)) (pat : ℕ → List (Elem Bytes)) (routes : List (List SegmentTemplate × V)) : Prop :=
  ∀ i, i < ns.length → (nodeAt ns i).resource = lastFor routes (pat i)

structure Holds (ns : List (Node V)) (pat : ℕ → List (Elem Bytes)) (routes : List (List SegmentTemplate × V)) :
    Prop where
  tree : Tree ns pat
  names : Names ns pat (routes.map Prod.fst)
  resources : Resources ns pat routes

/-- insert_impl's loop, at the end of the segments of s -/
structure Mid (routes : List (List SegmentTemplate × V)) (pat : ℕ → List (Elem Bytes)) (c : Cursor V)
    (s : Stack SegmentTemplate) : Prop where
  tree : Tree c.nodes pat
  names : Names c.nodes pat (routes.map Prod.fst ++ [s.segs])
  resources : Resources c.nodes pat routes
  cur_lt : c.cur < c.nodes.length
  cur : pat c.cur = shape s.segs
  level : c.level = s.level
  above : s.level = 0 ∨ s.level < 0 ∧ s.segs = []

theorem holds_make : Holds [(Node.make : Node V)] (fun _ => []) [] where
  tree := tree_make
  names q hq t := by
    refine iff_of_false (by simp [firstSeg]) ?_
    intro h
    obtain ⟨i, -, hp, -⟩ := h
    exact hq hp.symm
  resources i hi := by
    obtain rfl := Nat.lt_one_iff.1 hi
    rfl

section Names

variable {ns : List (Node V)} {pat : ℕ → List (Elem Bytes)} {rs rs' : List (List SegmentTemplate)}
  {st : List SegmentTemplate} {t : SegmentTemplate}

theorem Names.congr (h : Names ns pat rs) (he : ∀ q, q ≠ [] → firstSeg rs' q = firstSeg rs q) : Names ns pat rs' := by
  intro q hq t
  rw [he q hq]
  exact h q hq t

theorem firstSeg_nil {q : List (Elem Bytes)} (hq : q ≠ []) : firstSeg (rs ++ [[]]) q = firstSeg rs q := by
  have h : segAt [] q = none := by
    rw [segAt, if_neg]
    simpa using hq
  rw [firstSeg_concat, h, Option.or_none]

/-- one segment more or less makes no difference when it is on a route already -/
theorem firstSeg_push {x : SegmentTemplate} (hx : firstSeg rs (shape (st ++ [t])) = some x) {q : List (Elem Bytes)}
    (hq : q ≠ []) : firstSeg (rs ++ [st ++ [t]]) q = firstSeg (rs ++ [st]) q := by
  rw [firstSeg_concat, firstSeg_concat, segAt_concat hq]
  split_ifs with he
  · rw [he, hx]
    rfl
  · rfl

/-- the segment is not on the way to its parent -/
theorem firstSeg_concat_push : firstSeg (rs ++ [st]) (shape (st ++ [t])) = firstSeg rs (shape (st ++ [t])) := by
  have h : segAt st (shape (st ++ [t])) = none := by
    rw [segAt, if_neg]
    intro hp
    have hlen := hp.length_le
    simp at hlen
  rw [firstSeg_concat, h, Option.or_none]

theorem Names.push_old (h : Names ns pat (rs ++ [st])) {i : ℕ} (hi : i < ns.length) (hp : pat i = shape (st ++ [t])) :
    Names ns pat (rs ++ [st ++ [t]]) := by
  have hx := (h (shape (st ++ [t])) (by simp) _).2 ⟨i, hi, hp, rfl⟩
  rw [firstSeg_concat_push] at hx
  exact h.congr fun q hq => firstSeg_push hx hq

theorem Names.pop (h : Names ns pat (rs ++ [st ++ [t]])) (hk : ∃ r ∈ rs, shape (st ++ [t]) <+: shape r) :
    Names ns pat (rs ++ [st]) := by
  obtain ⟨x, hx⟩ := (firstSeg_eq_some (by simp)).2 hk
  exact h.congr fun q hq => (firstSeg_push hx hq).symm

theorem Names.push_new (h : Names ns pat (rs ++ [st])) {p : ℕ} (hp : p < ns.length) (hcur : pat p = shape st)
    (hno : ∀ j, j < ns.length → pat j ≠ shape (st ++ [t])) :
    Names (addChild ns p t) (Function.update pat ns.length (pat p ++ [t.elem])) (rs ++ [st ++ [t]]) := by
  have hnone : firstSeg rs (shape (st ++ [t])) = none := by
    rw [← firstSeg_concat_push, Option.eq_none_iff_forall_not_mem]
    intro x hx
    obtain ⟨j, hj, hpat, -⟩ := (h _ (by simp) x).1 hx
    exact hno j hj hpat
  have hnew : pat p ++ [t.elem] = shape (st ++ [t]) := by rw [hcur, shape_concat]
  intro q hq x
  rw [firstSeg_concat, segAt_concat hq, hnew]
  by_cases he : q = shape (st ++ [t])
  · rw [if_pos he, he, hnone, Option.none_or, Option.some.injEq]
    constructor
    · intro hx
      refine ⟨ns.length, by simp, Function.update_self _ _ _, ?_⟩
      rw [nodeAt_addChild_new hp, ← hx]
    · intro hx
      obtain ⟨i, hi, hpi, hs⟩ := hx
      rcases Nat.lt_or_ge i ns.length with hlt | hge
      · rw [Function.update_of_ne hlt.ne] at hpi
        exact absurd hpi (hno i hlt)
      · rw [length_addChild] at hi
        obtain rfl : i = ns.length := by omega
        rw [nodeAt_addChild_new hp] at hs
        exact hs
  · rw [if_neg he, ← firstSeg_concat, h q hq x]
    constructor
    · intro hx
      obtain ⟨i, hi, hpi, hs⟩ := hx
      refine ⟨i, by rw [length_addChild]; omega, ?_, ?_⟩
      · rw [Function.update_of_ne hi.ne, hpi]
      · rw [(addChild_seg hp hi t).1, hs]
    · intro hx
      obtain ⟨i, hi, hpi, hs⟩ := hx
      rcases Nat.lt_or_ge i ns.length with hlt | hge
      · rw [Function.update_of_ne hlt.ne] at hpi
        rw [(addChild_seg hp hlt t).1] at hs
        exact ⟨i, hlt, hpi, hs⟩
      · rw [length_addChild] at hi
        obtain rfl : i = ns.length := by omega
        rw [Function.update_self] at hpi
        exact absurd hpi.symm he

end Names

/-! ## Inserting -/

section Insert

variable {routes : List (List SegmentTemplate × V)} {pat : ℕ → List (Elem Bytes)} {c : Cursor V}
  {s : Stack SegmentTemplate}

/-- a node on a route has a resource or a child -/
theorem on_route {ns : List (Node V)} {rs : List (List SegmentTemplate)} (ht : Tree ns pat) (hn : Names ns pat rs)
    (hr : Resources ns pat routes) {i : ℕ} (hi : i < ns.length) {x : List SegmentTemplate × V} (hx : x ∈ routes)
    (hxs : x.1 ∈ rs) (hpre : pat i <+: shape x.1) :
    (nodeAt ns i).resource ≠ none ∨ (nodeAt ns i).childIdx.toList ≠ [] := by
  obtain ⟨q, hq⟩ := hpre
  cases q with
  | nil =>
    rw [List.append_nil] at hq
    obtain ⟨v, hv⟩ : ∃ v, lastFor routes (pat i) = some v := lastFor_eq_some.2 ⟨x, hx, hq.symm⟩
    refine Or.inl ?_
    rw [hr i hi, hv]
    exact Option.some_ne_none v
  | cons e q =>
    -- the route goes on, so there is a child
    have hpre : pat i ++ [e] <+: shape x.1 := ⟨q, by rw [← hq]; simp⟩
    obtain ⟨t, ht'⟩ := (firstSeg_eq_some (by simp)).2 ⟨x.1, hxs, hpre⟩
    obtain ⟨j, hj, hpj, -⟩ := (hn _ (by simp) t).1 ht'
    exact Or.inr (List.ne_nil_of_mem (ht.child_of_pat hi hj hpj).1)

theorem Mid.not_fresh (h : Mid routes pat c s) (hk : ∃ r ∈ routes.map Prod.fst, shape s.segs <+: shape r) :
    ¬ ((nodeAt c.nodes c.cur).resource.isNone ∧ (nodeAt c.nodes c.cur).childIdx.empty) := by
  obtain ⟨r, hr, hpre⟩ := hk
  obtain ⟨x, hx, rfl⟩ := List.mem_map.1 hr
  intro hn
  obtain ⟨hres, hempty⟩ := hn
  rw [ChildIdxVector.empty_iff] at hempty
  rw [Option.isNone_iff_eq_none] at hres
  rw [← h.cur] at hpre
  rcases on_route h.tree h.names h.resources h.cur_lt hx (List.mem_append_left _ hr) hpre with h' | h'
  · exact h' hres
  · exact h' hempty

theorem Mid.cur_eq_zero (h : Mid routes pat c s) : c.cur = 0 ↔ s.segs = [] := by
  constructor
  · intro h0
    have hp := h.cur
    rw [h0, h.tree.root, eq_comm, shape, List.map_eq_nil_iff] at hp
    exact hp
  · intro hs
    by_contra h0
    have hne := h.tree.pat_ne_nil h.cur_lt h0
    rw [h.cur, hs] at hne
    exact hne rfl

/-- **One iteration** of insert_impl's loop resolves one segment. -/
theorem insertSeg_mid (h : Mid routes pat c s) {t : SegmentTemplate} (hk : Keeps (routes.map Prod.fst) s t) :
    ∃ c' pat', insertSeg c t = some c' ∧ Mid routes pat' c' (resolveStep SegmentTemplate.str s t) := by
  unfold insertSeg resolveStep
  by_cases hdot : t.str = dot
  · rw [if_pos hdot, if_pos hdot]
    exact ⟨c, pat, rfl, h⟩
  rw [if_neg hdot, if_neg hdot]
  by_cases hdd : t.str = dotdot
  · rw [if_pos hdd, if_pos hdd]
    by_cases hs : s.segs = []
    · rw [if_pos (h.cur_eq_zero.2 hs), if_pos hs]
      refine ⟨_, pat, rfl, h.tree, h.names, h.resources, h.cur_lt, h.cur, by simp [h.level], ?_⟩
      rcases h.above with h0 | h0
      · exact Or.inr ⟨by simp [h0], hs⟩
      · exact Or.inr ⟨by simp only; omega, hs⟩
    · rw [if_neg (mt h.cur_eq_zero.1 hs), if_neg hs]
      have hkeep := (hk hdd).resolve_left hs
      obtain ⟨p, hp, hpar, hpat⟩ := h.tree.parent c.cur h.cur_lt (mt h.cur_eq_zero.1 hs)
      have hno : ¬ (c.cur + 1 = c.nodes.length ∧ (nodeAt c.nodes c.cur).resource.isNone ∧
          (nodeAt c.nodes c.cur).childIdx.empty) := fun hf => h.not_fresh hkeep hf.2
      have hlevel : s.level = 0 := h.above.resolve_right fun ha => hs ha.2
      rw [hpar, Option.getD_some, if_neg hno]
      obtain ⟨st, x, hst⟩ := List.eq_nil_or_concat s.segs |>.resolve_left hs
      rw [List.concat_eq_append] at hst
      rw [hst] at hkeep
      have hnames := h.names
      rw [hst] at hnames
      refine ⟨_, pat, rfl, h.tree, ?_, h.resources, hp.trans h.cur_lt, ?_, h.level, Or.inl hlevel⟩
      · simp only [hst, List.dropLast_concat]
        exact hnames.pop hkeep
      · have hcur := h.cur
        rw [hpat, hst, shape_concat] at hcur
        simp only [hst, List.dropLast_concat]
        exact List.append_inj_left' hcur rfl
  rw [if_neg hdd, if_neg hdd, h.level]
  by_cases hl : s.level < 0
  · rw [if_pos hl, if_pos hl]
    have hs : s.segs = [] := (h.above.resolve_left (by omega)).2
    refine ⟨_, pat, rfl, h.tree, h.names, h.resources, h.cur_lt, h.cur, rfl, ?_⟩
    rcases lt_or_ge (s.level + 1) 0 with h0 | h0
    · exact Or.inr ⟨h0, hs⟩
    · exact Or.inl (by simp only; omega)
  rw [if_neg hl, if_neg hl]
  have hlevel : s.level = 0 := h.above.resolve_right fun ha => hl ha.1
  cases hf : findChild c.nodes c.cur t with
  | some i =>
    obtain ⟨hi, -, hpi⟩ := findChild_some h.tree h.cur_lt hf
    have hpi' : pat i = shape (s.segs ++ [t]) := by rw [hpi, h.cur, shape_concat]
    exact ⟨_, pat, rfl, h.tree, h.names.push_old hi hpi', h.resources, hi, hpi', rfl, Or.inl hlevel⟩
  | none =>
    have hno : ∀ j, j < c.nodes.length → pat j ≠ shape (s.segs ++ [t]) := by
      intro j hj
      rw [shape_concat, ← h.cur]
      exact findChild_none h.tree h.cur_lt hf hj
    have hnew : pat c.cur ++ [t.elem] = shape (s.segs ++ [t]) := by rw [h.cur, shape_concat]
    refine ⟨_, _, rfl, h.tree.addChild h.cur_lt hf, h.names.push_new h.cur_lt h.cur hno, ?_, by simp, ?_, rfl,
      Or.inl hlevel⟩
    · intro i hi
      rcases Nat.lt_or_ge i c.nodes.length with hlt | hge
      · rw [(addChild_seg h.cur_lt hlt t).2.2, Function.update_of_ne hlt.ne, h.resources i hlt]
      · rw [length_addChild] at hi
        obtain rfl : i = c.nodes.length := by omega
        rw [nodeAt_addChild_new h.cur_lt, Function.update_self, hnew]
        -- no route ends at a node that was not there
        by_contra hres
        obtain ⟨v, hv⟩ := Option.ne_none_iff_exists'.1 (Ne.symm hres)
        obtain ⟨r, hr, hshape⟩ := lastFor_eq_some.1 ⟨v, hv⟩
        have hmem : r.1 ∈ routes.map Prod.fst ++ [s.segs] := List.mem_append_left _ (List.mem_map_of_mem hr)
        obtain ⟨x, hx⟩ := (firstSeg_eq_some (q := shape (s.segs ++ [t])) (by simp)).2 ⟨r.1, hmem, by rw [hshape]⟩
        obtain ⟨j, hj, hpj, -⟩ := (h.names _ (by simp) x).1 hx
        exact hno j hj hpj
    · rw [Function.update_self, hnew]

/-- **The loop** of insert_impl resolves the template. -/
theorem insertSegs_mid (h : Mid routes pat c s) {ts : List SegmentTemplate}
    (hk : resolver.Along (Keeps (routes.map Prod.fst)) s ts) :
    ∃ c' pat', ts.foldlM insertSeg c = some c' ∧ Mid routes pat' c' (resolver.run s ts) := by
  induction ts generalizing pat c s with
  | nil => exact ⟨c, pat, rfl, h⟩
  | cons t ts ih =>
    obtain ⟨c', pat', hc, hmid⟩ := insertSeg_mid h hk.1
    obtain ⟨c'', pat'', hcs, hmid'⟩ := ih hmid hk.2
    exact ⟨c'', pat'', by rw [List.foldlM_cons, hc]; exact hcs, hmid'⟩

theorem Holds.mid {ns : List (Node V)} (h : Holds ns pat routes) : Mid routes pat ⟨ns, 0, 0⟩ resolver.init where
  tree := h.tree
  names := h.names.congr fun _ => firstSeg_nil
  resources := h.resources
  cur_lt := h.tree.pos
  cur := h.tree.root
  level := rfl
  above := Or.inl rfl

/-- a template that ends above the root changes no route -/
theorem Mid.holds_of_above (h : Mid routes pat c s) (hl : s.level ≠ 0) : Holds c.nodes pat routes where
  tree := h.tree
  names := by
    have hs := (h.above.resolve_left hl).2
    have hnames := h.names
    rw [hs] at hnames
    exact hnames.congr fun q hq => (firstSeg_nil hq).symm
  resources := h.resources

/-- the resource is set at the last segment -/
theorem Mid.holds_setResource (h : Mid routes pat c s) (path : Bytes) (v : V) :
    Holds (setResource c.nodes c.cur path v) pat (routes ++ [(s.segs, v)]) where
  tree := h.tree.setResource c.cur path v
  names := by
    rw [List.map_append, List.map_singleton]
    intro q hq t
    rw [h.names q hq t]
    simp only [setResource_seg]
    simp [setResource]
  resources := by
    intro i hi
    rw [setResource, List.length_modify] at hi
    rw [lastFor_concat]
    split_ifs with hp
    · obtain rfl : c.cur = i := h.tree.inj _ _ h.cur_lt hi (by rw [h.cur, hp])
      rw [setResource, nodeAt_modify_self h.cur_lt]
    · rw [setResource, nodeAt_modify_ne, h.resources i hi]
      rintro rfl
      exact hp h.cur.symm

/-! ### Many inserts -/

/-- the routes after one more insert -/
def addRoute (u : Url) (routes : List (List SegmentTemplate × V)) (p : Bytes × V) : List (List SegmentTemplate × V) :=
  match parsePath u (dropSlash p.1) with
  | some (some ts) => if (resolve ts).level = 0 then routes ++ [((resolve ts).segs, p.2)] else routes
  | _ => routes

def catalog (u : Url) : Machine (List (List SegmentTemplate × V)) (Bytes × V) := ⟨[], addRoute u⟩

/-- how an insert ends; none when the assertion on the literal rule fails -/
def outcome (u : Url) (path : Bytes) : Option (Except InsertError Unit) :=
  (parsePath u (dropSlash path)).map fun
    | none => .error .notATemplate
    | some ts => if (resolve ts).level = 0 then .ok () else .error .invalidArgument

/-- the assertion on the literal rule holds, and the template takes back no segment of its own -/
def Insertable (u : Url) (routes : List (List SegmentTemplate × V)) (p : Bytes × V) : Prop :=
  parsePath u (dropSlash p.1) ≠ none ∧
    ∀ ts, parsePath u (dropSlash p.1) = some (some ts) → Kept (routes.map Prod.fst) ts

instance (u : Url) (routes : List (List SegmentTemplate × V)) (p : Bytes × V) : Decidable (Insertable u routes p) :=
  match h : parsePath u (dropSlash p.1) with
  | none => isFalse fun hi => hi.1 h
  | some none => isTrue ⟨by simp [h], by simp [h]⟩
  | some (some ts) => decidable_of_iff (Kept (routes.map Prod.fst) ts) (by simp [Insertable, h])

def insertAll (u : Url) (r : Impl V) (ps : List (Bytes × V)) : Option (Impl V) :=
  ps.foldlM (fun r p => (insertImpl u r p.1 p.2).map Prod.snd) r

/-- the resources of the routes that a later route replaces -/
def replaced : List (List SegmentTemplate × V) → List V
  | [] => []
  | r :: routes => if ∃ q ∈ routes, shape q.1 = shape r.1 then r.2 :: replaced routes else replaced routes

theorem lastFor_cons (r : List SegmentTemplate × V) (q : List (Elem Bytes)) :
    lastFor (r :: routes) q = (lastFor routes q).or (if shape r.1 = q then some r.2 else none) := by
  induction routes using List.reverseRecOn with
  | nil => simp only [lastFor]; split_ifs with h <;> simp [h]
  | append_singleton routes x ih =>
    obtain ⟨x, w⟩ := x
    rw [← List.cons_append, lastFor_concat, lastFor_concat, ih]
    split_ifs <;> simp

theorem replaced_concat (r : List SegmentTemplate) (v : V) :
    replaced (routes ++ [(r, v)]) ~ (lastFor routes (shape r)).toList ++ replaced routes := by
  induction routes with
  | nil => simp [replaced, lastFor]
  | cons x routes ih =>
    rw [List.cons_append, replaced, replaced, lastFor_cons]
    by_cases hx : ∃ q ∈ routes, shape q.1 = shape x.1
    · rw [if_pos hx, if_pos (by obtain ⟨q, hq, he⟩ := hx; exact ⟨q, List.mem_append_left _ hq, he⟩)]
      have hlast : (lastFor routes (shape r)).or (if shape x.1 = shape r then some x.2 else none) =
          lastFor routes (shape r) := by
        split_ifs with he
        · obtain ⟨w, hw⟩ := lastFor_eq_some.2 (he ▸ hx)
          rw [hw, Option.some_or]
        · rw [Option.or_none]
      rw [hlast]
      exact (ih.cons x.2).trans List.perm_middle.symm
    · by_cases he : shape x.1 = shape r
      · have hlast : lastFor routes (shape r) = none := by
          by_contra hne
          obtain ⟨w, hw⟩ := Option.ne_none_iff_exists'.1 hne
          exact hx (he ▸ lastFor_eq_some.1 ⟨w, hw⟩)
        rw [if_neg hx, if_pos ⟨_, List.mem_append_right _ (List.mem_singleton_self _), he.symm⟩, hlast, if_pos he]
        rw [hlast] at ih
        exact ih.cons x.2
      · rw [if_neg hx, if_neg, if_neg he, Option.or_none]
        · exact ih
        · intro hq
          obtain ⟨q, hq, heq⟩ := hq
          rcases List.mem_append.1 hq with hq | hq
          · exact hx ⟨q, hq, heq⟩
          · rw [List.mem_singleton.1 hq] at heq
            exact he heq.symm

/-- the loop moves no resource -/
theorem insertSeg_resources {c c' : Cursor V} {t : SegmentTemplate} (h : insertSeg c t = some c') :
    c'.nodes.filterMap Node.resource = c.nodes.filterMap Node.resource := by
  have hmodify : ∀ (ns : List (Node V)) (p : ℕ) (cs : ChildIdxVector),
      (ns.modify p fun n => { n with childIdx := cs }).map Node.resource = ns.map Node.resource := by
    intro ns p cs
    refine List.ext_getElem? ?_
    intro i
    simp only [List.getElem?_map, List.getElem?_modify]
    split_ifs <;> cases ns[i]? <;> rfl
  have hmap : ∀ ns : List (Node V), ns.filterMap Node.resource = (ns.map Node.resource).filterMap id := by
    intro ns
    rw [List.filterMap_map]
    rfl
  rw [hmap, hmap]
  unfold insertSeg at h
  split_ifs at h with h1 h2 h3 h4 h5
  · cases h
    rfl
  · cases h
    rfl
  · obtain ⟨ns, hns, rfl⟩ := Option.map_eq_some_iff.1 h
    obtain ⟨cs, -, rfl⟩ := Option.map_eq_some_iff.1 hns
    obtain ⟨l, n, hl⟩ := (List.eq_nil_or_concat c.nodes).resolve_left (by
      intro h0
      rw [h0] at h4
      simp at h4)
    rw [List.concat_eq_append] at hl
    -- the last node, which has no resource, goes
    have hn : n.resource = none := by
      have hcur : c.cur = l.length := by
        have hlen := h4.1
        rw [hl] at hlen
        simpa using hlen
      have hres := h4.2.1
      rw [hl, hcur, nodeAt_append_length, Option.isNone_iff_eq_none] at hres
      exact hres
    rw [List.map_dropLast, hmodify, hl]
    simp [hn]
  · cases h
    rfl
  · cases h
    rfl
  · split at h
    · cases h
      rfl
    · cases h
      simp only [addChild]
      rw [hmodify]
      simp [Node.make]

theorem insertSegs_resources {ts : List SegmentTemplate} {c c' : Cursor V} (h : ts.foldlM insertSeg c = some c') :
    c'.nodes.filterMap Node.resource = c.nodes.filterMap Node.resource := by
  induction ts generalizing c with
  | nil =>
    cases h
    rfl
  | cons t ts ih =>
    rw [List.foldlM_cons] at h
    obtain ⟨d, hd, hrest⟩ := Option.bind_eq_some_iff.1 h
    rw [ih hrest, insertSeg_resources hd]

/-- setting a resource replaces the old one -/
theorem setResource_perm (ns : List (Node V)) {cur : ℕ} (hcur : cur < ns.length) (path : Bytes) (v : V) :
    (setResource ns cur path v).filterMap Node.resource ++ (nodeAt ns cur).resource.toList ~
      v :: ns.filterMap Node.resource := by
  induction ns generalizing cur with
  | nil => cases hcur
  | cons n ns ih =>
    cases cur with
    | zero =>
      have h0 : nodeAt (n :: ns) 0 = n := rfl
      have hset : setResource (n :: ns) 0 path v = { n with resource := some v, pathTemplate := path } :: ns := by
        simp [setResource]
      rw [h0, hset]
      cases hr : n.resource with
      | none => simp [hr]
      | some w =>
        simp only [List.filterMap_cons, hr, Option.toList_some, List.cons_append]
        exact (List.perm_append_singleton w _).cons v
    | succ cur =>
      have hs : nodeAt (n :: ns) (cur + 1) = nodeAt ns cur := rfl
      have hset : setResource (n :: ns) (cur + 1) path v = n :: setResource ns cur path v := by
        simp [setResource]
      have hlt : cur < ns.length := by simpa using hcur
      have hp := ih hlt
      rw [hs, hset]
      cases hr : n.resource with
      | none =>
        simp only [List.filterMap_cons, hr]
        exact hp
      | some w =>
        simp only [List.filterMap_cons, hr, List.cons_append]
        exact (hp.cons w).trans (List.Perm.swap v w _)

/-- **One insert**: how it ends, the routes it leaves, and where its resource goes. -/
theorem insertImpl_spec {u : Url} {r : Impl V} (h : Holds r.nodes pat routes) {p : Bytes × V}
    (hi : Insertable u routes p) :
    ∃ res r' pat', insertImpl u r p.1 p.2 = some (res, r') ∧ outcome u p.1 = some res ∧
      Holds r'.nodes pat' (addRoute u routes p) ∧
      r'.destroy ++ replaced (addRoute u routes p) ~ p.2 :: (r.destroy ++ replaced routes) := by
  obtain ⟨hsome, hkept⟩ := hi
  -- a resource that is deleted at once
  have hdeleted : ∀ ns : List (Node V), ns.filterMap Node.resource = r.nodes.filterMap Node.resource →
      (Impl.mk ns (r.deleted ++ [p.2])).destroy ++ replaced routes ~ p.2 :: (r.destroy ++ replaced routes) := by
    intro ns hns
    rw [Impl.destroy, Impl.destroy, hns]
    simp only [List.append_assoc, List.singleton_append]
    exact List.perm_middle
  cases hp : parsePath u (dropSlash p.1) with
  | none => exact absurd hp hsome
  | some o =>
    cases o with
    | none =>
      simp only [insertImpl, addRoute, outcome, hp]
      exact ⟨_, _, pat, rfl, rfl, h, hdeleted r.nodes rfl⟩
    | some ts =>
      obtain ⟨c, pat', hc, hmid⟩ := insertSegs_mid h.mid (hkept ts hp)
      have hres := insertSegs_resources hc
      have hlevel : c.level = (resolve ts).level := hmid.level
      simp only [insertImpl, addRoute, outcome, hp, hc, hlevel]
      by_cases hl : (resolve ts).level = 0
      · simp only [hl, ne_eq, not_true_eq_false, if_true, if_false]
        refine ⟨_, _, pat', rfl, by simp [hl], hmid.holds_setResource _ p.2, ?_⟩
        have hset := setResource_perm c.nodes hmid.cur_lt (dropSlash p.1) p.2
        rw [hmid.resources c.cur hmid.cur_lt, hmid.cur, hres] at hset
        have hrep : replaced (routes ++ [((resolve ts).segs, p.2)]) ~ _ := replaced_concat (resolve ts).segs p.2
        rw [Impl.destroy, Impl.destroy]
        simp only [List.append_assoc]
        set now := (setResource c.nodes c.cur (dropSlash p.1) p.2).filterMap Node.resource
        set old := (lastFor routes (shape (resolve ts).segs)).toList
        calc r.deleted ++ (now ++ replaced (routes ++ [((resolve ts).segs, p.2)]))
            ~ r.deleted ++ (now ++ (old ++ replaced routes)) := (hrep.append_left _).append_left _
          _ ~ r.deleted ++ (p.2 :: r.nodes.filterMap Node.resource ++ replaced routes) := by
              rw [← List.append_assoc now]
              exact (hset.append_right _).append_left _
          _ ~ p.2 :: (r.deleted ++ (r.nodes.filterMap Node.resource ++ replaced routes)) := List.perm_middle
      · simp only [hl, ne_eq, not_false_eq_true, if_true, if_false]
        exact ⟨_, _, pat', rfl, by simp [hl], hmid.holds_of_above hl, hdeleted c.nodes hres⟩

/-- **Many inserts.** The nodes say which routes there are, and the destructor leaves the replaced resources. -/
theorem insertAll_holds {u : Url} {r : Impl V} (h : Holds r.nodes pat routes) {ps : List (Bytes × V)}
    (hi : (catalog u).Along (Insertable u) routes ps) :
    ∃ r' pat', insertAll u r ps = some r' ∧ Holds r'.nodes pat' ((catalog u).run routes ps) ∧
      r'.destroy ++ replaced ((catalog u).run routes ps) ~ ps.map Prod.snd ++ (r.destroy ++ replaced routes) := by
  induction ps generalizing r routes pat with
  | nil => exact ⟨r, pat, rfl, h, List.Perm.refl _⟩
  | cons p ps ih =>
    obtain ⟨res, r1, pat1, h1, -, hholds, hperm⟩ := insertImpl_spec h hi.1
    obtain ⟨r2, pat2, h2, hholds2, hperm2⟩ := ih hholds hi.2
    refine ⟨r2, pat2, ?_, hholds2, ?_⟩
    · rw [insertAll, List.foldlM_cons, h1]
      exact h2
    · calc r2.destroy ++ replaced ((catalog u).run routes (p :: ps))
          ~ ps.map Prod.snd ++ (r1.destroy ++ replaced (addRoute u routes p)) := hperm2
        _ ~ ps.map Prod.snd ++ p.2 :: (r.destroy ++ replaced routes) := hperm.append_left _
        _ ~ (p :: ps).map Prod.snd ++ (r.destroy ++ replaced routes) := List.perm_middle

/-- the routes of a list of inserts into a new router -/
def routesOf (u : Url) (ps : List (Bytes × V)) : List (List SegmentTemplate × V) := (catalog u).run [] ps

theorem routesOf_undotted {u : Url} {ps : List (Bytes × V)} {x : List SegmentTemplate × V} (hx : x ∈ routesOf u ps) :
    Undotted x.1 := by
  refine (catalog u).run_invariant (I := fun routes => ∀ x ∈ routes, Undotted x.1) ?_ (fun x hx => (by cases hx)) ps x
    hx
  intro routes p h
  show ∀ x ∈ addRoute u routes p, Undotted x.1
  unfold addRoute
  split
  · rename_i ts _
    split_ifs
    · intro x hx
      rcases List.mem_append.1 hx with hx | hx
      · exact h x hx
      · rw [List.mem_singleton.1 hx]
        exact resolve_undotted ts
    · exact h
  · exact h

/-- these inserts leave this router, and no template takes back a segment of its own -/
def Inserted (u : Url) (ps : List (Bytes × V)) (r : Impl V) : Prop :=
  (catalog u).Along (Insertable u) [] ps ∧ insertAll u .make ps = some r

theorem Inserted.holds {u : Url} {ps : List (Bytes × V)} {r : Impl V} (h : Inserted u ps r) :
    ∃ pat, Holds r.nodes pat (routesOf u ps) := by
  obtain ⟨r', pat, hr, hholds, -⟩ := insertAll_holds (r := Impl.make) holds_make h.1
  rw [h.2, Option.some.injEq] at hr
  exact ⟨pat, hr ▸ hholds⟩

/-- **The nodes** after any inserts, a segment of an earlier route taken back or not: they are a tree, they are the
prefixes of the routes, each with the template of the first route through it, and a node has the resource of the last
route that ends there. -/
theorem insertAll_nodes {u : Url} {ps : List (Bytes × V)} (hi : (catalog u).Along (Insertable u) [] ps) :
    ∃ r pat, insertAll u .make ps = some r ∧ Tree r.nodes pat ∧ Names r.nodes pat ((routesOf u ps).map Prod.fst) ∧
      Resources r.nodes pat (routesOf u ps) := by
  obtain ⟨r, pat, hr, h, -⟩ := insertAll_holds (r := Impl.make) holds_make hi
  exact ⟨r, pat, hr, h.tree, h.names, h.resources⟩

/-- the second route takes b back, which the first one goes through -/
def dotted : List (Bytes × ℕ) := [(bytes "a/b", 0), (bytes "a/b/../\x7bid\x7d", 1), (bytes "a/b", 2)]

theorem insertAll_nodes_dotted :
    routesOf Url.unescaped dotted = [([.literal (bytes "a"), .literal (bytes "b")], 0),
        ([.literal (bytes "a"), .field (bytes "id")], 1), ([.literal (bytes "a"), .literal (bytes "b")], 2)] ∧
      ∃ r pat, insertAll Url.unescaped .make dotted = some r ∧ Tree r.nodes pat ∧
        Names r.nodes pat ((routesOf Url.unescaped dotted).map Prod.fst) ∧
        Resources r.nodes pat (routesOf Url.unescaped dotted) :=
  ⟨by decide, insertAll_nodes (by decide)⟩

/-! ### Taking back -/

/-- **Undefined.** Let a template go on, from a segment where no route goes on (the segments before it resolve to this
one and take back none of their own), to a name, and take the name back: then erase is called on the only index of a
node, and moves memory before its array. -/
theorem insertImpl_undefined {u : Url} {ps : List (Bytes × V)} {r : Impl V} (h : Inserted u ps r) {path : Bytes} (v : V)
    {pre post : List SegmentTemplate} {x y : SegmentTemplate}
    (hp : parsePath u (dropSlash path) = some (some (pre ++ x :: y :: post)))
    (hkept : Kept ((routesOf u ps).map Prod.fst) pre) (hlevel : (resolve pre).level = 0)
    (hx : x.str ≠ dot ∧ x.str ≠ dotdot) (hy : y.str = dotdot)
    (hno : ∀ q ∈ routesOf u ps, shape (resolve pre).segs <+: shape q.1 → shape q.1 = shape (resolve pre).segs) :
    insertImpl u r path v = none := by
  obtain ⟨pat, hh⟩ := h.holds
  obtain ⟨c, pat', hc, hmid⟩ := insertSegs_mid hh.mid hkept
  have hmid : Mid (routesOf u ps) pat' c (resolve pre) := hmid
  have hcur := hmid.cur
  -- the node has no child
  have hleaf : (nodeAt c.nodes c.cur).childIdx.toList = [] := by
    rw [List.eq_nil_iff_forall_not_mem]
    intro j hj
    obtain ⟨hlt, -, -, hpat⟩ := hmid.tree.of_child hmid.cur_lt hj
    rw [hcur] at hpat
    obtain ⟨q, hq, hprefix⟩ :=
      (firstSeg_eq_some (by simp [hpat])).1 ⟨_, (hmid.names _ (by simp [hpat]) _).2 ⟨j, hlt, rfl, rfl⟩⟩
    rw [hpat] at hprefix
    rcases List.mem_append.1 hq with hq | hq
    · obtain ⟨z, hz, rfl⟩ := List.mem_map.1 hq
      have hshape := hno z hz ((List.prefix_append _ _).trans hprefix)
      have hlen := hprefix.length_le
      rw [hshape] at hlen
      simp at hlen
    · obtain rfl : q = (resolve pre).segs := List.mem_singleton.1 hq
      have hlen := hprefix.length_le
      simp at hlen
  have hfind : findChild c.nodes c.cur x = none := by rw [findChild, hleaf]; rfl
  have hup : ¬ c.level < 0 := by rw [hmid.level, hlevel]; exact lt_irrefl 0
  have hpush : insertSeg c x = some { c with nodes := addChild c.nodes c.cur x, cur := c.nodes.length } := by
    rw [insertSeg, if_neg hx.1, if_neg hx.2, if_neg hup, hfind]
  have hback : insertSeg { c with nodes := addChild c.nodes c.cur x, cur := c.nodes.length } y = none := by
    obtain ⟨cs, l1, l2, hpar, hl, hcs, -⟩ := nodeAt_addChild_parent hmid.cur_lt x
    rw [hleaf, eq_comm, List.append_eq_nil_iff] at hl
    rw [hl.1, hl.2, List.nil_append] at hcs
    have hpos := hmid.tree.pos
    have herase : cs.eraseRemove c.nodes.length = none := by
      rw [ChildIdxVector.eraseRemove, if_pos]
      simp [hcs]
    rw [insertSeg, if_neg (by rw [hy]; decide), if_pos hy, if_neg (by simp only; omega)]
    simp only [nodeAt_addChild_new hmid.cur_lt, length_addChild, Option.getD_some]
    rw [if_pos (by simp [Node.make, ChildIdxVector.make, ChildIdxVector.empty]), takeBack, hpar]
    simp [herase]
  have hloop : (pre ++ x :: y :: post).foldlM insertSeg ⟨r.nodes, 0, 0⟩ = none := by
    rw [List.foldlM_append, hc]
    simp [List.foldlM_cons, hpush, hback]
  simp [insertImpl, hp, hloop]

/-- a/b/../b/c/../d, where a/b is a route and nothing goes on from it -/
theorem insertImpl_undefined_dotted :
    insertImpl Url.unescaped ((insertAll Url.unescaped .make dotted).getD .make) (bytes "a/b/../b/c/../d") 3 =
      none := by
  have hr : Inserted Url.unescaped dotted ((insertAll Url.unescaped .make dotted).getD .make) := ⟨by decide, rfl⟩
  have hp : parsePath Url.unescaped (dropSlash (bytes "a/b/../b/c/../d")) =
      some (some ([.literal (bytes "a"), .literal (bytes "b"), .literal (bytes ".."), .literal (bytes "b")] ++
        .literal (bytes "c") :: .literal (bytes "..") :: [.literal (bytes "d")])) := by decide
  have hno : ∀ q ∈ routesOf Url.unescaped dotted, shape [.literal (bytes "a"), .literal (bytes "b")] <+: shape q.1 →
      shape q.1 = shape [.literal (bytes "a"), .literal (bytes "b")] := by decide
  exact insertImpl_undefined hr 3 hp (by decide) rfl (by decide) rfl hno

/-- **The destructor**, after inserts without a template that takes back a segment of its own, deletes each resource
once, but for those that a later route of the same pattern has replaced: these are never deleted. -/
theorem destroy_perm {u : Url} {ps : List (Bytes × V)} (hi : (catalog u).Along (Insertable u) [] ps) :
    ∃ r, insertAll u .make ps = some r ∧ r.destroy ++ replaced (routesOf u ps) ~ ps.map Prod.snd := by
  obtain ⟨r, pat, hr, -, hperm⟩ := insertAll_holds (r := Impl.make) holds_make hi
  refine ⟨r, hr, ?_⟩
  simpa [Impl.make, Impl.destroy, Node.make, replaced, routesOf] using hperm

/-- the resource 0 is never deleted -/
theorem destroy_perm_dotted :
    ∃ r, insertAll Url.unescaped .make dotted = some r ∧ (r.destroy ++ [0]).Perm [0, 1, 2] := by
  have hi : (catalog Url.unescaped).Along (Insertable Url.unescaped) [] dotted := by decide
  exact destroy_perm hi

end Insert

end Gss.Router
