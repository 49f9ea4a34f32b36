/-
What router::find returns, said of the routes that were inserted.

The alternatives are the matches of the routes' patterns with the path. find returns the resource of the last route with
the pattern of the least match: literals are preferred to fields, then {id} to {id?} to {id*} to {id+}, and within a
field the longer part. The routers are those that inserts leave in which no template takes back a segment of its own
(`Inserted`).

- `find_lookup`: the result of find on any path without dot segments. The views it returns have those of the match among
  them, in order; they are exactly those when the routes are unmixed (`Unmixed`).
- `find_static`: a route without fields is found on its own path, whatever the other routes are and however few slots
  there are.
- `find_frame`, `find_perm`: an insert changes the result only for the paths that its route matches, and the order of
  the inserts does not matter when no two routes have the same pattern.
- `find_fits`: with unmixed routes without star and plus, and as many slots as a route has fields, nothing overflows.
-/
import Gss.Router.TryMatch

namespace Gss.Router

open Gss.Core SegmentTemplate

variable {V : Type*}

/-! ## The matches of the routes -/

/-- the ids of the fields of a pattern: the first route through a field names it -/
def idsOf (routes : List (List SegmentTemplate × V)) (q : List (Elem Bytes)) : List Bytes :=
  (fieldPats [] q).filterMap fun p => (firstSeg (routes.map Prod.fst) p).map SegmentTemplate.id

/-- the routes' patterns with what their fields take, by the word of the match -/
def routeAlts (u : Url) (routes : List (List SegmentTemplate × V)) (path : List Bytes) :
    Set (List Letter × List (Elem Bytes) × List (List Bytes)) :=
  { x | (∃ r ∈ routes, shape r.1 = x.2.1) ∧ Matches (Fits u) x.2.1 path x.1 x.2.2 }

/-- no route has fields after a literal where another has a field, nor a star where another has a plus -/
structure Unmixed (routes : List (List SegmentTemplate × V)) : Prop where
  literal : ∀ r ∈ routes, ∀ r' ∈ routes, ∀ p l q e q', shape r.1 = p ++ .lit l :: q → shape r'.1 = p ++ e :: q' →
    e.isField = true → fields q = 0
  many : ∀ r ∈ routes, ∀ r' ∈ routes, ∀ p q q', shape r.1 = p ++ .star :: q → shape r'.1 ≠ p ++ .plus :: q'

/-- unmixed, without star and plus, and no more than N fields -/
structure Fit (routes : List (List SegmentTemplate × V)) (N : ℕ) : Prop extends Unmixed routes where
  single : ∀ r ∈ routes, Elem.star ∉ shape r.1 ∧ Elem.plus ∉ shape r.1
  room : ∀ r ∈ routes, fields (shape r.1) ≤ N

/-- R holds of what comes next in two patterns, after the same beginning -/
def Meet (R : Elem Bytes → List (Elem Bytes) → Elem Bytes → Prop) (routes : List (List SegmentTemplate × V)) : Prop :=
  ∀ r ∈ routes, ∀ r' ∈ routes, ∀ k < (shape r.1).length, (shape r.1).take k = (shape r'.1).take k →
    ∀ e ∈ (shape r.1)[k]?, ∀ e' ∈ (shape r'.1)[k]?, R e ((shape r.1).drop (k + 1)) e'

instance (R : Elem Bytes → List (Elem Bytes) → Elem Bytes → Prop) [∀ e q e', Decidable (R e q e')]
    (routes : List (List SegmentTemplate × V)) : Decidable (Meet R routes) :=
  inferInstanceAs (Decidable (∀ r ∈ routes, ∀ r' ∈ routes, ∀ k < (shape r.1).length,
    (shape r.1).take k = (shape r'.1).take k →
      ∀ e ∈ (shape r.1)[k]?, ∀ e' ∈ (shape r'.1)[k]?, R e ((shape r.1).drop (k + 1)) e'))

/-- the beginnings of a pattern are its parts up to an element -/
theorem meet_iff {R : Elem Bytes → List (Elem Bytes) → Elem Bytes → Prop} {routes : List (List SegmentTemplate × V)} :
    Meet R routes ↔ ∀ r ∈ routes, ∀ r' ∈ routes, ∀ p e q e' q', shape r.1 = p ++ e :: q → shape r'.1 = p ++ e' :: q' →
      R e q e' := by
  constructor
  · intro h r hr r' hr' p e q e' q' hs hs'
    have hmeet := h r hr r' hr' p.length (by rw [hs]; simp)
    rw [hs, hs'] at hmeet
    simpa using hmeet
  · intro h r hr r' hr' k hk htake e he e' he'
    obtain ⟨hlt, rfl⟩ := List.getElem?_eq_some_iff.1 he
    obtain ⟨hlt', rfl⟩ := List.getElem?_eq_some_iff.1 he'
    refine h r hr r' hr' ((shape r.1).take k) _ _ _ ((shape r'.1).drop (k + 1)) ?_ ?_
    · rw [List.getElem_cons_drop, List.take_append_drop]
    · rw [htake, List.getElem_cons_drop, List.take_append_drop]

theorem unmixed_iff {routes : List (List SegmentTemplate × V)} : Unmixed routes ↔ Meet (fun e q e' =>
    (e.isField = false → e'.isField = true → fields q = 0) ∧ (e = .star → e' ≠ .plus)) routes := by
  rw [meet_iff]
  constructor
  · intro h r hr r' hr' p e q e' q' hs hs'
    refine ⟨?_, ?_⟩
    · intro hl hf
      cases e with
      | lit l => exact h.literal r hr r' hr' p l q e' q' hs hs' hf
      | _ => cases hl
    · rintro rfl rfl
      exact h.many r hr r' hr' p q q' hs hs'
  · intro h
    exact ⟨fun r hr r' hr' p l q e q' hs hs' => (h r hr r' hr' p _ q e q' hs hs').1 rfl,
      fun r hr r' hr' p q q' hs hs' => (h r hr r' hr' p _ q _ q' hs hs').2 rfl rfl⟩

instance (routes : List (List SegmentTemplate × V)) : Decidable (Unmixed routes) := decidable_of_iff' _ unmixed_iff

theorem fit_iff {routes : List (List SegmentTemplate × V)} {N : ℕ} :
    Fit routes N ↔ Unmixed routes ∧
      ∀ r ∈ routes, (Elem.star ∉ shape r.1 ∧ Elem.plus ∉ shape r.1) ∧ fields (shape r.1) ≤ N :=
  ⟨fun h => ⟨h.toUnmixed, fun r hr => ⟨h.single r hr, h.room r hr⟩⟩,
    fun h => ⟨h.1, fun r hr => (h.2 r hr).1, fun r hr => (h.2 r hr).2⟩⟩

instance (routes : List (List SegmentTemplate × V)) (N : ℕ) : Decidable (Fit routes N) := decidable_of_iff' _ fit_iff

/-- the views a storage gives, up to its size, and their ids -/
def MatchesStorage.views (m : MatchesStorage) (segs : List Bytes) : List (List Bytes × Bytes) :=
  (m.slots.take m.size).map (seen segs)

/-- the result b gives what the match a says -/
def Gives (routes : List (List SegmentTemplate × V)) (segs : List Bytes) (b : V × MatchesStorage)
    (a : List (Elem Bytes) × List (List Bytes)) : Prop :=
  lastFor routes a.1 = some b.1 ∧ (a.2.zip (idsOf routes a.1)).Sublist (b.2.views segs) ∧
    (Unmixed routes → b.2.views segs = a.2.zip (idsOf routes a.1))

/-- what find may return: the least match, none when there is none, or the fault that the arrays overflow -/
def Lookup (u : Url) (routes : List (List SegmentTemplate × V)) (path : List Bytes) (m : MatchesStorage) :
    Except Fault (Option V × MatchesStorage) → Prop
  | .error e => e = .overflow ∧ ¬ Fit routes m.slots.length
  | .ok (v, m') => m'.slots.length = m.slots.length ∧ m'.size ≤ m.slots.length ∧
      Best (Gives routes path) (routeAlts u routes path) (v.map fun v => (v, m')) ∧ (v = none → m'.size = 0)

/-- each field of a route has an id -/
theorem length_idsOf {routes : List (List SegmentTemplate × V)} {r : List SegmentTemplate × V} (hr : r ∈ routes) :
    (idsOf routes (shape r.1)).length = fields (shape r.1) := by
  rw [← length_fieldPats [] (shape r.1), idsOf, List.length_filterMap_eq_countP, List.countP_eq_length]
  intro p hp
  have hpre : p <+: shape r.1 := by simpa using fieldPats_prefix p hp
  obtain ⟨t, ht⟩ := (firstSeg_eq_some (fieldPats_ne_nil p hp)).2 ⟨r.1, List.mem_map_of_mem hr, hpre⟩
  rw [ht]
  rfl

section Lookup

variable {u : Url} {ns : List (Node V)} {pat : ℕ → List (Elem Bytes)} {routes : List (List SegmentTemplate × V)}

/-! ## The nodes of the routes -/

/-- every node is on a route -/
theorem Holds.on_route (h : Holds ns pat routes) {i : ℕ} (hi : i < ns.length) (h0 : i ≠ 0) :
    ∃ r ∈ routes, pat i <+: shape r.1 := by
  have hne := h.tree.pat_ne_nil hi h0
  have hseg := (h.names _ hne _).2 ⟨i, hi, rfl, rfl⟩
  obtain ⟨x, hx, hpre⟩ := (firstSeg_eq_some hne).1 ⟨_, hseg⟩
  obtain ⟨r, hr, rfl⟩ := List.mem_map.1 hx
  exact ⟨r, hr, hpre⟩

/-- every route has its node -/
theorem Holds.node (h : Holds ns pat routes) {r : List SegmentTemplate × V} (hr : r ∈ routes) :
    ∃ i, i < ns.length ∧ pat i = shape r.1 := by
  by_cases hne : shape r.1 = []
  · exact ⟨0, h.tree.pos, by rw [h.tree.root, hne]⟩
  · obtain ⟨t, ht⟩ := (firstSeg_eq_some hne).2 ⟨r.1, List.mem_map_of_mem hr, List.prefix_rfl⟩
    obtain ⟨i, hi, hp, -⟩ := (h.names _ hne t).1 ht
    exact ⟨i, hi, hp⟩

theorem Holds.childIdx_ne_nil (h : Holds ns pat routes) {i : ℕ} (hi : i < ns.length) (h0 : i ≠ 0)
    (hres : (nodeAt ns i).resource = none) : (nodeAt ns i).childIdx.toList ≠ [] := by
  obtain ⟨r, hr, hpre⟩ := h.on_route hi h0
  exact (Gss.Router.on_route h.tree h.names h.resources hi hr (List.mem_map_of_mem hr) hpre).resolve_left
    (not_not_intro hres)

/-- the node's pattern goes on in a route -/
theorem Holds.route_of_child (h : Holds ns pat routes) {i c : ℕ} (hi : i < ns.length) (hc : IsChild ns i c) :
    ∃ r ∈ routes, ∃ q, shape r.1 = pat i ++ elemAt ns c :: q := by
  obtain ⟨hlt, hic, -, hpat⟩ := h.tree.of_child hi hc
  obtain ⟨r, hr, q, hq⟩ := h.on_route hlt (by omega)
  refine ⟨r, hr, q, ?_⟩
  rw [← hq, hpat]
  simp [elemAt]

theorem Holds.clean (h : Holds ns pat routes) (hu : Unmixed routes) : Clean ns pat where
  literal := by
    intro i c d hi hc hd hlit hf j hj hpre
    obtain ⟨r', hr', q', hq'⟩ := h.route_of_child hi hd
    obtain ⟨hlt, hic, -, hpat⟩ := h.tree.of_child hi hc
    obtain ⟨l, hl⟩ : ∃ l, elemAt ns c = .lit l := by
      cases he : elemAt ns c with
      | lit l => exact ⟨l, rfl⟩
      | _ => rw [he] at hlit; cases hlit
    -- j is on a route through c, which has no field after c
    have hj0 : j ≠ 0 := by
      rintro rfl
      rw [h.tree.root, List.prefix_nil, hpat] at hpre
      simp at hpre
    obtain ⟨q1, hq1⟩ := hpre
    obtain ⟨r, hr, q2, hq2⟩ := h.on_route hj hj0
    have hroute : shape r.1 = pat i ++ .lit l :: (q1 ++ q2) := by
      rw [← hq2, ← hq1, hpat, show (nodeAt ns c).seg.elem = .lit l from hl]
      simp
    have hfields := hu.literal r hr r' hr' _ _ _ _ _ hroute hq' hf
    rw [fields_append] at hfields
    rw [← hq1, fields_append]
    omega
  many := by
    intro i c d hi hc hd hstar hplus
    obtain ⟨r, hr, q, hq⟩ := h.route_of_child hi hc
    obtain ⟨r', hr', q', hq'⟩ := h.route_of_child hi hd
    rw [hstar] at hq
    rw [hplus] at hq'
    exact hu.many r hr r' hr' _ _ _ hq hq'

theorem Holds.roomy (h : Holds ns pat routes) {N : ℕ} (hf : Fit routes N) : Roomy ns pat N where
  toClean := h.clean hf.toUnmixed
  single := by
    intro i hi h0
    obtain ⟨p, hp, -, hpat⟩ := h.tree.parent i hi h0
    obtain ⟨r, hr, q, hq⟩ := h.on_route hi h0
    have hmem : elemAt ns i ∈ shape r.1 := by
      rw [← hq, hpat]
      simp [elemAt]
    refine ⟨?_, ?_⟩
    · intro he
      exact (hf.single r hr).1 (he ▸ hmem)
    · intro he
      exact (hf.single r hr).2 (he ▸ hmem)
  room := by
    intro i hi
    by_cases h0 : i = 0
    · rw [h0, h.tree.root, fields_nil]
      exact Nat.zero_le N
    · obtain ⟨r, hr, q, hq⟩ := h.on_route hi h0
      have hroom := hf.room r hr
      rw [← hq, fields_append] at hroom
      omega

/-! ## Walks and matches -/

/-- the ids of the fields of a walk -/
theorem entries_eq (h : Holds ns pat routes) {segs : List Bytes} {w : List Letter} {es : List (ℕ × List Bytes)} {j : ℕ}
    (hw : Walk (IsChild ns) (elemAt ns) (Fits u) 0 segs w es j) :
    entries ns es = (es.map Prod.snd).zip (idsOf routes (pat j)) := by
  obtain ⟨-, q, hq, -, hpats⟩ := h.tree.trie.walk_matches h.tree.pos hw
  have hmem := h.tree.trie.walk_mem h.tree.pos hw
  have hroot : h.tree.trie.pat 0 = [] := h.tree.root
  rw [hroot, List.nil_append] at hq
  rw [hroot] at hpats
  -- each field is a node that its first route names
  have hname : ∀ x ∈ es, (firstSeg (routes.map Prod.fst) (pat x.1)).map SegmentTemplate.id =
      some (nodeAt ns x.1).seg.id := by
    intro x hx
    have hne : pat x.1 ≠ [] := fieldPats_ne_nil (pat x.1) (hpats ▸ List.mem_map_of_mem hx)
    rw [(h.names _ hne _).2 ⟨x.1, hmem x hx, rfl, rfl⟩]
    rfl
  have hids : idsOf routes (pat j) = es.map fun x => (nodeAt ns x.1).seg.id := by
    have hmap : es.filterMap (fun x => some (nodeAt ns x.1).seg.id) = es.map fun x => (nodeAt ns x.1).seg.id :=
      congrFun List.filterMap_eq_map es
    rw [idsOf, show pat j = q from hq, ← hpats, List.filterMap_map, ← hmap]
    exact List.filterMap_congr hname
  rw [hids, List.zip_map', entries]

theorem resource_isSome (h : Holds ns pat routes) {j : ℕ} (hj : j < ns.length) :
    (nodeAt ns j).resource.isSome = true ↔ ∃ r ∈ routes, shape r.1 = pat j := by
  rw [h.resources j hj, Option.isSome_iff_exists, lastFor_eq_some]

/-- the walks are the matches -/
theorem alts_iff (h : Holds ns pat routes) {segs : List Bytes} {w : List Letter} {q : List (Elem Bytes)}
    {caps : List (List Bytes)} : (w, q, caps) ∈ routeAlts u routes segs ↔
      ∃ j es, pat j = q ∧ es.map Prod.snd = caps ∧ (w, j, es) ∈ alts u ns 0 0 segs := by
  have hwalk : ∀ j, (∃ es, Walk (IsChild ns) (elemAt ns) (Fits u) 0 segs w es j ∧ es.map Prod.snd = caps) ↔
      j < ns.length ∧ Matches (Fits u) (pat j) segs w caps := fun j => h.tree.trie.walk_iff h.tree.pos
  constructor
  · intro hx
    obtain ⟨⟨r, hr, hshape⟩, hm⟩ := hx
    dsimp only at hshape hm
    obtain ⟨j, hj, hp⟩ := h.node hr
    obtain ⟨es, hes, hcaps⟩ := (hwalk j).2 ⟨hj, by rw [hp, hshape]; exact hm⟩
    exact ⟨j, es, hp.trans hshape, hcaps, hes, rfl, (resource_isSome h hj).2 ⟨r, hr, hp.symm⟩⟩
  · intro hx
    obtain ⟨j, es, rfl, hcaps, hes, -, hres⟩ := hx
    obtain ⟨hj, hm⟩ := (hwalk j).1 ⟨es, hes, hcaps⟩
    exact ⟨(resource_isSome h hj).1 hres, hm⟩

/-! ## find -/

theorem pathOf_ne_nil (path : List Bytes) : 0 < (pathOf path).length := by
  unfold pathOf
  split_ifs with h
  · exact Nat.one_pos
  · exact List.length_pos_of_ne_nil h

/-- the fuel is enough from the root -/
theorem lt_fuelFor (ns : List (Node V)) (path : List Bytes) :
    (path.length - 0) * (ns.length + 1) + (ns.length - 0) < fuelFor ns path := by
  rw [fuelFor, Nat.add_mul, Nat.one_mul, Nat.sub_zero]
  omega

/-- and for one call for each segment, and one at the end -/
theorem exists_fuel (ns : List (Node V)) {path : List Bytes} {a b : ℕ} (h : a + b ≤ path.length + 1) :
    ∃ k, fuelFor ns path = k + a + b := by
  have hle : path.length + 1 ≤ fuelFor ns path := Nat.le_mul_of_pos_right _ (Nat.succ_pos _)
  exact ⟨fuelFor ns path - (a + b), by omega⟩

/-- **find**, after the routes have been inserted, on a path without dot segments. -/
theorem Holds.lookup {r : Impl V} (h : Holds r.nodes pat routes) {path : List Bytes}
    (hplain : Plain u (pathOf path)) (m : MatchesStorage) :
    Lookup u routes (pathOf path) m (find u r path m) := by
  have hpos := pathOf_ne_nil path
  have hspec : Post r.nodes pat (pathOf path) (alts u r.nodes 0 0 ((pathOf path).drop 0)) 0 ⟨m.slots, 0⟩
      (tryMatch u r.nodes (pathOf path) (fuelFor r.nodes (pathOf path)) 0 0 0 ⟨m.slots, 0⟩) :=
    tryMatch_spec h.tree (fun i hi h0 hres => h.childIdx_ne_nil hi h0 hres) hplain (Nat.zero_le _) h.tree.pos le_rfl
      (Or.inl hpos) (lt_fuelFor r.nodes (pathOf path)) (Nat.zero_le _)
  rw [List.drop_zero] at hspec
  unfold find findImpl
  cases hres : tryMatch u r.nodes (pathOf path) (fuelFor r.nodes (pathOf path)) 0 0 0 ⟨m.slots, 0⟩ with
  | error e =>
    rw [hres] at hspec
    exact ⟨hspec.1, fun hf => hspec.2 ⟨h.roomy hf, Nat.zero_le _⟩⟩
  | ok x =>
    obtain ⟨x, o⟩ := x
    rw [hres] at hspec
    cases x with
    | none =>
      obtain ⟨more, hext, -⟩ := hspec.2 rfl
      refine ⟨hext.length, Nat.zero_le _, ?_, fun _ => rfl⟩
      have hnone : alts u r.nodes 0 0 (pathOf path) = ∅ := hspec.1
      refine Set.eq_empty_of_forall_notMem ?_
      intro x hx
      obtain ⟨j, es, -, -, hmem⟩ := (alts_iff h).1 (show (x.1, x.2.1, x.2.2) ∈ _ from hx)
      rw [hnone] at hmem
      exact hmem
    | some j =>
      obtain ⟨w, ⟨j', es⟩, hmem, hfound, hleast⟩ := hspec.1
      obtain ⟨hj, more, hext, hsub, hexact⟩ := hfound
      dsimp only at hj hext hsub hexact
      subst hj
      have hlt := (h.tree.trie.walk_matches h.tree.pos hmem.1).1
      obtain ⟨v, hv⟩ := Option.isSome_iff_exists.1 hmem.2.2
      have hlive : o.slots.take o.n = more := by
        have := hext.live
        simpa [Out.live] using this
      have hviews : (MatchesStorage.mk o.slots o.n).views (pathOf path) = more.map (seen (pathOf path)) := by
        rw [MatchesStorage.views, hlive]
      have hentries := entries_eq h hmem.1
      refine ⟨hext.length, hext.length ▸ hext.le', ?_, fun h0 => ?_⟩
      · rw [hv]
        refine ⟨w, (pat j, es.map Prod.snd), (alts_iff h).2 ⟨j, es, rfl, rfl, hmem⟩, ⟨?_, ?_, ?_⟩, ?_⟩
        · rw [← h.resources j hlt, hv]
        · rw [hviews, ← hentries]
          exact hsub
        · intro hu
          rw [hviews, ← hentries]
          exact hexact (h.clean hu)
        · intro x hx
          obtain ⟨i, fs, -, -, hi⟩ := (alts_iff h).1 (show (x.1, x.2.1, x.2.2) ∈ _ from hx)
          exact hleast _ hi
      · rw [hv] at h0
        cases h0

/-! ### Routes without fields -/

/-- the literal that matches is the first child that does -/
theorem childLoop_literal (h : Tree ns pat) {i c it j : ℕ} {s l : Bytes} (hi : i < ns.length)
    (he : elemAt ns c = .lit l) (hs : u.decode s = l) {branch : Bool} {segs : List Bytes}
    {rec : ℕ → ℕ → Out → Except Fault (Option ℕ × Out)} {o o' : Out}
    (hrec : rec (it + 1) c o = .ok (some j, o')) {cs : List ℕ}
    (hcs : cs.Sublist (nodeAt ns i).childIdx.toList) (hc : c ∈ cs) :
    childLoop rec u ns segs branch it s cs o = if branch then .ok (.found j, o') else .ok (.moved c, o) := by
  induction cs with
  | nil => cases hc
  | cons d cs ih =>
    rcases List.mem_cons.1 hc with rfl | hmem
    · rw [childLoop_lit he hs, hrec]
      rfl
    · -- d comes before a literal, so it is another one
      have hcd : c ≠ d := by
        rintro rfl
        exact (List.nodup_cons.1 ((h.nodup i hi).sublist hcs)).1 hmem
      have hrank : (elemAt ns d).rank ≤ (elemAt ns c).rank :=
        (List.pairwise_cons.1 ((h.sorted i hi).sublist hcs)).1 c hmem
      cases hd : elemAt ns d with
      | lit l' =>
        have hne : u.decode s ≠ l' := by
          intro hs'
          refine hcd (h.child_inj hi (hcs.subset hc) (hcs.subset List.mem_cons_self) ?_)
          calc elemAt ns c
              = .lit (u.decode s) := by rw [he, hs]
            _ = elemAt ns d := by rw [hd, hs']
        rw [childLoop_pass hd hne]
        exact ih ((List.sublist_cons_self d cs).trans hcs) hmem
      | _ =>
        rw [hd, he] at hrank
        cases Elem.rank_eq_zero.1 (Nat.le_zero.1 hrank)

/-- along literals the search goes down to the node, and writes nothing -/
theorem tryMatch_literals (h : Tree ns pat) {segs : List Bytes} {j k : ℕ} (hj : j < ns.length) {level : ℤ}
    (hlevel : 0 ≤ level) {ts : List SegmentTemplate} (hlit : ∀ t ∈ ts, t.isLiteral = true) (hdots : Undotted ts)
    {ss cs : List Bytes} (hsegs : List.Forall₂ (fun t s => u.decode s = t.str) ts ss) {it cur fuel : ℕ}
    (hdrop : segs.drop it = ss ++ cs) (hcur : cur < ns.length) (hpat : pat j = pat cur ++ shape ts) {o o' : Out}
    (hend : tryMatch u ns segs fuel (it + ss.length) j level o = .ok (some k, o')) :
    tryMatch u ns segs (fuel + ss.length) it cur level o = .ok (some k, o') := by
  induction hsegs generalizing it cur with
  | nil =>
    obtain rfl : j = cur := h.inj _ _ hj hcur (by simpa using hpat)
    exact hend
  | @cons t s ts ss hs hrest ih =>
    have ht := hdots t List.mem_cons_self
    have hit : segs[it]? = some s := by
      rw [← List.head?_drop, hdrop]
      rfl
    -- the child on the way
    obtain ⟨c, hc, he, hpc⟩ := h.trie.child_of_pat (i := cur) (j := j) (e := t.elem) (q := shape ts) hcur hj hpat
    have hchild : IsChild ns cur c := hc
    have he : elemAt ns c = .lit t.str := by
      rw [← elem_of_literal (hlit t List.mem_cons_self)]
      exact he
    have hrec : tryMatch u ns segs (fuel + ss.length) (it + 1) c level o = .ok (some k, o') := by
      refine ih (fun x hx => hlit x (List.mem_cons_of_mem _ hx)) (fun x hx => hdots x (List.mem_cons_of_mem _ hx))
        (by rw [← List.drop_drop, hdrop]; rfl) (h.of_child hcur hchild).1 hpc ?_
      rw [Nat.add_assoc, Nat.add_comm 1]
      exact hend
    have hloop : childLoop (fun it i o => tryMatch u ns segs (fuel + ss.length) it i level o) u ns segs
        (branches u ns cur s) it s (nodeAt ns cur).childIdx.toList o = _ :=
      childLoop_literal h hcur he hs hrec (List.Sublist.refl _) hchild
    rw [List.length_cons, ← Nat.add_assoc, tryMatch_children hit (hs ▸ ht) hlevel, hloop]
    cases branches u ns cur s
    · exact hrec
    · rfl

/-- a path that decodes to the literals of a route -/
def Spells (u : Url) (ts : List SegmentTemplate) (path : List Bytes) : Prop :=
  (∀ t ∈ ts, t.isLiteral = true) ∧ List.Forall₂ (fun t s => u.decode s = t.str) ts path

theorem Holds.static {r : Impl V} (h : Holds r.nodes pat routes) {x : List SegmentTemplate × V} (hx : x ∈ routes)
    (hdots : Undotted x.1) {path : List Bytes} (hspells : Spells u x.1 (pathOf path)) (m : MatchesStorage) :
    find u r path m = .ok (lastFor routes (shape x.1), ⟨m.slots, 0⟩) := by
  obtain ⟨hlit, hsegs⟩ := hspells
  obtain ⟨j, hj, hp⟩ := h.node hx
  have hres := (resource_isSome h hj).2 ⟨x, hx, hp.symm⟩
  obtain ⟨fuel, hfuel⟩ : ∃ k, fuelFor r.nodes (pathOf path) = k + 1 + (pathOf path).length := exists_fuel _ (by omega)
  have hend : tryMatch u r.nodes (pathOf path) (fuel + 1) (0 + (pathOf path).length) j 0 ⟨m.slots, 0⟩ =
      .ok (some j, ⟨m.slots, 0⟩) := tryMatch_stops (List.getElem?_eq_none (by omega)) hres
  have hfind := tryMatch_literals h.tree hj le_rfl hlit hdots hsegs
    (show (pathOf path).drop 0 = pathOf path ++ [] by simp) h.tree.pos
    (by rw [h.tree.root, hp, List.nil_append]) hend
  simp only [find, findImpl, hfuel, hfind]
  rw [h.resources j hj, hp]

/-! ### The same routes -/

/-- the alternatives are the patterns with a resource -/
theorem mem_routeAlts_iff {path : List Bytes} {w : List Letter} {q : List (Elem Bytes)} {caps : List (List Bytes)} :
    (w, q, caps) ∈ routeAlts u routes path ↔ (∃ v, lastFor routes q = some v) ∧ Matches (Fits u) q path w caps := by
  rw [lastFor_eq_some]
  exact Iff.rfl

/-- what is found depends on which resource is the last for each pattern that matches -/
theorem Lookup.agree {routes' : List (List SegmentTemplate × V)} {path : List Bytes} {m m' n n' : MatchesStorage}
    {v v' : Option V} (h : Lookup u routes path m (.ok (v, n))) (h' : Lookup u routes' path m' (.ok (v', n')))
    (hsame : ∀ q w caps, Matches (Fits u) q path w caps → lastFor routes q = lastFor routes' q) : v = v' := by
  have hset : routeAlts u routes path = routeAlts u routes' path := by
    ext ⟨w, q, caps⟩
    rw [mem_routeAlts_iff, mem_routeAlts_iff]
    refine and_congr_left ?_
    intro hm
    rw [hsame q w caps hm]
  obtain ⟨-, -, hbest, -⟩ := h
  obtain ⟨-, -, hbest', -⟩ := h'
  rw [← hset] at hbest'
  cases v with
  | none =>
    cases v' with
    | none => rfl
    | some b' =>
      have hnone : routeAlts u routes path = ∅ := hbest
      obtain ⟨_, _, hmem, _⟩ := hbest'
      rw [hnone] at hmem
      exact hmem.elim
  | some b =>
    obtain ⟨w, ⟨q, caps⟩, hmem, ⟨hlast, -⟩, hleast⟩ := hbest
    cases v' with
    | none =>
      have hnone : routeAlts u routes path = ∅ := hbest'
      rw [hnone] at hmem
      exact hmem.elim
    | some b' =>
      obtain ⟨w', ⟨q', caps'⟩, hmem', ⟨hlast', -⟩, hleast'⟩ := hbest'
      -- the least words are the same, and a word says which pattern it is of
      obtain rfl : w = w' := le_antisymm (hleast _ hmem') (hleast' _ hmem)
      have hfits : ∀ l l' s, Fits u l s → Fits u l' s → l = l' := fun l l' s hl hl' => hl.symm.trans hl'
      obtain ⟨rfl, -⟩ := hmem.2.unique hfits hmem'.2
      dsimp only at hlast hlast'
      rw [hsame q w caps hmem.2, hlast'] at hlast
      exact hlast.symm

end Lookup

/-! ## After the inserts -/

section Inserts

variable {u : Url} {ps ps' : List (Bytes × V)}

theorem Inserted.lookup {r : Impl V} (h : Inserted u ps r) {path : List Bytes} (hplain : Plain u (pathOf path))
    (m : MatchesStorage) : Lookup u (routesOf u ps) (pathOf path) m (find u r path m) := by
  obtain ⟨pat, hholds⟩ := h.holds
  exact hholds.lookup hplain m

/-- files/{dir}/{name}, and files -/
def small : List (Bytes × ℕ) := [(bytes "files/\x7bdir\x7d/\x7bname\x7d", 0), (bytes "files", 1)]

def smallRouter : Impl ℕ := (insertAll Url.unescaped .make small).getD .make

theorem small_inserted : Inserted Url.unescaped small smallRouter := ⟨by decide, rfl⟩

/-- n slots -/
def slotsOf (n : ℕ) : MatchesStorage := ⟨List.replicate n (none, []), 0⟩

/-- **Lookup.** After any inserts without a template that takes back a segment of its own, and for any path without dot
segments: find returns the resource of the last route with the pattern of the least match, and nothing when no route
matches, or the arrays overflow. The views are those of the match, with others among them unless the routes are
unmixed. -/
theorem find_lookup {r : Impl V} (h : Inserted u ps r) {path : List Bytes} (hplain : Plain u (pathOf path))
    (m : MatchesStorage) : Lookup u (routesOf u ps) (pathOf path) m (find u r path m) :=
  h.lookup hplain m

theorem find_lookup_small : Lookup Url.unescaped (routesOf Url.unescaped small)
    (pathOf [bytes "files", bytes "a", bytes "b"]) (slotsOf 2)
    (find Url.unescaped smallRouter [bytes "files", bytes "a", bytes "b"] (slotsOf 2)) :=
  find_lookup small_inserted (by decide) (slotsOf 2)

/-- **Enough room.** With unmixed routes without star and plus, and as many slots as a route has fields, find returns:
the least match, with exactly its views, or nothing when no route matches. -/
theorem find_fits {r : Impl V} (h : Inserted u ps r) {path : List Bytes} (hplain : Plain u (pathOf path))
    {m : MatchesStorage} (hfit : Fit (routesOf u ps) m.slots.length) :
    (∃ m', find u r path m = .ok (none, m') ∧ m'.size = 0 ∧ routeAlts u (routesOf u ps) (pathOf path) = ∅) ∨
      ∃ v m' w q caps, find u r path m = .ok (some v, m') ∧ (w, q, caps) ∈ routeAlts u (routesOf u ps) (pathOf path) ∧
        (∀ x ∈ routeAlts u (routesOf u ps) (pathOf path), w ≤ x.1) ∧ lastFor (routesOf u ps) q = some v ∧
        m'.views (pathOf path) = caps.zip (idsOf (routesOf u ps) q) := by
  have hlookup := h.lookup hplain m
  cases hres : find u r path m with
  | error e =>
    rw [hres] at hlookup
    exact absurd hfit hlookup.2
  | ok b =>
    obtain ⟨v, m'⟩ := b
    rw [hres] at hlookup
    cases v with
    | none => exact Or.inl ⟨m', rfl, hlookup.2.2.2 rfl, hlookup.2.2.1⟩
    | some v =>
      obtain ⟨w, ⟨q, caps⟩, hmem, ⟨hlast, -, hexact⟩, hleast⟩ := hlookup.2.2.1
      exact Or.inr ⟨v, m', w, q, caps, rfl, hmem, hleast, hlast, hexact hfit.toUnmixed⟩

/-- two slots are enough for files/a/b -/
theorem find_fits_small :
    ∃ v m, find Url.unescaped smallRouter [bytes "files", bytes "a", bytes "b"] (slotsOf 2) = .ok (v, m) := by
  have hplain : Plain Url.unescaped (pathOf [bytes "files", bytes "a", bytes "b"]) := by decide
  have hfit : Fit (routesOf Url.unescaped small) (slotsOf 2).slots.length := by decide
  rcases find_fits small_inserted hplain hfit with h | h
  · obtain ⟨m, h, -⟩ := h
    exact ⟨none, m, h⟩
  · obtain ⟨v, m, w, q, caps, h, -⟩ := h
    exact ⟨some v, m, h⟩

/-- **A route without fields** is found on its own path, with the last resource inserted for it, and no views. -/
theorem find_static {r : Impl V} (h : Inserted u ps r) {x : List SegmentTemplate × V} (hx : x ∈ routesOf u ps)
    {path : List Bytes} (hspells : Spells u x.1 (pathOf path)) (m : MatchesStorage) :
    find u r path m = .ok (lastFor (routesOf u ps) (shape x.1), ⟨m.slots, 0⟩) := by
  obtain ⟨pat, hholds⟩ := h.holds
  exact hholds.static hx (routesOf_undotted hx) hspells m

/-- files is found without slots -/
theorem find_static_small : find Url.unescaped smallRouter [bytes "files"] (slotsOf 0) = .ok (some 1, slotsOf 0) := by
  have hx : ([SegmentTemplate.literal (bytes "files")], 1) ∈ routesOf Url.unescaped small := by decide
  have hspells : Spells Url.unescaped [.literal (bytes "files")] (pathOf [bytes "files"]) :=
    ⟨by simp [SegmentTemplate.literal], .cons rfl .nil⟩
  exact find_static small_inserted hx hspells (slotsOf 0)

/-- **Frame.** One more insert does not change the resource that is found for a path that its route does not match. -/
theorem find_frame {p : Bytes × V} {r r' : Impl V} (h : Inserted u ps r) (h' : Inserted u (ps ++ [p]) r')
    {path : List Bytes} (hplain : Plain u (pathOf path))
    (hno : ∀ ts, parsePath u (dropSlash p.1) = some (some ts) → (resolve ts).level = 0 →
      ∀ w caps, ¬ Matches (Fits u) (shape (resolve ts).segs) (pathOf path) w caps)
    {m m' n n' : MatchesStorage} {v v' : Option V} (hf : find u r path m = .ok (v, n))
    (hf' : find u r' path m' = .ok (v', n')) : v = v' := by
  have hlookup := h.lookup hplain m
  have hlookup' := h'.lookup hplain m'
  rw [hf] at hlookup
  rw [hf'] at hlookup'
  refine hlookup.agree hlookup' ?_
  intro q w caps hm
  have hroutes : routesOf u (ps ++ [p]) = addRoute u (routesOf u ps) p := (catalog u).run_snoc [] ps p
  rw [hroutes, addRoute]
  split
  · rename_i ts hts
    split_ifs with hlevel
    · rw [lastFor_concat, if_neg]
      rintro rfl
      exact hno ts hts hlevel w caps hm
    · rfl
  · rfl

/-- users leaves files as it is -/
theorem find_frame_small : ∃ r v v' n n', insertAll Url.unescaped .make (small ++ [(bytes "users", 2)]) = some r ∧
    find Url.unescaped smallRouter [bytes "files"] (slotsOf 1) = .ok (v, n) ∧
      find Url.unescaped r [bytes "files"] (slotsOf 1) = .ok (v', n') ∧ v = v' := by
  have hno : ∀ ts, parsePath Url.unescaped (dropSlash (bytes "users")) = some (some ts) → (resolve ts).level = 0 →
      ∀ w caps, ¬ Matches (Fits Url.unescaped) (shape (resolve ts).segs) (pathOf [bytes "files"]) w caps := by
    intro ts hts _ w caps hm
    obtain rfl : [SegmentTemplate.literal (bytes "users")] = ts := Option.some.inj (Option.some.inj hts)
    obtain ⟨s, hs, hfits⟩ := Matches.fits_head (l := bytes "users") (q := []) hm
    obtain rfl : bytes "files" = s := Option.some.inj hs
    exact absurd (show bytes "files" = bytes "users" from hfits) (by decide)
  have hr : Inserted Url.unescaped (small ++ [(bytes "users", 2)])
      ((insertAll Url.unescaped .make (small ++ [(bytes "users", 2)])).getD .make) := ⟨by decide, rfl⟩
  have hplain : Plain Url.unescaped (pathOf [bytes "files"]) := by decide
  have hf : find Url.unescaped smallRouter [bytes "files"] (slotsOf 1) = .ok (some 1, slotsOf 1) := rfl
  have hf' : find Url.unescaped ((insertAll Url.unescaped .make (small ++ [(bytes "users", 2)])).getD .make)
      [bytes "files"] (slotsOf 1) = .ok (some 1, slotsOf 1) := rfl
  exact ⟨_, _, _, _, _, hr.2, hf, hf', find_frame small_inserted hr hplain hno hf hf'⟩

/-- **Order.** When no two routes have the same pattern, the order of the inserts does not change what is found. -/
theorem find_perm {r r' : Impl V} (h : Inserted u ps r) (h' : Inserted u ps' r')
    (hperm : (routesOf u ps).Perm (routesOf u ps')) (hnodup : ((routesOf u ps).map fun x => shape x.1).Nodup)
    {path : List Bytes} (hplain : Plain u (pathOf path)) {m m' n n' : MatchesStorage} {v v' : Option V}
    (hf : find u r path m = .ok (v, n)) (hf' : find u r' path m' = .ok (v', n')) : v = v' := by
  have hlookup := h.lookup hplain m
  have hlookup' := h'.lookup hplain m'
  rw [hf] at hlookup
  rw [hf'] at hlookup'
  refine hlookup.agree hlookup' ?_
  intro q w caps _
  -- at most one route has the pattern
  have hfilter := hperm.filter fun x => decide (shape x.1 = q)
  have hlen : ((routesOf u ps).filter fun x => decide (shape x.1 = q)).length ≤ 1 := by
    have hcount := List.nodup_iff_count_le_one.1 hnodup q
    rw [List.count_eq_countP, List.countP_map, List.countP_eq_length_filter] at hcount
    simpa [Function.comp_def, beq_eq_decide] using hcount
  rw [lastFor, lastFor]
  generalize (routesOf u ps).filter (fun x => decide (shape x.1 = q)) = l at hfilter hlen
  cases l with
  | nil => rw [List.nil_perm.1 hfilter]
  | cons x l =>
    obtain rfl : l = [] := List.eq_nil_of_length_eq_zero (by simpa using hlen)
    rw [List.singleton_perm.1 hfilter]

/-- the other order -/
theorem find_perm_small : ∃ r v v' n n', insertAll Url.unescaped .make small.reverse = some r ∧
    find Url.unescaped smallRouter [bytes "files"] (slotsOf 1) = .ok (v, n) ∧
      find Url.unescaped r [bytes "files"] (slotsOf 1) = .ok (v', n') ∧ v = v' := by
  have hr : Inserted Url.unescaped small.reverse ((insertAll Url.unescaped .make small.reverse).getD .make) :=
    ⟨by decide, rfl⟩
  have hplain : Plain Url.unescaped (pathOf [bytes "files"]) := by decide
  have hf : find Url.unescaped smallRouter [bytes "files"] (slotsOf 1) = .ok (some 1, slotsOf 1) := rfl
  have hf' : find Url.unescaped ((insertAll Url.unescaped .make small.reverse).getD .make) [bytes "files"] (slotsOf 1) =
      .ok (some 1, slotsOf 1) := rfl
  exact ⟨_, _, _, _, _, hr.2, hf, hf', find_perm small_inserted hr (by decide) (by decide) hplain hf hf'⟩

end Inserts

end Gss.Router
