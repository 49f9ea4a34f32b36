/-
The pool of nodes of the router (router/detail/impl/router.cpp): node, impl and impl::insert_impl.

The nodes are in a vector and refer to each other by their indices; an index out of range gives a new node here, where
nodes_[i] is undefined, and `Tree` says that there is none. node is moved into the vector with its child indices, of
which a new node has none, and copied when the vector grows (`ChildIdxVector.copy_toList`). A resource is what
any_resource holds; the resources that were deleted are listed in the order of their deletion. none is undefined
behaviour: a failed assertion, or a take-back that writes before the array of child indices.

- `Tree`: the nodes are a tree of patterns; each node has its children in the order of their kinds, and no two nodes
  have the same pattern.
- `Tree.addChild`, `Tree.congr`: what insert_impl does to the nodes keeps it.
- `findChild_some`, `findChild_none`: the search for a child finds the node with the longer pattern.
-/
import Gss.Router.ChildIdxVector
import Gss.Router.SegmentTemplate

namespace Gss.Router

open Gss.Core SegmentTemplate

/-! ## Model -/

def dot : Bytes := [46]

def dotdot : Bytes := [46, 46]

structure Node (V : Type*) where
  seg : SegmentTemplate
  resource : Option V
  /-- path_template -/
  pathTemplate : Bytes
  /-- parent_idx; none is npos -/
  parentIdx : Option ℕ
  /-- child_idx -/
  childIdx : ChildIdxVector
deriving DecidableEq, Repr

variable {V : Type*}

/-- node{} -/
def Node.make : Node V := ⟨.literal [], none, [], none, .make⟩

/-- nodes_[i] -/
def nodeAt (ns : List (Node V)) (i : ℕ) : Node V := ns.getD i .make

/-- the child of i with the template t -/
def findChild (ns : List (Node V)) (i : ℕ) (t : SegmentTemplate) : Option ℕ :=
  (nodeAt ns i).childIdx.toList.find? fun c => (nodeAt ns c).seg.same t

/-- the loop that keeps the children sorted: the one in cell n goes down while it is less than the one before it -/
def sortLast (ns : List (Node V)) : ℕ → ChildIdxVector → ChildIdxVector
  | 0, cs => cs
  | n + 1, cs =>
    if (nodeAt ns (cs.arr.getD (n + 1) 0)).seg.lt (nodeAt ns (cs.arr.getD n 0)).seg then
      sortLast ns n (cs.swap (n + 1) n)
    else cs

/-- a new node for t, as a child of p -/
def addChild (ns : List (Node V)) (p : ℕ) (t : SegmentTemplate) : List (Node V) :=
  let ns' := ns ++ [{ Node.make with seg := t, parentIdx := some p }]
  let cs := (nodeAt ns p).childIdx.pushBack ns.length
  ns'.modify p fun n => { n with childIdx := sortLast ns' (cs.size - 1) cs }

/-- the last node, cur, is removed, and taken out of the children of p -/
def takeBack (ns : List (Node V)) (p cur : ℕ) : Option (List (Node V)) :=
  ((nodeAt ns p).childIdx.eraseRemove cur).map fun cs => (ns.modify p fun n => { n with childIdx := cs }).dropLast

/-- the variables of insert_impl's loop -/
structure Cursor (V : Type*) where
  nodes : List (Node V)
  cur : ℕ
  level : ℤ

/-- one iteration of insert_impl's loop -/
def insertSeg (c : Cursor V) (t : SegmentTemplate) : Option (Cursor V) :=
  if t.str = dot then some c
  else if t.str = dotdot then
    if c.cur = 0 then some { c with level := c.level - 1 }
    else
      let p := (nodeAt c.nodes c.cur).parentIdx.getD 0
      if c.cur + 1 = c.nodes.length ∧ (nodeAt c.nodes c.cur).resource.isNone ∧
          (nodeAt c.nodes c.cur).childIdx.empty then
        (takeBack c.nodes p c.cur).map fun ns => { c with nodes := ns, cur := p }
      else some { c with cur := p }
  else if c.level < 0 then some { c with level := c.level + 1 }
  else
    match findChild c.nodes c.cur t with
    | some i => some { c with cur := i }
    | none => some { c with nodes := addChild c.nodes c.cur t, cur := c.nodes.length }

/-- impl -/
structure Impl (V : Type*) where
  /-- nodes_ -/
  nodes : List (Node V)
  /-- the resources deleted so far -/
  deleted : List V

/-- impl() -/
def Impl.make : Impl V := ⟨[.make], []⟩

/-- ~impl() -/
def Impl.destroy (r : Impl V) : List V := r.deleted ++ r.nodes.filterMap Node.resource

/-- what insert throws: the error of the parse, or invalid_argument -/
inductive InsertError where
  | notATemplate
  | invalidArgument
deriving DecidableEq, Repr

/-- cur->resource = v; cur->path_template = path -/
def setResource (ns : List (Node V)) (cur : ℕ) (path : Bytes) (v : V) : List (Node V) :=
  ns.modify cur fun n => { n with resource := some v, pathTemplate := path }

/-- insert_impl; the nodes that a refused template has added or removed by then stay so -/
def insertImpl (u : Url) (r : Impl V) (path : Bytes) (v : V) : Option (Except InsertError Unit × Impl V) :=
  match parsePath u (dropSlash path) with
  | none => none
  | some none => some (.error .notATemplate, { r with deleted := r.deleted ++ [v] })
  | some (some ts) =>
    match ts.foldlM insertSeg ⟨r.nodes, 0, 0⟩ with
    | none => none
    | some c =>
      if c.level ≠ 0 then some (.error .invalidArgument, ⟨c.nodes, r.deleted ++ [v]⟩)
      else some (.ok (), { r with nodes := setResource c.nodes c.cur (dropSlash path) v })

/-! ## Nodes -/

section Nodes

variable {ns : List (Node V)}

theorem nodeAt_eq {i : ℕ} (hi : i < ns.length) : nodeAt ns i = ns[i] := by
  rw [nodeAt, List.getD_eq_getElem?_getD, List.getElem?_eq_getElem hi, Option.getD_some]

theorem nodeAt_append_left {i : ℕ} (hi : i < ns.length) (l : List (Node V)) : nodeAt (ns ++ l) i = nodeAt ns i := by
  rw [nodeAt, nodeAt, List.getD_eq_getElem?_getD, List.getD_eq_getElem?_getD, List.getElem?_append_left hi]

theorem nodeAt_append_length (n : Node V) : nodeAt (ns ++ [n]) ns.length = n := by
  simp [nodeAt]

theorem nodeAt_modify_self {i : ℕ} (hi : i < ns.length) (f : Node V → Node V) :
    nodeAt (ns.modify i f) i = f (nodeAt ns i) := by
  rw [nodeAt_eq (by rwa [List.length_modify]), List.getElem_modify, if_pos rfl, nodeAt_eq hi]

theorem nodeAt_modify_ne {i j : ℕ} (hij : i ≠ j) (f : Node V → Node V) : nodeAt (ns.modify i f) j = nodeAt ns j := by
  simp [nodeAt, List.getD_eq_getElem?_getD, hij]

@[simp] theorem length_addChild (ns : List (Node V)) (p : ℕ) (t : SegmentTemplate) :
    (addChild ns p t).length = ns.length + 1 := by
  simp [addChild]

/-- the rank of the child with index c -/
def rankAt (ns : List (Node V)) (c : ℕ) : ℕ := (nodeAt ns c).seg.elem.rank

/-- the loop puts the last index before those with a greater rank -/
theorem sortLast_toList (ns : List (Node V)) (n : ℕ) {cs : ChildIdxVector} {l r : List ℕ} {x : ℕ}
    (h : cs.toList = l ++ x :: r) (hl : l.length = n) :
    ∃ l1 l2, l = l1 ++ l2 ∧ (sortLast ns n cs).toList = l1 ++ x :: (l2 ++ r) ∧ (∀ y ∈ l2, rankAt ns x < rankAt ns y) ∧
      ∀ y, l1.getLast? = some y → rankAt ns y ≤ rankAt ns x := by
  induction n generalizing cs l r with
  | zero =>
    obtain rfl := List.eq_nil_of_length_eq_zero hl
    exact ⟨[], [], rfl, by simpa [sortLast] using h, by simp, by simp⟩
  | succ n ih =>
    rcases l.eq_nil_or_concat with rfl | ⟨l, y, rfl⟩
    · cases hl
    rw [List.concat_eq_append] at h hl ⊢
    have hln : l.length = n := by simpa using hl
    have hsize : cs.size = n + 2 + r.length := by
      rw [← cs.length_toList, h]
      simp only [List.length_append, List.length_cons, List.length_nil, hln]
      omega
    -- cells n and n + 1
    have hcell : ∀ k, k < cs.size → cs.arr.getD k 0 = cs.toList.getD k 0 := by
      intro k hk
      rw [ChildIdxVector.toList, List.getD_eq_getElem?_getD, List.getD_eq_getElem?_getD, List.getElem?_take_of_lt hk]
    have hx : cs.toList.getD (n + 1) 0 = x := by simp [h, ← hln, List.getD_eq_getElem?_getD]
    have hy : cs.toList.getD n 0 = y := by simp [h, ← hln, List.getD_eq_getElem?_getD]
    rw [sortLast, hcell _ (by omega), hcell _ (by omega), hx, hy]
    split_ifs with hlt
    all_goals rw [SegmentTemplate.lt_iff] at hlt
    · have hswap : (cs.swap (n + 1) n).toList = l ++ x :: (y :: r) := by
        rw [cs.swap_toList (by omega) (by omega), hx, hy, h, ← hln]
        simp
      obtain ⟨l1, l2, rfl, hres, hgt, hle⟩ := ih hswap hln
      refine ⟨l1, l2 ++ [y], by simp, by simpa using hres, ?_, hle⟩
      intro z hz
      rcases List.mem_append.1 hz with hz | hz
      · exact hgt z hz
      · rw [List.mem_singleton.1 hz]
        exact hlt
    · refine ⟨l ++ [y], [], by simp, by simpa using h, by simp, ?_⟩
      intro z hz
      obtain rfl : y = z := by simpa using hz
      exact not_lt.1 hlt

/-- one more element between two sorted parts -/
theorem pairwise_insert {f : ℕ → ℕ} {l1 l2 : List ℕ} {x : ℕ} (h : (l1 ++ l2).Pairwise fun c d => f c ≤ f d)
    (hle : ∀ y, l1.getLast? = some y → f y ≤ f x) (hgt : ∀ y ∈ l2, f x ≤ f y) :
    (l1 ++ x :: l2).Pairwise fun c d => f c ≤ f d := by
  obtain ⟨h1, h2, h12⟩ := List.pairwise_append.1 h
  refine List.pairwise_append.2 ⟨h1, List.pairwise_cons.2 ⟨hgt, h2⟩, ?_⟩
  intro c hc d hd
  rcases List.mem_cons.1 hd with rfl | hd
  · rcases l1.eq_nil_or_concat with rfl | ⟨k, y, rfl⟩
    · cases hc
    rw [List.concat_eq_append] at hc hle h1
    have hy := hle y (by simp)
    rcases List.mem_append.1 hc with hc | hc
    · exact ((List.pairwise_append.1 h1).2.2 c hc y (by simp)).trans hy
    · rw [List.mem_singleton.1 hc]
      exact hy
  · exact h12 c hc d hd

end Nodes

/-! ## The tree -/

structure Tree (ns : List (Node V)) (pat : ℕ → List (Elem Bytes)) : Prop where
  pos : 0 < ns.length
  root : pat 0 = []
  /-- a node comes after its parent and has one element more -/
  parent : ∀ i, i < ns.length → i ≠ 0 → ∃ p, p < i ∧ (nodeAt ns i).parentIdx = some p ∧
    pat i = pat p ++ [(nodeAt ns i).seg.elem]
  child : ∀ i c, i < ns.length →
    (c ∈ (nodeAt ns i).childIdx.toList ↔ c < ns.length ∧ c ≠ 0 ∧ (nodeAt ns c).parentIdx = some i)
  nodup : ∀ i, i < ns.length → (nodeAt ns i).childIdx.toList.Nodup
  sorted : ∀ i, i < ns.length → (nodeAt ns i).childIdx.toList.Pairwise fun c d => rankAt ns c ≤ rankAt ns d
  inj : ∀ i j, i < ns.length → j < ns.length → pat i = pat j → i = j

section Tree

variable {ns : List (Node V)} {pat : ℕ → List (Elem Bytes)}

theorem tree_make : Tree [(Node.make : Node V)] fun _ => [] where
  pos := Nat.one_pos
  root := rfl
  parent i hi h0 := absurd (Nat.lt_one_iff.1 hi) h0
  child i c hi := by
    obtain rfl := Nat.lt_one_iff.1 hi
    refine iff_of_false (by simp [nodeAt, Node.make]) ?_
    intro h
    exact h.2.1 (Nat.lt_one_iff.1 h.1)
  nodup i hi := by
    obtain rfl := Nat.lt_one_iff.1 hi
    exact List.nodup_nil
  sorted i hi := by
    obtain rfl := Nat.lt_one_iff.1 hi
    exact List.Pairwise.nil
  inj i j hi hj _ := (Nat.lt_one_iff.1 hi).trans (Nat.lt_one_iff.1 hj).symm

/-- a child is after its parent and has one element more -/
theorem Tree.of_child (h : Tree ns pat) {i c : ℕ} (hi : i < ns.length) (hc : c ∈ (nodeAt ns i).childIdx.toList) :
    c < ns.length ∧ i < c ∧ (nodeAt ns c).parentIdx = some i ∧ pat c = pat i ++ [(nodeAt ns c).seg.elem] := by
  obtain ⟨hlt, h0, hp⟩ := (h.child i c hi).1 hc
  obtain ⟨p, hpc, hpp, hpat⟩ := h.parent c hlt h0
  obtain rfl : p = i := Option.some.inj (hpp.symm.trans hp)
  exact ⟨hlt, hpc, hp, hpat⟩

theorem Tree.pat_ne_nil (h : Tree ns pat) {i : ℕ} (hi : i < ns.length) (h0 : i ≠ 0) : pat i ≠ [] := by
  obtain ⟨p, -, -, hp⟩ := h.parent i hi h0
  simp [hp]

/-- the node with one element more is a child -/
theorem Tree.child_of_pat (h : Tree ns pat) {i j : ℕ} {e : Elem Bytes} (hi : i < ns.length) (hj : j < ns.length)
    (hp : pat j = pat i ++ [e]) : j ∈ (nodeAt ns i).childIdx.toList ∧ (nodeAt ns j).seg.elem = e := by
  have h0 : j ≠ 0 := by
    rintro rfl
    simp [h.root] at hp
  obtain ⟨p, hpj, hpp, hpat⟩ := h.parent j hj h0
  rw [hp] at hpat
  obtain ⟨hpi, he⟩ := List.append_inj' hpat rfl
  obtain rfl := h.inj i p hi (hpj.trans hj) hpi
  exact ⟨(h.child i j hi).2 ⟨hj, h0, hpp⟩, (List.singleton_inj.1 he).symm⟩

theorem findChild_some (h : Tree ns pat) {i c : ℕ} {t : SegmentTemplate} (hi : i < ns.length)
    (hc : findChild ns i t = some c) : c < ns.length ∧ c ≠ 0 ∧ pat c = pat i ++ [t.elem] := by
  have hmem := List.mem_of_find?_eq_some hc
  have hsame := List.find?_some hc
  rw [same_iff] at hsame
  obtain ⟨hlt, hic, -, hpat⟩ := h.of_child hi hmem
  exact ⟨hlt, by omega, by rw [hpat, hsame]⟩

theorem findChild_none (h : Tree ns pat) {i : ℕ} {t : SegmentTemplate} (hi : i < ns.length)
    (hc : findChild ns i t = none) {j : ℕ} (hj : j < ns.length) : pat j ≠ pat i ++ [t.elem] := by
  intro hp
  obtain ⟨hmem, he⟩ := h.child_of_pat hi hj hp
  have hno := List.find?_eq_none.1 hc j hmem
  rw [same_iff] at hno
  exact hno he

/-- the tree is in the templates, the parents and the children -/
theorem Tree.congr (h : Tree ns pat) {ns' : List (Node V)} (hl : ns'.length = ns.length)
    (hs : ∀ i, (nodeAt ns' i).seg = (nodeAt ns i).seg) (hp : ∀ i, (nodeAt ns' i).parentIdx = (nodeAt ns i).parentIdx)
    (hc : ∀ i, (nodeAt ns' i).childIdx = (nodeAt ns i).childIdx) : Tree ns' pat where
  pos := hl ▸ h.pos
  root := h.root
  parent i hi h0 := by
    rw [hs, hp]
    exact h.parent i (hl ▸ hi) h0
  child i c hi := by
    rw [hc, hp, hl]
    exact h.child i c (hl ▸ hi)
  nodup i hi := by
    rw [hc]
    exact h.nodup i (hl ▸ hi)
  sorted i hi := by
    simp only [hc, rankAt, hs]
    exact h.sorted i (hl ▸ hi)
  inj i j hi hj := h.inj i j (hl ▸ hi) (hl ▸ hj)

theorem setResource_seg (cur : ℕ) (path : Bytes) (v : V) (i : ℕ) :
    (nodeAt (setResource ns cur path v) i).seg = (nodeAt ns i).seg ∧
      (nodeAt (setResource ns cur path v) i).parentIdx = (nodeAt ns i).parentIdx ∧
      (nodeAt (setResource ns cur path v) i).childIdx = (nodeAt ns i).childIdx := by
  by_cases hi : cur = i
  · subst hi
    rcases Nat.lt_or_ge cur ns.length with hlt | hge
    · rw [setResource, nodeAt_modify_self hlt]
      exact ⟨rfl, rfl, rfl⟩
    · rw [setResource, List.modify_eq_self hge]
      exact ⟨rfl, rfl, rfl⟩
  · rw [setResource, nodeAt_modify_ne hi]
    exact ⟨rfl, rfl, rfl⟩

theorem Tree.setResource (h : Tree ns pat) (cur : ℕ) (path : Bytes) (v : V) : Tree (setResource ns cur path v) pat :=
  h.congr (by simp [Gss.Router.setResource]) (fun i => (setResource_seg cur path v i).1)
    (fun i => (setResource_seg cur path v i).2.1) (fun i => (setResource_seg cur path v i).2.2)

/-! ### A new child -/

/-- the new node -/
theorem nodeAt_addChild_new {p : ℕ} (hp : p < ns.length) (t : SegmentTemplate) :
    nodeAt (addChild ns p t) ns.length = { Node.make with seg := t, parentIdx := some p } := by
  rw [addChild, nodeAt_modify_ne hp.ne, nodeAt_append_length]

/-- the nodes but p are as before -/
theorem nodeAt_addChild_old {p i : ℕ} (hi : i < ns.length) (hip : p ≠ i) (t : SegmentTemplate) :
    nodeAt (addChild ns p t) i = nodeAt ns i := by
  rw [addChild, nodeAt_modify_ne hip, nodeAt_append_left hi]

/-- the templates are those of the longer vector -/
theorem rankAt_addChild_eq (ns : List (Node V)) (p i : ℕ) (t : SegmentTemplate) :
    rankAt (addChild ns p t) i = rankAt (ns ++ [{ Node.make with seg := t, parentIdx := some p }]) i := by
  set ns' := ns ++ [{ Node.make with seg := t, parentIdx := some p }] with hns
  rw [rankAt, rankAt, addChild, ← hns]
  by_cases hip : p = i
  · subst hip
    rcases Nat.lt_or_ge p ns'.length with hlt | hge
    · rw [nodeAt_modify_self hlt]
    · rw [List.modify_eq_self hge]
  · rw [nodeAt_modify_ne hip]

/-- p has one child more, before those with a greater rank -/
theorem nodeAt_addChild_parent {p : ℕ} (hp : p < ns.length) (t : SegmentTemplate) :
    ∃ cs l1 l2, nodeAt (addChild ns p t) p = { nodeAt ns p with childIdx := cs } ∧
      (nodeAt ns p).childIdx.toList = l1 ++ l2 ∧ cs.toList = l1 ++ ns.length :: l2 ∧
      (∀ y ∈ l2, rankAt (addChild ns p t) ns.length ≤ rankAt (addChild ns p t) y) ∧
      ∀ y, l1.getLast? = some y → rankAt (addChild ns p t) y ≤ rankAt (addChild ns p t) ns.length := by
  simp only [rankAt_addChild_eq]
  set ns' := ns ++ [{ Node.make with seg := t, parentIdx := some p }] with hns
  set cs := (nodeAt ns p).childIdx.pushBack ns.length with hcs
  have hlist : cs.toList = (nodeAt ns p).childIdx.toList ++ ns.length :: [] := by simp [hcs]
  have hn : (nodeAt ns p).childIdx.toList.length = cs.size - 1 := by
    rw [← cs.length_toList, hlist]
    simp
  obtain ⟨l1, l2, hl, hres, hgt, hle⟩ := sortLast_toList ns' (cs.size - 1) hlist hn
  refine ⟨sortLast ns' (cs.size - 1) cs, l1, l2, ?_, hl, by simpa using hres, fun y hy => (hgt y hy).le, hle⟩
  rw [addChild, nodeAt_modify_self (by rw [List.length_append]; omega), nodeAt_append_left hp]

theorem addChild_seg {p i : ℕ} (hp : p < ns.length) (hi : i < ns.length) (t : SegmentTemplate) :
    (nodeAt (addChild ns p t) i).seg = (nodeAt ns i).seg ∧
      (nodeAt (addChild ns p t) i).parentIdx = (nodeAt ns i).parentIdx ∧
      (nodeAt (addChild ns p t) i).resource = (nodeAt ns i).resource := by
  by_cases hip : p = i
  · subst hip
    obtain ⟨cs, -, -, he, -⟩ := nodeAt_addChild_parent hp t
    rw [he]
    exact ⟨rfl, rfl, rfl⟩
  · rw [nodeAt_addChild_old hi hip]
    exact ⟨rfl, rfl, rfl⟩

/-- the ranks of the old nodes stay -/
theorem rankAt_addChild {p i : ℕ} (hp : p < ns.length) (hi : i < ns.length) (t : SegmentTemplate) :
    rankAt (addChild ns p t) i = rankAt ns i := by
  rw [rankAt, rankAt, (addChild_seg hp hi t).1]

/-- **A new child keeps the tree**, when p has none with the same template. -/
theorem Tree.addChild (h : Tree ns pat) {p : ℕ} {t : SegmentTemplate} (hp : p < ns.length)
    (hc : findChild ns p t = none) :
    Tree (addChild ns p t) (Function.update pat ns.length (pat p ++ [t.elem])) := by
  have hold : ∀ i, i < ns.length → Function.update pat ns.length (pat p ++ [t.elem]) i = pat i := by
    intro i hi
    exact Function.update_of_ne hi.ne _ _
  have hnew := nodeAt_addChild_new hp t
  obtain ⟨cs, l1, l2, hpar, hl, hcs, hgt, hle⟩ := nodeAt_addChild_parent hp t
  have hlen := length_addChild ns p t
  have hkid : ∀ c ∈ (nodeAt ns p).childIdx.toList, c < ns.length := fun c hmem => (h.of_child hp hmem).1
  -- the old children of a node are in order still
  have hsort : ∀ i, i < ns.length → (nodeAt ns i).childIdx.toList.Pairwise fun c d =>
      rankAt (Gss.Router.addChild ns p t) c ≤ rankAt (Gss.Router.addChild ns p t) d := by
    intro i hi
    refine (h.sorted i hi).imp_of_mem ?_
    intro c d hc hd hcd
    rwa [rankAt_addChild hp (h.of_child hi hc).1, rankAt_addChild hp (h.of_child hi hd).1]
  -- the children of an old node
  have hchildren : ∀ i c, i < ns.length → (c ∈ (nodeAt (Gss.Router.addChild ns p t) i).childIdx.toList ↔
      c ∈ (nodeAt ns i).childIdx.toList ∨ i = p ∧ c = ns.length) := by
    intro i c hi
    by_cases hip : p = i
    · subst hip
      rw [hpar, hl]
      simp only [hcs, List.mem_append, List.mem_cons]
      tauto
    · rw [nodeAt_addChild_old hi hip]
      simp [Ne.symm hip]
  refine ⟨by omega, ?_, ?_, ?_, ?_, ?_, ?_⟩
  · rw [hold 0 h.pos]
    exact h.root
  · intro i hi h0
    rcases Nat.lt_or_ge i ns.length with hlt | hge
    · obtain ⟨q, hq, hqp, hpat⟩ := h.parent i hlt h0
      obtain ⟨hs, hpi, -⟩ := addChild_seg hp hlt t
      exact ⟨q, hq, by rw [hpi, hqp], by rw [hold i hlt, hold q (hq.trans hlt), hpat, hs]⟩
    · obtain rfl : i = ns.length := by omega
      exact ⟨p, hp, by rw [hnew], by rw [Function.update_self, hold p hp, hnew]⟩
  · intro i c hi
    rcases Nat.lt_or_ge i ns.length with hlt | hge
    · rw [hchildren i c hlt, h.child i c hlt]
      rcases Nat.lt_trichotomy c ns.length with hc | rfl | hc
      · rw [(addChild_seg hp hc t).2.1]
        simp only [hlen]
        constructor
        · rintro (hl | hr)
          · exact ⟨by omega, hl.2⟩
          · omega
        · intro hr
          exact Or.inl ⟨hc, hr.2⟩
      · rw [hnew, hlen]
        simp only [Option.some.injEq]
        constructor
        · rintro (hl | hr)
          · omega
          · exact ⟨by omega, by omega, hr.1.symm⟩
        · intro hr
          exact Or.inr ⟨hr.2.2.symm, trivial⟩
      · refine iff_of_false ?_ ?_ <;> omega
    · obtain rfl : i = ns.length := by omega
      rw [hnew]
      refine iff_of_false (by simp [Node.make]) ?_
      intro hr
      obtain ⟨hlt, h0, hpi⟩ := hr
      rcases Nat.lt_or_ge c ns.length with hc | hc
      · rw [(addChild_seg hp hc t).2.1] at hpi
        obtain ⟨q, hq, hqp, -⟩ := h.parent c hc h0
        rw [hqp, Option.some.injEq] at hpi
        omega
      · obtain rfl : c = ns.length := by omega
        rw [hnew, Option.some.injEq] at hpi
        omega
  · intro i hi
    rcases Nat.lt_or_ge i ns.length with hlt | hge
    · by_cases hip : p = i
      · subst hip
        rw [hpar]
        have hnot : ns.length ∉ l1 ++ l2 := by
          intro hmem
          exact absurd (hkid _ (hl ▸ hmem)) (by omega)
        have hnd : (l1 ++ l2).Nodup := hl ▸ h.nodup p hlt
        simp only [hcs]
        exact (List.nodup_middle.2 (List.nodup_cons.2 ⟨hnot, hnd⟩))
      · rw [nodeAt_addChild_old hlt hip]
        exact h.nodup i hlt
    · obtain rfl : i = ns.length := by omega
      rw [hnew]
      exact List.nodup_nil
  · intro i hi
    rcases Nat.lt_or_ge i ns.length with hlt | hge
    · by_cases hip : p = i
      · subst hip
        rw [hpar]
        simp only [hcs]
        refine pairwise_insert ?_ hle hgt
        rw [← hl]
        exact hsort p hlt
      · rw [nodeAt_addChild_old hlt hip]
        exact hsort i hlt
    · obtain rfl : i = ns.length := by omega
      rw [hnew]
      exact List.Pairwise.nil
  · have hfresh : ∀ j, j < ns.length → pat j ≠ pat p ++ [t.elem] := fun j hj => findChild_none h hp hc hj
    intro i j hi hj hij
    rcases Nat.lt_or_ge i ns.length with hilt | hige <;> rcases Nat.lt_or_ge j ns.length with hjlt | hjge
    · rw [hold i hilt, hold j hjlt] at hij
      exact h.inj i j hilt hjlt hij
    · obtain rfl : j = ns.length := by omega
      rw [hold i hilt, Function.update_self] at hij
      exact absurd hij (hfresh i hilt)
    · obtain rfl : i = ns.length := by omega
      rw [hold j hjlt, Function.update_self] at hij
      exact absurd hij.symm (hfresh j hjlt)
    · omega

/-! ### The trie -/

/-- the nodes as a trie -/
def Tree.trie (h : Tree ns pat) : Trie ℕ Bytes where
  mem := { i | i < ns.length }
  root := 0
  child i c := c ∈ (nodeAt ns i).childIdx.toList
  elem c := (nodeAt ns c).seg.elem
  pat := pat
  child_mem hi hc := (h.of_child hi hc).1
  parent {c} hc h0 := by
    obtain ⟨p, hpc, hp, -⟩ := h.parent c hc h0
    exact ⟨p, hpc.trans hc, (h.child p c (hpc.trans hc)).2 ⟨hc, h0, hp⟩⟩
  pat_root := h.root
  pat_child hi hc := (h.of_child hi hc).2.2.2
  inj hi hj := h.inj _ _ hi hj

/-- a node has one child for each element -/
theorem Tree.child_inj (h : Tree ns pat) {i c d : ℕ} (hi : i < ns.length) (hc : c ∈ (nodeAt ns i).childIdx.toList)
    (hd : d ∈ (nodeAt ns i).childIdx.toList) (he : (nodeAt ns c).seg.elem = (nodeAt ns d).seg.elem) : c = d := by
  obtain ⟨hc', -, -, hpc⟩ := h.of_child hi hc
  obtain ⟨hd', -, -, hpd⟩ := h.of_child hi hd
  exact h.inj c d hc' hd' (by rw [hpc, hpd, he])

end Tree

end Gss.Router
