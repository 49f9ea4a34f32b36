/-
A heap of cells with a ledger, and linked chains on it.

A cell is live between its creation and its deletion; an address may be used again after a deletion. Reading, writing or
deleting a cell that is not live is undefined behaviour: the operation returns none. Null is the pointer `none`.

`Heap` carries its ledger as a field: at each address, every creation has been deleted or is the live cell. So a heap in
which a node is deleted twice, or live without having been created, cannot be built.

- `store_eq`, `delete_eq`, `new_cells`: what each operation does to the cells.
- `Seg h link val p ns q`: following `link` from `p` meets exactly the nodes `ns` (addresses with values), then `q`.
- `seg_append`, `seg_frame`: chains are cut and joined at any node, and depend on their own cells only.
- `Seg.reaches_iff`: the cells met from the start of a chain are its nodes.
- `Seg.walk_eq`: following a chain to its end returns its values in order.
- `Seg.length_le`: a chain without repeated nodes is no longer than the heap's history.
- `Twin`: a chain linked both ways, with the rules for its ends (`Twin.last`, `Twin.extend`, `Twin.shrink`); `Twin.symm`
  turns each into the rule for the other end.
- `Edit h h' as bs`: from h to h' the nodes `as` have become the nodes `bs`, and no other cell has changed.
- `Clears h h' as`: from h to h' the cells `as` have been deleted in this order (`Clears.trans`).
-/
import Mathlib.Tactic

namespace Gss.Core

abbrev Addr := ℕ

abbrev Ptr := Option Addr

structure Heap (C : Type*) where
  cells : Addr → Option C
  created : List Addr
  deleted : List Addr
  ledger : ∀ a, created.count a = deleted.count a + (cells a).toList.length

namespace Heap

variable {C T : Type*}

def empty : Heap C := ⟨fun _ => none, [], [], by simp⟩

/-- *p -/
def load (h : Heap C) (p : Ptr) : Option C := p.bind h.cells

/-- the live cell at a becomes c -/
def put (h : Heap C) (a : Addr) (ha : (h.cells a).isSome) (c : C) : Heap C where
  cells := fun b => if b = a then some c else h.cells b
  created := h.created
  deleted := h.deleted
  ledger := fun b => by
    have := h.ledger b
    obtain ⟨c0, hc⟩ := Option.isSome_iff_exists.1 ha
    split_ifs with hb
    · subst hb; simpa [hc] using this
    · exact this

/-- the live cell at a goes -/
def free (h : Heap C) (a : Addr) (ha : (h.cells a).isSome) : Heap C where
  cells := fun b => if b = a then none else h.cells b
  created := h.created
  deleted := h.deleted ++ [a]
  ledger := fun b => by
    have := h.ledger b
    obtain ⟨c0, hc⟩ := Option.isSome_iff_exists.1 ha
    split_ifs with hb
    · subst hb; simpa [hc] using this
    · simp [this, Ne.symm hb]

/-- the allocation of a cell at an address that is not live -/
def new (h : Heap C) (a : Addr) (ha : h.cells a = none) (c : C) : Heap C where
  cells := fun b => if b = a then some c else h.cells b
  created := h.created ++ [a]
  deleted := h.deleted
  ledger := fun b => by
    have := h.ledger b
    split_ifs with hb
    · subst hb; simp [this, ha]
    · simp [this, Ne.symm hb]

/-- *p = c -/
def store (h : Heap C) (p : Ptr) (c : C) : Option (Heap C) :=
  match p with
  | none => none
  | some a => if ha : (h.cells a).isSome then some (h.put a ha c) else none

/-- delete p: nothing for null -/
def delete (h : Heap C) (p : Ptr) : Option (Heap C) :=
  match p with
  | none => some h
  | some a => if ha : (h.cells a).isSome then some (h.free a ha) else none

@[simp] theorem load_some (h : Heap C) (a : Addr) : h.load (some a) = h.cells a := rfl

@[simp] theorem new_cells (h : Heap C) (a : Addr) (ha : h.cells a = none) (c : C) (b : Addr) :
    (h.new a ha c).cells b = if b = a then some c else h.cells b := rfl

theorem store_eq {h : Heap C} {a : Addr} {c0 : C} (ha : h.cells a = some c0) (c : C) :
    ∃ h', h.store (some a) c = some h' ∧ ∀ b, h'.cells b = if b = a then some c else h.cells b :=
  ⟨h.put a (by simp [ha]) c, dif_pos (by simp [ha]), fun _ => rfl⟩

theorem delete_eq {h : Heap C} {a : Addr} {c0 : C} (ha : h.cells a = some c0) :
    ∃ h', h.delete (some a) = some h' ∧ ∀ b, h'.cells b = if b = a then none else h.cells b :=
  ⟨h.free a (by simp [ha]), dif_pos (by simp [ha]), fun _ => rfl⟩

/-- the history a deletion leaves -/
theorem delete_history {h h' : Heap C} {a : Addr} (hd : h.delete (some a) = some h') :
    h'.created = h.created ∧ h'.deleted = h.deleted ++ [a] := by
  simp only [delete] at hd
  split_ifs at hd
  cases hd
  exact ⟨rfl, rfl⟩

/-- the last cell created at a live address has not been deleted -/
theorem count_live {h : Heap C} {a : Addr} {c : C} (ha : h.cells a = some c) :
    h.created.count a = h.deleted.count a + 1 := by
  rw [h.ledger a, ha]
  rfl

/-- all cells created at a dead address have been deleted -/
theorem count_dead {h : Heap C} {a : Addr} (ha : h.cells a = none) : h.created.count a = h.deleted.count a := by
  rw [h.ledger a, ha]
  rfl

theorem mem_created {h : Heap C} {a : Addr} {c : C} (ha : h.cells a = some c) : a ∈ h.created := by
  rw [← List.count_pos_iff, count_live ha]
  exact Nat.succ_pos _

end Heap

/-- operator new: any rule that picks an address which is not live -/
structure Allocator (C : Type*) where
  pick : Heap C → Addr
  fresh : ∀ h : Heap C, h.cells (pick h) = none

/-- the rule that never uses an address twice -/
def Allocator.bump {C : Type*} : Allocator C where
  pick h := h.created.sum + 1
  fresh h := by
    cases hc : h.cells (h.created.sum + 1) with
    | none => rfl
    | some c =>
      have : h.created.sum + 1 ≤ h.created.sum := List.single_le_sum (by simp) _ (Heap.mem_created hc)
      exact absurd this (Nat.not_succ_le_self _)

def Allocator.new {C : Type*} (A : Allocator C) (h : Heap C) (c : C) : Heap C := h.new (A.pick h) (A.fresh h) c

/-! ## Chains -/

/-- the addresses of a list of nodes -/
def addrs {T : Type*} (ns : List (Addr × T)) : List Addr := ns.map Prod.fst

@[simp] theorem addrs_nil {T : Type*} : addrs ([] : List (Addr × T)) = [] := rfl

@[simp] theorem addrs_cons {T : Type*} (n : Addr × T) (ns : List (Addr × T)) : addrs (n :: ns) = n.1 :: addrs ns := rfl

@[simp] theorem addrs_append {T : Type*} (ns ms : List (Addr × T)) : addrs (ns ++ ms) = addrs ns ++ addrs ms := by
  simp [addrs]

@[simp] theorem addrs_reverse {T : Type*} (ns : List (Addr × T)) : addrs ns.reverse = (addrs ns).reverse := by
  simp [addrs]

@[simp] theorem length_addrs {T : Type*} (ns : List (Addr × T)) : (addrs ns).length = ns.length := by simp [addrs]

section Chain

variable {C T : Type*} (h : Heap C) (link : C → Ptr) (val : C → T)

/-- following `link` from p meets exactly the nodes ns, then q -/
def Seg : Ptr → List (Addr × T) → Ptr → Prop
  | p, [], q => p = q
  | p, n :: ns, q => p = some n.1 ∧ ∃ c, h.cells n.1 = some c ∧ val c = n.2 ∧ Seg (link c) ns q

/-- the values met from p along `link`, up to null -/
def walk : ℕ → Ptr → Option (List T)
  | 0, _ => none
  | _ + 1, none => some []
  | fuel + 1, some a => (h.cells a).bind fun c => (walk fuel (link c)).map (val c :: ·)

variable {h link val}

theorem seg_append {xs ys : List (Addr × T)} {p q : Ptr} :
    Seg h link val p (xs ++ ys) q ↔ ∃ r, Seg h link val p xs r ∧ Seg h link val r ys q := by
  induction xs generalizing p with
  | nil => simp [Seg]
  | cons n xs ih =>
    simp only [List.cons_append, Seg, ih]
    constructor
    · rintro ⟨hp, c, hc, hv, r, h1, h2⟩
      exact ⟨r, ⟨hp, c, hc, hv, h1⟩, h2⟩
    · rintro ⟨r, ⟨hp, c, hc, hv, h1⟩, h2⟩
      exact ⟨hp, c, hc, hv, r, h1, h2⟩

theorem Seg.live {p q : Ptr} {ns : List (Addr × T)} (hs : Seg h link val p ns q) {a : Addr} (ha : a ∈ addrs ns) :
    ∃ c, h.cells a = some c := by
  induction ns generalizing p with
  | nil => cases ha
  | cons n ns ih =>
    obtain ⟨-, c, hc, -, hs⟩ := hs
    rcases List.mem_cons.1 ha with rfl | ha
    · exact ⟨c, hc⟩
    · exact ih hs ha

/-- **Frame rule.** A chain depends on its own cells only. -/
theorem seg_frame {h' : Heap C} {p q : Ptr} {ns : List (Addr × T)} (hs : Seg h link val p ns q)
    (hf : ∀ a ∈ addrs ns, h'.cells a = h.cells a) : Seg h' link val p ns q := by
  induction ns generalizing p with
  | nil => exact hs
  | cons n ns ih =>
    obtain ⟨hp, c, hc, hv, hs⟩ := hs
    refine ⟨hp, c, ?_, hv, ih hs fun a ha => hf a (List.mem_cons_of_mem _ ha)⟩
    rw [hf n.1 (by simp), hc]

theorem Seg.walk_eq {p : Ptr} {ns : List (Addr × T)} (hs : Seg h link val p ns none) {fuel : ℕ}
    (hf : ns.length < fuel) :
    walk h link val fuel p = some (ns.map Prod.snd) := by
  induction ns generalizing p fuel with
  | nil =>
    obtain rfl : p = none := hs
    obtain ⟨k, rfl⟩ : ∃ k, fuel = k + 1 := ⟨fuel - 1, by simp at hf; omega⟩
    rfl
  | cons n ns ih =>
    obtain ⟨rfl, c, hc, hv, hs⟩ := hs
    obtain ⟨k, rfl⟩ : ∃ k, fuel = k + 1 := ⟨fuel - 1, by simp at hf; omega⟩
    simp [walk, hc, hv, ih hs (by simpa using hf)]

theorem Seg.length_le {p q : Ptr} {ns : List (Addr × T)} (hs : Seg h link val p ns q) (hn : (addrs ns).Nodup) :
    ns.length ≤ h.created.length := by
  have hsub : addrs ns ⊆ h.created := fun a ha => by
    obtain ⟨c, hc⟩ := hs.live ha
    exact Heap.mem_created hc
  simpa using (List.subperm_of_subset hn hsub).length_le

/-- the cell a is met when `link` is followed from p -/
inductive Reaches (h : Heap C) (link : C → Ptr) : Ptr → Addr → Prop where
  | here {a : Addr} {c : C} (hc : h.cells a = some c) : Reaches h link (some a) a
  | next {a b : Addr} {c : C} (hc : h.cells b = some c) (hr : Reaches h link (link c) a) : Reaches h link (some b) a

theorem Seg.reaches_iff {p : Ptr} {ns : List (Addr × T)} (hs : Seg h link val p ns none) (a : Addr) :
    Reaches h link p a ↔ a ∈ addrs ns := by
  induction ns generalizing p with
  | nil =>
    obtain rfl : p = none := hs
    exact iff_of_false (fun hr => nomatch hr) (by simp)
  | cons n ns ih =>
    obtain ⟨rfl, c, hc, -, hs⟩ := hs
    rw [addrs_cons, List.mem_cons, ← ih hs]
    constructor
    · intro hr
      cases hr with
      | here => exact Or.inl rfl
      | next hc' hr =>
        cases hc.symm.trans hc'
        exact Or.inr hr
    · rintro (rfl | hr)
      · exact .here hc
      · exact .next hc hr

end Chain

/-! ## Chains linked both ways -/

section Twin

variable {C T : Type*} {h h' : Heap C} {f g : C → Ptr} {val : C → T} {p q : Ptr} {ns : List (Addr × T)}

/-- following f from p meets ns, following g from q meets ns backwards, and no node is met twice -/
structure Twin (h : Heap C) (f g : C → Ptr) (val : C → T) (p q : Ptr) (ns : List (Addr × T)) : Prop where
  fwd : Seg h f val p ns none
  bwd : Seg h g val q ns.reverse none
  nodup : (addrs ns).Nodup

theorem Twin.symm (ht : Twin h f g val p q ns) : Twin h g f val q p ns.reverse :=
  ⟨ht.bwd, by simpa using ht.fwd, by simpa using ht.nodup⟩

theorem twin_nil (h : Heap C) (f g : C → Ptr) (val : C → T) : Twin h f g val none none [] :=
  ⟨rfl, rfl, by simp⟩

theorem Twin.ends_nil (ht : Twin h f g val p q []) : p = none ∧ q = none := ⟨ht.fwd, ht.bwd⟩

theorem twin_single {a : Addr} {v : T} {c : C} (hc : h.cells a = some c) (hv : val c = v) (hf : f c = none)
    (hg : g c = none) : Twin h f g val (some a) (some a) [(a, v)] :=
  ⟨⟨rfl, c, hc, hv, hf⟩, ⟨rfl, c, hc, hv, hg⟩, by simp⟩

/-- the last node, and the two chains without it -/
theorem Twin.last {t : Addr} {w : T} (ht : Twin h f g val p q (ns ++ [(t, w)])) :
    ∃ c, h.cells t = some c ∧ q = some t ∧ val c = w ∧ f c = none ∧ Seg h f val p ns (some t) ∧
      Seg h g val (g c) ns.reverse none ∧ t ∉ addrs ns ∧ (addrs ns).Nodup := by
  obtain ⟨r, h1, rfl, c, hc, hv, hn⟩ := seg_append.1 ht.fwd
  have h2 := ht.bwd
  rw [List.reverse_append, List.reverse_singleton, List.singleton_append] at h2
  obtain ⟨hq, c', hc', -, h3⟩ := h2
  obtain rfl : c' = c := Option.some.inj (hc'.symm.trans hc)
  have hd := ht.nodup
  rw [addrs_append, List.nodup_append] at hd
  refine ⟨c', hc, hq, hv, hn, h1, h3, ?_, hd.1⟩
  intro hm
  exact hd.2.2 t hm t (by simp) rfl

/-- the first node; `Twin.symm` makes it the last one -/
theorem Twin.first (ht : Twin h f g val p q ns) (hne : ns ≠ []) :
    ∃ b c, p = some b ∧ h.cells b = some c ∧ g c = none ∧ ns.head? = some (b, val c) := by
  cases ns with
  | nil => exact absurd rfl hne
  | cons n ns =>
    have h1 := ht.symm
    rw [List.reverse_cons] at h1
    obtain ⟨c, hc, hp, hv, hg, -⟩ := h1.last
    exact ⟨n.1, c, hp, hc, hg, by rw [List.head?_cons, hv]⟩

/-- **A node is linked in after the last one.** -/
theorem Twin.extend {t a : Addr} {w v : T} {ct ct' ca : C} (ht : Twin h f g val p q (ns ++ [(t, w)]))
    (hct : h.cells t = some ct) (ha : a ∉ addrs (ns ++ [(t, w)]))
    (hfr : ∀ b ∈ addrs ns, h'.cells b = h.cells b) (ht' : h'.cells t = some ct') (htv : val ct' = val ct)
    (htf : f ct' = some a) (htg : g ct' = g ct) (ha' : h'.cells a = some ca) (hav : val ca = v) (haf : f ca = none)
    (hag : g ca = some t) : Twin h' f g val p (some a) (ns ++ [(t, w)] ++ [(a, v)]) := by
  obtain ⟨c, hc, -, hv, -, h1, h2, -, -⟩ := ht.last
  obtain rfl : c = ct := Option.some.inj (hc.symm.trans hct)
  have hfr' : ∀ b ∈ addrs ns.reverse, h'.cells b = h.cells b := fun b hb => hfr b (by simpa using hb)
  refine ⟨?_, ?_, ?_⟩
  · rw [List.append_assoc]
    refine seg_append.2 ⟨some t, seg_frame h1 hfr, rfl, ct', ht', htv.trans hv, ?_⟩
    exact ⟨htf, ca, ha', hav, haf⟩
  · rw [List.reverse_append, List.reverse_append]
    refine ⟨rfl, ca, ha', hav, hag, ct', ht', htv.trans hv, ?_⟩
    rw [htg]
    exact seg_frame h2 hfr'
  · rw [addrs_append, List.nodup_append]
    refine ⟨ht.nodup, by simp, ?_⟩
    intro x hx y hy hxy
    subst hxy
    obtain rfl : x = a := by simpa using hy
    exact ha hx

/-- **The last node is linked out.** -/
theorem Twin.shrink {s t : Addr} {u w : T} {cs cs' : C} (ht : Twin h f g val p q (ns ++ [(s, u)] ++ [(t, w)]))
    (hcs : h.cells s = some cs) (hfr : ∀ b ∈ addrs ns, h'.cells b = h.cells b) (hs' : h'.cells s = some cs')
    (hsv : val cs' = val cs) (hsf : f cs' = none) (hsg : g cs' = g cs) :
    Twin h' f g val p (some s) (ns ++ [(s, u)]) := by
  obtain ⟨c, -, -, -, -, h1, h2, -, hn⟩ := ht.last
  obtain ⟨r, h3, rfl, c1, hc1, hv1, -⟩ := seg_append.1 h1
  obtain rfl : c1 = cs := Option.some.inj (hc1.symm.trans hcs)
  rw [List.reverse_append, List.reverse_singleton, List.singleton_append] at h2
  obtain ⟨-, c2, hc2, -, h4⟩ := h2
  obtain rfl : c2 = c1 := Option.some.inj (hc2.symm.trans hcs)
  refine ⟨seg_append.2 ⟨some s, seg_frame h3 hfr, rfl, cs', hs', hsv.trans hv1, hsf⟩, ?_, hn⟩
  rw [List.reverse_append, List.reverse_singleton, List.singleton_append]
  refine ⟨rfl, cs', hs', hsv.trans hv1, ?_⟩
  rw [hsg]
  exact seg_frame h4 fun b hb => hfr b (by simpa using hb)

end Twin

/-! ## Edits -/

/-- from h to h' the nodes `as` have become the nodes `bs` -/
structure Edit {C : Type*} (h h' : Heap C) (as bs : List Addr) : Prop where
  frame : ∀ a, a ∉ as → a ∉ bs → h'.cells a = h.cells a
  fresh : ∀ a ∈ bs, a ∈ as ∨ h.cells a = none
  gone : ∀ a ∈ as, a ∉ bs → h'.cells a = none

namespace Edit

variable {C T : Type*} {h h' h'' : Heap C} {as bs cs : List Addr}

theorem refl (h : Heap C) (as : List Addr) : Edit h h as as :=
  ⟨fun _ _ _ => rfl, fun _ ha => Or.inl ha, fun _ ha hn => absurd ha hn⟩

theorem trans (e : Edit h h' as bs) (e' : Edit h' h'' bs cs) : Edit h h'' as cs := by
  refine ⟨?_, ?_, ?_⟩
  · intro a ha hc
    by_cases hb : a ∈ bs
    · rw [e'.gone a hb hc, (e.fresh a hb).resolve_left ha]
    · rw [e'.frame a hb hc, e.frame a ha hb]
  · intro a hc
    by_cases ha : a ∈ as
    · exact Or.inl ha
    · refine Or.inr ?_
      by_cases hb : a ∈ bs
      · exact (e.fresh a hb).resolve_left ha
      · rw [← e.frame a ha hb]; exact (e'.fresh a hc).resolve_left hb
  · intro a ha hc
    by_cases hb : a ∈ bs
    · exact e'.gone a hb hc
    · rw [e'.frame a hb hc, e.gone a ha hb]

theorem congr {as' bs' : List Addr} (e : Edit h h' as bs) (ha : ∀ x, x ∈ as' ↔ x ∈ as) (hb : ∀ x, x ∈ bs' ↔ x ∈ bs) :
    Edit h h' as' bs' := by
  refine ⟨fun x h1 h2 => e.frame x ?_ ?_, fun x h1 => ?_, fun x h1 h2 => e.gone x ?_ ?_⟩
  · rwa [← ha]
  · rwa [← hb]
  · rw [ha]; exact e.fresh x ((hb x).1 h1)
  · rwa [← ha]
  · rwa [← hb]

/-- one node added -/
theorem insert {a : Addr} (ha : h.cells a = none) (hb : ∀ x, x ∈ bs ↔ x ∈ as ∨ x = a)
    (hf : ∀ x, x ∉ as → x ≠ a → h'.cells x = h.cells x) : Edit h h' as bs := by
  refine ⟨fun x hx hxb => hf x hx fun he => hxb ((hb x).2 (Or.inr he)), ?_, ?_⟩
  · intro x hx
    rcases (hb x).1 hx with h1 | rfl
    · exact Or.inl h1
    · exact Or.inr ha
  · intro x hx hxb
    exact absurd ((hb x).2 (Or.inl hx)) hxb

/-- nodes removed -/
theorem remove (hb : bs ⊆ as) (hf : ∀ x, x ∉ as → h'.cells x = h.cells x)
    (hg : ∀ x ∈ as, x ∉ bs → h'.cells x = none) : Edit h h' as bs :=
  ⟨fun x hx _ => hf x hx, fun _ hx => Or.inl (hb hx), hg⟩

/-- a live node outside the edited ones is not among the new ones either -/
theorem disjoint (e : Edit h h' as bs) {a : Addr} {c : C} (ha : a ∉ as) (hc : h.cells a = some c) : a ∉ bs := by
  intro hb
  rcases e.fresh a hb with h1 | h1
  · exact ha h1
  · rw [h1] at hc; cases hc

/-- a chain outside the edited nodes is untouched -/
theorem seg (e : Edit h h' as bs) {link : C → Ptr} {val : C → T} {p q : Ptr} {ns : List (Addr × T)}
    (hs : Seg h link val p ns q) (hd : ∀ a ∈ addrs ns, a ∉ as) : Seg h' link val p ns q := by
  apply seg_frame hs
  intro a ha
  obtain ⟨c, hc⟩ := hs.live ha
  exact e.frame a (hd a ha) (e.disjoint (hd a ha) hc)

theorem twin (e : Edit h h' as bs) {f g : C → Ptr} {val : C → T} {p q : Ptr} {ns : List (Addr × T)}
    (ht : Twin h f g val p q ns) (hd : ∀ a ∈ addrs ns, a ∉ as) : Twin h' f g val p q ns :=
  ⟨e.seg ht.fwd hd, e.seg ht.bwd fun a ha => hd a (by simpa using ha), ht.nodup⟩

end Edit

/-! ## Deletions -/

/-- from h to h' the cells `as` have been deleted, in this order, and nothing else has happened -/
structure Clears {C : Type*} (h h' : Heap C) (as : List Addr) : Prop where
  cells : ∀ x, h'.cells x = if x ∈ as then none else h.cells x
  created : h'.created = h.created
  deleted : h'.deleted = h.deleted ++ as

section Clears

variable {C : Type*} {h h' h'' : Heap C} {as bs : List Addr}

theorem clears_refl (h : Heap C) : Clears h h [] := ⟨by simp, rfl, by simp⟩

theorem clears_delete {a : Addr} (hd : h.delete (some a) = some h')
    (hk : ∀ x, h'.cells x = if x = a then none else h.cells x) : Clears h h' [a] := by
  obtain ⟨hc, hl⟩ := Heap.delete_history hd
  exact ⟨by simpa using hk, hc, hl⟩

theorem Clears.trans (c : Clears h h' as) (d : Clears h' h'' bs) : Clears h h'' (as ++ bs) := by
  refine ⟨?_, d.created.trans c.created, ?_⟩
  · intro x
    rw [d.cells, c.cells]
    by_cases ha : x ∈ as <;> simp [ha]
  · rw [d.deleted, c.deleted, List.append_assoc]

theorem Clears.edit (c : Clears h h' as) : Edit h h' as [] := by
  apply Edit.remove (by simp)
  · intro x hx
    rw [c.cells, if_neg hx]
  · intro x hx _
    rw [c.cells, if_pos hx]

end Clears

end Gss.Core
