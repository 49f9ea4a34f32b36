/-
`list<T>` (containers/list.hpp): the doubly linked list that holds the task queue, over an explicit heap of nodes.

Every member is translated statement by statement. A read, a write or a delete of a node that is not live, a failed
assertion and a loop that does not end are undefined: the function returns none. An exception is `.error`, with the
state at the throw. Loops have as fuel one more than the number of nodes ever created, which is more than any chain has.

`Rep h l ns`: the object l owns the nodes ns: following next_ from head_ meets ns, following prev_ from tail_ meets ns
backwards. Each member has one lemma (`pushBack_spec`, ..): on a represented list it returns, its result is what the
sequence dictates, the object represents the new sequence, and it edits no nodes but its own.

- `eraseAll_exact`: erase_all ends after one iteration less than there are nodes, deletes each node of the list once,
  reads no deleted node, and leaves the others.
-/
import Gss.Core.Heap

namespace Gss.Containers

open Gss.Core

variable {T : Type}

/-! ## Model -/

structure Node (T : Type) where
  /-- value_ -/
  value : T
  /-- next_ -/
  next : Ptr
  /-- prev_ -/
  prev : Ptr
deriving DecidableEq, Repr

/-- a list object: head_ and tail_ -/
structure Obj where
  head : Ptr
  tail : Ptr
deriving DecidableEq, Repr

/-- std::out_of_range -/
structure OutOfRange where
  what : String
deriving DecidableEq, Repr

/-- list::iterator -/
structure Iterator where
  nodePtr : Ptr
deriving DecidableEq, Repr

/-- the default constructor -/
def make : Obj := ⟨none, none⟩

def begin (l : Obj) : Iterator := ⟨l.head⟩

def «end» : Iterator := ⟨none⟩

namespace Iterator

/-- operator* -/
def deref (h : Heap (Node T)) (it : Iterator) : Option T := (h.load it.nodePtr).map Node.value

/-- operator++ -/
def incr (h : Heap (Node T)) (it : Iterator) : Option Iterator := (h.load it.nodePtr).map fun n => ⟨n.next⟩

end Iterator

/-- while (head_ != tail_) of erase_all -/
def eraseLoop : ℕ → Heap (Node T) → Obj → Option (Heap (Node T) × Obj)
  | 0, _, _ => none
  | fuel + 1, h, l =>
    if l.head ≠ l.tail then do
      let oldTail := l.tail
      let n ← h.load l.tail
      let h ← h.delete oldTail
      eraseLoop fuel h { l with tail := n.prev }
    else some (h, l)

def eraseAll (h : Heap (Node T)) (l : Obj) : Option (Heap (Node T) × Obj) :=
  if l.head = none then some (h, l)
  else do
    let (h, l) ← eraseLoop (h.created.length + 1) h l
    let h ← h.delete l.head
    return (h, ⟨none, none⟩)

/-- assert(!head_->prev_ && !tail_->next_) -/
def assertEnds (h : Heap (Node T)) (l : Obj) : Option Unit := do
  let hd ← h.load l.head
  let tl ← h.load l.tail
  guard (hd.prev = none ∧ tl.next = none)

def pushBack (A : Allocator (Node T)) (h : Heap (Node T)) (l : Obj) (value : T) : Option (Heap (Node T) × Obj) :=
  let newNode : Ptr := some (A.pick h)
  let h := A.new h ⟨value, none, none⟩
  if l.head = none then some (h, ⟨newNode, newNode⟩)
  else do
    assertEnds h l
    let oldTail := l.tail
    let n ← h.load newNode
    let h ← h.store newNode { n with prev := oldTail }
    let t ← h.load oldTail
    let h ← h.store oldTail { t with next := newNode }
    return (h, { l with tail := newNode })

def pushFront (A : Allocator (Node T)) (h : Heap (Node T)) (l : Obj) (value : T) : Option (Heap (Node T) × Obj) :=
  let newNode : Ptr := some (A.pick h)
  let h := A.new h ⟨value, none, none⟩
  if l.head = none then some (h, ⟨newNode, newNode⟩)
  else do
    assertEnds h l
    let oldHead := l.head
    let n ← h.load newNode
    let h ← h.store newNode { n with next := oldHead }
    let t ← h.load oldHead
    let h ← h.store oldHead { t with prev := newNode }
    return (h, { l with head := newNode })

def popBack (h : Heap (Node T)) (l : Obj) : Option (Except OutOfRange Unit × Heap (Node T) × Obj) :=
  if l.head = none then some (.error ⟨"Stack underflow."⟩, h, l)
  else if l.tail = l.head then do
    let h ← h.delete l.head
    return (.ok (), h, ⟨none, none⟩)
  else do
    let oldTail := l.tail
    let n ← h.load l.tail
    let tail := n.prev
    let t ← h.load tail
    let h ← h.store tail { t with next := none }
    let h ← h.delete oldTail
    return (.ok (), h, { l with tail := tail })

def popFront (h : Heap (Node T)) (l : Obj) : Option (Except OutOfRange Unit × Heap (Node T) × Obj) :=
  if l.head = none then some (.error ⟨"Empty list."⟩, h, l)
  else if l.tail = l.head then do
    let h ← h.delete l.head
    return (.ok (), h, ⟨none, none⟩)
  else do
    let oldHead := l.head
    let n ← h.load l.head
    let head := n.next
    let t ← h.load head
    let h ← h.store head { t with prev := none }
    let h ← h.delete oldHead
    return (.ok (), h, { l with head := head })

def back (h : Heap (Node T)) (l : Obj) : Option (Except OutOfRange T) :=
  if l.tail = none then some (.error ⟨"Empty list"⟩) else (h.load l.tail).map fun n => .ok n.value

def front (h : Heap (Node T)) (l : Obj) : Option (Except OutOfRange T) :=
  if l.head = none then some (.error ⟨"Empty list."⟩) else (h.load l.head).map fun n => .ok n.value

/-- for (n = head_; n != nullptr; n = n->next_, count++) -/
def sizeLoop (h : Heap (Node T)) : ℕ → Ptr → ℕ → Option ℕ
  | 0, _, _ => none
  | _ + 1, none, count => some count
  | fuel + 1, some a, count => do
    let n ← h.load (some a)
    sizeLoop h fuel n.next (count + 1)

def size (h : Heap (Node T)) (l : Obj) : Option ℕ := sizeLoop h (h.created.length + 1) l.head 0

def empty (h : Heap (Node T)) (l : Obj) : Option Bool := (size h l).map fun n => n = 0

/-- for (node = head_; node != nullptr; node = node->next_) ss << node->value_ << (node == tail_ ? "" : "->") -/
def printLoop (h : Heap (Node T)) (shows : T → String) (tail : Ptr) : ℕ → Ptr → String → Option String
  | 0, _, _ => none
  | _ + 1, none, ss => some ss
  | fuel + 1, some a, ss => do
    let n ← h.load (some a)
    printLoop h shows tail fuel n.next (ss ++ shows n.value ++ if some a = tail then "" else "->")

/-- print; `shows` is operator<< of T -/
def print (h : Heap (Node T)) (shows : T → String) (l : Obj) : Option String :=
  if l.head = none then some "" else printLoop h shows l.tail (h.created.length + 1) l.head ""

/-- for (T elem : l) collect elem -/
def iterateLoop (h : Heap (Node T)) : ℕ → Iterator → List T → Option (List T)
  | 0, _, _ => none
  | fuel + 1, it, seen =>
    if it ≠ «end» then do
      let elem ← it.deref h
      let it ← it.incr h
      iterateLoop h fuel it (seen ++ [elem])
    else some seen

def iterate (h : Heap (Node T)) (l : Obj) : Option (List T) := iterateLoop h (h.created.length + 1) (begin l) []

/-- for (T elem : other) push_back(elem) -/
def copyLoop (A : Allocator (Node T)) : ℕ → Heap (Node T) → Iterator → Obj → Option (Heap (Node T) × Obj)
  | 0, _, _, _ => none
  | fuel + 1, h, it, l =>
    if it ≠ «end» then do
      let elem ← it.deref h
      let (h, l) ← pushBack A h l elem
      let it ← it.incr h
      copyLoop A fuel h it l
    else some (h, l)

/-- the copy constructor -/
def copy (A : Allocator (Node T)) (h : Heap (Node T)) (other : Obj) : Option (Heap (Node T) × Obj) :=
  copyLoop A (h.created.length + 1) h (begin other) make

/-- the move assignment: this, and other -/
def moveAssign (l other : Obj) : Obj × Obj := ({ l with head := other.head, tail := other.tail }, ⟨none, none⟩)

/-- the destructor -/
def destroy (h : Heap (Node T)) (l : Obj) : Option (Heap (Node T)) := (eraseAll h l).map Prod.fst

/-! ## Representation -/

abbrev Nodes (T : Type) := List (Addr × T)

/-- the object l owns the nodes ns -/
abbrev Rep (h : Heap (Node T)) (l : Obj) (ns : Nodes T) : Prop :=
  Twin h Node.next Node.prev Node.value l.head l.tail ns

/-- a member that took a list owning ns to the state r has made it the sequence xs, and edited its own nodes only -/
def Becomes (h : Heap (Node T)) (ns : Nodes T) (r : Heap (Node T) × Obj) (xs : List T) : Prop :=
  ∃ ns' : Nodes T, Rep r.1 r.2 ns' ∧ ns'.map Prod.snd = xs ∧ Edit h r.1 (addrs ns) (addrs ns')

theorem Rep.head_none_iff {h : Heap (Node T)} {l : Obj} {ns : Nodes T} (hr : Rep h l ns) :
    l.head = none ↔ ns = [] := by
  refine ⟨fun hn => by_contra fun hne => ?_, fun hn => (hn ▸ hr).ends_nil.1⟩
  obtain ⟨b, c, hp, -⟩ := hr.first hne
  rw [hn] at hp
  cases hp

/-! ## Insertion -/

/-- the assertion of the insertions holds, also after the new node is made -/
theorem assertEnds_new (A : Allocator (Node T)) {h : Heap (Node T)} {l : Obj} {ns : Nodes T} (hr : Rep h l ns)
    (hne : ns ≠ []) (c0 : Node T) : assertEnds (A.new h c0) l = some () := by
  have live : ∀ {a : Addr} {c : Node T}, h.cells a = some c → (A.new h c0).cells a = some c := by
    intro a c hc
    have ha : a ≠ A.pick h := by
      rintro rfl
      rw [A.fresh h] at hc
      cases hc
    simp [Allocator.new, ha, hc]
  obtain ⟨b, cb, hp, hcb, hb, -⟩ := hr.first hne
  obtain ⟨t, ct, hq, hct, ht, -⟩ := hr.symm.first (by simpa using hne)
  simp [assertEnds, hp, hq, live hcb, live hct, hb, ht, guard]

/-- the first insertion, at either end -/
theorem push_nil (A : Allocator (Node T)) (h : Heap (Node T)) (v : T) :
    Becomes h [] (A.new h ⟨v, none, none⟩, ⟨some (A.pick h), some (A.pick h)⟩) [v] := by
  refine ⟨[(A.pick h, v)], twin_single (c := ⟨v, none, none⟩) (by simp [Allocator.new]) rfl rfl rfl, rfl, ?_⟩
  apply Edit.insert (A.fresh h) (by simp)
  intro x _ hx
  simp [Allocator.new, hx]

/-- **Insertion after the last node t**, in either direction: the new node is written as c1, then t as c2. -/
theorem push_last (A : Allocator (Node T)) {h : Heap (Node T)} {f g : Node T → Ptr} {p q : Ptr} {ns : Nodes T}
    {t : Addr} {w v : T} {ct : Node T} (hr : Twin h f g Node.value p q (ns ++ [(t, w)])) (hct : h.cells t = some ct)
    (c0 c1 c2 : Node T) (h1v : c1.value = v) (h1f : f c1 = none) (h1g : g c1 = some t) (h2v : c2.value = ct.value)
    (h2f : f c2 = some (A.pick h)) (h2g : g c2 = g ct) :
    ∃ h1 h2, (A.new h c0).store (some (A.pick h)) c1 = some h1 ∧ h1.cells t = some ct ∧ h1.store (some t) c2 = some h2 ∧
      Twin h2 f g Node.value p (some (A.pick h)) (ns ++ [(t, w)] ++ [(A.pick h, v)]) ∧
      Edit h h2 (addrs (ns ++ [(t, w)])) (addrs (ns ++ [(t, w)] ++ [(A.pick h, v)])) := by
  have dead : ∀ x ∈ addrs (ns ++ [(t, w)]), x ≠ A.pick h := by
    rintro x hx rfl
    obtain ⟨c, hc⟩ := hr.fwd.live hx
    rw [A.fresh h] at hc
    cases hc
  have hta := dead t (by simp)
  have hnew : (A.new h c0).cells (A.pick h) = some c0 := by simp [Allocator.new]
  obtain ⟨h1, e1, k1⟩ := Heap.store_eq hnew c1
  have ht1 : h1.cells t = some ct := by simp [k1, hta, Allocator.new, hct]
  obtain ⟨h2, e2, k2⟩ := Heap.store_eq ht1 c2
  have same : ∀ x, x ≠ t → x ≠ A.pick h → h2.cells x = h.cells x := by
    intro x hx ha
    simp [k2, k1, hx, ha, Allocator.new]
  obtain ⟨-, -, -, -, -, -, -, htn, -⟩ := hr.last
  have ht2 : h2.cells t = some c2 := by simp [k2]
  have ha2 : h2.cells (A.pick h) = some c1 := by simp [k2, k1, hta.symm]
  refine ⟨h1, h2, e1, ht1, e2, ?_, ?_⟩
  · refine hr.extend hct (fun ha => dead _ ha rfl) (fun b hb => ?_) ht2 h2v h2f h2g ha2 h1v h1f h1g
    exact same b (fun he => htn (he ▸ hb)) (dead b (by simp at hb ⊢; tauto))
  · refine Edit.insert (A.fresh h) (fun x => by simp [or_assoc]) fun x hx ha => same x (fun he => hx (by simp [he])) ha

theorem pushBack_spec (A : Allocator (Node T)) {h : Heap (Node T)} {l : Obj} {ns : Nodes T} (hr : Rep h l ns) (v : T) :
    ∃ r, pushBack A h l v = some r ∧ Becomes h ns r (ns.map Prod.snd ++ [v]) := by
  rcases ns.eq_nil_or_concat with rfl | ⟨init, ⟨t, w⟩, rfl⟩
  · exact ⟨_, if_pos (hr.head_none_iff.2 rfl), push_nil A h v⟩
  rw [List.concat_eq_append] at hr ⊢
  obtain ⟨ct, hct, hq, -⟩ := hr.last
  obtain ⟨h1, h2, e1, k1, e2, ht, he⟩ := push_last A hr hct ⟨v, none, none⟩ ⟨v, none, some t⟩
    { ct with next := some (A.pick h) } rfl rfl rfl rfl rfl rfl
  have hne : l.head ≠ none := fun hn => by simpa using hr.head_none_iff.1 hn
  have hnew : (A.new h ⟨v, none, none⟩).cells (A.pick h) = some ⟨v, none, none⟩ := by simp [Allocator.new]
  refine ⟨(h2, { l with tail := some (A.pick h) }), ?_, _, ht, by simp, he⟩
  simp [pushBack, hne, assertEnds_new A hr (by simp), hq, hnew, e1, k1, e2]

theorem pushFront_spec (A : Allocator (Node T)) {h : Heap (Node T)} {l : Obj} {ns : Nodes T} (hr : Rep h l ns) (v : T) :
    ∃ r, pushFront A h l v = some r ∧ Becomes h ns r (v :: ns.map Prod.snd) := by
  cases ns with
  | nil => exact ⟨_, if_pos (hr.head_none_iff.2 rfl), push_nil A h v⟩
  | cons n ns =>
    obtain ⟨b, u⟩ := n
    have hs : Twin h Node.prev Node.next Node.value l.tail l.head (ns.reverse ++ [(b, u)]) := by simpa using hr.symm
    obtain ⟨cb, hcb, hp, -⟩ := hs.last
    obtain ⟨h1, h2, e1, k1, e2, ht, he⟩ := push_last A hs hcb ⟨v, none, none⟩ ⟨v, some b, none⟩
      { cb with prev := some (A.pick h) } rfl rfl rfl rfl rfl rfl
    have hnew : (A.new h ⟨v, none, none⟩).cells (A.pick h) = some ⟨v, none, none⟩ := by simp [Allocator.new]
    refine ⟨(h2, { l with head := some (A.pick h) }), ?_, (A.pick h, v) :: (b, u) :: ns, ?_, by simp, ?_⟩
    · simp [pushFront, assertEnds_new A hr (by simp), hp, hnew, e1, k1, e2]
    · simpa using ht.symm
    · exact he.congr (fun x => by simp [or_comm]) (fun x => by simp; tauto)

/-! ## Removal -/

theorem pop_sole {h : Heap (Node T)} {f g : Node T → Ptr} {p q : Ptr} {n : Addr × T}
    (hr : Twin h f g Node.value p q [n]) :
    p = q ∧ ∃ h', h.delete p = some h' ∧ Becomes h [n] (h', ⟨none, none⟩) [] := by
  obtain ⟨hp, c, hc, -, -⟩ := hr.fwd
  obtain ⟨h', e, k⟩ := Heap.delete_eq hc
  refine ⟨hp.trans hr.bwd.1.symm, h', by rw [hp]; exact e, [], twin_nil _ _ _ _, rfl, ?_⟩
  refine Edit.remove (by simp) ?_ ?_
  · intro x hx
    rw [k, if_neg (by simpa using hx)]
  · intro x hx _
    rw [k, if_pos (by simpa using hx)]

/-- **Removal of the last node t**, in either direction: the node s before it is written as c1, then t is deleted. -/
theorem pop_last {h : Heap (Node T)} {f g : Node T → Ptr} {p q : Ptr} {ns : Nodes T} {s t : Addr} {u w : T}
    (hr : Twin h f g Node.value p q (ns ++ [(s, u)] ++ [(t, w)])) :
    p ≠ q ∧ ∃ ct cs, h.cells t = some ct ∧ q = some t ∧ g ct = some s ∧ h.cells s = some cs ∧
      ∀ c1 : Node T, c1.value = cs.value → f c1 = none → g c1 = g cs →
        ∃ h1 h2, h.store (some s) c1 = some h1 ∧ h1.delete (some t) = some h2 ∧
          Twin h2 f g Node.value p (some s) (ns ++ [(s, u)]) ∧
          Edit h h2 (addrs (ns ++ [(s, u)] ++ [(t, w)])) (addrs (ns ++ [(s, u)])) := by
  obtain ⟨ct, hct, hq, -, -, hfw, hbw, htn, hnd⟩ := hr.last
  obtain ⟨b, cb, hb, -, -, hhd⟩ := hr.first (by simp)
  rw [List.reverse_append, List.reverse_singleton, List.singleton_append] at hbw
  obtain ⟨hgs, cs, hcs, -, -⟩ := hbw
  have hbt : b ≠ t := by
    rintro rfl
    refine htn ?_
    cases ns with
    | nil => simp at hhd; simp [hhd.1]
    | cons n ns => simp at hhd; simp [hhd]
  refine ⟨by rw [hb, hq]; simpa using hbt, ct, cs, hct, hq, hgs, hcs, ?_⟩
  intro c1 hv hf hg
  have hst : s ≠ t := fun he => htn (by simp [he])
  obtain ⟨h1, e1, k1⟩ := Heap.store_eq hcs c1
  have ht1 : h1.cells t = some ct := by simp [k1, hst.symm, hct]
  obtain ⟨h2, e2, k2⟩ := Heap.delete_eq ht1
  have hsn : s ∉ addrs ns := by
    rw [addrs_append, List.nodup_append] at hnd
    exact fun hs => hnd.2.2 s hs s (by simp) rfl
  have hs2 : h2.cells s = some c1 := by simp [k2, k1, hst]
  refine ⟨h1, h2, e1, e2, ?_, ?_⟩
  · refine hr.shrink hcs ?_ hs2 hv hf hg
    intro b hb
    have hbs : b ≠ s := fun he => hsn (he ▸ hb)
    have hbt : b ≠ t := fun he => htn (by rw [addrs_append]; exact List.mem_append_left _ (he ▸ hb))
    simp [k2, k1, hbs, hbt]
  · refine Edit.remove (fun x hx => by simp at hx ⊢; tauto) (fun x hx => ?_) fun x hx hn => ?_
    · have hx' : x ≠ t ∧ x ≠ s := by simp at hx; tauto
      simp [k2, k1, hx'.1, hx'.2]
    · have hx' : x = t := by simp at hx hn; tauto
      simp [k2, hx']

theorem popBack_nil {h : Heap (Node T)} {l : Obj} (hr : Rep h l []) :
    popBack h l = some (.error ⟨"Stack underflow."⟩, h, l) := by
  simp [popBack, hr.ends_nil.1]

theorem popBack_spec {h : Heap (Node T)} {l : Obj} {ns : Nodes T} {n : Addr × T} (hr : Rep h l (ns ++ [n])) :
    ∃ r, popBack h l = some (.ok (), r) ∧ Becomes h (ns ++ [n]) r (ns.map Prod.snd) := by
  have hne : l.head ≠ none := fun hn => by simpa using hr.head_none_iff.1 hn
  rcases ns.eq_nil_or_concat with rfl | ⟨init, ⟨s, u⟩, rfl⟩
  · obtain ⟨he, h', e, hb⟩ := pop_sole hr
    refine ⟨(h', ⟨none, none⟩), ?_, hb⟩
    simp [popBack, hne, he.symm, e]
  · rw [List.concat_eq_append] at hr ⊢
    obtain ⟨t, w⟩ := n
    obtain ⟨hpq, ct, cs, hct, hq, hg, hcs, hk⟩ := pop_last hr
    obtain ⟨h1, h2, e1, e2, ht, he⟩ := hk { cs with next := none } rfl rfl rfl
    refine ⟨(h2, { l with tail := some s }), ?_, _, ht, rfl, he⟩
    rw [hq] at hpq
    simp [popBack, hne, hq, hpq.symm, hct, hg, hcs, e1, e2]

theorem popFront_nil {h : Heap (Node T)} {l : Obj} (hr : Rep h l []) :
    popFront h l = some (.error ⟨"Empty list."⟩, h, l) := by
  simp [popFront, hr.ends_nil.1]

theorem popFront_spec {h : Heap (Node T)} {l : Obj} {ns : Nodes T} {n : Addr × T} (hr : Rep h l (n :: ns)) :
    ∃ r, popFront h l = some (.ok (), r) ∧ Becomes h (n :: ns) r (ns.map Prod.snd) := by
  have hne : l.head ≠ none := fun hn => by simpa using hr.head_none_iff.1 hn
  cases ns with
  | nil =>
    obtain ⟨he, h', e, hb⟩ := pop_sole hr
    refine ⟨(h', ⟨none, none⟩), ?_, hb⟩
    simp [popFront, hne, he.symm, e]
  | cons m ns =>
    obtain ⟨b, u⟩ := n
    obtain ⟨s, w⟩ := m
    have hsym : Twin h Node.prev Node.next Node.value l.tail l.head (ns.reverse ++ [(s, w)] ++ [(b, u)]) := by
      simpa using hr.symm
    obtain ⟨hpq, cb, cs, hcb, hp, hg, hcs, hk⟩ := pop_last hsym
    obtain ⟨h1, h2, e1, e2, ht, he⟩ := hk { cs with prev := none } rfl rfl rfl
    refine ⟨(h2, { l with head := some s }), ?_, (s, w) :: ns, by simpa using ht.symm, rfl, ?_⟩
    · rw [hp] at hpq
      simp [popFront, hp, hpq, hcb, hg, hcs, e1, e2]
    · exact he.congr (fun x => by simp; tauto) (fun x => by simp; tauto)

/-- one iteration of the loop of erase_all, on a chain that goes on beyond the tail -/
theorem eraseLoop_next {b : Addr} {u : T} {n : Addr × T} {rs : Nodes T} {h : Heap (Node T)} {l : Obj}
    (hs : Seg h Node.prev Node.value l.tail (n :: rs ++ [(b, u)]) none) (hh : l.head = some b)
    (hn : (addrs (n :: rs ++ [(b, u)])).Nodup) :
    ∃ h1 p, (∀ fuel, eraseLoop (fuel + 1) h l = eraseLoop fuel h1 { l with tail := p }) ∧
      Seg h1 Node.prev Node.value p (rs ++ [(b, u)]) none ∧ Clears h h1 [n.1] := by
  obtain ⟨ht, c, hc, -, hs⟩ := hs
  obtain ⟨h1, e1, k1⟩ := Heap.delete_eq hc
  rw [List.cons_append, addrs_cons, List.nodup_cons] at hn
  have hbn : b ≠ n.1 := fun he => hn.1 (by simp [he])
  refine ⟨h1, c.prev, ?_, ?_, ?_⟩
  · intro fuel
    simp [eraseLoop, hh, ht, hbn, hc, e1]
  · apply seg_frame hs
    intro x hx
    have hxn : x ≠ n.1 := fun he => hn.1 (he ▸ hx)
    simp [k1, hxn]
  · exact clears_delete e1 k1

/-- **The loop of erase_all** deletes from the tail to the head; only the links to the previous node are followed, so
the dangling next_ of a surviving node is never read. It needs one test of its condition more than it has iterations. -/
theorem eraseLoop_spec {b : Addr} {u : T} (rs : Nodes T) {h : Heap (Node T)} {l : Obj}
    (hs : Seg h Node.prev Node.value l.tail (rs ++ [(b, u)]) none) (hh : l.head = some b)
    (hn : (addrs (rs ++ [(b, u)])).Nodup) :
    ∃ h', Clears h h' (addrs rs) ∧
      ∀ fuel, eraseLoop fuel h l = if rs.length < fuel then some (h', ⟨some b, some b⟩) else none := by
  induction rs generalizing h l with
  | nil =>
    obtain ⟨ht, -⟩ := hs
    obtain ⟨hd, tl⟩ := l
    simp only at hh ht
    refine ⟨h, clears_refl h, ?_⟩
    intro fuel
    cases fuel with
    | zero => rfl
    | succ k => simp [eraseLoop, hh, ht]
  | cons n rs ih =>
    obtain ⟨h1, p, e1, hs1, k1⟩ := eraseLoop_next hs hh hn
    rw [List.cons_append, addrs_cons, List.nodup_cons] at hn
    obtain ⟨h2, k2, e2⟩ := ih (l := { l with tail := p }) hs1 hh hn.2
    refine ⟨h2, k1.trans k2, ?_⟩
    intro fuel
    cases fuel with
    | zero => rfl
    | succ k => simp only [e1, e2, List.length_cons, Nat.add_lt_add_iff_right]

/-- what erase_all does: its loop, the nodes it deletes, from the last to the first, and the object it leaves -/
theorem eraseAll_clears {h : Heap (Node T)} {l : Obj} {ns : Nodes T} (hr : Rep h l ns) :
    (∀ fuel, (eraseLoop fuel h l).isSome ↔ ns.length - 1 < fuel) ∧
      ∃ h', eraseAll h l = some (h', ⟨none, none⟩) ∧ Clears h h' (addrs ns).reverse := by
  cases ns with
  | nil =>
    obtain ⟨hd, tl⟩ := l
    obtain ⟨rfl, rfl⟩ := hr.ends_nil
    refine ⟨?_, h, by simp [eraseAll], clears_refl h⟩
    intro fuel
    cases fuel with
    | zero => simp [eraseLoop]
    | succ k => simp [eraseLoop]
  | cons n ns =>
    obtain ⟨b, u⟩ := n
    obtain ⟨hp, c, hc, -⟩ := hr.fwd
    have hlen := hr.fwd.length_le hr.nodup
    have hnd : (addrs (ns.reverse ++ [(b, u)])).Nodup := by
      rw [← List.reverse_cons, addrs_reverse, List.nodup_reverse]
      exact hr.nodup
    obtain ⟨h1, k1, e1⟩ := eraseLoop_spec ns.reverse (by simpa using hr.bwd) hp hnd
    have hfuel : ns.reverse.length < h.created.length + 1 := by simp at hlen ⊢; omega
    have hbn : b ∉ addrs ns.reverse := by
      rw [addrs_append, List.nodup_append] at hnd
      exact fun hb => hnd.2.2 b hb b (by simp) rfl
    obtain ⟨h2, e2, k2⟩ := Heap.delete_eq (((k1.cells b).trans (if_neg hbn)).trans hc)
    have e3 : eraseLoop (h.created.length + 1) h l = some (h1, ⟨some b, some b⟩) := (e1 _).trans (if_pos hfuel)
    refine ⟨?_, h2, by simp [eraseAll, hp, e3, e2], ?_⟩
    · intro fuel
      rw [e1]
      split_ifs with hf <;> simpa using hf
    · simpa using k1.trans (clears_delete e2 k2)

theorem eraseAll_spec {h : Heap (Node T)} {l : Obj} {ns : Nodes T} (hr : Rep h l ns) :
    ∃ h', eraseAll h l = some (h', ⟨none, none⟩) ∧ Edit h h' (addrs ns) [] := by
  obtain ⟨-, h', e, hc⟩ := eraseAll_clears hr
  exact ⟨h', e, hc.edit.congr (fun x => by simp) (fun x => by simp)⟩

/-- **erase_all is exact and terminates.** On a list that owns n nodes its loop ends after n - 1 iterations (0 for the
empty list; the fuel of `eraseLoop` counts the tests of the condition). It reads no deleted node, deletes the n nodes,
each once, leaves both ends null, and leaves every other node, and so every other list, as it is. -/
theorem eraseAll_exact {h : Heap (Node T)} {l : Obj} {ns : Nodes T} (hr : Rep h l ns) :
    (∀ fuel, (eraseLoop fuel h l).isSome ↔ ns.length - 1 < fuel) ∧
      ∃ h', eraseAll h l = some (h', ⟨none, none⟩) ∧ h'.created = h.created ∧
        h'.deleted = h.deleted ++ (addrs ns).reverse ∧ (addrs ns).Nodup ∧
        (∀ a ∈ addrs ns, h'.cells a = none) ∧ (∀ a, a ∉ addrs ns → h'.cells a = h.cells a) ∧
        ∀ (l' : Obj) (ms : Nodes T), Rep h l' ms → (∀ a ∈ addrs ms, a ∉ addrs ns) → Rep h' l' ms := by
  obtain ⟨hloop, h', e, hc⟩ := eraseAll_clears hr
  refine ⟨hloop, h', e, hc.created, hc.deleted, hr.nodup, ?_, ?_, ?_⟩
  · intro a ha
    rw [hc.cells, if_pos (List.mem_reverse.2 ha)]
  · intro a ha
    rw [hc.cells, if_neg (by simpa using ha)]
  · intro l' ms hms hd
    exact hc.edit.twin hms fun a ha => by simpa using hd a ha

/-- two linked nodes -/
def twoNodes : Heap (Node ℕ) := (Heap.empty.new 1 rfl ⟨7, some 2, none⟩).new 2 rfl ⟨8, none, some 1⟩

theorem twoNodes_rep : Rep twoNodes ⟨some 1, some 2⟩ [(1, 7), (2, 8)] :=
  ⟨⟨rfl, _, rfl, rfl, rfl, _, rfl, rfl, rfl⟩, ⟨rfl, _, rfl, rfl, rfl, _, rfl, rfl, rfl⟩, by decide⟩

theorem eraseAll_exact_two :
    (∀ fuel, (eraseLoop fuel twoNodes ⟨some 1, some 2⟩).isSome ↔ 1 < fuel) ∧
      ∃ h', eraseAll twoNodes ⟨some 1, some 2⟩ = some (h', ⟨none, none⟩) ∧ h'.deleted = [2, 1] := by
  obtain ⟨hloop, h', e, -, hd, -⟩ := eraseAll_exact twoNodes_rep
  exact ⟨hloop, h', e, hd⟩

/-! ## Reading -/

theorem front_spec {h : Heap (Node T)} {l : Obj} {ns : Nodes T} (hr : Rep h l ns) :
    front h l = some (((ns.map Prod.snd).head?).elim (.error ⟨"Empty list."⟩) .ok) := by
  cases ns with
  | nil => simp [front, hr.ends_nil.1]
  | cons n ns =>
    obtain ⟨b, c, hp, hc, -, hh⟩ := hr.first (by simp)
    rw [List.head?_cons, Option.some.injEq] at hh
    simp [front, hp, hc, hh]

theorem back_spec {h : Heap (Node T)} {l : Obj} {ns : Nodes T} (hr : Rep h l ns) :
    back h l = some (((ns.map Prod.snd).getLast?).elim (.error ⟨"Empty list"⟩) .ok) := by
  rcases ns.eq_nil_or_concat with rfl | ⟨init, n, rfl⟩
  · simp [back, hr.ends_nil.2]
  · obtain ⟨t, c, hq, hc, -, hh⟩ := hr.symm.first (by simp)
    have hn : n = (t, c.value) := by simpa using hh
    simp [back, hq, hc, hn]

theorem sizeLoop_spec {h : Heap (Node T)} {p : Ptr} {ns : Nodes T} (hs : Seg h Node.next Node.value p ns none)
    {fuel count : ℕ} (hf : ns.length < fuel) : sizeLoop h fuel p count = some (count + ns.length) := by
  induction ns generalizing p fuel count with
  | nil =>
    obtain rfl : p = none := hs
    obtain ⟨k, rfl⟩ : ∃ k, fuel = k + 1 := ⟨fuel - 1, by simp at hf; omega⟩
    rfl
  | cons n ns ih =>
    obtain ⟨rfl, c, hc, -, hs⟩ := hs
    obtain ⟨k, rfl⟩ : ∃ k, fuel = k + 1 := ⟨fuel - 1, by simp at hf; omega⟩
    simp only [sizeLoop, Heap.load_some, hc, Option.bind_eq_bind, Option.bind_some, ih hs (by simpa using hf)]
    simp only [List.length_cons, Option.some.injEq]
    omega

theorem Rep.fuel {h : Heap (Node T)} {l : Obj} {ns : Nodes T} (hr : Rep h l ns) : ns.length < h.created.length + 1 :=
  Nat.lt_succ_of_le (hr.fwd.length_le hr.nodup)

theorem size_spec {h : Heap (Node T)} {l : Obj} {ns : Nodes T} (hr : Rep h l ns) : size h l = some ns.length := by
  rw [size, sizeLoop_spec hr.fwd hr.fuel, Nat.zero_add]

theorem empty_spec {h : Heap (Node T)} {l : Obj} {ns : Nodes T} (hr : Rep h l ns) : empty h l = some (ns.isEmpty) := by
  rw [empty, size_spec hr]
  cases ns <;> simp

theorem printLoop_spec {h : Heap (Node T)} (shows : T → String) {t : Addr} {w : T} {init : Nodes T} {p : Ptr}
    (hs : Seg h Node.next Node.value p (init ++ [(t, w)]) none) (ht : t ∉ addrs init) {fuel : ℕ} {ss : String}
    (hf : init.length + 1 < fuel) :
    printLoop h shows (some t) fuel p ss =
      some (ss ++ "->".intercalate ((init ++ [(t, w)]).map fun n => shows n.2)) := by
  induction init generalizing p fuel ss with
  | nil =>
    obtain ⟨rfl, c, hc, hv, hn⟩ := hs
    obtain ⟨k, rfl⟩ : ∃ k, fuel = k + 1 + 1 := ⟨fuel - 2, by simp at hf; omega⟩
    obtain rfl : c.value = w := hv
    have hn : c.next = none := hn
    simp [printLoop, hc, hn]
  | cons n init ih =>
    obtain ⟨rfl, c, hc, hv, hs⟩ := hs
    obtain ⟨k, rfl⟩ : ∃ k, fuel = k + 1 := ⟨fuel - 1, by simp at hf; omega⟩
    rw [addrs_cons, List.mem_cons, not_or] at ht
    have hv : c.value = n.2 := hv
    have h1 : printLoop h shows (some t) k c.next (ss ++ shows n.2 ++ "->") = _ := ih hs ht.2 (by simpa using hf)
    rw [List.cons_append, List.map_cons, String.intercalate_cons_of_ne_nil (by simp)]
    simp only [printLoop, Heap.load_some, hc, Option.bind_eq_bind, Option.bind_some, hv, Option.some.injEq,
      if_neg (Ne.symm ht.1), h1]
    simp only [String.append_assoc]

theorem print_spec {h : Heap (Node T)} (shows : T → String) {l : Obj} {ns : Nodes T} (hr : Rep h l ns) :
    print h shows l = some ("->".intercalate (ns.map fun n => shows n.2)) := by
  rcases ns.eq_nil_or_concat with rfl | ⟨init, n, rfl⟩
  · simp [print, hr.ends_nil.1]
  · rw [List.concat_eq_append] at hr ⊢
    have hne : l.head ≠ none := fun hn => by simpa using hr.head_none_iff.1 hn
    obtain ⟨-, -, hq, -, -, -, -, ht, -⟩ := hr.last
    have hf := hr.fuel
    rw [List.length_append, List.length_singleton] at hf
    simp only [print, if_neg hne, hq]
    rw [printLoop_spec shows hr.fwd ht hf]
    simp

theorem iterateLoop_spec {h : Heap (Node T)} {it : Iterator} {ns : Nodes T}
    (hs : Seg h Node.next Node.value it.nodePtr ns none) {fuel : ℕ} {seen : List T} (hf : ns.length < fuel) :
    iterateLoop h fuel it seen = some (seen ++ ns.map Prod.snd) := by
  induction ns generalizing it fuel seen with
  | nil =>
    obtain ⟨k, rfl⟩ : ∃ k, fuel = k + 1 := ⟨fuel - 1, by simp at hf; omega⟩
    obtain ⟨p⟩ := it
    obtain rfl : p = none := hs
    simp [iterateLoop, «end»]
  | cons n ns ih =>
    obtain ⟨k, rfl⟩ : ∃ k, fuel = k + 1 := ⟨fuel - 1, by simp at hf; omega⟩
    obtain ⟨p⟩ := it
    obtain ⟨rfl, c, hc, hv, hs⟩ := hs
    have h1 : iterateLoop h k ⟨c.next⟩ (seen ++ [c.value]) = _ := ih hs (by simpa using hf)
    have hv : c.value = n.2 := hv
    rw [hv] at h1
    simp [iterateLoop, «end», Iterator.deref, Iterator.incr, hc, hv, h1]

theorem iterate_spec {h : Heap (Node T)} {l : Obj} {ns : Nodes T} (hr : Rep h l ns) :
    iterate h l = some (ns.map Prod.snd) := by
  rw [iterate, iterateLoop_spec hr.fwd hr.fuel, List.nil_append]

/-! ## Copying -/

/-- The copy loop: `ds` is what the new list owns, `ns` what the iterator has not met yet. -/
theorem copyLoop_spec (A : Allocator (Node T)) {h : Heap (Node T)} {it : Iterator} {l : Obj} {ds ns : Nodes T}
    (hd : Rep h l ds) (hs : Seg h Node.next Node.value it.nodePtr ns none) (hdis : ∀ a ∈ addrs ns, a ∉ addrs ds)
    {fuel : ℕ} (hf : ns.length < fuel) :
    ∃ r, copyLoop A fuel h it l = some r ∧ Becomes h ds r (ds.map Prod.snd ++ ns.map Prod.snd) := by
  induction ns generalizing h it l ds fuel with
  | nil =>
    obtain ⟨k, rfl⟩ : ∃ k, fuel = k + 1 := ⟨fuel - 1, by simp at hf; omega⟩
    obtain ⟨p⟩ := it
    obtain rfl : p = none := hs
    exact ⟨(h, l), by simp [copyLoop, «end»], ds, hd, by simp, Edit.refl _ _⟩
  | cons n ns ih =>
    obtain ⟨k, rfl⟩ : ∃ k, fuel = k + 1 := ⟨fuel - 1, by simp at hf; omega⟩
    obtain ⟨p⟩ := it
    have hs0 := hs
    obtain ⟨rfl, c, hc, hv, -⟩ := hs
    obtain ⟨⟨h1, l1⟩, e1, ds1, hd1, hv1, he1⟩ := pushBack_spec A hd c.value
    -- the source chain is outside the nodes the push edits
    obtain ⟨-, c1, hc1, -, hs1⟩ := he1.seg hs0 hdis
    simp only at hd1 he1 hc1 hs1
    have hcc : c1 = c := by
      have := he1.frame n.1 (hdis n.1 (by simp)) (he1.disjoint (hdis n.1 (by simp)) hc)
      rw [hc, hc1, Option.some.injEq] at this
      exact this
    have hdis1 : ∀ a ∈ addrs ns, a ∉ addrs ds1 := by
      intro a ha
      have ha' : a ∈ addrs (n :: ns) := by simp [ha]
      obtain ⟨ca, hca⟩ := hs0.live ha'
      exact he1.disjoint (hdis a ha') hca
    subst hcc
    obtain ⟨r, e2, ds2, hd2, hv2, he2⟩ : ∃ r, copyLoop A k h1 ⟨c1.next⟩ l1 = some r ∧
        Becomes h1 ds1 r (ds1.map Prod.snd ++ ns.map Prod.snd) := ih hd1 hs1 hdis1 (by simpa using hf)
    refine ⟨r, ?_, ds2, hd2, ?_, he1.trans he2⟩
    · simp [copyLoop, «end», Iterator.deref, Iterator.incr, hc, hc1, e1, e2]
    · rw [hv2, hv1, hv]
      simp

theorem copy_spec (A : Allocator (Node T)) {h : Heap (Node T)} {l : Obj} {ns : Nodes T} (hr : Rep h l ns) :
    ∃ r, copy A h l = some r ∧ Becomes h [] r (ns.map Prod.snd) := by
  have hmake : Rep h make [] := twin_nil h _ _ _
  have hfwd : Seg h Node.next Node.value (begin l).nodePtr ns none := hr.fwd
  obtain ⟨r, e, hb⟩ := copyLoop_spec A hmake hfwd (by simp) hr.fuel
  exact ⟨r, e, by simpa using hb⟩

end Gss.Containers
