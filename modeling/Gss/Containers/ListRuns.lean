/-
Many lists at once: any run of the members of `list<T>` over any number of list objects that share one heap.

A list is named by the order of its construction. `exec` runs one member on the heap; `seqExec` is the obvious operation
on sequences, with the same result. An operation on a list that is not there, or destroyed, does nothing.

`Rel m own ss`: list i owns the nodes `own i`, represents the sequence `ss i`, and no two lists share a node.

- `exec_refines`: one member, on related states, is defined, returns what the sequence operation returns, and leaves
  related states; the lists it is not about keep their nodes.
- `exec_accounts`: the live nodes that no list owns are those of before, and after a move assignment also the nodes its
  target had.
- `list_refines_sequences`: the same for every run, read off the chains from head_ and from tail_.
-/
import Gss.Containers.List
import Gss.Core.Machine

namespace Gss.ListRuns

open Gss.Core Gss.Containers

variable {T : Type}

/-! ## Model -/

structure Mem (T : Type) where
  heap : Heap (Node T)
  /-- the list objects, in the order of construction; none when destroyed -/
  lists : List (Option Obj)

inductive Op (T : Type) where
  | create
  | pushBack (i : ℕ) (v : T)
  | pushFront (i : ℕ) (v : T)
  | popBack (i : ℕ)
  | popFront (i : ℕ)
  | eraseAll (i : ℕ)
  | front (i : ℕ)
  | back (i : ℕ)
  | size (i : ℕ)
  | empty (i : ℕ)
  | print (i : ℕ)
  | iterate (i : ℕ)
  /-- list(list& other) with other = list i -/
  | copy (i : ℕ)
  /-- list i = std::move(list j) -/
  | move (i j : ℕ)
  | destroy (i : ℕ)
deriving DecidableEq, Repr

/-- what a member gives back -/
inductive Out (T : Type) where
  | done
  | absent
  | throws (e : OutOfRange)
  | value (v : T)
  | count (n : ℕ)
  | flag (b : Bool)
  | text (s : String)
  | values (vs : List T)
deriving DecidableEq, Repr

def Out.ofUnit : Except OutOfRange Unit → Out T
  | .ok _ => .done
  | .error e => .throws e

def Out.ofValue : Except OutOfRange T → Out T
  | .ok v => .value v
  | .error e => .throws e

/-- a member of list i -/
def onList (m : Mem T) (i : ℕ) (f : Heap (Node T) → Obj → Option (Out T × Heap (Node T) × Obj)) :
    Option (Out T × Mem T) :=
  match m.lists[i]? with
  | some (some l) => (f m.heap l).map fun r => (r.1, ⟨r.2.1, m.lists.set i (some r.2.2)⟩)
  | _ => some (.absent, m)

/-- a member of list i that only reads -/
def readList (m : Mem T) (i : ℕ) (f : Heap (Node T) → Obj → Option (Out T)) : Option (Out T × Mem T) :=
  match m.lists[i]? with
  | some (some l) => (f m.heap l).map fun out => (out, m)
  | _ => some (.absent, m)

/-- one member on the heap; none is undefined behaviour -/
def exec (A : Allocator (Node T)) (shows : T → String) (m : Mem T) : Op T → Option (Out T × Mem T)
  | .create => some (.done, { m with lists := m.lists ++ [some make] })
  | .pushBack i v => onList m i fun h l => (pushBack A h l v).map fun r => (.done, r)
  | .pushFront i v => onList m i fun h l => (pushFront A h l v).map fun r => (.done, r)
  | .popBack i => onList m i fun h l => (popBack h l).map fun r => (Out.ofUnit r.1, r.2)
  | .popFront i => onList m i fun h l => (popFront h l).map fun r => (Out.ofUnit r.1, r.2)
  | .eraseAll i => onList m i fun h l => (eraseAll h l).map fun r => (.done, r)
  | .front i => readList m i fun h l => (front h l).map Out.ofValue
  | .back i => readList m i fun h l => (back h l).map Out.ofValue
  | .size i => readList m i fun h l => (size h l).map Out.count
  | .empty i => readList m i fun h l => (empty h l).map Out.flag
  | .print i => readList m i fun h l => (print h shows l).map Out.text
  | .iterate i => readList m i fun h l => (iterate h l).map Out.values
  | .copy i =>
    match m.lists[i]? with
    | some (some l) => (copy A m.heap l).map fun r => (.done, ⟨r.1, m.lists ++ [some r.2]⟩)
    | _ => some (.absent, m)
  | .move i j =>
    match m.lists[i]?, m.lists[j]? with
    | some (some l), some (some other) =>
      let r := moveAssign l other
      some (.done, { m with lists := (m.lists.set i (some r.1)).set j (some r.2) })
    | _, _ => some (.absent, m)
  | .destroy i =>
    match m.lists[i]? with
    | some (some l) => (destroy m.heap l).map fun h => (.done, ⟨h, m.lists.set i none⟩)
    | _ => some (.absent, m)

structure St (T : Type) where
  mem : Mem T
  outs : List (Out T)
  /-- an operation was undefined -/
  undefined : Bool

def step (A : Allocator (Node T)) (shows : T → String) (s : St T) (o : Op T) : St T :=
  match exec A shows s.mem o with
  | some (out, m) => { s with mem := m, outs := s.outs ++ [out] }
  | none => { s with undefined := true }

def init : St T := ⟨⟨Heap.empty, []⟩, [], false⟩

def machine (A : Allocator (Node T)) (shows : T → String) : Machine (St T) (Op T) := ⟨init, step A shows⟩

/-! ## Sequences -/

/-- the sequences of the lists; none when destroyed -/
abbrev Seqs (T : Type) := List (Option (List T))

def onSeq (ss : Seqs T) (i : ℕ) (f : List T → Out T × List T) : Out T × Seqs T :=
  match ss[i]? with
  | some (some xs) => ((f xs).1, ss.set i (some (f xs).2))
  | _ => (.absent, ss)

def readSeq (ss : Seqs T) (i : ℕ) (f : List T → Out T) : Out T × Seqs T :=
  match ss[i]? with
  | some (some xs) => (f xs, ss)
  | _ => (.absent, ss)

def dropBack : List T → Out T × List T
  | [] => (.throws ⟨"Stack underflow."⟩, [])
  | x :: xs => (.done, (x :: xs).dropLast)

def dropFront : List T → Out T × List T
  | [] => (.throws ⟨"Empty list."⟩, [])
  | _ :: xs => (.done, xs)

@[simp] theorem dropBack_snoc (xs : List T) (x : T) : dropBack (xs ++ [x]) = (.done, xs) := by
  cases xs with
  | nil => rfl
  | cons y xs => rw [List.cons_append, dropBack, ← List.cons_append, List.dropLast_concat]

/-- the sequence operation of each member -/
def seqExec (shows : T → String) (ss : Seqs T) : Op T → Out T × Seqs T
  | .create => (.done, ss ++ [some []])
  | .pushBack i v => onSeq ss i fun xs => (.done, xs ++ [v])
  | .pushFront i v => onSeq ss i fun xs => (.done, v :: xs)
  | .popBack i => onSeq ss i dropBack
  | .popFront i => onSeq ss i dropFront
  | .eraseAll i => onSeq ss i fun _ => (.done, [])
  | .front i => readSeq ss i fun xs => xs.head?.elim (.throws ⟨"Empty list."⟩) .value
  | .back i => readSeq ss i fun xs => xs.getLast?.elim (.throws ⟨"Empty list"⟩) .value
  | .size i => readSeq ss i fun xs => .count xs.length
  | .empty i => readSeq ss i fun xs => .flag xs.isEmpty
  | .print i => readSeq ss i fun xs => .text ("->".intercalate (xs.map shows))
  | .iterate i => readSeq ss i fun xs => .values xs
  | .copy i =>
    match ss[i]? with
    | some (some xs) => (.done, ss ++ [some xs])
    | _ => (.absent, ss)
  | .move i j =>
    match ss[i]?, ss[j]? with
    | some (some _), some (some ys) => (.done, (ss.set i (some ys)).set j (some []))
    | _, _ => (.absent, ss)
  | .destroy i =>
    match ss[i]? with
    | some (some _) => (.done, ss.set i none)
    | _ => (.absent, ss)

/-- the lists an operation may change -/
def Op.targets : Op T → List ℕ
  | .pushBack i _ | .pushFront i _ | .popBack i | .popFront i | .eraseAll i | .destroy i => [i]
  | .move i j => [i, j]
  | _ => []

structure SeqSt (T : Type) where
  seqs : Seqs T
  outs : List (Out T)

def seqStep (shows : T → String) (s : SeqSt T) (o : Op T) : SeqSt T :=
  ⟨(seqExec shows s.seqs o).2, s.outs ++ [(seqExec shows s.seqs o).1]⟩

def seqMachine (shows : T → String) : Machine (SeqSt T) (Op T) := ⟨⟨[], []⟩, seqStep shows⟩

/-! ## The relation -/

/-- the list object e owns the nodes ns and represents x; a destroyed list owns none -/
def Holds (h : Heap (Node T)) : Option Obj → Nodes T → Option (List T) → Prop
  | some l, ns, some xs => Rep h l ns ∧ ns.map Prod.snd = xs
  | none, ns, none => ns = []
  | _, _, _ => False

structure Rel (m : Mem T) (own : ℕ → Nodes T) (ss : Seqs T) : Prop where
  length : m.lists.length = ss.length
  holds : ∀ i e x, m.lists[i]? = some e → ss[i]? = some x → Holds m.heap e (own i) x
  disjoint : ∀ i j, i ≠ j → ∀ a ∈ addrs (own i), a ∉ addrs (own j)
  outside : ∀ i, m.lists.length ≤ i → own i = []

theorem rel_init : Rel (init : St T).mem (fun _ => []) [] :=
  ⟨rfl, fun _ _ _ h => (by cases h), fun _ _ _ _ h => (by cases h), fun _ _ => rfl⟩

/-- a live node that no list owns -/
def Orphan (m : Mem T) (own : ℕ → Nodes T) (a : Addr) : Prop :=
  (∃ c, m.heap.cells a = some c) ∧ ∀ i, a ∉ addrs (own i)

theorem Holds.edit {h h' : Heap (Node T)} {e : Option Obj} {ns : Nodes T} {x : Option (List T)} {as bs : List Addr}
    (hh : Holds h e ns x) (he : Edit h h' as bs) (hd : ∀ a ∈ addrs ns, a ∉ as) : Holds h' e ns x := by
  cases e <;> cases x
  · exact hh
  · exact hh
  · exact hh
  · exact ⟨he.twin hh.1 hd, hh.2⟩

section Rel

variable {m : Mem T} {own : ℕ → Nodes T} {ss : Seqs T}

/-- the entries of the lists and of the sequences correspond -/
theorem Rel.get (hr : Rel m own ss) {i : ℕ} (hi : i < m.lists.length) :
    ∃ e x, m.lists[i]? = some e ∧ ss[i]? = some x ∧ Holds m.heap e (own i) x := by
  have h1 := List.getElem?_eq_getElem hi
  have h2 := List.getElem?_eq_getElem (hr.length ▸ hi : i < ss.length)
  exact ⟨_, _, h1, h2, hr.holds i _ _ h1 h2⟩

theorem Rel.live (hr : Rel m own ss) {i : ℕ} {a : Addr} (ha : a ∈ addrs (own i)) : ∃ c, m.heap.cells a = some c := by
  by_cases hi : i < m.lists.length
  · obtain ⟨e, x, -, -, hh⟩ := hr.get hi
    cases e <;> cases x
    · rw [show own i = [] from hh] at ha; cases ha
    · exact hh.elim
    · exact hh.elim
    · exact hh.1.fwd.live ha
  · rw [hr.outside i (not_lt.1 hi)] at ha; cases ha

/-- a living list and its sequence -/
theorem Rel.seq (hr : Rel m own ss) {i : ℕ} {l : Obj} (hl : m.lists[i]? = some (some l)) :
    Rep m.heap l (own i) ∧ ss[i]? = some (some ((own i).map Prod.snd)) := by
  obtain ⟨e, x, h1, h2, hh⟩ := hr.get (List.getElem?_eq_some_iff.1 hl).1
  obtain rfl : e = some l := Option.some.inj (h1.symm.trans hl)
  cases x with
  | none => exact hh.elim
  | some xs => exact ⟨hh.1, by rw [h2, hh.2]⟩

/-- a list with a sequence lives -/
theorem Rel.obj (hr : Rel m own ss) {i : ℕ} {xs : List T} (hx : ss[i]? = some (some xs)) :
    ∃ l, m.lists[i]? = some (some l) ∧ Rep m.heap l (own i) ∧ (own i).map Prod.snd = xs := by
  obtain ⟨e, x, h1, h2, hh⟩ := hr.get (hr.length ▸ (List.getElem?_eq_some_iff.1 hx).1)
  obtain rfl : x = some xs := Option.some.inj (h2.symm.trans hx)
  cases e with
  | none => exact hh.elim
  | some l => exact ⟨l, h1, hh⟩

/-- **One list changes**: an edit of its nodes keeps the relation. -/
theorem Rel.update (hr : Rel m own ss) {h' : Heap (Node T)} {lists : List (Option Obj)} {ss' : Seqs T} {i : ℕ}
    {ns : Nodes T} {e : Option Obj} {x : Option (List T)} (he : Edit m.heap h' (addrs (own i)) (addrs ns))
    (hlen : lists.length = ss'.length) (hgrow : m.lists.length ≤ lists.length)
    (hl : ∀ j, j ≠ i → lists[j]? = m.lists[j]?) (hs : ∀ j, j ≠ i → ss'[j]? = ss[j]?) (hle : lists[i]? = some e)
    (hsx : ss'[i]? = some x) (hh : Holds h' e ns x) : Rel ⟨h', lists⟩ (Function.update own i ns) ss' := by
  have apart : ∀ j, j ≠ i → ∀ a ∈ addrs (own j), a ∉ addrs ns := by
    intro j hj a ha
    obtain ⟨c, hc⟩ := hr.live ha
    exact he.disjoint (hr.disjoint j i hj a ha) hc
  refine ⟨hlen, ?_, ?_, ?_⟩
  · intro j e' x' h1 h2
    by_cases hj : j = i
    · subst hj
      rw [show e' = e from Option.some.inj (h1.symm.trans hle), show x' = x from Option.some.inj (h2.symm.trans hsx),
        Function.update_self]
      exact hh
    · rw [Function.update_of_ne hj]
      exact (hr.holds j e' x' (by rw [← hl j hj, h1]) (by rw [← hs j hj, h2])).edit he (hr.disjoint j i hj)
  · intro j k hjk a ha
    by_cases hj : j = i
    · subst hj
      rw [Function.update_self] at ha
      rw [Function.update_of_ne hjk.symm]
      exact fun hk => apart k hjk.symm a hk ha
    · rw [Function.update_of_ne hj] at ha
      by_cases hk : k = i
      · subst hk; rw [Function.update_self]; exact apart j hj a ha
      · rw [Function.update_of_ne hk]; exact hr.disjoint j k hjk a ha
  · intro j hj
    have hi := (List.getElem?_eq_some_iff.1 hle).1
    have hj' : lists.length ≤ j := hj
    rw [Function.update_of_ne (by omega)]
    exact hr.outside j (hgrow.trans hj')

/-- an edit of the nodes of one list neither makes nor ends an orphan -/
theorem orphan_update {h' : Heap (Node T)} {lists : List (Option Obj)} {i : ℕ} {ns : Nodes T}
    (he : Edit m.heap h' (addrs (own i)) (addrs ns)) (a : Addr) :
    Orphan ⟨h', lists⟩ (Function.update own i ns) a ↔ Orphan m own a := by
  constructor
  · intro horph
    obtain ⟨⟨c, hc⟩, hno⟩ := horph
    have hns : a ∉ addrs ns := by simpa using hno i
    have hi : a ∉ addrs (own i) := by
      intro ha
      rw [he.gone a ha hns] at hc
      cases hc
    refine ⟨⟨c, by rw [← he.frame a hi hns]; exact hc⟩, ?_⟩
    intro j
    by_cases hj : j = i
    · rwa [hj]
    · simpa [Function.update_of_ne hj] using hno j
  · intro horph
    obtain ⟨⟨c, hc⟩, hno⟩ := horph
    have hns := he.disjoint (hno i) hc
    refine ⟨⟨c, by rw [← hc]; exact he.frame a (hno i) hns⟩, ?_⟩
    intro j
    by_cases hj : j = i
    · rw [hj, Function.update_self]
      exact hns
    · rw [Function.update_of_ne hj]
      exact hno j

/-- list i is replaced by the outcome of one of its members -/
theorem Rel.set (hr : Rel m own ss) {i : ℕ} (hi : i < m.lists.length) {h' : Heap (Node T)} {ns : Nodes T}
    {e : Option Obj} {x : Option (List T)} (he : Edit m.heap h' (addrs (own i)) (addrs ns)) (hh : Holds h' e ns x) :
    Rel ⟨h', m.lists.set i e⟩ (Function.update own i ns) (ss.set i x) := by
  have hi' : i < ss.length := hr.length ▸ hi
  refine hr.update he (by simp [hr.length]) (by simp) ?_ ?_ ?_ ?_ hh
  · intro j hj
    exact List.getElem?_set_ne (Ne.symm hj)
  · intro j hj
    exact List.getElem?_set_ne (Ne.symm hj)
  · simp [hi]
  · simp [hi']

/-- a list is constructed -/
theorem Rel.append (hr : Rel m own ss) {h' : Heap (Node T)} {ns : Nodes T} {l : Obj} {xs : List T}
    (he : Edit m.heap h' [] (addrs ns)) (hh : Holds h' (some l) ns (some xs)) :
    Rel ⟨h', m.lists ++ [some l]⟩ (Function.update own m.lists.length ns) (ss ++ [some xs]) := by
  have h0 : own m.lists.length = [] := hr.outside _ le_rfl
  have get : ∀ {β : Type} (l : List β) (b : β) (j : ℕ), j ≠ l.length → (l ++ [b])[j]? = l[j]? := by
    intro β l b j hj
    rcases Nat.lt_or_gt_of_ne hj with h1 | h1
    · exact List.getElem?_append_left h1
    · rw [List.getElem?_eq_none (by simp; omega), List.getElem?_eq_none (by omega)]
  refine hr.update (by rw [h0]; exact he) (by simp [hr.length]) (by simp) (fun j hj => get _ _ j hj)
    (fun j hj => get _ _ j (hr.length ▸ hj)) (by simp) (by simp [hr.length]) hh

/-- **Move assignment**: the target takes over the source's nodes. Its own nodes are owned by nobody any more. -/
theorem Rel.move (hr : Rel m own ss) {i j : ℕ} {l other : Obj} (hi : m.lists[i]? = some (some l))
    (hj : m.lists[j]? = some (some other)) :
    Rel ⟨m.heap, (m.lists.set i (some (moveAssign l other).1)).set j (some (moveAssign l other).2)⟩
      (Function.update (Function.update own i (own j)) j [])
      ((ss.set i (some ((own j).map Prod.snd))).set j (some [])) := by
  have hi' := (List.getElem?_eq_some_iff.1 hi).1
  have hj' := (List.getElem?_eq_some_iff.1 hj).1
  have hlen := hr.length
  have hsrc : Rep m.heap other (own j) := (hr.seq hj).1
  -- every list owns nothing, or the nodes of one list of before
  have from_one : ∀ k, Function.update (Function.update own i (own j)) j [] k = [] ∨
      (k ≠ j ∧ k = i ∧ Function.update (Function.update own i (own j)) j [] k = own j) ∨
      (k ≠ j ∧ k ≠ i ∧ Function.update (Function.update own i (own j)) j [] k = own k) := by
    intro k
    by_cases hkj : k = j
    · subst hkj; left; simp
    · by_cases hki : k = i
      · subst hki; right; left; simp [hkj]
      · right; right; simp [hkj, hki]
  refine ⟨by simp [hlen], ?_, ?_, ?_⟩
  · intro k e x h1 h2
    by_cases hkj : k = j
    · subst hkj
      rw [List.getElem?_set_self (by simpa using hj')] at h1
      rw [List.getElem?_set_self (by simpa [← hlen] using hj')] at h2
      cases h1
      cases h2
      rw [Function.update_self]
      exact ⟨twin_nil _ _ _ _, rfl⟩
    · rw [List.getElem?_set_ne (Ne.symm hkj)] at h1 h2
      rw [Function.update_of_ne hkj]
      by_cases hki : k = i
      · subst hki
        rw [List.getElem?_set_self hi'] at h1
        rw [List.getElem?_set_self (hlen ▸ hi')] at h2
        cases h1
        cases h2
        rw [Function.update_self]
        exact ⟨hsrc, rfl⟩
      · rw [List.getElem?_set_ne (Ne.symm hki)] at h1 h2
        rw [Function.update_of_ne hki]
        exact hr.holds k e x h1 h2
  · intro k k' hk a ha hb
    rcases from_one k with h1 | ⟨hkj, hki, h1⟩ | ⟨hkj, hki, h1⟩ <;>
      rcases from_one k' with h2 | ⟨hkj', hki', h2⟩ | ⟨hkj', hki', h2⟩ <;> rw [h1] at ha <;> rw [h2] at hb
    · cases ha
    · cases ha
    · cases ha
    · cases hb
    · exact hk (hki.trans hki'.symm)
    · exact hr.disjoint j k' (Ne.symm hkj') a ha hb
    · cases hb
    · exact hr.disjoint k j hkj a ha hb
    · exact hr.disjoint k k' hk a ha hb
  · intro k hk
    have hk' : m.lists.length ≤ k := by simpa using hk
    rw [Function.update_of_ne (by omega), Function.update_of_ne (by omega)]
    exact hr.outside k hk'

/-- the nodes of the target of a move assignment become orphans, and no others do -/
theorem Rel.orphan_move (hr : Rel m own ss) (i j : ℕ) (lists : List (Option Obj)) (a : Addr) :
    Orphan ⟨m.heap, lists⟩ (Function.update (Function.update own i (own j)) j []) a ↔
      Orphan m own a ∨ a ∈ addrs (own i) := by
  have owned : (∀ k, a ∉ addrs (Function.update (Function.update own i (own j)) j [] k)) ↔
      ∀ k, k ≠ i → a ∉ addrs (own k) := by
    constructor
    · intro hno k hk
      by_cases hkj : k = j
      · subst hkj
        simpa [Function.update_of_ne (Ne.symm hk)] using hno i
      · simpa [Function.update_of_ne hkj, Function.update_of_ne hk] using hno k
    · intro hno k
      by_cases hkj : k = j
      · subst hkj; simp
      by_cases hk : k = i
      · subst hk
        simpa [Function.update_of_ne hkj] using hno j (Ne.symm hkj)
      · simpa [Function.update_of_ne hkj, Function.update_of_ne hk] using hno k hk
  simp only [Orphan, owned]
  constructor
  · intro horph
    obtain ⟨hc, hno⟩ := horph
    by_cases hi : a ∈ addrs (own i)
    · exact Or.inr hi
    · refine Or.inl ⟨hc, ?_⟩
      intro k
      by_cases hk : k = i
      · rwa [hk]
      · exact hno k hk
  · intro h
    rcases h with ⟨hc, hno⟩ | hi
    · exact ⟨hc, fun k _ => hno k⟩
    · exact ⟨hr.live hi, fun k hk => hr.disjoint i k (Ne.symm hk) a hi⟩

/-! ## Refinement -/

/-- a list that is not there has no sequence -/
theorem Rel.absent (hr : Rel m own ss) {i : ℕ} (hl : ∀ l, m.lists[i]? = some (some l) → False) {xs : List T}
    (hx : ss[i]? = some (some xs)) : False := by
  obtain ⟨l, hl', -⟩ := hr.obj hx
  exact hl l hl'

/-- the outcome r of a member matches the outcome q on sequences, and the lists outside ts keep object and nodes -/
def Refines (m : Mem T) (own : ℕ → Nodes T) (r : Option (Out T × Mem T)) (q : Out T × Seqs T) (ts : List ℕ) : Prop :=
  ∃ m' own', r = some (q.1, m') ∧ Rel m' own' q.2 ∧
    ∀ k < m.lists.length, k ∉ ts → own' k = own k ∧ m'.lists[k]? = m.lists[k]?

/-- as `Refines`; and the orphans are those of before and the nodes in `lost` -/
def Accounts (m : Mem T) (own : ℕ → Nodes T) (r : Option (Out T × Mem T)) (q : Out T × Seqs T) (ts : List ℕ)
    (lost : List Addr) : Prop :=
  ∃ m' own', r = some (q.1, m') ∧ Rel m' own' q.2 ∧
    (∀ k < m.lists.length, k ∉ ts → own' k = own k ∧ m'.lists[k]? = m.lists[k]?) ∧
    ∀ a, Orphan m' own' a ↔ Orphan m own a ∨ a ∈ lost

/-- the nodes an operation drops: those of the target of a move assignment -/
def Op.lost (m : Mem T) (own : ℕ → Nodes T) : Op T → List Addr
  | .move i j =>
    match m.lists[i]?, m.lists[j]? with
    | some (some _), some (some _) => addrs (own i)
    | _, _ => []
  | _ => []

theorem accounts_same (hr : Rel m own ss) (out : Out T) (ts : List ℕ) :
    Accounts m own (some (out, m)) (out, ss) ts [] :=
  ⟨m, own, rfl, hr, fun _ _ _ => ⟨rfl, rfl⟩, by simp⟩

theorem accounts_set (hr : Rel m own ss) {i : ℕ} (hi : i < m.lists.length) {h' : Heap (Node T)} {ns : Nodes T}
    {e : Option Obj} {x : Option (List T)} {out : Out T} (he : Edit m.heap h' (addrs (own i)) (addrs ns))
    (hh : Holds h' e ns x) : Accounts m own (some (out, ⟨h', m.lists.set i e⟩)) (out, ss.set i x) [i] [] := by
  refine ⟨_, _, rfl, hr.set hi he hh, ?_, ?_⟩
  · intro k _ hk
    have hk : k ≠ i := by simpa using hk
    exact ⟨Function.update_of_ne hk _ _, List.getElem?_set_ne (Ne.symm hk)⟩
  · intro a
    rw [orphan_update he]
    simp

theorem accounts_append (hr : Rel m own ss) {h' : Heap (Node T)} {ns : Nodes T} {l : Obj} {xs : List T} {out : Out T}
    (he : Edit m.heap h' [] (addrs ns)) (hh : Holds h' (some l) ns (some xs)) :
    Accounts m own (some (out, ⟨h', m.lists ++ [some l]⟩)) (out, ss ++ [some xs]) [] [] := by
  refine ⟨_, _, rfl, hr.append he hh, ?_, ?_⟩
  · intro k hk _
    exact ⟨Function.update_of_ne (by omega) _ _, List.getElem?_append_left hk⟩
  · intro a
    have he' : Edit m.heap h' (addrs (own m.lists.length)) (addrs ns) := by
      rw [hr.outside _ le_rfl]
      exact he
    rw [orphan_update he']
    simp

theorem onList_accounts (hr : Rel m own ss) (i : ℕ) {f : Heap (Node T) → Obj → Option (Out T × Heap (Node T) × Obj)}
    {g : List T → Out T × List T}
    (hfg : ∀ l, Rep m.heap l (own i) → ∃ r, f m.heap l = some ((g ((own i).map Prod.snd)).1, r) ∧
      Becomes m.heap (own i) r (g ((own i).map Prod.snd)).2) :
    Accounts m own (onList m i f) (onSeq ss i g) [i] [] := by
  unfold onList onSeq
  split
  · rename_i l hl
    obtain ⟨hrep, hx⟩ := hr.seq hl
    obtain ⟨⟨h', l'⟩, e, ns, hns, hv, he⟩ := hfg l hrep
    rw [e, hx]
    exact accounts_set hr (List.getElem?_eq_some_iff.1 hl).1 he ⟨hns, hv⟩
  · rename_i hl
    split
    · rename_i xs hx; exact (hr.absent hl hx).elim
    · exact accounts_same hr _ _

theorem readList_accounts (hr : Rel m own ss) (i : ℕ) {f : Heap (Node T) → Obj → Option (Out T)} {g : List T → Out T}
    (hfg : ∀ l, Rep m.heap l (own i) → f m.heap l = some (g ((own i).map Prod.snd))) :
    Accounts m own (readList m i f) (readSeq ss i g) [] [] := by
  unfold readList readSeq
  split
  · rename_i l hl
    obtain ⟨hrep, hx⟩ := hr.seq hl
    rw [hfg l hrep, hx]
    exact accounts_same hr _ _
  · rename_i hl
    split
    · rename_i xs hx; exact (hr.absent hl hx).elim
    · exact accounts_same hr _ _

/-- **One member on the heap**: it refines its sequence operation, and only a move assignment orphans nodes. -/
theorem exec_accounts (A : Allocator (Node T)) (shows : T → String) (hr : Rel m own ss) (o : Op T) :
    Accounts m own (exec A shows m o) (seqExec shows ss o) o.targets (o.lost m own) := by
  cases o with
  | create =>
    have he : Edit m.heap m.heap [] (addrs ([] : Nodes T)) := Edit.refl _ _
    exact accounts_append hr he ⟨twin_nil _ _ _ _, rfl⟩
  | pushBack i v =>
    simp only [exec, seqExec, Op.targets, Op.lost]
    apply onList_accounts hr i
    intro l hl
    obtain ⟨r, e, hb⟩ := pushBack_spec A hl v
    exact ⟨r, by rw [e]; rfl, hb⟩
  | pushFront i v =>
    simp only [exec, seqExec, Op.targets, Op.lost]
    apply onList_accounts hr i
    intro l hl
    obtain ⟨r, e, hb⟩ := pushFront_spec A hl v
    exact ⟨r, by rw [e]; rfl, hb⟩
  | popBack i =>
    simp only [exec, seqExec, Op.targets, Op.lost]
    apply onList_accounts hr i
    intro l hl
    rcases (own i).eq_nil_or_concat with h0 | ⟨ns, n, h0⟩
    · rw [h0] at hl ⊢
      exact ⟨(m.heap, l), by rw [popBack_nil hl]; rfl, [], hl, rfl, Edit.refl _ _⟩
    · rw [h0, List.concat_eq_append] at hl ⊢
      obtain ⟨r, e, hb⟩ := popBack_spec hl
      rw [List.map_append, List.map_singleton, dropBack_snoc]
      exact ⟨r, by rw [e]; rfl, hb⟩
  | popFront i =>
    simp only [exec, seqExec, Op.targets, Op.lost]
    apply onList_accounts hr i
    intro l hl
    cases h0 : own i with
    | nil =>
      rw [h0] at hl
      exact ⟨(m.heap, l), by rw [popFront_nil hl]; rfl, [], hl, rfl, Edit.refl _ _⟩
    | cons n ns =>
      rw [h0] at hl
      obtain ⟨r, e, hb⟩ := popFront_spec hl
      exact ⟨r, by rw [e]; rfl, hb⟩
  | eraseAll i =>
    simp only [exec, seqExec, Op.targets, Op.lost]
    apply onList_accounts hr i
    intro l hl
    obtain ⟨h', e, he⟩ := eraseAll_spec hl
    exact ⟨(h', ⟨none, none⟩), by rw [e]; rfl, [], twin_nil _ _ _ _, rfl, he⟩
  | front i =>
    simp only [exec, seqExec, Op.targets, Op.lost]
    apply readList_accounts hr i
    intro l hl
    rw [front_spec hl]
    cases ((own i).map Prod.snd).head? <;> rfl
  | back i =>
    simp only [exec, seqExec, Op.targets, Op.lost]
    apply readList_accounts hr i
    intro l hl
    rw [back_spec hl]
    cases ((own i).map Prod.snd).getLast? <;> rfl
  | size i =>
    simp only [exec, seqExec, Op.targets, Op.lost]
    apply readList_accounts hr i
    intro l hl
    rw [size_spec hl, List.length_map]
    rfl
  | empty i =>
    simp only [exec, seqExec, Op.targets, Op.lost]
    apply readList_accounts hr i
    intro l hl
    rw [empty_spec hl]
    cases own i <;> rfl
  | print i =>
    simp only [exec, seqExec, Op.targets, Op.lost]
    apply readList_accounts hr i
    intro l hl
    rw [print_spec shows hl, List.map_map]
    rfl
  | iterate i =>
    simp only [exec, seqExec, Op.targets, Op.lost]
    apply readList_accounts hr i
    intro l hl
    rw [iterate_spec hl]
    rfl
  | copy i =>
    simp only [exec, seqExec]
    split
    · rename_i l hl
      obtain ⟨hrep, hx⟩ := hr.seq hl
      obtain ⟨⟨h', l'⟩, e, ns, hns, hv, he⟩ := copy_spec A hrep
      rw [e, hx]
      exact accounts_append hr he ⟨hns, hv⟩
    · rename_i hl
      split
      · rename_i xs hx; exact (hr.absent hl hx).elim
      · exact accounts_same hr _ _
  | move i j =>
    simp only [exec, seqExec]
    split
    · rename_i l other hi hj
      obtain ⟨-, hxi⟩ := hr.seq hi
      obtain ⟨-, hxj⟩ := hr.seq hj
      have hlost : (Op.move i j : Op T).lost m own = addrs (own i) := by simp only [Op.lost, hi, hj]
      rw [hxi, hxj, hlost]
      refine ⟨_, _, rfl, hr.move hi hj, ?_, hr.orphan_move i j _⟩
      intro k _ hk
      have hk : k ≠ i ∧ k ≠ j := by simpa [Op.targets] using hk
      refine ⟨?_, ?_⟩
      · rw [Function.update_of_ne hk.2, Function.update_of_ne hk.1]
      · rw [List.getElem?_set_ne (Ne.symm hk.2), List.getElem?_set_ne (Ne.symm hk.1)]
    · rename_i hl
      split
      · rename_i xs ys hx hy
        obtain ⟨l, hl1, -⟩ := hr.obj hx
        obtain ⟨other, hl2, -⟩ := hr.obj hy
        exact absurd hl2 (hl l other hl1)
      · have hlost : (Op.move i j : Op T).lost m own = [] := by
          simp only [Op.lost]
        rw [hlost]
        exact accounts_same hr _ _
  | destroy i =>
    simp only [exec, seqExec]
    split
    · rename_i l hl
      obtain ⟨hrep, hx⟩ := hr.seq hl
      obtain ⟨h', e, he⟩ := eraseAll_spec hrep
      rw [hx, destroy, e]
      have he : Edit m.heap h' (addrs (own i)) (addrs ([] : Nodes T)) := he
      exact accounts_set hr (List.getElem?_eq_some_iff.1 hl).1 he rfl
    · rename_i hl
      split
      · rename_i xs hx; exact (hr.absent hl hx).elim
      · exact accounts_same hr _ _

/-- **One member refines its sequence operation.** -/
theorem exec_refines (A : Allocator (Node T)) (shows : T → String) (hr : Rel m own ss) (o : Op T) :
    Refines m own (exec A shows m o) (seqExec shows ss o) o.targets := by
  obtain ⟨m', own', e, hr', hfr, -⟩ := exec_accounts A shows hr o
  exact ⟨m', own', e, hr', hfr⟩

end Rel

/-! ## Runs -/

section Runs

variable (A : Allocator (Node T)) (shows : T → String)

/-- the two machines agree -/
def Agree (s : St T) (q : SeqSt T) : Prop := (∃ own, Rel s.mem own q.seqs) ∧ s.outs = q.outs ∧ s.undefined = false

theorem step_agree (s : St T) (q : SeqSt T) (o : Op T) (h : Agree s q) :
    Agree (step A shows s o) (seqStep shows q o) := by
  obtain ⟨⟨own, hr⟩, ho, hu⟩ := h
  obtain ⟨m', own', e, hr', -⟩ := exec_refines A shows hr o
  simp only [step, e, seqStep]
  exact ⟨⟨own', hr'⟩, by rw [ho], hu⟩

theorem run_agree (ops : List (Op T)) :
    Agree ((machine A shows).run init ops) ((seqMachine shows).run ⟨[], []⟩ ops) :=
  (machine A shows).run_lockstep (seqMachine shows) (step_agree A shows) ⟨⟨_, rel_init⟩, rfl, rfl⟩ ops

/-- the values met from head_ along next_ -/
def forward (h : Heap (Node T)) (l : Obj) : Option (List T) :=
  walk h Node.next Node.value (h.created.length + 1) l.head

/-- the values met from tail_ along prev_ -/
def backward (h : Heap (Node T)) (l : Obj) : Option (List T) :=
  walk h Node.prev Node.value (h.created.length + 1) l.tail

theorem forward_spec {h : Heap (Node T)} {l : Obj} {ns : Nodes T} (hr : Rep h l ns) :
    forward h l = some (ns.map Prod.snd) := hr.fwd.walk_eq hr.fuel

theorem backward_spec {h : Heap (Node T)} {l : Obj} {ns : Nodes T} (hr : Rep h l ns) :
    backward h l = some (ns.map Prod.snd).reverse := by
  rw [backward, hr.bwd.walk_eq (by simpa using hr.fuel), List.map_reverse]

/-- the operations that throw on an empty list i -/
def throwing (i : ℕ) : List (Op T) := [.popBack i, .popFront i, .front i, .back i]

theorem seqExec_throwing {ss : Seqs T} {i : ℕ} {xs : List T} (hx : ss[i]? = some (some xs)) {o : Op T}
    (ho : o ∈ throwing i) : (∃ e, (seqExec shows ss o).1 = .throws e) ↔ xs = [] := by
  simp only [throwing, List.mem_cons, List.not_mem_nil, or_false] at ho
  rcases ho with rfl | rfl | rfl | rfl <;> cases xs <;>
    simp [seqExec, onSeq, readSeq, hx, dropBack, dropFront, List.getLast?_cons]

/-- on an empty list they throw, and change nothing -/
theorem exec_throwing {m : Mem T} {own : ℕ → Nodes T} {ss : Seqs T} (hr : Rel m own ss) {i : ℕ}
    (hx : ss[i]? = some (some [])) {o : Op T} (ho : o ∈ throwing i) :
    ∃ e, exec A shows m o = some (.throws e, m) := by
  obtain ⟨l, hl, hrep, hv⟩ := hr.obj hx
  rw [List.map_eq_nil_iff] at hv
  rw [hv] at hrep
  have hset : m.lists.set i (some l) = m.lists := by
    obtain ⟨hi, he⟩ := List.getElem?_eq_some_iff.1 hl
    rw [← he, List.set_getElem_self]
  simp only [throwing, List.mem_cons, List.not_mem_nil, or_false] at ho
  rcases ho with rfl | rfl | rfl | rfl
  · exact ⟨_, by simp only [exec, onList, hl, popBack_nil hrep, Option.map_some, hset]; rfl⟩
  · exact ⟨_, by simp only [exec, onList, hl, popFront_nil hrep, Option.map_some, hset]; rfl⟩
  · exact ⟨_, by simp only [exec, readList, hl, front_spec hrep, Option.map_some]; rfl⟩
  · exact ⟨_, by simp only [exec, readList, hl, back_spec hrep, Option.map_some]; rfl⟩

/-- **list<T> refines sequences.** For every run over any number of lists, each starting empty: no operation is
undefined; every result is the one the sequences dictate; each list's values from head_ along next_ are its sequence,
and from tail_ along prev_ its reverse. In every state reached, pop_back, pop_front, front and back throw exactly on the
empty sequence, and then change nothing; and an operation changes neither the object nor the values of a list it is not
about. -/
theorem list_refines_sequences (ops : List (Op T)) :
    let s := (machine A shows).run init ops
    let q := (seqMachine shows).run ⟨[], []⟩ ops
    s.undefined = false ∧ s.outs = q.outs ∧ s.mem.lists.length = q.seqs.length ∧
      (∀ i : ℕ, q.seqs[i]? = some none → s.mem.lists[i]? = some none) ∧
      (∀ (i : ℕ) xs, q.seqs[i]? = some (some xs) → ∃ l, s.mem.lists[i]? = some (some l) ∧
        forward s.mem.heap l = some xs ∧ backward s.mem.heap l = some xs.reverse) ∧
      (∀ (i : ℕ) xs, q.seqs[i]? = some (some xs) → ∀ o ∈ throwing i, ∃ out m, exec A shows s.mem o = some (out, m) ∧
        ((∃ e, out = .throws e) ↔ xs = []) ∧ (xs = [] → m = s.mem)) ∧
      ∀ (o : Op T) (k : ℕ) (l : Obj), k ∉ o.targets → s.mem.lists[k]? = some (some l) →
        let s' := step A shows s o
        s'.mem.lists[k]? = some (some l) ∧ forward s'.mem.heap l = forward s.mem.heap l ∧
          backward s'.mem.heap l = backward s.mem.heap l := by
  intro s q
  obtain ⟨⟨own, hr⟩, ho, hu⟩ : Agree s q := run_agree A shows ops
  refine ⟨hu, ho, hr.length, ?_, ?_, ?_, ?_⟩
  · intro i hi
    obtain ⟨e, x, he, hx, hh⟩ := hr.get (hr.length ▸ (List.getElem?_eq_some_iff.1 hi).1)
    obtain rfl : x = none := Option.some.inj (hx.symm.trans hi)
    cases e with
    | none => exact he
    | some l => exact hh.elim
  · intro i xs hi
    obtain ⟨l, hl, hrep, rfl⟩ := hr.obj hi
    exact ⟨l, hl, forward_spec hrep, backward_spec hrep⟩
  · intro i xs hi o hth
    obtain ⟨m', own', e, hr', -⟩ := exec_refines A shows hr o
    refine ⟨_, m', e, seqExec_throwing shows hi hth, ?_⟩
    intro hxs
    subst hxs
    obtain ⟨_, e'⟩ := exec_throwing A shows hr hi hth
    rw [e] at e'
    exact (Prod.ext_iff.1 (Option.some.inj e')).2
  · intro o k l hk hl
    obtain ⟨m', own', e, hr', hfr⟩ := exec_refines A shows hr o
    obtain ⟨ho', hl'⟩ := hfr k (List.getElem?_eq_some_iff.1 hl).1 hk
    have hl1 : m'.lists[k]? = some (some l) := hl'.trans hl
    have h0 := (hr.seq hl).1
    have h1 := (hr'.seq hl1).1
    rw [ho'] at h1
    intro s'
    have hs : s'.mem = m' := by simp only [s', step, e]
    rw [hs]
    exact ⟨hl1, by rw [forward_spec h0, forward_spec h1], by rw [backward_spec h0, backward_spec h1]⟩

end Runs

/-- both ends, a copy that outlives a change of its source, a move, and an underflow -/
example : ((machine Allocator.bump fun n : ℕ => toString n).run init [.create, .pushBack 0 1, .pushBack 0 2,
    .pushFront 0 3, .copy 0, .popFront 0, .iterate 0, .print 1, .create, .move 2 1, .back 2, .popBack 1]).outs =
    [.done, .done, .done, .done, .done, .done, .values [1, 2], .text "3->1->2", .done, .done, .value 2,
      .throws ⟨"Stack underflow."⟩] := by decide

end Gss.ListRuns
