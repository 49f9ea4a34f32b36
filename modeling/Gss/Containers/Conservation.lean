/-
Conservation of the nodes of `list<T>`, over any run of its members on any number of lists that share one heap.

A node is created by `new` and ends with `delete`. At one address creations and deletions alternate, since `new` picks
an address that is not live and the deletion of a cell that is not live is undefined. So the nodes created at an address
have all been deleted, each once, or all but the last, which is the live cell.

- `conserves_iff`: the nodes are conserved exactly when no live node is an orphan.
- `node_conservation_iff`: the nodes are conserved in every state of a run exactly when every move assignment of the run
  has an empty target. The move assignment overwrites head_ and tail_ without erase_all; the other members lose nothing.
- `move_leaks`: a move onto a non-empty list, and the node that nobody owns after it.
-/
import Gss.Containers.ListRuns

namespace Gss.ListRuns

open Gss.Core Gss.Containers

variable {T : Type}

/-! ## What is to be conserved -/

/-- the node at a is reachable from head_ of the living list i -/
def FromHead (m : Mem T) (i : ℕ) (a : Addr) : Prop :=
  ∃ l, m.lists[i]? = some (some l) ∧ Reaches m.heap Node.next l.head a

/-- Each node ever created has been deleted exactly once or is reachable from head_ of exactly one living list. -/
structure Conserves (s : St T) : Prop where
  /-- no node was deleted twice, or used after its deletion -/
  defined : s.undefined = false
  nodes : ∀ a, s.mem.heap.created.count a = s.mem.heap.deleted.count a ∨
    s.mem.heap.created.count a = s.mem.heap.deleted.count a + 1 ∧ ∃! i, FromHead s.mem i a
  /-- when all lists have been destroyed, every node has been deleted -/
  ends : (∀ e ∈ s.mem.lists, e = none) → ∀ a, s.mem.heap.created.count a = s.mem.heap.deleted.count a

/-- the operation is no move assignment onto a non-empty list -/
def Spares (s : St T) (o : Op T) : Prop :=
  ∀ (i j : ℕ) (l other : Obj), o = .move i j → s.mem.lists[i]? = some (some l) →
    s.mem.lists[j]? = some (some other) → l.head = none

/-! ## Orphans -/

section Rel

variable {m : Mem T} {own : ℕ → Nodes T} {ss : Seqs T}

/-- the nodes reachable from head_ of a list are the nodes it owns -/
theorem Rel.fromHead_iff (hr : Rel m own ss) (i : ℕ) (a : Addr) : FromHead m i a ↔ a ∈ addrs (own i) := by
  constructor
  · intro hin
    obtain ⟨l, hl, ha⟩ := hin
    exact ((hr.seq hl).1.fwd.reaches_iff a).1 ha
  · intro ha
    by_cases hi : i < m.lists.length
    · obtain ⟨e, x, he, -, hh⟩ := hr.get hi
      cases e <;> cases x
      · rw [show own i = [] from hh] at ha
        cases ha
      · exact hh.elim
      · exact hh.elim
      · exact ⟨_, he, (hh.1.fwd.reaches_iff a).2 ha⟩
    · rw [hr.outside i (not_lt.1 hi)] at ha
      cases ha

theorem conserves_iff {s : St T} (hr : Rel s.mem own ss) (hu : s.undefined = false) :
    Conserves s ↔ ∀ a, ¬ Orphan s.mem own a := by
  constructor
  · intro hc a horph
    obtain ⟨⟨c, ha⟩, hno⟩ := horph
    have hcount := Heap.count_live ha
    rcases hc.nodes a with h | ⟨-, i, hi, -⟩
    · omega
    · exact hno i ((hr.fromHead_iff i a).1 hi)
  · intro hno
    have nodes : ∀ a, s.mem.heap.created.count a = s.mem.heap.deleted.count a ∨
        s.mem.heap.created.count a = s.mem.heap.deleted.count a + 1 ∧ ∃! i, FromHead s.mem i a := by
      intro a
      cases ha : s.mem.heap.cells a with
      | none => exact Or.inl (Heap.count_dead ha)
      | some c =>
        obtain ⟨i, hi⟩ : ∃ i, a ∈ addrs (own i) := by
          by_contra hne
          exact hno a ⟨⟨c, ha⟩, not_exists.1 hne⟩
        refine Or.inr ⟨Heap.count_live ha, i, (hr.fromHead_iff i a).2 hi, ?_⟩
        intro k hk
        by_contra hne
        exact hr.disjoint k i hne a ((hr.fromHead_iff k a).1 hk) hi
    refine ⟨hu, nodes, ?_⟩
    intro hall a
    rcases nodes a with h | ⟨-, i, ⟨l, hl, -⟩, -⟩
    · exact h
    · cases hall _ (List.mem_of_getElem? hl)

/-- an operation drops no node exactly when it is no move assignment onto a non-empty list -/
theorem spares_iff {s : St T} (hr : Rel s.mem own ss) (o : Op T) : Spares s o ↔ o.lost s.mem own = [] := by
  cases o with
  | move i j =>
    simp only [Op.lost]
    split
    · rename_i l other hl hother
      have hlost : addrs (own i) = [] ↔ l.head = none := by
        rw [(hr.seq hl).1.head_none_iff]
        simp [addrs]
      rw [hlost]
      constructor
      · intro h
        exact h i j l other rfl hl hother
      · intro h i' j' l' other' ho hl' _
        cases ho
        cases hl.symm.trans hl'
        exact h
    · rename_i hno
      refine iff_of_true ?_ rfl
      intro i' j' l' other' ho hl' hother'
      cases ho
      exact absurd hother' (hno l' other' hl')
  | _ =>
    refine iff_of_true ?_ rfl
    intro i j l other ho
    cases ho

end Rel

/-! ## Runs -/

section Runs

variable (A : Allocator (Node T)) (shows : T → String)

/-- the lists own disjoint chains, and every live node is owned -/
def Owned (s : St T) : Prop :=
  ∃ own ss, Rel s.mem own ss ∧ s.undefined = false ∧ ∀ a, ¬ Orphan s.mem own a

theorem step_accounts {s : St T} {own : ℕ → Nodes T} {ss : Seqs T} (hr : Rel s.mem own ss)
    (hu : s.undefined = false) (o : Op T) :
    ∃ own' ss', Rel (step A shows s o).mem own' ss' ∧ (step A shows s o).undefined = false ∧
      ∀ a, Orphan (step A shows s o).mem own' a ↔ Orphan s.mem own a ∨ a ∈ o.lost s.mem own := by
  obtain ⟨m', own', e, hr', -, ho⟩ := exec_accounts A shows hr o
  simp only [step, e]
  exact ⟨own', _, hr', hu, ho⟩

/-- **Node conservation.** The nodes are conserved in every state a run passes through exactly when no step of the run
is a move assignment onto a non-empty list. -/
theorem node_conservation_iff (ops : List (Op T)) :
    (∀ s ∈ (machine A shows).visited init ops, Conserves s) ↔ (machine A shows).Along Spares init ops := by
  refine (machine A shows).visited_iff_along (I := Owned) ?_ ?_ ?_ ?_ ops
  · intro s hs
    obtain ⟨own, ss, hr, hu, hno⟩ := hs
    exact (conserves_iff hr hu).2 hno
  · intro s o hs hP
    obtain ⟨own, ss, hr, hu, hno⟩ := hs
    obtain ⟨own', ss', hr', hu', ho⟩ := step_accounts A shows hr hu o
    refine ⟨own', ss', hr', hu', ?_⟩
    intro a ha
    rcases (ho a).1 ha with h | h
    · exact hno a h
    · rw [(spares_iff hr o).1 hP] at h
      cases h
  · intro s o hs hP hc
    obtain ⟨own, ss, hr, hu, hno⟩ := hs
    obtain ⟨own', ss', hr', hu', ho⟩ := step_accounts A shows hr hu o
    rw [spares_iff hr o] at hP
    obtain ⟨a, ha⟩ := List.exists_mem_of_ne_nil _ hP
    exact (conserves_iff hr' hu').1 hc a ((ho a).2 (Or.inr ha))
  · exact ⟨_, _, rel_init, rfl, fun a ha => by obtain ⟨⟨c, hc⟩, -⟩ := ha; cases hc⟩

end Runs

/-- a list of one node is moved onto another; then both lists are destroyed -/
def leakOps : List (Op ℕ) := [.create, .pushBack 0 7, .create, .pushBack 1 8, .move 0 1, .destroy 1, .destroy 0]

/-- **The old node of the target is lost.** It is never deleted, and no list is left that reaches it. -/
theorem move_leaks :
    let s := (machine Allocator.bump fun n : ℕ => toString n).run init leakOps
    ¬ Conserves s ∧ s.mem.lists = [none, none] ∧ s.mem.heap.created = [1, 2] ∧ s.mem.heap.deleted = [2] ∧
      s.mem.heap.cells 1 = some ⟨7, none, none⟩ := by
  intro s
  have hl : s.mem.lists = [none, none] := by decide
  have hc : s.mem.heap.created = [1, 2] := by decide
  have hd : s.mem.heap.deleted = [2] := by decide
  refine ⟨?_, hl, hc, hd, by decide⟩
  intro h
  have hcount := h.ends (by rw [hl]; simp) 1
  rw [hc, hd] at hcount
  cases hcount

end Gss.ListRuns
