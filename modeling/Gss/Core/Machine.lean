/-
Deterministic machines driven by a list of operations, and the rules every component of the development is proved with.

A machine is an initial state and a total `step`. Nondeterminism (which thread moves, what a client sends, in which
order a hash set is walked) is in the operations: a run is ANY list of operations, so a statement about all runs covers
every interleaving. An operation whose guard fails leaves the state as it is.

- `invariant`: a predicate of the initial state that every step keeps holds in every reachable state.
- `run_rel`: a preorder that every step respects relates the two ends of a run.
- `run_lockstep`: a relation between two machines that one operation keeps is kept by a run.
- `along_invariant`: the same as `invariant` for runs whose steps all meet a condition.
- `mem_visited`: the states a run passes through are the states after its prefixes.
- `visited_iff_along`: when a property of all states passed through amounts to a condition on all steps.
- `run_progress`: enough steps of one kind, with any others between them, reach a goal.
- `Proj`: a functional simulation. Each step of the concrete machine is a (possibly empty) run of the abstract one, so
  every reachable concrete state is mapped to a reachable abstract state (`Proj.reachable`).
-/
import Mathlib.Tactic

namespace Gss.Core

structure Machine (σ α : Type*) where
  init : σ
  step : σ → α → σ

namespace Machine

variable {σ α τ β : Type*}

def run (M : Machine σ α) (s : σ) (ops : List α) : σ := ops.foldl M.step s

@[simp] theorem run_nil (M : Machine σ α) (s : σ) : M.run s [] = s := rfl

@[simp] theorem run_cons (M : Machine σ α) (s : σ) (o : α) (ops : List α) :
    M.run s (o :: ops) = M.run (M.step s o) ops := rfl

theorem run_append (M : Machine σ α) (s : σ) (a b : List α) : M.run s (a ++ b) = M.run (M.run s a) b := by
  simp [run, List.foldl_append]

theorem run_snoc (M : Machine σ α) (s : σ) (l : List α) (o : α) : M.run s (l ++ [o]) = M.step (M.run s l) o := by
  simp [run_append]

/-! ## Reachable states and invariants -/

def Reachable (M : Machine σ α) (s : σ) : Prop := ∃ ops, s = M.run M.init ops

theorem reachable_run (M : Machine σ α) (ops : List α) : M.Reachable (M.run M.init ops) := ⟨ops, rfl⟩

theorem Reachable.run {M : Machine σ α} {s : σ} (h : M.Reachable s) (ops : List α) : M.Reachable (M.run s ops) := by
  obtain ⟨l, rfl⟩ := h
  exact ⟨l ++ ops, (run_append M _ l ops).symm⟩

theorem Reachable.step {M : Machine σ α} {s : σ} (h : M.Reachable s) (o : α) : M.Reachable (M.step s o) :=
  h.run [o]

/-- a step-preserved predicate is kept by a whole run, from any state that has it -/
theorem run_invariant (M : Machine σ α) {I : σ → Prop} (hs : ∀ s o, I s → I (M.step s o)) {s : σ} (h : I s)
    (ops : List α) : I (M.run s ops) := by
  induction ops generalizing s with
  | nil => exact h
  | cons o ops ih => exact ih (hs s o h)

/-- **Invariant rule.** -/
theorem invariant (M : Machine σ α) {I : σ → Prop} (h0 : I M.init) (hs : ∀ s o, I s → I (M.step s o)) {s : σ}
    (h : M.Reachable s) : I s := by
  obtain ⟨ops, rfl⟩ := h
  exact M.run_invariant hs h0 ops

/-- **Monotonicity rule.** A preorder respected by every step from a state with the invariant `I` relates the ends of
a run. -/
theorem run_rel (M : Machine σ α) {I : σ → Prop} {R : σ → σ → Prop} (hI : ∀ s o, I s → I (M.step s o))
    (hrefl : ∀ s, R s s) (htrans : ∀ s t u, R s t → R t u → R s u) (hstep : ∀ s o, I s → R s (M.step s o)) {s : σ}
    (h : I s) (ops : List α) : R s (M.run s ops) := by
  induction ops generalizing s with
  | nil => exact hrefl s
  | cons o ops ih => exact htrans _ _ _ (hstep s o h) (ih (hI s o h))

/-- **Lockstep rule.** A relation that one operation keeps on both machines is kept by a whole run on both. -/
theorem run_lockstep (M : Machine σ α) (N : Machine τ α) {R : σ → τ → Prop}
    (hs : ∀ s t o, R s t → R (M.step s o) (N.step t o)) {s : σ} {t : τ} (h : R s t) (ops : List α) :
    R (M.run s ops) (N.run t ops) := by
  induction ops generalizing s t with
  | nil => exact h
  | cons o ops ih => exact ih (hs s t o h)

/-! ## Runs whose steps all meet a condition -/

/-- every step of the run from `s` along `ops` meets `P` -/
def Along (M : Machine σ α) (P : σ → α → Prop) : σ → List α → Prop
  | _, [] => True
  | s, o :: ops => P s o ∧ M.Along P (M.step s o) ops

instance decidableAlong (M : Machine σ α) (P : σ → α → Prop) [∀ s o, Decidable (P s o)] :
    ∀ s ops, Decidable (M.Along P s ops)
  | _, [] => isTrue trivial
  | s, o :: ops =>
    have := decidableAlong M P (M.step s o) ops
    inferInstanceAs (Decidable (P s o ∧ M.Along P (M.step s o) ops))

/-- **Conditional invariant rule.** -/
theorem along_invariant (M : Machine σ α) {I : σ → Prop} {P : σ → α → Prop}
    (hs : ∀ s o, I s → P s o → I (M.step s o)) {s : σ} (h : I s) {ops : List α} (hP : M.Along P s ops) :
    I (M.run s ops) := by
  induction ops generalizing s with
  | nil => exact h
  | cons o ops ih => exact ih (hs s o h hP.1) hP.2

/-- a run either meets `P` at every step or has a last step that does not -/
theorem along_or_last (M : Machine σ α) (P : σ → α → Prop) (s : σ) (ops : List α) :
    M.Along P s ops ∨ ∃ a o b, ops = a ++ o :: b ∧ ¬ P (M.run s a) o ∧ M.Along P (M.step (M.run s a) o) b := by
  classical
  induction ops generalizing s with
  | nil => exact Or.inl trivial
  | cons o ops ih =>
    rcases ih (M.step s o) with h | ⟨a, o', b, rfl, h1, h2⟩
    · by_cases ho : P s o
      · exact Or.inl ⟨ho, h⟩
      · exact Or.inr ⟨[], o, ops, rfl, ho, h⟩
    · exact Or.inr ⟨o :: a, o', b, rfl, h1, h2⟩

/-! ## The states a run passes through -/

def visited (M : Machine σ α) (s : σ) (ops : List α) : List σ := ops.scanl M.step s

theorem mem_visited (M : Machine σ α) (s : σ) (ops : List α) (x : σ) :
    x ∈ M.visited s ops ↔ ∃ a b, ops = a ++ b ∧ x = M.run s a := by
  unfold visited
  induction ops generalizing s with
  | nil =>
    simp only [List.scanl_nil, List.mem_singleton]
    constructor
    · rintro rfl; exact ⟨[], [], rfl, rfl⟩
    · rintro ⟨a, b, h, rfl⟩
      rw [(List.append_eq_nil_iff.1 h.symm).1]; rfl
  | cons o ops ih =>
    rw [List.scanl_cons, List.mem_cons, ih]
    constructor
    · rintro (rfl | ⟨a, b, rfl, rfl⟩)
      · exact ⟨[], o :: ops, rfl, rfl⟩
      · exact ⟨o :: a, b, rfl, rfl⟩
    · rintro ⟨a, b, h, rfl⟩
      cases a with
      | nil => exact Or.inl rfl
      | cons o' a =>
        simp only [List.cons_append, List.cons.injEq] at h
        obtain ⟨rfl, rfl⟩ := h
        exact Or.inr ⟨a, b, rfl, rfl⟩

/-- **Exactness rule.** The states a run passes through all have `Q` exactly when its steps all meet `P`: where the
invariant `I` holds, so does `Q`; a step that meets `P` keeps `I`, and a step that does not ends in a state without
`Q`. -/
theorem visited_iff_along (M : Machine σ α) {I Q : σ → Prop} {P : σ → α → Prop} (hQ : ∀ s, I s → Q s)
    (hs : ∀ s o, I s → P s o → I (M.step s o)) (hn : ∀ s o, I s → ¬ P s o → ¬ Q (M.step s o)) {s : σ} (h : I s)
    (ops : List α) : (∀ x ∈ M.visited s ops, Q x) ↔ M.Along P s ops := by
  induction ops generalizing s with
  | nil =>
    refine iff_of_true ?_ trivial
    intro x hx
    obtain rfl : x = s := by simpa [visited] using hx
    exact hQ x h
  | cons o ops ih =>
    have hvis : M.visited s (o :: ops) = s :: M.visited (M.step s o) ops := List.scanl_cons ..
    rw [hvis, List.forall_mem_cons]
    constructor
    · intro hrun
      obtain ⟨_, hall⟩ := hrun
      have hP : P s o := by
        by_contra hP
        exact hn s o h hP (hall _ ((M.mem_visited _ _ _).2 ⟨[], ops, rfl, rfl⟩))
      exact ⟨hP, (ih (hs s o h hP)).1 hall⟩
    · intro hrun
      obtain ⟨hP, hall⟩ := hrun
      exact ⟨hQ s h, (ih (hs s o h hP)).2 hall⟩

/-! ## Progress -/

/-- the number of steps of the run from `s` along `ops` that meet `P` -/
def tally (M : Machine σ α) (P : σ → α → Bool) : σ → List α → ℕ
  | _, [] => 0
  | s, o :: ops => (P s o).toNat + M.tally P (M.step s o) ops

/-- **Progress rule.** `J n` says that n steps of the kind `P` are to go, and there is always one before the goal `Q`.
Each step that meets `P` uses one up and no step adds one, unless it reaches `Q`. Then a run with n of them reaches `Q`,
whatever the other steps are. -/
theorem run_progress (M : Machine σ α) {J : ℕ → σ → Prop} {Q : σ → Prop} {P : σ → α → Bool} (h0 : ∀ s, ¬ J 0 s)
    (hQ : ∀ s o, Q s → Q (M.step s o))
    (hs : ∀ n s o, J n s → Q (M.step s o) ∨ ∃ m, m + (P s o).toNat ≤ n ∧ J m (M.step s o)) {n : ℕ} {s : σ} (h : J n s)
    {ops : List α} (hn : n ≤ M.tally P s ops) : Q (M.run s ops) := by
  induction ops generalizing n s with
  | nil =>
    obtain rfl : n = 0 := Nat.le_zero.1 hn
    exact absurd h (h0 s)
  | cons o ops ih =>
    rw [tally] at hn
    rcases hs n s o h with hq | ⟨m, hm, hj⟩
    · exact M.run_invariant hQ hq ops
    · exact ih hj (by omega)

/-! ## Functional simulation -/

/-- `M` projects onto `N`: the image of each step of `M` is a run of `N` -/
structure Proj (M : Machine σ α) (N : Machine τ β) where
  abs : σ → τ
  init : abs M.init = N.init
  step : ∀ s o, ∃ l, abs (M.step s o) = N.run (abs s) l

theorem Proj.reachable {M : Machine σ α} {N : Machine τ β} (p : M.Proj N) {s : σ} (h : M.Reachable s) :
    N.Reachable (p.abs s) := by
  refine M.invariant (I := fun s => N.Reachable (p.abs s)) ⟨[], p.init⟩ ?_ h
  intro s o hs
  obtain ⟨l, hl⟩ := p.step s o
  rw [hl]
  exact hs.run l

end Machine

end Gss.Core
