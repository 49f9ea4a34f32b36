/-
Token counting over a population of processes.

`f : α → Option β` says which processes of a list hold a token, and which one. The facts below say what a change of ONE
process does to the tokens held (`l.filterMap f`):
- `filterMap_set_split`: the other processes' tokens stay where they are, on both sides of the changed one;
- `filterMap_set_same`: nothing changes when the process keeps its token (or its lack of one);
- `filterMap_set_nil`: when nobody holds a token, the result is what the new process holds;
- `filterMap_set_sole`: when exactly one token exists, here or in a pool `rest` outside the population, and the process
  holds one, then it is that token, the pool is empty, and the result is what the new process holds;
- `holders_eq`: two processes with a token are the same process when there is only one;
- `sole_getElem`: a pool with one entry, found at index k.

`getElem?_set_at`, `getElem?_set_cases` say where the processes stand after the change.
-/
import Mathlib.Tactic

namespace Gss.Core

variable {α β : Type*}

/-- the changed process -/
theorem getElem?_set_at {l : List α} {i : ℕ} {x : α} (h : l[i]? = some x) (y : α) : (l.set i y)[i]? = some y :=
  List.getElem?_set_self (List.getElem?_eq_some_iff.1 h).1

/-- a process after the change is the changed one or stands where it stood -/
theorem getElem?_set_cases {l : List α} {i j : ℕ} {x y z : α} (h : l[i]? = some x) (hj : (l.set i y)[j]? = some z) :
    j = i ∧ z = y ∨ j ≠ i ∧ l[j]? = some z := by
  by_cases hji : j = i
  · subst hji
    rw [getElem?_set_at h, Option.some.injEq] at hj
    exact Or.inl ⟨rfl, hj.symm⟩
  · rw [List.getElem?_set_ne (Ne.symm hji)] at hj
    exact Or.inr ⟨hji, hj⟩

theorem filterMap_set_split (f : α → Option β) {l : List α} {i : ℕ} {x : α} (h : l[i]? = some x) :
    ∃ a b, l.filterMap f = a ++ (f x).toList ++ b ∧ ∀ y, (l.set i y).filterMap f = a ++ (f y).toList ++ b := by
  induction l generalizing i with
  | nil => simp at h
  | cons z l ih =>
    cases i with
    | zero =>
      simp only [List.getElem?_cons_zero, Option.some.injEq] at h
      subst h
      refine ⟨[], l.filterMap f, ?_, ?_⟩
      · cases hz : f z <;> simp [hz]
      · intro y
        cases hy : f y <;> simp [hy]
    | succ i =>
      obtain ⟨a, b, h1, h2⟩ := ih (by simpa using h)
      refine ⟨(f z).toList ++ a, b, ?_, ?_⟩
      · cases hz : f z <;> simp [hz, h1]
      · intro y
        cases hz : f z <;> simp [hz, h2]

theorem filterMap_set_same (f : α → Option β) {l : List α} {i : ℕ} {x y : α} (h : l[i]? = some x) (hy : f y = f x) :
    (l.set i y).filterMap f = l.filterMap f := by
  obtain ⟨a, b, h1, h2⟩ := filterMap_set_split f h
  rw [h2, h1, hy]

theorem filterMap_set_nil (f : α → Option β) {l : List α} {i : ℕ} {x y : α} (h : l[i]? = some x)
    (hl : l.filterMap f = []) : (l.set i y).filterMap f = (f y).toList := by
  obtain ⟨a, b, h1, h2⟩ := filterMap_set_split f h
  rw [hl] at h1
  have h3 : a = [] ∧ b = [] := by
    have := congrArg List.length h1
    simp only [List.length_nil, List.length_append] at this
    exact ⟨List.length_eq_zero_iff.1 (by omega), List.length_eq_zero_iff.1 (by omega)⟩
  rw [h2, h3.1, h3.2]; simp

theorem filterMap_set_sole (f : α → Option β) {l : List α} {i : ℕ} {x : α} {t u : β} {rest : List β}
    (h : l[i]? = some x) (hx : f x = some t) (hl : l.filterMap f ++ rest = [u]) :
    t = u ∧ rest = [] ∧ ∀ y, (l.set i y).filterMap f = (f y).toList := by
  obtain ⟨a, b, h1, h2⟩ := filterMap_set_split f h
  rw [h1, hx] at hl
  have h3 : a = [] ∧ b = [] ∧ rest = [] := by
    have := congrArg List.length hl
    simp only [Option.toList_some, List.length_append, List.length_singleton] at this
    exact ⟨List.length_eq_zero_iff.1 (by omega), List.length_eq_zero_iff.1 (by omega),
      List.length_eq_zero_iff.1 (by omega)⟩
  obtain ⟨rfl, rfl, rfl⟩ := h3
  refine ⟨by simpa using hl, rfl, ?_⟩
  intro y
  rw [h2]; simp

theorem two_holders (f : α → Option β) {l : List α} {i j : ℕ} {x y : α} {t u : β} (hij : i < j) (hi : l[i]? = some x)
    (hx : f x = some t) (hj : l[j]? = some y) (hy : f y = some u) : 2 ≤ (l.filterMap f).length := by
  have h1 : t ∈ (l.take j).filterMap f := by
    refine List.mem_filterMap.2 ⟨x, List.mem_of_getElem? (i := i) ?_, hx⟩
    rw [List.getElem?_take_of_lt hij]; exact hi
  have h2 : u ∈ (l.drop j).filterMap f := by
    refine List.mem_filterMap.2 ⟨y, List.mem_of_getElem? (i := 0) ?_, hy⟩
    simpa using hj
  have h3 : (l.filterMap f).length = ((l.take j).filterMap f).length + ((l.drop j).filterMap f).length := by
    rw [← List.length_append, ← List.filterMap_append, List.take_append_drop]
  have := List.length_pos_of_mem h1
  have := List.length_pos_of_mem h2
  omega

/-- two processes that hold a token are the same process when there is only one -/
theorem holders_eq (f : α → Option β) {l : List α} {i j : ℕ} {x y : α} {t u : β} (hl : (l.filterMap f).length ≤ 1)
    (hi : l[i]? = some x) (hx : f x = some t) (hj : l[j]? = some y) (hy : f y = some u) : i = j := by
  rcases lt_trichotomy i j with h | h | h
  · have := two_holders f h hi hx hj hy; omega
  · exact h
  · have := two_holders f h hj hy hi hx; omega

theorem sole_getElem {l : List α} {n k : ℕ} {a : α} (h : l.length + n = 1) (hk : l[k]? = some a) :
    l = [a] ∧ n = 0 ∧ k = 0 := by
  have hlt := (List.getElem?_eq_some_iff.1 hk).1
  obtain ⟨b, rfl⟩ := List.length_eq_one_iff.1 (show l.length = 1 by omega)
  obtain rfl : k = 0 := by simpa using hlt
  simp only [List.getElem?_cons_zero, Option.some.injEq] at hk
  exact ⟨by rw [hk], by simpa using h, rfl⟩

end Gss.Core
