/-
child_idx_vector (router/detail/impl/router.cpp): the indices of a node's children, in an array inside the object as
long as there are at most N, and in an allocated one from then on.

The two arrays hold whole cells (std::size_t, little-endian, 8 bytes); cells that nobody has written are 0 here.
`toList` is what begin() .. end() gives. std::memcpy and std::memmove count bytes, and two calls pass a number of cells:
- the move constructor copies N bytes of the inner array (`move`);
- erase moves `end() - it` bytes, from `it` to the cell before it (`eraseRemove`, which is erase(std::remove(..)), the
  only way erase is called). When `it` is the begin, that cell lies before the array, and the call is undefined: none.

- `run_toList`: any run of push_back, copies and swaps does to `toList` what it says.
- `move_toList_iff`: when the move constructor keeps the indices.
- `eraseRemove_iff`: when erase(std::remove(..)) takes out the index and no other.
-/
import Gss.Core.Machine

namespace Gss.Router

open Gss.Core

/-! ## Model -/

/-- the cells of the inner array -/
def N : ℕ := 5

structure ChildIdxVector where
  /-- static_child_idx_ -/
  static : List ℕ
  /-- child_idx -/
  heap : Option (List ℕ)
  /-- size_ -/
  size : ℕ
  /-- cap_ -/
  cap : ℕ
  static_length : static.length = N
  heap_length : ∀ a, heap = some a → a.length = cap ∧ N ≤ cap
  size_le : size ≤ (heap.getD static).length
deriving DecidableEq, Repr

namespace ChildIdxVector

/-- the array begin() points to -/
def arr (c : ChildIdxVector) : List ℕ := c.heap.getD c.static

/-- the cells from begin() to end() -/
def toList (c : ChildIdxVector) : List ℕ := c.arr.take c.size

/-- the default constructor -/
def make : ChildIdxVector :=
  ⟨List.replicate N 0, none, 0, 0, rfl, fun _ h => (by cases h), Nat.zero_le _⟩

def empty (c : ChildIdxVector) : Bool := c.size = 0

/-- begin()[k] = v -/
def store (c : ChildIdxVector) (k v : ℕ) : ChildIdxVector :=
  match h : c.heap with
  | none => { c with
      static := c.static.set k v
      static_length := by rw [List.length_set, c.static_length]
      size_le := by have := c.size_le; simpa [h] using this }
  | some a => { c with
      heap := some (a.set k v)
      heap_length := fun b hb => by cases hb; rw [List.length_set]; exact c.heap_length a h
      size_le := by have := c.size_le; simpa [h] using this }

/-- the allocations of push_back -/
def grow (c : ChildIdxVector) : ChildIdxVector :=
  match h : c.heap with
  | none =>
    if c.size = N then { c with
      heap := some (c.static ++ List.replicate N 0)
      cap := N * 2
      heap_length := fun b hb => by cases hb; simp [c.static_length, N]
      size_le := by have := c.size_le; simp [h] at this ⊢; omega }
    else c
  | some a =>
    if c.size = c.cap then { c with
      heap := some (a ++ List.replicate c.cap 0)
      cap := c.cap * 2
      heap_length := fun b hb => by
        cases hb
        have := c.heap_length a h
        simp only [List.length_append, List.length_replicate]
        omega
      size_le := by have := c.size_le; simp [h] at this ⊢; omega }
    else c

theorem grow_arr (c : ChildIdxVector) : ∃ l, c.grow.arr = c.arr ++ l := by
  unfold grow arr
  split
  · rename_i h
    split_ifs
    · exact ⟨List.replicate N 0, by simp [h]⟩
    · exact ⟨[], by simp⟩
  · rename_i a h
    split_ifs
    · exact ⟨List.replicate c.cap 0, by simp [h]⟩
    · exact ⟨[], by simp⟩

@[simp] theorem grow_size (c : ChildIdxVector) : c.grow.size = c.size := by
  unfold grow
  split <;> split_ifs <;> rfl

/-- after the allocation there is room for one more cell -/
theorem grow_room (c : ChildIdxVector) : c.size < c.grow.arr.length := by
  have hle := c.size_le
  unfold grow arr
  split
  · rename_i h
    rw [h, Option.getD_none, c.static_length] at hle
    split_ifs with hn
    · simp [c.static_length, hn, N]
    · rw [h, Option.getD_none, c.static_length]
      omega
  · rename_i a h
    obtain ⟨hl, hc⟩ := c.heap_length a h
    rw [h, Option.getD_some, hl] at hle
    have hN : N = 5 := rfl
    split_ifs with hn
    · simp only [Option.getD_some, List.length_append, List.length_replicate]
      omega
    · rw [h, Option.getD_some, hl]
      omega

theorem store_arr (c : ChildIdxVector) (k v : ℕ) : (c.store k v).arr = c.arr.set k v := by
  unfold store arr
  split
  · rename_i h; simp [h]
  · rename_i a h; simp [h]

@[simp] theorem store_size (c : ChildIdxVector) (k v : ℕ) : (c.store k v).size = c.size := by
  unfold store
  split <;> rfl

def pushBack (c : ChildIdxVector) (v : ℕ) : ChildIdxVector :=
  let c' := c.grow.store c.size v
  { c' with
    size := c.size + 1
    size_le := by
      have h := c.grow_room
      have hl : c'.arr.length = c.grow.arr.length := by rw [store_arr, List.length_set]
      rw [← hl] at h
      exact h }

/-- std::swap(begin()[j], begin()[k]) -/
def swap (c : ChildIdxVector) (j k : ℕ) : ChildIdxVector :=
  let x := c.arr.getD j 0
  let y := c.arr.getD k 0
  (c.store j y).store k x

/-- the copy constructor -/
def copy (c : ChildIdxVector) : ChildIdxVector :=
  match h : c.heap with
  | some a => ⟨List.replicate N 0, some (a.take c.size ++ List.replicate (c.cap - c.size) 0), c.size, c.cap, rfl,
      fun b hb => by
        have hle := c.size_le
        obtain ⟨hl, hn⟩ := c.heap_length a h
        rw [h, Option.getD_some] at hle
        cases hb
        simp only [List.length_append, List.length_take, List.length_replicate]
        omega,
      by
        have hle := c.size_le
        rw [h, Option.getD_some] at hle
        simp only [Option.getD_some, List.length_append, List.length_take]
        omega⟩
  | none => ⟨c.static.take c.size ++ List.replicate (N - c.size) 0, none, c.size, c.cap,
      by
        have hle := c.size_le
        rw [h, Option.getD_none, c.static_length] at hle
        simp only [List.length_append, List.length_take, List.length_replicate, c.static_length]
        omega,
      fun b hb => (by cases hb),
      by
        have hle := c.size_le
        rw [h, Option.getD_none, c.static_length] at hle
        simp only [Option.getD_none, List.length_append, List.length_take, List.length_replicate, c.static_length]
        omega⟩

/-- the low b bytes of a cell become those of another -/
def lowBytes (b dst src : ℕ) : ℕ := dst / 256 ^ b * 256 ^ b + src % 256 ^ b

/-- the move constructor: of the inner array, memcpy takes over N bytes -/
def move (c : ChildIdxVector) : ChildIdxVector :=
  ⟨lowBytes N 0 (c.static.getD 0 0) :: List.replicate (N - 1) 0, c.heap, c.size, c.cap, rfl, c.heap_length, by
    have hle := c.size_le
    cases h : c.heap with
    | none =>
      rw [h, Option.getD_none, c.static_length] at hle
      exact hle
    | some a =>
      rw [h] at hle
      exact hle⟩

/-- memmove(x, x + 1, b), on the cells from x on -/
def moveDown : ℕ → List ℕ → List ℕ
  | b, x :: y :: cells => if 8 ≤ b then y :: moveDown (b - 8) (y :: cells) else lowBytes b x y :: y :: cells
  | _, cells => cells

theorem length_moveDown (b : ℕ) (cells : List ℕ) : (moveDown b cells).length = cells.length := by
  induction b, cells using moveDown.induct with
  | case1 b x y cells hb ih => rw [moveDown, if_pos hb, List.length_cons, ih]; rfl
  | case2 b x y cells hb => rw [moveDown, if_neg hb]; rfl
  | case3 b cells h => rw [moveDown.eq_2 _ _ h]

/-- the cells after erase(std::remove(begin(), end(), v)); std::remove leaves the cells after the kept ones as they
were -/
def erased (c : ChildIdxVector) (v : ℕ) : List ℕ :=
  let kept := c.toList.filter (· ≠ v)
  let cells := kept ++ c.arr.drop kept.length
  cells.take (kept.length - 1) ++ moveDown (c.size - kept.length) (cells.drop (kept.length - 1))

theorem length_erased (c : ChildIdxVector) (v : ℕ) : (c.erased v).length = c.arr.length := by
  have h1 : (c.toList.filter (· ≠ v)).length ≤ c.arr.length := by
    refine (List.length_filter_le _ _).trans ?_
    simp [toList]
  simp only [erased, List.length_append, length_moveDown, List.length_take, List.length_drop]
  omega

/-- the array in use is replaced by one of the same length, and the size goes down -/
def shrink (c : ChildIdxVector) (cells : List ℕ) (hl : cells.length = c.arr.length) : ChildIdxVector :=
  match h : c.heap with
  | none => { c with
      static := cells
      size := c.size - 1
      static_length := by rw [hl, arr, h]; exact c.static_length
      size_le := by
        have hle := c.size_le
        rw [h] at hle ⊢
        rw [arr, h] at hl
        simp only [Option.getD_none] at hle hl ⊢
        omega }
  | some a => { c with
      heap := some cells
      size := c.size - 1
      heap_length := fun b hb => by
        cases hb
        rw [hl, arr, h]
        exact c.heap_length a h
      size_le := by
        have hle := c.size_le
        rw [arr, h] at hl
        rw [h] at hle
        simp only [Option.getD_some] at hle hl ⊢
        omega }

theorem shrink_toList (c : ChildIdxVector) (cells : List ℕ) (hl : cells.length = c.arr.length) :
    (c.shrink cells hl).toList = cells.take (c.size - 1) := by
  unfold shrink toList arr
  split
  · rename_i h; simp [h]
  · rfl

/-- erase(std::remove(begin(), end(), v)) -/
def eraseRemove (c : ChildIdxVector) (v : ℕ) : Option ChildIdxVector :=
  if (c.toList.filter (· ≠ v)).length = 0 then none else some (c.shrink (c.erased v) (c.length_erased v))

/-! ## The indices -/

theorem length_toList (c : ChildIdxVector) : c.toList.length = c.size := by
  rw [toList, List.length_take]
  exact min_eq_left c.size_le

@[simp] theorem make_toList : make.toList = [] := rfl

theorem empty_iff (c : ChildIdxVector) : c.empty = true ↔ c.toList = [] := by
  rw [empty, decide_eq_true_iff, ← c.length_toList, List.length_eq_zero_iff]

@[simp] theorem pushBack_toList (c : ChildIdxVector) (v : ℕ) : (c.pushBack v).toList = c.toList ++ [v] := by
  obtain ⟨l, hl⟩ := c.grow_arr
  have hroom := c.grow_room
  have harr : (c.pushBack v).arr = c.grow.arr.set c.size v := c.grow.store_arr c.size v
  have hle : c.size ≤ c.arr.length := c.size_le
  calc (c.pushBack v).toList
      = (c.grow.arr.set c.size v).take (c.size + 1) := congrArg (List.take (c.size + 1)) harr
    _ = (c.grow.arr.set c.size v).take c.size ++ [v] := by
        rw [List.take_add_one, List.getElem?_set_self hroom, Option.toList_some]
    _ = (c.arr ++ l).take c.size ++ [v] := by rw [List.take_set_of_le le_rfl, hl]
    _ = c.toList ++ [v] := by rw [List.take_append_of_le_length hle, toList]

theorem swap_toList (c : ChildIdxVector) {j k : ℕ} (hj : j < c.size) (hk : k < c.size) :
    (c.swap j k).toList = (c.toList.set j (c.toList.getD k 0)).set k (c.toList.getD j 0) := by
  have get : ∀ {i : ℕ}, i < c.size → c.arr.getD i 0 = c.toList.getD i 0 := by
    intro i hi
    rw [toList, List.getD_eq_getElem?_getD, List.getD_eq_getElem?_getD, List.getElem?_take_of_lt hi]
  calc (c.swap j k).toList
      = ((c.arr.set j (c.arr.getD k 0)).set k (c.arr.getD j 0)).take c.size := by
        rw [toList, swap, store_arr, store_arr, store_size, store_size]
    _ = (c.toList.set j (c.arr.getD k 0)).set k (c.arr.getD j 0) := by rw [List.take_set, List.take_set, toList]
    _ = (c.toList.set j (c.toList.getD k 0)).set k (c.toList.getD j 0) := by rw [get hj, get hk]

@[simp] theorem copy_toList (c : ChildIdxVector) : c.copy.toList = c.toList := by
  -- the copied cells, and whatever is after them
  have cells : ∀ l m : List ℕ, c.size ≤ l.length → (l.take c.size ++ m).take c.size = l.take c.size := by
    intro l m hl
    rw [List.take_append_of_le_length (by simpa using hl), List.take_take, min_self]
  have hle := c.size_le
  unfold copy
  split
  · rename_i a h
    rw [h] at hle
    have hl : c.toList = a.take c.size := by rw [toList, arr, h]; rfl
    rw [hl]
    exact cells a _ hle
  · rename_i h
    rw [h] at hle
    have hl : c.toList = c.static.take c.size := by rw [toList, arr, h]; rfl
    rw [hl]
    exact cells c.static _ hle

@[simp] theorem move_make : make.move = make := rfl

/-- **The move constructor keeps the indices** when they are in the allocated array, when there is none, or when the
first fits into N bytes and the others are 0. -/
theorem move_toList_iff (c : ChildIdxVector) :
    c.move.toList = c.toList ↔
      c.heap ≠ none ∨ ∀ (k x : ℕ), c.toList[k]? = some x → if k = 0 then x < 256 ^ N else x = 0 := by
  cases h : c.heap with
  | some a =>
    refine iff_of_true ?_ (Or.inl (by simp))
    rw [toList, toList, arr, arr, show c.move.heap = c.heap from rfl, h]
    rfl
  | none =>
    have hlen : c.toList.length = c.move.toList.length := by rw [length_toList, length_toList]; rfl
    have hmove : c.move.toList = (c.static.getD 0 0 % 256 ^ N :: List.replicate (N - 1) 0).take c.size := by
      rw [toList, arr, show c.move.heap = c.heap from rfl, h]
      simp [move, lowBytes]
    have hstatic : ∀ k, k < c.size → c.toList[k]? = c.static[k]? := by
      intro k hk
      rw [toList, arr, h, List.getElem?_take_of_lt hk]
      rfl
    have hsize : c.size ≤ N := by
      have hle := c.size_le
      rwa [h, Option.getD_none, c.static_length] at hle
    -- cell k of the moved vector
    have hcell : ∀ k, k < c.size → c.move.toList[k]? = some (if k = 0 then c.static.getD 0 0 % 256 ^ N else 0) := by
      intro k hk
      rw [hmove, List.getElem?_take_of_lt hk]
      cases k with
      | zero => rfl
      | succ k =>
        rw [List.getElem?_cons_succ, List.getElem?_replicate, if_pos (by omega), if_neg (by omega)]
    have hlt : ∀ {k x : ℕ}, c.toList[k]? = some x → k < c.size := by
      intro k x hx
      rw [← c.length_toList]
      exact (List.getElem?_eq_some_iff.1 hx).1
    constructor
    · intro he
      refine Or.inr ?_
      intro k x hx
      have hc := hcell k (hlt hx)
      rw [he, hx, Option.some.injEq] at hc
      split_ifs with hk
      · rw [hc, if_pos hk]
        exact Nat.mod_lt _ (by decide)
      · rw [hc, if_neg hk]
    · intro hall
      have hall := hall.resolve_left (by simp)
      refine List.ext_getElem? ?_
      intro k
      by_cases hk : k < c.size
      · have hlen' : k < c.toList.length := by rwa [c.length_toList]
        have hx := hall k _ (List.getElem?_eq_getElem hlen')
        rw [hcell k hk, List.getElem?_eq_getElem hlen', Option.some.injEq]
        split_ifs at hx ⊢ with h0
        · subst h0
          have hs := hstatic 0 hk
          rw [List.getElem?_eq_getElem hlen'] at hs
          rw [List.getD_eq_getElem?_getD, ← hs, Option.getD_some, Nat.mod_eq_of_lt hx]
        · exact hx.symm
      · rw [List.getElem?_eq_none (by rw [← hlen, c.length_toList]; omega),
          List.getElem?_eq_none (by rw [c.length_toList]; omega)]

/-! ## erase -/

theorem lowBytes_one_eq_iff (x y : ℕ) : lowBytes 1 x y = x ↔ x % 256 = y % 256 := by
  simp only [lowBytes, pow_one]
  omega

/-- what is left when the index occurs once and others do too: the last kept cell gets its low byte from the last
cell -/
theorem eraseRemove_once {c : ChildIdxVector} {v x y : ℕ} {kept : List ℕ} (hv : c.toList.count v = 1)
    (hk : c.toList.filter (· ≠ v) = kept ++ [x]) (hy : c.toList.getLast? = some y) :
    ∃ c', c.eraseRemove v = some c' ∧ c'.toList = kept ++ [lowBytes 1 x y] := by
  have hsize : c.size = kept.length + 2 := by
    have hlen := List.length_eq_length_filter_add (l := c.toList) (· ≠ v)
    have hcount : (c.toList.filter fun a => !decide (a ≠ v)).length = 1 := by
      rw [← hv, List.count_eq_length_filter]
      congr 1
      refine List.filter_congr ?_
      intro a _
      by_cases h : a = v <;> simp [h]
    rw [hcount, hk, c.length_toList] at hlen
    simpa using hlen
  have hcell : c.arr[kept.length + 1]? = some y := by
    rw [List.getLast?_eq_getElem?, c.length_toList, hsize] at hy
    rw [← hy, toList, List.getElem?_take_of_lt (by omega)]
    rfl
  obtain ⟨rest, hrest⟩ : ∃ rest, c.arr.drop (kept.length + 1) = y :: rest := by
    obtain ⟨hlt, hget⟩ := List.getElem?_eq_some_iff.1 hcell
    exact ⟨_, by rw [List.drop_eq_getElem_cons hlt, hget]⟩
  refine ⟨_, if_neg (by rw [hk]; simp), ?_⟩
  rw [shrink_toList, erased, hk, hsize]
  have hlen : (kept ++ [x]).length = kept.length + 1 := by simp
  simp only [hlen, hrest, Nat.add_sub_cancel, List.append_assoc, List.singleton_append]
  rw [List.take_append_of_le_length le_rfl, List.take_length, List.drop_append_of_le_length le_rfl, List.drop_length,
    List.nil_append]
  simp [moveDown, List.take_append]

theorem erase_eq_filter {l : List ℕ} {v : ℕ} (hv : l.count v ≤ 1) : l.erase v = l.filter (· ≠ v) := by
  induction l with
  | nil => rfl
  | cons a l ih =>
    by_cases ha : a = v
    · subst ha
      rw [List.count_cons_self] at hv
      have hnot : a ∉ l := List.count_eq_zero.1 (by omega)
      rw [List.erase_cons_head, List.filter_cons_of_neg (by simp), eq_comm, List.filter_eq_self]
      intro b hb
      simpa using ne_of_mem_of_not_mem hb hnot
    · rw [List.count_cons_of_ne ha] at hv
      rw [List.erase_cons_tail (by simpa using ha), List.filter_cons_of_pos (by simpa using ha), ih hv]

/-- what is left agrees with what was there, in the low byte of its last index -/
theorem eraseRemove_keeps {c : ChildIdxVector} {v : ℕ} (hv : c.toList.count v = 1) :
    (∃ c', c.eraseRemove v = some c' ∧ c'.toList = c.toList.erase v) ↔
      ∃ x y, (c.toList.erase v).getLast? = some x ∧ c.toList.getLast? = some y ∧ x % 256 = y % 256 := by
  rw [erase_eq_filter hv.le]
  rcases (c.toList.filter (· ≠ v)).eq_nil_or_concat with h0 | ⟨kept, x, hk⟩
  · refine iff_of_false ?_ ?_
    · intro h
      obtain ⟨c', hc', -⟩ := h
      rw [eraseRemove, if_pos (by rw [h0]; rfl)] at hc'
      cases hc'
    · intro h
      obtain ⟨x, y, hx, -⟩ := h
      rw [h0] at hx
      cases hx
  · rw [List.concat_eq_append] at hk
    have hne : c.toList ≠ [] := by
      intro h
      rw [h] at hv
      cases hv
    have hy := List.getLast?_eq_some_getLast hne
    obtain ⟨c', hc', hl⟩ := eraseRemove_once hv hk hy
    rw [hk]
    constructor
    · intro h
      obtain ⟨c'', hc'', hl'⟩ := h
      cases hc'.symm.trans hc''
      rw [hl, List.append_cancel_left_eq, List.singleton_inj, lowBytes_one_eq_iff] at hl'
      exact ⟨x, _, by simp, hy, hl'⟩
    · intro h
      obtain ⟨x', y', hx', hy', hmod⟩ := h
      obtain rfl : x = x' := by simpa using hx'
      cases hy.symm.trans hy'
      refine ⟨c', hc', ?_⟩
      rw [hl, (lowBytes_one_eq_iff _ _).2 hmod]

/-- **erase(std::remove(..)) takes out one index and no other** exactly when something is left and its last index agrees
in the low byte with the last index of before. It is undefined exactly when nothing is left. -/
theorem eraseRemove_iff {c : ChildIdxVector} {v : ℕ} (hv : c.toList.count v = 1) :
    ((∃ c', c.eraseRemove v = some c' ∧ c'.toList = c.toList.erase v) ↔
      ∃ x y, (c.toList.erase v).getLast? = some x ∧ c.toList.getLast? = some y ∧ x % 256 = y % 256) ∧
    (c.eraseRemove v = none ↔ c.toList.erase v = []) := by
  refine ⟨eraseRemove_keeps hv, ?_⟩
  rw [erase_eq_filter hv.le, eraseRemove]
  split_ifs with h
  · exact iff_of_true rfl (List.eq_nil_of_length_eq_zero h)
  · exact iff_of_false (by simp) (by simpa using h)

/-- taking the last of two indices out leaves a wrong one -/
theorem eraseRemove_iff_two :
    ¬ ∃ c, ((make.pushBack 1).pushBack 2).eraseRemove 2 = some c ∧ c.toList = [1] := by
  have hcount : ((make.pushBack 1).pushBack 2).toList.count 2 = 1 := by decide
  intro h
  obtain ⟨x, y, hx, hy, hmod⟩ := (eraseRemove_iff hcount).1.1 h
  obtain rfl : 1 = x := Option.some.inj hx
  obtain rfl : 2 = y := Option.some.inj hy
  cases hmod

/-! ## Runs -/

inductive Op where
  | pushBack (v : ℕ)
  | swap (j k : ℕ)
  | copy
deriving DecidableEq, Repr

/-- a swap of cells that are there -/
def step (c : ChildIdxVector) : Op → ChildIdxVector
  | .pushBack v => c.pushBack v
  | .swap j k => if j < c.size ∧ k < c.size then c.swap j k else c
  | .copy => c.copy

def machine : Machine ChildIdxVector Op := ⟨make, step⟩

def listStep (l : List ℕ) : Op → List ℕ
  | .pushBack v => l ++ [v]
  | .swap j k => if j < l.length ∧ k < l.length then (l.set j (l.getD k 0)).set k (l.getD j 0) else l
  | .copy => l

def listMachine : Machine (List ℕ) Op := ⟨[], listStep⟩

theorem step_toList (c : ChildIdxVector) (o : Op) : (step c o).toList = listStep c.toList o := by
  cases o with
  | pushBack v => exact c.pushBack_toList v
  | swap j k =>
    simp only [step, listStep, c.length_toList]
    split_ifs with h
    · exact c.swap_toList h.1 h.2
    · rfl
  | copy => exact c.copy_toList

/-- **The vector is a list**, over any run of push_back, swaps and copies, and whichever array it is in. -/
theorem run_toList (ops : List Op) :
    (machine.run make ops).toList = listMachine.run [] ops ∧
      (machine.run make ops).size = (listMachine.run [] ops).length := by
  have h : (machine.run make ops).toList = listMachine.run [] ops :=
    machine.run_lockstep listMachine (R := fun c l => toList c = l)
      (fun c l o hc => by rw [← hc]; exact step_toList c o) make_toList ops
  exact ⟨h, by rw [← h, length_toList]⟩

end ChildIdxVector

end Gss.Router
