/-
matches_base (router/matches.hpp, router/impl/matches.cpp): the result of a lookup, by position and by id.

at throws std::out_of_range; operator[] asserts that the position is there.

- `at_id_spec`: after a lookup with unmixed routes, at(id) is what the first field with this id takes, and throws when
  no field of the match has the id. The ids are those of the first routes through the fields.
-/
import Gss.Router.Lookup

namespace Gss.Router

open Gss.Core SegmentTemplate

variable {V : Type*}

/-! ## Model -/

/-- what at throws -/
structure OutOfRange where
deriving DecidableEq, Repr

namespace MatchesStorage

/-- at(pos) -/
def atPos (m : MatchesStorage) (pos : ℕ) : Except OutOfRange View :=
  if pos < m.size then .ok (m.slots.getD pos (none, [])).1 else .error {}

/-- operator[](pos); none when the assertion fails -/
def getPos (m : MatchesStorage) (pos : ℕ) : Option View :=
  if pos < m.size then some (m.slots.getD pos (none, [])).1 else none

/-- the loop of find(id), from i on, with k positions to go -/
def findLoop (m : MatchesStorage) (id : Bytes) : ℕ → ℕ → ℕ
  | 0, i => i
  | k + 1, i => if (m.slots.getD i (none, [])).2 = id then i else findLoop m id k (i + 1)

/-- find(id) - matches() -/
def findId (m : MatchesStorage) (id : Bytes) : ℕ := m.findLoop id m.size 0

/-- at(id) and operator[](id); its loop is find's -/
def atId (m : MatchesStorage) (id : Bytes) : Except OutOfRange View := m.atPos (m.findId id)

def empty (m : MatchesStorage) : Bool := m.size = 0

variable {m : MatchesStorage} {segs : List Bytes}

/-! ## The loop -/

theorem findLoop_spec (m : MatchesStorage) (id : Bytes) (k i : ℕ) :
    i ≤ m.findLoop id k i ∧ m.findLoop id k i ≤ i + k ∧
      (∀ j, i ≤ j → j < m.findLoop id k i → (m.slots.getD j (none, [])).2 ≠ id) ∧
      (m.findLoop id k i < i + k → (m.slots.getD (m.findLoop id k i) (none, [])).2 = id) := by
  induction k generalizing i with
  | zero => exact ⟨le_rfl, le_rfl, fun j h1 h2 => absurd h2 h1.not_gt, fun h => absurd h (Nat.lt_irrefl i)⟩
  | succ k ih =>
    rw [findLoop]
    split_ifs with he
    · exact ⟨le_rfl, by omega, fun j h1 h2 => absurd h2 h1.not_gt, fun _ => he⟩
    · obtain ⟨h1, h2, h3, h4⟩ := ih (i + 1)
      refine ⟨by omega, by omega, ?_, fun h => h4 (by omega)⟩
      intro j hj hlt
      rcases Nat.eq_or_lt_of_le hj with rfl | hj
      · exact he
      · exact h3 j hj hlt

/-- **find(id)** is the first position with the id, or the end. -/
theorem findId_spec (m : MatchesStorage) (id : Bytes) :
    m.findId id ≤ m.size ∧ (∀ j, j < m.findId id → (m.slots.getD j (none, [])).2 ≠ id) ∧
      (m.findId id < m.size → (m.slots.getD (m.findId id) (none, [])).2 = id) := by
  obtain ⟨-, h2, h3, h4⟩ := m.findLoop_spec id m.size 0
  rw [Nat.zero_add] at h2 h4
  exact ⟨h2, fun j hj => h3 j (Nat.zero_le j) hj, h4⟩

/-! ## The views -/

theorem getElem?_views (hle : m.size ≤ m.slots.length) {k : ℕ} (hk : k < m.size) :
    (m.views segs)[k]? = some (seen segs (m.slots.getD k (none, []))) := by
  have hlt : k < m.slots.length := by omega
  rw [views, List.getElem?_map, List.getElem?_take_of_lt hk, List.getD_eq_getElem?_getD, List.getElem?_eq_getElem hlt]
  rfl

theorem length_views (hle : m.size ≤ m.slots.length) : (m.views segs).length = m.size := by
  rw [views, List.length_map, List.length_take_of_le hle]

/-- at(id) gives what the first field with the id takes, and throws when there is none -/
def Answers (m : MatchesStorage) (segs : List Bytes) (ids : List Bytes) (caps : List (List Bytes)) (id : Bytes) :
    Prop :=
  (∀ (k : ℕ) (cap : List Bytes), caps[k]? = some cap → ids[k]? = some id → (∀ j : ℕ, j < k → ids[j]? ≠ some id) →
    ∃ v, m.atId id = .ok v ∧ (seen segs (v, id)).1 = cap) ∧ (id ∉ ids → m.atId id = .error {})

theorem answers_of_views (hle : m.size ≤ m.slots.length) {caps : List (List Bytes)} {ids : List Bytes}
    (hviews : m.views segs = caps.zip ids) (hlen : caps.length = ids.length) (id : Bytes) :
    m.Answers segs ids caps id := by
  obtain ⟨h1, h2, h3⟩ := m.findId_spec id
  have hsize : m.size = ids.length := by
    have hv := congrArg List.length hviews
    rwa [length_views hle, List.length_zip, hlen, min_self] at hv
  -- the id in slot k
  have hid : ∀ k, k < m.size → ids[k]? = some (m.slots.getD k (none, [])).2 := by
    intro k hk
    have hget : (m.views segs)[k]? = _ := getElem?_views hle hk
    rw [hviews, List.getElem?_zip_eq_some] at hget
    exact hget.2
  constructor
  · intro k cap hcap hk hfirst
    have hlt : k < m.size := by
      rw [hsize]
      exact (List.getElem?_eq_some_iff.1 hk).1
    have hfound : m.findId id = k := by
      rcases Nat.lt_trichotomy (m.findId id) k with hlt' | heq | hgt
      · have hmem := hid _ (hlt'.trans hlt)
        rw [h3 (hlt'.trans hlt)] at hmem
        exact absurd hmem (hfirst _ hlt')
      · exact heq
      · have hno := h2 k hgt
        have hmem := hid k hlt
        rw [hk, Option.some.injEq] at hmem
        exact absurd hmem.symm hno
    refine ⟨_, by rw [atId, hfound, atPos, if_pos hlt], ?_⟩
    have hget : (m.views segs)[k]? = _ := getElem?_views hle hlt
    rw [hviews, List.getElem?_zip_eq_some, hcap, Option.some.injEq] at hget
    exact hget.1.symm
  · intro hno
    have hend : ¬ m.findId id < m.size := by
      intro hlt
      have hmem := hid _ hlt
      rw [h3 hlt] at hmem
      exact hno (List.mem_of_getElem? hmem)
    rw [atId, atPos, if_neg hend]

end MatchesStorage

/-! ## After a lookup -/

section Lookup

variable {u : Url} {ps : List (Bytes × V)} {r : Impl V} {path : List Bytes} {m m' : MatchesStorage} {v : V}

/-- **By id.** After a lookup with unmixed routes that finds something, at(id) gives what the first field of the match
with this id takes, and throws when there is none. -/
theorem at_id_spec (h : Inserted u ps r) (hplain : Plain u (pathOf path)) (hu : Unmixed (routesOf u ps))
    (hfind : find u r path m = .ok (some v, m')) :
    ∃ w q caps, (w, q, caps) ∈ routeAlts u (routesOf u ps) (pathOf path) ∧
      (∀ x ∈ routeAlts u (routesOf u ps) (pathOf path), w ≤ x.1) ∧ lastFor (routesOf u ps) q = some v ∧
      ∀ id, m'.Answers (pathOf path) (idsOf (routesOf u ps) q) caps id := by
  have hlookup := h.lookup hplain m
  rw [hfind] at hlookup
  obtain ⟨hslots, hsize, hbest, -⟩ := hlookup
  obtain ⟨w, ⟨q, caps⟩, hmem, ⟨hlast, -, hexact⟩, hleast⟩ := hbest
  dsimp only at hlast hexact
  have hlen : caps.length = (idsOf (routesOf u ps) q).length := by
    obtain ⟨⟨x, hx, hshape⟩, hm⟩ := hmem
    dsimp only at hshape hm
    rw [← hshape, length_idsOf hx, hshape]
    exact hm.length_caps
  exact ⟨w, q, caps, hmem, hleast, hlast,
    fun id => MatchesStorage.answers_of_views (hslots ▸ hsize) (hexact hu) hlen id⟩

/-- the answers for files/a/b -/
theorem at_id_spec_small : ∃ w q caps,
    (w, q, caps) ∈
      routeAlts Url.unescaped (routesOf Url.unescaped small) (pathOf [bytes "files", bytes "a", bytes "b"]) ∧
    (∀ x ∈ routeAlts Url.unescaped (routesOf Url.unescaped small) (pathOf [bytes "files", bytes "a", bytes "b"]),
      w ≤ x.1) ∧ lastFor (routesOf Url.unescaped small) q = some 0 ∧
    ∀ id, MatchesStorage.Answers ⟨[(some (1, 2), bytes "dir"), (some (2, 3), bytes "name")], 2⟩
      (pathOf [bytes "files", bytes "a", bytes "b"]) (idsOf (routesOf Url.unescaped small) q) caps id := by
  have hfind : find Url.unescaped smallRouter [bytes "files", bytes "a", bytes "b"] (slotsOf 2) =
      .ok (some 0, ⟨[(some (1, 2), bytes "dir"), (some (2, 3), bytes "name")], 2⟩) := rfl
  exact at_id_spec small_inserted (by decide) (by decide) hfind

end Lookup

end Gss.Router
