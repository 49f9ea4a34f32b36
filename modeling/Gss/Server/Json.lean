/-
The part of nlohmann::json that the request handlers use: values, `operator[]` with a string key, and the implicit
conversions to std::string and to int. Each of them can throw, so each returns `Except`.

`operator[]` on a non-const value is not a pure read: it turns null into an object and inserts null for a missing key.
`Json.index` therefore returns the element together with the value as it is afterwards.

The parser and the printer are the library's own code: they are fields of `Nlohmann`, a parameter of every handler. So
is static_cast<int> of a double whose truncation is not an int, which C++ leaves undefined.

- `index_ok_iff`: indexing returns normally exactly on objects and on null.
- `getString_ok_iff`, `getInt_ok_iff`: the conversions return normally exactly on strings, and on numbers and booleans.
-/
import Mathlib.Tactic

namespace Gss

/-- the bytes of a std::string, a request body or a WebSocket message -/
abbrev Bytes := List UInt8

/-- the bytes of an ASCII literal -/
def bytes (s : String) : Bytes := s.toList.map fun c => c.toNat.toUInt8

inductive Json where
  | null
  | boolean (b : Bool)
  /-- number_integer or number_unsigned -/
  | number (n : ℤ)
  /-- number_float, known to this program only by its truncation to an integer -/
  | float (trunc : ℤ)
  | string (s : String)
  | array (xs : List Json)
  /-- key-sorted, without repeated keys -/
  | object (m : List (String × Json))

/-- nlohmann::detail::exception, with the library's id -/
inductive Exn where
  | parseError (id : ℕ)
  | typeError (id : ℕ)
deriving DecidableEq, Repr

structure Nlohmann where
  parse : Bytes → Except Exn Json
  dump : Json → Bytes
  /-- static_cast<int> of a double with this truncation, which is not an int -/
  floatCast : ℤ → Int32

/-- a library that knows some texts, for runs on fixed inputs; a double that is not an int becomes INT_MIN -/
def Nlohmann.table (texts : List (Bytes × Json)) (dumped : Bytes) : Nlohmann where
  parse data :=
    match texts.lookup data with
    | some j => .ok j
    | none => .error (.parseError 101)
  dump _ := dumped
  floatCast _ := Int32.minValue

/-- std::map insertion of a key that is not there -/
def insertKey (k : String) (v : Json) : List (String × Json) → List (String × Json)
  | [] => [(k, v)]
  | e :: m => if k < e.1 then (k, v) :: e :: m else e :: insertKey k v m

/-- a sequence of throwing calls that returns has returned at each call -/
theorem bind_ok {ε α β : Type} {x : Except ε α} {f : α → Except ε β} {b : β} (h : x >>= f = .ok b) :
    ∃ a, x = .ok a ∧ f a = .ok b := by
  cases x with
  | error e => cases h
  | ok a => exact ⟨a, rfl, h⟩

namespace Json

/-- operator[](key): the element, and the value after the access -/
def index (j : Json) (key : String) : Except Exn (Json × Json) :=
  match j with
  | .null => .ok (.null, .object [(key, .null)])
  | .object m =>
    match m.lookup key with
    | some v => .ok (v, .object m)
    | none => .ok (.null, .object (insertKey key .null m))
  | _ => .error (.typeError 305)

/-- the element an access finds, when it returns -/
def elem (j : Json) (key : String) : Json :=
  match j with
  | .object m => (m.lookup key).getD .null
  | _ => .null

/-- static_cast<int> of a 64-bit integer -/
def toInt32 (n : ℤ) : ℤ := n.bmod (2 ^ 32)

/-- conversion to std::string -/
def getString : Json → Except Exn String
  | .string s => .ok s
  | _ => .error (.typeError 302)

/-- conversion to int: from_json for arithmetic types takes every number and booleans -/
def getInt (lib : Nlohmann) : Json → Except Exn ℤ
  | .number n => .ok (toInt32 n)
  | .float t => .ok (if -2 ^ 31 ≤ t ∧ t < 2 ^ 31 then t else (lib.floatCast t).toInt)
  | .boolean b => .ok (if b then 1 else 0)
  | _ => .error (.typeError 302)

/-- comparison with a string literal -/
def isString (j : Json) (lit : String) : Bool :=
  match j with
  | .string s => s = lit
  | _ => false

def IsObject : Json → Prop
  | .object _ => True
  | _ => False

def IsIndexable : Json → Prop
  | .object _ | .null => True
  | _ => False

def IsString : Json → Prop
  | .string _ => True
  | _ => False

def IsArithmetic : Json → Prop
  | .number _ | .float _ | .boolean _ => True
  | _ => False

/-! ## When the accesses return -/

theorem index_ok_iff (j : Json) (key : String) : (∃ r, j.index key = .ok r) ↔ j.IsIndexable := by
  cases j with
  | object m => simp only [index, IsIndexable, iff_true]; split <;> exact ⟨_, rfl⟩
  | _ => simp [index, IsIndexable]

theorem index_elem {j r : Json} {e : Json} {key : String} (h : j.index key = .ok (e, r)) : e = j.elem key := by
  cases j with
  | object m =>
    simp only [index] at h
    split at h
    · rename_i v hv; cases h; simp [elem, hv]
    · rename_i hv; cases h; simp [elem, hv]
  | null => cases h; rfl
  | _ => cases h

theorem lookup_insertKey (k : String) (v : Json) (m : List (String × Json)) (h : m.lookup k = none) (x : String) :
    (insertKey k v m).lookup x = if x = k then some v else m.lookup x := by
  induction m with
  | nil =>
    by_cases hx : x = k
    · subst hx; simp [insertKey]
    · have : (x == k) = false := by simpa using hx
      simp [insertKey, List.lookup_cons, this, hx]
  | cons e m ih =>
    obtain ⟨key, w⟩ := e
    have hk : (k == key) = false ∧ m.lookup k = none := by
      simp only [List.lookup_cons] at h
      split at h
      · cases h
      · rename_i hf; exact ⟨hf, h⟩
    unfold insertKey
    split_ifs with hlt hx hx
    · subst hx; simp
    · have : (x == k) = false := by simpa using hx
      simp [List.lookup_cons, this]
    · subst hx; simp [List.lookup_cons, hk.1, ih hk.2]
    · simp only [List.lookup_cons, ih hk.2, hx, if_false]

/-- an access does not change what the other accesses find, and the value stays indexable -/
theorem index_frame {j r : Json} {e : Json} {key : String} (h : j.index key = .ok (e, r)) :
    r.IsObject ∧ ∀ k, r.elem k = j.elem k := by
  cases j with
  | object m =>
    simp only [index] at h
    split at h
    · cases h; exact ⟨trivial, fun _ => rfl⟩
    · rename_i hv; cases h
      refine ⟨trivial, ?_⟩
      intro k
      simp only [elem, lookup_insertKey key .null m hv]
      split_ifs with hk
      · subst hk; simp [hv]
      · rfl
  | null =>
    cases h
    refine ⟨trivial, ?_⟩
    intro k
    simp only [elem, List.lookup_cons, List.lookup_nil]
    split
    · rfl
    · rfl
  | _ => cases h

/-- an access to an indexable value finds the element, and leaves an object with the same elements -/
theorem index_eq {j : Json} (hj : j.IsIndexable) (key : String) :
    ∃ r, j.index key = .ok (j.elem key, r) ∧ r.IsObject ∧ ∀ k, r.elem k = j.elem k := by
  obtain ⟨⟨e, r⟩, h⟩ := (index_ok_iff j key).2 hj
  obtain rfl := index_elem h
  exact ⟨r, h, index_frame h⟩

theorem IsObject.indexable {j : Json} (h : j.IsObject) : j.IsIndexable := by
  cases j with
  | object m => trivial
  | _ => exact h.elim

/-- a value with an element that is not null is an object -/
theorem isObject_of_elem {j : Json} (key : String) (h : j.elem key ≠ .null) : j.IsObject := by
  cases j with
  | object m => trivial
  | _ => exact absurd rfl h

theorem getString_eq_iff {j : Json} {s : String} : j.getString = .ok s ↔ j = .string s := by
  cases j <;> simp [getString]

theorem getString_ok_iff (j : Json) : (∃ s, j.getString = .ok s) ↔ j.IsString := by
  cases j <;> simp [getString, IsString]

theorem getInt_ok_iff (lib : Nlohmann) (j : Json) : (∃ n, j.getInt lib = .ok n) ↔ j.IsArithmetic := by
  cases j <;> simp [getInt, IsArithmetic]

theorem IsString.exists {j : Json} (h : j.IsString) : ∃ s, j = .string s := by
  cases j with
  | string s => exact ⟨s, rfl⟩
  | _ => exact h.elim

end Json

end Gss
