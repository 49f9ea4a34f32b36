/-
POST /api/tasks: what the server makes of a posted task, and what it says about it afterwards.

The three fields of the body are converted one after the other, then the task is queued, then the answer is built. Every
conversion that can throw comes before the push; the access after it finds the name that has been converted already.

- `enqueue_all_or_nothing`: a request appends exactly one task, the converted one, and is answered with its name, or it
  leaves the queue, `curr_` and the sessions as they were.
- `payload_round_trip_iff`: the name and the description of a task are shown as they were posted; its duration is, in
  the admin report and in the update, exactly when it is less than an hour. `serialize` prints the minutes FIELD of the
  duration, and the conversion to int has dropped the bits from 32 on.
-/
import Gss.Server.Main

namespace Gss.Server

open Gss.HttpSession

/-! ## All or nothing -/

/-- json::parse and the conversions of the three fields return these values -/
def Converts (lib : Nlohmann) (body : Bytes) (name desc : String) (n : ℤ) : Prop :=
  ∃ j, lib.parse body = .ok j ∧ (j.elem "name").getString = .ok name ∧ (j.elem "description").getString = .ok desc ∧
    (j.elem "duration").getInt lib = .ok n

theorem converts_iff {lib : Nlohmann} {body : Bytes} {name desc : String} {n : ℤ} :
    Converts lib body name desc n ↔
      ∃ j, lib.parse body = .ok j ∧ j.elem "name" = .string name ∧ j.elem "description" = .string desc ∧
        (j.elem "duration").getInt lib = .ok n := by
  simp only [Converts, Json.getString_eq_iff]

theorem taskBody_iff (lib : Nlohmann) (body : Bytes) :
    TaskBody lib body ↔ ∃ name desc n, Converts lib body name desc n := by
  constructor
  · intro hcell
    obtain ⟨j, hp, _, hn, hd, hi⟩ := hcell
    obtain ⟨name, hn⟩ := (Json.getString_ok_iff _).2 hn
    obtain ⟨desc, hd⟩ := (Json.getString_ok_iff _).2 hd
    obtain ⟨n, hi⟩ := (Json.getInt_ok_iff lib _).2 hi
    exact ⟨name, desc, n, j, hp, hn, hd, hi⟩
  · intro hcell
    obtain ⟨name, desc, n, h⟩ := hcell
    obtain ⟨j, hp, hn, hd, hi⟩ := converts_iff.1 h
    refine ⟨j, hp, Json.isObject_of_elem "name" (by rw [hn]; exact Json.noConfusion), ?_, ?_, ?_⟩
    · rw [hn]; trivial
    · rw [hd]; trivial
    · exact (Json.getInt_ok_iff lib _).1 ⟨n, hi⟩

/-- the values a body converts to are the task -/
theorem parseTask_converts {lib : Nlohmann} {body : Bytes} {name desc : String} {n : ℤ}
    (h : Converts lib body name desc n) :
    ∃ p, parseTask lib body = .ok (p, Task.make name desc n) ∧ p.IsObject ∧ p.elem "name" = .string name := by
  obtain ⟨⟨p, t⟩, hp⟩ := (parseTask_ok_iff lib body).2 ((taskBody_iff lib body).2 ⟨name, desc, n, h⟩)
  obtain ⟨j, hj, hn, hd, hi⟩ := converts_iff.1 h
  obtain ⟨j', name', desc', n', hj', -, hn', hd', hi', rfl, ho, hel⟩ := parseTask_spec hp
  rw [hj, Except.ok.injEq] at hj'
  subst hj'
  rw [hn, Json.string.injEq] at hn'
  rw [hd, Json.string.injEq] at hd'
  rw [hi, Except.ok.injEq] at hi'
  subst hn' hd' hi'
  exact ⟨p, hp, ho, by rw [hel, hn]⟩

/-- the answer to a posted task -/
def posted (lib : Nlohmann) (req : Request) (name : String) : Response :=
  stringResponse req .ok "application/json" (some "*") (lib.dump (.object [("name", .string name)]))

/-- **A posted task** is queued and answered with its name. -/
theorem handleRequest_enqueues {lib : Nlohmann} (disk : Bytes → OpenResult) (docRoot : Bytes) {req : Request}
    (s : Shared) (hp : PostsTask req) {name desc : String} {n : ℤ} (h : Converts lib req.body name desc n) :
    handleRequest lib disk docRoot req s = (.ok (posted lib req name), s.pushTask (Task.make name desc n)) := by
  obtain ⟨p, hpt, ho, hel⟩ := parseTask_converts h
  obtain ⟨p', hidx, -⟩ := Json.index_eq ho.indexable "name"
  have hm : ¬ (req.method ≠ .get ∧ req.method ≠ .head ∧ req.method ≠ .post) := fun h => h.2.2 hp.1
  rw [handleRequest, if_neg hm, if_neg hp.2.1, if_pos ⟨hp.1, hp.2.2⟩]
  simp only [postTask, hpt, hidx, hel]
  rfl

/-- the minutes field of n minutes -/
theorem minutes_minutes (n : ℤ) : (minutes n).minutes = n.tmod 60 := by
  rw [TimeDuration.minutes, minutes, mul_assoc, Int.mul_tdiv_cancel _ (by decide)]

/-- an integer comes back from the conversion to int and the minutes field exactly when it is less than an hour -/
theorem minutes_toInt32_iff (d : ℤ) : (minutes (Json.toInt32 d)).minutes = d ↔ -60 < d ∧ d < 60 := by
  rw [minutes_minutes]
  constructor
  · intro h
    rw [← h]
    exact ⟨Int.lt_tmod_of_pos _ (by decide), Int.tmod_lt_of_pos _ (by decide)⟩
  · intro hbound
    obtain ⟨h1, h2⟩ := hbound
    have h32 : Json.toInt32 d = d := Int.bmod_eq_of_le (by omega) (by omega)
    rw [h32]
    rcases le_total 0 d with h0 | h0
    · exact Int.tmod_eq_of_lt h0 h2
    · have hneg : (-d).tmod 60 = -d := Int.tmod_eq_of_lt (by omega) (by omega)
      rw [Int.neg_tmod] at hneg
      omega

/-- the JSON values in which a client sees the task: what serialize gives, an entry of the pending list of an admin
report, its processing field, and the update -/
inductive Shown (t : Task) : Json → Prop where
  | serialized : Shown t t.serialize
  | pending (curr : Option Task) (q : List Task) (es : List Json) (k : ℕ) (v : Json) (hq : q[k]? = some t)
      (hp : (adminBody curr q).elem "pending" = .array es) (hv : es[k]? = some v) : Shown t v
  | processing (q : List Task) : Shown t ((adminBody (some t) q).elem "processing")
  | update : Shown t t.updateMsg

/-- the fields of a task in every value that shows it -/
theorem Shown.fields {t : Task} {v : Json} (h : Shown t v) :
    v.elem "name" = .string t.assignee ∧ v.elem "description" = .string t.desc ∧
      v.elem "duration" = .number t.duration.minutes := by
  cases h with
  | serialized => exact ⟨rfl, rfl, rfl⟩
  | pending curr q es k v hq hp hv =>
    have hes : (adminBody curr q).elem "pending" = .array (q.map Task.serialize) := rfl
    rw [hes, Json.array.injEq] at hp
    rw [← hp, List.getElem?_map, hq, Option.map_some, Option.some.injEq] at hv
    rw [← hv]
    exact ⟨rfl, rfl, rfl⟩
  | processing q => exact ⟨rfl, rfl, rfl⟩
  | update => exact ⟨rfl, rfl, rfl⟩

/-- **Payload round trip.** An accepted body with a string name, a string description and an integer duration d makes a
task; wherever this is shown, the name and the description are those posted, and the duration is d exactly when d is
less than an hour, of either sign. -/
theorem payload_round_trip_iff {lib : Nlohmann} (disk : Bytes → OpenResult) (docRoot : Bytes) {req : Request}
    (s : Shared) (hp : PostsTask req) {j : Json} {name desc : String} {d : ℤ} (hj : lib.parse req.body = .ok j)
    (hname : j.elem "name" = .string name) (hdesc : j.elem "description" = .string desc)
    (hdur : j.elem "duration" = .number d) :
    ∃ t, handleRequest lib disk docRoot req s = (.ok (posted lib req name), s.pushTask t) ∧
      ∀ v, Shown t v → v.elem "name" = .string name ∧ v.elem "description" = .string desc ∧
        (v.elem "duration" = .number d ↔ -60 < d ∧ d < 60) := by
  have hconv : Converts lib req.body name desc (Json.toInt32 d) :=
    converts_iff.2 ⟨j, hj, hname, hdesc, by rw [hdur]; rfl⟩
  refine ⟨_, handleRequest_enqueues disk docRoot s hp hconv, ?_⟩
  intro v hv
  obtain ⟨h1, h2, h3⟩ := hv.fields
  refine ⟨h1, h2, ?_⟩
  rw [h3, Json.number.injEq]
  exact minutes_toInt32_iff d

def hourBody : Bytes := bytes "\x7b\"name\":\"ann\",\"description\":\"\",\"duration\":90\x7d"

def hourJson : Json := .object [("description", .string ""), ("duration", .number 90), ("name", .string "ann")]

def hourPost : Request := ⟨.post, bytes "/api/tasks", 11, true, hourBody⟩

theorem payload_round_trip_hour :
    ∃ t, handleRequest (.table [(hourBody, hourJson)] []) (fun _ => .noSuchFile) [] hourPost ⟨[], none⟩ =
        (.ok (posted (.table [(hourBody, hourJson)] []) hourPost "ann"), Shared.pushTask ⟨[], none⟩ t) ∧
      ∀ v, Shown t v → v.elem "name" = .string "ann" ∧ v.elem "description" = .string "" ∧
        (v.elem "duration" = .number 90 ↔ -60 < (90 : ℤ) ∧ (90 : ℤ) < 60) :=
  payload_round_trip_iff _ _ _ (by decide) (j := hourJson) rfl rfl rfl rfl

/-- **A task of 90 minutes is shown as one of 30.** -/
theorem hour_and_a_half_shown :
    ∃ res, handleRequest (.table [(hourBody, hourJson)] []) (fun _ => .noSuchFile) [] hourPost ⟨[], none⟩ =
        (.ok res, ⟨[⟨"ann", "", minutes 90⟩], none⟩) ∧
      (Task.serialize ⟨"ann", "", minutes 90⟩).elem "duration" = .number 30 ∧
      (Task.serialize ⟨"ann", "", minutes 90⟩).elem "duration" ≠ hourJson.elem "duration" := by
  refine ⟨_, rfl, rfl, ?_⟩
  intro h
  cases h

end Gss.Server
