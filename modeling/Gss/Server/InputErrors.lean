/-
Which client inputs leave a handler as an exception. Neither on_read handler catches anything, and neither does a thread
in ioc.run(), so such an input ends the process for every client.

- `input_survives_iff`: in every reachable state, an input is survived exactly when it is well formed: an accepted POST
  to /api/tasks has the body of a task, and a WebSocket message is null or an object whose hello has a name.
- `chat_client_ends_server`: the text chat_client.html sends is not such a message.
-/
import Gss.Server.Main

namespace Gss.Server

open Gss.Core Gss.Scheduler Gss.HttpSession

/-- what async_read hands to an on_read handler: of http_session, or of the websocket_session j -/
inductive Input where
  | http (r : ReadResult)
  | message (j : Sessions.Sid) (payload : Option Bytes)
deriving DecidableEq, Repr

/-- the handler runs on thread i -/
def Input.op (i : ℕ) : Input → Op
  | .http r => .request i r
  | .message j payload => .room i (.read j payload)

/-- thread i can take the input -/
def Input.Arrives (s : St) (i : ℕ) : Input → Prop
  | .http _ => s.sched.pcs[i]? = some .idle
  | .message j _ => s.sched.pcs[i]? = some .busy ∧ s.room.reader j = some .reading

def Input.WellFormed (lib : Nlohmann) : Input → Prop
  | .http r => ∀ req, r = .request false req → PostsTask req → TaskBody lib req.body
  | .message _ payload => ∀ data, payload = some data → Sessions.WsMessage lib data

/-- an HTTP request goes through its handler without an exception -/
theorem onRead_ok_iff (lib : Nlohmann) (disk : Bytes → OpenResult) (docRoot : Bytes) (r : ReadResult) (sh : Shared) :
    (∃ v, (onRead lib disk docRoot r sh).1 = .ok v) ↔ (Input.http r).WellFormed lib := by
  cases r with
  | endOfStream => exact iff_of_true ⟨_, rfl⟩ fun _ h => (by cases h)
  | failed => exact iff_of_true ⟨_, rfl⟩ fun _ h => (by cases h)
  | request upgrade req =>
    cases upgrade with
    | true => exact iff_of_true ⟨_, rfl⟩ fun _ h => (by cases h)
    | false =>
      have hw : (Input.http (.request false req)).WellFormed lib ↔ (PostsTask req → TaskBody lib req.body) :=
        ⟨fun h => h req rfl, fun h _ he => by cases he; exact h⟩
      rw [hw, ← handleRequest_ok_iff lib disk docRoot req sh, onRead]
      rcases handleRequest lib disk docRoot req sh with ⟨_ | res, sh'⟩
      · simp
      · simp

theorem request_wellFormed_iff (lib : Nlohmann) (req : Request) :
    (Input.http (.request false req)).WellFormed lib ↔ ∃ r, route lib req = .ok r := by
  rw [route_ok_iff]
  exact ⟨fun h => h req rfl, fun h _ he => by cases he; exact h⟩

/-- a request ends the process exactly when its route throws -/
theorem request_survives_iff {lib : Nlohmann} {s : St} (hd : s.down = false) {i : ℕ} {r : ReadResult}
    (hi : s.sched.pcs[i]? = some .idle) :
    (step lib s (.request i r)).down = false ↔ (Input.http r).WellFormed lib := by
  have hstep : step lib s (.request i r) = act lib s (.request i r) := if_neg (by simp [hd])
  simp only [hstep, act, hi, if_true]
  split
  · rename_i req
    rw [request_wellFormed_iff]
    cases hr : route lib req with
    | error e => simp [St.down]
    | ok r => exact iff_of_true hd ⟨r, rfl⟩
  · rename_i hne
    exact iff_of_true hd fun req he => absurd he (hne req)

/-- a message ends the process exactly when its JSON throws -/
theorem read_survives_iff {lib : Nlohmann} {s : Sessions.St} (h : Sessions.Inv s) (hd : s.down = false)
    {j : Sessions.Sid} (hr : s.reader j = some .reading) (data : Bytes) :
    (Sessions.step lib s (.read j (some data))).down = false ↔ Sessions.WsMessage lib data := by
  obtain ⟨o, ho, hreader⟩ := Option.map_eq_some_iff.1 hr
  have hbuf : o.buffer = [] := (h.each j o ho).buffer (Or.inr hreader) hd
  rw [← Sessions.onReadJson_ok_iff, Sessions.step, if_neg (by simp [hd])]
  simp only [Sessions.act, ho, hreader, if_true, Sessions.onRead, hbuf, List.nil_append]
  cases Sessions.onReadJson lib data with
  | error e => simp
  | ok hello => exact iff_of_true hd ⟨hello, rfl⟩

/-- **Which inputs the server survives.** In every reachable state, and for the HTTP handler with any documents: exactly
the well-formed ones. -/
theorem input_survives_iff (threads : ℕ) (lib : Nlohmann) :
    (∀ (ops : List Op) (i : ℕ) (x : Input),
      let s := (machine threads lib).run (init threads) ops
      s.down = false → x.Arrives s i → ((step lib s (x.op i)).down = false ↔ x.WellFormed lib)) ∧
    ∀ (disk : Bytes → OpenResult) (docRoot : Bytes) (r : ReadResult) (sh : Shared),
      (∃ v, (onRead lib disk docRoot r sh).1 = .ok v) ↔ (Input.http r).WellFormed lib := by
  refine ⟨?_, fun disk docRoot r sh => onRead_ok_iff lib disk docRoot r sh⟩
  intro ops i x s hd hx
  have h : (machine threads lib).Reachable s := (machine threads lib).reachable_run ops
  cases x with
  | http r => exact request_survives_iff hd hx
  | message j payload =>
    obtain ⟨hi, hr⟩ := hx
    have hup : s.failed = false ∧ s.room.down = false := by simpa [St.down] using hd
    have hstep : step lib s (.room i (.read j payload)) =
        { s with room := Sessions.step lib s.room (.read j payload) } := by
      rw [step, if_neg (by simp [hd])]
      simp [act, hi, mayRun]
    show (step lib s (.room i (.read j payload))).down = false ↔ _
    rw [hstep]
    simp only [St.down, hup.1, Bool.false_or]
    cases payload with
    | none =>
      refine iff_of_true ?_ fun data he => (by cases he)
      obtain ⟨o, ho, hreader⟩ := Option.map_eq_some_iff.1 hr
      simp [Sessions.step, hup.2, Sessions.act, ho, hreader, Sessions.St.setReader, Sessions.St.modify]
    | some data =>
      rw [read_survives_iff (Sessions.reachable_inv (reachable_room h)) hup.2 hr data]
      exact ⟨fun hw _ he => by cases he; exact hw, fun hw => hw data rfl⟩

/-- a session is reading, with a thread ready to run its handler -/
def readingOps : List Op :=
  [.task (.dispatch 1), .room 1 (.create 0), .room 1 (.accept 0 false), .task (.done 1), .task (.dispatch 1)]

/-- what chat_client.html sends for the user ann: the name, a colon and the text -/
def chatText : Bytes := bytes "ann: hello"

/-- **The chat client ends the server.** Its text is not JSON, the parser throws in on_read, and no thread runs any
more; so does the same text as the body of a POST to /api/tasks. -/
theorem chat_client_ends_server :
    let lib := Nlohmann.table [] []
    let s := (machine 1 lib).run (init 1) readingOps
    s.down = false ∧ (step lib s (.room 1 (.read 0 (some chatText)))).down = true ∧
      (step lib (init 1) (.request 1 (.request false ⟨.post, bytes "/api/tasks", 11, true, chatText⟩))).down =
        true := by
  decide +kernel

theorem input_survives_null :
    let lib := Nlohmann.table [(bytes "null", .null)] []
    let s := (machine 1 lib).run (init 1) readingOps
    (step lib s (.room 1 (.read 0 (some (bytes "null"))))).down = false ↔
      (Input.message 0 (some (bytes "null"))).WellFormed lib :=
  (input_survives_iff 1 (Nlohmann.table [(bytes "null", .null)] [])).1 readingOps 1
    (.message 0 (some (bytes "null"))) (by decide +kernel) ⟨by decide +kernel, by decide +kernel⟩

end Gss.Server
