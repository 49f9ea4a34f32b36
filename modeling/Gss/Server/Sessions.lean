/-
The WebSocket sessions (websocket_session.cpp) and the session table of `shared_state` (shared_state.cpp: join, leave,
both send overloads).

A session is an object at an address; addresses are used again after the storage is released. It is named by the order
of construction. Its steps, each atomic:
- `accept`, `read`: the completion of async_accept (join, then the first read) and of async_read (append the message to
  buffer_, parse it, take the name of a hello);
- `snapshot`, then `lock`, `post`, `release` for each weak pointer of the snapshot: shared_state::send(message) on the
  reading session's thread; `finish`: consume the buffer, read again;
- `onSend`, `onWrite`: one handler of the session's strand, not while on_read runs on it;
- `leave`, `free`: the destructor's body, once nothing owns the session, and the release of its storage.
shared_state::send(id, message) is a call with its own steps `call`, `lookup`, `lockCall`, `postCall`, `returnCall`.
The order in which sessions_ is walked is chosen anew each time.

Owners of a session are the handler of a pending accept or read (or on_read itself), the on_send handlers posted to its
strand, the handlers of its writes, and the locked pointers of the senders. A weak pointer can be locked while there is
one. `down` is set when an exception leaves a handler: the process ends.

History, read by no step: a message's `origin`, `received`, `said`, `hellos`, `seen`, `deliveries`.

- `onReadJson_ok_iff`: when a message's JSON is handled without an exception.
- `Inv`, `reachable_inv`: the buffer is empty before each read, so what a session broadcasts is what it received; uid_
  is the name of the last hello; the write queue keeps its protocol.
-/
import Gss.Core.Heap
import Gss.Server.Json
import Gss.Server.WriteQueue

namespace Gss.Sessions

open Gss.Core

/-! ## Model -/

/-- index of a session, by construction -/
abbrev Sid := ℕ

/-- index of a call of send(id, message) -/
abbrev CallId := ℕ

/-- where a posted string comes from: message k of session i's broadcasts, or a targeted call -/
inductive Origin where
  | chat (i : Sid) (k : ℕ)
  | update (c : CallId)
deriving DecidableEq, Repr

/-- a shared string, with its origin -/
structure Msg where
  origin : Origin
  text : Bytes
deriving DecidableEq, Repr

/-- where the session's reading stands; message k is text -/
inductive Reader where
  /-- async_accept pending -/
  | accepting
  /-- async_read pending -/
  | reading
  /-- in on_read, before the snapshot of send(message) -/
  | parsed (k : ℕ) (text : Bytes)
  /-- the weak pointers left -/
  | walking (k : ℕ) (text : Bytes) (todo : List Sid)
  /-- wp.lock() gave r -/
  | locked (k : ℕ) (text : Bytes) (r : Sid) (todo : List Sid)
  /-- sp->send(ss) returned, sp not gone yet -/
  | posted (k : ℕ) (text : Bytes) (r : Sid) (todo : List Sid)
  /-- on_accept or on_read ended in fail -/
  | stopped
deriving DecidableEq, Repr

structure Session where
  addr : Addr
  /-- uid_ -/
  uid : String
  /-- buffer_ -/
  buffer : Bytes
  reader : Reader
  /-- on_send handlers posted to the strand -/
  strand : List Msg
  /-- queue_ and its writes -/
  out : WriteQueue.St Msg
  joined : Bool
  left : Bool
  freed : Bool
  /-- the messages async_read appended -/
  received : List Bytes
  /-- the messages passed to send(message) -/
  said : List Bytes
  /-- the names of the hellos -/
  hellos : List String
deriving DecidableEq, Repr

inductive CallPc where
  | called
  /-- the weak pointer after the loop -/
  | found (session : Option Sid)
  | locked (r : Sid)
  | posted (r : Sid)
  | returned
deriving DecidableEq, Repr

/-- shared_state::send(id, message) -/
structure Call where
  id : String
  text : Bytes
  pc : CallPc
  /-- the hellos of the session found, at the lookup -/
  seen : List String
deriving DecidableEq, Repr

/-- a targeted message was posted to `target`, whose hellos are `seen` at the lookup and `hellos` now -/
structure Delivery where
  call : CallId
  target : Sid
  seen : List String
  hellos : List String
deriving DecidableEq, Repr

structure St where
  objs : List Session
  /-- sessions_ -/
  table : Finset Addr
  calls : List Call
  deliveries : List Delivery
  down : Bool
deriving DecidableEq

inductive Op where
  | create (a : Addr)
  | accept (i : Sid) (error : Bool)
  /-- completion of async_read; none is an error -/
  | read (i : Sid) (payload : Option Bytes)
  | snapshot (i : Sid) (order : List Addr)
  | lock (i : Sid)
  | post (i : Sid)
  | release (i : Sid)
  | finish (i : Sid)
  | onSend (j : Sid)
  | onWrite (j : Sid) (k : ℕ) (error : Bool)
  | leave (j : Sid)
  | free (j : Sid)
  | call (id : String) (text : Bytes)
  | lookup (c : CallId) (order : List Addr)
  | lockCall (c : CallId)
  | postCall (c : CallId)
  | returnCall (c : CallId)
deriving DecidableEq, Repr

def init : St := ⟨[], ∅, [], [], false⟩

/-- the constructor, and run's async_accept -/
def Session.make (a : Addr) : Session := ⟨a, "", [], .accepting, [], WriteQueue.empty, false, false, false, [], [], []⟩

def St.modify (s : St) (i : Sid) (f : Session → Session) : St := { s with objs := s.objs.modify i f }

def St.setCall (s : St) (c : CallId) (p : CallPc) : St :=
  { s with calls := s.calls.modify c fun x => { x with pc := p } }

def St.reader (s : St) (i : Sid) : Option Reader := s.objs[i]?.map Session.reader

def St.setReader (s : St) (i : Sid) (p : Reader) : St := s.modify i fun o => { o with reader := p }

def St.callPc (s : St) (c : CallId) : Option CallPc := s.calls[c]?.map Call.pc

/-- on_accept or on_read is pending or running -/
def Reader.active : Reader → Bool
  | .stopped => false
  | _ => true

/-- on_read is running -/
def Reader.busy : Reader → Bool
  | .accepting | .reading | .stopped => false
  | _ => true

/-- the session a running send(message) has locked -/
def Reader.holds (j : Sid) : Reader → Bool
  | .locked _ _ r _ | .posted _ _ r _ => r = j
  | _ => false

/-- the session a running send(id, message) has locked -/
def CallPc.holds (j : Sid) : CallPc → Bool
  | .locked r | .posted r => r = j
  | _ => false

/-- the owners a session has by itself -/
def Session.ownRefs (o : Session) : ℕ := o.reader.active.toNat + o.strand.length + o.out.writes.length

/-- shared_ptr::use_count -/
def St.useCount (s : St) (j : Sid) : ℕ :=
  match s.objs[j]? with
  | none => 0
  | some o => o.ownRefs + s.objs.countP (fun p => p.reader.holds j) + s.calls.countP fun c => c.pc.holds j

/-- weak_ptr::lock gives the session -/
def Alive (s : St) (j : Sid) : Prop := 0 < s.useCount j

instance (s : St) (j : Sid) : Decidable (Alive s j) := inferInstanceAs (Decidable (_ < _))

/-- the session whose storage is at the address -/
def St.objAt (s : St) (a : Addr) : Option Sid := s.objs.findIdx? fun o => o.addr = a ∧ o.freed = false

/-- order is a walk of the unordered_set -/
def Enumerates (order : List Addr) (table : Finset Addr) : Prop := order.Nodup ∧ order.toFinset = table

instance (order : List Addr) (table : Finset Addr) : Decidable (Enumerates order table) :=
  inferInstanceAs (Decidable (_ ∧ _))

/-- the JSON part of on_read: the name, when the type is hello -/
def onReadJson (lib : Nlohmann) (data : Bytes) : Except Exn (Option String) := do
  let message ← lib.parse data
  let (type, message) ← message.index "type"
  if type.isString "hello" then
    let (name, message) ← message.index "name"
    let _ ← name.getString
    let (name, _) ← message.index "name"
    let name ← name.getString
    return some name
  else return none

/-- on_read, up to its call of send(message) -/
def onRead (lib : Nlohmann) (s : St) (i : Sid) (o : Session) (payload : Bytes) : St :=
  let o := { o with buffer := o.buffer ++ payload, received := o.received ++ [payload] }
  match onReadJson lib o.buffer with
  | .error _ => { s.modify i fun _ => o with down := true }
  | .ok hello => s.modify i fun _ => { o with
      uid := hello.getD o.uid
      hellos := o.hellos ++ hello.toList
      reader := .parsed o.said.length o.buffer
      said := o.said ++ [o.buffer] }

/-- the loop of send(id, message): the weak pointer is overwritten at each session with the id -/
def St.lastMatch (s : St) (id : String) (order : List Addr) : Option Sid :=
  order.foldl (fun session a =>
    match s.objAt a with
    | some j => if s.objs[j]?.map Session.uid = some id then some j else session
    | none => session) none

/-- send(ss) of session r: net::post of on_send -/
def St.postTo (s : St) (r : Sid) (m : Msg) : St := s.modify r fun o => { o with strand := o.strand ++ [m] }

def act (lib : Nlohmann) (s : St) : Op → St
  | .create a => if (s.objAt a).isSome then s else { s with objs := s.objs ++ [Session.make a] }
  | .accept i error =>
    match s.objs[i]? with
    | some o =>
      if o.reader = .accepting then
        if error then s.setReader i .stopped
        else { s.modify i fun o => { o with reader := .reading, joined := true } with table := insert o.addr s.table }
      else s
    | none => s
  | .read i payload =>
    match s.objs[i]? with
    | some o =>
      if o.reader = .reading then
        match payload with
        | none => s.setReader i .stopped
        | some payload => onRead lib s i o payload
      else s
    | none => s
  | .snapshot i order =>
    match s.reader i with
    | some (.parsed k text) =>
      if Enumerates order s.table then s.setReader i (.walking k text (order.filterMap s.objAt)) else s
    | _ => s
  | .lock i =>
    match s.reader i with
    | some (.walking k text (r :: todo)) =>
      if Alive s r then s.setReader i (.locked k text r todo) else s.setReader i (.walking k text todo)
    | _ => s
  | .post i =>
    match s.reader i with
    | some (.locked k text r todo) =>
      if r < s.objs.length then (s.setReader i (.posted k text r todo)).postTo r ⟨.chat i k, text⟩ else s
    | _ => s
  | .release i =>
    match s.reader i with
    | some (.posted k text _ todo) => s.setReader i (.walking k text todo)
    | _ => s
  | .finish i =>
    match s.reader i with
    | some (.walking _ _ []) => s.modify i fun o => { o with reader := .reading, buffer := [] }
    | _ => s
  | .onSend j =>
    match s.objs[j]? with
    | some o =>
      match o.strand with
      | m :: rest =>
        if o.reader.busy then s else s.modify j fun o => { o with strand := rest, out := WriteQueue.onSend o.out m }
      | [] => s
    | none => s
  | .onWrite j k error =>
    match s.objs[j]? with
    | some o => if o.reader.busy then s else s.modify j fun o => { o with out := WriteQueue.onWrite o.out k error }
    | none => s
  | .leave j =>
    match s.objs[j]? with
    | some o =>
      if s.useCount j = 0 ∧ o.left = false then
        { s.modify j fun o => { o with left := true } with table := s.table.erase o.addr }
      else s
    | none => s
  | .free j =>
    match s.objs[j]? with
    | some o => if o.left then s.modify j fun o => { o with freed := true } else s
    | none => s
  | .call id text => { s with calls := s.calls ++ [⟨id, text, .called, []⟩] }
  | .lookup c order =>
    match s.calls[c]? with
    | some x =>
      if x.pc = .called ∧ Enumerates order s.table then
        let session := s.lastMatch x.id order
        let seen := ((session.bind fun j => s.objs[j]?).map Session.hellos).getD []
        { s with calls := s.calls.modify c fun x => { x with pc := .found session, seen := seen } }
      else s
    | none => s
  | .lockCall c =>
    match s.callPc c with
    | some (.found (some r)) => if Alive s r then s.setCall c (.locked r) else s.setCall c .returned
    | some (.found none) => s.setCall c .returned
    | _ => s
  | .postCall c =>
    match s.calls[c]? with
    | some x =>
      match x.pc with
      | .locked r =>
        match s.objs[r]? with
        | some o =>
          { (s.setCall c (.posted r)).postTo r ⟨.update c, x.text⟩ with
            deliveries := s.deliveries ++ [⟨c, r, x.seen, o.hellos⟩] }
        | none => s
      | _ => s
    | none => s
  | .returnCall c =>
    match s.callPc c with
    | some (.posted _) => s.setCall c .returned
    | _ => s

def step (lib : Nlohmann) (s : St) (o : Op) : St := if s.down then s else act lib s o

def machine (lib : Nlohmann) : Machine St Op := ⟨init, step lib⟩

/-! ## The table of addresses -/

theorem objAt_some {s : St} {a : Addr} {j : Sid} (h : s.objAt a = some j) :
    ∃ o, s.objs[j]? = some o ∧ o.addr = a ∧ o.freed = false := by
  obtain ⟨hj, hp, -⟩ := List.findIdx?_eq_some_iff_getElem.1 h
  have hp : (s.objs[j]).addr = a ∧ (s.objs[j]).freed = false := by simpa using hp
  exact ⟨_, List.getElem?_eq_getElem hj, hp⟩

/-- a walk meets a session once -/
theorem targets_nodup {s : St} {order : List Addr} (h : order.Nodup) : (order.filterMap s.objAt).Nodup := by
  apply h.filterMap
  intro a a' j ha ha'
  obtain ⟨o, ho, rfl, -⟩ := objAt_some ha
  obtain ⟨o', ho', rfl, -⟩ := objAt_some ha'
  rw [ho] at ho'
  cases ho'
  rfl

/-! ## What a step can do -/

/-- **Step inversion.** The branches of `act` that change something, with their guards. -/
inductive Does (lib : Nlohmann) (s : St) : Op → St → Prop where
  | idle (o : Op) : Does lib s o s
  | create (a : Addr) (h : s.objAt a = none) : Does lib s (.create a) { s with objs := s.objs ++ [Session.make a] }
  | acceptOk (i : Sid) (o : Session) (h : s.objs[i]? = some o) (hr : o.reader = .accepting) :
      Does lib s (.accept i false)
        { s.modify i fun o => { o with reader := .reading, joined := true } with table := insert o.addr s.table }
  | acceptFail (i : Sid) (h : s.reader i = some .accepting) : Does lib s (.accept i true) (s.setReader i .stopped)
  | readFail (i : Sid) (h : s.reader i = some .reading) : Does lib s (.read i none) (s.setReader i .stopped)
  | readThrow (i : Sid) (o : Session) (payload : Bytes) (e : Exn) (h : s.objs[i]? = some o) (hr : o.reader = .reading)
      (hj : onReadJson lib (o.buffer ++ payload) = .error e) :
      Does lib s (.read i (some payload))
        { s.modify i fun o => { o with buffer := o.buffer ++ payload, received := o.received ++ [payload] } with
          down := true }
  | readOk (i : Sid) (o : Session) (payload : Bytes) (hello : Option String) (h : s.objs[i]? = some o)
      (hr : o.reader = .reading) (hj : onReadJson lib (o.buffer ++ payload) = .ok hello) :
      Does lib s (.read i (some payload)) (s.modify i fun o => { o with
        buffer := o.buffer ++ payload
        received := o.received ++ [payload]
        uid := hello.getD o.uid
        hellos := o.hellos ++ hello.toList
        reader := .parsed o.said.length (o.buffer ++ payload)
        said := o.said ++ [o.buffer ++ payload] })
  | snapshot (i : Sid) (k : ℕ) (text : Bytes) (order : List Addr) (h : s.reader i = some (.parsed k text))
      (he : Enumerates order s.table) :
      Does lib s (.snapshot i order) (s.setReader i (.walking k text (order.filterMap s.objAt)))
  | lockOk (i : Sid) (k : ℕ) (text : Bytes) (r : Sid) (todo : List Sid)
      (h : s.reader i = some (.walking k text (r :: todo))) (ha : Alive s r) :
      Does lib s (.lock i) (s.setReader i (.locked k text r todo))
  | lockFail (i : Sid) (k : ℕ) (text : Bytes) (r : Sid) (todo : List Sid)
      (h : s.reader i = some (.walking k text (r :: todo))) (ha : ¬ Alive s r) :
      Does lib s (.lock i) (s.setReader i (.walking k text todo))
  | post (i : Sid) (k : ℕ) (text : Bytes) (r : Sid) (todo : List Sid) (h : s.reader i = some (.locked k text r todo))
      (hr : r < s.objs.length) :
      Does lib s (.post i) ((s.setReader i (.posted k text r todo)).postTo r ⟨.chat i k, text⟩)
  | release (i : Sid) (k : ℕ) (text : Bytes) (r : Sid) (todo : List Sid)
      (h : s.reader i = some (.posted k text r todo)) : Does lib s (.release i) (s.setReader i (.walking k text todo))
  | finish (i : Sid) (k : ℕ) (text : Bytes) (h : s.reader i = some (.walking k text [])) :
      Does lib s (.finish i) (s.modify i fun o => { o with reader := .reading, buffer := [] })
  | onSend (j : Sid) (o : Session) (m : Msg) (rest : List Msg) (h : s.objs[j]? = some o) (hs : o.strand = m :: rest)
      (hb : o.reader.busy = false) :
      Does lib s (.onSend j) (s.modify j fun o => { o with strand := rest, out := WriteQueue.onSend o.out m })
  | onWrite (j : Sid) (o : Session) (k : ℕ) (error : Bool) (h : s.objs[j]? = some o) (hb : o.reader.busy = false) :
      Does lib s (.onWrite j k error) (s.modify j fun o => { o with out := WriteQueue.onWrite o.out k error })
  | leave (j : Sid) (o : Session) (h : s.objs[j]? = some o) (hu : s.useCount j = 0) (hl : o.left = false) :
      Does lib s (.leave j) { s.modify j fun o => { o with left := true } with table := s.table.erase o.addr }
  | free (j : Sid) (o : Session) (h : s.objs[j]? = some o) (hl : o.left = true) :
      Does lib s (.free j) (s.modify j fun o => { o with freed := true })
  | call (id : String) (text : Bytes) :
      Does lib s (.call id text) { s with calls := s.calls ++ [⟨id, text, .called, []⟩] }
  | lookup (c : CallId) (x : Call) (order : List Addr) (h : s.calls[c]? = some x) (hp : x.pc = .called)
      (he : Enumerates order s.table) :
      Does lib s (.lookup c order) { s with calls := s.calls.modify c fun y => { y with
        pc := .found (s.lastMatch x.id order)
        seen := (((s.lastMatch x.id order).bind fun j => s.objs[j]?).map Session.hellos).getD [] } }
  | lockCallOk (c : CallId) (r : Sid) (h : s.callPc c = some (.found (some r))) (ha : Alive s r) :
      Does lib s (.lockCall c) (s.setCall c (.locked r))
  | lockCallFail (c : CallId) (r : Sid) (h : s.callPc c = some (.found (some r))) (ha : ¬ Alive s r) :
      Does lib s (.lockCall c) (s.setCall c .returned)
  | lockCallNone (c : CallId) (h : s.callPc c = some (.found none)) :
      Does lib s (.lockCall c) (s.setCall c .returned)
  | postCall (c : CallId) (x : Call) (r : Sid) (o : Session) (h : s.calls[c]? = some x) (hp : x.pc = .locked r)
      (ho : s.objs[r]? = some o) :
      Does lib s (.postCall c) { (s.setCall c (.posted r)).postTo r ⟨.update c, x.text⟩ with
        deliveries := s.deliveries ++ [⟨c, r, x.seen, o.hellos⟩] }
  | returnCall (c : CallId) (r : Sid) (h : s.callPc c = some (.posted r)) :
      Does lib s (.returnCall c) (s.setCall c .returned)

/-- a session at a given state is modified by any function that agrees there -/
theorem modify_congr {s : St} {i : Sid} {o : Session} (hi : s.objs[i]? = some o) {f g : Session → Session}
    (h : f o = g o) : s.modify i f = s.modify i g := by
  simp only [St.modify, St.mk.injEq, and_true]
  refine List.ext_getElem? ?_
  intro j
  simp only [List.getElem?_modify]
  by_cases hj : i = j
  · subst hj; simp [hi, h]
  · simp [hj]

theorem act_does (lib : Nlohmann) (s : St) (o : Op) : Does lib s o (act lib s o) := by
  cases o with
  | create a =>
    simp only [act]
    split_ifs with h
    · exact .idle _
    · exact .create a (by simpa using h)
  | accept i error =>
    simp only [act]
    split
    · rename_i o ho
      split_ifs with hr he
      · subst he; exact .acceptFail i (by simp [St.reader, ho, hr])
      · have he : error = false := by simpa using he
        subst he
        exact .acceptOk i o ho hr
      · exact .idle _
    · exact .idle _
  | read i payload =>
    simp only [act]
    split
    · rename_i o ho
      split_ifs with hr
      · cases payload with
        | none => exact .readFail i (by simp [St.reader, ho, hr])
        | some payload =>
          simp only [onRead]
          cases hj : onReadJson lib (o.buffer ++ payload) with
          | error e =>
            simp only
            rw [modify_congr ho (g := fun o => { o with
              buffer := o.buffer ++ payload
              received := o.received ++ [payload] }) rfl]
            exact .readThrow i o payload e ho hr hj
          | ok hello =>
            simp only
            rw [modify_congr ho (g := fun o => { o with
              buffer := o.buffer ++ payload
              received := o.received ++ [payload]
              uid := hello.getD o.uid
              hellos := o.hellos ++ hello.toList
              reader := .parsed o.said.length (o.buffer ++ payload)
              said := o.said ++ [o.buffer ++ payload] }) rfl]
            exact .readOk i o payload hello ho hr hj
      · exact .idle _
    · exact .idle _
  | snapshot i order =>
    simp only [act]
    split
    · rename_i k text h
      split_ifs with he
      · exact .snapshot i k text order h he
      · exact .idle _
    · exact .idle _
  | lock i =>
    simp only [act]
    split
    · rename_i k text r todo h
      split_ifs with ha
      · exact .lockOk i k text r todo h ha
      · exact .lockFail i k text r todo h ha
    · exact .idle _
  | post i =>
    simp only [act]
    split
    · rename_i k text r todo h
      split_ifs with hr
      · exact .post i k text r todo h hr
      · exact .idle _
    · exact .idle _
  | release i =>
    simp only [act]
    split
    · rename_i k text r todo h; exact .release i k text r todo h
    · exact .idle _
  | finish i =>
    simp only [act]
    split
    · rename_i k text h; exact .finish i k text h
    · exact .idle _
  | onSend j =>
    simp only [act]
    split
    · rename_i o ho
      split
      · rename_i m rest hs
        split_ifs with hb
        · exact .idle _
        · exact .onSend j o m rest ho hs (by simpa using hb)
      · exact .idle _
    · exact .idle _
  | onWrite j k error =>
    simp only [act]
    split
    · rename_i o ho
      split_ifs with hb
      · exact .idle _
      · exact .onWrite j o k error ho (by simpa using hb)
    · exact .idle _
  | leave j =>
    simp only [act]
    split
    · rename_i o ho
      split_ifs with h
      · exact .leave j o ho h.1 h.2
      · exact .idle _
    · exact .idle _
  | free j =>
    simp only [act]
    split
    · rename_i o ho
      split_ifs with h
      · exact .free j o ho h
      · exact .idle _
    · exact .idle _
  | call id text => exact .call id text
  | lookup c order =>
    simp only [act]
    split
    · rename_i x hx
      split_ifs with h
      · exact .lookup c x order hx h.1 h.2
      · exact .idle _
    · exact .idle _
  | lockCall c =>
    simp only [act]
    split
    · rename_i r h
      split_ifs with ha
      · exact .lockCallOk c r h ha
      · exact .lockCallFail c r h ha
    · rename_i h; exact .lockCallNone c h
    · exact .idle _
  | postCall c =>
    simp only [act]
    split
    · rename_i x hx
      split
      · rename_i r hp
        split
        · rename_i o ho; exact .postCall c x r o hx hp ho
        · exact .idle _
      · exact .idle _
    · exact .idle _
  | returnCall c =>
    simp only [act]
    split
    · rename_i r h; exact .returnCall c r h
    · exact .idle _

/-- a step changes the state only while the server is up -/
theorem step_does (lib : Nlohmann) (s : St) (o : Op) : Does lib s o (step lib s o) := by
  unfold step
  split_ifs
  · exact .idle o
  · exact act_does lib s o

/-- what a step does to one call -/
inductive CallDoes (s : St) (x : Call) : Call → Prop where
  | stays : CallDoes s x x
  | lookup (order : List Addr) (hp : x.pc = .called) : CallDoes s x { x with
      pc := .found (s.lastMatch x.id order)
      seen := (((s.lastMatch x.id order).bind fun j => s.objs[j]?).map Session.hellos).getD [] }
  | lockOk (r : Sid) (hp : x.pc = .found (some r)) (ha : Alive s r) : CallDoes s x { x with pc := .locked r }
  | lockFail (r : Sid) (hp : x.pc = .found (some r)) (ha : ¬ Alive s r) : CallDoes s x { x with pc := .returned }
  | lockNone (hp : x.pc = .found none) : CallDoes s x { x with pc := .returned }
  | post (r : Sid) (hp : x.pc = .locked r) : CallDoes s x { x with pc := .posted r }
  | ends (r : Sid) (hp : x.pc = .posted r) : CallDoes s x { x with pc := .returned }

theorem CallDoes.frame {s : St} {x x' : Call} (h : CallDoes s x x') : x'.id = x.id ∧ x'.text = x.text := by
  cases h <;> exact ⟨rfl, rfl⟩

theorem call_does {lib : Nlohmann} {s s' : St} {o : Op} (h : Does lib s o s') {c : CallId} {x : Call}
    (hx : s.calls[c]? = some x) : ∃ x', s'.calls[c]? = some x' ∧ CallDoes s x x' := by
  have modify : ∀ (d : CallId) (f : Call → Call), (c = d → CallDoes s x (f x)) →
      ∃ x', (s.calls.modify d f)[c]? = some x' ∧ CallDoes s x x' := by
    intro d f hf
    by_cases hd : c = d
    · subst hd; exact ⟨f x, by simp [hx], hf rfl⟩
    · exact ⟨x, by simp [hx, Ne.symm hd], .stays⟩
  have pc_of : ∀ {d : CallId} {p : CallPc}, s.callPc d = some p → c = d → x.pc = p := by
    rintro d p hp rfl
    simpa [St.callPc, hx] using hp
  cases h with
  | call id text =>
    exact ⟨x, by simp only [List.getElem?_append_left (List.getElem?_eq_some_iff.1 hx).1, hx], .stays⟩
  | lookup d y order hy hp he =>
    apply modify d _
    intro hd
    subst hd
    rw [hx] at hy
    cases hy
    exact .lookup order hp
  | lockCallOk d r hp ha => exact modify d _ fun hd => .lockOk r (pc_of hp hd) ha
  | lockCallFail d r hp ha => exact modify d _ fun hd => .lockFail r (pc_of hp hd) ha
  | lockCallNone d hp => exact modify d _ fun hd => .lockNone (pc_of hp hd)
  | postCall d y r o hy hp ho =>
    apply modify d _
    intro hd
    subst hd
    rw [hx] at hy
    cases hy
    exact .post r hp
  | returnCall d r hp => exact modify d _ fun hd => .ends r (pc_of hp hd)
  | _ => exact ⟨x, hx, .stays⟩

theorem length_calls {lib : Nlohmann} {s s' : St} {o : Op} (h : Does lib s o s') (ho : ∀ id text, o ≠ .call id text) :
    s'.calls.length = s.calls.length := by
  cases h with
  | call id text => exact absurd rfl (ho id text)
  | _ => simp [St.modify, St.setReader, St.setCall, St.postTo]

/-! ## The invariant of the sessions -/

/-- What one session keeps. Its buffer is empty before a read, so it has said what it received; uid_ is the last
name. -/
structure Session.Inv (down : Bool) (o : Session) : Prop where
  buffer : o.reader = .accepting ∨ o.reader = .reading → down = false → o.buffer = []
  said : down = false → o.said = o.received
  saidOf : o.said <+: o.received
  uid : o.uid = o.hellos.getLastD ""
  out : WriteQueue.Inv o.out

/-- what the sessions keep together: no two share storage -/
structure Inv (s : St) : Prop where
  each : ∀ (i : Sid) (o : Session), s.objs[i]? = some o → o.Inv s.down
  apart : ∀ (i j : Sid) (o p : Session), s.objs[i]? = some o → s.objs[j]? = some p → o.freed = false → p.freed = false →
    o.addr = p.addr → i = j

theorem inv_init : Inv init := ⟨fun i o h => (by cases h), fun i j o p h => (by cases h)⟩

/-- the entries of a list with one modified -/
theorem modify_get {s : St} {i j : Sid} {f : Session → Session} {o : Session} (h : (s.modify i f).objs[j]? = some o) :
    ∃ p, s.objs[j]? = some p ∧ (j = i ∧ o = f p ∨ j ≠ i ∧ o = p) := by
  simp only [St.modify, List.getElem?_modify] at h
  obtain ⟨p, hp, ho⟩ := Option.map_eq_some_iff.1 h
  by_cases hj : j = i
  · subst hj; simp only [if_true] at ho; exact ⟨p, hp, Or.inl ⟨rfl, ho.symm⟩⟩
  · rw [if_neg (Ne.symm hj)] at ho; exact ⟨p, hp, Or.inr ⟨hj, ho.symm⟩⟩

/-- one session changes, in a way that keeps what it has to keep, and its address and storage -/
theorem inv_modify {s : St} (h : Inv s) {i : Sid} {f : Session → Session}
    (hf : ∀ o, s.objs[i]? = some o → (f o).Inv s.down ∧ (f o).addr = o.addr ∧ ((f o).freed = false → o.freed = false)) :
    Inv (s.modify i f) := by
  refine ⟨?_, ?_⟩
  · intro j o ho
    obtain ⟨o', ho', ⟨rfl, rfl⟩ | ⟨-, rfl⟩⟩ := modify_get ho
    · exact (hf o' ho').1
    · exact h.each j o ho'
  · intro j k o p ho hp h1 h2 ha
    have back : ∀ {j : Sid} {o : Session}, (s.modify i f).objs[j]? = some o → o.freed = false →
        ∃ o', s.objs[j]? = some o' ∧ o'.addr = o.addr ∧ o'.freed = false := by
      intro j o ho hfr
      obtain ⟨o', ho', ⟨rfl, rfl⟩ | ⟨-, rfl⟩⟩ := modify_get ho
      · exact ⟨o', ho', (hf o' ho').2.1.symm, (hf o' ho').2.2 hfr⟩
      · exact ⟨o, ho', rfl, hfr⟩
    obtain ⟨o', ho', ea, ef⟩ := back ho h1
    obtain ⟨p', hp', ea', ef'⟩ := back hp h2
    exact h.apart j k o' p' ho' hp' ef ef' (by rw [ea, ea', ha])

/-- only the reader changes, and not to an empty-buffer state unless the buffer is empty -/
theorem Session.Inv.reader {down : Bool} {o : Session} (h : o.Inv down) {p : Reader}
    (hp : p = .accepting ∨ p = .reading → down = false → o.buffer = []) : ({ o with reader := p } : Session).Inv down :=
  ⟨hp, h.said, h.saidOf, h.uid, h.out⟩

theorem inv_setReader {s : St} (h : Inv s) {i : Sid} {p : Reader} (hp : p ≠ .accepting ∧ p ≠ .reading) :
    Inv (s.setReader i p) :=
  inv_modify h fun o ho => ⟨(h.each i o ho).reader fun hr => absurd hr (by tauto), rfl, id⟩

/-- the invariant reads the sessions and `down` only -/
theorem inv_congr {s t : St} (h : Inv s) (ho : t.objs = s.objs) (hd : t.down = s.down) : Inv t :=
  ⟨fun i o hi => by rw [hd]; exact h.each i o (by rw [← ho, hi]),
    fun i j o p hi hj => h.apart i j o p (by rw [← ho, hi]) (by rw [← ho, hj])⟩

/-- an exception ends the process; what is left is kept -/
theorem Session.Inv.goes_down {down : Bool} {o : Session} (h : o.Inv down) : o.Inv true :=
  ⟨fun _ h => (by cases h), fun h => (by cases h), h.saidOf, h.uid, h.out⟩

theorem inv_down {s : St} (h : Inv s) : Inv { s with down := true } :=
  ⟨fun i o hi => (h.each i o hi).goes_down, h.apart⟩

theorem inv_create {s : St} (h : Inv s) {a : Addr} (ha : s.objAt a = none) :
    Inv { s with objs := s.objs ++ [Session.make a] } := by
  have hnone : ∀ (i : Sid) (o : Session), s.objs[i]? = some o → o.freed = false → o.addr ≠ a := by
    intro i o hi hf he
    have := List.findIdx?_eq_none_iff.1 ha o (List.mem_of_getElem? hi)
    simp [hf, he] at this
  have get : ∀ {i : Sid} {o : Session}, (s.objs ++ [Session.make a])[i]? = some o →
      s.objs[i]? = some o ∨ (i = s.objs.length ∧ o = Session.make a) := by
    intro i o hi
    rcases Nat.lt_trichotomy i s.objs.length with hl | hl | hl
    · exact Or.inl (by rwa [List.getElem?_append_left hl] at hi)
    · subst hl; simp at hi; exact Or.inr ⟨rfl, hi.symm⟩
    · rw [List.getElem?_eq_none (by simp; omega)] at hi; cases hi
  refine ⟨?_, ?_⟩
  · intro i o hi
    rcases get hi with hi | ⟨-, rfl⟩
    · exact h.each i o hi
    · exact ⟨fun _ _ => rfl, fun _ => rfl, List.prefix_refl _, rfl, WriteQueue.inv_empty⟩
  · intro i j o p hi hj ho hp hop
    rcases get hi with hi | ⟨rfl, rfl⟩ <;> rcases get hj with hj | ⟨rfl, rfl⟩
    · exact h.apart i j o p hi hj ho hp hop
    · exact absurd hop (hnone i o hi ho)
    · exact absurd hop.symm (hnone j p hj hp)
    · rfl

theorem does_inv {lib : Nlohmann} {s s' : St} {o : Op} (hs : Does lib s o s') (hd : s.down = false) (h : Inv s) :
    Inv s' := by
  cases hs with
  | idle => exact h
  | create a ha => exact inv_create h ha
  | acceptOk i o ho hr =>
    have h1 : Inv (s.modify i fun o => { o with reader := .reading, joined := true }) := by
      refine inv_modify h fun p hp => ⟨{ h.each i p hp with buffer := fun _ => ?_ }, rfl, id⟩
      rw [ho] at hp
      cases hp
      exact (h.each i o ho).buffer (Or.inl hr)
    exact inv_congr h1 rfl rfl
  | acceptFail i _ => exact inv_setReader h (by simp)
  | readFail i _ => exact inv_setReader h (by simp)
  | readThrow i o payload e ho hr hj =>
    have h1 := inv_down h
    refine inv_modify h1 fun p hp => ⟨⟨fun _ h => (by cases h), fun h => (by cases h), ?_, ?_, ?_⟩, rfl, id⟩
    · exact (h.each i p hp).saidOf.trans (List.prefix_append _ _)
    · exact (h.each i p hp).uid
    · exact (h.each i p hp).out
  | readOk i o payload hello ho hr hj =>
    apply inv_modify h
    intro p hp
    rw [ho] at hp
    cases hp
    have hi := h.each i o ho
    have hbuf : o.buffer = [] := hi.buffer (Or.inr hr) hd
    have hsaid : o.said ++ [o.buffer ++ payload] = o.received ++ [payload] := by rw [hbuf, hi.said hd, List.nil_append]
    refine ⟨⟨?_, fun _ => hsaid, by rw [hsaid], ?_, hi.out⟩, rfl, id⟩
    · intro hp
      rcases hp with hp | hp <;> cases hp
    · cases hello with
      | none => simpa using hi.uid
      | some name => simp
  | snapshot i k text order _ _ => exact inv_setReader h (by simp)
  | lockOk i k text r todo _ _ => exact inv_setReader h (by simp)
  | lockFail i k text r todo _ _ => exact inv_setReader h (by simp)
  | post i k text r todo _ _ =>
    have h1 : Inv (s.setReader i (.posted k text r todo)) := inv_setReader h (by simp)
    exact inv_modify h1 fun o ho => ⟨{ h1.each r o ho with }, rfl, id⟩
  | release i k text r todo _ => exact inv_setReader h (by simp)
  | finish i k text _ => exact inv_modify h fun o ho => ⟨{ h.each i o ho with buffer := fun _ _ => rfl }, rfl, id⟩
  | onSend j o m rest _ _ _ =>
    exact inv_modify h fun o ho =>
      ⟨{ h.each j o ho with out := WriteQueue.onSend_inv _ m (h.each j o ho).out }, rfl, id⟩
  | onWrite j o k error _ _ =>
    exact inv_modify h fun o ho =>
      ⟨{ h.each j o ho with out := WriteQueue.onWrite_inv _ k error (h.each j o ho).out }, rfl, id⟩
  | leave j o _ _ _ =>
    have h1 : Inv (s.modify j fun o => { o with left := true }) :=
      inv_modify h fun o ho => ⟨{ h.each j o ho with }, rfl, id⟩
    exact inv_congr h1 rfl rfl
  | free j o _ _ => exact inv_modify h fun o ho => ⟨{ h.each j o ho with }, rfl, fun h => (by cases h)⟩
  | call id text => exact inv_congr h rfl rfl
  | lookup c x order _ _ _ => exact inv_congr h rfl rfl
  | lockCallOk c r _ _ => exact inv_congr h rfl rfl
  | lockCallFail c r _ _ => exact inv_congr h rfl rfl
  | lockCallNone c _ => exact inv_congr h rfl rfl
  | postCall c x r o _ _ _ =>
    have h1 : Inv (s.setCall c (.posted r)) := inv_congr h rfl rfl
    have h2 : Inv ((s.setCall c (.posted r)).postTo r ⟨.update c, x.text⟩) :=
      inv_modify h1 fun o ho => ⟨{ h1.each r o ho with }, rfl, id⟩
    exact inv_congr h2 rfl rfl
  | returnCall c r _ => exact inv_congr h rfl rfl

theorem step_inv (lib : Nlohmann) (s : St) (o : Op) (h : Inv s) : Inv (step lib s o) := by
  unfold step
  split_ifs with hd
  · exact h
  · exact does_inv (act_does lib s o) (by simpa using hd) h

theorem reachable_inv {lib : Nlohmann} {s : St} (h : (machine lib).Reachable s) : Inv s :=
  (machine lib).invariant inv_init (step_inv lib) h

/-- the address of a session leads to it as long as its storage is there -/
theorem Inv.objAt_stored {s : St} (h : Inv s) {i : Sid} {o : Session} (ho : s.objs[i]? = some o)
    (hf : o.freed = false) : s.objAt o.addr = some i := by
  have hsome : (s.objAt o.addr).isSome := by
    rw [St.objAt, List.findIdx?_isSome, List.any_eq_true]
    exact ⟨o, List.mem_of_getElem? ho, by simp [hf]⟩
  obtain ⟨j, hj⟩ := Option.isSome_iff_exists.1 hsome
  obtain ⟨p, hp, hpa, hpf⟩ := objAt_some hj
  rw [hj, h.apart j i p o hp ho hpf hf hpa]

/-- r is in sessions_ -/
def InTable (s : St) (r : Sid) : Prop := ∃ o, s.objs[r]? = some o ∧ o.freed = false ∧ o.addr ∈ s.table

instance (s : St) (r : Sid) : Decidable (InTable s r) :=
  match h : s.objs[r]? with
  | none => isFalse fun ⟨_, ho, _⟩ => by rw [h] at ho; cases ho
  | some o => decidable_of_iff (o.freed = false ∧ o.addr ∈ s.table)
      ⟨fun hp => ⟨o, h, hp⟩, fun ⟨o', ho, hp⟩ => by rw [h] at ho; cases ho; exact hp⟩

/-- a walk of the table meets every session in it -/
theorem mem_targets {s : St} (h : Inv s) {r : Sid} (hr : InTable s r) {order : List Addr}
    (he : Enumerates order s.table) :
    r ∈ order.filterMap s.objAt := by
  obtain ⟨o, ho, hf, ha⟩ := hr
  refine List.mem_filterMap.2 ⟨o.addr, ?_, ?_⟩
  · rw [← he.2] at ha; exact List.mem_toFinset.1 ha
  · exact h.objAt_stored ho hf

/-! ## The JSON of a message -/

/-- the payload is handled without an exception: null, or an object that has a name if it is a hello -/
def WsMessage (lib : Nlohmann) (data : Bytes) : Prop :=
  ∃ j, lib.parse data = .ok j ∧ j.IsIndexable ∧ ((j.elem "type").isString "hello" = true → (j.elem "name").IsString)

theorem onReadJson_ok_iff (lib : Nlohmann) (data : Bytes) :
    (∃ r, onReadJson lib data = .ok r) ↔ WsMessage lib data := by
  constructor
  · rintro ⟨r, h⟩
    unfold onReadJson at h
    obtain ⟨j, hp, h⟩ := bind_ok h
    obtain ⟨⟨type, m1⟩, h1, h⟩ := bind_ok h
    refine ⟨j, hp, (Json.index_ok_iff j "type").1 ⟨_, h1⟩, ?_⟩
    intro ht
    rw [← Json.index_elem h1] at ht
    simp only [ht, if_true] at h
    obtain ⟨⟨name, m2⟩, h2, h⟩ := bind_ok h
    obtain ⟨n, hn, -⟩ := bind_ok h
    have hs := (Json.getString_ok_iff name).1 ⟨n, hn⟩
    rwa [Json.index_elem h2, (Json.index_frame h1).2] at hs
  · rintro ⟨j, hp, hj, hn⟩
    obtain ⟨m1, h1, o1, f1⟩ := Json.index_eq hj "type"
    by_cases ht : (j.elem "type").isString "hello" = true
    · obtain ⟨name, hname⟩ := (hn ht).exists
      obtain ⟨m2, h2, o2, f2⟩ := Json.index_eq o1.indexable "name"
      obtain ⟨m3, h3, -, -⟩ := Json.index_eq o2.indexable "name"
      rw [f1, hname] at h2
      rw [f2, f1, hname] at h3
      refine ⟨some name, ?_⟩
      simp [onReadJson, hp, h1, ht, h2, h3, Json.getString, bind, Except.bind, pure, Except.pure]
    · refine ⟨none, ?_⟩
      simp [onReadJson, hp, h1, ht, bind, Except.bind, pure, Except.pure]

end Gss.Sessions
