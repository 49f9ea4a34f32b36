/-
The HTTP connections (http_session.cpp: do_read, on_read, on_write; listener.cpp: run, on_accept), over the whole
server.

A state is a state of the server and where each connection stands. on_read, the accept handler and the completion
handlers of the writes run on idle threads. The handler of a request keeps its thread until async_write is called: it
runs push_task or the reads of the admin report on it, and opens the file at its end. `push` is the handler's push_task
section; the steps that no connection takes part in are the server's (`outside`). A timeout is an error of the read or
write.

History, read by no step: the requests that a connection has given to handle_request, the responses it has given to
async_write, the number of writes that have ended well, and the connection of each pushed task.

- `server`: the connections project onto the server, so what holds of its runs holds here.
- `sched_at`: a handler goes on as it should, whatever the other threads do.
- `Kept`: one connection's requests, responses and writes; each of its steps keeps it.
-/
import Gss.Server.AdminReport
import Gss.Server.Main

namespace Gss.Connections

open Gss.Core Gss.HttpSession

/-! ## Model -/

/-- where a connection stands -/
inductive Phase where
  /-- async_read pending -/
  | reading
  /-- on_read runs on thread i -/
  | handling (i : ℕ)
  /-- async_write pending -/
  | writing (keepAlive : Bool)
  /-- session k has the socket -/
  | upgraded (k : ℕ)
  /-- no handler is left -/
  | closed
deriving DecidableEq, Repr

structure Conn where
  phase : Phase
  requests : List Request
  responses : List Response
  written : ℕ
deriving DecidableEq, Repr

structure St where
  server : Server.St
  conns : List Conn
  /-- async_accept pending -/
  accepting : Bool
  posters : List ℕ
deriving DecidableEq

inductive Op where
  /-- listener::on_accept on thread i -/
  | accept (i : ℕ) (error : Bool)
  /-- http_session::on_read on thread i; a is the address of a new session -/
  | read (c i a : ℕ) (r : ReadResult)
  /-- the handler of connection c pushes its task -/
  | push (c : ℕ)
  /-- the handler calls async_write; file is what body.open has given -/
  | respond (c : ℕ) (file : OpenResult)
  /-- http_session::on_write on thread i -/
  | written (c i : ℕ) (error : Bool)
  /-- a step of the server that no connection takes part in -/
  | server (o : Server.Op)
deriving DecidableEq, Repr

def init (threads : ℕ) : St := ⟨Server.init threads, [], true, []⟩

/-- the constructor, and run's do_read -/
def Conn.make : Conn := ⟨.reading, [], [], 0⟩

def St.set (s : St) (c : ℕ) (x : Conn) : St := { s with conns := s.conns.set c x }

/-- where thread i stands -/
def St.pc (s : St) (i : ℕ) : Option Scheduler.Pc := s.server.sched.pcs[i]?

/-- thread i runs the handler of a request -/
def St.held (s : St) (i : ℕ) : Bool := s.conns.any fun x => x.phase = .handling i

/-- the step is not a connection's -/
def outside (s : St) : Server.Op → Bool
  | .request _ _ | .task (.push _) | .room _ (.create _) => false
  | .task (.done i) | .task (.respond i) | .room i _ => !s.held i
  | _ => true

/-- the shared state a handler at p has read -/
def seen : Scheduler.Pc → Shared
  | .report q c => ⟨q.map Scheduler.Job.task, c.map Scheduler.Job.task⟩
  | _ => ⟨[], none⟩

/-- how the handler at p leaves its thread -/
def leaveOp (i : ℕ) : Scheduler.Pc → Option Scheduler.Op
  | .busy => some (.done i)
  | .report _ _ => some (.respond i)
  | _ => none

def act (lib : Nlohmann) (docRoot : Bytes) (s : St) : Op → St
  | .accept i error =>
    if s.accepting ∧ s.pc i = some .idle then
      if error then { s with accepting := false } else { s with conns := s.conns ++ [Conn.make] }
    else s
  | .read c i a r =>
    match s.conns[c]? with
    | some x =>
      if x.phase = .reading ∧ s.pc i = some .idle then
        match r with
        | .endOfStream | .failed => s.set c { x with phase := .closed }
        | .request true _ =>
          if s.server.room.objAt a = none then
            { s.set c { x with phase := .upgraded s.server.room.objs.length } with
              server := (Server.machine 0 lib).run s.server [.request i r, .room i (.create a), .task (.done i)] }
          else s
        | .request false req =>
          match HttpSession.route lib req with
          | .error _ => { s with server := Server.step lib s.server (.request i r) }
          | .ok _ =>
            { s.set c { x with phase := .handling i, requests := x.requests ++ [req] } with
              server := Server.step lib s.server (.request i r) }
      else s
    | none => s
  | .push c =>
    match s.conns[c]?.map Conn.phase with
    | some (.handling i) =>
      match s.pc i with
      | some (.push _) =>
        { s with server := Server.step lib s.server (.task (.push i)), posters := s.posters ++ [c] }
      | _ => s
    | _ => s
  | .respond c file =>
    match s.conns[c]? with
    | some x =>
      match x.phase with
      | .handling i =>
        match s.pc i, x.requests.getLast? with
        | some p, some req =>
          match leaveOp i p, onRead lib (fun _ => file) docRoot (.request false req) (seen p) with
          | some o, (.ok (.responds res keepAlive), _) =>
            { s.set c { x with phase := .writing keepAlive, responses := x.responses ++ [res] } with
              server := Server.step lib s.server (.task o) }
          | _, _ => s
        | _, _ => s
      | _ => s
    | none => s
  | .written c i error =>
    match s.conns[c]? with
    | some x =>
      match x.phase with
      | .writing keepAlive =>
        if s.pc i = some .idle then
          if error then s.set c { x with phase := .closed }
          else s.set c { x with phase := if keepAlive then .reading else .closed, written := x.written + 1 }
        else s
      | _ => s
    | none => s
  | .server o => if outside s o then { s with server := Server.step lib s.server o } else s

def step (lib : Nlohmann) (docRoot : Bytes) (s : St) (o : Op) : St :=
  if s.server.down then s else act lib docRoot s o

def machine (threads : ℕ) (lib : Nlohmann) (docRoot : Bytes) : Machine St Op := ⟨init threads, step lib docRoot⟩

/-! ## What a step can do -/

/-- a completion handler that leaves the server as it is: a failed read, or the end of a write -/
inductive Settles : Conn → Conn → Prop where
  | read (x : Conn) (h : x.phase = .reading) : Settles x { x with phase := .closed }
  | failed (x : Conn) (k : Bool) (h : x.phase = .writing k) : Settles x { x with phase := .closed }
  | written (x : Conn) (k : Bool) (h : x.phase = .writing k) :
      Settles x { x with phase := if k then .reading else .closed, written := x.written + 1 }

/-- **Step inversion.** -/
inductive Does (lib : Nlohmann) (docRoot : Bytes) (s : St) : St → Prop where
  | idle : Does lib docRoot s s
  | server (o : Server.Op) (h : outside s o = true) : Does lib docRoot s { s with server := Server.step lib s.server o }
  | accept (h : s.accepting = true) : Does lib docRoot s { s with conns := s.conns ++ [Conn.make] }
  | refuse : Does lib docRoot s { s with accepting := false }
  | settle (c : ℕ) (x y : Conn) (hx : s.conns[c]? = some x) (h : Settles x y) : Does lib docRoot s (s.set c y)
  | upgrade (c a : ℕ) (x : Conn) (hx : s.conns[c]? = some x) (h : x.phase = .reading) :
      Does lib docRoot s { s.set c { x with phase := .upgraded s.server.room.objs.length } with
        server := { s.server with
          room := { s.server.room with objs := s.server.room.objs ++ [Sessions.Session.make a] } } }
  | throws : Does lib docRoot s { s with server := { s.server with failed := true } }
  | request (c i : ℕ) (x : Conn) (req : Request) (route : Route) (hx : s.conns[c]? = some x) (h : x.phase = .reading)
      (hi : s.pc i = some .idle) (hr : HttpSession.route lib req = .ok route) :
      Does lib docRoot s { s.set c { x with phase := .handling i, requests := x.requests ++ [req] } with
        server := { s.server with sched := Scheduler.step s.server.sched (Server.enter i route) } }
  | push (c i : ℕ) (x : Conn) (t : Task) (hx : s.conns[c]? = some x) (h : x.phase = .handling i)
      (hi : s.pc i = some (.push t)) :
      Does lib docRoot s { s with
        server := { s.server with sched := Scheduler.step s.server.sched (.push i) }
        posters := s.posters ++ [c] }
  | respond (c i : ℕ) (x : Conn) (req : Request) (p : Scheduler.Pc) (o : Scheduler.Op) (file : OpenResult)
      (res : Response) (shared : Shared) (hx : s.conns[c]? = some x) (h : x.phase = .handling i) (hi : s.pc i = some p)
      (hreq : x.requests.getLast? = some req) (ho : leaveOp i p = some o)
      (hres : handleRequest lib (fun _ => file) docRoot req (seen p) = (.ok res, shared)) :
      Does lib docRoot s { s.set c { x with phase := .writing res.keepAlive, responses := x.responses ++ [res] } with
        server := { s.server with sched := Scheduler.step s.server.sched o } }

section Steps

variable {lib : Nlohmann} {docRoot : Bytes} {s : St}

theorem down_false (hd : s.server.down = false) : s.server.failed = false ∧ s.server.room.down = false := by
  rw [Server.St.down, Bool.or_eq_false_iff] at hd
  exact hd

/-- a new session, on a thread that is idle again -/
theorem run_upgrade (hd : s.server.down = false) {i a : ℕ} (hi : s.pc i = some .idle)
    (ha : s.server.room.objAt a = none) (req : Request) :
    (Server.machine 0 lib).run s.server [.request i (.request true req), .room i (.create a), .task (.done i)] =
      { s.server with room := { s.server.room with objs := s.server.room.objs ++ [Sessions.Session.make a] } } := by
  have hi' : s.server.sched.pcs[i]? = some .idle := hi
  have hat : ∀ p, (s.server.sched.goto i p).pcs[i]? = some p := fun p => getElem?_set_at hi' p
  have hroom : Sessions.step lib s.server.room (.create a) =
      { s.server.room with objs := s.server.room.objs ++ [Sessions.Session.make a] } := by
    simp [Sessions.step, (down_false hd).2, Sessions.act, ha]
  have h1 : Server.step lib s.server (.request i (.request true req)) =
      { s.server with sched := s.server.sched.goto i .busy } := by
    simp [Server.step, hd, Server.act, hi', Scheduler.step]
  have h2 : Server.step lib { s.server with sched := s.server.sched.goto i .busy } (.room i (.create a)) =
      ⟨s.server.sched.goto i .busy, Sessions.step lib s.server.room (.create a), s.server.jobs, s.server.failed⟩ := by
    rw [Server.step, if_neg (by simpa [Server.St.down] using hd)]
    simp only [Server.act, hat]
    rfl
  have hback : (s.server.sched.goto i .busy).goto i .idle = s.server.sched := by
    obtain ⟨hlt, hget⟩ := List.getElem?_eq_some_iff.1 hi'
    simp [Scheduler.St.goto, ← hget]
  simp only [Machine.run_cons, Machine.run_nil, Server.machine, h1, h2, hroom]
  rw [Server.step, if_neg (by simpa [Server.St.down] using hd)]
  simp [Server.act, Server.internal, Scheduler.step, hat, hback]

theorem step_does (lib : Nlohmann) (docRoot : Bytes) (s : St) (o : Op) : Does lib docRoot s (step lib docRoot s o) := by
  unfold step
  split_ifs with hd
  · exact .idle
  have hd : s.server.down = false := by simpa using hd
  cases o with
  | accept i error =>
    simp only [act]
    split_ifs with h
    · exact .refuse
    · exact .accept h.1
    · exact .idle
  | read c i a r =>
    simp only [act]
    split
    · rename_i x hx
      by_cases h : x.phase = .reading ∧ s.pc i = some .idle
      swap
      · rw [if_neg h]
        exact .idle
      rw [if_pos h]
      cases r with
      | endOfStream => exact .settle c x _ hx (.read x h.1)
      | failed => exact .settle c x _ hx (.read x h.1)
      | request upgrade req =>
        cases upgrade with
        | true =>
          by_cases ha : s.server.room.objAt a = none
          · simp only [if_pos ha, run_upgrade hd h.2 ha req]
            exact .upgrade c a x hx h.1
          · simp only [if_neg ha]
            exact .idle
        | false =>
          have hi : s.server.sched.pcs[i]? = some .idle := h.2
          cases hr : HttpSession.route lib req with
          | error e =>
            have hstep : Server.step lib s.server (.request i (.request false req)) =
                { s.server with failed := true } := by
              simp [Server.step, hd, Server.act, hi, hr]
            simp only [hr, hstep]
            exact .throws
          | ok route =>
            have hstep : Server.step lib s.server (.request i (.request false req)) =
                { s.server with sched := Scheduler.step s.server.sched (Server.enter i route) } := by
              simp [Server.step, hd, Server.act, hi, hr]
            simp only [hr, hstep]
            exact .request c i x req route hx h.1 h.2 hr
    · exact .idle
  | push c =>
    simp only [act]
    split
    · rename_i i hx
      obtain ⟨x, hx, hp⟩ := Option.map_eq_some_iff.1 hx
      split
      · rename_i t ht
        have hstep : Server.step lib s.server (.task (.push i)) =
            { s.server with sched := Scheduler.step s.server.sched (.push i) } := by
          simp [Server.step, hd, Server.act, Server.internal]
        rw [hstep]
        exact .push c i x t hx hp ht
      · exact .idle
    · exact .idle
  | respond c file =>
    simp only [act]
    split
    · rename_i x hx
      split
      · rename_i i hp
        split
        · rename_i p req hpc hreq
          split
          · rename_i o res keepAlive shared ho hres
            have hinternal : Server.internal o = true := by
              cases p <;> cases ho <;> rfl
            have hstep : Server.step lib s.server (.task o) =
                { s.server with sched := Scheduler.step s.server.sched o } := by
              simp [Server.step, hd, Server.act, hinternal]
            rw [hstep]
            simp only [onRead] at hres
            split at hres
            · cases hres
            · rename_i res' s' hres'
              cases hres
              exact .respond c i x req p o file _ _ hx hp hpc hreq ho hres'
          · exact .idle
        · exact .idle
      · exact .idle
    · exact .idle
  | written c i error =>
    simp only [act]
    split
    · rename_i x hx
      split
      · rename_i k hk
        by_cases hi : s.pc i = some .idle
        · rw [if_pos hi]
          cases error with
          | true => exact .settle c x _ hx (.failed x k hk)
          | false => exact .settle c x _ hx (.written x k hk)
        · rw [if_neg hi]
          exact .idle
      · exact .idle
    · exact .idle
  | server o =>
    simp only [act]
    split_ifs with h
    · exact .server o h
    · exact .idle

end Steps

/-- the server under the connections -/
def server (threads : ℕ) (lib : Nlohmann) (docRoot : Bytes) :
    (machine threads lib docRoot).Proj (Server.machine threads lib) where
  abs := St.server
  init := rfl
  step s o := by
    have h : ∃ l, (step lib docRoot s o).server = (Server.machine threads lib).run s.server l := by
      unfold step act
      repeat' split
      all_goals first
        | exact ⟨[], rfl⟩
        | exact ⟨[_], rfl⟩
        | exact ⟨[_, _, _], rfl⟩
    exact h

theorem reachable_server {threads : ℕ} {lib : Nlohmann} {docRoot : Bytes} {s : St}
    (h : (machine threads lib docRoot).Reachable s) : (Server.machine threads lib).Reachable s.server :=
  (server threads lib docRoot).reachable h

/-! ## The handlers' threads -/

/-- where the handler of a request with this route may stand -/
def At (route : Route) : Scheduler.Pc → Prop
  | .push t => route = .task t
  | .notify => ∃ t, route = .task t
  | .busy => route ≠ .report
  | .admin | .reserved | .pending _ | .report _ _ => route = .report
  | _ => False

/-- the steps a handler at p has to go until its response is given to async_write -/
def left : Scheduler.Pc → ℕ
  | .admin => 4
  | .push _ | .reserved => 3
  | .notify | .pending _ => 2
  | .busy | .report _ _ => 1
  | _ => 0

/-- the task that is not pushed yet -/
def posting : Scheduler.Pc → Option Task
  | .push t => some t
  | _ => none

section Threads

variable {lib : Nlohmann} {s : St} {sched : Scheduler.St} {i : ℕ} {p : Scheduler.Pc} {route : Route}

/-- a handler goes on as it should, whatever the scheduler does, until it is made to push or to leave its thread; it
never goes back -/
theorem sched_at {x : Scheduler.Op} (hi : sched.pcs[i]? = some p) (h : At route p) (hpush : x ≠ .push i)
    (hdone : x ≠ .done i) (hrespond : x ≠ .respond i) :
    ∃ q, (Scheduler.step sched x).pcs[i]? = some q ∧ At route q ∧ posting q = posting p ∧ left q ≤ left p := by
  have hparked : p ≠ .parked := by
    rintro rfl
    exact h
  by_cases ht : AdminReport.thread x = some i
  swap
  · exact ⟨p, AdminReport.pc_frame ht hi hparked, h, rfl, le_rfl⟩
  have hgoto : ∀ q, (sched.goto i q).pcs[i]? = some q := fun q => AdminReport.goto_self hi
  cases x with
  | expire k ec => cases ht
  | push k =>
    cases ht
    exact absurd rfl hpush
  | done k =>
    cases ht
    exact absurd rfl hdone
  | respond k =>
    cases ht
    exact absurd rfl hrespond
  | notify k w =>
    cases ht
    simp only [Scheduler.step, Scheduler.notifyOne]
    split_ifs with hn hw
    · rw [hi, Option.some.injEq] at hn
      subst hn
      have hwi : w ≠ i := by
        rintro rfl
        rw [hi] at hw
        cases hw
      obtain ⟨t, rfl⟩ := h
      have hi' : (sched.goto w .woken).pcs[i]? = some .notify := AdminReport.goto_other hwi hi
      exact ⟨.busy, AdminReport.goto_self hi', by simp [At], rfl, by simp [left]⟩
    · exact ⟨p, hi, h, rfl, le_rfl⟩
    · rw [hi, Option.some.injEq] at hn
      subst hn
      obtain ⟨t, rfl⟩ := h
      exact ⟨.busy, hgoto _, by simp [At], rfl, by simp [left]⟩
    · exact ⟨p, hi, h, rfl, le_rfl⟩
  | _ =>
    cases ht
    simp only [Scheduler.step, hi]
    cases p <;> first
      | exact h.elim
      | exact ⟨_, hi, h, rfl, le_rfl⟩
      | exact ⟨_, hgoto _, h, rfl, by simp [left]⟩

/-- what a step that no connection takes part in does to the threads and tasks -/
theorem outside_sched {o : Server.Op} (h : outside s o = true) :
    (Server.step lib s.server o).sched = s.server.sched ∨
      ∃ x, (Server.step lib s.server o).sched = Scheduler.step s.server.sched x ∧ (∀ i, x ≠ .push i) ∧
        ∀ i, s.held i = true → x ≠ .done i ∧ x ≠ .respond i := by
  unfold Server.step
  split_ifs
  · exact Or.inl rfl
  cases o with
  | task x =>
    simp only [Server.act]
    split_ifs with hx
    · refine Or.inr ⟨x, rfl, ?_, ?_⟩
      · rintro i rfl
        cases h
      · intro i hi
        refine ⟨?_, ?_⟩
        · rintro rfl
          simp [outside, hi] at h
        · rintro rfl
          simp [outside, hi] at h
    · exact Or.inl rfl
  | request i r => cases h
  | send i =>
    simp only [Server.act]
    split
    · exact Or.inr ⟨.send i s.server.room.calls.length, rfl, by simp, by simp⟩
    · exact Or.inl rfl
  | sent i =>
    simp only [Server.act]
    repeat' split
    · exact Or.inr ⟨.sent i, rfl, by simp, by simp⟩
    · exact Or.inl rfl
    · exact Or.inl rfl
  | room i x =>
    simp only [Server.act]
    repeat' split
    all_goals exact Or.inl rfl

/-- it creates no session -/
theorem outside_objs {o : Server.Op} (h : outside s o = true) :
    (Server.step lib s.server o).room.objs.length = s.server.room.objs.length := by
  have hroom : ∀ x, (∀ a, x ≠ .create a) →
      (Sessions.step lib s.server.room x).objs.length = s.server.room.objs.length := by
    intro x hx
    have hd := Sessions.step_does lib s.server.room x
    generalize Sessions.step lib s.server.room x = r at hd
    cases hd with
    | create a => exact absurd rfl (hx a)
    | _ => simp [Sessions.St.setReader, Sessions.St.modify, Sessions.St.postTo, Sessions.St.setCall]
  unfold Server.step
  split_ifs
  · rfl
  cases o with
  | room i x =>
    have hx : ∀ a, x ≠ .create a := by
      rintro a rfl
      cases h
    simp only [Server.act]
    repeat' split
    · exact hroom x hx
    · rfl
    · rfl
  | send i =>
    simp only [Server.act]
    split
    · exact hroom _ (by simp)
    · rfl
  | _ =>
    simp only [Server.act]
    repeat' split
    all_goals rfl

/-- only a push pushes -/
theorem pushed_step {x : Scheduler.Op} (hx : ∀ i, x ≠ .push i) : (Scheduler.step sched x).pushed = sched.pushed := by
  rcases Scheduler.step_cases sched x with ⟨hq, -⟩ | ⟨i, t, he, -, -⟩ | ⟨i, j, q, -, -, -, he⟩ | ⟨k, ec, j, -, -, he⟩ |
    ⟨i, k, j, ec, -, -, -, he⟩ | ⟨i, j, c, -, -, he⟩
  · rw [hq.rest]
  · exact absurd he (hx i)
  · rw [he]
    rfl
  · rw [he]
  · rw [he]
    rfl
  · rw [he]
    rfl

end Threads

/-! ## One connection -/

/-- handle_request has given the response to the request, with some file and some state -/
def Answers (lib : Nlohmann) (docRoot : Bytes) (req : Request) (res : Response) : Prop :=
  ∃ file shared, (handleRequest lib (fun _ => file) docRoot req shared).1 = .ok res

/-- the numbers of requests, responses and ended writes at a phase -/
def Phase.Counts (n m w : ℕ) : Phase → Prop
  | .reading | .upgraded _ => m = n ∧ w = n
  | .handling _ => m + 1 = n ∧ w + 1 = n
  | .writing _ => m = n ∧ w + 1 = n
  | .closed => m = n ∧ w ≤ n ∧ n ≤ w + 1

/-- all responses are written, and kept the connection alive -/
def Phase.quiet : Phase → Bool
  | .reading | .upgraded _ => true
  | _ => false

structure Kept (lib : Nlohmann) (docRoot : Bytes) (x : Conn) : Prop where
  counts : x.phase.Counts x.requests.length x.responses.length x.written
  answers : ∀ (k : ℕ) (req : Request) (res : Response), x.requests[k]? = some req → x.responses[k]? = some res →
    Answers lib docRoot req res
  alive : ∀ (k : ℕ) (req : Request), x.requests[k]? = some req → k + 1 < x.requests.length ∨ x.phase.quiet = true →
    req.keepAlive = true
  writes : ∀ keepAlive, x.phase = .writing keepAlive → ∃ req, x.requests.getLast? = some req ∧ req.keepAlive = keepAlive

theorem handleRequest_keepAlive {lib : Nlohmann} {disk : Bytes → OpenResult} {docRoot : Bytes} {req : Request}
    {res : Response} {s s' : Shared} (h : handleRequest lib disk docRoot req s = (.ok res, s')) :
    res.keepAlive = req.keepAlive := by
  unfold handleRequest postTask at h
  split_ifs at h
  · cases h
    rfl
  · cases h
    rfl
  · split at h
    · cases h
    · dsimp only at h
      split at h
      · cases h
      · cases h
        rfl
  · cases h
    rfl
  · cases h
    unfold getFile
    dsimp only
    split <;> rfl

section Conn

variable {lib : Nlohmann} {docRoot : Bytes} {x y : Conn}

theorem kept_make : Kept lib docRoot Conn.make where
  counts := ⟨rfl, rfl⟩
  answers k req res h := by cases h
  alive k req h := by cases h
  writes k h := by cases h

theorem Kept.settle (h : Kept lib docRoot x) (hs : Settles x y) : Kept lib docRoot y := by
  have hc := h.counts
  cases hs with
  | read hp =>
    rw [hp] at hc
    obtain ⟨hm, hw⟩ := hc
    exact ⟨⟨hm, hw.le, by simp only; omega⟩, h.answers, fun k req hk _ => h.alive k req hk (Or.inr (by rw [hp]; rfl)),
      fun k hk => (by cases hk)⟩
  | failed b hp =>
    rw [hp] at hc
    obtain ⟨hm, hw⟩ := hc
    refine ⟨⟨hm, by simp only; omega, by simp only; omega⟩, h.answers, ?_, fun k hk => (by cases hk)⟩
    intro k req hk hlt
    rcases hlt with hlt | hq
    · exact h.alive k req hk (Or.inl hlt)
    · cases hq
  | written b hp =>
    rw [hp] at hc
    obtain ⟨hm, hw⟩ := hc
    obtain ⟨last, hlast, hb⟩ := h.writes b hp
    subst hb
    -- the last request is kept alive when the connection reads again
    have halive : ∀ (k : ℕ) (req : Request), x.requests[k]? = some req →
        k + 1 < x.requests.length ∨ last.keepAlive = true → req.keepAlive = true := by
      intro k req hk hlt
      rcases hlt with hlt | hl
      · exact h.alive k req hk (Or.inl hlt)
      · by_cases hlt : k + 1 < x.requests.length
        · exact h.alive k req hk (Or.inl hlt)
        · have hk' := (List.getElem?_eq_some_iff.1 hk).1
          rw [List.getLast?_eq_getElem?, show x.requests.length - 1 = k by omega, hk, Option.some.injEq] at hlast
          rw [hlast, hl]
    cases hl : last.keepAlive with
    | true => exact ⟨⟨hm, hw⟩, h.answers, fun k req hk _ => halive k req hk (Or.inr hl), fun k hk => (by cases hk)⟩
    | false =>
      refine ⟨⟨hm, hw.le, by simp only; omega⟩, h.answers, ?_, fun k hk => (by cases hk)⟩
      intro k req hk hlt
      rcases hlt with hlt | hq
      · exact halive k req hk (Or.inl hlt)
      · cases hq

theorem Kept.upgrade (h : Kept lib docRoot x) (hp : x.phase = .reading) (k : ℕ) :
    Kept lib docRoot { x with phase := .upgraded k } := by
  have hc := h.counts
  rw [hp] at hc
  exact ⟨hc, h.answers, fun j req hj _ => h.alive j req hj (Or.inr (by rw [hp]; rfl)), fun k hk => (by cases hk)⟩

theorem Kept.request (h : Kept lib docRoot x) (hp : x.phase = .reading) (i : ℕ) (req : Request) :
    Kept lib docRoot { x with phase := .handling i, requests := x.requests ++ [req] } := by
  have hc := h.counts
  rw [hp] at hc
  obtain ⟨hm, hw⟩ := hc
  refine ⟨⟨by simp [hm], by simp [hw]⟩, ?_, ?_, fun k hk => (by cases hk)⟩
  · intro k r res hk hres
    have hlt : k < x.responses.length := (List.getElem?_eq_some_iff.1 hres).1
    rw [List.getElem?_append_left (by omega)] at hk
    exact h.answers k r res hk hres
  · intro k r hk hlt
    rcases hlt with hlt | hq
    · rw [List.length_append, List.length_singleton] at hlt
      rw [List.getElem?_append_left (by omega)] at hk
      exact h.alive k r hk (Or.inr (by rw [hp]; rfl))
    · cases hq

theorem Kept.respond (h : Kept lib docRoot x) {i : ℕ} (hp : x.phase = .handling i) {req : Request}
    (hreq : x.requests.getLast? = some req) {file : OpenResult} {shared shared' : Shared} {res : Response}
    (hres : handleRequest lib (fun _ => file) docRoot req shared = (.ok res, shared')) :
    Kept lib docRoot { x with phase := .writing res.keepAlive, responses := x.responses ++ [res] } := by
  have hc := h.counts
  rw [hp] at hc
  obtain ⟨hm, hw⟩ := hc
  refine ⟨⟨by simpa using hm, hw⟩, ?_, ?_, ?_⟩
  · intro k r a hk ha
    rw [List.getElem?_append] at ha
    split_ifs at ha with hlt
    · exact h.answers k r a hk ha
    · -- the new response is to the last request
      have hk' : k < x.requests.length := (List.getElem?_eq_some_iff.1 hk).1
      rw [show k - x.responses.length = 0 by omega, List.getElem?_cons_zero, Option.some.injEq] at ha
      rw [List.getLast?_eq_getElem?, show x.requests.length - 1 = k by omega, hk, Option.some.injEq] at hreq
      subst ha hreq
      exact ⟨file, shared, by rw [hres]⟩
  · intro k r hk hlt
    rcases hlt with hlt | hq
    · exact h.alive k r hk (Or.inl hlt)
    · cases hq
  · intro b hb
    cases hb
    exact ⟨req, hreq, (handleRequest_keepAlive hres).symm⟩

end Conn

end Gss.Connections
