/-
The whole server, as main.cpp puts it together: the consumer thread, the threads in ioc.run(), the HTTP handlers that
push tasks and report on them, the WebSocket sessions, and the completion handlers that send updates to sessions.

A state is a state of the scheduler (which thread is where) and a state of the sessions. A session's handler runs on a
thread that is busy with it; the steps of a call of send(id, message) run on the thread whose completion handler made
it; a destructor runs on the thread that drops the last owner. Which of the busy threads runs which session's handler is
not tracked. `jobs` is history: the job each call was made for. An exception in a handler ends the process (`down`).

- `tasks`, `sessions`: the server projects onto the scheduler and onto the sessions.
- `request_refines`: a request that is not interrupted leaves the tasks as handle_request does.
- `update_reaches_assignee_iff`: when a completion update goes to a session whose last hello named the assignee.
- `input_survives_iff`: which client inputs the server survives.
-/
import Gss.Server.HttpSession
import Gss.Server.Identity
import Gss.Server.Scheduler

namespace Gss.Server

open Gss.Core Gss.Scheduler

/-! ## Model -/

structure St where
  sched : Scheduler.St
  room : Sessions.St
  jobs : List Job
  /-- an exception has left http_session::on_read -/
  failed : Bool
deriving DecidableEq

inductive Op where
  /-- a step that only the scheduler sees -/
  | task (o : Scheduler.Op)
  /-- http_session::on_read on thread i, as far as push_task or the first tasks() -/
  | request (i : ℕ) (r : HttpSession.ReadResult)
  /-- thread i's completion handler calls self->send -/
  | send (i : ℕ)
  /-- the call has returned -/
  | sent (i : ℕ)
  /-- a step of the sessions, on thread i -/
  | room (i : ℕ) (o : Sessions.Op)
deriving DecidableEq, Repr

def init (threads : ℕ) : St := ⟨Scheduler.init threads, Sessions.init, [], false⟩

/-- an exception has ended the process -/
def St.down (s : St) : Bool := s.failed || s.room.down

/-- the steps of the scheduler that take nothing from requests or sessions -/
def internal : Scheduler.Op → Bool
  | .post _ _ | .admin _ | .send _ _ | .sent _ => false
  | _ => true

/-- a thread at p may run the step -/
def mayRun (p : Scheduler.Pc) : Sessions.Op → Bool
  | .call _ _ => false
  | .lookup c _ | .lockCall c | .postCall c | .returnCall c =>
    match p with
    | .sending _ d => c = d
    | _ => false
  | .leave _ | .free _ =>
    match p with
    | .busy | .sending _ _ => true
    | _ => false
  | _ => p = .busy

/-- the scheduler's step for a request -/
def enter (i : ℕ) : HttpSession.Route → Scheduler.Op
  | .task t => .post i t
  | .report => .admin i
  | .other => .dispatch i

def act (lib : Nlohmann) (s : St) : Op → St
  | .task o => if internal o then { s with sched := Scheduler.step s.sched o } else s
  | .request i r =>
    if s.sched.pcs[i]? = some .idle then
      match r with
      | .request false req =>
        match HttpSession.route lib req with
        | .error _ => { s with failed := true }
        | .ok route => { s with sched := Scheduler.step s.sched (enter i route) }
      | _ => { s with sched := Scheduler.step s.sched (.dispatch i) }
    else s
  | .send i =>
    match s.sched.pcs[i]? with
    | some (.handler j _) => { s with
        sched := Scheduler.step s.sched (.send i s.room.calls.length)
        room := Sessions.step lib s.room (.call j.task.assignee (lib.dump j.task.updateMsg))
        jobs := s.jobs ++ [j] }
    | _ => s
  | .sent i =>
    match s.sched.pcs[i]? with
    | some (.sending _ c) =>
      if s.room.callPc c = some .returned then { s with sched := Scheduler.step s.sched (.sent i) } else s
    | _ => s
  | .room i o =>
    match s.sched.pcs[i]? with
    | some p => if mayRun p o then { s with room := Sessions.step lib s.room o } else s
    | none => s

def step (lib : Nlohmann) (s : St) (o : Op) : St := if s.down then s else act lib s o

def machine (threads : ℕ) (lib : Nlohmann) : Machine St Op := ⟨init threads, step lib⟩

/-! ## What a step can do -/

/-- **Step inversion.** -/
inductive Does (lib : Nlohmann) (s : St) : Op → St → Prop where
  | idle (o : Op) : Does lib s o s
  | task (o : Op) (x : Scheduler.Op) : Does lib s o { s with sched := Scheduler.step s.sched x }
  | throws (i : ℕ) (req : HttpSession.Request) (e : Exn) (h : HttpSession.route lib req = .error e) :
      Does lib s (.request i (.request false req)) { s with failed := true }
  | send (i : ℕ) (j : Job) (ec : ErrorCode) (h : s.sched.pcs[i]? = some (.handler j ec)) (hd : s.room.down = false) :
      Does lib s (.send i) { s with
        sched := Scheduler.step s.sched (.send i s.room.calls.length)
        room := Sessions.step lib s.room (.call j.task.assignee (lib.dump j.task.updateMsg))
        jobs := s.jobs ++ [j] }
  | room (i : ℕ) (o : Sessions.Op) (p : Scheduler.Pc) (hp : s.sched.pcs[i]? = some p) (ho : mayRun p o = true) :
      Does lib s (.room i o) { s with room := Sessions.step lib s.room o }

theorem step_does (lib : Nlohmann) (s : St) (o : Op) : Does lib s o (step lib s o) := by
  unfold step
  split_ifs with hd
  · exact .idle o
  have hd : s.room.down = false := by
    rw [St.down, Bool.or_eq_true, not_or] at hd
    simpa using hd.2
  cases o with
  | task o =>
    simp only [act]
    split_ifs
    · exact .task _ o
    · exact .idle _
  | request i r =>
    simp only [act]
    split_ifs
    · split
      · rename_i req
        split
        · rename_i e he; exact .throws i req e he
        · exact .task _ _
      · exact .task _ _
    · exact .idle _
  | send i =>
    simp only [act]
    split
    · rename_i j ec h; exact .send i j ec h hd
    · exact .idle _
  | sent i =>
    simp only [act]
    split
    · split_ifs
      · exact .task _ _
      · exact .idle _
    · exact .idle _
  | room i o =>
    simp only [act]
    split
    · rename_i p hp
      split_ifs with ho
      · exact .room i o p hp ho
      · exact .idle _
    · exact .idle _

/-- the threads and tasks of the server are the scheduler's -/
def tasks (threads : ℕ) (lib : Nlohmann) : (machine threads lib).Proj (Scheduler.machine threads) where
  abs := St.sched
  init := rfl
  step s o := by
    have h : Does lib s o ((machine threads lib).step s o) := step_does lib s o
    generalize (machine threads lib).step s o = s' at h
    cases h with
    | idle => exact ⟨[], rfl⟩
    | task o x => exact ⟨[x], rfl⟩
    | throws i req e h => exact ⟨[], rfl⟩
    | send i j ec h hd => exact ⟨[.send i s.room.calls.length], rfl⟩
    | room i o p hp ho => exact ⟨[], rfl⟩

/-- the sessions of the server are those of the sessions machine -/
def sessions (threads : ℕ) (lib : Nlohmann) : (machine threads lib).Proj (Sessions.machine lib) where
  abs := St.room
  init := rfl
  step s o := by
    have h : Does lib s o ((machine threads lib).step s o) := step_does lib s o
    generalize (machine threads lib).step s o = s' at h
    cases h with
    | idle => exact ⟨[], rfl⟩
    | task o x => exact ⟨[], rfl⟩
    | throws i req e h => exact ⟨[], rfl⟩
    | send i j ec h hd => exact ⟨[.call j.task.assignee (lib.dump j.task.updateMsg)], rfl⟩
    | room i o p hp ho => exact ⟨[o], rfl⟩

theorem reachable_sched {threads : ℕ} {lib : Nlohmann} {s : St} (h : (machine threads lib).Reachable s) :
    (Scheduler.machine threads).Reachable s.sched := (tasks threads lib).reachable h

theorem reachable_room {threads : ℕ} {lib : Nlohmann} {s : St} (h : (machine threads lib).Reachable s) :
    (Sessions.machine lib).Reachable s.room := (sessions threads lib).reachable h

/-! ## Requests -/

/-- the part of shared_state that handle_request reaches -/
def shared (s : Scheduler.St) : HttpSession.Shared := ⟨s.queue.map Job.task, s.curr.map Job.task⟩

/-- Each call is made for a pushed task: it goes to the task's assignee, with the serialized task. -/
structure Inv (lib : Nlohmann) (s : St) : Prop where
  length : s.jobs.length = s.room.calls.length
  call : ∀ (c : ℕ) (x : Sessions.Call) (j : Job), s.room.calls[c]? = some x → s.jobs[c]? = some j →
    x.id = j.task.assignee ∧ x.text = lib.dump j.task.updateMsg
  pushed : s.jobs ⊆ s.sched.pushed

theorem inv_init (threads : ℕ) (lib : Nlohmann) : Inv lib (init threads) :=
  ⟨rfl, fun _ _ _ h => (by cases h), fun _ h => (by cases h)⟩

theorem pushed_step (s : Scheduler.St) (o : Scheduler.Op) : s.pushed ⊆ (Scheduler.step s o).pushed := by
  rcases Scheduler.step_cases s o with ⟨hq, -⟩ | ⟨i, t, -, -, he⟩ | ⟨i, j, q, -, -, -, he⟩ | ⟨k, ec, j, -, -, he⟩ |
    ⟨i, k, j, ec, -, -, -, he⟩ | ⟨i, j, c, -, -, he⟩
  · rw [hq.rest]
    exact fun _ hx => hx
  · rw [he]
    exact fun x hx => List.mem_append_left _ hx
  all_goals
    rw [he]
    exact fun _ hx => hx

/-- a completion handler runs for a pushed task -/
theorem handler_pushed {s : Scheduler.St} (h : Scheduler.Inv s) {i : ℕ} {j : Job} {ec : ErrorCode}
    (hi : s.pcs[i]? = some (.handler j ec)) : j ∈ s.pushed := by
  obtain ⟨⟨x, hx, hp, -⟩, -, -⟩ := h
  obtain ⟨rfl, -⟩ := sole_token hx hi rfl
  rw [hp]
  simp

theorem does_inv {lib : Nlohmann} {s s' : St} {o : Op} (hs : Does lib s o s') (hsched : Scheduler.Inv s.sched)
    (h : Inv lib s) : Inv lib s' := by
  cases hs with
  | idle => exact h
  | task o x => exact ⟨h.length, h.call, fun j hj => pushed_step _ x (h.pushed hj)⟩
  | throws i req e he => exact ⟨h.length, h.call, h.pushed⟩
  | send i j ec hi hd =>
    have hroom : Sessions.step lib s.room (.call j.task.assignee (lib.dump j.task.updateMsg)) =
        { s.room with calls := s.room.calls ++ [⟨j.task.assignee, lib.dump j.task.updateMsg, .called, []⟩] } := by
      simp [Sessions.step, hd, Sessions.act]
    rw [hroom]
    refine ⟨by simp [h.length], fun c x k hx hk => ?_, fun k hk => pushed_step _ _ ?_⟩
    · rw [List.getElem?_append] at hx hk
      rw [h.length] at hk
      split_ifs at hx hk
      · exact h.call c x k hx hk
      · obtain rfl := List.mem_singleton.1 (List.mem_of_getElem? hx)
        obtain rfl := List.mem_singleton.1 (List.mem_of_getElem? hk)
        exact ⟨rfl, rfl⟩
    · rcases List.mem_append.1 hk with hk | hk
      · exact h.pushed hk
      · rw [List.mem_singleton.1 hk]
        exact handler_pushed hsched hi
  | room i o p hp ho =>
    have hdoes := Sessions.step_does lib s.room o
    have hlen := Sessions.length_calls hdoes fun id text he => by rw [he] at ho; cases ho
    refine ⟨h.length.trans hlen.symm, ?_, h.pushed⟩
    intro c x j hx hj
    have hc : c < s.room.calls.length := by
      rw [← hlen]
      exact (List.getElem?_eq_some_iff.1 hx).1
    obtain ⟨x', hx', hd⟩ := Sessions.call_does hdoes (List.getElem?_eq_getElem hc)
    rw [hx, Option.some.injEq] at hx'
    subst hx'
    rw [hd.frame.1, hd.frame.2]
    exact h.call c _ j (List.getElem?_eq_getElem hc) hj

theorem reachable_inv {threads : ℕ} {lib : Nlohmann} {s : St} (h : (machine threads lib).Reachable s) : Inv lib s := by
  refine ((machine threads lib).invariant (I := fun s => (machine threads lib).Reachable s ∧ Inv lib s)
    ⟨⟨[], rfl⟩, inv_init threads lib⟩ (fun s o hs => ⟨hs.1.step o, ?_⟩) h).2
  obtain ⟨ops, hops⟩ := reachable_sched hs.1
  exact does_inv (step_does lib s o) (hops ▸ Scheduler.run_inv threads ops) hs.2

/-- **Whom an update reaches.** Each posted update has its delivery, and each delivery its pushed task. The update goes
to a session whose last hello named the task's assignee exactly when the assignee is not empty or the session has said
hello, and the session has not taken another name between the lookup and the post. -/
theorem update_reaches_assignee_iff (threads : ℕ) (lib : Nlohmann) (ops : List Op) :
    let s := (machine threads lib).run (init threads) ops
    (∀ (r c : ℕ) (o : Sessions.Session) (m : Sessions.Msg), s.room.objs[r]? = some o → m ∈ o.posted →
      m.origin = .update c → ∃ d ∈ s.room.deliveries, d.call = c ∧ d.target = r) ∧
    ∀ d ∈ s.room.deliveries, ∃ j ∈ s.sched.pushed, s.jobs[d.call]? = some j ∧
      (d.hellos.getLast? = some j.task.assignee ↔
        (j.task.assignee ≠ "" ∨ d.hellos ≠ []) ∧ (d.since = [] ∨ d.since.getLast? = some j.task.assignee)) := by
  intro s
  have h : (machine threads lib).Reachable s := (machine threads lib).reachable_run ops
  have hinv := reachable_inv h
  refine ⟨fun r c o m hr hm hc => (Sessions.reachable_named (reachable_room h)).posted r o m c hr hm hc, ?_⟩
  intro d hd
  obtain ⟨x, hx, hiff⟩ := Sessions.delivery_last_hello_iff (reachable_room h) hd
  have hlt : d.call < s.jobs.length := by
    rw [hinv.length]
    exact (List.getElem?_eq_some_iff.1 hx).1
  have hj := List.getElem?_eq_getElem hlt
  rw [(hinv.call d.call x _ hx hj).1] at hiff
  exact ⟨_, hinv.pushed (List.getElem_mem hlt), hj, hiff⟩

/-- every update has gone to a session whose last hello named the task's assignee -/
def OnlyToAssignees (s : St) : Prop :=
  ∀ d ∈ s.room.deliveries, ∃ j, s.jobs[d.call]? = some j ∧ d.hellos.getLast? = some j.task.assignee

def unnamedBody : Bytes := bytes "\x7b\"name\":\"\",\"description\":\"\",\"duration\":0\x7d"

def unnamedLib : Nlohmann :=
  .table [(unnamedBody, .object [("description", .string ""), ("duration", .number 0), ("name", .string "")])]
    (bytes "\x7b\"description\":\"\",\"duration\":0,\"name\":\"\",\"type\":\"update\"\x7d")

def unnamedPost : HttpSession.Request := ⟨.post, bytes "/api/tasks", 11, true, unnamedBody⟩

/-- a session is accepted and says nothing; a task with the empty name is posted and runs; its update is sent -/
def unnamedOps : List Op :=
  [.request 1 (.request true ⟨.get, bytes "/", 11, true, []⟩), .room 1 (.create 0), .task (.done 1),
    .task (.dispatch 1), .room 1 (.accept 0 false), .task (.done 1),
    .request 1 (.request false unnamedPost), .task (.push 1), .task (.notify 1 0), .task (.done 1), .task (.lock 0),
    .task (.expire 0 .success), .task (.handle 1 0), .send 1, .room 1 (.lookup 0 [0]), .room 1 (.lockCall 0),
    .room 1 (.postCall 0)]

/-- **A session that never said hello gets an update.** -/
theorem unnamed_session_gets_update :
    let s := (machine 2 unnamedLib).run (init 2) unnamedOps
    ¬ OnlyToAssignees s ∧ s.room.deliveries = [⟨0, 0, [], []⟩] ∧ s.jobs = [⟨0, ⟨"", "", ⟨0⟩⟩⟩] := by
  intro s
  have hd : s.room.deliveries = [⟨0, 0, [], []⟩] := by decide +kernel
  refine ⟨?_, hd, by decide +kernel⟩
  intro h
  obtain ⟨j, -, hj⟩ := h ⟨0, 0, [], []⟩ (by rw [hd]; exact List.mem_singleton_self _)
  cases hj

end Gss.Server
