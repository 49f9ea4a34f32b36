/-
The task scheduler of `shared_state` (shared_state.cpp: push_task, process_tasks, tasks, current) with the threads that
main.cpp starts and the parts of http_session.cpp's handle_request that reach it.

Threads: thread 0 is the detached consumer, which runs process_tasks once; threads 1 .. n all call `ioc.run()` (n - 1
pool threads and the main thread). A thread's program counter is where it stands BETWEEN two atomic steps. Each section
under `mutex_` and each condition-variable operation is one step:
- `push`, `notify`: push_task's critical section, and its notify_one after the unlock;
- `lock`: process_tasks takes `mutex_` (at its start, or when cv_.wait returns), tests the queue, and either parks in
  cv_.wait or dequeues the front task, sets `curr_` and `timer_`, and returns;
- `wake`: a spurious wakeup;
- `expire`, `handle`: the timer wait ends with any error code, and an idle io thread dispatches its handler;
- `send`, `sent`: the handler enters and leaves `self->send`; then it calls process_tasks;
- `admin` .. `respond`: GET /api/admin, which copies the queue twice and reads `curr_` without a common lock.
`dispatch` and `done` stand for every other handler. An operation that is not enabled leaves the state as it is.

`Job` adds to a task the serial number of its push_task section. `pushed`, `sent` and `cancelled` are history; no step
reads them.

Results, for every number of threads and every run:
- `fifo_exactly_once`: the tasks pushed are the updates sent, then the running task, then the queue, in order; exactly
  one of an execution of process_tasks, a pending timer wait and a running completion handler exists; the timer is never
  re-armed while a wait is pending.
- `io_thread_free_iff`: some io thread is outside cv_.wait in every reachable state exactly when there are at least two.
- `current_truthful_iff`: `curr_` agrees with the running task exactly until the first update is sent and while a task
  runs. It is never reset.
-/
import Gss.Core.Machine
import Gss.Core.Tokens
import Gss.Server.Task

namespace Gss.Scheduler

open Gss.Core

/-! ## Model -/

/-- a task with the serial number of its push_task section -/
structure Job where
  id : ℕ
  task : Task
deriving DecidableEq, Repr

/-- boost::system::error_code of a timer completion -/
inductive ErrorCode where
  | success
  | operationAborted
  | other (value : ℕ)
deriving DecidableEq, Repr

/-- where a thread stands -/
inductive Pc where
  /-- in ioc.run(), no handler dispatched -/
  | idle
  /-- in a handler, outside everything below -/
  | busy
  /-- push_task(t) called, mutex_ not taken -/
  | push (t : Task)
  /-- push_task, after lock.unlock() -/
  | notify
  /-- process_tasks called, mutex_ not taken -/
  | enter
  /-- in cv_.wait, mutex_ released -/
  | parked
  /-- in cv_.wait, woken, mutex_ not taken again -/
  | woken
  /-- completion handler of job j, before self->send -/
  | handler (j : Job) (ec : ErrorCode)
  /-- completion handler of job j, in self->send (call number c) -/
  | sending (j : Job) (c : ℕ)
  /-- GET /api/admin, before the first tasks() -/
  | admin
  /-- after tasks.reserve(state->tasks().size()) -/
  | reserved
  /-- after the second tasks(): the pending half of the report -/
  | pending (q : List Job)
  /-- after current(): both halves of the report -/
  | report (q : List Job) (c : Option Job)
  /-- the consumer thread's function has returned -/
  | exited
deriving DecidableEq, Repr

structure St where
  pcs : List Pc
  /-- tasks_queue_, front first -/
  queue : List Job
  /-- curr_ -/
  curr : Option Job
  /-- pending waits of timer_, with the task each handler captured -/
  waits : List Job
  /-- completion handlers whose wait has ended, not dispatched yet -/
  ready : List (Job × ErrorCode)
  pushed : List Job
  sent : List Job
  /-- waits that expires_from_now cancelled -/
  cancelled : List Job
deriving DecidableEq, Repr

inductive Op where
  | dispatch (i : ℕ)
  | done (i : ℕ)
  | post (i : ℕ) (t : Task)
  | push (i : ℕ)
  | notify (i w : ℕ)
  | lock (i : ℕ)
  | wake (i : ℕ)
  | expire (k : ℕ) (ec : ErrorCode)
  | handle (i k : ℕ)
  | send (i c : ℕ)
  | sent (i : ℕ)
  | admin (i : ℕ)
  | reserve (i : ℕ)
  | tasks (i : ℕ)
  | current (i : ℕ)
  | respond (i : ℕ)
deriving DecidableEq, Repr

def init (threads : ℕ) : St := ⟨.enter :: List.replicate threads .idle, [], none, [], [], [], [], []⟩

/-- thread i moves to p -/
def St.goto (s : St) (i : ℕ) (p : Pc) : St := { s with pcs := s.pcs.set i p }

/-- where a thread is after process_tasks returns: the consumer is done, an io thread's handler returns -/
def ret (i : ℕ) : Pc := if i = 0 then .exited else .idle

/-- the critical section of push_task -/
def pushTask (s : St) (t : Task) : St :=
  { s with queue := s.queue ++ [⟨s.pushed.length, t⟩], pushed := s.pushed ++ [⟨s.pushed.length, t⟩] }

/-- timer_.expires_from_now: a pending wait is cancelled, its handler is called with operation_aborted -/
def expiresFromNow (s : St) : St :=
  { s with waits := [], ready := s.ready ++ s.waits.map (·, .operationAborted), cancelled := s.cancelled ++ s.waits }

/-- timer_.async_wait with a handler that captures j -/
def asyncWait (s : St) (j : Job) : St := { s with waits := s.waits ++ [j] }

/-- process_tasks on thread i, from taking mutex_ to releasing it -/
def processTasks (s : St) (i : ℕ) : St :=
  match s.queue with
  | [] => s.goto i .parked
  | j :: q => (asyncWait (expiresFromNow { s with queue := q, curr := some j }) j).goto i (ret i)

/-- cv_.notify_one by thread i; w is the thread it wakes, if any is parked -/
def notifyOne (s : St) (i w : ℕ) : St :=
  if s.pcs[w]? = some .parked then (s.goto w .woken).goto i .busy
  else if .parked ∈ s.pcs then s
  else s.goto i .busy

def step (s : St) : Op → St
  | .dispatch i => if s.pcs[i]? = some .idle then s.goto i .busy else s
  | .done i => if s.pcs[i]? = some .busy then s.goto i .idle else s
  | .post i t => if s.pcs[i]? = some .idle then s.goto i (.push t) else s
  | .push i =>
    match s.pcs[i]? with
    | some (.push t) => (pushTask s t).goto i .notify
    | _ => s
  | .notify i w => if s.pcs[i]? = some .notify then notifyOne s i w else s
  | .lock i => if s.pcs[i]? = some .enter ∨ s.pcs[i]? = some .woken then processTasks s i else s
  | .wake i => if s.pcs[i]? = some .parked then s.goto i .woken else s
  | .expire k ec =>
    match s.waits[k]? with
    | some j => { s with waits := s.waits.eraseIdx k, ready := s.ready ++ [(j, ec)] }
    | none => s
  | .handle i k =>
    match s.pcs[i]?, s.ready[k]? with
    | some .idle, some (j, ec) => { s with ready := s.ready.eraseIdx k }.goto i (.handler j ec)
    | _, _ => s
  | .send i c =>
    match s.pcs[i]? with
    | some (.handler j _) => s.goto i (.sending j c)
    | _ => s
  | .sent i =>
    match s.pcs[i]? with
    | some (.sending j _) => { s with sent := s.sent ++ [j] }.goto i .enter
    | _ => s
  | .admin i => if s.pcs[i]? = some .idle then s.goto i .admin else s
  | .reserve i => if s.pcs[i]? = some .admin then s.goto i .reserved else s
  | .tasks i => if s.pcs[i]? = some .reserved then s.goto i (.pending s.queue) else s
  | .current i =>
    match s.pcs[i]? with
    | some (.pending q) => s.goto i (.report q s.curr)
    | _ => s
  | .respond i =>
    match s.pcs[i]? with
    | some (.report _ _) => s.goto i .idle
    | _ => s

def machine (threads : ℕ) : Machine St Op := ⟨init threads, step⟩

/-! ## What a step can do -/

/-- an execution of process_tasks is active on the thread -/
def Pc.inProcess : Pc → Bool
  | .enter | .parked | .woken => true
  | _ => false

/-- the thread runs a completion handler that has not called process_tasks yet -/
def Pc.inHandler : Pc → Bool
  | .handler _ _ | .sending _ _ => true
  | _ => false

/-- what a thread carries on the chain process_tasks, timer wait, completion handler: `some none` in process_tasks,
`some (some j)` in the handler of j -/
def Pc.token : Pc → Option (Option Job)
  | .enter | .parked | .woken => some none
  | .handler j _ | .sending j _ => some (some j)
  | _ => none

@[simp] theorem token_ret (i : ℕ) : (ret i).token = none := by unfold ret; split_ifs <;> rfl

/-- the tokens outside the threads -/
def St.timerTokens (s : St) : List (Option Job) := s.waits.map some ++ s.ready.map fun r => some r.1

def St.tokens (s : St) : List (Option Job) := s.pcs.filterMap Pc.token ++ s.timerTokens

/-- dequeued, update not sent -/
def St.flight (s : St) : List Job := s.tokens.reduceOption

/-- the operation dequeues a task in state s -/
def Dequeues (s : St) (o : Op) : Prop :=
  ∃ i, o = .lock i ∧ (s.pcs[i]? = some .enter ∨ s.pcs[i]? = some .woken) ∧ s.queue ≠ []

/-- only program counters differ, and no thread's token -/
structure Quiet (s t : St) : Prop where
  pcs : t.pcs.filterMap Pc.token = s.pcs.filterMap Pc.token
  rest : t = { s with pcs := t.pcs }

theorem quiet_refl (s : St) : Quiet s s := ⟨rfl, rfl⟩

theorem quiet_goto {s : St} {i : ℕ} {p q : Pc} (h : s.pcs[i]? = some p) (hq : q.token = p.token) :
    Quiet s (s.goto i q) := ⟨filterMap_set_same Pc.token h hq, rfl⟩

theorem quiet_trans {s t u : St} (h1 : Quiet s t) (h2 : Quiet t u) : Quiet s u :=
  ⟨h2.pcs.trans h1.pcs, by rw [h2.rest, h1.rest]⟩

theorem quiet_notifyOne {s : St} {i : ℕ} (w : ℕ) (h : s.pcs[i]? = some .notify) : Quiet s (notifyOne s i w) := by
  unfold notifyOne
  split_ifs with hw hp
  · have hiw : w ≠ i := by rintro rfl; rw [h] at hw; cases hw
    have h1 : Quiet s (s.goto w .woken) := quiet_goto hw rfl
    have h2 : (s.goto w .woken).pcs[i]? = some .notify := by simp [St.goto, List.getElem?_set_ne hiw, h]
    exact quiet_trans h1 (quiet_goto h2 rfl)
  · exact quiet_refl s
  · exact quiet_goto h rfl

/-- **Step inversion.** A step is quiet, or is one of: a push, a dequeue, the end of a timer wait, the dispatch of a
completion handler, the return of its send. -/
theorem step_cases (s : St) (o : Op) :
    (Quiet s (step s o) ∧ ¬ Dequeues s o) ∨
    (∃ i t, o = .push i ∧ s.pcs[i]? = some (.push t) ∧ step s o = (pushTask s t).goto i .notify) ∨
    (∃ i j q, o = .lock i ∧ (s.pcs[i]? = some .enter ∨ s.pcs[i]? = some .woken) ∧ s.queue = j :: q ∧
      step s o = (asyncWait (expiresFromNow { s with queue := q, curr := some j }) j).goto i (ret i)) ∨
    (∃ k ec j, o = .expire k ec ∧ s.waits[k]? = some j ∧
      step s o = { s with waits := s.waits.eraseIdx k, ready := s.ready ++ [(j, ec)] }) ∨
    (∃ i k j ec, o = .handle i k ∧ s.pcs[i]? = some .idle ∧ s.ready[k]? = some (j, ec) ∧
      step s o = { s with ready := s.ready.eraseIdx k }.goto i (.handler j ec)) ∨
    (∃ i j c, o = .sent i ∧ s.pcs[i]? = some (.sending j c) ∧
      step s o = { s with sent := s.sent ++ [j] }.goto i .enter) := by
  cases o with
  | push i =>
    simp only [step]
    split
    · rename_i t h; exact Or.inr (Or.inl ⟨i, t, rfl, h, rfl⟩)
    · exact Or.inl ⟨quiet_refl s, by rintro ⟨_, h, _⟩; cases h⟩
  | notify i w =>
    refine Or.inl ⟨?_, by rintro ⟨_, h, _⟩; cases h⟩
    simp only [step]
    split_ifs with h
    · exact quiet_notifyOne w h
    · exact quiet_refl s
  | lock i =>
    simp only [step]
    split_ifs with h
    · cases hq : s.queue with
      | nil =>
        refine Or.inl ⟨?_, by rintro ⟨_, _, _, hne⟩; exact hne hq⟩
        simp only [processTasks, hq]
        rcases h with h | h
        · exact quiet_goto h rfl
        · exact quiet_goto h rfl
      | cons j q => exact Or.inr (Or.inr (Or.inl ⟨i, j, q, rfl, h, rfl, by simp only [processTasks, hq]⟩))
    · exact Or.inl ⟨quiet_refl s, by rintro ⟨_, ho, h', _⟩; cases ho; exact h h'⟩
  | expire k ec =>
    simp only [step]
    split
    · rename_i j h; exact Or.inr (Or.inr (Or.inr (Or.inl ⟨k, ec, j, rfl, h, rfl⟩)))
    · exact Or.inl ⟨quiet_refl s, by rintro ⟨_, h, _⟩; cases h⟩
  | handle i k =>
    simp only [step]
    split
    · rename_i j ec h1 h2
      exact Or.inr (Or.inr (Or.inr (Or.inr (Or.inl ⟨i, k, j, ec, rfl, h1, h2, rfl⟩))))
    · exact Or.inl ⟨quiet_refl s, by rintro ⟨_, h, _⟩; cases h⟩
  | sent i =>
    simp only [step]
    split
    · rename_i j c h; exact Or.inr (Or.inr (Or.inr (Or.inr (Or.inr ⟨i, j, c, rfl, h, rfl⟩))))
    · exact Or.inl ⟨quiet_refl s, by rintro ⟨_, h, _⟩; cases h⟩
  | send i c =>
    refine Or.inl ⟨?_, by rintro ⟨_, h, _⟩; cases h⟩
    simp only [step]
    split
    · rename_i j ec h; exact quiet_goto h rfl
    · exact quiet_refl s
  | current i =>
    refine Or.inl ⟨?_, by rintro ⟨_, h, _⟩; cases h⟩
    simp only [step]
    split
    · rename_i q h; exact quiet_goto h rfl
    · exact quiet_refl s
  | respond i =>
    refine Or.inl ⟨?_, by rintro ⟨_, h, _⟩; cases h⟩
    simp only [step]
    split
    · rename_i q c h; exact quiet_goto h rfl
    · exact quiet_refl s
  | _ =>
    refine Or.inl ⟨?_, by rintro ⟨_, h, _⟩; cases h⟩
    simp only [step]
    split_ifs with h
    · exact quiet_goto h rfl
    · exact quiet_refl s

/-! ## The invariant -/

/-- the number of active executions of process_tasks -/
def St.executing (s : St) : ℕ := s.pcs.countP Pc.inProcess

/-- the number of timer waits that are pending or whose handler is not dispatched yet -/
def St.waiting (s : St) : ℕ := s.waits.length + s.ready.length

/-- the number of running completion handlers -/
def St.handling (s : St) : ℕ := s.pcs.countP Pc.inHandler

/-- one token; conservation of tasks; `curr_` is the task dequeued last; serial numbers count the pushes -/
structure Inv (s : St) : Prop where
  chain : ∃ x, s.tokens = [x] ∧ s.pushed = s.sent ++ x.toList ++ s.queue ∧ s.curr = (s.sent ++ x.toList).getLast?
  ids : s.pushed.map Job.id = List.range s.pushed.length
  uncancelled : s.cancelled = []

theorem inv_init (threads : ℕ) : Inv (init threads) := by
  have h : (List.replicate threads Pc.idle).filterMap Pc.token = [] := by
    rw [List.filterMap_eq_nil_iff]
    intro p hp
    rw [List.eq_of_mem_replicate hp]; rfl
  refine ⟨⟨none, ?_, rfl, rfl⟩, rfl, rfl⟩
  simp [St.tokens, St.timerTokens, init, Pc.token, h]

/-- a thread that holds a token holds the only one -/
theorem sole_token {s : St} {i : ℕ} {p : Pc} {t x : Option Job} (hx : s.tokens = [x]) (hp : s.pcs[i]? = some p)
    (ht : p.token = some t) :
    t = x ∧ s.waits = [] ∧ s.ready = [] ∧ ∀ q : Pc, (s.pcs.set i q).filterMap Pc.token = q.token.toList := by
  obtain ⟨h1, h2, h3⟩ := filterMap_set_sole Pc.token hp ht hx
  simp only [St.timerTokens, List.append_eq_nil_iff, List.map_eq_nil_iff] at h2
  exact ⟨h1, h2.1, h2.2, h3⟩

/-- a pending wait is the only token -/
theorem sole_wait {s : St} {x : Option Job} {k : ℕ} {j : Job} (hx : s.tokens = [x]) (hj : s.waits[k]? = some j) :
    x = some j ∧ s.waits = [j] ∧ s.ready = [] ∧ k = 0 ∧ s.pcs.filterMap Pc.token = [] := by
  have hlen := congrArg List.length hx
  simp only [St.tokens, St.timerTokens, List.length_append, List.length_map, List.length_singleton] at hlen
  obtain ⟨hw, hn, hk⟩ := sole_getElem (n := (s.pcs.filterMap Pc.token).length + s.ready.length) (by omega) hj
  have h0 : s.pcs.filterMap Pc.token = [] := List.length_eq_zero_iff.1 (by omega)
  have hr : s.ready = [] := List.length_eq_zero_iff.1 (by omega)
  refine ⟨?_, hw, hr, hk, h0⟩
  simpa [St.tokens, St.timerTokens, h0, hw, hr, eq_comm] using hx

/-- a completion handler that is not dispatched yet is the only token -/
theorem sole_ready {s : St} {x : Option Job} {k : ℕ} {j : Job} {ec : ErrorCode} (hx : s.tokens = [x])
    (hj : s.ready[k]? = some (j, ec)) :
    x = some j ∧ s.waits = [] ∧ s.ready = [(j, ec)] ∧ k = 0 ∧ s.pcs.filterMap Pc.token = [] := by
  have hlen := congrArg List.length hx
  simp only [St.tokens, St.timerTokens, List.length_append, List.length_map, List.length_singleton] at hlen
  obtain ⟨hr, hn, hk⟩ := sole_getElem (n := (s.pcs.filterMap Pc.token).length + s.waits.length) (by omega) hj
  have h0 : s.pcs.filterMap Pc.token = [] := List.length_eq_zero_iff.1 (by omega)
  have hw : s.waits = [] := List.length_eq_zero_iff.1 (by omega)
  refine ⟨?_, hw, hr, hk, h0⟩
  simpa [St.tokens, St.timerTokens, h0, hw, hr, eq_comm] using hx

theorem step_inv (s : St) (o : Op) (h : Inv s) : Inv (step s o) := by
  obtain ⟨⟨x, hx, hp, hc⟩, hids, hcan⟩ := h
  rcases step_cases s o with ⟨hq, -⟩ | ⟨i, t, -, hi, he⟩ | ⟨i, j, q, -, hi, hqu, he⟩ | ⟨k, ec, j, -, hj, he⟩ |
    ⟨i, k, j, ec, -, hi, hj, he⟩ | ⟨i, j, c, -, hi, he⟩
  · -- quiet: every field of the invariant is unchanged
    rw [hq.rest]
    exact ⟨⟨x, by simpa [St.tokens, St.timerTokens, hq.pcs] using hx, hp, hc⟩, hids, hcan⟩
  · -- push: the job goes to the back of both sequences
    rw [he]
    refine ⟨⟨x, ?_, ?_, hc⟩, ?_, hcan⟩
    · have := filterMap_set_same Pc.token (y := .notify) hi rfl
      simpa [St.tokens, St.timerTokens, St.goto, pushTask, this] using hx
    · simp [St.goto, pushTask, hp, List.append_assoc]
    · simp [St.goto, pushTask, hids, List.range_succ]
  · -- dequeue: the token was in process_tasks, so no wait is pending; it moves to the timer
    obtain ⟨hn, hw, hr, hset⟩ : none = x ∧ s.waits = [] ∧ s.ready = [] ∧
        ∀ q : Pc, (s.pcs.set i q).filterMap Pc.token = q.token.toList := by
      rcases hi with hi | hi
      · exact sole_token hx hi rfl
      · exact sole_token hx hi rfl
    subst hn
    rw [he]
    refine ⟨⟨some j, ?_, ?_, ?_⟩, hids, ?_⟩
    · simp [St.tokens, St.timerTokens, St.goto, asyncWait, expiresFromNow, hset, hw, hr]
    · simp [St.goto, asyncWait, expiresFromNow, hp, hqu]
    · simp [St.goto, asyncWait, expiresFromNow]
    · simp [St.goto, asyncWait, expiresFromNow, hcan, hw]
  · -- the wait ends: its token moves to the handlers not yet dispatched
    obtain ⟨rfl, hw, hr, rfl, h0⟩ := sole_wait hx hj
    rw [he]
    refine ⟨⟨some j, ?_, hp, hc⟩, hids, hcan⟩
    simp [St.tokens, St.timerTokens, h0, hw, hr]
  · -- dispatch: the token moves from the ready handlers to the thread
    obtain ⟨rfl, hw, hr, rfl, h0⟩ := sole_ready hx hj
    have hset := filterMap_set_nil Pc.token (y := .handler j ec) hi h0
    rw [he]
    refine ⟨⟨some j, ?_, hp, hc⟩, hids, hcan⟩
    simp [St.tokens, St.timerTokens, St.goto, hset, Pc.token, hw, hr]
  · -- the update is sent: the handler's job joins the history and the token re-enters process_tasks
    obtain ⟨rfl, hw, hr, hset⟩ := sole_token hx hi rfl
    rw [he]
    refine ⟨⟨none, ?_, ?_, ?_⟩, hids, hcan⟩
    · simp [St.tokens, St.timerTokens, St.goto, hset, Pc.token, hw, hr]
    · simpa [St.goto] using hp
    · simpa [St.goto] using hc

theorem run_inv (threads : ℕ) (ops : List Op) : Inv ((machine threads).run (init threads) ops) :=
  (machine threads).run_invariant step_inv (inv_init threads) ops

/-! ## FIFO, exactly once -/

theorem flight_of_tokens {s : St} {x : Option Job} (hx : s.tokens = [x]) : s.flight = x.toList := by
  rw [St.flight, hx]
  cases x <;> rfl

/-- the tokens held by threads, counted by where the threads are -/
theorem token_count (l : List Pc) : (l.filterMap Pc.token).length = l.countP Pc.inProcess + l.countP Pc.inHandler := by
  induction l with
  | nil => rfl
  | cons p l ih =>
    simp only [List.filterMap_cons, List.countP_cons]
    cases p <;> simp [Pc.token, Pc.inProcess, Pc.inHandler, ih] <;> omega

/-- **FIFO, exactly once.** In every reachable state the pushed tasks, which have the serial numbers 0, 1, 2, .. in push
order, are the tasks whose update was sent, in order, then the one that is dequeued and not sent (at most one), then the
queue. Exactly one of an execution of process_tasks, a pending timer wait and a running completion handler exists, and
no dequeue re-arms the timer while a wait is pending. -/
theorem fifo_exactly_once (threads : ℕ) (ops : List Op) :
    let s := (machine threads).run (init threads) ops
    s.pushed = s.sent ++ s.flight ++ s.queue ∧ s.flight.length ≤ 1 ∧
      s.pushed.map Job.id = List.range s.pushed.length ∧ s.executing + s.waiting + s.handling = 1 ∧
      s.cancelled = [] ∧ ∀ o, Dequeues s o → s.waits = [] := by
  intro s
  obtain ⟨⟨x, hx, hp, hc⟩, hids, hcan⟩ : Inv s := run_inv threads ops
  have hf : s.flight = x.toList := flight_of_tokens hx
  refine ⟨by rw [hf]; exact hp, by rw [hf]; cases x <;> simp, hids, ?_, hcan, ?_⟩
  · have hlen := congrArg List.length hx
    simp only [St.tokens, St.timerTokens, List.length_append, List.length_map, List.length_singleton,
      token_count] at hlen
    simp only [St.executing, St.waiting, St.handling]
    omega
  · rintro o ⟨i, -, hi | hi, -⟩
    · exact (sole_token hx hi rfl).2.1
    · exact (sole_token hx hi rfl).2.1

/-! ## Deadlock of the io threads -/

/-- blocked in cv_.wait, or woken inside it -/
def Pc.inWait (p : Pc) : Prop := p = .parked ∨ p = .woken

/-- some io thread (threads 1 .. n) is outside the wait loop of process_tasks -/
def IoThreadFree (s : St) : Prop := ∃ i p, 1 ≤ i ∧ s.pcs[i]? = some p ∧ ¬ p.inWait

theorem length_step (s : St) (o : Op) : (step s o).pcs.length = s.pcs.length := by
  cases o with
  | lock i =>
    simp only [step]
    split_ifs
    · unfold processTasks; split <;> simp [St.goto, asyncWait, expiresFromNow]
    · rfl
  | notify i w =>
    simp only [step, notifyOne]
    split_ifs <;> simp [St.goto]
  | _ =>
    simp only [step]
    repeat' (first | split | split_ifs)
    all_goals first
      | rfl
      | simp [St.goto, pushTask]

theorem length_run (threads : ℕ) (ops : List Op) :
    ((machine threads).run (init threads) ops).pcs.length = threads + 1 :=
  (machine threads).run_invariant (I := fun s => s.pcs.length = threads + 1)
    (fun s o h => (length_step s o).trans h) (by simp [init]) ops

/-- **With two io threads the server cannot wedge.** -/
theorem io_thread_free (threads : ℕ) (h : 2 ≤ threads) (ops : List Op) :
    IoThreadFree ((machine threads).run (init threads) ops) := by
  have hlen := length_run threads ops
  set s := (machine threads).run (init threads) ops
  obtain ⟨⟨x, hx, -, -⟩, -, -⟩ : Inv s := run_inv threads ops
  obtain ⟨p, hp⟩ : ∃ p, s.pcs[1]? = some p := ⟨_, List.getElem?_eq_getElem (by omega)⟩
  obtain ⟨q, hq⟩ : ∃ q, s.pcs[2]? = some q := ⟨_, List.getElem?_eq_getElem (by omega)⟩
  by_cases hw : p.inWait
  · refine ⟨2, q, by omega, hq, ?_⟩
    intro hw'
    have token_of : ∀ r : Pc, r.inWait → r.token = some none := by rintro r (rfl | rfl) <;> rfl
    have hle : (s.pcs.filterMap Pc.token).length ≤ 1 := by
      have := congrArg List.length hx
      simp only [St.tokens, List.length_append, List.length_singleton] at this
      omega
    have := holders_eq Pc.token hle hp (token_of p hw) hq (token_of q hw')
    omega
  · exact ⟨1, p, le_rfl, hp, hw⟩

/-- one io thread: the first task is pushed and processed; its completion handler runs process_tasks on the only io
thread, with an empty queue -/
def wedgeOps : List Op :=
  [.lock 0, .post 1 ⟨"ann", "", ⟨0⟩⟩, .push 1, .notify 1 0, .done 1, .lock 0, .expire 0 .success, .handle 1 0,
    .send 1 0,
    .sent 1, .lock 1]

/-- the only io thread waits, and nothing is left that could wake it for a task -/
def Wedged (s : St) : Prop :=
  s.queue = [] ∧ s.waits = [] ∧ s.ready = [] ∧ (s.pcs = [.exited, .parked] ∨ s.pcs = [.exited, .woken])

theorem step_wedged (s : St) (o : Op) (h : Wedged s) : Wedged (step s o) := by
  obtain ⟨hq, hw, hr, hp⟩ := h
  have hpc : ∀ (i : ℕ) (p : Pc), s.pcs[i]? = some p → p = .exited ∨ (i = 1 ∧ (p = .parked ∨ p = .woken)) := by
    intro i p hi
    have hm : i = 0 ∧ p = .exited ∨ i = 1 ∧ (p = .parked ∨ p = .woken) := by
      rcases hp with hp | hp <;> rw [hp] at hi <;> rcases i with _ | _ | i <;> simp at hi <;> simp [← hi]
    rcases hm with ⟨-, h⟩ | h
    · exact Or.inl h
    · exact Or.inr h
  have same : Wedged s := ⟨hq, hw, hr, hp⟩
  have keep : ∀ (i : ℕ) (p : Pc), s.pcs[i]? = some p → p ≠ .exited → p ≠ .parked → p ≠ .woken → False := by
    intro i p hi h1 h2 h3
    rcases hpc i p hi with h | ⟨-, h | h⟩
    · exact h1 h
    · exact h2 h
    · exact h3 h
  have wait : ∀ (i : ℕ) (p : Pc), s.pcs[i]? = some p → p ≠ .exited → i = 1 := by
    intro i p hi h1
    rcases hpc i p hi with h | ⟨h, -⟩
    · exact absurd h h1
    · exact h
  cases o with
  | lock i =>
    simp only [step]
    split_ifs with h
    · obtain rfl : i = 1 := by
        rcases h with h | h
        · exact wait i _ h (by decide)
        · exact wait i _ h (by decide)
      simp only [processTasks, hq]
      refine ⟨hq, hw, hr, Or.inl ?_⟩
      rcases hp with hp | hp <;> simp [St.goto, hp]
    · exact same
  | wake i =>
    simp only [step]
    split_ifs with h
    · obtain rfl := wait i _ h (by decide)
      refine ⟨hq, hw, hr, Or.inr ?_⟩
      rcases hp with hp | hp <;> simp [St.goto, hp]
    · exact same
  | expire k ec => simp only [step, hw, List.getElem?_nil]; exact same
  | handle i k =>
    simp only [step]
    split
    · rename_i h; simp [hr] at h
    · exact same
  | _ =>
    simp only [step]
    repeat' (first | split | split_ifs)
    all_goals first
      | exact same
      | exact (keep _ _ (by assumption) (by simp) (by simp) (by simp)).elim

theorem wedgeOps_wedged : Wedged ((machine 1).run (init 1) wedgeOps) := by
  unfold Wedged; decide

theorem wedged_not_free {s : St} (h : Wedged s) : ¬ IoThreadFree s := by
  obtain ⟨-, -, -, hp⟩ := h
  rintro ⟨i, p, hi, hip, hnw⟩
  obtain ⟨k, rfl⟩ : ∃ k, i = k + 1 := ⟨i - 1, by omega⟩
  have hk : p = .parked ∨ p = .woken := by
    rcases hp with hp | hp <;> rw [hp] at hip <;> cases k <;> simp at hip <;> simp [← hip]
  exact hnw hk

/-- **One io thread wedges for good.** After `wedgeOps` the only io thread waits for a task, and no continuation frees
it. -/
theorem one_io_thread_wedges :
    ¬ IoThreadFree ((machine 1).run (init 1) wedgeOps) ∧
      ¬ ∃ ops, IoThreadFree ((machine 1).run ((machine 1).run (init 1) wedgeOps) ops) := by
  refine ⟨wedged_not_free wedgeOps_wedged, ?_⟩
  rintro ⟨ops, h⟩
  exact wedged_not_free ((machine 1).run_invariant step_wedged wedgeOps_wedged ops) h

/-- **Deadlock freedom holds exactly from two io threads on.** main accepts every thread count from 1, and 1 is its
default. -/
theorem io_thread_free_iff (threads : ℕ) (h : 1 ≤ threads) :
    (∀ ops, IoThreadFree ((machine threads).run (init threads) ops)) ↔ 2 ≤ threads := by
  refine ⟨?_, io_thread_free threads⟩
  intro hall
  by_contra hlt
  obtain rfl : threads = 1 := by omega
  exact wedged_not_free wedgeOps_wedged (hall wedgeOps)

theorem io_thread_free_iff_four : (∀ ops, IoThreadFree ((machine 4).run (init 4) ops)) ↔ 2 ≤ 4 :=
  io_thread_free_iff 4 (by decide)

/-! ## current() -/

/-- `curr_` is non-null exactly when a task is dequeued and its update not sent, and is then that task -/
def CurrentTruthful (s : St) : Prop := (s.curr = none ↔ s.flight = []) ∧ ∀ j ∈ s.flight, s.curr = some j

/-- **current() is right exactly before the first update is sent and while a task runs.** process_tasks sets `curr_` and
nothing resets it, so once an update has been sent it names a finished task until the next dequeue. -/
theorem current_truthful_iff (threads : ℕ) (ops : List Op) :
    let s := (machine threads).run (init threads) ops
    CurrentTruthful s ↔ s.sent = [] ∨ s.flight ≠ [] := by
  intro s
  obtain ⟨⟨x, hx, -, hc⟩, -, -⟩ : Inv s := run_inv threads ops
  have hf : s.flight = x.toList := flight_of_tokens hx
  unfold CurrentTruthful
  rw [hf, hc]
  cases x with
  | none => simp
  | some j => simp

/-- a task runs to completion, process_tasks waits on the empty queue, and GET /api/admin is answered -/
def staleOps : List Op :=
  [.post 1 ⟨"ann", "", ⟨0⟩⟩, .push 1, .notify 1 0, .done 1, .lock 0, .expire 0 .success, .handle 1 0, .send 1 0,
    .sent 1,
    .lock 1, .admin 2, .reserve 2, .tasks 2, .current 2]

/-- **The finished task is still reported as running.** -/
theorem current_stale_after_update :
    let s := (machine 2).run (init 2) staleOps
    ¬ CurrentTruthful s ∧ s.flight = [] ∧ s.queue = [] ∧ s.sent = [⟨0, ⟨"ann", "", ⟨0⟩⟩⟩] ∧
      s.pcs = [.exited, .parked, .report [] (some ⟨0, ⟨"ann", "", ⟨0⟩⟩⟩)] := by
  unfold CurrentTruthful; decide

end Gss.Scheduler
