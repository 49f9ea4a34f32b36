/-
push_task and process_tasks of `shared_state`, statement by statement: the mutex, the condition variable and the queue.

Threads: thread 0 is the consumer, which starts in process_tasks; threads 1 .. n are the others. Each may call
push_task, again and again, and process_tasks when no execution of it is active (main starts one, and each completion
handler calls it after the one before has returned). A program counter says where a thread stands between two atomic
steps:
- push_task: `call`, `lockPush`, `append`, `unlock`, `notify`;
- process_tasks: `process`, `lock` (at its start, or on the way out of cv_.wait), `test`, `wait` (which releases the
  mutex and parks at once), `wake` (a spurious wakeup), `front`, `popFront`, `ret`. cv_.notify_one wakes some parked
  thread if there is one. An operation that is not enabled leaves the state as it is. What process_tasks does with curr_
  and the timer, between pop_front and its return, is left to the scheduler.

- `Move`, `inv_move`: what one thread's move does to the mutex, the queue and the debt of a notification.
- `no_lost_wakeup`: while the execution of process_tasks is parked, the queue is empty or a notification is still to
  come; out of its loop it holds the mutex and the queue has a front.
- `queue_members`: the queue of the machine is what tasks_queue_, a list<T> on a heap of nodes, represents.
- `scheduler_refines`: the critical sections of the scheduler are runs of this machine.
-/
import Gss.Containers.List
import Gss.Server.Scheduler

namespace Gss.Monitor

open Gss.Core Gss.Containers

/-! ## Model -/

/-- where a thread stands -/
inductive Pc where
  /-- in neither function -/
  | out
  /-- push_task(t) called -/
  | pushing (t : Task)
  /-- mutex_ taken, before push_back -/
  | pushLocked (t : Task)
  /-- after push_back, mutex_ held -/
  | appended
  /-- after lock.unlock(), before notify_one -/
  | unlocked
  /-- process_tasks called -/
  | entered
  /-- mutex_ taken, before tasks_queue_.empty() -/
  | testing
  /-- the queue was empty, mutex_ held -/
  | waiting
  /-- in cv_.wait, mutex_ released -/
  | parked
  /-- in cv_.wait, woken, mutex_ not taken again -/
  | woken
  /-- out of the loop, mutex_ held, before front() -/
  | left
  /-- front() gave t, mutex_ held, before pop_front() -/
  | fronted (t : Task)
  /-- after pop_front(), mutex_ held -/
  | popped (t : Task)
deriving DecidableEq, Repr

structure St where
  pcs : List Pc
  /-- the thread that holds mutex_ -/
  mutex : Option ℕ
  /-- tasks_queue_, front first -/
  queue : List Task
  /-- an exception that front() or pop_front() has thrown -/
  thrown : Option OutOfRange
deriving DecidableEq, Repr

inductive Op where
  | call (i : ℕ) (t : Task)
  | lockPush (i : ℕ)
  | append (i : ℕ)
  | unlock (i : ℕ)
  | notify (i w : ℕ)
  | process (i : ℕ)
  | lock (i : ℕ)
  | test (i : ℕ)
  | wait (i : ℕ)
  | wake (i : ℕ)
  | front (i : ℕ)
  | popFront (i : ℕ)
  | ret (i : ℕ)
deriving DecidableEq, Repr

def init (threads : ℕ) : St := ⟨.entered :: List.replicate threads .out, none, [], none⟩

/-- thread i moves to p -/
def St.goto (s : St) (i : ℕ) (p : Pc) : St := { s with pcs := s.pcs.set i p }

/-- list<T>::front on the sequence the queue is -/
def front (q : List Task) : Except OutOfRange Task := q.head?.elim (.error ⟨"Empty list."⟩) .ok

/-- list<T>::pop_front -/
def popFront : List Task → Except OutOfRange (List Task)
  | [] => .error ⟨"Empty list."⟩
  | _ :: q => .ok q

/-- an exception leaves process_tasks, and its lock is released -/
def St.throws (s : St) (i : ℕ) (e : OutOfRange) : St := { s with mutex := none, thrown := some e }.goto i .out

/-- cv_.notify_one by thread i; w is the thread it wakes, if any is parked -/
def notifyOne (s : St) (i w : ℕ) : St :=
  if s.pcs[w]? = some .parked then (s.goto w .woken).goto i .out
  else if .parked ∈ s.pcs then s
  else s.goto i .out

/-- an execution of process_tasks is active on the thread -/
def Pc.inProcess : Pc → Bool
  | .entered | .testing | .waiting | .parked | .woken | .left | .fronted _ | .popped _ => true
  | _ => false

def step (s : St) : Op → St
  | .call i t => if s.pcs[i]? = some .out then s.goto i (.pushing t) else s
  | .lockPush i =>
    match s.pcs[i]? with
    | some (.pushing t) => if s.mutex = none then { s with mutex := some i }.goto i (.pushLocked t) else s
    | _ => s
  | .append i =>
    match s.pcs[i]? with
    | some (.pushLocked t) => { s with queue := s.queue ++ [t] }.goto i .appended
    | _ => s
  | .unlock i => if s.pcs[i]? = some .appended then { s with mutex := none }.goto i .unlocked else s
  | .notify i w => if s.pcs[i]? = some .unlocked then notifyOne s i w else s
  | .process i => if s.pcs[i]? = some .out ∧ ∀ p ∈ s.pcs, p.inProcess = false then s.goto i .entered else s
  | .lock i =>
    if (s.pcs[i]? = some .entered ∨ s.pcs[i]? = some .woken) ∧ s.mutex = none then
      { s with mutex := some i }.goto i .testing
    else s
  | .test i => if s.pcs[i]? = some .testing then s.goto i (if s.queue = [] then .waiting else .left) else s
  | .wait i => if s.pcs[i]? = some .waiting then { s with mutex := none }.goto i .parked else s
  | .wake i => if s.pcs[i]? = some .parked then s.goto i .woken else s
  | .front i =>
    if s.pcs[i]? = some .left then
      match front s.queue with
      | .ok t => s.goto i (.fronted t)
      | .error e => s.throws i e
    else s
  | .popFront i =>
    match s.pcs[i]? with
    | some (.fronted t) =>
      match popFront s.queue with
      | .ok q => { s with queue := q }.goto i (.popped t)
      | .error e => s.throws i e
    | _ => s
  | .ret i =>
    match s.pcs[i]? with
    | some (.popped _) => { s with mutex := none }.goto i .out
    | _ => s

def machine (threads : ℕ) : Machine St Op := ⟨init threads, step⟩

/-! ## The invariant -/

/-- the thread holds mutex_ -/
def Pc.holds : Pc → Bool
  | .pushLocked _ | .appended | .testing | .waiting | .left | .fronted _ | .popped _ => true
  | _ => false

/-- the thread has appended a task and has not executed notify_one -/
def Pc.owes : Pc → Bool
  | .appended | .unlocked => true
  | _ => false

/-- what the thread knows of the queue, as it holds the mutex -/
def Pc.Sees (q : List Task) : Pc → Prop
  | .waiting => q = []
  | .left => q ≠ []
  | .fronted t => q.head? = some t
  | _ => True

structure Inv (s : St) : Prop where
  mutex : ∀ (i : ℕ) (p : Pc), s.pcs[i]? = some p → (p.holds = true ↔ s.mutex = some i)
  sole : ∀ (i j : ℕ) (p q : Pc), s.pcs[i]? = some p → s.pcs[j]? = some q → p.inProcess = true → q.inProcess = true →
    i = j
  sees : ∀ (i : ℕ) (p : Pc), s.pcs[i]? = some p → p.Sees s.queue
  wake : .parked ∈ s.pcs → s.queue = [] ∨ ∃ p ∈ s.pcs, p.owes = true
  thrown : s.thrown = none

theorem inv_init (threads : ℕ) : Inv (init threads) := by
  have get : ∀ {i : ℕ} {p : Pc}, (init threads).pcs[i]? = some p → i = 0 ∧ p = .entered ∨ p = .out := by
    intro i p hi
    cases i with
    | zero => exact Or.inl ⟨rfl, (Option.some.inj hi).symm⟩
    | succ i =>
      have hm : p ∈ List.replicate threads Pc.out := List.mem_of_getElem? (i := i) (by simpa [init] using hi)
      exact Or.inr (List.eq_of_mem_replicate hm)
  refine ⟨?_, ?_, ?_, ?_, rfl⟩
  · intro i p hi
    rcases get hi with ⟨-, rfl⟩ | rfl <;> simp [init, Pc.holds]
  · intro i j p q hi hj hp hq
    rcases get hi with ⟨rfl, rfl⟩ | rfl
    · rcases get hj with ⟨rfl, rfl⟩ | rfl
      · rfl
      · cases hq
    · cases hp
  · intro i p hi
    rcases get hi with ⟨-, rfl⟩ | rfl <;> trivial
  · intro _
    exact Or.inl rfl

/-- only a thread that holds the mutex knows something of the queue -/
theorem sees_of_not_holds {p : Pc} (h : p.holds = false) (q : List Task) : p.Sees q := by
  cases p <;> trivial

/-- thread i moves from p to q; the rest changes as follows -/
structure Move (s : St) (i : ℕ) (p q : Pc) (s' : St) : Prop where
  at_p : s.pcs[i]? = some p
  pcs : s'.pcs = s.pcs.set i q
  /-- the mutex is kept, taken when it is free, or released by its holder -/
  mutex : q.holds = p.holds ∧ s'.mutex = s.mutex ∨ q.holds = true ∧ s.mutex = none ∧ s'.mutex = some i ∨
    p.holds = true ∧ q.holds = false ∧ s'.mutex = none
  /-- the queue is changed by the holder of the mutex, who then owes a notification or executes process_tasks -/
  queue : s'.queue = s.queue ∨ p.holds = true ∧ (q.owes = true ∨ p.inProcess = true)
  process : q.inProcess = true → p.inProcess = true ∨ ∀ r ∈ s.pcs, r.inProcess = false
  sees : q.Sees s'.queue
  /-- a notification is given up when nobody is parked -/
  owes : p.owes = true → q.owes = true ∨ .parked ∉ s.pcs
  parked : q = .parked → s'.queue = []
  thrown : s'.thrown = s.thrown

section Move

variable {s s' : St} {i : ℕ} {p q : Pc}

/-- a thread after the move is thread i at q or stands where it stood -/
theorem Move.get (m : Move s i p q s') {j : ℕ} {r : Pc} (hj : s'.pcs[j]? = some r) :
    j = i ∧ r = q ∨ j ≠ i ∧ s.pcs[j]? = some r := by
  rw [m.pcs] at hj
  exact getElem?_set_cases m.at_p hj

theorem Move.moved (m : Move s i p q s') : q ∈ s'.pcs := by
  refine List.mem_of_getElem? (i := i) ?_
  rw [m.pcs, getElem?_set_at m.at_p]

/-- the other threads are there after the move -/
theorem Move.stays (m : Move s i p q s') {j : ℕ} {r : Pc} (hji : j ≠ i) (hj : s.pcs[j]? = some r) : r ∈ s'.pcs := by
  refine List.mem_of_getElem? (i := j) ?_
  rw [m.pcs, List.getElem?_set_ne (Ne.symm hji), hj]

/-- nobody else holds the mutex while thread i does -/
theorem Move.others (m : Move s i p q s') (h : Inv s) (hp : p.holds = true) {j : ℕ} {r : Pc} (hji : j ≠ i)
    (hj : s.pcs[j]? = some r) : r.holds = false := by
  cases hr : r.holds with
  | false => rfl
  | true =>
    have hi := (h.mutex i p m.at_p).1 hp
    rw [(h.mutex j r hj).1 hr, Option.some.injEq] at hi
    exact absurd hi hji

theorem Move.keeps_mutex (m : Move s i p q s') (h : Inv s) (j : ℕ) (r : Pc) (hj : s'.pcs[j]? = some r) :
    r.holds = true ↔ s'.mutex = some j := by
  rcases m.get hj with ⟨rfl, rfl⟩ | ⟨hji, hj⟩
  · rcases m.mutex with ⟨hh, hm⟩ | ⟨hh, -, hm⟩ | ⟨-, hh, hm⟩
    · rw [hh, hm]
      exact h.mutex j p m.at_p
    · simp [hh, hm]
    · simp [hh, hm]
  · rcases m.mutex with ⟨-, hm⟩ | ⟨-, hfree, hm⟩ | ⟨hp, -, hm⟩
    · rw [hm]
      exact h.mutex j r hj
    · rw [h.mutex j r hj, hfree, hm]
      simp [Ne.symm hji]
    · simp [m.others h hp hji hj, hm]

theorem Move.keeps_sole (m : Move s i p q s') (h : Inv s) (j k : ℕ) (r r' : Pc) (hj : s'.pcs[j]? = some r)
    (hk : s'.pcs[k]? = some r') (hr : r.inProcess = true) (hr' : r'.inProcess = true) : j = k := by
  rcases m.get hj with ⟨rfl, rfl⟩ | ⟨hji, hj⟩ <;> rcases m.get hk with ⟨rfl, rfl⟩ | ⟨hki, hk⟩
  · rfl
  · rcases m.process hr with hp | hno
    · exact h.sole j k p r' m.at_p hk hp hr'
    · rw [hno r' (List.mem_of_getElem? hk)] at hr'
      cases hr'
  · rcases m.process hr' with hp | hno
    · exact h.sole j k r p hj m.at_p hr hp
    · rw [hno r (List.mem_of_getElem? hj)] at hr
      cases hr
  · exact h.sole j k r r' hj hk hr hr'

theorem Move.keeps_sees (m : Move s i p q s') (h : Inv s) (j : ℕ) (r : Pc) (hj : s'.pcs[j]? = some r) :
    r.Sees s'.queue := by
  rcases m.get hj with ⟨rfl, rfl⟩ | ⟨hji, hj⟩
  · exact m.sees
  · rcases m.queue with hq | ⟨hp, -⟩
    · rw [hq]
      exact h.sees j r hj
    · exact sees_of_not_holds (m.others h hp hji hj) _

/-- a notification owed before the move is owed after it, as long as somebody is parked -/
theorem Move.keeps_debt (m : Move s i p q s') (hin : .parked ∈ s.pcs) {r : Pc} (hr : r ∈ s.pcs)
    (howes : r.owes = true) : ∃ r' ∈ s'.pcs, r'.owes = true := by
  obtain ⟨k, hk⟩ := List.mem_iff_getElem?.1 hr
  by_cases hki : k = i
  · subst hki
    obtain rfl : r = p := Option.some.inj (hk.symm.trans m.at_p)
    rcases m.owes howes with hq | hno
    · exact ⟨q, m.moved, hq⟩
    · exact absurd hin hno
  · exact ⟨r, m.stays hki hk, howes⟩

theorem Move.keeps_wake (m : Move s i p q s') (h : Inv s) (hparked : .parked ∈ s'.pcs) :
    s'.queue = [] ∨ ∃ r ∈ s'.pcs, r.owes = true := by
  obtain ⟨j, hj⟩ := List.mem_iff_getElem?.1 hparked
  rcases m.get hj with ⟨rfl, hq⟩ | ⟨hji, hj⟩
  · exact Or.inl (m.parked hq.symm)
  have hin : .parked ∈ s.pcs := List.mem_of_getElem? hj
  rcases m.queue with hq | ⟨-, hq | hp⟩
  · rw [hq]
    rcases h.wake hin with he | ⟨r, hr, howes⟩
    · exact Or.inl he
    · exact Or.inr (m.keeps_debt hin hr howes)
  · exact Or.inr ⟨q, m.moved, hq⟩
  · exact absurd (h.sole j i .parked p hj m.at_p rfl hp) hji

theorem inv_move (h : Inv s) (m : Move s i p q s') : Inv s' where
  mutex := m.keeps_mutex h
  sole := m.keeps_sole h
  sees := m.keeps_sees h
  wake := m.keeps_wake h
  thrown := m.thrown.trans h.thrown

end Move

/-- a move outside the mutex, which leaves everything but the thread as it is -/
theorem move_outside {s : St} {i : ℕ} {p q : Pc} (hi : s.pcs[i]? = some p) (hp : p.holds = false)
    (hq : q.holds = false) (hproc : q.inProcess = true → p.inProcess = true ∨ ∀ r ∈ s.pcs, r.inProcess = false)
    (howes : p.owes = true → q.owes = true ∨ .parked ∉ s.pcs) (hpark : q ≠ .parked) : Move s i p q (s.goto i q) where
  at_p := hi
  pcs := rfl
  mutex := Or.inl ⟨by rw [hp, hq], rfl⟩
  queue := Or.inl rfl
  process := hproc
  sees := sees_of_not_holds hq _
  owes := howes
  parked h := absurd h hpark
  thrown := rfl

/-- the mutex is taken -/
theorem move_acquire {s : St} {i : ℕ} {p q : Pc} (hi : s.pcs[i]? = some p) (hfree : s.mutex = none)
    (hq : q.holds = true) (hproc : q.inProcess = p.inProcess) (howes : p.owes = false) (hsees : q.Sees s.queue)
    (hpark : q ≠ .parked) : Move s i p q ({ s with mutex := some i }.goto i q) where
  at_p := hi
  pcs := rfl
  mutex := Or.inr (Or.inl ⟨hq, hfree, rfl⟩)
  queue := Or.inl rfl
  process h := Or.inl (hproc ▸ h)
  sees := hsees
  owes h := by rw [howes] at h; cases h
  parked h := absurd h hpark
  thrown := rfl

/-- the mutex is released -/
theorem move_release {s : St} {i : ℕ} {p q : Pc} (hi : s.pcs[i]? = some p) (hp : p.holds = true)
    (hq : q.holds = false) (hproc : q.inProcess = true → p.inProcess = true) (howes : p.owes = q.owes)
    (hpark : q = .parked → s.queue = []) : Move s i p q ({ s with mutex := none }.goto i q) where
  at_p := hi
  pcs := rfl
  mutex := Or.inr (Or.inr ⟨hp, hq, rfl⟩)
  queue := Or.inl rfl
  process h := Or.inl (hproc h)
  sees := sees_of_not_holds hq _
  owes h := Or.inl (howes ▸ h)
  parked := hpark
  thrown := rfl

/-- the holder of the mutex goes on, and may change the queue -/
theorem move_inside {s : St} {i : ℕ} {p q : Pc} {queue : List Task} (hi : s.pcs[i]? = some p) (hp : p.holds = true)
    (hq : q.holds = true) (hqueue : queue = s.queue ∨ q.owes = true ∨ p.inProcess = true)
    (hproc : q.inProcess = p.inProcess) (howes : p.owes = false) (hsees : q.Sees queue) (hpark : q ≠ .parked) :
    Move s i p q ({ s with queue := queue }.goto i q) where
  at_p := hi
  pcs := rfl
  mutex := Or.inl ⟨by rw [hp, hq], rfl⟩
  queue := hqueue.imp id fun h => ⟨hp, h⟩
  process h := Or.inl (hproc ▸ h)
  sees := hsees
  owes h := by rw [howes] at h; cases h
  parked h := absurd h hpark
  thrown := rfl

/-- notify_one wakes the only thread that is parked -/
theorem notifyOne_inv {s : St} (h : Inv s) {i : ℕ} (hi : s.pcs[i]? = some .unlocked) (w : ℕ) :
    Inv (notifyOne s i w) := by
  unfold notifyOne
  split_ifs with hw hpark
  · have hiw : w ≠ i := by
      rintro rfl
      rw [hi] at hw
      cases hw
    have h1 : Inv (s.goto w .woken) := inv_move h (move_outside hw rfl rfl (fun _ => Or.inl rfl) nofun nofun)
    have hi' : (s.goto w .woken).pcs[i]? = some .unlocked := by simp [St.goto, List.getElem?_set_ne hiw, hi]
    refine inv_move h1 (move_outside hi' rfl rfl nofun (fun _ => Or.inr ?_) nofun)
    intro hm
    obtain ⟨j, hj⟩ := List.mem_iff_getElem?.1 hm
    have hwoken : (s.goto w .woken).pcs[w]? = some .woken := getElem?_set_at hw _
    obtain rfl := h1.sole j w .parked .woken hj hwoken rfl rfl
    rw [hwoken] at hj
    cases hj
  · exact h
  · exact inv_move h (move_outside hi rfl rfl nofun (fun _ => Or.inr hpark) nofun)

theorem step_inv (s : St) (o : Op) (h : Inv s) : Inv (step s o) := by
  cases o with
  | call i t =>
    simp only [step]
    split_ifs with hi
    · exact inv_move h (move_outside hi rfl rfl nofun nofun nofun)
    · exact h
  | lockPush i =>
    simp only [step]
    split
    · rename_i t hi
      split_ifs with hfree
      · exact inv_move h (move_acquire hi hfree rfl rfl rfl trivial nofun)
      · exact h
    · exact h
  | append i =>
    simp only [step]
    split
    · rename_i t hi
      exact inv_move h (move_inside hi rfl rfl (Or.inr (Or.inl rfl)) rfl rfl trivial nofun)
    · exact h
  | unlock i =>
    simp only [step]
    split_ifs with hi
    · exact inv_move h (move_release hi rfl rfl nofun rfl nofun)
    · exact h
  | notify i w =>
    simp only [step]
    split_ifs with hi
    · exact notifyOne_inv h hi w
    · exact h
  | process i =>
    simp only [step]
    split_ifs with hi
    · exact inv_move h (move_outside hi.1 rfl rfl (fun _ => Or.inr hi.2) nofun nofun)
    · exact h
  | lock i =>
    simp only [step]
    split_ifs with hi
    · rcases hi.1 with hp | hp
      · exact inv_move h (move_acquire hp hi.2 rfl rfl rfl trivial nofun)
      · exact inv_move h (move_acquire hp hi.2 rfl rfl rfl trivial nofun)
    · exact h
  | test i =>
    simp only [step]
    split_ifs with hi hq
    · exact inv_move h (move_inside hi rfl rfl (Or.inl rfl) rfl rfl hq nofun)
    · exact inv_move h (move_inside hi rfl rfl (Or.inl rfl) rfl rfl hq nofun)
    · exact h
  | wait i =>
    simp only [step]
    split_ifs with hi
    · exact inv_move h (move_release hi rfl rfl (fun _ => rfl) rfl fun _ => h.sees i _ hi)
    · exact h
  | wake i =>
    simp only [step]
    split_ifs with hi
    · exact inv_move h (move_outside hi rfl rfl (fun _ => Or.inl rfl) nofun nofun)
    · exact h
  | front i =>
    simp only [step]
    split_ifs with hi
    · have hne : s.queue ≠ [] := h.sees i _ hi
      obtain ⟨t, q, hq⟩ := List.exists_cons_of_ne_nil hne
      have hf : front s.queue = .ok t := by rw [hq]; rfl
      rw [hf]
      exact inv_move h (move_inside hi rfl rfl (Or.inl rfl) rfl rfl (by simp [Pc.Sees, hq]) nofun)
    · exact h
  | popFront i =>
    simp only [step]
    split
    · rename_i t hi
      have hhead : s.queue.head? = some t := h.sees i _ hi
      obtain ⟨q, hq⟩ := List.head?_eq_some_iff.1 hhead
      have hp : popFront s.queue = .ok q := by rw [hq]; rfl
      rw [hp]
      exact inv_move h (move_inside hi rfl rfl (Or.inr (Or.inr rfl)) rfl rfl trivial nofun)
    · exact h
  | ret i =>
    simp only [step]
    split
    · rename_i t hi
      exact inv_move h (move_release hi rfl rfl nofun rfl nofun)
    · exact h

theorem reachable_inv {threads : ℕ} {s : St} (h : (machine threads).Reachable s) : Inv s :=
  (machine threads).invariant (inv_init threads) step_inv h

/-- **No lost wakeup.** For every number of threads and every interleaving of push_task and process_tasks, in every
reachable state: while the execution of process_tasks is parked, the queue is empty or some push_task has appended its
task and has still to execute notify_one; once it has left its loop it holds the mutex and the queue is not empty, so
that neither front() nor pop_front() has thrown. -/
theorem no_lost_wakeup (threads : ℕ) (ops : List Op) :
    let s := (machine threads).run (init threads) ops
    (∀ i : ℕ, s.pcs[i]? = some Pc.parked →
      s.queue = [] ∨ ∃ (j : ℕ) (p : Pc), s.pcs[j]? = some p ∧ (p = .appended ∨ p = .unlocked)) ∧
      (∀ i : ℕ, (s.pcs[i]? = some Pc.left ∨ ∃ t, s.pcs[i]? = some (Pc.fronted t)) → s.mutex = some i ∧ s.queue ≠ []) ∧
      s.thrown = none := by
  intro s
  have h : Inv s := reachable_inv ((machine threads).reachable_run ops)
  refine ⟨?_, ?_, h.thrown⟩
  · intro i hi
    rcases h.wake (List.mem_of_getElem? hi) with hq | ⟨p, hp, ho⟩
    · exact Or.inl hq
    · obtain ⟨j, hj⟩ := List.mem_iff_getElem?.1 hp
      refine Or.inr ⟨j, p, hj, ?_⟩
      cases p <;> simp [Pc.owes] at ho ⊢
  · rintro i (hi | ⟨t, hi⟩)
    · exact ⟨(h.mutex i _ hi).1 rfl, h.sees i _ hi⟩
    · refine ⟨(h.mutex i _ hi).1 rfl, ?_⟩
      intro hq
      have hhead : s.queue.head? = some t := h.sees i _ hi
      rw [hq] at hhead
      cases hhead

/-! ## The queue is a list<T> -/

/-- **The queue of the machine and tasks_queue_**: when the list object represents the queue, push_back, empty, front
and pop_front of the list return what the steps `append`, `test`, `front` and `popFront` use, throw when these throw,
and leave an object that represents the queue after the step. -/
theorem queue_members (A : Allocator (Node Task)) {h : Heap (Node Task)} {l : Obj} {ns : Nodes Task}
    (hr : Rep h l ns) (t : Task) :
    let q := ns.map Prod.snd
    (∃ r ms, pushBack A h l t = some r ∧ Rep r.1 r.2 ms ∧ ms.map Prod.snd = q ++ [t]) ∧
      empty h l = some (decide (q = [])) ∧ Containers.front h l = some (front q) ∧
      ∃ r h' l' ms, Containers.popFront h l = some (r, h', l') ∧ Rep h' l' ms ∧
        popFront q = r.map fun _ => ms.map Prod.snd := by
  intro q
  refine ⟨?_, ?_, front_spec hr, ?_⟩
  · obtain ⟨r, e, ms, hms, hq, -⟩ := pushBack_spec A hr t
    exact ⟨r, ms, e, hms, hq⟩
  · rw [empty_spec hr]
    cases ns <;> rfl
  · cases ns with
    | nil => exact ⟨_, h, l, [], popFront_nil hr, hr, rfl⟩
    | cons n ns =>
      obtain ⟨⟨h', l'⟩, e, ms, hms, hq, -⟩ := popFront_spec hr
      refine ⟨_, h', l', ms, e, hms, ?_⟩
      rw [hq]
      rfl

/-! ## The scheduler's critical sections -/

section Sections

variable {threads : ℕ} {m : St} {i : ℕ}

/-- push_task, not interrupted while it holds the mutex -/
theorem run_push {t : Task} (hi : m.pcs[i]? = some (.pushing t)) (hm : m.mutex = none) :
    (machine threads).run m [.lockPush i, .append i, .unlock i] =
      { m with queue := m.queue ++ [t] }.goto i .unlocked := by
  have hset : ∀ p, (m.pcs.set i p)[i]? = some p := getElem?_set_at hi
  simp only [Machine.run_cons, Machine.run_nil, machine, step, St.goto, hi, hm, hset, List.set_set, if_true]

/-- process_tasks on an empty queue -/
theorem run_park (hi : m.pcs[i]? = some .entered ∨ m.pcs[i]? = some .woken) (hm : m.mutex = none) (hq : m.queue = []) :
    (machine threads).run m [.lock i, .test i, .wait i] = m.goto i .parked := by
  have hset : ∀ p, (m.pcs.set i p)[i]? = some p := hi.elim getElem?_set_at getElem?_set_at
  simp only [Machine.run_cons, Machine.run_nil, machine, step, St.goto, hi, hm, hq, hset, List.set_set, and_self,
    if_true]

/-- process_tasks on a queue with a front -/
theorem run_take (hi : m.pcs[i]? = some .entered ∨ m.pcs[i]? = some .woken) (hm : m.mutex = none) {t : Task}
    {q : List Task} (hq : m.queue = t :: q) :
    (machine threads).run m [.lock i, .test i, .front i, .popFront i, .ret i] = { m with queue := q }.goto i .out := by
  have hset : ∀ p, (m.pcs.set i p)[i]? = some p := hi.elim getElem?_set_at getElem?_set_at
  have hfront : front (t :: q) = .ok t := rfl
  simp only [Machine.run_cons, Machine.run_nil, machine, step, St.goto, hi, hm, hq, hset, hfront, popFront,
    List.set_set, and_self, if_true, reduceCtorEq, if_false]

end Sections

/-- where a thread of the scheduler stands in push_task or process_tasks -/
def pcOf : Scheduler.Pc → Pc
  | .push t => .pushing t
  | .notify => .unlocked
  | .enter => .entered
  | .parked => .parked
  | .woken => .woken
  | _ => .out

/-- a state of the scheduler, between the critical sections -/
def ofScheduler (s : Scheduler.St) : St := ⟨s.pcs.map pcOf, none, s.queue.map Scheduler.Job.task, none⟩

section Refinement

variable {s : Scheduler.St} {i : ℕ} {p q : Scheduler.Pc}

theorem ofScheduler_goto (s : Scheduler.St) (i : ℕ) (p : Scheduler.Pc) :
    ofScheduler (s.goto i p) = (ofScheduler s).goto i (pcOf p) := by
  simp [ofScheduler, Scheduler.St.goto, St.goto, List.map_set]

theorem ofScheduler_get (hi : s.pcs[i]? = some p) : (ofScheduler s).pcs[i]? = some (pcOf p) := by
  simp [ofScheduler, hi]

/-- a thread that moves outside the two functions -/
theorem ofScheduler_same (hi : s.pcs[i]? = some p) (h : pcOf q = pcOf p) :
    ofScheduler (s.goto i q) = ofScheduler s := by
  rw [ofScheduler_goto, h]
  have hi' := ofScheduler_get hi
  obtain ⟨hlt, he⟩ := List.getElem?_eq_some_iff.1 hi'
  simp only [St.goto, ← he, List.set_getElem_self]

/-- no execution of process_tasks is active while a completion handler runs -/
theorem none_inProcess (h : Scheduler.Inv s) {j : Scheduler.Job} {c : ℕ} (hi : s.pcs[i]? = some (.sending j c)) :
    ∀ r ∈ (ofScheduler s).pcs, r.inProcess = false := by
  obtain ⟨⟨x, hx, -⟩, -, -⟩ := h
  have hle : (s.pcs.filterMap Scheduler.Pc.token).length ≤ 1 := by
    have hlen := congrArg List.length hx
    simp only [Scheduler.St.tokens, List.length_append, List.length_singleton] at hlen
    omega
  intro r hr
  obtain ⟨r', hr', rfl⟩ := List.mem_map.1 hr
  obtain ⟨k, hk⟩ := List.mem_iff_getElem?.1 hr'
  have token_of : (pcOf r').inProcess = true → r'.token = some none := by
    cases r' <;> simp [pcOf, Pc.inProcess, Scheduler.Pc.token]
  by_contra hne
  obtain rfl := holders_eq Scheduler.Pc.token hle hk (token_of (by simpa using hne)) hi rfl
  obtain rfl : r' = .sending j c := Option.some.inj (hk.symm.trans hi)
  exact hne rfl

theorem notifyOne_ofScheduler (s : Scheduler.St) (i w : ℕ) :
    ofScheduler (Scheduler.notifyOne s i w) = notifyOne (ofScheduler s) i w := by
  have parked_iff : ∀ r : Scheduler.Pc, pcOf r = .parked ↔ r = .parked := by
    intro r
    cases r <;> simp [pcOf]
  have hw : (ofScheduler s).pcs[w]? = some .parked ↔ s.pcs[w]? = some .parked := by
    rw [ofScheduler, List.getElem?_map, Option.map_eq_some_iff]
    simp [parked_iff]
  have hm : .parked ∈ (ofScheduler s).pcs ↔ .parked ∈ s.pcs := by
    rw [ofScheduler, List.mem_map]
    simp [parked_iff]
  unfold notifyOne Scheduler.notifyOne
  simp only [hw, hm]
  split_ifs
  · rw [ofScheduler_goto, ofScheduler_goto]
    rfl
  · rfl
  · rw [ofScheduler_goto]
    rfl

end Refinement

/-- one step of the scheduler is a run of this machine -/
theorem scheduler_step (threads : ℕ) {s : Scheduler.St} (h : Scheduler.Inv s) (o : Scheduler.Op) :
    ∃ l, ofScheduler (Scheduler.step s o) = (machine threads).run (ofScheduler s) l := by
  have stays : ∀ {i : ℕ} {p q : Scheduler.Pc}, s.pcs[i]? = some p → pcOf q = pcOf p →
      ∃ l, ofScheduler (s.goto i q) = (machine threads).run (ofScheduler s) l :=
    fun hi hq => ⟨[], ofScheduler_same hi hq⟩
  have single : ∀ {t : Scheduler.St} (o' : Op), ofScheduler t = step (ofScheduler s) o' →
      ∃ l, ofScheduler t = (machine threads).run (ofScheduler s) l := fun o' e => ⟨[o'], e⟩
  cases o with
  | post i t =>
    simp only [Scheduler.step]
    split_ifs with hi
    · refine single (.call i t) ?_
      have hi' : (ofScheduler s).pcs[i]? = some .out := ofScheduler_get hi
      rw [ofScheduler_goto, step, if_pos hi', pcOf]
    · exact ⟨[], rfl⟩
  | push i =>
    simp only [Scheduler.step]
    split
    · rename_i t hi
      refine ⟨[.lockPush i, .append i, .unlock i], ?_⟩
      rw [run_push (ofScheduler_get hi) rfl, ofScheduler_goto]
      simp [ofScheduler, Scheduler.pushTask, St.goto, pcOf]
    · exact ⟨[], rfl⟩
  | notify i w =>
    simp only [Scheduler.step]
    split_ifs with hi
    · refine single (.notify i w) ?_
      have hi' : (ofScheduler s).pcs[i]? = some .unlocked := ofScheduler_get hi
      rw [notifyOne_ofScheduler, step, if_pos hi']
    · exact ⟨[], rfl⟩
  | lock i =>
    simp only [Scheduler.step]
    split_ifs with hi
    · have hi' : (ofScheduler s).pcs[i]? = some .entered ∨ (ofScheduler s).pcs[i]? = some .woken :=
        hi.imp ofScheduler_get ofScheduler_get
      cases hq : s.queue with
      | nil =>
        refine ⟨[.lock i, .test i, .wait i], ?_⟩
        rw [run_park hi' rfl (by simp [ofScheduler, hq])]
        simp only [Scheduler.processTasks, hq, ofScheduler_goto, pcOf]
      | cons j q =>
        refine ⟨[.lock i, .test i, .front i, .popFront i, .ret i], ?_⟩
        have hq' : (ofScheduler s).queue = j.task :: q.map Scheduler.Job.task := by simp [ofScheduler, hq]
        have hret : pcOf (Scheduler.ret i) = .out := by
          unfold Scheduler.ret
          split_ifs <;> rfl
        rw [run_take hi' rfl hq']
        simp only [Scheduler.processTasks, hq, ofScheduler_goto, hret]
        rfl
    · exact ⟨[], rfl⟩
  | wake i =>
    simp only [Scheduler.step]
    split_ifs with hi
    · refine single (.wake i) ?_
      have hi' : (ofScheduler s).pcs[i]? = some .parked := ofScheduler_get hi
      rw [ofScheduler_goto, step, if_pos hi', pcOf]
    · exact ⟨[], rfl⟩
  | sent i =>
    simp only [Scheduler.step]
    split
    · rename_i j c hi
      refine single (.process i) ?_
      have hi' : (ofScheduler s).pcs[i]? = some .out := ofScheduler_get hi
      rw [ofScheduler_goto, step, if_pos ⟨hi', none_inProcess h hi⟩, pcOf]
      rfl
    · exact ⟨[], rfl⟩
  | expire k ec =>
    simp only [Scheduler.step]
    split
    · exact ⟨[], rfl⟩
    · exact ⟨[], rfl⟩
  | handle i k =>
    simp only [Scheduler.step]
    split
    · rename_i j ec hi _
      exact ⟨[], (ofScheduler_same (s := { s with ready := s.ready.eraseIdx k }) hi rfl)⟩
    · exact ⟨[], rfl⟩
  | send i c =>
    simp only [Scheduler.step]
    split
    · rename_i j ec hi; exact stays hi rfl
    · exact ⟨[], rfl⟩
  | current i =>
    simp only [Scheduler.step]
    split
    · rename_i q hi; exact stays hi rfl
    · exact ⟨[], rfl⟩
  | respond i =>
    simp only [Scheduler.step]
    split
    · rename_i q c hi; exact stays hi rfl
    · exact ⟨[], rfl⟩
  | _ =>
    simp only [Scheduler.step]
    split_ifs with hi
    · exact stays hi rfl
    · exact ⟨[], rfl⟩

/-- **The scheduler's critical sections are runs of this machine**, so what holds of its reachable states holds of the
scheduler's. -/
theorem scheduler_refines (threads : ℕ) {s : Scheduler.St} (h : (Scheduler.machine threads).Reachable s) :
    (machine threads).Reachable (ofScheduler s) := by
  refine ((Scheduler.machine threads).invariant
    (I := fun s => Scheduler.Inv s ∧ (machine threads).Reachable (ofScheduler s)) ⟨?_, ?_⟩ ?_ h).2
  · exact Scheduler.inv_init threads
  · refine ⟨[], ?_⟩
    simp [ofScheduler, Scheduler.machine, Scheduler.init, machine, init, pcOf]
  · intro s o hso
    obtain ⟨hinv, hreach⟩ := hso
    obtain ⟨l, hl⟩ := scheduler_step threads hinv o
    exact ⟨Scheduler.step_inv s o hinv, hl ▸ hreach.run l⟩

/-- in the scheduler, a parked thread with tasks in the queue has a notification to come -/
theorem scheduler_no_lost_wakeup {threads : ℕ} {s : Scheduler.St} (h : (Scheduler.machine threads).Reachable s)
    (hp : .parked ∈ s.pcs) : s.queue = [] ∨ .notify ∈ s.pcs := by
  have hinv := reachable_inv (scheduler_refines threads h)
  rcases hinv.wake (List.mem_map.2 ⟨_, hp, rfl⟩) with hq | ⟨p, hm, ho⟩
  · exact Or.inl (by simpa [ofScheduler] using hq)
  · obtain ⟨r, hr, rfl⟩ := List.mem_map.1 hm
    refine Or.inr ?_
    have hnotify : r = .notify := by cases r <;> simp [pcOf, Pc.owes] at ho ⊢
    exact hnotify ▸ hr

end Gss.Monitor
