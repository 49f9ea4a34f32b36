/-
shared_state::send(id, message) under interleaving: the loop over sessions_, then the lock of the one weak pointer it
left, then the post.

An `Execution` is a whole call. It starts in any reachable state and walks sessions_ in any order; any operations of the
other threads (joins, hellos, destructions, other calls) run before the weak pointer is locked and until the call has
returned.

- `posted_once_iff`: the message is posted to exactly one live session with the id exactly when the LAST session with
  the id in the walk can still be locked. The loop overwrites its weak pointer at every session with the id, so all but
  the last are forgotten.
- `reconnect_loses_update`: a client has reconnected while its old session is being destroyed, and the walk meets the
  old session last. The update is posted to nobody, though the new session is in sessions_ and alive throughout.
-/
import Gss.Server.Broadcast

namespace Gss.Sessions

open Gss.Core

/-! ## The loop -/

/-- the sessions with the id, in the order of the walk -/
def St.named (s : St) (id : String) (order : List Addr) : List Sid :=
  (order.filterMap s.objAt).filter fun j => s.objs[j]?.map Session.uid = some id

/-- the loop leaves the last session with the id -/
theorem lastMatch_eq (s : St) (id : String) (order : List Addr) :
    s.lastMatch id order = (s.named id order).getLast? := by
  induction order using List.reverseRecOn with
  | nil => rfl
  | append_singleton l a ih =>
    cases ha : s.objAt a with
    | none =>
      have hl : s.lastMatch id (l ++ [a]) = s.lastMatch id l := by
        simp only [St.lastMatch, List.foldl_append, List.foldl_cons, List.foldl_nil, ha]
      have hn : s.named id (l ++ [a]) = s.named id l := by
        rw [St.named, List.filterMap_append, List.filterMap_cons_none ha, List.filterMap_nil, List.append_nil]
        rfl
      rw [hl, hn, ih]
    | some j =>
      have hl : s.lastMatch id (l ++ [a]) =
          if s.objs[j]?.map Session.uid = some id then some j else s.lastMatch id l := by
        simp only [St.lastMatch, List.foldl_append, List.foldl_cons, List.foldl_nil, ha]
      have hf : s.named id (l ++ [a]) =
          s.named id l ++ [j].filter fun j => s.objs[j]?.map Session.uid = some id := by
        rw [St.named, List.filterMap_append, List.filter_append, List.filterMap_cons_some ha, List.filterMap_nil]
        rfl
      rw [hl, hf]
      split_ifs with hj
      · rw [List.filter_cons_of_pos (by simpa only [decide_eq_true_eq] using hj), List.filter_nil, List.getLast?_concat]
      · rw [List.filter_cons_of_neg (by simpa only [decide_eq_true_eq] using hj), List.filter_nil, List.append_nil, ih]

/-! ## The call's way through its program counters -/

theorem callPc_of {s : St} {c : CallId} {y : Call} (h : s.calls[c]? = some y) : s.callPc c = some y.pc := by
  simp [St.callPc, h]

/-- nothing moves once an exception has ended the process -/
theorem step_down {lib : Nlohmann} {s : St} (h : s.down = true) (o : Op) : step lib s o = s := if_pos h

theorem run_down {lib : Nlohmann} {s : St} (h : s.down = true) (ops : List Op) : (machine lib).run s ops = s :=
  (machine lib).run_invariant (I := fun t => t = s) (fun t o ht => by rw [ht]; exact step_down h o) rfl ops

/-- past the lock of the weak pointer -/
def CallPc.pastLock : CallPc → Bool
  | .locked _ | .posted _ | .returned => true
  | _ => false

/-- the weak pointer does not change between the loop and the lock -/
theorem found_run {lib : Nlohmann} {s : St} {c : CallId} {w : Option Sid} (h : s.callPc c = some (.found w))
    (ops : List Op) {w' : Option Sid} (h' : ((machine lib).run s ops).callPc c = some (.found w')) : w' = w := by
  obtain ⟨y, hy, hp⟩ : ∃ y, ((machine lib).run s ops).calls[c]? = some y ∧
      (y.pc = .found w ∨ y.pc.pastLock = true) := by
    refine (machine lib).run_invariant
      (I := fun t => ∃ y, t.calls[c]? = some y ∧ (y.pc = .found w ∨ y.pc.pastLock = true))
      (fun t o ⟨y, hy, hp⟩ => ?_) ?_ ops
    · obtain ⟨z, hz, hd⟩ := call_does (step_does lib t o) hy
      refine ⟨z, hz, ?_⟩
      cases hd with
      | stays => exact hp
      | lookup order hc => rw [hc] at hp; rcases hp with hp | hp <;> cases hp
      | _ => exact Or.inr rfl
    · obtain ⟨y, hy, hp⟩ := Option.map_eq_some_iff.1 h
      exact ⟨y, hy, Or.inl hp⟩
  rw [callPc_of hy, Option.some.injEq] at h'
  rw [h'] at hp
  rcases hp with hp | hp
  · exact CallPc.found.inj hp
  · cases hp

/-- a session a call has locked is alive -/
theorem locked_alive {s : St} {c : CallId} {r : Sid} (h : s.callPc c = some (.locked r)) (hr : r < s.objs.length) :
    Alive s r := by
  obtain ⟨y, hy, hp⟩ := Option.map_eq_some_iff.1 h
  have hc : 0 < s.calls.countP fun y => y.pc.holds r :=
    List.countP_pos_iff.2 ⟨y, List.mem_of_getElem? hy, by rw [hp]; exact decide_eq_true rfl⟩
  unfold Alive St.useCount
  rw [List.getElem?_eq_getElem hr]
  exact Nat.lt_of_lt_of_le hc (Nat.le_add_left ..)

theorem length_does {lib : Nlohmann} {s s' : St} {o : Op} (h : Does lib s o s') : s.objs.length ≤ s'.objs.length := by
  cases h <;> simp [St.modify, St.setReader, St.setCall, St.postTo]

theorem length_run {lib : Nlohmann} (s : St) (ops : List Op) : s.objs.length ≤ ((machine lib).run s ops).objs.length :=
  (machine lib).run_invariant (I := fun t => s.objs.length ≤ t.objs.length)
    (fun t o ht => ht.trans (length_does (step_does lib t o))) le_rfl ops

/-- what the call has locked stays locked until the message is posted to it -/
theorem locked_run {lib : Nlohmann} {s : St} {c : CallId} {r : Sid} (h : s.callPc c = some (.locked r))
    (hr : r < s.objs.length) (ops : List Op) :
    ((machine lib).run s ops).callPc c = some (.locked r) ∨ Got ((machine lib).run s ops) (.update c) r := by
  refine ((machine lib).run_invariant (I := fun t => r < t.objs.length ∧
    (t.callPc c = some (.locked r) ∨ Got t (.update c) r)) (fun t o ⟨hl, ht⟩ => ?_) ⟨hr, Or.inl h⟩ ops).2
  have hdoes := step_does lib t o
  refine ⟨hl.trans_le (length_does hdoes), ?_⟩
  rcases ht with ht | ht
  · obtain ⟨y, hy, hp⟩ := Option.map_eq_some_iff.1 ht
    obtain ⟨z, hz, hd⟩ := call_does hdoes hy
    have hs : Multicast.Served (.call c) 0 r t.abs :=
      Or.inl ⟨y.text, [r], by rw [abs_pc_call hy, Call.mpc, hp], by simp⟩
    rcases served_does hdoes hs (locked_alive ht hl) with ⟨text, todo, hpc, hm⟩ | hg
    · left
      rw [abs_pc_call hz] at hpc
      show (step lib t o).callPc c = _
      rw [callPc_of hz]
      cases hd with
      | stays => rw [hp]
      | post r' hp' => rw [Call.mpc] at hpc; cases hpc; cases hm
      | lookup order hp' => rw [hp] at hp'; cases hp'
      | lockOk r' hp' => rw [hp] at hp'; cases hp'
      | lockFail r' hp' => rw [hp] at hp'; cases hp'
      | lockNone hp' => rw [hp] at hp'; cases hp'
      | ends r' hp' => rw [hp] at hp'; cases hp'
    · exact Or.inr hg
  · exact Or.inr (got_run ht [o])

/-! ## A whole call -/

/-- what happens around a call: the operations before it, the order of the walk, the operations before the weak pointer
is locked, and those from then on -/
structure Schedule where
  before : List Op
  order : List Addr
  waiting : List Op
  rest : List Op

def Schedule.atLookup (x : Schedule) (lib : Nlohmann) : St := (machine lib).run init x.before

def Schedule.afterLookup (x : Schedule) (lib : Nlohmann) (c : CallId) : St :=
  step lib (x.atLookup lib) (.lookup c x.order)

def Schedule.atLock (x : Schedule) (lib : Nlohmann) (c : CallId) : St :=
  (machine lib).run (x.afterLookup lib c) x.waiting

def Schedule.afterLock (x : Schedule) (lib : Nlohmann) (c : CallId) : St := step lib (x.atLock lib c) (.lockCall c)

def Schedule.atEnd (x : Schedule) (lib : Nlohmann) (c : CallId) : St := (machine lib).run (x.afterLock lib c) x.rest

/-- call c of send(id, message), from its lookup until it has returned -/
structure Execution (lib : Nlohmann) (c : CallId) extends Schedule where
  call : Call
  called : (toSchedule.atLookup lib).calls[c]? = some call
  fresh : call.pc = .called
  walk : Enumerates order (toSchedule.atLookup lib).table
  found : ∃ w, (toSchedule.atLock lib c).callPc c = some (.found w)
  returned : (toSchedule.atEnd lib c).callPc c = some .returned

namespace Execution

variable {lib : Nlohmann} {c : CallId}

/-- the sessions in sessions_ whose uid() is the id at the lookup, as the walk meets them -/
def named (x : Execution lib c) : List Sid := (x.atLookup lib).named x.call.id x.order

/-- one of them stays alive until the call has returned -/
def SomeoneStays (x : Execution lib c) : Prop :=
  ∃ r ∈ x.named, ∀ s ∈ (machine lib).visited (x.atLookup lib) (.lookup c x.order :: x.waiting ++ .lockCall c :: x.rest),
    Alive s r

/-- the message is posted to one of them, once, while it is alive, and to nobody else -/
def PostedOnce (x : Execution lib c) : Prop :=
  ∃ r ∈ x.named, (∀ a, a <+: x.rest → ((machine lib).run (x.afterLock lib c) a).callPc c = some (.locked r) →
      Alive ((machine lib).run (x.afterLock lib c) a) r) ∧
    (∀ o, (x.atEnd lib c).objs[r]? = some o → ⟨.update c, x.call.text⟩ ∈ o.posted) ∧
    ∀ j, (x.atEnd lib c).copies (.update c) j = if j = r then 1 else 0

/-! ## When the message arrives -/

theorem reachable_atLookup (x : Execution lib c) : (machine lib).Reachable (x.atLookup lib) :=
  (machine lib).reachable_run x.before

theorem reachable_atLock (x : Execution lib c) : (machine lib).Reachable (x.atLock lib c) :=
  (x.reachable_atLookup.step (.lookup c x.order)).run x.waiting

theorem reachable_atEnd (x : Execution lib c) : (machine lib).Reachable (x.atEnd lib c) :=
  (x.reachable_atLock.step (.lockCall c)).run x.rest

theorem up (x : Execution lib c) : (x.atLookup lib).down = false := by
  by_contra hd
  have hd : (x.atLookup lib).down = true := by simpa using hd
  have hr := x.returned
  simp only [Schedule.atEnd, Schedule.afterLock, Schedule.atLock, Schedule.afterLookup, step_down hd, run_down hd] at hr
  rw [callPc_of x.called, x.fresh] at hr
  cases hr

theorem up_atLock (x : Execution lib c) : (x.atLock lib c).down = false := by
  by_contra hd
  have hd : (x.atLock lib c).down = true := by simpa using hd
  obtain ⟨w, hw⟩ := x.found
  have hr := x.returned
  simp only [Schedule.atEnd, Schedule.afterLock, step_down hd, run_down hd, hw] at hr
  cases hr

theorem named_lt (x : Execution lib c) {r : Sid} (hr : r ∈ x.named) : r < (x.atLookup lib).objs.length := by
  have huid := (List.mem_filter.1 hr).2
  by_contra hlt
  rw [List.getElem?_eq_none (Nat.le_of_not_lt hlt)] at huid
  simp at huid

theorem lt_afterLock (x : Execution lib c) {r : Sid} (hr : r ∈ x.named) : r < (x.afterLock lib c).objs.length :=
  calc
    r < (x.atLookup lib).objs.length := x.named_lt hr
    _ ≤ (x.afterLookup lib c).objs.length := length_run _ [.lookup c x.order]
    _ ≤ (x.atLock lib c).objs.length := length_run _ x.waiting
    _ ≤ (x.afterLock lib c).objs.length := length_run _ [.lockCall c]

/-- the loop leaves the last session with the id; the message is on its way to that one only -/
theorem afterLookup_spec (x : Execution lib c) :
    (x.afterLookup lib c).callPc c = some (.found x.named.getLast?) ∧
      (x.afterLookup lib c).abs =
        (x.atLookup lib).abs.goto (.call c) (.walk 0 x.call.text x.named.getLast?.toList) := by
  have he : x.afterLookup lib c = { x.atLookup lib with
      calls := (x.atLookup lib).calls.modify c fun y => { y with
        pc := .found x.named.getLast?
        seen := (((x.named.getLast?).bind fun j => (x.atLookup lib).objs[j]?).map Session.hellos).getD [] } } := by
    rw [Schedule.afterLookup, step, if_neg (by simp [x.up])]
    simp only [act, x.called, x.fresh, x.walk, and_self, if_true, lastMatch_eq]
    rfl
  rw [he]
  exact ⟨by simp [St.callPc, x.called], abs_setCall x.called _ rfl⟩

theorem atLock_callPc (x : Execution lib c) : (x.atLock lib c).callPc c = some (.found x.named.getLast?) := by
  obtain ⟨w, hw⟩ := x.found
  rw [hw, found_run x.afterLookup_spec.1 x.waiting hw]

theorem confined_run (x : Execution lib c) (ops : List Op) :
    Multicast.Confined (.call c) 0 x.named.getLast?.toList ((machine lib).run (x.afterLookup lib c) ops).abs := by
  have hpc : (x.atLookup lib).abs.pc (.call c) = .start 0 x.call.text := by
    rw [abs_pc_call x.called, Call.mpc, x.fresh]
  refine run_multicast (I := fun m => Multicast.Confined (Sender.call c) 0 x.named.getLast?.toList m)
    (fun m o hm => Multicast.confined_step hm o) ?_ ops
  rw [x.afterLookup_spec.2]
  exact Multicast.confined_snap (Multicast.reachable_inv (reachable_abs x.reachable_atLookup)) hpc

theorem confined (x : Execution lib c) :
    Multicast.Confined (.call c) 0 x.named.getLast?.toList (x.atLock lib c).abs := x.confined_run x.waiting

theorem confined_atEnd (x : Execution lib c) :
    Multicast.Confined (.call c) 0 x.named.getLast?.toList (x.atEnd lib c).abs := by
  have h := x.confined_run (x.waiting ++ .lockCall c :: x.rest)
  rwa [Machine.run_append] at h

/-- before the weak pointer is locked the message is nowhere -/
theorem nobody_atLock (x : Execution lib c) (j : Sid) : ¬ Got (x.atLock lib c) (.update c) j := by
  rintro ⟨e, he, hs, hk⟩
  have hj := x.confined.has j ⟨e, he, hs, hk⟩
  obtain ⟨y, hy, hp⟩ := Option.map_eq_some_iff.1 x.atLock_callPc
  have hpc : (x.atLock lib c).abs.pc (.call c) = .walk 0 y.text x.named.getLast?.toList := by
    rw [abs_pc_call hy, Call.mpc, hp]
  have hinv := Multicast.reachable_inv (reachable_abs x.reachable_atLock)
  exact absurd (hinv.ahead (.call c) 0 y.text (by rw [hpc]; rfl) j (by rw [hpc]; exact hj) e he hs) (Nat.not_lt_zero _)

/-- the last session with the id cannot be locked, or there is none: the message goes to nobody -/
theorem missed (x : Execution lib c) (h : ∀ r, x.named.getLast? = some r → ¬ Alive (x.atLock lib c) r) (j : Sid) :
    ¬ Got (x.atEnd lib c) (.update c) j := by
  have he : x.afterLock lib c = (x.atLock lib c).setCall c .returned := by
    rw [Schedule.afterLock, step, if_neg (by simp [x.up_atLock])]
    simp only [act, x.atLock_callPc]
    cases hr : x.named.getLast? with
    | none => rfl
    | some r => simp only [h r hr, if_false]
  obtain ⟨y, hy, -⟩ := Option.map_eq_some_iff.1 x.atLock_callPc
  have habs : (x.afterLock lib c).abs = (x.atLock lib c).abs.goto (.call c) .idle := by
    rw [he, St.setCall, abs_setCall hy _ rfl]
    rfl
  have hdone : Multicast.Done (.call c) 0 (x.afterLock lib c).abs := by
    rw [habs]
    exact ⟨x.confined.sent, by simp [Multicast.Pc.carries]⟩
  refine (run_multicast (I := fun m => Multicast.Done (Sender.call c) 0 m ∧ ¬ Multicast.Has m (.call c) 0 j)
    (fun m o hm => ⟨(Multicast.done_step hm.1 o).1, fun hg => hm.2 (((Multicast.done_step hm.1 o).2 j).1 hg)⟩)
    ⟨hdone, ?_⟩ x.rest).2
  rw [habs]
  exact x.nobody_atLock j

/-- the last session with the id is locked: the message is posted to it and to nobody else -/
theorem reached (x : Execution lib c) {r : Sid} (hr : x.named.getLast? = some r) (ha : Alive (x.atLock lib c) r) :
    (x.afterLock lib c).callPc c = some (.locked r) ∧ ∀ j, Got (x.atEnd lib c) (.update c) j ↔ j = r := by
  have he : x.afterLock lib c = (x.atLock lib c).setCall c (.locked r) := by
    rw [Schedule.afterLock, step, if_neg (by simp [x.up_atLock])]
    simp only [act, x.atLock_callPc, hr, ha, if_true]
  obtain ⟨y, hy, -⟩ := Option.map_eq_some_iff.1 x.atLock_callPc
  have hpc : (x.afterLock lib c).callPc c = some (.locked r) := by
    rw [he]
    simp [St.setCall, St.callPc, hy]
  refine ⟨hpc, fun j => ⟨fun hj => ?_, fun hj => ?_⟩⟩
  · have := x.confined_atEnd.has j hj
    rwa [hr, Option.toList_some, List.mem_singleton] at this
  · subst hj
    rcases locked_run hpc (x.lt_afterLock (List.mem_of_getLast? hr)) x.rest with hl | hg
    · have hret := x.returned
      rw [Schedule.atEnd, hl] at hret
      cases hret
    · exact hg

/-- **When a targeted send arrives.** Exactly when the last session with the id in the walk can still be locked. -/
theorem posted_once_iff (x : Execution lib c) :
    x.PostedOnce ↔ ∃ r, x.named.getLast? = some r ∧ Alive (x.atLock lib c) r := by
  constructor
  · rintro ⟨r, -, -, -, hone⟩
    by_contra hnone
    push Not at hnone
    rcases copies_eq x.reachable_atEnd (.update c) r with ⟨-, hg⟩ | ⟨h0, -⟩
    · exact x.missed hnone r hg
    · rw [hone r, if_pos rfl] at h0
      cases h0
  · rintro ⟨r, hr, ha⟩
    obtain ⟨hpc, hgot⟩ := x.reached hr ha
    have hmem := List.mem_of_getLast? hr
    refine ⟨r, hmem, ?_, ?_, ?_⟩
    · intro a _ hl
      exact locked_alive hl ((x.lt_afterLock hmem).trans_le (length_run _ a))
    · intro o ho
      have hsent : ((x.atLookup lib).abs.sent (.call c))[0]? = some x.call.text := by simp [St.abs, x.called]
      have hend : ((x.atEnd lib c).abs.sent (.call c))[0]? = some x.call.text :=
        sent_run (sent_run (sent_run (sent_run hsent [.lookup c x.order]) x.waiting) [.lockCall c]) x.rest
      exact got_mem x.reachable_atEnd ho ((hgot r).2 rfl) hend
    · intro j
      rcases copies_eq x.reachable_atEnd (.update c) j with ⟨hc, hg⟩ | ⟨hc, hg⟩
      · rw [hc, if_pos ((hgot j).1 hg)]
      · rw [hc, if_neg fun hj => hg ((hgot j).2 hj)]

end Execution

/-! ## A reconnect -/

def helloAnn : Bytes := bytes "\x7b\"type\":\"hello\",\"name\":\"ann\"\x7d"

def annLib : Nlohmann := .table [(helloAnn, .object [("name", .string "ann"), ("type", .string "hello")])] []

/-- session 0 says hello as ann, its message is written to it, and its connection is closed; nothing owns it any more,
but its destructor has not run. Session 1 says hello as ann. An update for ann is sent. -/
def reconnect : Schedule where
  before := [.create 0, .accept 0 false, .read 0 (some helloAnn), .snapshot 0 [0], .lock 0, .post 0, .release 0,
    .finish 0, .onSend 0, .onWrite 0 0 false, .read 0 none, .create 1, .accept 1 false, .read 1 (some helloAnn),
    .call "ann" (bytes "update")]
  order := [1, 0]
  waiting := []
  rest := []

def reconnectRun : Execution annLib 0 where
  toSchedule := reconnect
  call := ⟨"ann", bytes "update", .called, []⟩
  called := by decide +kernel
  fresh := rfl
  walk := by decide +kernel
  found := ⟨some 0, by decide +kernel⟩
  returned := by decide +kernel

/-- **An update is lost though its assignee is connected.** -/
theorem reconnect_loses_update : reconnectRun.SomeoneStays ∧ ¬ reconnectRun.PostedOnce := by
  have hn : reconnectRun.named = [1, 0] := by decide +kernel
  refine ⟨⟨1, by simp [hn], by decide +kernel⟩, ?_⟩
  rintro ⟨r, hr, -, -, hone⟩
  have none : ∀ j ∈ [1, 0], (reconnectRun.atEnd annLib 0).copies (.update 0) j = 0 := by decide +kernel
  have h0 := none r (hn ▸ hr)
  rw [hone r, if_pos rfl] at h0
  cases h0

/-- the same sessions, met in the other order -/
def reconnectOther : Schedule := { reconnect with order := [0, 1], rest := [.postCall 0, .returnCall 0] }

def reconnectOtherRun : Execution annLib 0 where
  toSchedule := reconnectOther
  call := ⟨"ann", bytes "update", .called, []⟩
  called := by decide +kernel
  fresh := rfl
  walk := by decide +kernel
  found := ⟨some 1, by decide +kernel⟩
  returned := by decide +kernel

theorem reconnectOther_posts : reconnectOtherRun.PostedOnce :=
  reconnectOtherRun.posted_once_iff.2 ⟨1, by decide +kernel, by decide +kernel⟩

end Gss.Sessions
