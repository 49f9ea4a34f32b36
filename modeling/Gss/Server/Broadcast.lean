/-
The sessions as an ordered multicast: how every message, of a broadcast and of a targeted send alike, travels from its
sender to the strands and write queues of its receivers.

The senders are the sessions (their messages are what they broadcast) and the calls of send(id, message) (one message
each, for at most one receiver); the receivers are the sessions. A receiver's inbox is what its queue_ has accepted and
then what is posted to its strand.

- `proj`: the sessions machine projects onto the multicast machine, step by step and with no side condition.
- `broadcast_fifo`: what a session hands to async_write of another's messages is an ordered selection of what that one
  received; a session that is in sessions_ at the snapshot and alive until the broadcast ends gets the message once, in
  its queue_ or among the strings already written from there.
-/
import Gss.Core.Multicast
import Gss.Server.Sessions

namespace Gss.Sessions

open Gss.Core

/-! ## The projection -/

inductive Sender where
  | session (i : Sid)
  | call (c : CallId)
deriving DecidableEq, Repr

abbrev MSt := Multicast.St Sender Sid Bytes

abbrev MOp := Multicast.Op Sender Sid Bytes

/-- everything posted to the session so far, in order -/
def Session.posted (o : Session) : List Msg := o.out.accepted ++ o.strand

/-- the sender and the number of its message -/
def Origin.key : Origin → Sender × ℕ
  | .chat i k => (.session i, k)
  | .update c => (.call c, 0)

def Msg.entry (m : Msg) : Multicast.Entry Sender Bytes := ⟨m.origin.key.1, m.origin.key.2, m.text⟩

def Reader.pc : Reader → Multicast.Pc Sid Bytes
  | .accepting | .reading | .stopped => .idle
  | .parsed k text => .start k text
  | .walking k text todo => .walk k text todo
  | .locked k text r todo => .walk k text (r :: todo)
  | .posted k text _ todo => .walk k text todo

def Call.mpc (x : Call) : Multicast.Pc Sid Bytes :=
  match x.pc with
  | .called => .start 0 x.text
  | .found session => .walk 0 x.text session.toList
  | .locked r => .walk 0 x.text [r]
  | .posted _ => .walk 0 x.text []
  | .returned => .idle

def St.abs (s : St) : MSt where
  sent
    | .session i => (s.objs[i]?.map Session.said).getD []
    | .call c => (s.calls[c]?.map fun x => [x.text]).getD []
  pc
    | .session i => (s.objs[i]?.map fun o => o.reader.pc).getD .idle
    | .call c => (s.calls[c]?.map Call.mpc).getD .idle
  inbox r := (s.objs[r]?.map fun o => o.posted.map Msg.entry).getD []

/-! ## How the parts of a step project -/

theorem abs_modify {s : St} {i : Sid} {o : Session} (hi : s.objs[i]? = some o) (f : Session → Session) :
    (s.modify i f).abs =
      ⟨Function.update s.abs.sent (.session i) (f o).said, Function.update s.abs.pc (.session i) (f o).reader.pc,
        Function.update s.abs.inbox i ((f o).posted.map Msg.entry)⟩ := by
  have get : ∀ j, (s.objs.modify i f)[j]? = if j = i then some (f o) else s.objs[j]? := by
    intro j
    rw [List.getElem?_modify]
    by_cases hj : j = i
    · subst hj; simp [hi]
    · simp [hj, Ne.symm hj]
  simp only [St.abs, St.modify, Multicast.St.mk.injEq]
  refine ⟨funext ?_, funext ?_, funext ?_⟩
  · intro a
    cases a with
    | session j =>
      by_cases hj : j = i
      · subst hj; simp [get]
      · rw [Function.update_of_ne (by simpa using hj)]; simp [get, hj]
    | call c => rw [Function.update_of_ne (by simp)]
  · intro a
    cases a with
    | session j =>
      by_cases hj : j = i
      · subst hj; simp [get]
      · rw [Function.update_of_ne (by simpa using hj)]; simp [get, hj]
    | call c => rw [Function.update_of_ne (by simp)]
  · intro r
    by_cases hj : r = i
    · subst hj; simp [get]
    · rw [Function.update_of_ne hj]; simp [get, hj]

/-- a session whose messages, program counter and inbox stay -/
theorem abs_modify_same {s : St} {i : Sid} {o : Session} (hi : s.objs[i]? = some o) {f : Session → Session}
    (h1 : (f o).said = o.said) (h2 : (f o).reader.pc = o.reader.pc) (h3 : (f o).posted = o.posted) :
    (s.modify i f).abs = s.abs := by
  rw [abs_modify hi, h1, h2, h3]
  have e1 : o.said = s.abs.sent (.session i) := by simp [St.abs, hi]
  have e2 : o.reader.pc = s.abs.pc (.session i) := by simp [St.abs, hi]
  have e3 : o.posted.map Msg.entry = s.abs.inbox i := by simp [St.abs, hi]
  rw [e1, e2, e3]
  simp only [Function.update_eq_self]

/-- a session whose messages and inbox stay -/
theorem abs_modify_pc {s : St} {i : Sid} {o : Session} (hi : s.objs[i]? = some o) {f : Session → Session}
    (h1 : (f o).said = o.said) (h3 : (f o).posted = o.posted) :
    (s.modify i f).abs = s.abs.goto (.session i) (f o).reader.pc := by
  rw [abs_modify hi, h1, h3]
  have e1 : o.said = s.abs.sent (.session i) := by simp [St.abs, hi]
  have e3 : o.posted.map Msg.entry = s.abs.inbox i := by simp [St.abs, hi]
  rw [e1, e3]
  simp only [Function.update_eq_self, Multicast.St.goto]

theorem abs_setReader {s : St} {i : Sid} {p : Reader} (hi : s.reader i = some p) (q : Reader) :
    (s.setReader i q).abs = s.abs.goto (.session i) q.pc := by
  obtain ⟨o, ho, -⟩ := Option.map_eq_some_iff.1 hi
  exact abs_modify_pc ho rfl rfl

theorem abs_setReader_same {s : St} {i : Sid} {p q : Reader} (hi : s.reader i = some p) (hq : q.pc = p.pc) :
    (s.setReader i q).abs = s.abs := by
  obtain ⟨o, ho, rfl⟩ := Option.map_eq_some_iff.1 hi
  exact abs_modify_same ho rfl hq rfl

theorem abs_pc {s : St} {i : Sid} {p : Reader} (hi : s.reader i = some p) : s.abs.pc (.session i) = p.pc := by
  obtain ⟨o, ho, rfl⟩ := Option.map_eq_some_iff.1 hi
  simp [St.abs, ho]

theorem abs_pc_call {s : St} {c : CallId} {x : Call} (hc : s.calls[c]? = some x) : s.abs.pc (.call c) = x.mpc := by
  simp [St.abs, hc]

theorem abs_postTo {s : St} {r : Sid} (hr : r < s.objs.length) (m : Msg) :
    (s.postTo r m).abs = s.abs.put r m.entry := by
  have ho := List.getElem?_eq_getElem hr
  rw [St.postTo, abs_modify ho]
  have e1 : (s.objs[r]).said = s.abs.sent (.session r) := by simp [St.abs, ho]
  have e2 : (s.objs[r]).reader.pc = s.abs.pc (.session r) := by simp [St.abs, ho]
  have e3 : (s.objs[r]).posted.map Msg.entry = s.abs.inbox r := by simp [St.abs, ho]
  simp only [Session.posted] at e3 ⊢
  simp only [e1, e2, Function.update_eq_self, Multicast.St.put, ← e3]
  simp

theorem abs_setCall {s : St} {c : CallId} {x : Call} (hc : s.calls[c]? = some x) (f : Call → Call)
    (ht : (f x).text = x.text) :
    ({ s with calls := s.calls.modify c f } : St).abs = s.abs.goto (.call c) (f x).mpc := by
  have get : ∀ d, (s.calls.modify c f)[d]? = if d = c then some (f x) else s.calls[d]? := by
    intro d
    rw [List.getElem?_modify]
    by_cases hd : d = c
    · subst hd; simp [hc]
    · simp [hd, Ne.symm hd]
  refine Multicast.St.ext (funext ?_) (funext ?_) rfl
  · intro a
    cases a with
    | session j => rfl
    | call d =>
      by_cases hd : d = c
      · subst hd; simp [St.abs, Multicast.St.goto, get, hc, ht]
      · simp [St.abs, Multicast.St.goto, get, hd]
  · intro a
    cases a with
    | session j => simp [St.abs, Multicast.St.goto]
    | call d =>
      by_cases hd : d = c
      · subst hd; simp [St.abs, Multicast.St.goto, get]
      · simp [St.abs, Multicast.St.goto, get, hd]

theorem abs_call (s : St) (id : String) (text : Bytes) :
    ({ s with calls := s.calls ++ [⟨id, text, .called, []⟩] } : St).abs =
      Multicast.step s.abs (.begin (.call s.calls.length) text) := by
  have h1 : s.abs.pc (.call s.calls.length) = .idle := by simp [St.abs]
  have h2 : s.abs.sent (.call s.calls.length) = [] := by simp [St.abs]
  have get : ∀ d, d ≠ s.calls.length → (s.calls ++ [(⟨id, text, .called, []⟩ : Call)])[d]? = s.calls[d]? := by
    intro d hd
    rcases Nat.lt_or_gt_of_ne hd with h | h
    · exact List.getElem?_append_left h
    · rw [List.getElem?_eq_none (by simp; omega), List.getElem?_eq_none (by omega)]
  simp only [Multicast.step, h1, h2, List.nil_append, List.length_nil]
  refine Multicast.St.ext (funext ?_) (funext ?_) rfl
  · intro a
    cases a with
    | session j => simp [St.abs, Multicast.St.goto]
    | call d =>
      by_cases hd : d = s.calls.length
      · subst hd; simp [St.abs, Multicast.St.goto]
      · simp [St.abs, Multicast.St.goto, get d hd, hd]
  · intro a
    cases a with
    | session j => simp [St.abs, Multicast.St.goto]
    | call d =>
      by_cases hd : d = s.calls.length
      · subst hd; simp [St.abs, Multicast.St.goto, Call.mpc]
      · simp [St.abs, Multicast.St.goto, get d hd, hd]

theorem abs_create (s : St) (a : Addr) : ({ s with objs := s.objs ++ [Session.make a] } : St).abs = s.abs := by
  have get : ∀ j, (s.objs ++ [Session.make a])[j]? = s.objs[j]? ∨
      (j = s.objs.length ∧ (s.objs ++ [Session.make a])[j]? = some (Session.make a) ∧ s.objs[j]? = none) := by
    intro j
    rcases Nat.lt_trichotomy j s.objs.length with h | h | h
    · exact Or.inl (List.getElem?_append_left h)
    · subst h; right; simp
    · left; rw [List.getElem?_eq_none (by simp; omega), List.getElem?_eq_none (by omega)]
  refine Multicast.St.ext (funext ?_) (funext ?_) (funext ?_)
  · intro x
    cases x with
    | session j =>
      rcases get j with h | ⟨-, h1, h2⟩
      · simp only [St.abs, h]
      · simp only [St.abs, h1, h2]; rfl
    | call c => rfl
  · intro x
    cases x with
    | session j =>
      rcases get j with h | ⟨-, h1, h2⟩
      · simp only [St.abs, h]
      · simp only [St.abs, h1, h2]; rfl
    | call c => rfl
  · intro r
    rcases get r with h | ⟨-, h1, h2⟩
    · simp only [St.abs, h]
    · simp only [St.abs, h1, h2]; rfl

/-! ## The simulation -/

/-- the multicast machine of the sessions -/
abbrev M := Multicast.machine Sender Sid Bytes

/-- the operations l do not skip a receiver that is alive in s -/
def SkipsDeadOnly (s : St) (l : List MOp) : Prop :=
  ∀ a r, Alive s r → M.Along (fun x o => ¬ Multicast.Skips x a r o) s.abs l

theorem skipsDeadOnly_single {s : St} {x : MOp} (h : ∀ a, x ≠ .skip a) : SkipsDeadOnly s [x] :=
  fun a _ _ => ⟨fun hs => h a hs.1, trivial⟩

/-- **Each step of the sessions is a run of the multicast**, which skips only receivers that are not alive. -/
theorem abs_does {lib : Nlohmann} {s s' : St} {o : Op} (h : Does lib s o s') :
    ∃ l, s'.abs = M.run s.abs l ∧ SkipsDeadOnly s l := by
  have quiet : s'.abs = s.abs → ∃ l, s'.abs = M.run s.abs l ∧ SkipsDeadOnly s l :=
    fun he => ⟨[], he, fun _ _ _ => trivial⟩
  have single : ∀ x : MOp, (∀ a, x ≠ .skip a) → s'.abs = Multicast.step s.abs x →
      ∃ l, s'.abs = M.run s.abs l ∧ SkipsDeadOnly s l :=
    fun x hx he => ⟨[x], he, skipsDeadOnly_single hx⟩
  cases h with
  | idle => exact quiet rfl
  | create a h => exact quiet (abs_create s a)
  | acceptOk i o h hr =>
    refine quiet (abs_modify_same (f := fun o => { o with reader := .reading, joined := true }) h rfl ?_ rfl)
    rw [hr]; rfl
  | acceptFail i h => exact quiet (abs_setReader_same h rfl)
  | readFail i h => exact quiet (abs_setReader_same h rfl)
  | readThrow i o payload e h hr hj => exact quiet (abs_modify_same h rfl rfl rfl)
  | readOk i o payload hello h hr hj =>
    refine single (.begin (.session i) (o.buffer ++ payload)) (fun _ => by simp) ?_
    have hpc : s.abs.pc (.session i) = .idle := by rw [abs_pc (p := .reading) (by simp [St.reader, h, hr])]; rfl
    have hsaid : s.abs.sent (.session i) = o.said := by simp [St.abs, h]
    have hin : s.abs.inbox i = o.posted.map Msg.entry := by simp [St.abs, h]
    rw [abs_modify h]
    simp only [Multicast.step, hpc, hsaid, Multicast.St.goto]
    refine Multicast.St.ext rfl rfl ?_
    show Function.update s.abs.inbox i (o.posted.map Msg.entry) = s.abs.inbox
    rw [← hin, Function.update_eq_self]
  | snapshot i k text order h he =>
    refine single (.snap (.session i) (order.filterMap s.objAt)) (fun _ => by simp) ?_
    rw [abs_setReader h]
    simp only [Multicast.step, abs_pc h, Reader.pc, targets_nodup he.1, if_true]
  | lockOk i k text r todo h ha => exact quiet (abs_setReader_same h rfl)
  | lockFail i k text r todo h ha =>
    refine ⟨[.skip (.session i)], ?_, fun a r' hr' => ⟨?_, trivial⟩⟩
    · rw [abs_setReader h]
      simp only [Machine.run_cons, Machine.run_nil, M, Multicast.machine, Multicast.step, abs_pc h, Reader.pc]
    · rintro ⟨hs, k', t, todo', hpc⟩
      cases hs
      rw [abs_pc h] at hpc
      cases hpc
      exact ha hr'
  | post i k text r todo h hr =>
    refine single (.post (.session i)) (fun _ => by simp) ?_
    rw [abs_postTo (by simpa [St.setReader, St.modify] using hr), abs_setReader h]
    simp only [Multicast.step, abs_pc h, Reader.pc]
    rfl
  | release i k text r todo h => exact quiet (abs_setReader_same h rfl)
  | finish i k text h =>
    refine single (.finish (.session i)) (fun _ => by simp) ?_
    obtain ⟨o, ho, hr⟩ := Option.map_eq_some_iff.1 h
    rw [abs_modify_pc (f := fun o => { o with reader := .reading, buffer := [] }) ho rfl rfl]
    simp only [Multicast.step, abs_pc h, Reader.pc]
  | onSend j o m rest h hs hb =>
    refine quiet (abs_modify_same h rfl rfl ?_)
    simp [Session.posted, hs, WriteQueue.onSend_accepted]
  | onWrite j o k error h hb =>
    refine quiet (abs_modify_same h rfl rfl ?_)
    simp [Session.posted, WriteQueue.onWrite_accepted]
  | leave j o h hu hl => exact quiet (abs_modify_same (f := fun o => { o with left := true }) h rfl rfl rfl)
  | free j o h hl => exact quiet (abs_modify_same h rfl rfl rfl)
  | call id text => exact single (.begin (.call s.calls.length) text) (fun _ => by simp) (abs_call s id text)
  | lookup c x order h hp he =>
    refine single (.snap (.call c) (s.lastMatch x.id order).toList) (fun _ => by simp) ?_
    rw [abs_setCall h _ rfl]
    have hn : (s.lastMatch x.id order).toList.Nodup := by cases s.lastMatch x.id order <;> simp
    simp only [Multicast.step, abs_pc_call h, Call.mpc, hp, hn, if_true]
  | lockCallOk c r h ha =>
    obtain ⟨x, hx, hp⟩ := Option.map_eq_some_iff.1 h
    refine quiet ?_
    rw [St.setCall, abs_setCall hx _ rfl]
    refine Multicast.goto_self ?_
    rw [abs_pc_call hx, Call.mpc, hp]
    rfl
  | lockCallFail c r h ha =>
    obtain ⟨x, hx, hp⟩ := Option.map_eq_some_iff.1 h
    refine ⟨[.skip (.call c), .finish (.call c)], ?_, fun a r' hr' => ⟨?_, fun hs => ?_, trivial⟩⟩
    · have hpc : s.abs.pc (.call c) = .walk 0 x.text [r] := by rw [abs_pc_call hx, Call.mpc, hp]; rfl
      rw [St.setCall, abs_setCall hx _ rfl]
      simp only [Machine.run_cons, Machine.run_nil, M, Multicast.machine, Multicast.step, hpc, Multicast.goto_pc,
        Multicast.goto_goto]
      rfl
    · rintro ⟨hs, k', t, todo', hpc⟩
      cases hs
      rw [abs_pc_call hx, Call.mpc, hp] at hpc
      cases hpc
      exact ha hr'
    · cases hs.1
  | lockCallNone c h =>
    obtain ⟨x, hx, hp⟩ := Option.map_eq_some_iff.1 h
    refine single (.finish (.call c)) (fun _ => by simp) ?_
    rw [St.setCall, abs_setCall hx _ rfl]
    simp only [Multicast.step, abs_pc_call hx, Call.mpc, hp, Option.toList_none]
  | postCall c x r o h hp ho =>
    refine single (.post (.call c)) (fun _ => by simp) ?_
    have hr : r < s.objs.length := (List.getElem?_eq_some_iff.1 ho).1
    show ((s.setCall c (.posted r)).postTo r ⟨.update c, x.text⟩).abs = _
    rw [abs_postTo (s := s.setCall c (.posted r)) hr, St.setCall, abs_setCall h _ rfl]
    simp only [Multicast.step, abs_pc_call h, Call.mpc, hp]
    rfl
  | returnCall c r h =>
    obtain ⟨x, hx, hp⟩ := Option.map_eq_some_iff.1 h
    refine single (.finish (.call c)) (fun _ => by simp) ?_
    rw [St.setCall, abs_setCall hx _ rfl]
    simp only [Multicast.step, abs_pc_call hx, Call.mpc, hp]

/-- the sessions as a multicast -/
def proj (lib : Nlohmann) : (machine lib).Proj M where
  abs := St.abs
  init := by
    refine Multicast.St.ext (funext ?_) (funext ?_) rfl
    · intro a
      cases a <;> rfl
    · intro a
      cases a <;> rfl
  step s o := by
    obtain ⟨l, hl, -⟩ := abs_does (step_does lib s o)
    exact ⟨l, hl⟩

theorem reachable_abs {lib : Nlohmann} {s : St} (h : (machine lib).Reachable s) : M.Reachable s.abs :=
  (proj lib).reachable h

/-! ## Delivery to a session -/

/-- the message the session's on_read is busy with -/
def Reader.message : Reader → Option ℕ
  | .parsed k _ | .walking k _ _ | .locked k _ _ _ | .posted k _ _ _ => some k
  | _ => none

theorem Reader.message_of_walk {p : Reader} {k : ℕ} {t : Bytes} {todo : List Sid} (h : p.pc = .walk k t todo) :
    p.message = some k := by
  cases p <;> cases h <;> rfl

/-- the messages of the list with this origin -/
def count (g : Origin) (l : List Msg) : ℕ := l.countP fun m => m.origin = g

theorem Origin.key_inj {g g' : Origin} (h1 : g.key.1 = g'.key.1) (h2 : g.key.2 = g'.key.2) : g = g' := by
  cases g <;> cases g' <;> simp_all [Origin.key]

theorem entry_iff (m : Msg) (g : Origin) : m.entry.src = g.key.1 ∧ m.entry.idx = g.key.2 ↔ m.origin = g :=
  ⟨fun h => Origin.key_inj h.1 h.2, fun h => by subst h; exact ⟨rfl, rfl⟩⟩

theorem inbox_eq {s : St} {r : Sid} {o : Session} (hr : s.objs[r]? = some o) :
    s.abs.inbox r = o.posted.map Msg.entry := by
  simp [St.abs, hr]

/-- r has been posted the message -/
def Got (s : St) (g : Origin) (r : Sid) : Prop := Multicast.Has s.abs g.key.1 g.key.2 r

/-- how often a session has been posted the message -/
def St.copies (s : St) (g : Origin) (r : Sid) : ℕ := (s.objs[r]?.map fun o => count g o.posted).getD 0

/-- **Once.** A message is posted to a session once or not at all. -/
theorem copies_eq {lib : Nlohmann} {s : St} (h : (machine lib).Reachable s) (g : Origin) (r : Sid) :
    s.copies g r = 1 ∧ Got s g r ∨ s.copies g r = 0 ∧ ¬ Got s g r := by
  have hc : s.copies g r = Multicast.copies g.key.1 g.key.2 (s.abs.inbox r) := by
    cases hr : s.objs[r]? with
    | none => simp [St.copies, St.abs, hr, Multicast.copies]
    | some o =>
      rw [inbox_eq hr, Multicast.copies, List.countP_map]
      simp only [St.copies, hr, Option.map_some, Option.getD_some, count]
      exact List.countP_congr fun m _ => by simp [entry_iff]
  rw [hc]
  exact Multicast.copies_eq (Multicast.inbox_ordered (reachable_abs h) r) g.key.1 g.key.2

/-- **No loss.** A session still to be posted a message stays so, or has it, while it is alive. -/
theorem served_does {lib : Nlohmann} {s s' : St} {o : Op} (h : Does lib s o s') {a : Sender} {k : ℕ} {r : Sid}
    (hs : Multicast.Served a k r s.abs) (hr : Alive s r) : Multicast.Served a k r s'.abs := by
  obtain ⟨l, hl, hd⟩ := abs_does h
  rw [hl]
  exact M.along_invariant (I := fun x => Multicast.Served a k r x) (fun x o hx ho => Multicast.served_step hx ho) hs
    (hd a r hr)

theorem served_run {lib : Nlohmann} {s : St} {a : Sender} {k : ℕ} {r : Sid} (h : Multicast.Served a k r s.abs)
    {ops : List Op} (ha : (machine lib).Along (fun s _ => Alive s r) s ops) :
    Multicast.Served a k r ((machine lib).run s ops).abs :=
  (machine lib).along_invariant (I := fun s => Multicast.Served a k r s.abs)
    (fun s o hs hr => served_does (step_does lib s o) hs hr) h ha

/-- what every step of the multicast keeps, every run of the sessions keeps -/
theorem run_multicast {lib : Nlohmann} {I : MSt → Prop} (hI : ∀ x o, I x → I (Multicast.step x o)) {s : St}
    (h : I s.abs) (ops : List Op) : I ((machine lib).run s ops).abs := by
  refine (machine lib).run_invariant (I := fun s => I s.abs) (fun s o hs => ?_) h ops
  obtain ⟨l, hl, -⟩ := abs_does (step_does lib s o)
  show I (step lib s o).abs
  rw [hl]
  exact M.run_invariant hI hs l

/-- what is posted stays posted -/
theorem got_run {lib : Nlohmann} {s : St} {g : Origin} {r : Sid} (h : Got s g r) (ops : List Op) :
    Got ((machine lib).run s ops) g r :=
  run_multicast (I := fun x => Multicast.Has x g.key.1 g.key.2 r)
    (fun x o ⟨e, he, hs⟩ => ⟨e, (Multicast.inbox_step x o r).subset he, hs⟩) h ops

/-- the strand's handlers run one after the other, each appending its string to queue_ -/
theorem strand_drains {lib : Nlohmann} {s : St} {r : Sid} {o : Session} (hd : s.down = false)
    (hr : s.objs[r]? = some o) (hb : o.reader.busy = false) :
    ∃ p, ((machine lib).run s (List.replicate o.strand.length (.onSend r))).objs[r]? = some p ∧ p.strand = [] ∧
      p.out.queue = o.out.queue ++ o.strand ∧ p.out.completed = o.out.completed := by
  generalize hl : o.strand = l
  induction l generalizing s o with
  | nil => exact ⟨o, by simpa using hr, hl, by simp, rfl⟩
  | cons m rest ih =>
    have hs : step lib s (.onSend r) =
        s.modify r fun o => { o with strand := rest, out := WriteQueue.onSend o.out m } := by
      simp [step, hd, act, hr, hl, hb]
    obtain ⟨p, hp, he, hq, hc⟩ := ih (s := step lib s (.onSend r))
      (o := { o with strand := rest, out := WriteQueue.onSend o.out m }) (by rw [hs]; exact hd)
      (by rw [hs]; simp [St.modify, hr]) hb rfl
    refine ⟨p, hp, he, ?_, hc.trans (WriteQueue.onSend_completed _ _)⟩
    rw [hq, WriteQueue.onSend_queue, List.append_assoc]
    rfl

/-! ## Broadcasts -/

/-- number and text, for a message of session i's broadcasts -/
def chatOf (i : Sid) (m : Msg) : Option (ℕ × Bytes) :=
  match m.origin with
  | .chat j k => if j = i then some (k, m.text) else none
  | .update _ => none

theorem chatOf_eq {i : Sid} {m : Msg} {e : ℕ × Bytes} (h : chatOf i m = some e) :
    m.entry = ⟨.session i, e.1, e.2⟩ := by
  unfold chatOf at h
  split at h
  · rename_i j k ho
    split_ifs at h with hj
    cases h
    simp [Msg.entry, Origin.key, ho, hj]
  · cases h

/-- the strings of i that r hands to async_write -/
def Session.written (o : Session) (i : Sid) : List (ℕ × Bytes) := o.out.handed.filterMap (chatOf i)

/-- what a session has said it has received, under the same number -/
theorem received_of_sent {lib : Nlohmann} {s : St} (h : (machine lib).Reachable s) {i : Sid} {o : Session}
    (hi : s.objs[i]? = some o) {k : ℕ} {text : Bytes} (hk : (s.abs.sent (.session i))[k]? = some text) :
    o.received[k]? = some text := by
  have hsaid : s.abs.sent (.session i) = o.said := by simp [St.abs, hi]
  obtain ⟨rest, hrest⟩ := ((reachable_inv h).each i o hi).saidOf
  rw [hsaid] at hk
  rw [← hrest, List.getElem?_append_left (List.getElem?_eq_some_iff.1 hk).1, hk]

/-- **Order and content.** -/
theorem written_ordered {lib : Nlohmann} {s : St} (h : (machine lib).Reachable s) {i r : Sid} {o p : Session}
    (hi : s.objs[i]? = some o) (hr : s.objs[r]? = some p) :
    ((p.written i).map Prod.fst).Pairwise (· < ·) ∧ ∀ e ∈ p.written i, o.received[e.1]? = some e.2 := by
  have hpre : p.out.handed <+: p.posted :=
    calc
      p.out.handed <+: p.out.accepted := ((reachable_inv h).each r p hr).out.handed_prefix
      _ <+: p.posted := List.prefix_append _ _
  constructor
  · have h1 := Multicast.inbox_ordered (reachable_abs h) r
    rw [inbox_eq hr, List.pairwise_map] at h1
    refine List.pairwise_map.2 (List.Pairwise.filterMap (chatOf i) (fun m m' hlt e he e' he' => ?_)
      (h1.sublist hpre.sublist))
    rw [chatOf_eq he, chatOf_eq he'] at hlt
    exact hlt rfl
  · intro e he
    obtain ⟨m, hmem, hme⟩ := List.mem_filterMap.1 he
    have hin : m.entry ∈ s.abs.inbox r := by rw [inbox_eq hr]; exact List.mem_map_of_mem (hpre.subset hmem)
    have h1 := Multicast.inbox_content (reachable_abs h) hin
    rw [chatOf_eq hme] at h1
    exact received_of_sent h hi h1

/-- a message that has been posted has the text its sender sent -/
theorem got_mem {lib : Nlohmann} {s : St} (h : (machine lib).Reachable s) {r : Sid} {p : Session}
    (hr : s.objs[r]? = some p) {g : Origin} (hg : Got s g r) {text : Bytes}
    (ht : (s.abs.sent g.key.1)[g.key.2]? = some text) : ⟨g, text⟩ ∈ p.posted := by
  obtain ⟨e, he, hs, hk⟩ := hg
  have hc := Multicast.inbox_content (reachable_abs h) he
  rw [hs, hk, ht, Option.some.injEq] at hc
  rw [inbox_eq hr] at he
  obtain ⟨m, hm, rfl⟩ := List.mem_map.1 he
  have ho := (entry_iff m g).1 ⟨hs, hk⟩
  subst ho
  rw [hc]
  exact hm

/-- the message on_read is busy with has been said -/
theorem said_of_parsed {lib : Nlohmann} {s : St} (h : (machine lib).Reachable s) {i : Sid} {k : ℕ} {text : Bytes}
    (hp : s.reader i = some (.parsed k text)) : (s.abs.sent (.session i))[k]? = some text :=
  ((Multicast.reachable_inv (reachable_abs h)).last (.session i) k text (by rw [abs_pc hp]; rfl)).2

/-- what has been sent stays sent -/
theorem sent_run {lib : Nlohmann} {s : St} {a : Sender} {k : ℕ} {text : Bytes} (h : (s.abs.sent a)[k]? = some text)
    (ops : List Op) : (((machine lib).run s ops).abs.sent a)[k]? = some text := by
  refine run_multicast (I := fun x => (x.sent a)[k]? = some text) (fun x o hx => ?_) h ops
  obtain ⟨rest, hrest⟩ := Multicast.sent_step x o a
  rw [← hrest, List.getElem?_append_left (List.getElem?_eq_some_iff.1 hx).1, hx]

/-- **A broadcast reaches a live session**: one that is in sessions_ at the snapshot and alive until the broadcast
ends. -/
theorem broadcast_reaches {lib : Nlohmann} {s : St} (h : (machine lib).Reachable s) {i r : Sid} {k : ℕ} {text : Bytes}
    {order : List Addr} {during : List Op} (hd : s.down = false) (hp : s.reader i = some (.parsed k text))
    (he : Enumerates order s.table) (hr : InTable s r)
    (ha : (machine lib).Along (fun s _ => Alive s r) (step lib s (.snapshot i order)) during)
    (hdone : (((machine lib).run (step lib s (.snapshot i order)) during).reader i).bind Reader.message ≠ some k) :
    Got ((machine lib).run (step lib s (.snapshot i order)) during) (.chat i k) r := by
  have hs : step lib s (.snapshot i order) = s.setReader i (.walking k text (order.filterMap s.objAt)) := by
    simp [step, hd, act, hp, he]
  have hserved : Multicast.Served (.session i) k r (step lib s (.snapshot i order)).abs := by
    refine Or.inl ⟨text, _, ?_, mem_targets (reachable_inv h) hr he⟩
    rw [hs, abs_setReader hp]
    simp [Reader.pc]
  rcases served_run hserved ha with ⟨t, todo, hpc, -⟩ | hgot
  · exfalso
    cases hrd : ((machine lib).run (step lib s (.snapshot i order)) during).reader i with
    | none =>
      have hnone := Option.map_eq_none_iff.1 hrd
      simp [St.abs, hnone] at hpc
    | some p =>
      rw [abs_pc hrd] at hpc
      rw [hrd] at hdone
      exact hdone (Reader.message_of_walk hpc)
  · exact hgot

/-- **Per-sender FIFO broadcast.** First, in every reachable state: what r has handed to async_write of i's messages are
messages i received, in the order i received them and none twice. Second, for a broadcast of i with r in sessions_ at
its snapshot and alive until its end, and any continuation: the message is one that i received; r has it once, in
queue_, among the strings written from there, or in one posted on_send handler; and once r's posted handlers have run,
these have been appended to queue_, and the message is in queue_ or written from there, once. -/
theorem broadcast_fifo (lib : Nlohmann) :
    (∀ (ops : List Op) (i r : Sid) (o p : Session),
      let s := (machine lib).run init ops
      s.objs[i]? = some o → s.objs[r]? = some p →
        ((p.written i).map Prod.fst).Pairwise (· < ·) ∧ ∀ e ∈ p.written i, o.received[e.1]? = some e.2) ∧
    (∀ (before during after : List Op) (i r : Sid) (k : ℕ) (text : Bytes) (order : List Addr),
      let s := (machine lib).run init before
      let s1 := step lib s (.snapshot i order)
      let s2 := (machine lib).run s1 during
      let s3 := (machine lib).run s2 after
      s.down = false → s.reader i = some (.parsed k text) → Enumerates order s.table → InTable s r →
      (machine lib).Along (fun s _ => Alive s r) s1 during → (s2.reader i).bind Reader.message ≠ some k →
      ∀ o p, s3.objs[i]? = some o → s3.objs[r]? = some p →
        o.received[k]? = some text ∧ ⟨.chat i k, text⟩ ∈ p.posted ∧
        p.out.accepted = p.out.completed ++ p.out.queue ∧
        count (.chat i k) p.out.completed + count (.chat i k) p.out.queue + count (.chat i k) p.strand = 1 ∧
        (s3.down = false → p.reader.busy = false →
          ∃ q, ((machine lib).run s3 (List.replicate p.strand.length (.onSend r))).objs[r]? = some q ∧
            q.strand = [] ∧ q.out.queue = p.out.queue ++ p.strand ∧
            count (.chat i k) q.out.completed + count (.chat i k) q.out.queue = 1)) := by
  refine ⟨fun ops i r o p hi hr => written_ordered ((machine lib).reachable_run ops) hi hr, ?_⟩
  intro before during after i r k text order s s1 s2 s3 hd hp he ht ha hdone o p hi hr
  have h : (machine lib).Reachable s := (machine lib).reachable_run before
  have h1 : (machine lib).Reachable s1 := h.step _
  have h3 : (machine lib).Reachable s3 := (h1.run during).run after
  have hsent : (s3.abs.sent (.session i))[k]? = some text :=
    sent_run (sent_run (sent_run (said_of_parsed h hp) [.snapshot i order]) during) after
  have hgot : Got s3 (.chat i k) r := got_run (broadcast_reaches h hd hp he ht ha hdone) after
  have hone : count (.chat i k) p.posted = 1 := by
    rcases copies_eq h3 (.chat i k) r with ⟨hc, -⟩ | ⟨-, hn⟩
    · simpa [St.copies, hr] using hc
    · exact absurd hgot hn
  have haccepted : p.out.accepted = p.out.completed ++ p.out.queue := ((reachable_inv h3).each r p hr).out.accepted_eq
  have hsplit : count (.chat i k) p.out.completed + count (.chat i k) p.out.queue + count (.chat i k) p.strand = 1 := by
    rw [Session.posted, haccepted] at hone
    simpa only [count, List.countP_append] using hone
  refine ⟨received_of_sent h3 hi hsent, got_mem h3 hr hgot hsent, haccepted, hsplit, ?_⟩
  intro hdown hbusy
  obtain ⟨q, hq, hqs, hqq, hqc⟩ := strand_drains hdown hr hbusy
  refine ⟨q, hq, hqs, hqq, ?_⟩
  rw [hqq, hqc]
  simpa only [count, List.countP_append, Nat.add_assoc] using hsplit

/-- two sessions; the first receives an empty object -/
def chatOps : List Op := [.create 0, .create 1, .accept 0 false, .accept 1 false, .read 0 (some (bytes "\x7b\x7d"))]

/-- its broadcast -/
def broadcastOps : List Op := [.lock 0, .post 0, .release 0, .lock 0, .post 0, .release 0, .finish 0]

def braces : Nlohmann := .table [(bytes "\x7b\x7d", .object [])] []

theorem broadcast_fifo_two :
    let s := (machine braces).run init chatOps
    let s2 := (machine braces).run (step braces s (.snapshot 0 [1, 0])) broadcastOps
    ∀ o p, ((machine braces).run s2 [.onSend 1]).objs[0]? = some o →
      ((machine braces).run s2 [.onSend 1]).objs[1]? = some p →
      o.received[0]? = some (bytes "\x7b\x7d") ∧ ⟨.chat 0 0, bytes "\x7b\x7d"⟩ ∈ p.posted ∧
        count (.chat 0 0) p.out.completed + count (.chat 0 0) p.out.queue + count (.chat 0 0) p.strand = 1 := by
  intro s s2 o p ho hp
  have along : (machine braces).Along (fun s _ => Alive s 1) (step braces s (.snapshot 0 [1, 0])) broadcastOps :=
    ⟨by decide +kernel, by decide +kernel, by decide +kernel, by decide +kernel, by decide +kernel, by decide +kernel,
      by decide +kernel, trivial⟩
  have h := (broadcast_fifo braces).2 chatOps broadcastOps [.onSend 1] 0 1 0 (bytes "\x7b\x7d") [1, 0]
    (by decide +kernel) (by decide +kernel) (by decide +kernel) (by decide +kernel) along (by decide +kernel) o p ho hp
  exact ⟨h.1, h.2.1, h.2.2.2.1⟩

end Gss.Sessions
