/-
The HTTP connections over whole runs of the server.

- `answers_in_order`: the responses of a connection are those to its requests, in order, one at a time; a request is
  read only after the response before it has been written, and only if that one kept the connection alive.
- `posts_run_in_order`: the tasks that are posted over a connection are pushed, run and reported in the order of its
  requests, each once.
- `sockets_apart`: each WebSocket session has taken over the socket of one connection, and no two of the same one.
- `accept_error_final`: after one failed accept no connection is accepted any more.
- `request_answered`: a request that has been read is answered by four steps of its own handler, whatever the other
  steps are.
-/
import Gss.Server.Connections

namespace Gss.Connections

open Gss.Core Gss.HttpSession

/-! ## All connections -/

/-- a phase that only one connection has -/
def Phase.Sole : Phase → Prop
  | .handling _ | .upgraded _ => True
  | _ => False

/-- the task that the request posts -/
def taskOf (lib : Nlohmann) (req : Request) : Option Task :=
  match HttpSession.route lib req with
  | .ok (.task t) => some t
  | _ => none

/-- the tasks that connection c has posted, among these -/
def St.tasksOf (s : St) (c : ℕ) (jobs : List Scheduler.Job) : List Task :=
  (jobs.filter fun j => s.posters[j.id]? = some c).map Scheduler.Job.task

/-- the task that the connection's handler has not pushed yet -/
def St.unpushed (s : St) (x : Conn) : List Task :=
  match x.phase with
  | .handling i => ((s.pc i).bind posting).toList
  | _ => []

/-- the handler on thread i is where the last request has brought it -/
def Handles (lib : Nlohmann) (s : St) (x : Conn) (i : ℕ) : Prop :=
  ∃ req route p, x.requests.getLast? = some req ∧ HttpSession.route lib req = .ok route ∧ s.pc i = some p ∧ At route p

structure Inv (lib : Nlohmann) (docRoot : Bytes) (s : St) : Prop where
  kept : ∀ (c : ℕ) (x : Conn), s.conns[c]? = some x → Kept lib docRoot x
  handler : ∀ (c : ℕ) (x : Conn) (i : ℕ), s.conns[c]? = some x → x.phase = .handling i → Handles lib s x i
  alone : ∀ (c d : ℕ) (x y : Conn), s.conns[c]? = some x → s.conns[d]? = some y → x.phase = y.phase → x.phase.Sole →
    c = d
  sockets : ∀ k, k < s.server.room.objs.length ↔ ∃ (c : ℕ) (x : Conn), s.conns[c]? = some x ∧ x.phase = .upgraded k
  posters : s.posters.length = s.server.sched.pushed.length
  fresh : ∀ c ∈ s.posters, c < s.conns.length
  posts : ∀ (c : ℕ) (x : Conn), s.conns[c]? = some x →
    s.tasksOf c s.server.sched.pushed ++ s.unpushed x = x.requests.filterMap (taskOf lib)

theorem inv_init (threads : ℕ) (lib : Nlohmann) (docRoot : Bytes) : Inv lib docRoot (init threads) where
  kept c x h := by cases h
  handler c x i h := by cases h
  alone c d x y h := by cases h
  sockets k := iff_of_false (by simp [init, Server.init, Sessions.init]) (by simp [init])
  posters := rfl
  fresh c h := by cases h
  posts c x h := by cases h

section Inv

variable {lib : Nlohmann} {docRoot : Bytes} {s : St} {c i : ℕ} {x y : Conn}

theorem Inv.kept_set (h : Inv lib docRoot s) (hx : s.conns[c]? = some x) (hy : Kept lib docRoot y) {d : ℕ} {z : Conn}
    (hz : (s.conns.set c y)[d]? = some z) : Kept lib docRoot z := by
  rcases getElem?_set_cases hx hz with ⟨-, rfl⟩ | ⟨-, hd⟩
  · exact hy
  · exact h.kept d z hd

theorem Inv.alone_set (h : Inv lib docRoot s) (hx : s.conns[c]? = some x)
    (hy : y.phase.Sole → ∀ (d : ℕ) (z : Conn), s.conns[d]? = some z → z.phase ≠ y.phase) {d e : ℕ} {z w : Conn}
    (hz : (s.conns.set c y)[d]? = some z) (hw : (s.conns.set c y)[e]? = some w) (hp : z.phase = w.phase)
    (hs : z.phase.Sole) : d = e := by
  rcases getElem?_set_cases hx hz with ⟨rfl, rfl⟩ | ⟨-, hd⟩ <;>
    rcases getElem?_set_cases hx hw with ⟨rfl, rfl⟩ | ⟨-, he⟩
  · rfl
  · exact absurd hp.symm (hy hs e w he)
  · exact absurd hp (hy (hp ▸ hs) d z hd)
  · exact h.alone d e z w hd he hp hs

theorem Inv.sockets_set (h : Inv lib docRoot s) (hx : s.conns[c]? = some x) (hxp : ∀ k, x.phase ≠ .upgraded k)
    (hyp : ∀ k, y.phase ≠ .upgraded k) (k : ℕ) : k < s.server.room.objs.length ↔
      ∃ (d : ℕ) (z : Conn), (s.conns.set c y)[d]? = some z ∧ z.phase = .upgraded k := by
  rw [h.sockets k]
  constructor
  · intro hd
    obtain ⟨d, z, hz, hp⟩ := hd
    have hne : c ≠ d := by
      rintro rfl
      rw [hx, Option.some.injEq] at hz
      exact hxp k (hz ▸ hp)
    exact ⟨d, z, by rwa [List.getElem?_set_ne hne], hp⟩
  · intro hd
    obtain ⟨d, z, hz, hp⟩ := hd
    rcases getElem?_set_cases hx hz with ⟨-, rfl⟩ | ⟨-, hd⟩
    · exact absurd hp (hyp k)
    · exact ⟨d, z, hd, hp⟩

/-- a handler's thread is not idle -/
theorem Inv.not_idle (h : Inv lib docRoot s) (hx : s.conns[c]? = some x) (hi : s.pc i = some .idle) :
    x.phase ≠ .handling i := by
  intro hp
  obtain ⟨req, route, p, -, -, hpc, hat⟩ := h.handler c x i hx hp
  rw [hi, Option.some.injEq] at hpc
  subst hpc
  exact hat

/-- the other connections have other threads -/
theorem Inv.elsewhere (h : Inv lib docRoot s) (hx : s.conns[c]? = some x) (hp : x.phase = .handling i) {d : ℕ}
    (hdc : d ≠ c) (hd : s.conns[d]? = some y) : y.phase ≠ .handling i := by
  intro hy
  exact hdc (h.alone d c y x hd hx (hy.trans hp.symm) (hy ▸ trivial))

theorem unpushed_of_not_handling (hx : ∀ i, x.phase ≠ .handling i) : s.unpushed x = [] := by
  unfold St.unpushed
  split
  · rename_i i hi
    exact absurd hi (hx i)
  · rfl

/-- a step of thread i leaves the handlers on other threads as they are -/
theorem Inv.others (h : Inv lib docRoot s) {o : Scheduler.Op} (ho : AdminReport.thread o = some i) {t : St}
    (ht : t.server.sched = Scheduler.step s.server.sched o) {d : ℕ} (hd : s.conns[d]? = some y)
    (hother : y.phase ≠ .handling i) :
    (∀ j, y.phase = .handling j → Handles lib t y j) ∧ t.unpushed y = s.unpushed y := by
  have hstay : ∀ j, y.phase = .handling j → Handles lib t y j ∧ t.unpushed y = s.unpushed y := by
    intro j hp
    obtain ⟨req, route, p, hreq, hr, hpc, hat⟩ := h.handler d y j hd hp
    have hparked : p ≠ .parked := by
      rintro rfl
      exact hat
    have hne : AdminReport.thread o ≠ some j := by
      rw [ho, ne_eq, Option.some.injEq]
      rintro rfl
      exact hother hp
    have hstay : t.pc j = some p := by
      rw [St.pc, ht]
      exact AdminReport.pc_frame hne hpc hparked
    refine ⟨⟨req, route, p, hreq, hr, hstay, hat⟩, ?_⟩
    simp only [St.unpushed, hp, hstay, hpc]
  refine ⟨fun j hp => (hstay j hp).1, ?_⟩
  cases hp : y.phase with
  | handling j => exact (hstay j hp).2
  | _ => rw [unpushed_of_not_handling (by simp [hp]), unpushed_of_not_handling (by simp [hp])]

/-! ### The steps -/

theorem held_of_handling (hx : s.conns[c]? = some x) (hp : x.phase = .handling i) : s.held i = true := by
  rw [St.held, List.any_eq_true]
  exact ⟨x, List.mem_of_getElem? hx, by simpa using hp⟩

theorem inv_server (h : Inv lib docRoot s) {o : Server.Op} (ho : outside s o = true) :
    Inv lib docRoot { s with server := Server.step lib s.server o } := by
  set t : St := { s with server := Server.step lib s.server o } with ht
  have hsched : (Server.step lib s.server o).sched = s.server.sched ∨ _ := outside_sched ho
  have hpushed : t.server.sched.pushed = s.server.sched.pushed := by
    rcases hsched with he | ⟨x, he, hpush, -⟩
    · rw [ht, he]
    · rw [ht, he]
      exact pushed_step hpush
  have hhandler : ∀ (c : ℕ) (x : Conn) (i : ℕ), s.conns[c]? = some x → x.phase = .handling i →
      Handles lib t x i ∧ t.unpushed x = s.unpushed x := by
    intro c x i hx hp
    obtain ⟨req, route, p, hreq, hr, hpc, hat⟩ := h.handler c x i hx hp
    obtain ⟨q, hq, hatq, hpost⟩ : ∃ q, t.pc i = some q ∧ At route q ∧ posting q = posting p := by
      rcases hsched with he | ⟨x, he, hpush, hheld⟩
      · exact ⟨p, by rw [St.pc, ht, he]; exact hpc, hat, rfl⟩
      · obtain ⟨hdone, hrespond⟩ := hheld i (held_of_handling hx hp)
        obtain ⟨q, hq, hatq, hpost, -⟩ := sched_at hpc hat (hpush i) hdone hrespond
        exact ⟨q, by rw [St.pc, ht, he]; exact hq, hatq, hpost⟩
    refine ⟨⟨req, route, q, hreq, hr, hq, hatq⟩, ?_⟩
    simp only [St.unpushed, hp, hq, hpc, Option.bind_some, hpost]
  refine ⟨h.kept, fun c x i hx hp => (hhandler c x i hx hp).1, h.alone, ?_, h.posters.trans (congrArg _ hpushed.symm),
    h.fresh, ?_⟩
  · intro k
    rw [ht, outside_objs ho]
    exact h.sockets k
  · intro c x hx
    have hunpushed : t.unpushed x = s.unpushed x := by
      cases hp : x.phase with
      | handling i => exact (hhandler c x i hx hp).2
      | _ => rw [unpushed_of_not_handling (by simp [hp]), unpushed_of_not_handling (by simp [hp])]
    have htasks : t.tasksOf c t.server.sched.pushed = s.tasksOf c s.server.sched.pushed := by
      rw [hpushed]
      rfl
    rw [hunpushed, htasks]
    exact h.posts c x hx

theorem inv_accept (h : Inv lib docRoot s) : Inv lib docRoot { s with conns := s.conns ++ [Conn.make] } := by
  -- a connection is an old one or the new one
  have hcases : ∀ (c : ℕ) (x : Conn), (s.conns ++ [Conn.make])[c]? = some x →
      s.conns[c]? = some x ∨ c = s.conns.length ∧ x = Conn.make := by
    intro c x hx
    rw [List.getElem?_append] at hx
    split_ifs at hx with hlt
    · exact Or.inl hx
    · obtain ⟨hk, rfl⟩ := List.getElem?_eq_some_iff.1 hx
      rw [List.length_singleton] at hk
      exact Or.inr ⟨by omega, by simp⟩
  refine ⟨?_, ?_, ?_, ?_, h.posters, ?_, ?_⟩
  · intro c x hx
    rcases hcases c x hx with hx | ⟨-, rfl⟩
    · exact h.kept c x hx
    · exact kept_make
  · intro c x i hx hp
    rcases hcases c x hx with hx | ⟨-, rfl⟩
    · exact h.handler c x i hx hp
    · cases hp
  · intro c d x y hx hy hp hs
    rcases hcases c x hx with hx | ⟨-, rfl⟩
    · rcases hcases d y hy with hy | ⟨-, rfl⟩
      · exact h.alone c d x y hx hy hp hs
      · rw [hp] at hs
        exact hs.elim
    · exact hs.elim
  · intro k
    rw [h.sockets k]
    constructor
    · intro hc
      obtain ⟨c, x, hx, hp⟩ := hc
      have hlt := (List.getElem?_eq_some_iff.1 hx).1
      exact ⟨c, x, by rwa [List.getElem?_append_left hlt], hp⟩
    · intro hc
      obtain ⟨c, x, hx, hp⟩ := hc
      rcases hcases c x hx with hx | ⟨-, rfl⟩
      · exact ⟨c, x, hx, hp⟩
      · cases hp
  · intro c hc
    rw [List.length_append]
    exact Nat.lt_add_right _ (h.fresh c hc)
  · intro c x hx
    rcases hcases c x hx with hx | ⟨rfl, rfl⟩
    · exact h.posts c x hx
    · -- nothing has been posted over the new connection
      have hnone : s.tasksOf s.conns.length s.server.sched.pushed = [] := by
        rw [St.tasksOf, List.map_eq_nil_iff, List.filter_eq_nil_iff]
        intro j _ hj
        have hmem := List.mem_of_getElem? (of_decide_eq_true hj)
        exact lt_irrefl _ (h.fresh _ hmem)
      exact (List.append_nil _).trans hnone

theorem inv_settle (h : Inv lib docRoot s) (hx : s.conns[c]? = some x) (hs : Settles x y) :
    Inv lib docRoot (s.set c y) := by
  have hxp : (∀ i, x.phase ≠ .handling i) ∧ ∀ k, x.phase ≠ .upgraded k := by
    cases hs with
    | read hp => simp [hp]
    | failed k hp => simp [hp]
    | written k hp => simp [hp]
  have hyp : (∀ i, y.phase ≠ .handling i) ∧ (∀ k, y.phase ≠ .upgraded k) ∧ y.requests = x.requests := by
    cases hs with
    | read hp => simp
    | failed k hp => simp
    | written k hp => cases k <;> simp
  refine ⟨fun d z hz => h.kept_set hx ((h.kept c x hx).settle hs) hz, ?_, ?_, h.sockets_set hx hxp.2 hyp.2.1, h.posters,
    ?_, ?_⟩
  · intro d z i hz hp
    rcases getElem?_set_cases hx hz with ⟨-, rfl⟩ | ⟨-, hd⟩
    · exact absurd hp (hyp.1 i)
    · exact h.handler d z i hd hp
  · intro d e z w hz hw hp hsole
    refine h.alone_set hx ?_ hz hw hp hsole
    intro hy
    cases hyq : y.phase with
    | handling i => exact absurd hyq (hyp.1 i)
    | upgraded k => exact absurd hyq (hyp.2.1 k)
    | _ => rw [hyq] at hy; exact hy.elim
  · intro d hd
    rw [St.set, List.length_set]
    exact h.fresh d hd
  · intro d z hz
    rcases getElem?_set_cases hx hz with ⟨rfl, rfl⟩ | ⟨-, hd⟩
    · have hold := h.posts d x hx
      rw [unpushed_of_not_handling hxp.1] at hold
      rw [unpushed_of_not_handling hyp.1, hyp.2.2]
      exact hold
    · exact h.posts d z hd

theorem inv_upgrade (h : Inv lib docRoot s) (hx : s.conns[c]? = some x) (hp : x.phase = .reading) (a : ℕ) :
    Inv lib docRoot { s.set c { x with phase := .upgraded s.server.room.objs.length } with
      server := { s.server with
        room := { s.server.room with objs := s.server.room.objs ++ [Sessions.Session.make a] } } } := by
  have hxp : (∀ i, x.phase ≠ .handling i) ∧ ∀ k, x.phase ≠ .upgraded k := by simp [hp]
  have hkept := (h.kept c x hx).upgrade hp s.server.room.objs.length
  refine ⟨fun d z hz => h.kept_set hx hkept hz, ?_, ?_, ?_, h.posters, ?_, ?_⟩
  · intro d z i hz hpz
    rcases getElem?_set_cases hx hz with ⟨-, rfl⟩ | ⟨-, hd⟩
    · cases hpz
    · exact h.handler d z i hd hpz
  · intro d e z w hz hw hpz hsole
    refine h.alone_set hx ?_ hz hw hpz hsole
    intro _ d z hd hz
    -- the sessions before the new one are other ones
    exact absurd ((h.sockets _).2 ⟨d, z, hd, hz⟩) (lt_irrefl _)
  · intro k
    rw [List.length_append, List.length_singleton, Nat.lt_succ_iff_lt_or_eq, h.sockets k]
    constructor
    · intro hk
      rcases hk with hk | rfl
      · obtain ⟨d, z, hz, hpz⟩ := hk
        have hne : c ≠ d := by
          rintro rfl
          rw [hx, Option.some.injEq] at hz
          exact hxp.2 k (hz ▸ hpz)
        exact ⟨d, z, by rwa [St.set, List.getElem?_set_ne hne], hpz⟩
      · exact ⟨c, _, getElem?_set_at hx _, rfl⟩
    · intro hk
      obtain ⟨d, z, hz, hpz⟩ := hk
      rcases getElem?_set_cases hx hz with ⟨-, rfl⟩ | ⟨-, hd⟩
      · cases hpz
        exact Or.inr rfl
      · exact Or.inl ⟨d, z, hd, hpz⟩
  · intro d hd
    rw [St.set, List.length_set]
    exact h.fresh d hd
  · intro d z hz
    rcases getElem?_set_cases hx hz with ⟨rfl, rfl⟩ | ⟨-, hd⟩
    · have hold := h.posts d x hx
      rw [unpushed_of_not_handling hxp.1] at hold
      rw [unpushed_of_not_handling (by simp)]
      exact hold
    · exact h.posts d z hd

/-- where a request brings its thread -/
theorem enter_at (hi : s.pc i = some .idle) {req : Request} {route : Route}
    (hr : HttpSession.route lib req = .ok route) :
    ∃ p, (Scheduler.step s.server.sched (Server.enter i route)).pcs[i]? = some p ∧ At route p ∧
      posting p = taskOf lib req := by
  have hi' : s.server.sched.pcs[i]? = some .idle := hi
  have hgoto : ∀ p, (s.server.sched.goto i p).pcs[i]? = some p := fun p => AdminReport.goto_self hi'
  cases route with
  | task t => exact ⟨.push t, by simp [Server.enter, Scheduler.step, hi', hgoto], rfl, by simp [posting, taskOf, hr]⟩
  | report => exact ⟨.admin, by simp [Server.enter, Scheduler.step, hi', hgoto], rfl, by simp [posting, taskOf, hr]⟩
  | other =>
    exact ⟨.busy, by simp [Server.enter, Scheduler.step, hi', hgoto], by simp [At], by simp [posting, taskOf, hr]⟩

theorem inv_request (h : Inv lib docRoot s) (hx : s.conns[c]? = some x) (hp : x.phase = .reading)
    (hi : s.pc i = some .idle) {req : Request} {route : Route} (hr : HttpSession.route lib req = .ok route) :
    Inv lib docRoot { s.set c { x with phase := .handling i, requests := x.requests ++ [req] } with
      server := { s.server with sched := Scheduler.step s.server.sched (Server.enter i route) } } := by
  set y : Conn := { x with phase := .handling i, requests := x.requests ++ [req] } with hy
  set t : St := { s.set c y with
    server := { s.server with sched := Scheduler.step s.server.sched (Server.enter i route) } } with ht
  have hthread : AdminReport.thread (Server.enter i route) = some i := by cases route <;> rfl
  have hpushed : t.server.sched.pushed = s.server.sched.pushed := by
    refine pushed_step ?_
    cases route <;> simp [Server.enter]
  obtain ⟨p, hpc, hat, hpost⟩ := enter_at hi hr
  have hother : ∀ (d : ℕ) (z : Conn), s.conns[d]? = some z →
      (∀ j, z.phase = .handling j → Handles lib t z j) ∧ t.unpushed z = s.unpushed z :=
    fun d z hd => h.others hthread rfl hd (h.not_idle hd hi)
  have hkept := (h.kept c x hx).request hp i req
  refine ⟨fun d z hz => h.kept_set hx hkept hz, ?_, ?_, h.sockets_set hx (by simp [hp]) (by simp [hy]), ?_, ?_, ?_⟩
  · intro d z j hz hpz
    rcases getElem?_set_cases hx hz with ⟨-, rfl⟩ | ⟨-, hd⟩
    · cases hpz
      exact ⟨req, route, p, by simp [hy], hr, hpc, hat⟩
    · exact (hother d z hd).1 j hpz
  · intro d e z w hz hw hpz hsole
    refine h.alone_set hx ?_ hz hw hpz hsole
    intro _ d z hd
    exact h.not_idle hd hi
  · rw [hpushed]
    exact h.posters
  · intro d hd
    rw [ht, St.set, List.length_set]
    exact h.fresh d hd
  · intro d z hz
    have htasks : t.tasksOf d t.server.sched.pushed = s.tasksOf d s.server.sched.pushed := by
      rw [hpushed]
      rfl
    rw [htasks]
    rcases getElem?_set_cases hx hz with ⟨rfl, rfl⟩ | ⟨-, hd⟩
    · have hold := h.posts d x hx
      rw [unpushed_of_not_handling (by simp [hp]), List.append_nil] at hold
      have hnew : t.unpushed y = (taskOf lib req).toList := by
        have hpc' : t.pc i = some p := hpc
        simp only [St.unpushed, hy, hpc', Option.bind_some, hpost]
      rw [hold, hnew, hy, List.filterMap_append]
      cases hto : taskOf lib req <;> simp [hto]
    · rw [← h.posts d z hd, (hother d z hd).2]

theorem inv_respond (h : Inv lib docRoot s) (hx : s.conns[c]? = some x) (hp : x.phase = .handling i)
    {p : Scheduler.Pc} (hi : s.pc i = some p) {req : Request} (hreq : x.requests.getLast? = some req)
    {o : Scheduler.Op} (ho : leaveOp i p = some o) {file : OpenResult} {shared : Shared} {res : Response}
    (hres : handleRequest lib (fun _ => file) docRoot req (seen p) = (.ok res, shared)) :
    Inv lib docRoot { s.set c { x with phase := .writing res.keepAlive, responses := x.responses ++ [res] } with
      server := { s.server with sched := Scheduler.step s.server.sched o } } := by
  set y : Conn := { x with phase := .writing res.keepAlive, responses := x.responses ++ [res] } with hy
  set t : St := { s.set c y with server := { s.server with sched := Scheduler.step s.server.sched o } } with ht
  obtain ⟨hthread, hnopush, hnopost⟩ : AdminReport.thread o = some i ∧ (∀ k, o ≠ .push k) ∧ posting p = none := by
    cases p <;> cases ho <;> exact ⟨rfl, by simp, rfl⟩
  have hpushed : t.server.sched.pushed = s.server.sched.pushed := pushed_step hnopush
  have hother : ∀ (d : ℕ) (z : Conn), d ≠ c → s.conns[d]? = some z →
      (∀ j, z.phase = .handling j → Handles lib t z j) ∧ t.unpushed z = s.unpushed z :=
    fun d z hdc hd => h.others hthread rfl hd (h.elsewhere hx hp hdc hd)
  have hkept := (h.kept c x hx).respond hp hreq hres
  refine ⟨fun d z hz => h.kept_set hx hkept hz, ?_, ?_, h.sockets_set hx (by simp [hp]) (by simp [hy]), ?_, ?_, ?_⟩
  · intro d z j hz hpz
    rcases getElem?_set_cases hx hz with ⟨-, rfl⟩ | ⟨hdc, hd⟩
    · cases hpz
    · exact (hother d z hdc hd).1 j hpz
  · intro d e z w hz hw hpz hsole
    refine h.alone_set hx ?_ hz hw hpz hsole
    intro hsole
    exact hsole.elim
  · rw [hpushed]
    exact h.posters
  · intro d hd
    rw [ht, St.set, List.length_set]
    exact h.fresh d hd
  · intro d z hz
    have htasks : t.tasksOf d t.server.sched.pushed = s.tasksOf d s.server.sched.pushed := by
      rw [hpushed]
      rfl
    rw [htasks]
    rcases getElem?_set_cases hx hz with ⟨rfl, rfl⟩ | ⟨hdc, hd⟩
    · have hold := h.posts d x hx
      have hnone : s.unpushed x = [] := by
        simp only [St.unpushed, hp, hi, Option.bind_some, hnopost]
        rfl
      rw [hnone] at hold
      rw [unpushed_of_not_handling (by simp [hy])]
      exact hold
    · rw [← h.posts d z hd, (hother d z hdc hd).2]

theorem inv_push (h : Inv lib docRoot s) (hids : s.server.sched.pushed.map Scheduler.Job.id =
      List.range s.server.sched.pushed.length) (hx : s.conns[c]? = some x) (hp : x.phase = .handling i) {task : Task}
    (hi : s.pc i = some (.push task)) :
    Inv lib docRoot { s with
      server := { s.server with sched := Scheduler.step s.server.sched (.push i) }
      posters := s.posters ++ [c] } := by
  set t : St := { s with
    server := { s.server with sched := Scheduler.step s.server.sched (.push i) }
    posters := s.posters ++ [c] } with ht
  have hi' : s.server.sched.pcs[i]? = some (.push task) := hi
  have hstep : t.server.sched = (Scheduler.pushTask s.server.sched task).goto i .notify := by
    simp only [ht, Scheduler.step, hi']
  have hpc : t.pc i = some .notify := by
    rw [St.pc, hstep]
    exact AdminReport.goto_self hi'
  have hother : ∀ (d : ℕ) (z : Conn), d ≠ c → s.conns[d]? = some z →
      (∀ j, z.phase = .handling j → Handles lib t z j) ∧ t.unpushed z = s.unpushed z :=
    fun d z hdc hd => h.others (o := .push i) rfl rfl hd (h.elsewhere hx hp hdc hd)
  -- the tasks that the connections have posted before keep their posters
  have htasks : ∀ d, t.tasksOf d t.server.sched.pushed =
      s.tasksOf d s.server.sched.pushed ++ if d = c then [task] else [] := by
    intro d
    have hpushed : t.server.sched.pushed = s.server.sched.pushed ++ [⟨s.server.sched.pushed.length, task⟩] := by
      rw [hstep]
      rfl
    have hold : ∀ j ∈ s.server.sched.pushed, (t.posters[j.id]? = some d) = (s.posters[j.id]? = some d) := by
      intro j hj
      have hlt : j.id < s.posters.length := by
        rw [h.posters]
        exact List.mem_range.1 (hids ▸ List.mem_map_of_mem hj)
      rw [ht, List.getElem?_append_left hlt]
    have hnew : (t.posters[s.server.sched.pushed.length]? = some d) = (d = c) := by
      rw [ht, ← h.posters]
      simp [eq_comm]
    rw [St.tasksOf, St.tasksOf, hpushed, List.filter_append, List.map_append]
    congr 1
    · congr 1
      refine List.filter_congr ?_
      intro j hj
      simp only [hold j hj]
    · simp only [List.filter_cons, List.filter_nil, hnew, decide_eq_true_eq]
      split_ifs <;> rfl
  refine ⟨h.kept, ?_, h.alone, h.sockets, ?_, ?_, ?_⟩
  · intro d z j hd hpz
    by_cases hdc : d = c
    · subst hdc
      rw [hx, Option.some.injEq] at hd
      subst hd
      rw [hp, Phase.handling.injEq] at hpz
      subst hpz
      obtain ⟨req, route, p, hreq, hr, hpc', hat⟩ := h.handler d x i hx hp
      rw [hi, Option.some.injEq] at hpc'
      subst hpc'
      exact ⟨req, route, .notify, hreq, hr, hpc, task, hat⟩
    · exact (hother d z hdc hd).1 j hpz
  · rw [hstep]
    simp [ht, h.posters, Scheduler.pushTask, Scheduler.St.goto]
  · intro d hd
    rcases List.mem_append.1 hd with hd | hd
    · exact h.fresh d hd
    · rw [List.mem_singleton.1 hd]
      exact (List.getElem?_eq_some_iff.1 hx).1
  · intro d z hd
    rw [htasks]
    by_cases hdc : d = c
    · subst hdc
      rw [hx, Option.some.injEq] at hd
      subst hd
      have hold := h.posts d x hx
      have hbefore : s.unpushed x = [task] := by
        simp only [St.unpushed, hp, hi, Option.bind_some]
        rfl
      have hafter : t.unpushed x = [] := by
        simp only [St.unpushed, hp, hpc, Option.bind_some]
        rfl
      rw [hbefore] at hold
      rw [hafter, if_pos rfl, List.append_nil]
      exact hold
    · rw [if_neg hdc, List.append_nil, ← h.posts d z hd, (hother d z hdc hd).2]

theorem does_inv {s' : St} (hs : Does lib docRoot s s') (hsched : Scheduler.Inv s.server.sched)
    (h : Inv lib docRoot s) : Inv lib docRoot s' := by
  cases hs with
  | idle => exact h
  | server o ho => exact inv_server h ho
  | accept ha => exact inv_accept h
  | refuse => exact ⟨h.kept, h.handler, h.alone, h.sockets, h.posters, h.fresh, h.posts⟩
  | settle c x y hx hs => exact inv_settle h hx hs
  | upgrade c a x hx hp => exact inv_upgrade h hx hp a
  | throws => exact ⟨h.kept, h.handler, h.alone, h.sockets, h.posters, h.fresh, h.posts⟩
  | request c i x req route hx hp hi hr => exact inv_request h hx hp hi hr
  | push c i x t hx hp hi => exact inv_push h hsched.ids hx hp hi
  | respond c i x req p o file res shared hx hp hi hreq ho hres => exact inv_respond h hx hp hi hreq ho hres

end Inv

section Runs

variable (threads : ℕ) (lib : Nlohmann) (docRoot : Bytes)

theorem sched_inv {s : St} (h : (machine threads lib docRoot).Reachable s) : Scheduler.Inv s.server.sched := by
  obtain ⟨ops, hops⟩ := Server.reachable_sched (reachable_server h)
  exact hops ▸ Scheduler.run_inv threads ops

theorem reachable_inv {s : St} (h : (machine threads lib docRoot).Reachable s) : Inv lib docRoot s := by
  refine ((machine threads lib docRoot).invariant
    (I := fun s => (machine threads lib docRoot).Reachable s ∧ Inv lib docRoot s)
    ⟨⟨[], rfl⟩, inv_init threads lib docRoot⟩ (fun s o hs => ⟨hs.1.step o, ?_⟩) h).2
  exact does_inv (step_does lib docRoot s o) (sched_inv threads lib docRoot hs.1) hs.2

/-- **In order.** On each connection the k-th response is an answer to the k-th request; each response is written before
the next request is read; and after a request that does not keep the connection alive there is no other one, no pending
read and no upgrade. -/
theorem answers_in_order (ops : List Op) :
    let s := (machine threads lib docRoot).run (init threads) ops
    ∀ (c : ℕ) (x : Conn), s.conns[c]? = some x →
      x.written ≤ x.responses.length ∧ x.responses.length ≤ x.requests.length ∧ x.requests.length ≤ x.written + 1 ∧
      (∀ (k : ℕ) (req : Request) (res : Response), x.requests[k]? = some req → x.responses[k]? = some res →
        Answers lib docRoot req res) ∧
      ∀ (k : ℕ) (req : Request), x.requests[k]? = some req → k + 1 < x.requests.length ∨ x.phase.quiet = true →
        req.keepAlive = true := by
  intro s c x hx
  have h : Inv lib docRoot s := reachable_inv threads lib docRoot ⟨ops, rfl⟩
  obtain ⟨hcounts, hanswers, halive, -⟩ := h.kept c x hx
  have hlen : x.written ≤ x.responses.length ∧ x.responses.length ≤ x.requests.length ∧
      x.requests.length ≤ x.written + 1 := by
    cases hp : x.phase <;> rw [hp] at hcounts <;> simp only [Phase.Counts] at hcounts <;> omega
  exact ⟨hlen.1, hlen.2.1, hlen.2.2, hanswers, halive⟩

/-- **The tasks of a connection.** The tasks that its requests post, in the order of the requests, are: those whose
update has been sent, the running one, those in the queue, and the one its handler has not pushed yet. There are no
other tasks than those posted over connections. -/
theorem posts_run_in_order (ops : List Op) :
    let s := (machine threads lib docRoot).run (init threads) ops
    (∀ (c : ℕ) (x : Conn), s.conns[c]? = some x →
      s.tasksOf c s.server.sched.sent ++ s.tasksOf c s.server.sched.flight ++ s.tasksOf c s.server.sched.queue ++
        s.unpushed x = x.requests.filterMap (taskOf lib)) ∧
      ∀ j ∈ s.server.sched.sent ++ s.server.sched.flight ++ s.server.sched.queue,
        ∃ (c : ℕ) (x : Conn), s.posters[j.id]? = some c ∧ s.conns[c]? = some x := by
  intro s
  have hreach : (machine threads lib docRoot).Reachable s := ⟨ops, rfl⟩
  have h : Inv lib docRoot s := reachable_inv threads lib docRoot hreach
  have hsched := sched_inv threads lib docRoot hreach
  obtain ⟨x, hx, hpushed, -⟩ := hsched.chain
  rw [← Scheduler.flight_of_tokens hx] at hpushed
  refine ⟨?_, ?_⟩
  · intro c x hx
    calc s.tasksOf c s.server.sched.sent ++ s.tasksOf c s.server.sched.flight ++ s.tasksOf c s.server.sched.queue ++
            s.unpushed x
        = s.tasksOf c s.server.sched.pushed ++ s.unpushed x := by
          rw [hpushed]
          simp [St.tasksOf, List.filter_append]
      _ = x.requests.filterMap (taskOf lib) := h.posts c x hx
  · intro j hj
    rw [← hpushed] at hj
    have hlt : j.id < s.posters.length := by
      rw [h.posters]
      exact List.mem_range.1 (hsched.ids ▸ List.mem_map_of_mem hj)
    have hconn := h.fresh _ (List.getElem_mem hlt)
    exact ⟨s.posters[j.id], _, List.getElem?_eq_getElem hlt, List.getElem?_eq_getElem hconn⟩

/-- **Sockets.** The sessions are those that connections have been upgraded to, each by one connection. -/
theorem sockets_apart (ops : List Op) :
    let s := (machine threads lib docRoot).run (init threads) ops
    (∀ k, k < s.server.room.objs.length ↔ ∃ (c : ℕ) (x : Conn), s.conns[c]? = some x ∧ x.phase = .upgraded k) ∧
      ∀ (c d : ℕ) (x y : Conn) (k : ℕ), s.conns[c]? = some x → s.conns[d]? = some y → x.phase = .upgraded k →
        y.phase = .upgraded k → c = d := by
  intro s
  have h : Inv lib docRoot s := reachable_inv threads lib docRoot ⟨ops, rfl⟩
  exact ⟨h.sockets, fun c d x y k hx hy hp hq => h.alone c d x y hx hy (hp.trans hq.symm) (hp ▸ trivial)⟩

/-! ## The listener -/

/-- no accept is pending, and there are n connections -/
def Deaf (n : ℕ) (s : St) : Prop := s.accepting = false ∧ s.conns.length = n

theorem step_deaf {n : ℕ} {s : St} (o : Op) (h : Deaf n s) : Deaf n (step lib docRoot s o) := by
  have hs := step_does lib docRoot s o
  generalize step lib docRoot s o = s' at hs
  cases hs with
  | accept ha =>
    rw [h.1] at ha
    cases ha
  | refuse => exact ⟨rfl, h.2⟩
  | settle c x y hx hs => exact ⟨h.1, by simpa [St.set] using h.2⟩
  | upgrade c a x hx hp => exact ⟨h.1, by simpa [St.set] using h.2⟩
  | request c i x req route hx hp hi hr => exact ⟨h.1, by simpa [St.set] using h.2⟩
  | respond c i x req p o file res shared hx hp hi hreq ho hres => exact ⟨h.1, by simpa [St.set] using h.2⟩
  | _ => exact h

/-- **One failed accept** ends all accepting: on_accept returns without the next async_accept, and no continuation of
the run has another connection. -/
theorem accept_error_final (a b : List Op) {i : ℕ}
    (hd : ((machine threads lib docRoot).run (init threads) a).server.down = false)
    (hi : ((machine threads lib docRoot).run (init threads) a).pc i = some .idle) :
    ((machine threads lib docRoot).run (init threads) (a ++ .accept i true :: b)).accepting = false ∧
      ((machine threads lib docRoot).run (init threads) (a ++ .accept i true :: b)).conns.length =
        ((machine threads lib docRoot).run (init threads) a).conns.length := by
  rw [Machine.run_append, Machine.run_cons]
  set s := (machine threads lib docRoot).run (init threads) a
  have hstep : Deaf s.conns.length ((machine threads lib docRoot).step s (.accept i true)) := by
    show Deaf s.conns.length (step lib docRoot s (.accept i true))
    rw [step, if_neg (by simp [hd])]
    simp only [act]
    split_ifs with h
    · exact ⟨rfl, rfl⟩
    · refine ⟨?_, rfl⟩
      by_contra hne
      exact h ⟨by simpa using hne, hi⟩
  exact (machine threads lib docRoot).run_invariant (fun s o => step_deaf lib docRoot o) hstep b

/-- with one connection, and another that fails -/
theorem accept_error_final_second :
    ((machine 1 Server.unnamedLib []).run (init 1)
        ([.accept 1 false] ++ .accept 1 true :: [.accept 1 false])).accepting = false ∧
      ((machine 1 Server.unnamedLib []).run (init 1)
          ([.accept 1 false] ++ .accept 1 true :: [.accept 1 false])).conns.length =
        ((machine 1 Server.unnamedLib []).run (init 1) [.accept 1 false]).conns.length :=
  accept_error_final 1 Server.unnamedLib [] [.accept 1 false] [.accept 1 false] (by decide +kernel) (by decide +kernel)

/-! ## Answering a request -/

/-- the operations that are the next step of the handler of connection c on thread i; notify_one may wake any parked
thread, and body.open may give anything -/
def turn (s : St) (c i : ℕ) (o : Op) : Bool :=
  match s.pc i, o with
  | some (.push _), .push d => d = c
  | some .notify, .server (.task (.notify j w)) =>
    j = i ∧ (s.pc w = some .parked ∨ Scheduler.Pc.parked ∉ s.server.sched.pcs)
  | some .admin, .server (.task (.reserve j)) => j = i
  | some .reserved, .server (.task (.tasks j)) => j = i
  | some (.pending _), .server (.task (.current j)) => j = i
  | some .busy, .respond d _ => d = c
  | some (.report _ _), .respond d _ => d = c
  | _, _ => false

/-- the steps that the handler on thread i has to go -/
def St.left (s : St) (i : ℕ) : ℕ := ((s.pc i).map Connections.left).getD 0

/-- the n-th request of connection c is req, and a response to it has been given to async_write -/
def Answered (lib : Nlohmann) (docRoot : Bytes) (s : St) (c n : ℕ) (req : Request) : Prop :=
  ∃ x res, s.conns[c]? = some x ∧ x.requests[n]? = some req ∧ x.responses[n]? = some res ∧ Answers lib docRoot req res

section Answer

variable {lib docRoot} {s : St} {c i : ℕ} {x : Conn}

theorem left_of_pc {p : Scheduler.Pc} (h : s.pc i = some p) : s.left i = Connections.left p := by
  rw [St.left, h]
  rfl

/-- the handler of c on thread i, with its request -/
structure Handling (lib : Nlohmann) (docRoot : Bytes) (s : St) (c i : ℕ) (x : Conn) : Prop where
  up : s.server.down = false
  inv : Inv lib docRoot s
  conn : s.conns[c]? = some x
  phase : x.phase = .handling i

theorem Handling.left_pos (h : Handling lib docRoot s c i x) : 0 < s.left i := by
  obtain ⟨req, route, p, -, -, hpc, hat⟩ := h.inv.handler c x i h.conn h.phase
  rw [left_of_pc hpc]
  cases p <;> first
    | exact hat.elim
    | simp [Connections.left]

theorem left_le (s : St) (i : ℕ) : s.left i ≤ 4 := by
  unfold St.left
  cases s.pc i with
  | none => exact Nat.zero_le 4
  | some p => cases p <;> simp [Connections.left]

/-- async_write of a response -/
theorem Handling.answered (h : Handling lib docRoot s c i x) {req : Request} (hreq : x.requests.getLast? = some req)
    {t : St} {file : OpenResult} {shared shared' : Shared} {res : Response}
    (hres : handleRequest lib (fun _ => file) docRoot req shared = (.ok res, shared'))
    (ht : t.conns[c]? = some { x with phase := .writing res.keepAlive, responses := x.responses ++ [res] }) :
    Answered lib docRoot t c x.responses.length req := by
  have hcounts := (h.inv.kept c x h.conn).counts
  rw [h.phase] at hcounts
  refine ⟨_, res, ht, ?_, by simp, file, shared, by rw [hres]⟩
  rw [← hreq, List.getLast?_eq_getElem?, ← hcounts.1, Nat.add_sub_cancel]

/-! ### The handler's own steps -/

/-- a step of the scheduler on the handler's thread, to q -/
theorem Handling.next (h : Handling lib docRoot s c i x) {o : Scheduler.Op} (hout : outside s (.task o) = true)
    (hin : Server.internal o = true) {p q : Scheduler.Pc} (hi : s.pc i = some p)
    (hq : (Scheduler.step s.server.sched o).pcs[i]? = some q) (hlt : Connections.left q < Connections.left p) :
    (step lib docRoot s (.server (.task o))).left i < s.left i := by
  have hstep : step lib docRoot s (.server (.task o)) =
      { s with server := { s.server with sched := Scheduler.step s.server.sched o } } := by
    simp [step, act, h.up, hout, Server.step, Server.act, hin]
  have hpc : (step lib docRoot s (.server (.task o))).pc i = some q := by
    rw [hstep]
    exact hq
  rw [left_of_pc hpc, left_of_pc hi]
  exact hlt

theorem Handling.push (h : Handling lib docRoot s c i x) {t : Task} (hi : s.pc i = some (.push t)) :
    (step lib docRoot s (.push c)).left i < s.left i := by
  have hi' : s.server.sched.pcs[i]? = some (.push t) := hi
  have hpc : (step lib docRoot s (.push c)).pc i = some .notify := by
    simp only [step, act, h.up, h.conn, h.phase, Server.step, Server.act, Server.internal, Scheduler.step, St.pc,
      Option.map_some, Bool.false_eq_true, if_false, if_true, hi']
    exact AdminReport.goto_self hi'
  rw [left_of_pc hpc, left_of_pc hi]
  simp [Connections.left]

/-- notify_one wakes w, or finds no parked thread -/
theorem Handling.notify (h : Handling lib docRoot s c i x) (hi : s.pc i = some .notify) {w : ℕ}
    (hw : s.pc w = some .parked ∨ Scheduler.Pc.parked ∉ s.server.sched.pcs) :
    (step lib docRoot s (.server (.task (.notify i w)))).left i < s.left i := by
  have hi' : s.server.sched.pcs[i]? = some .notify := hi
  refine h.next (q := .busy) rfl rfl hi ?_ (by decide)
  simp only [Scheduler.step, if_pos hi', Scheduler.notifyOne]
  rcases hw with hw | hnone
  · have hw' : s.server.sched.pcs[w]? = some .parked := hw
    have hwi : w ≠ i := by
      rintro rfl
      rw [hi'] at hw'
      cases hw'
    rw [if_pos hw']
    exact AdminReport.goto_self (AdminReport.goto_other hwi hi')
  · rw [if_neg (fun hw => hnone (List.mem_of_getElem? hw)), if_neg hnone]
    exact AdminReport.goto_self hi'

/-- the handler ends with async_write, whatever body.open has given -/
theorem Handling.respond (h : Handling lib docRoot s c i x) {p : Scheduler.Pc} {o : Scheduler.Op} (hi : s.pc i = some p)
    (ho : leaveOp i p = some o) (file : OpenResult) {req : Request} (hreq : x.requests.getLast? = some req) :
    Answered lib docRoot (step lib docRoot s (.respond c file)) c x.responses.length req := by
  obtain ⟨req', route, -, hreq', hr, -⟩ := h.inv.handler c x i h.conn h.phase
  obtain rfl : req' = req := Option.some.inj (hreq'.symm.trans hreq)
  obtain ⟨-, hok⟩ := handleRequest_route lib (fun _ => file) docRoot req' (seen p)
  obtain ⟨res, hres⟩ := hok route hr
  have hread : onRead lib (fun _ => file) docRoot (.request false req') (seen p) =
      (.ok (.responds res res.keepAlive), route.apply (seen p)) := by
    simp only [onRead, hres]
  have hstep : (step lib docRoot s (.respond c file)).conns =
      s.conns.set c { x with phase := .writing res.keepAlive, responses := x.responses ++ [res] } := by
    simp [step, act, h.up, h.conn, h.phase, hi, hreq, ho, hread, St.set]
  refine h.answered hreq hres ?_
  rw [hstep]
  exact getElem?_set_at h.conn _

/-- **Each step of the handler's own** brings it on, or answers the request -/
theorem Handling.turn (h : Handling lib docRoot s c i x) {req : Request} (hreq : x.requests.getLast? = some req)
    {o : Op} (ho : turn s c i o = true) :
    Answered lib docRoot (step lib docRoot s o) c x.responses.length req ∨
      (step lib docRoot s o).left i < s.left i := by
  unfold Connections.turn at ho
  split at ho
  · rename_i t d hi
    obtain rfl : d = c := by simpa using ho
    exact Or.inr (h.push hi)
  · rename_i j w hi
    obtain ⟨rfl, hw⟩ : j = i ∧ _ := by simpa using ho
    exact Or.inr (h.notify hi hw)
  · rename_i j hi
    obtain rfl : j = i := by simpa using ho
    have hi' : s.server.sched.pcs[j]? = some .admin := hi
    refine Or.inr (h.next (q := .reserved) rfl rfl hi ?_ (by decide))
    simp only [Scheduler.step, if_pos hi']
    exact AdminReport.goto_self hi'
  · rename_i j hi
    obtain rfl : j = i := by simpa using ho
    have hi' : s.server.sched.pcs[j]? = some .reserved := hi
    refine Or.inr (h.next (q := .pending s.server.sched.queue) rfl rfl hi ?_ (by simp [Connections.left]))
    simp only [Scheduler.step, if_pos hi']
    exact AdminReport.goto_self hi'
  · rename_i q j hi
    obtain rfl : j = i := by simpa using ho
    have hi' : s.server.sched.pcs[j]? = some (.pending q) := hi
    refine Or.inr (h.next (q := .report q s.server.sched.curr) rfl rfl hi ?_ (by simp [Connections.left]))
    simp only [Scheduler.step, hi']
    exact AdminReport.goto_self hi'
  · rename_i d file hi
    obtain rfl : d = c := by simpa using ho
    exact Or.inl (h.respond hi rfl file hreq)
  · rename_i q cu d file hi
    obtain rfl : d = c := by simpa using ho
    exact Or.inl (h.respond hi rfl file hreq)
  · cases ho

/-- the handler has a next step, whatever body.open gives -/
theorem Handling.exists_turn (h : Handling lib docRoot s c i x) (file : OpenResult) :
    ∃ o, Connections.turn s c i o = true ∧ ∀ f, o = .respond c f → f = file := by
  obtain ⟨req, route, p, -, -, hpc, hat⟩ := h.inv.handler c x i h.conn h.phase
  cases p with
  | push t => exact ⟨.push c, by simp [Connections.turn, hpc], fun f hf => (by cases hf)⟩
  | notify =>
    by_cases hp : Scheduler.Pc.parked ∈ s.server.sched.pcs
    · obtain ⟨w, hlt, hw⟩ := List.getElem_of_mem hp
      have hw' : s.pc w = some .parked := List.getElem?_eq_some_iff.2 ⟨hlt, hw⟩
      exact ⟨.server (.task (.notify i w)), by simp [Connections.turn, hpc, hw'], fun f hf => (by cases hf)⟩
    · exact ⟨.server (.task (.notify i i)), by simp [Connections.turn, hpc, hp], fun f hf => (by cases hf)⟩
  | admin => exact ⟨.server (.task (.reserve i)), by simp [Connections.turn, hpc], fun f hf => (by cases hf)⟩
  | reserved => exact ⟨.server (.task (.tasks i)), by simp [Connections.turn, hpc], fun f hf => (by cases hf)⟩
  | pending q => exact ⟨.server (.task (.current i)), by simp [Connections.turn, hpc], fun f hf => (by cases hf)⟩
  | busy => exact ⟨.respond c file, by simp [Connections.turn, hpc], fun f hf => (by cases hf; rfl)⟩
  | report q cu => exact ⟨.respond c file, by simp [Connections.turn, hpc], fun f hf => (by cases hf; rfl)⟩
  | _ => exact hat.elim

/-! ### The other steps -/

/-- a step of another thread leaves the handler where it is -/
theorem Handling.frame (h : Handling lib docRoot s c i x) {o : Scheduler.Op} (ho : AdminReport.thread o ≠ some i)
    {t : St} (ht : t.server.sched = Scheduler.step s.server.sched o) : t.left i ≤ s.left i := by
  obtain ⟨req, route, p, -, -, hpc, hat⟩ := h.inv.handler c x i h.conn h.phase
  have hparked : p ≠ .parked := by
    rintro rfl
    exact hat
  have hstay : t.pc i = some p := by
    rw [St.pc, ht]
    exact AdminReport.pc_frame ho hpc hparked
  rw [left_of_pc hstay, left_of_pc hpc]

/-- **No step sets the handler back**; it keeps its request until that is answered. -/
theorem Handling.does (h : Handling lib docRoot s c i x) {req : Request} (hreq : x.requests.getLast? = some req)
    {t : St} (hs : Does lib docRoot s t) :
    Answered lib docRoot t c x.responses.length req ∨ t.conns[c]? = some x ∧ t.left i ≤ s.left i := by
  -- the handlers of other connections, and the connections that have none
  have hset : ∀ {d : ℕ} {y : Conn}, d ≠ c → (s.conns.set d y)[c]? = some x :=
    fun hd => by rw [List.getElem?_set_ne hd, h.conn]
  have hother : ∀ {d : ℕ} {y : Conn}, s.conns[d]? = some y → y.phase ≠ .handling i → d ≠ c := by
    rintro d y hy hp rfl
    rw [h.conn, Option.some.injEq] at hy
    exact hp (hy ▸ h.phase)
  obtain ⟨req', route, p, -, -, hpc, hat⟩ := h.inv.handler c x i h.conn h.phase
  cases hs with
  | idle => exact Or.inr ⟨h.conn, le_rfl⟩
  | server o ho =>
    refine Or.inr ⟨h.conn, ?_⟩
    rcases @outside_sched lib s o ho with he | ⟨y, he, hpush, hheld⟩
    · rw [St.left, St.left, St.pc, he]
      rfl
    · obtain ⟨hdone, hrespond⟩ := hheld i (held_of_handling h.conn h.phase)
      obtain ⟨q, hq, -, -, hle⟩ := sched_at hpc hat (hpush i) hdone hrespond
      have hpc' : ({ s with server := Server.step lib s.server o } : St).pc i = some q := by
        rw [St.pc, he]
        exact hq
      rw [left_of_pc hpc', left_of_pc hpc]
      exact hle
  | accept _ => exact Or.inr ⟨by rw [List.getElem?_append_left (List.getElem?_eq_some_iff.1 h.conn).1, h.conn], le_rfl⟩
  | refuse => exact Or.inr ⟨h.conn, le_rfl⟩
  | settle d y z hy hs =>
    have hp : y.phase ≠ .handling i := by
      cases hs with
      | read hp => simp [hp]
      | failed k hp => simp [hp]
      | written k hp => simp [hp]
    exact Or.inr ⟨hset (hother hy hp), le_rfl⟩
  | upgrade d a y hy hp => exact Or.inr ⟨hset (hother hy (by simp [hp])), le_rfl⟩
  | throws => exact Or.inr ⟨h.conn, le_rfl⟩
  | request d j y req'' route'' hy hp hj hr =>
    have hji : j ≠ i := by
      rintro rfl
      exact h.inv.not_idle h.conn hj h.phase
    have hthread : AdminReport.thread (Server.enter j route'') ≠ some i := by
      cases route'' <;> simpa [Server.enter, AdminReport.thread] using hji
    exact Or.inr ⟨hset (hother hy (by simp [hp])), h.frame hthread rfl⟩
  | push d j y t hy hp hj =>
    refine Or.inr ⟨h.conn, ?_⟩
    by_cases hji : j = i
    · subst hji
      have hj' : s.server.sched.pcs[j]? = some (.push t) := hj
      have hpc' : (Scheduler.step s.server.sched (.push j)).pcs[j]? = some .notify := by
        simp only [Scheduler.step, hj']
        exact AdminReport.goto_self hj'
      rw [left_of_pc hj, St.left, St.pc, hpc']
      simp [Connections.left]
    · exact h.frame (o := .push j) (by simpa [AdminReport.thread] using hji) rfl
  | respond d j y req'' p'' o file res shared hy hp hj hreq'' ho hres =>
    by_cases hdc : d = c
    · subst hdc
      obtain rfl : y = x := Option.some.inj (hy.symm.trans h.conn)
      obtain rfl : req'' = req := Option.some.inj (hreq''.symm.trans hreq)
      exact Or.inl (h.answered hreq hres (getElem?_set_at hy _))
    · have hji : j ≠ i := by
        rintro rfl
        exact hdc (h.inv.alone d c y x hy h.conn (hp.trans h.phase.symm) (hp ▸ trivial))
      have hthread : AdminReport.thread o ≠ some i := by
        cases p'' <;> cases ho <;> simpa [AdminReport.thread] using hji
      exact Or.inr ⟨hset hdc, h.frame hthread rfl⟩

/-- the requests and the responses of a connection only grow -/
theorem does_grows {t : St} (hs : Does lib docRoot s t) (hx : s.conns[c]? = some x) :
    ∃ y, t.conns[c]? = some y ∧ x.requests <+: y.requests ∧ x.responses <+: y.responses := by
  have hset : ∀ {d : ℕ} {y z : Conn}, s.conns[d]? = some y → y.requests <+: z.requests → y.responses <+: z.responses →
      ∃ w, (s.conns.set d z)[c]? = some w ∧ x.requests <+: w.requests ∧ x.responses <+: w.responses := by
    intro d y z hy hreq hres
    by_cases hdc : d = c
    · subst hdc
      obtain rfl : y = x := Option.some.inj (hy.symm.trans hx)
      exact ⟨z, getElem?_set_at hy z, hreq, hres⟩
    · exact ⟨x, by rw [List.getElem?_set_ne hdc, hx], List.prefix_refl _, List.prefix_refl _⟩
  cases hs with
  | accept _ =>
    exact ⟨x, by rw [List.getElem?_append_left (List.getElem?_eq_some_iff.1 hx).1, hx], List.prefix_refl _,
      List.prefix_refl _⟩
  | settle d y z hy hs => cases hs <;> exact hset hy (List.prefix_refl _) (List.prefix_refl _)
  | upgrade d a y hy _ => exact hset hy (List.prefix_refl _) (List.prefix_refl _)
  | request d j y req route hy _ _ _ => exact hset hy (List.prefix_append _ _) (List.prefix_refl _)
  | respond d j y req p o file res shared hy _ _ _ _ _ => exact hset hy (List.prefix_refl _) (List.prefix_append _ _)
  | _ => exact ⟨x, hx, List.prefix_refl _, List.prefix_refl _⟩

theorem Answered.does {n : ℕ} {req : Request} {t : St} (h : Answered lib docRoot s c n req)
    (hs : Does lib docRoot s t) : Answered lib docRoot t c n req := by
  obtain ⟨x, res, hx, hreq, hres, hans⟩ := h
  obtain ⟨y, hy, hpreq, hpres⟩ := does_grows hs hx
  obtain ⟨later, hlater⟩ := hpreq
  obtain ⟨later', hlater'⟩ := hpres
  refine ⟨y, res, hy, ?_, ?_, hans⟩
  · rw [← hlater, List.getElem?_append_left (List.getElem?_eq_some_iff.1 hreq).1, hreq]
  · rw [← hlater', List.getElem?_append_left (List.getElem?_eq_some_iff.1 hres).1, hres]

end Answer

/-- **A request that has been read is answered.** Its handler always has a next step, whatever body.open gives, and at
most four to go. After so many steps of its own the request is answered, for any file, any thread that notify_one wakes,
and any steps of the other threads before, between and after them, unless the server has gone down. So push_task and the
admin report never wait. -/
theorem request_answered {s : St} (h : (machine threads lib docRoot).Reachable s) (hd : s.server.down = false) {c i : ℕ}
    {x : Conn} (hx : s.conns[c]? = some x) (hp : x.phase = .handling i) {req : Request}
    (hreq : x.requests.getLast? = some req) :
    (∀ file, ∃ o, turn s c i o = true ∧ ∀ f, o = .respond c f → f = file) ∧ s.left i ≤ 4 ∧
      ∀ ops, s.left i ≤ (machine threads lib docRoot).tally (fun s o => turn s c i o) s ops →
        ((machine threads lib docRoot).run s ops).server.down = true ∨
          Answered lib docRoot ((machine threads lib docRoot).run s ops) c x.responses.length req := by
  have hh : Handling lib docRoot s c i x := ⟨hd, reachable_inv threads lib docRoot h, hx, hp⟩
  refine ⟨hh.exists_turn, left_le s i, ?_⟩
  intro ops hops
  refine (machine threads lib docRoot).run_progress (P := fun s o => turn s c i o)
    (J := fun n s => (machine threads lib docRoot).Reachable s ∧ Handling lib docRoot s c i x ∧ s.left i ≤ n)
    (Q := fun s => s.server.down = true ∨ Answered lib docRoot s c x.responses.length req) ?_ ?_ ?_
    ⟨h, hh, le_rfl⟩ hops
  · intro s hs
    exact absurd hs.2.1.left_pos (by omega)
  · intro s o hs
    rcases hs with hs | hs
    · exact Or.inl (by show (step lib docRoot s o).server.down = true; rw [step, if_pos hs]; exact hs)
    · exact Or.inr (hs.does (step_does lib docRoot s o))
  · intro n s o hs
    obtain ⟨hreach, hh, hn⟩ := hs
    have hdoes := step_does lib docRoot s o
    by_cases hdown : (step lib docRoot s o).server.down = true
    · exact Or.inl (Or.inl hdown)
    · rcases hh.does hreq hdoes with hans | ⟨hconn, hle⟩
      · exact Or.inl (Or.inr hans)
      · have hh' : Handling lib docRoot (step lib docRoot s o) c i x :=
          ⟨by simpa using hdown, reachable_inv threads lib docRoot (hreach.step o), hconn, hp⟩
        cases ho : turn s c i o with
        | false => exact Or.inr ⟨n, le_rfl, hreach.step o, hh', hle.trans hn⟩
        | true =>
          rcases hh.turn hreq ho with hans | hlt
          · exact Or.inl (Or.inr hans)
          · refine Or.inr ⟨n - 1, by rw [Bool.toNat_true]; omega, hreach.step o, hh', ?_⟩
            exact Nat.le_sub_one_of_lt (hlt.trans_le hn)

/-- a task that has just been read, and the steps of its handler on thread 1 -/
theorem request_answered_post :
    let M := machine 1 Server.unnamedLib []
    let s := M.run (init 1) [.accept 1 false, .read 0 1 0 (.request false Server.unnamedPost)]
    (∀ file, ∃ o, turn s 0 1 o = true ∧ ∀ f, o = .respond 0 f → f = file) ∧ s.left 1 ≤ 4 ∧
      let t := M.run s [.push 0, .server (.task (.notify 1 0)), .respond 0 .noSuchFile]
      t.server.down = true ∨ Answered Server.unnamedLib [] t 0 0 Server.unnamedPost := by
  intro M s
  have hx : s.conns[0]? = some ⟨.handling 1, [Server.unnamedPost], [], 0⟩ := by decide +kernel
  have h := request_answered 1 Server.unnamedLib [] ⟨_, rfl⟩ (by decide +kernel) hx rfl rfl
  exact ⟨h.1, h.2.1, h.2.2 _ (by decide +kernel)⟩

end Runs

end Gss.Connections
