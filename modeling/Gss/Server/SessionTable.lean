/-
The session table of `shared_state`: what its raw pointers point to.

sessions_ holds addresses. A session's storage is released after its destructor's body, which calls leave, and an
address may then be taken by a later session. A session can end in several ways (a failed accept, a failed read, a
failed write, a handler or a broadcast that drops the last shared_ptr); all of them reach `leave` through a use count of
0.

- `Session.Life`: the storage goes after leave, leave comes after the last handler, and join before the first read.
- `joinedAs_run`: whether a session has joined is settled by its on_accept.
- `session_table_sound`: in every reachable state sessions_ is the set of the sessions that have joined and not left;
  the pointers that a send loop walks are theirs, and their storage is there; join never finds its address in the table.
-/
import Gss.Server.Sessions

namespace Gss.Sessions

open Gss.Core

/-- on_accept has succeeded, and the destructor has not executed leave -/
def Session.Joined (o : Session) : Prop := o.joined = true ∧ o.left = false

/-- the order of a session's life -/
structure Session.Life (o : Session) : Prop where
  freed : o.freed = true → o.left = true
  left : o.left = true → o.reader = .stopped
  joined : o.reader = .accepting → o.joined = false
  reads : o.reader ≠ .accepting → o.reader ≠ .stopped → o.joined = true

structure TableInv (s : St) : Prop where
  each : ∀ (i : Sid) (o : Session), s.objs[i]? = some o → o.Life
  table : ∀ a, a ∈ s.table ↔ ∃ (i : Sid) (o : Session), s.objs[i]? = some o ∧ o.Joined ∧ o.addr = a

theorem tableInv_init : TableInv init := by
  refine ⟨fun i o h => (by cases h), fun a => iff_of_false (by simp [init]) ?_⟩
  intro hlive
  obtain ⟨i, o, h, _⟩ := hlive
  cases h

/-! ## The life of a session -/

/-- the storage of a session is there until it leaves -/
theorem Session.Life.stored {o : Session} (h : o.Life) (hl : o.left = false) : o.freed = false := by
  cases hf : o.freed with
  | false => rfl
  | true =>
    rw [h.freed hf] at hl
    cases hl

/-- a session whose handler is pending or running has not left -/
theorem Session.Life.present {o : Session} (h : o.Life) (ha : o.reader ≠ .stopped) : o.left = false := by
  cases hl : o.left with
  | false => rfl
  | true => exact absurd (h.left hl) ha

/-- the reader stops, or moves on from a read -/
theorem Session.Life.reader {o : Session} (h : o.Life) {p : Reader} (hp : p ≠ .accepting)
    (ha : o.reader ≠ .stopped) (hm : p = .stopped ∨ o.reader ≠ .accepting) :
    ({ o with reader := p } : Session).Life := by
  refine ⟨h.freed, ?_, fun he => absurd he hp, ?_⟩
  · intro hl
    exact absurd (h.left hl) ha
  · intro _ hs
    exact h.reads (hm.resolve_left hs) ha

/-- nothing owns a session whose use count is 0: its reader has stopped -/
theorem stopped_of_useCount {s : St} {j : Sid} {o : Session} (ho : s.objs[j]? = some o) (hu : s.useCount j = 0) :
    o.reader = .stopped := by
  have hactive : o.reader.active = false := by
    simp only [St.useCount, ho, Session.ownRefs] at hu
    cases ha : o.reader.active with
    | false => rfl
    | true =>
      rw [ha] at hu
      simp at hu
  revert hactive
  cases o.reader <;> simp [Reader.active]

/-! ## The table -/

section Step

variable {s : St}

/-- one session changes, and neither joins, leaves nor moves -/
theorem tableInv_modify (h : TableInv s) {i : Sid} {f : Session → Session}
    (hf : ∀ o, s.objs[i]? = some o → (f o).Life ∧ ((f o).Joined ↔ o.Joined) ∧ (f o).addr = o.addr) :
    TableInv (s.modify i f) := by
  refine ⟨?_, ?_⟩
  · intro j o ho
    obtain ⟨o', ho', ⟨rfl, rfl⟩ | ⟨-, rfl⟩⟩ := modify_get ho
    · exact (hf o' ho').1
    · exact h.each j o ho'
  · intro a
    apply (h.table a).trans
    constructor
    · intro hin
      obtain ⟨j, o, ho, hj, ha⟩ := hin
      by_cases hji : j = i
      · subst hji
        exact ⟨j, f o, by simp [St.modify, ho], (hf o ho).2.1.2 hj, (hf o ho).2.2.trans ha⟩
      · exact ⟨j, o, by simp [St.modify, Ne.symm hji, ho], hj, ha⟩
    · intro hin
      obtain ⟨j, o, ho, hj, ha⟩ := hin
      obtain ⟨o', ho', ⟨rfl, rfl⟩ | ⟨-, rfl⟩⟩ := modify_get ho
      · exact ⟨j, o', ho', (hf o' ho').2.1.1 hj, (hf o' ho').2.2.symm.trans ha⟩
      · exact ⟨j, o, ho', hj, ha⟩

/-- one session changes, and only in its handlers -/
theorem tableInv_frame (h : TableInv s) {i : Sid} {f : Session → Session}
    (hf : ∀ o, (f o).reader = o.reader ∧ (f o).joined = o.joined ∧ (f o).left = o.left ∧ (f o).addr = o.addr ∧
      ((f o).freed = true → o.freed = true ∨ o.left = true)) : TableInv (s.modify i f) := by
  apply tableInv_modify h
  intro o ho
  obtain ⟨hr, hj, hl, ha, hfr⟩ := hf o
  have hlife := h.each i o ho
  refine ⟨⟨?_, by rw [hl, hr]; exact hlife.left, by rw [hr, hj]; exact hlife.joined,
    by rw [hr, hj]; exact hlife.reads⟩, ?_, ha⟩
  · intro h1
    rw [hl]
    exact (hfr h1).elim hlife.freed id
  · rw [Session.Joined, Session.Joined, hj, hl]

theorem tableInv_setReader (h : TableInv s) {i : Sid} {p q : Reader} (hi : s.reader i = some q) (hq : q ≠ .stopped)
    (hp : p ≠ .accepting) (hm : p = .stopped ∨ q ≠ .accepting) : TableInv (s.setReader i p) := by
  apply tableInv_modify h
  intro o ho
  have hr : o.reader = q := by simpa [St.reader, ho] using hi
  exact ⟨(h.each i o ho).reader hp (by rwa [hr]) (by rwa [hr]), Iff.rfl, rfl⟩

/-- the invariant reads the sessions and the table only -/
theorem tableInv_congr {t : St} (h : TableInv s) (ho : t.objs = s.objs) (ht : t.table = s.table) : TableInv t :=
  ⟨fun i o hi => h.each i o (by rw [← ho, hi]), fun a => by rw [ht, ho]; exact h.table a⟩

theorem tableInv_create (h : TableInv s) (a : Addr) :
    TableInv { s with objs := s.objs ++ [Session.make a] } := by
  have get : ∀ {i : Sid} {o : Session}, (s.objs ++ [Session.make a])[i]? = some o →
      s.objs[i]? = some o ∨ o = Session.make a := by
    intro i o hi
    rw [List.getElem?_append] at hi
    split_ifs at hi
    · exact Or.inl hi
    · exact Or.inr (List.mem_singleton.1 (List.mem_of_getElem? hi))
  refine ⟨?_, ?_⟩
  · intro i o hi
    rcases get hi with hi | rfl
    · exact h.each i o hi
    · exact ⟨fun h => (by cases h), fun h => (by cases h), fun _ => rfl, fun h _ => absurd rfl h⟩
  · intro b
    apply (h.table b).trans
    constructor
    · intro hin
      obtain ⟨i, o, hi, hj, hb⟩ := hin
      exact ⟨i, o, by rw [List.getElem?_append_left (List.getElem?_eq_some_iff.1 hi).1, hi], hj, hb⟩
    · intro hin
      obtain ⟨i, o, hi, hj, hb⟩ := hin
      rcases get hi with hi | rfl
      · exact ⟨i, o, hi, hj, hb⟩
      · cases hj.1

/-- **join**: the address of the accepted session enters the table -/
theorem tableInv_join (h : TableInv s) {i : Sid} {o : Session} (ho : s.objs[i]? = some o)
    (hr : o.reader = .accepting) :
    TableInv { s.modify i fun o => { o with reader := .reading, joined := true } with
      table := insert o.addr s.table } := by
  have hleft : o.left = false := (h.each i o ho).present (by rw [hr]; exact Reader.noConfusion)
  refine ⟨?_, ?_⟩
  · intro j p hp
    obtain ⟨p', hp', ⟨rfl, rfl⟩ | ⟨-, rfl⟩⟩ := modify_get hp
    · obtain rfl : p' = o := Option.some.inj (hp'.symm.trans ho)
      refine ⟨(h.each j p' ho).freed, ?_, fun he => (by cases he), fun _ _ => rfl⟩
      intro hl
      rw [hleft] at hl
      cases hl
    · exact h.each j p hp'
  · intro a
    rw [Finset.mem_insert, h.table]
    constructor
    · rintro (rfl | ⟨j, p, hp, hj, ha⟩)
      · exact ⟨i, { o with reader := .reading, joined := true }, by simp [St.modify, ho], ⟨rfl, hleft⟩, rfl⟩
      · by_cases hji : j = i
        · subst hji
          exact ⟨j, { p with reader := .reading, joined := true }, by simp [St.modify, hp], ⟨rfl, hj.2⟩, ha⟩
        · exact ⟨j, p, by simp [St.modify, Ne.symm hji, hp], hj, ha⟩
    · intro hin
      obtain ⟨j, p, hp, hj, ha⟩ := hin
      obtain ⟨p', hp', ⟨rfl, rfl⟩ | ⟨-, rfl⟩⟩ := modify_get hp
      · cases hp'.symm.trans ho
        exact Or.inl ha.symm
      · exact Or.inr ⟨j, p, hp', hj, ha⟩

/-- **leave**: the address of the session goes, and no other session that has not left has it -/
theorem tableInv_leave (hinv : Inv s) (h : TableInv s) {j : Sid} {o : Session} (ho : s.objs[j]? = some o)
    (hu : s.useCount j = 0) (hl : o.left = false) :
    TableInv { s.modify j fun o => { o with left := true } with table := s.table.erase o.addr } := by
  have hlife := h.each j o ho
  have hstop := stopped_of_useCount ho hu
  refine ⟨?_, ?_⟩
  · intro k p hp
    obtain ⟨p', hp', ⟨rfl, rfl⟩ | ⟨-, rfl⟩⟩ := modify_get hp
    · obtain rfl : p' = o := Option.some.inj (hp'.symm.trans ho)
      exact ⟨fun _ => rfl, fun _ => hstop, hlife.joined, hlife.reads⟩
    · exact h.each k p hp'
  · intro a
    rw [Finset.mem_erase, h.table]
    constructor
    · intro hin
      obtain ⟨hne, k, p, hp, hj, ha⟩ := hin
      have hkj : k ≠ j := by
        rintro rfl
        cases hp.symm.trans ho
        exact hne ha.symm
      exact ⟨k, p, by simp [St.modify, Ne.symm hkj, hp], hj, ha⟩
    · intro hin
      obtain ⟨k, p, hp, hj, ha⟩ := hin
      obtain ⟨p', hp', ⟨rfl, rfl⟩ | ⟨hkj, rfl⟩⟩ := modify_get hp
      · cases hj.2
      · refine ⟨?_, k, p, hp', hj, ha⟩
        rintro rfl
        exact hkj (hinv.apart k j p o hp' ho ((h.each k p hp').stored hj.2) (hlife.stored hl) ha)

end Step

theorem does_tableInv {lib : Nlohmann} {s s' : St} {o : Op} (hs : Does lib s o s') (hinv : Inv s) (h : TableInv s) :
    TableInv s' := by
  cases hs with
  | idle => exact h
  | create a _ => exact tableInv_create h a
  | acceptOk i o ho hr => exact tableInv_join h ho hr
  | acceptFail i hi => exact tableInv_setReader h hi (by simp) (by simp) (by simp)
  | readFail i hi => exact tableInv_setReader h hi (by simp) (by simp) (by simp)
  | readThrow i o payload e ho hr hj =>
    have h1 : TableInv (s.modify i fun o => { o with
        buffer := o.buffer ++ payload, received := o.received ++ [payload] }) :=
      tableInv_frame h fun o => ⟨rfl, rfl, rfl, rfl, Or.inl⟩
    exact tableInv_congr h1 rfl rfl
  | readOk i o payload hello ho hr hj =>
    apply tableInv_modify h
    intro p hp
    cases hp.symm.trans ho
    have hlife := (h.each i o ho).reader (p := .parsed o.said.length (o.buffer ++ payload)) (by simp) (by simp [hr])
      (by simp [hr])
    exact ⟨⟨hlife.freed, hlife.left, hlife.joined, hlife.reads⟩, Iff.rfl, rfl⟩
  | snapshot i k text order hi _ => exact tableInv_setReader h hi (by simp) (by simp) (by simp)
  | lockOk i k text r todo hi _ => exact tableInv_setReader h hi (by simp) (by simp) (by simp)
  | lockFail i k text r todo hi _ => exact tableInv_setReader h hi (by simp) (by simp) (by simp)
  | post i k text r todo hi _ =>
    have h1 : TableInv (s.setReader i (.posted k text r todo)) := tableInv_setReader h hi (by simp) (by simp) (by simp)
    exact tableInv_frame h1 fun o => ⟨rfl, rfl, rfl, rfl, Or.inl⟩
  | release i k text r todo hi => exact tableInv_setReader h hi (by simp) (by simp) (by simp)
  | finish i k text hi =>
    apply tableInv_modify h
    intro o ho
    have hr : o.reader = .walking k text [] := by simpa [St.reader, ho] using hi
    have hlife := (h.each i o ho).reader (p := .reading) (by simp) (by simp [hr]) (by simp [hr])
    exact ⟨⟨hlife.freed, hlife.left, hlife.joined, hlife.reads⟩, Iff.rfl, rfl⟩
  | onSend j o m rest _ _ _ => exact tableInv_frame h fun o => ⟨rfl, rfl, rfl, rfl, Or.inl⟩
  | onWrite j o k error _ _ => exact tableInv_frame h fun o => ⟨rfl, rfl, rfl, rfl, Or.inl⟩
  | leave j o ho hu hl => exact tableInv_leave hinv h ho hu hl
  | free j o ho hl =>
    apply tableInv_modify h
    intro p hp
    cases hp.symm.trans ho
    have hlife := h.each j o ho
    exact ⟨⟨fun _ => hl, hlife.left, hlife.joined, hlife.reads⟩, Iff.rfl, rfl⟩
  | call id text => exact tableInv_congr h rfl rfl
  | lookup c x order _ _ _ => exact tableInv_congr h rfl rfl
  | lockCallOk c r _ _ => exact tableInv_congr h rfl rfl
  | lockCallFail c r _ _ => exact tableInv_congr h rfl rfl
  | lockCallNone c _ => exact tableInv_congr h rfl rfl
  | postCall c x r o _ _ _ =>
    have h1 : TableInv (s.setCall c (.posted r)) := tableInv_congr h rfl rfl
    have h2 : TableInv ((s.setCall c (.posted r)).postTo r ⟨.update c, x.text⟩) :=
      tableInv_frame h1 fun o => ⟨rfl, rfl, rfl, rfl, Or.inl⟩
    exact tableInv_congr h2 rfl rfl
  | returnCall c r _ => exact tableInv_congr h rfl rfl

theorem reachable_tableInv {lib : Nlohmann} {s : St} (h : (machine lib).Reachable s) : TableInv s := by
  refine ((machine lib).invariant (I := fun s => Inv s ∧ TableInv s) ⟨inv_init, tableInv_init⟩ ?_ h).2
  intro s o hboth
  obtain ⟨hinv, htab⟩ := hboth
  exact ⟨step_inv lib s o hinv, does_tableInv (step_does lib s o) hinv htab⟩

/-! ## What on_accept settles -/

/-- on_accept of the session has run, and `joined` is b -/
def JoinedAs (s : St) (i : Sid) (b : Bool) : Prop :=
  ∃ o, s.objs[i]? = some o ∧ o.reader ≠ .accepting ∧ o.joined = b

theorem joinedAs_modify {s : St} {i : Sid} {b : Bool} (h : JoinedAs s i b) (j : Sid) {f : Session → Session}
    (hf : ∀ o, s.objs[j]? = some o → o.reader ≠ .accepting → (f o).reader ≠ .accepting ∧ (f o).joined = o.joined) :
    JoinedAs (s.modify j f) i b := by
  obtain ⟨o, ho, hr, hb⟩ := h
  by_cases hij : i = j
  · subst hij
    obtain ⟨hr', hb'⟩ := hf o ho hr
    exact ⟨f o, by simp [St.modify, ho], hr', hb'.trans hb⟩
  · exact ⟨o, by simp [St.modify, Ne.symm hij, ho], hr, hb⟩

theorem joinedAs_setReader {s : St} {i : Sid} {b : Bool} (h : JoinedAs s i b) (j : Sid) {p : Reader}
    (hp : p ≠ .accepting) : JoinedAs (s.setReader j p) i b :=
  joinedAs_modify h j fun _ _ _ => ⟨hp, rfl⟩

theorem does_joinedAs {lib : Nlohmann} {s s' : St} {o : Op} (hs : Does lib s o s') {i : Sid} {b : Bool}
    (h : JoinedAs s i b) : JoinedAs s' i b := by
  cases hs with
  | create a _ =>
    obtain ⟨o, ho, hr, hb⟩ := h
    exact ⟨o, by rw [List.getElem?_append_left (List.getElem?_eq_some_iff.1 ho).1, ho], hr, hb⟩
  | acceptOk j o ho hr => exact joinedAs_modify h j fun p hp hne => absurd (Option.some.inj (hp.symm.trans ho) ▸ hr) hne
  | acceptFail j _ => exact joinedAs_setReader h j (by simp)
  | readFail j _ => exact joinedAs_setReader h j (by simp)
  | readThrow j o payload e _ _ _ => exact joinedAs_modify h j fun _ _ hne => ⟨hne, rfl⟩
  | readOk j o payload hello _ _ _ => exact joinedAs_modify h j fun _ _ _ => ⟨by simp, rfl⟩
  | snapshot j k text order _ _ => exact joinedAs_setReader h j (by simp)
  | lockOk j k text r todo _ _ => exact joinedAs_setReader h j (by simp)
  | lockFail j k text r todo _ _ => exact joinedAs_setReader h j (by simp)
  | post j k text r todo _ _ =>
    exact joinedAs_modify (joinedAs_setReader h j (p := .posted k text r todo) (by simp)) r fun _ _ hne => ⟨hne, rfl⟩
  | release j k text r todo _ => exact joinedAs_setReader h j (by simp)
  | finish j k text _ => exact joinedAs_modify h j fun _ _ _ => ⟨by simp, rfl⟩
  | onSend j o m rest _ _ _ => exact joinedAs_modify h j fun _ _ hne => ⟨hne, rfl⟩
  | onWrite j o k error _ _ => exact joinedAs_modify h j fun _ _ hne => ⟨hne, rfl⟩
  | leave j o _ _ _ => exact joinedAs_modify h j fun _ _ hne => ⟨hne, rfl⟩
  | free j o _ _ => exact joinedAs_modify h j fun _ _ hne => ⟨hne, rfl⟩
  | postCall c x r o _ _ _ => exact joinedAs_modify (s := s.setCall c (.posted r)) h r fun _ _ hne => ⟨hne, rfl⟩
  | _ => exact h

/-- **A session joins in its on_accept, or never**. -/
theorem joinedAs_run {lib : Nlohmann} {s : St} (h : TableInv s) (hd : s.down = false) {i : Sid} 
    (hi : s.reader i = some .accepting) (error : Bool) (ops : List Op) :
    JoinedAs ((machine lib).run (step lib s (.accept i error)) ops) i !error := by
  apply (machine lib).run_invariant (I := fun s => JoinedAs s i !error)
  · intro t o h
    exact does_joinedAs (step_does lib t o) h
  · obtain ⟨o, ho, hr⟩ := Option.map_eq_some_iff.1 hi
    cases error with
    | true =>
      have hfail : step lib s (.accept i true) = s.setReader i .stopped := by simp [step, hd, act, ho, hr]
      rw [hfail]
      exact ⟨{ o with reader := .stopped }, by simp [St.setReader, St.modify, ho], by simp, (h.each i o ho).joined hr⟩
    | false =>
      exact ⟨{ o with reader := .reading, joined := true }, by simp [step, hd, act, ho, hr, St.modify], by simp, rfl⟩

/-- the session at an address of the table -/
theorem objAt_table {s : St} (hinv : Inv s) (h : TableInv s) {a : Addr} (ha : a ∈ s.table) :
    ∃ (i : Sid) (o : Session), s.objAt a = some i ∧ s.objs[i]? = some o ∧ o.Joined ∧ o.freed = false := by
  obtain ⟨i, o, ho, hj, rfl⟩ := (h.table a).1 ha
  have hf := (h.each i o ho).stored hj.2
  exact ⟨i, o, hinv.objAt_stored ho hf, ho, hj, hf⟩

/-- **Session table soundness.** In every reachable state sessions_ holds the addresses of the sessions that have joined
and not left, and no two of these share an address. Each pointer a send loop walks is the address of such a session,
whose storage has not been released. A session that is about to join does not find its address in the table. It has not
joined before its on_accept; from there on it has, in every continuation, exactly when on_accept was called without an
error; and a session that reads has joined. -/
theorem session_table_sound (lib : Nlohmann) (ops : List Op) :
    let s := (machine lib).run init ops
    (∀ a, a ∈ s.table ↔ ∃ (i : Sid) (o : Session), s.objs[i]? = some o ∧ o.Joined ∧ o.addr = a) ∧
      (∀ (i j : Sid) (o p : Session), s.objs[i]? = some o → s.objs[j]? = some p → o.Joined → p.Joined →
        o.addr = p.addr → i = j) ∧
      (∀ order, Enumerates order s.table → ∀ a ∈ order, ∃ (i : Sid) (o : Session), s.objAt a = some i ∧
        s.objs[i]? = some o ∧ o.Joined ∧ o.freed = false) ∧
      (∀ (i : Sid) (o : Session), s.objs[i]? = some o → o.reader = .accepting → o.addr ∉ s.table) ∧
      (∀ (i : Sid) (o : Session), s.objs[i]? = some o → (o.reader = .accepting → o.joined = false) ∧
        (o.reader ≠ .accepting → o.reader ≠ .stopped → o.joined = true)) ∧
      (s.down = false → ∀ (i : Sid) (error : Bool) (ops' : List Op), s.reader i = some .accepting →
        ∃ o, ((machine lib).run (step lib s (.accept i error)) ops').objs[i]? = some o ∧ o.joined = !error) := by
  intro s
  have hs : (machine lib).Reachable s := (machine lib).reachable_run ops
  have hinv := reachable_inv hs
  have htab := reachable_tableInv hs
  refine ⟨htab.table, ?_, ?_, ?_, ?_, ?_⟩
  · intro i j o p ho hp hoj hpj ha
    exact hinv.apart i j o p ho hp ((htab.each i o ho).stored hoj.2) ((htab.each j p hp).stored hpj.2) ha
  · intro order he a ha
    apply objAt_table hinv htab
    rw [← he.2]
    exact List.mem_toFinset.2 ha
  · intro i o ho hr ha
    obtain ⟨j, p, hp, hj, hpa⟩ := (htab.table _).1 ha
    have hlife := htab.each i o ho
    have hf := hlife.stored (hlife.present (by rw [hr]; exact Reader.noConfusion))
    obtain rfl := hinv.apart j i p o hp ho ((htab.each j p hp).stored hj.2) hf hpa
    obtain rfl : p = o := Option.some.inj (hp.symm.trans ho)
    have hno := hlife.joined hr
    rw [hj.1] at hno
    cases hno
  · intro i o ho
    exact ⟨(htab.each i o ho).joined, (htab.each i o ho).reads⟩
  · intro hd i error ops' hi
    obtain ⟨o, ho, -, hj⟩ := joinedAs_run htab hd hi error ops'
    exact ⟨o, ho, hj⟩

/-- a session joins and leaves, and a later one has its address -/
example : ((machine (.table [] [])).run init
    [.create 7, .accept 0 false, .read 0 none, .leave 0, .free 0, .create 7, .accept 1 false]).table = {7} := by
  decide +kernel

end Gss.Sessions
