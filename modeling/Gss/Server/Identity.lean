/-
Whom a targeted send reaches, by name. uid_ is empty at first and then the name of the last hello; the loop of
send(id, message) compares it with the id under mutex_, the message is posted later.

- `Named`, `reachable_named`: a session a call has found had said hello as its id, or nothing while the id is empty;
  every targeted message posted to a session has its `Delivery`.
- `delivery_last_hello_iff`: when the last hello of the session, at the post, carried the id.
-/
import Gss.Server.TargetedSend

namespace Gss.Sessions

open Gss.Core

/-- the session a call will post to, or has posted to -/
def CallPc.target : CallPc → Option Sid
  | .found w => w
  | .locked r | .posted r => some r
  | _ => none

/-- session r had the name id when it had said the hellos in seen -/
def FoundAs (s : St) (id : String) (seen : List String) (r : Sid) : Prop :=
  ∃ o, s.objs[r]? = some o ∧ seen <+: o.hellos ∧ seen.getLastD "" = id

structure Named (s : St) : Prop where
  target : ∀ (c : CallId) (x : Call) (r : Sid), s.calls[c]? = some x → x.pc.target = some r → FoundAs s x.id x.seen r
  delivery : ∀ d ∈ s.deliveries, ∃ x, s.calls[d.call]? = some x ∧ d.seen <+: d.hellos ∧ d.seen.getLastD "" = x.id
  posted : ∀ (r : Sid) (o : Session) (m : Msg) (c : CallId), s.objs[r]? = some o → m ∈ o.posted → m.origin = .update c →
    ∃ d ∈ s.deliveries, d.call = c ∧ d.target = r

theorem named_init : Named init :=
  ⟨fun _ _ _ h => (by cases h), fun _ h => (by cases h), fun _ _ _ _ h => (by cases h)⟩

theorem named_congr {s t : St} (h : Named s) (ho : t.objs = s.objs) (hc : t.calls = s.calls)
    (hd : t.deliveries = s.deliveries) : Named t := by
  refine ⟨?_, ?_, ?_⟩
  · intro c x r hx hr
    rw [hc] at hx
    unfold FoundAs
    rw [ho]
    exact h.target c x r hx hr
  · intro d hm
    rw [hd] at hm
    rw [hc]
    exact h.delivery d hm
  · intro r o m c hr hm hg
    rw [ho] at hr
    rw [hd]
    exact h.posted r o m c hr hm hg

/-- a message on the strand of a session that gets one more -/
theorem mem_posted_snoc {o : Session} {m n : Msg} (h : m ∈ ({ o with strand := o.strand ++ [n] } : Session).posted) :
    m ∈ o.posted ∨ m = n := by
  simpa [Session.posted, or_assoc] using h

/-- a session goes on, saying more hellos, with at most one message more, of a call that has its delivery -/
theorem named_modify {s : St} (h : Named s) {i : Sid} {f : Session → Session}
    (hh : ∀ o, s.objs[i]? = some o → o.hellos <+: (f o).hellos)
    (hp : ∀ o m c, s.objs[i]? = some o → m ∈ (f o).posted → m.origin = .update c →
      m ∈ o.posted ∨ ∃ d ∈ s.deliveries, d.call = c ∧ d.target = i) : Named (s.modify i f) := by
  refine ⟨?_, h.delivery, ?_⟩
  · intro c x r hx hr
    obtain ⟨o, ho, hs, hid⟩ := h.target c x r hx hr
    by_cases hri : r = i
    · subst hri
      exact ⟨f o, by simp [St.modify, ho], hs.trans (hh o ho), hid⟩
    · exact ⟨o, by simp [St.modify, Ne.symm hri, ho], hs, hid⟩
  · intro r o m c hr hm hg
    obtain ⟨p, hp', ⟨rfl, rfl⟩ | ⟨-, rfl⟩⟩ := modify_get hr
    · rcases hp p m c hp' hm hg with hm | hd
      · exact h.posted r p m c hp' hm hg
      · exact hd
    · exact h.posted r o m c hp' hm hg

/-- a session that says and is posted nothing -/
theorem named_modify_same {s : St} (h : Named s) {i : Sid} {f : Session → Session}
    (hh : ∀ o, s.objs[i]? = some o → o.hellos <+: (f o).hellos)
    (hp : ∀ o, s.objs[i]? = some o → (f o).posted = o.posted) : Named (s.modify i f) :=
  named_modify h hh fun o _ _ ho hm _ => Or.inl (hp o ho ▸ hm)

theorem named_setReader {s : St} (h : Named s) (i : Sid) (p : Reader) : Named (s.setReader i p) :=
  named_modify_same h (fun _ _ => List.prefix_refl _) fun _ _ => rfl

/-- a call goes on -/
theorem named_setCall {s : St} (h : Named s) {c : CallId} {f : Call → Call} (hid : ∀ x, (f x).id = x.id)
    (ht : ∀ x r, s.calls[c]? = some x → (f x).pc.target = some r → FoundAs s x.id (f x).seen r) :
    Named { s with calls := s.calls.modify c f } := by
  have get : ∀ (d : CallId) (y : Call), (s.calls.modify c f)[d]? = some y →
      ∃ x, s.calls[d]? = some x ∧ (d = c ∧ y = f x ∨ d ≠ c ∧ y = x) := by
    intro d y hy
    rw [List.getElem?_modify] at hy
    obtain ⟨x, hx, hy⟩ := Option.map_eq_some_iff.1 hy
    by_cases hd : d = c
    · subst hd; simp only [if_true] at hy; exact ⟨x, hx, Or.inl ⟨rfl, hy.symm⟩⟩
    · rw [if_neg (Ne.symm hd)] at hy; exact ⟨x, hx, Or.inr ⟨hd, hy.symm⟩⟩
  refine ⟨?_, ?_, h.posted⟩
  · intro d y r hy hr
    obtain ⟨x, hx, ⟨rfl, rfl⟩ | ⟨-, rfl⟩⟩ := get d y hy
    · rw [hid]; exact ht x r hx hr
    · exact h.target d y r hx hr
  · intro d hd
    obtain ⟨x, hx, hs, hl⟩ := h.delivery d hd
    by_cases hc : d.call = c
    · exact ⟨f x, by simp [← hc, hx], hs, by rw [hl, hid]⟩
    · exact ⟨x, by simp [Ne.symm hc, hx], hs, hl⟩

/-- a call that keeps its target, or drops it -/
theorem named_setCallPc {s : St} (h : Named s) {c : CallId} {p : CallPc}
    (hp : ∀ r, p.target = some r → ∃ q, s.callPc c = some q ∧ q.target = some r) : Named (s.setCall c p) := by
  refine named_setCall h (fun _ => rfl) fun x r hx hr => ?_
  obtain ⟨q, hq, hqr⟩ := hp r hr
  rw [callPc_of hx, Option.some.injEq] at hq
  exact h.target c x r hx (by rw [hq]; exact hqr)

/-- the session the loop leaves has the id -/
theorem lastMatch_uid {s : St} {id : String} {order : List Addr} {r : Sid} (h : s.lastMatch id order = some r) :
    ∃ o, s.objs[r]? = some o ∧ o.uid = id := by
  rw [lastMatch_eq] at h
  have huid := (List.mem_filter.1 (List.mem_of_getLast? h)).2
  simpa using huid

theorem named_create {s : St} (h : Named s) (a : Addr) : Named { s with objs := s.objs ++ [Session.make a] } := by
  refine ⟨?_, h.delivery, ?_⟩
  · intro c x r hx hr
    obtain ⟨o, ho, hs⟩ := h.target c x r hx hr
    exact ⟨o, by rw [← ho]; exact List.getElem?_append_left (List.getElem?_eq_some_iff.1 ho).1, hs⟩
  · intro r o m c hr hm hg
    rw [List.getElem?_append] at hr
    split_ifs at hr
    · exact h.posted r o m c hr hm hg
    · obtain rfl := List.mem_singleton.1 (List.mem_of_getElem? hr)
      cases hm

theorem named_call {s : St} (h : Named s) (id : String) (text : Bytes) :
    Named { s with calls := s.calls ++ [⟨id, text, .called, []⟩] } := by
  refine ⟨?_, ?_, h.posted⟩
  · intro c x r hx hr
    rw [List.getElem?_append] at hx
    split_ifs at hx
    · exact h.target c x r hx hr
    · obtain rfl := List.mem_singleton.1 (List.mem_of_getElem? hx)
      cases hr
  · intro d hd
    obtain ⟨x, hx, hs⟩ := h.delivery d hd
    exact ⟨x, by rw [← hx]; exact List.getElem?_append_left (List.getElem?_eq_some_iff.1 hx).1, hs⟩

/-- a delivery of a call to the session it has found -/
theorem named_deliver {s : St} (h : Named s) {c : CallId} {x : Call} {r : Sid} {o : Session} (hx : s.calls[c]? = some x)
    (hr : x.pc.target = some r) (ho : s.objs[r]? = some o) :
    Named { s with deliveries := s.deliveries ++ [⟨c, r, x.seen, o.hellos⟩] } := by
  refine ⟨h.target, ?_, ?_⟩
  · intro d hd
    rcases List.mem_append.1 hd with hd | hd
    · exact h.delivery d hd
    · obtain rfl := List.mem_singleton.1 hd
      obtain ⟨o', ho', hs⟩ := h.target c x r hx hr
      rw [ho, Option.some.injEq] at ho'
      subst ho'
      exact ⟨x, hx, hs⟩
  · intro r' o' m c' hr' hm hg
    obtain ⟨d, hd, hdc⟩ := h.posted r' o' m c' hr' hm hg
    exact ⟨d, List.mem_append_left _ hd, hdc⟩

theorem does_named {lib : Nlohmann} {s s' : St} {o : Op} (hs : Does lib s o s') (hi : Inv s) (h : Named s) :
    Named s' := by
  cases hs with
  | idle => exact h
  | create a ha => exact named_create h a
  | acceptOk i o ho hr =>
    exact named_congr (named_modify_same (f := fun o => { o with reader := .reading, joined := true }) h
      (fun _ _ => List.prefix_refl _) fun _ _ => rfl) rfl rfl rfl
  | acceptFail i _ => exact named_setReader h i _
  | readFail i _ => exact named_setReader h i _
  | readThrow i o payload e ho hr hj =>
    exact named_congr (named_modify_same (i := i)
      (f := fun o => { o with buffer := o.buffer ++ payload, received := o.received ++ [payload] }) h
      (fun _ _ => List.prefix_refl _) fun _ _ => rfl) rfl rfl rfl
  | readOk i o payload hello ho hr hj => exact named_modify_same h (fun _ _ => List.prefix_append _ _) fun _ _ => rfl
  | snapshot i k text order _ _ => exact named_setReader h i _
  | lockOk i k text r todo _ _ => exact named_setReader h i _
  | lockFail i k text r todo _ _ => exact named_setReader h i _
  | post i k text r todo _ _ =>
    refine named_modify (named_setReader h i (.posted k text r todo)) (fun _ _ => List.prefix_refl _)
      fun o m c _ hm hg => ?_
    rcases mem_posted_snoc hm with hm | rfl
    · exact Or.inl hm
    · cases hg
  | release i k text r todo _ => exact named_setReader h i _
  | finish i k text _ => exact named_modify_same h (fun _ _ => List.prefix_refl _) fun _ _ => rfl
  | onSend j o m rest ho hs _ =>
    refine named_modify_same h (fun _ _ => List.prefix_refl _) fun p hp => ?_
    rw [ho, Option.some.injEq] at hp
    subst hp
    simp [Session.posted, hs, WriteQueue.onSend_accepted]
  | onWrite j o k error _ _ =>
    refine named_modify_same h (fun _ _ => List.prefix_refl _) fun p _ => ?_
    simp [Session.posted, WriteQueue.onWrite_accepted]
  | leave j o _ _ _ =>
    exact named_congr (named_modify_same (i := j) (f := fun o => { o with left := true }) h
      (fun _ _ => List.prefix_refl _) fun _ _ => rfl) rfl rfl rfl
  | free j o _ _ => exact named_modify_same h (fun _ _ => List.prefix_refl _) fun _ _ => rfl
  | call id text => exact named_call h id text
  | lookup c x order hx _ _ =>
    refine named_setCall h (fun _ => rfl) fun y r hy hr => ?_
    rw [hx, Option.some.injEq] at hy
    subst hy
    have hr : s.lastMatch x.id order = some r := hr
    obtain ⟨o, ho, huid⟩ := lastMatch_uid hr
    refine ⟨o, ho, ?_⟩
    simp only [hr, Option.bind_some, ho, Option.map_some, Option.getD_some]
    exact ⟨List.prefix_refl _, by rw [← (hi.each r o ho).uid, huid]⟩
  | lockCallOk c r hp _ => exact named_setCallPc h fun r' hr => ⟨_, hp, hr⟩
  | lockCallFail c r _ _ => exact named_setCallPc h fun r' hr => (by cases hr)
  | lockCallNone c _ => exact named_setCallPc h fun r' hr => (by cases hr)
  | postCall c x r o hx hp ho =>
    have h1 := named_deliver h hx (by rw [hp]; rfl) ho
    have h2 : Named
        (({ s with deliveries := s.deliveries ++ [⟨c, r, x.seen, o.hellos⟩] } : St).setCall c (.posted r)) :=
      named_setCallPc h1 fun r' hr => ⟨.locked r, by rw [St.callPc, hx, Option.map_some, hp], hr⟩
    refine named_modify h2 (fun _ _ => List.prefix_refl _) fun p m c' _ hm hg => ?_
    rcases mem_posted_snoc hm with hm | rfl
    · exact Or.inl hm
    · cases hg
      exact Or.inr ⟨_, List.mem_append_right _ (List.mem_singleton_self _), rfl, rfl⟩
  | returnCall c r _ => exact named_setCallPc h fun r' hr => (by cases hr)

theorem reachable_named {lib : Nlohmann} {s : St} (h : (machine lib).Reachable s) : Named s := by
  refine ((machine lib).invariant (I := fun s => Inv s ∧ Named s) ⟨inv_init, named_init⟩ ?_ h).2
  intro s o hs
  exact ⟨step_inv lib s o hs.1, does_named (step_does lib s o) hs.1 hs.2⟩

/-- what the session of a delivery said between the lookup and the post -/
def Delivery.since (d : Delivery) : List String := d.hellos.drop d.seen.length

theorem getLast?_eq_iff {l : List String} {a : String} (h : l.getLastD "" = a) :
    l.getLast? = some a ↔ a ≠ "" ∨ l ≠ [] := by
  subst h
  cases l using List.reverseRecOn with
  | nil => simp
  | append_singleton l a => simp

/-- **When the last hello names the id**: the id is not empty or the session has said hello, and it has not taken
another name since the lookup. -/
theorem delivery_last_hello_iff {lib : Nlohmann} {s : St} (h : (machine lib).Reachable s) {d : Delivery}
    (hd : d ∈ s.deliveries) : ∃ x, s.calls[d.call]? = some x ∧ (d.hellos.getLast? = some x.id ↔
      (x.id ≠ "" ∨ d.hellos ≠ []) ∧ (d.since = [] ∨ d.since.getLast? = some x.id)) := by
  obtain ⟨x, hx, ⟨since, hs⟩, hid⟩ := (reachable_named h).delivery d hd
  refine ⟨x, hx, ?_⟩
  have hsince : d.since = since := by rw [Delivery.since, ← hs, List.drop_left]
  rw [hsince, ← hs]
  cases since using List.reverseRecOn with
  | nil => simpa using getLast?_eq_iff hid
  | append_singleton l a => simp

end Gss.Sessions
