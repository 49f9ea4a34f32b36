/-
GET /api/admin: is the report a snapshot? handle_request copies the queue (`tasks`) and then reads `curr_` (`current`),
two atomic steps with no common lock, while push_task and process_tasks sections of other threads run in between.

The report is `(processing, pending)`; it is a snapshot when some single state between the start and the end of the
handler has exactly that `curr_` and that queue. Tasks are compared with their serial numbers, so "a task pushed once"
is one task.

- `dequeued_step`: along a run the sequence of dequeued tasks only grows, by one task exactly at a dequeue.
- `report_pair`: what the handler puts into the response is the queue at its first read and `curr_` at its second.
- `admin_snapshot_iff`: for every interleaving, the report is a snapshot exactly when no task is dequeued between the
  two reads, or the queue was empty at the first read and the last dequeue before the second read took the only task.
- `admin_task_twice`: the interleaving that reports one task both as pending and as processing.
-/
import Gss.Server.Scheduler

namespace Gss.AdminReport

open Gss.Core Gss.Scheduler

/-! ## How the dequeued tasks grow -/

/-- all tasks dequeued so far, in order -/
def dequeued (s : St) : List Job := s.sent ++ s.flight

theorem pushed_eq {s : St} (h : Inv s) : s.pushed = dequeued s ++ s.queue := by
  obtain ⟨x, hx, hp, -⟩ := h.chain
  rw [dequeued, flight_of_tokens hx, hp]

theorem curr_eq {s : St} (h : Inv s) : s.curr = (dequeued s).getLast? := by
  obtain ⟨x, hx, -, hc⟩ := h.chain
  rw [dequeued, flight_of_tokens hx, hc]

theorem pushed_nodup {s : St} (h : Inv s) : s.pushed.Nodup :=
  List.Nodup.of_map Job.id (by rw [h.ids]; exact List.nodup_range)

theorem pushed_step (s : St) (o : Op) : s.pushed <+: (step s o).pushed := by
  rcases step_cases s o with ⟨hq, -⟩ | ⟨i, t, -, -, he⟩ | ⟨i, j, q, -, -, -, he⟩ | ⟨k, ec, j, -, -, he⟩ |
    ⟨i, k, j, ec, -, -, -, he⟩ | ⟨i, j, c, -, -, he⟩
  · rw [hq.rest]
  · rw [he]; exact List.prefix_append _ _
  · rw [he]; exact List.prefix_refl _
  · rw [he]
  · rw [he]; exact List.prefix_refl _
  · rw [he]; exact List.prefix_refl _

/-- **What a step dequeues.** Nothing, unless it is a dequeue; then the front of the queue. -/
theorem dequeued_step (s : St) (o : Op) (h : Inv s) :
    (¬ Dequeues s o ∧ dequeued (step s o) = dequeued s) ∨
      (Dequeues s o ∧ ∃ j, s.queue = j :: (step s o).queue ∧ dequeued (step s o) = dequeued s ++ [j]) := by
  have h' := step_inv s o h
  obtain ⟨x, hx, hp, -⟩ := h.chain
  obtain ⟨x', hx', hp', -⟩ := h'.chain
  have hd : dequeued s = s.sent ++ x.toList := by rw [dequeued, flight_of_tokens hx]
  have hd' : dequeued (step s o) = (step s o).sent ++ x'.toList := by rw [dequeued, flight_of_tokens hx']
  -- the pushed sequence and the queue determine what was dequeued
  have key : ∀ l, s.pushed ++ l = (step s o).pushed → s.queue ++ l = (step s o).queue →
      dequeued (step s o) = dequeued s := by
    intro l h1 h2
    rw [hd, hd']
    have h3 : s.sent ++ x.toList ++ (step s o).queue = (step s o).sent ++ x'.toList ++ (step s o).queue := by
      rw [← hp', ← h1, hp, ← h2]; simp
    exact (List.append_cancel_right h3).symm
  rcases step_cases s o with ⟨hq, hn⟩ | ⟨i, t, ho, -, he⟩ | ⟨i, j, q, ho, hi, hqu, he⟩ | ⟨k, ec, j, ho, -, he⟩ |
    ⟨i, k, j, ec, ho, -, -, he⟩ | ⟨i, j, c, ho, -, he⟩
  · refine Or.inl ⟨hn, key [] ?_ ?_⟩ <;> rw [hq.rest] <;> simp
  · have hn : ¬ Dequeues s o := by rintro ⟨_, h, -⟩; rw [ho] at h; cases h
    refine Or.inl ⟨hn, key [⟨s.pushed.length, t⟩] ?_ ?_⟩ <;> rw [he] <;> rfl
  · refine Or.inr ⟨⟨i, ho, hi, by simp [hqu]⟩, j, ?_, ?_⟩
    · rw [he]; exact hqu
    · have h1 : (step s o).queue = q := by rw [he]; rfl
      have h2 : (step s o).pushed = s.pushed := by rw [he]; rfl
      have h3 : (step s o).sent ++ x'.toList ++ q = s.sent ++ x.toList ++ [j] ++ q := by
        calc (step s o).sent ++ x'.toList ++ q
            = s.pushed := by rw [← h2, hp', h1]
          _ = s.sent ++ x.toList ++ [j] ++ q := by rw [hp, hqu, List.append_cons]
      rw [hd, hd']
      exact List.append_cancel_right h3
  · have hn : ¬ Dequeues s o := by rintro ⟨_, h, -⟩; rw [ho] at h; cases h
    refine Or.inl ⟨hn, key [] ?_ ?_⟩ <;> rw [he] <;> simp
  · have hn : ¬ Dequeues s o := by rintro ⟨_, h, -⟩; rw [ho] at h; cases h
    refine Or.inl ⟨hn, key [] ?_ ?_⟩ <;> rw [he] <;> simp [St.goto]
  · have hn : ¬ Dequeues s o := by rintro ⟨_, h, -⟩; rw [ho] at h; cases h
    refine Or.inl ⟨hn, key [] ?_ ?_⟩ <;> rw [he] <;> simp [St.goto]

section Run

variable (threads : ℕ)

/-- both histories only grow -/
theorem run_grows (s : St) (ops : List Op) (h : Inv s) :
    dequeued s <+: dequeued ((machine threads).run s ops) ∧ s.pushed <+: ((machine threads).run s ops).pushed := by
  refine (machine threads).run_rel (I := Inv) (R := fun s t => dequeued s <+: dequeued t ∧ s.pushed <+: t.pushed)
    step_inv (fun s => ⟨List.prefix_refl _, List.prefix_refl _⟩) (fun s t u h1 h2 => ⟨h1.1.trans h2.1, h1.2.trans h2.2⟩)
    (fun s o hs => ⟨?_, pushed_step s o⟩) h ops
  rcases dequeued_step s o hs with ⟨-, he⟩ | ⟨-, j, -, he⟩
  · exact he ▸ List.prefix_refl _
  · exact he ▸ List.prefix_append _ _

theorem run_inv_from {s : St} (h : Inv s) (ops : List Op) : Inv ((machine threads).run s ops) :=
  (machine threads).run_invariant step_inv h ops

/-- no step of the run from s along ops dequeues a task -/
def NoDequeue (s : St) (ops : List Op) : Prop := (machine threads).Along (fun s o => ¬ Dequeues s o) s ops

/-- the run dequeues a task, and its last dequeue takes the only task of the queue -/
def LastDequeueEmpties (s : St) (ops : List Op) : Prop :=
  ∃ a o b, ops = a ++ o :: b ∧ Dequeues ((machine threads).run s a) o ∧
    ((machine threads).run s a).queue.length = 1 ∧ NoDequeue threads (step ((machine threads).run s a) o) b

theorem noDequeue_dequeued {s : St} {ops : List Op} (h : Inv s) (hn : NoDequeue threads s ops) :
    dequeued ((machine threads).run s ops) = dequeued s := by
  have := (machine threads).along_invariant (I := fun t => Inv t ∧ dequeued t = dequeued s)
    (P := fun s o => ¬ Dequeues s o) (fun t o ht hd => ⟨step_inv t o ht.1, ?_⟩) ⟨h, rfl⟩ hn
  · exact this.2
  · rcases dequeued_step t o ht.1 with ⟨-, he⟩ | ⟨hd', -⟩
    · exact he.trans ht.2
    · exact absurd hd' hd

end Run

/-! ## The handler's own steps -/

/-- the thread an operation belongs to; the end of a timer wait belongs to none -/
def thread : Op → Option ℕ
  | .dispatch i | .done i | .post i _ | .push i | .notify i _ | .lock i | .wake i | .handle i _ | .send i _ | .sent i
  | .admin i | .reserve i | .tasks i | .current i | .respond i => some i
  | .expire _ _ => none

theorem goto_other {s : St} {i k : ℕ} {p q : Pc} (hk : k ≠ i) (h : s.pcs[i]? = some p) :
    (s.goto k q).pcs[i]? = some p := by
  simp [St.goto, List.getElem?_set_ne hk, h]

/-- a thread that is not parked stands still while others move -/
theorem pc_frame {s : St} {o : Op} {i : ℕ} {p : Pc} (ho : thread o ≠ some i) (h : s.pcs[i]? = some p)
    (hp : p ≠ .parked) :
    (step s o).pcs[i]? = some p := by
  cases o with
  | expire k ec => simp only [step]; split <;> exact h
  | notify k w =>
    have hk : k ≠ i := fun e => ho (by rw [← e]; rfl)
    simp only [step, notifyOne]
    split_ifs with _ hw
    · have hwi : w ≠ i := by rintro rfl; rw [h] at hw; exact hp (Option.some.inj hw)
      exact goto_other hk (goto_other hwi h)
    · exact h
    · exact goto_other hk h
    · exact h
  | lock k =>
    have hk : k ≠ i := fun e => ho (by rw [← e]; rfl)
    simp only [step, processTasks]
    split_ifs
    · split
      · exact goto_other hk h
      · exact goto_other hk h
    · exact h
  | dispatch k | done k | post k t | push k | wake k | handle k r | send k c | sent k | admin k | reserve k | tasks k
  | current k | respond k =>
    have hk : k ≠ i := fun e => ho (by rw [← e]; rfl)
    simp only [step]
    repeat' (first | split | split_ifs)
    all_goals first
      | exact goto_other hk h
      | exact h

theorem pc_frame_run (threads : ℕ) {s : St} {ops : List Op} {i : ℕ} {p : Pc} (ho : ∀ o ∈ ops, thread o ≠ some i)
    (h : s.pcs[i]? = some p) (hp : p ≠ .parked) : ((machine threads).run s ops).pcs[i]? = some p := by
  induction ops generalizing s with
  | nil => exact h
  | cons o ops ih =>
    exact ih (fun o' ho' => ho o' (List.mem_cons_of_mem o ho')) (pc_frame (ho o List.mem_cons_self) h hp)

theorem goto_self {s : St} {i : ℕ} {p q : Pc} (h : s.pcs[i]? = some p) : (s.goto i q).pcs[i]? = some q :=
  getElem?_set_at h q

/-- one execution of the handler on thread i, with the steps a, a', b, c of other threads around its own -/
def adminOps (i : ℕ) (a a' b c : List Op) : List Op :=
  (a ++ .reserve i :: a') ++ (.tasks i :: b) ++ (.current i :: c)

/-- **The pair in the response**: the queue at the first read and `curr_` at the second. -/
theorem report_pair (threads i : ℕ) (s0 : St) (a a' b c : List Op) (h0 : s0.pcs[i]? = some .admin)
    (ho : ∀ o ∈ a ++ a' ++ b ++ c, thread o ≠ some i) :
    let s1 := (machine threads).run s0 (a ++ .reserve i :: a')
    let s2 := (machine threads).run s1 (.tasks i :: b)
    ((machine threads).run s0 (adminOps i a a' b c)).pcs[i]? = some (.report s1.queue s2.curr) := by
  intro s1 s2
  have sub : ∀ l : List Op, (∀ o ∈ l, o ∈ a ++ a' ++ b ++ c) → ∀ o ∈ l, thread o ≠ some i :=
    fun l hl o hm => ho o (hl o hm)
  have h1 : s1.pcs[i]? = some .reserved := by
    simp only [s1, Machine.run_append, Machine.run_cons]
    have ha := pc_frame_run threads (sub a (by simp; tauto)) h0 (by simp)
    refine pc_frame_run threads (sub a' (by simp; tauto)) ?_ (by simp)
    show (step _ _).pcs[i]? = _
    simp only [step]
    rw [if_pos ha]
    exact goto_self ha
  have h2 : s2.pcs[i]? = some (.pending s1.queue) := by
    simp only [s2, Machine.run_cons]
    refine pc_frame_run threads (sub b (by simp; tauto)) ?_ (by simp)
    show (step _ _).pcs[i]? = _
    simp only [step]
    rw [if_pos h1]
    exact goto_self h1
  have hrun : (machine threads).run s0 (adminOps i a a' b c) = (machine threads).run (step s2 (.current i)) c := by
    simp only [adminOps, Machine.run_append, Machine.run_cons, s2, s1]; rfl
  rw [hrun]
  refine pc_frame_run threads (sub c (by simp; tauto)) ?_ (by simp)
  simp only [step, h2]
  exact goto_self h2

/-! ## When the report is a snapshot -/

/-- some state that the run from s0 along ops passes through has exactly this `curr_` and this queue -/
def Snapshot (threads : ℕ) (s0 : St) (ops : List Op) (processing : Option Job) (pending : List Job) : Prop :=
  ∃ x ∈ (machine threads).visited s0 ops, x.curr = processing ∧ x.queue = pending

/-- prefixes of a duplicate-free list with the same last element are equal -/
theorem prefix_eq_of_getLast {α : Type*} {p l1 l2 : List α} {a : α} (hp : p.Nodup) (h1 : l1 ++ [a] <+: p)
    (h2 : l2 ++ [a] <+: p) : l1 = l2 := by
  have aux : ∀ {l1 l2 : List α}, l1 ++ [a] <+: p → l2 ++ [a] <+: p → l1.length ≤ l2.length → l1 = l2 := by
    intro l1 l2 h1 h2 hle
    have h3 : l1 ++ [a] <+: l2 ++ [a] := List.prefix_of_prefix_length_le h1 h2 (by simpa using hle)
    rcases List.prefix_concat_iff.1 h3 with h | h
    · exact List.append_cancel_right h
    · have hn : (l2 ++ [a]).Nodup := hp.sublist h2.sublist
      have ha : a ∈ l2 := h.subset (by simp)
      exact (List.disjoint_of_nodup_append hn ha (List.mem_singleton_self a)).elim
  rcases le_total l1.length l2.length with h | h
  · exact aux h1 h2 h
  · exact (aux h2 h1 h).symm

section Main

variable (threads : ℕ)

/-- the pushes at any point of a run are a prefix of the pushes at its end -/
theorem pushed_on_run {s : St} {ops u v : List Op} (h : Inv s) (huv : ops = u ++ v) :
    ((machine threads).run s u).pushed <+: ((machine threads).run s ops).pushed := by
  rw [huv, Machine.run_append]
  exact (run_grows threads _ v (run_inv_from threads h u)).2

/-- the tasks dequeued and the front of the queue, at any point of a run, are a prefix of the pushes at its end -/
theorem next_on_run {s : St} {ops u v : List Op} {j : Job} {q : List Job} (h : Inv s) (huv : ops = u ++ v)
    (hq : ((machine threads).run s u).queue = j :: q) :
    dequeued ((machine threads).run s u) ++ [j] <+: ((machine threads).run s ops).pushed := by
  have h1 := pushed_on_run threads h huv
  rw [pushed_eq (run_inv_from threads h u), hq] at h1
  exact (List.prefix_append _ q).trans (by simpa using h1)

/-- x has the queue of y, and has dequeued one task more than t; t is not before y, and x not before t -/
theorem emptied_of_match {x y t : St} {p q : List Job} {j : Job} (ix : Inv x) (it : Inv t) (hp : p.Nodup)
    (hdx : dequeued x = dequeued t ++ [j]) (hqt : t.queue = j :: q) (hyt : dequeued y <+: dequeued t)
    (hxq : x.queue = y.queue) (next_x : ∀ k q, x.queue = k :: q → dequeued x ++ [k] <+: p)
    (next_y : ∀ k q, y.queue = k :: q → dequeued y ++ [k] <+: p)
    (htx : dequeued x <+: dequeued t ∨ t.pushed <+: x.pushed) : y.queue = [] ∧ t.queue.length = 1 := by
  have hq : y.queue = [] := by
    by_contra hne
    obtain ⟨k, q', hk⟩ := List.exists_cons_of_ne_nil hne
    have h3 := congrArg List.length (prefix_eq_of_getLast hp (next_x k q' (hxq.trans hk)) (next_y k q' hk))
    have h4 := hyt.length_le
    rw [hdx, List.length_append, List.length_singleton] at h3
    omega
  refine ⟨hq, ?_⟩
  rcases htx with htx | htx
  · have h1 := htx.length_le
    rw [hdx, List.length_append, List.length_singleton] at h1
    omega
  · have h1 := htx.length_le
    rw [pushed_eq ix, hdx, hxq, hq, pushed_eq it, hqt] at h1
    rw [hqt]
    simp only [List.length_append, List.length_cons, List.length_nil] at h1 ⊢
    omega

/-- **Only an emptied queue matches.** The run w, l, o, r from s0 reads the queue after w and `curr_` at its end; o is
its last dequeue after w. If a state x on the run has that queue and that `curr_`, then the queue read was empty and o
took the only task. -/
theorem match_after_dequeue {s0 : St} (i0 : Inv s0) {ops w l r u v z : List Op} {o : Op}
    (hops : ops = w ++ l ++ o :: r ++ z) (huv : ops = u ++ v)
    (hd : Dequeues ((machine threads).run s0 (w ++ l)) o)
    (hl : NoDequeue threads (step ((machine threads).run s0 (w ++ l)) o) r)
    (hxc : ((machine threads).run s0 u).curr = ((machine threads).run s0 (w ++ l ++ o :: r)).curr)
    (hxq : ((machine threads).run s0 u).queue = ((machine threads).run s0 w).queue) :
    ((machine threads).run s0 w).queue = [] ∧ ((machine threads).run s0 (w ++ l)).queue.length = 1 := by
  have hp : ((machine threads).run s0 ops).pushed.Nodup := pushed_nodup (run_inv_from threads i0 ops)
  have ix : Inv ((machine threads).run s0 u) := run_inv_from threads i0 u
  have it : Inv ((machine threads).run s0 (w ++ l)) := run_inv_from threads i0 (w ++ l)
  have i2 : Inv ((machine threads).run s0 (w ++ l ++ o :: r)) := run_inv_from threads i0 _
  have ht : ops = (w ++ l) ++ (o :: r ++ z) := by rw [hops]; simp
  have hw : ops = w ++ (l ++ o :: r ++ z) := by rw [hops]; simp
  -- the last dequeue takes some j, which is then the last task dequeued, in x too
  obtain ⟨j, hqt, hdt⟩ : ∃ j, ((machine threads).run s0 (w ++ l)).queue =
        j :: (step ((machine threads).run s0 (w ++ l)) o).queue ∧
      dequeued (step ((machine threads).run s0 (w ++ l)) o) = dequeued ((machine threads).run s0 (w ++ l)) ++ [j] := by
    rcases dequeued_step _ o it with ⟨hn, -⟩ | ⟨-, h⟩
    · exact absurd hd hn
    · exact h
  have hd2 : dequeued ((machine threads).run s0 (w ++ l ++ o :: r)) =
      dequeued ((machine threads).run s0 (w ++ l)) ++ [j] := by
    rw [Machine.run_append, Machine.run_cons, ← hdt]
    exact noDequeue_dequeued threads (step_inv _ o it) hl
  have hdx : dequeued ((machine threads).run s0 u) = dequeued ((machine threads).run s0 (w ++ l)) ++ [j] := by
    have h1 : (dequeued ((machine threads).run s0 u)).getLast? = some j := by
      rw [← curr_eq ix, hxc, curr_eq i2, hd2]
      simp
    obtain ⟨lx, hlx⟩ := List.getLast?_eq_some_iff.1 h1
    have h2 := pushed_on_run threads i0 huv
    rw [pushed_eq ix, hlx] at h2
    rw [hlx, prefix_eq_of_getLast hp ((List.prefix_append _ _).trans h2) (next_on_run threads i0 ht hqt)]
  have hyt : dequeued ((machine threads).run s0 w) <+: dequeued ((machine threads).run s0 (w ++ l)) := by
    rw [Machine.run_append]
    exact (run_grows threads _ l (run_inv_from threads i0 w)).1
  refine emptied_of_match ix it hp hdx hqt hyt hxq (fun k q h => next_on_run threads i0 huv h)
    (fun k q h => next_on_run threads i0 hw h) ?_
  rcases List.prefix_or_prefix_of_prefix (show _ <+: ops from ⟨v, huv.symm⟩) ⟨_, ht.symm⟩ with ⟨c, hc⟩ | ⟨c, hc⟩
  · left
    rw [← hc, Machine.run_append]
    exact (run_grows threads _ c ix).1
  · right
    rw [← hc, Machine.run_append _ _ (w ++ l)]
    exact (run_grows threads _ c it).2

variable (i : ℕ) (pre a a' b c : List Op)

/-- **When the admin report is a snapshot.** One GET /api/admin on thread i, with any steps a, a', b, c of the other
threads around its own: the pair in its response is `curr_` and the queue of one state of the window exactly when no
task is dequeued between the two reads, or the queue was empty at the first read and the last dequeue before the second
one took the only task. -/
theorem admin_snapshot_iff (h0 : ((machine threads).run (init threads) pre).pcs[i]? = some .admin)
    (ho : ∀ o ∈ a ++ a' ++ b ++ c, thread o ≠ some i) :
    let s0 := (machine threads).run (init threads) pre
    let s1 := (machine threads).run s0 (a ++ .reserve i :: a')
    let s1' := step s1 (.tasks i)
    ∃ pending processing,
      ((machine threads).run s0 (adminOps i a a' b c)).pcs[i]? = some (.report pending processing) ∧
      (Snapshot threads s0 (adminOps i a a' b c) processing pending ↔
        NoDequeue threads s1' b ∨ (s1.queue = [] ∧ LastDequeueEmpties threads s1' b)) := by
  intro s0 s1 s1'
  have i0 : Inv s0 := run_inv threads pre
  have i1' : Inv s1' := step_inv s1 _ (run_inv_from threads i0 _)
  have hs1' : s1'.queue = s1.queue := by simp only [s1', step]; split_ifs <;> rfl
  set w := a ++ .reserve i :: a' ++ [.tasks i]
  have hw : ∀ l, (machine threads).run s0 (w ++ l) = (machine threads).run s1' l := by
    intro l
    simp only [w, Machine.run_append, Machine.run_cons, Machine.run_nil, s1', s1]; rfl
  have on_window : ∀ l r, b = l ++ r →
      (machine threads).run s1' l ∈ (machine threads).visited s0 (adminOps i a a' b c) := by
    intro l r hb
    exact (Machine.mem_visited _ _ _ _).2 ⟨w ++ l, r ++ .current i :: c, by simp [adminOps, hb, w], (hw l).symm⟩
  refine ⟨s1.queue, ((machine threads).run s1' b).curr, report_pair threads i s0 a a' b c h0 ho, ?_⟩
  have i2 : Inv ((machine threads).run s1' b) := run_inv_from threads i1' b
  constructor
  · rintro ⟨x, hx, hxc, hxq⟩
    rcases (machine threads).along_or_last (fun s o => ¬ Dequeues s o) s1' b with hn | ⟨l, o, r, hb, hd, hl⟩
    · exact Or.inl hn
    obtain ⟨u, v, huv, rfl⟩ := (Machine.mem_visited _ _ _ _).1 hx
    have hops : adminOps i a a' b c = w ++ l ++ o :: r ++ .current i :: c := by simp [adminOps, hb, w]
    have ew : (machine threads).run s0 w = s1' := by simpa using hw []
    have h := match_after_dequeue threads i0 hops huv (by rw [hw]; exact not_not.1 hd) (by rw [hw]; exact hl)
      (by rw [hxc, List.append_assoc, hw, ← hb]) (by rw [hxq, ew, hs1'])
    rw [ew, hw, hs1'] at h
    exact Or.inr ⟨h.1, l, o, r, hb, not_not.1 hd, h.2, hl⟩
  · rintro (hn | ⟨hq, l, o, r, hb, hd, hlen, hl⟩)
    · refine ⟨s1', on_window [] b rfl, ?_, hs1'⟩
      rw [curr_eq i1', curr_eq i2, noDequeue_dequeued threads i1' hn]
    · have it : Inv ((machine threads).run s1' l) := run_inv_from threads i1' l
      have it' := step_inv _ o it
      have e1 : (machine threads).run s1' (l ++ [o]) = step ((machine threads).run s1' l) o := Machine.run_snoc _ _ _ _
      have e2 : (machine threads).run s1' b =
          (machine threads).run (step ((machine threads).run s1' l) o) r := by
        rw [hb, Machine.run_append, Machine.run_cons]; rfl
      refine ⟨_, on_window (l ++ [o]) r (by simp [hb]), ?_, ?_⟩
      · rw [e1, curr_eq it', curr_eq i2, e2, noDequeue_dequeued threads it' hl]
      · rcases dequeued_step _ o it with ⟨hn, -⟩ | ⟨-, j, hqt, -⟩
        · exact absurd hd hn
        · rw [hqt, List.length_cons] at hlen
          rw [e1, hq]
          exact List.length_eq_zero_iff.1 (by omega)

/-- the report without serial numbers, as the client sees it -/
def SnapshotValues (s0 : St) (ops : List Op) (processing : Option Task) (pending : List Task) : Prop :=
  ∃ x ∈ (machine threads).visited s0 ops, x.curr.map Job.task = processing ∧ x.queue.map Job.task = pending

end Main

/-- one pushed task, the consumer thread not started yet, GET /api/admin dispatched on thread 1 -/
def onePushed : List Op := [.post 1 ⟨"ann", "", ⟨0⟩⟩, .push 1, .notify 1 0, .done 1, .admin 1]

/-- **One task, reported twice.** The consumer dequeues between the two reads: the response shows the task as pending
and as processing, which no state of the server does. -/
theorem admin_task_twice :
    let s0 := (machine 1).run (init 1) onePushed
    ((machine 1).run s0 (adminOps 1 [] [] [.lock 0] [])).pcs[1]? =
        some (.report [⟨0, ⟨"ann", "", ⟨0⟩⟩⟩] (some ⟨0, ⟨"ann", "", ⟨0⟩⟩⟩)) ∧
      ¬ SnapshotValues 1 s0 (adminOps 1 [] [] [.lock 0] []) (some ⟨"ann", "", ⟨0⟩⟩) [⟨"ann", "", ⟨0⟩⟩] := by
  unfold SnapshotValues; decide

/-- a quiet handler, with a push between its reads, reports a snapshot -/
theorem admin_snapshot_push :
    let s0 := (machine 2).run (init 2) onePushed
    ((machine 2).run (init 2) onePushed).pcs[1]? = some .admin ∧
      ∃ pending processing,
        ((machine 2).run s0 (adminOps 1 [] [] [.post 2 ⟨"bob", "", ⟨0⟩⟩, .push 2] [])).pcs[1]? =
          some (.report pending processing) ∧
        Snapshot 2 s0 (adminOps 1 [] [] [.post 2 ⟨"bob", "", ⟨0⟩⟩, .push 2] []) processing pending := by
  have h0 : ((machine 2).run (init 2) onePushed).pcs[1]? = some .admin := by decide
  obtain ⟨pending, processing, h1, h2⟩ :=
    admin_snapshot_iff 2 1 onePushed [] [] [.post 2 ⟨"bob", "", ⟨0⟩⟩, .push 2] [] h0 (by decide)
  refine ⟨h0, pending, processing, h1, h2.2 (Or.inl ⟨?_, ?_, trivial⟩)⟩
  · rintro ⟨_, h, -⟩; cases h
  · rintro ⟨_, h, -⟩; cases h

end Gss.AdminReport
