/-
Ordered multicast: each sender sends one message at a time to a snapshot of the receivers, one receiver after the other,
and any number of senders interleave.

`S` are the senders, `R` the receivers, `T` the messages. A message has the number of its sender's messages before it. A
sender first takes a snapshot of the receivers it will post to, without repetition; then it posts to, or skips, the
first one left. An inbox only grows at its end.

- `inbox_content`, `inbox_ordered`: every entry is a message its sender sent, under its number, and each inbox has every
  sender's entries in the order they were sent.
- `served_step`: a receiver of the snapshot stays to be served until it has the message, unless it is skipped.
- `confined_step`: nobody outside the snapshot gets the message.
- `done_step`: once the sender is done with a message, who has it does not change any more.
- `copies_eq`: whoever has a message has it once.
-/
import Gss.Core.Machine

namespace Gss.Core.Multicast

/-- message number idx of the sender src -/
structure Entry (S T : Type*) where
  src : S
  idx : ℕ
  body : T
deriving DecidableEq, Repr

inductive Pc (R T : Type*) where
  | idle
  | start (k : ℕ) (t : T)
  | walk (k : ℕ) (t : T) (todo : List R)

@[ext]
structure St (S R T : Type*) where
  sent : S → List T
  pc : S → Pc R T
  inbox : R → List (Entry S T)

inductive Op (S R T : Type*) where
  | begin (i : S) (t : T)
  | snap (i : S) (todo : List R)
  | post (i : S)
  | skip (i : S)
  | finish (i : S)

variable {S R T : Type*} [DecidableEq S]

def St.goto (s : St S R T) (i : S) (p : Pc R T) : St S R T := { s with pc := Function.update s.pc i p }

theorem goto_self {s : St S R T} {i : S} {p : Pc R T} (h : s.pc i = p) : s.goto i p = s := by
  rw [St.goto, ← h, Function.update_eq_self]

@[simp] theorem goto_pc (s : St S R T) (i : S) (p : Pc R T) : (s.goto i p).pc i = p := Function.update_self ..

@[simp] theorem goto_goto (s : St S R T) (i : S) (p q : Pc R T) : (s.goto i p).goto i q = s.goto i q := by
  simp [St.goto]

variable [DecidableEq R]

/-- e goes to the end of r's inbox -/
def St.put (s : St S R T) (r : R) (e : Entry S T) : St S R T :=
  { s with inbox := Function.update s.inbox r (s.inbox r ++ [e]) }

def step (s : St S R T) : Op S R T → St S R T
  | .begin i t =>
    match s.pc i with
    | .idle => { s with sent := Function.update s.sent i (s.sent i ++ [t]) }.goto i (.start (s.sent i).length t)
    | _ => s
  | .snap i todo =>
    match s.pc i with
    | .start k t => if todo.Nodup then s.goto i (.walk k t todo) else s
    | _ => s
  | .post i =>
    match s.pc i with
    | .walk k t (r :: todo) => (s.put r ⟨i, k, t⟩).goto i (.walk k t todo)
    | _ => s
  | .skip i =>
    match s.pc i with
    | .walk k t (_ :: todo) => s.goto i (.walk k t todo)
    | _ => s
  | .finish i =>
    match s.pc i with
    | .walk _ _ [] => s.goto i .idle
    | _ => s

def init : St S R T := ⟨fun _ => [], fun _ => .idle, fun _ => []⟩

def machine (S R T : Type*) [DecidableEq S] [DecidableEq R] : Machine (St S R T) (Op S R T) := ⟨init, step⟩

/-! ## What a step can do -/

/-- the message the sender is busy with -/
def Pc.carries : Pc R T → Option (ℕ × T)
  | .idle => none
  | .start k t | .walk k t _ => some (k, t)

/-- the receivers of a snapshot still to be served -/
def Pc.todo : Pc R T → List R
  | .walk _ _ todo => todo
  | _ => []

/-- r may still be posted the message: no snapshot yet, or r is left in it -/
def Pc.ahead (p : Pc R T) (r : R) : Prop :=
  match p with
  | .idle => False
  | .start _ _ => True
  | .walk _ _ todo => r ∈ todo

/-- **Step inversion.** -/
theorem step_cases (s : St S R T) (o : Op S R T) :
    step s o = s ∨
    (∃ i t, s.pc i = .idle ∧ step s o =
      { s with sent := Function.update s.sent i (s.sent i ++ [t]) }.goto i (.start (s.sent i).length t)) ∨
    (∃ i k t todo, s.pc i = .start k t ∧ todo.Nodup ∧ step s o = s.goto i (.walk k t todo)) ∨
    (∃ i k t r todo, s.pc i = .walk k t (r :: todo) ∧ step s o = (s.put r ⟨i, k, t⟩).goto i (.walk k t todo)) ∨
    (∃ i k t r todo, o = .skip i ∧ s.pc i = .walk k t (r :: todo) ∧ step s o = s.goto i (.walk k t todo)) ∨
    (∃ i k t, s.pc i = .walk k t [] ∧ step s o = s.goto i .idle) := by
  cases o with
  | begin i t =>
    simp only [step]
    split
    · rename_i h; exact Or.inr (Or.inl ⟨i, t, h, rfl⟩)
    · exact Or.inl rfl
  | snap i todo =>
    simp only [step]
    split
    · rename_i k t h
      split_ifs with hn
      · exact Or.inr (Or.inr (Or.inl ⟨i, k, t, todo, h, hn, rfl⟩))
      · exact Or.inl rfl
    · exact Or.inl rfl
  | post i =>
    simp only [step]
    split
    · rename_i k t r todo h; exact Or.inr (Or.inr (Or.inr (Or.inl ⟨i, k, t, r, todo, h, rfl⟩)))
    · exact Or.inl rfl
  | skip i =>
    simp only [step]
    split
    · rename_i k t r todo h; exact Or.inr (Or.inr (Or.inr (Or.inr (Or.inl ⟨i, k, t, r, todo, rfl, h, rfl⟩))))
    · exact Or.inl rfl
  | finish i =>
    simp only [step]
    split
    · rename_i k t h; exact Or.inr (Or.inr (Or.inr (Or.inr (Or.inr ⟨i, k, t, h, rfl⟩))))
    · exact Or.inl rfl

/-! ## The invariant -/

/-- Every entry is in its sender's history; inboxes are ordered; a sender carries its last message; a receiver that may
still be posted it has only earlier ones of that sender. -/
structure Inv (s : St S R T) : Prop where
  content : ∀ r, ∀ e ∈ s.inbox r, (s.sent e.src)[e.idx]? = some e.body
  ordered : ∀ r, (s.inbox r).Pairwise fun a b => a.src = b.src → a.idx < b.idx
  last : ∀ i k t, (s.pc i).carries = some (k, t) → k + 1 = (s.sent i).length ∧ (s.sent i)[k]? = some t
  nodup : ∀ i, (s.pc i).todo.Nodup
  ahead : ∀ i k t, (s.pc i).carries = some (k, t) → ∀ r, (s.pc i).ahead r → ∀ e ∈ s.inbox r, e.src = i → e.idx < k

omit [DecidableEq S] [DecidableEq R] in
theorem inv_init : Inv (init : St S R T) :=
  ⟨fun _ _ h => (by cases h), fun _ => .nil, fun _ _ _ h => (by cases h), fun _ => .nil, fun _ _ _ h => (by cases h)⟩

omit [DecidableEq R] in
/-- a sender that goes on with the same message to fewer receivers keeps the invariant -/
theorem inv_goto {s : St S R T} (h : Inv s) {i : S} {p : Pc R T}
    (hc : ∀ k t, p.carries = some (k, t) → (s.pc i).carries = some (k, t)) (hn : p.todo.Nodup)
    (ha : ∀ r, p.ahead r → (s.pc i).ahead r) : Inv (s.goto i p) := by
  refine ⟨h.content, h.ordered, ?_, ?_, ?_⟩
  · intro j k t hj
    by_cases hji : j = i
    · subst hji
      simp only [St.goto, Function.update_self] at hj
      exact h.last j k t (hc k t hj)
    · simp only [St.goto, Function.update_of_ne hji] at hj
      exact h.last j k t hj
  · intro j
    by_cases hji : j = i
    · subst hji; simpa only [St.goto, Function.update_self] using hn
    · simpa only [St.goto, Function.update_of_ne hji] using h.nodup j
  · intro j k t hj r hr e he hs
    by_cases hji : j = i
    · subst hji
      simp only [St.goto, Function.update_self] at hj hr
      exact h.ahead j k t (hc k t hj) r (ha r hr) e he hs
    · simp only [St.goto, Function.update_of_ne hji] at hj hr
      exact h.ahead j k t hj r hr e he hs

omit [DecidableEq S] [DecidableEq R] in
/-- the sender's entries have numbers below its history's length -/
theorem Inv.idx_lt {s : St S R T} (h : Inv s) {r : R} {e : Entry S T} (he : e ∈ s.inbox r) :
    e.idx < (s.sent e.src).length := (List.getElem?_eq_some_iff.1 (h.content r e he)).1

omit [DecidableEq R] in
theorem inv_begin {s : St S R T} (h : Inv s) {i : S} (t : T) :
    Inv ({ s with sent := Function.update s.sent i (s.sent i ++ [t]) }.goto i (.start (s.sent i).length t)) := by
  refine ⟨?_, h.ordered, ?_, ?_, ?_⟩
  · intro r e he
    by_cases hji : e.src = i
    · have h1 := h.idx_lt he
      have h2 := h.content r e he
      simp only [St.goto, hji, Function.update_self] at h1 h2 ⊢
      rw [List.getElem?_append_left h1, h2]
    · simpa only [St.goto, Function.update_of_ne hji] using h.content r e he
  · intro j k u hj
    by_cases hji : j = i
    · subst hji
      simp only [St.goto, Function.update_self, Pc.carries, Option.some.injEq, Prod.mk.injEq] at hj ⊢
      obtain ⟨rfl, rfl⟩ := hj
      simp
    · simp only [St.goto, Function.update_of_ne hji] at hj ⊢
      exact h.last j k u hj
  · intro j
    by_cases hji : j = i
    · subst hji; simp [St.goto, Pc.todo]
    · simpa only [St.goto, Function.update_of_ne hji] using h.nodup j
  · intro j k u hj r hr e he hs
    by_cases hji : j = i
    · subst hji
      simp only [St.goto, Function.update_self, Pc.carries, Option.some.injEq, Prod.mk.injEq] at hj
      rw [← hj.1, ← hs]
      exact h.idx_lt he
    · simp only [St.goto, Function.update_of_ne hji] at hj hr
      exact h.ahead j k u hj r hr e he hs

theorem inv_post {s : St S R T} (h : Inv s) {i : S} {k : ℕ} {t : T} {r : R} {todo : List R}
    (hi : s.pc i = .walk k t (r :: todo)) : Inv ((s.put r ⟨i, k, t⟩).goto i (.walk k t todo)) := by
  have hl := h.last i k t (by rw [hi]; rfl)
  have hnd := h.nodup i
  rw [hi] at hnd
  have hnd' : r ∉ todo ∧ todo.Nodup := List.nodup_cons.1 hnd
  have hah := h.ahead i k t (by rw [hi]; rfl)
  -- an entry of an inbox was there before, or is the new one
  have inbox_cases : ∀ r', ∀ e ∈ (s.put r ⟨i, k, t⟩).inbox r', e ∈ s.inbox r' ∨ (r' = r ∧ e = ⟨i, k, t⟩) := by
    intro r' e he
    by_cases hr : r' = r
    · subst hr
      simp only [St.put, Function.update_self, List.mem_append, List.mem_singleton] at he
      exact he.imp_right fun he => ⟨rfl, he⟩
    · simp only [St.put, Function.update_of_ne hr] at he
      exact Or.inl he
  refine ⟨?_, ?_, ?_, ?_, ?_⟩
  · intro r' e he
    rcases inbox_cases r' e he with he | ⟨-, rfl⟩
    · exact h.content r' e he
    · exact hl.2
  · intro r'
    by_cases hr : r' = r
    · subst hr
      simp only [St.goto, St.put, Function.update_self]
      refine List.pairwise_append.2 ⟨h.ordered r', by simp, ?_⟩
      intro a ha b hb hab
      rw [List.mem_singleton] at hb
      subst hb
      exact hah r' (by rw [hi]; exact List.mem_cons_self) a ha hab
    · simpa only [St.goto, St.put, Function.update_of_ne hr] using h.ordered r'
  · intro j k' u hj
    by_cases hji : j = i
    · subst hji
      simp only [St.goto, Function.update_self] at hj
      exact h.last j k' u (by rw [hi]; exact hj)
    · simp only [St.goto, Function.update_of_ne hji] at hj
      exact h.last j k' u hj
  · intro j
    by_cases hji : j = i
    · subst hji
      simp only [St.goto, Function.update_self]
      exact hnd'.2
    · simp only [St.goto, Function.update_of_ne hji]
      exact h.nodup j
  · intro j k' u hj r' hr' e he hs
    by_cases hji : j = i
    · subst hji
      simp only [St.goto, Function.update_self] at hj hr'
      have hmem : r' ∈ todo := hr'
      rcases inbox_cases r' e he with he | ⟨rfl, -⟩
      · exact h.ahead j k' u (by rw [hi]; exact hj) r' (by rw [hi]; exact List.mem_cons_of_mem r hmem) e he hs
      · exact absurd hmem hnd'.1
    · simp only [St.goto, Function.update_of_ne hji] at hj hr'
      rcases inbox_cases r' e he with he | ⟨-, rfl⟩
      · exact h.ahead j k' u hj r' hr' e he hs
      · exact absurd hs.symm hji

theorem step_inv (s : St S R T) (o : Op S R T) (h : Inv s) : Inv (step s o) := by
  rcases step_cases s o with he | ⟨i, t, -, he⟩ | ⟨i, k, t, todo, hi, hn, he⟩ | ⟨i, k, t, r, todo, hi, he⟩ |
    ⟨i, k, t, r, todo, -, hi, he⟩ | ⟨i, k, t, hi, he⟩
  · rw [he]; exact h
  · rw [he]; exact inv_begin h t
  · rw [he]; exact inv_goto h (fun _ _ hc => by rw [hi]; exact hc) hn fun _ _ => by rw [hi]; trivial
  · rw [he]; exact inv_post h hi
  · have hn := h.nodup i
    rw [hi] at hn
    rw [he]
    exact inv_goto h (fun _ _ hc => by rw [hi]; exact hc) (List.nodup_cons.1 hn).2
      fun _ hr => by rw [hi]; exact List.mem_cons_of_mem r hr
  · rw [he]; exact inv_goto h (fun _ _ hc => by cases hc) .nil fun _ hr => hr.elim

theorem reachable_inv {s : St S R T} (h : (machine S R T).Reachable s) : Inv s :=
  (machine S R T).invariant inv_init step_inv h

/-! ## Delivery -/

/-- **Order.** Every inbox has each sender's entries in the order they were sent. -/
theorem inbox_ordered {s : St S R T} (h : (machine S R T).Reachable s) (r : R) :
    (s.inbox r).Pairwise fun a b => a.src = b.src → a.idx < b.idx := (reachable_inv h).ordered r

/-- **Content.** Every entry is a message of its sender, under its number. -/
theorem inbox_content {s : St S R T} (h : (machine S R T).Reachable s) {r : R} {e : Entry S T} (he : e ∈ s.inbox r) :
    (s.sent e.src)[e.idx]? = some e.body := (reachable_inv h).content r e he

theorem inbox_step (s : St S R T) (o : Op S R T) (r : R) : s.inbox r <+: (step s o).inbox r := by
  rcases step_cases s o with he | ⟨i, t, -, he⟩ | ⟨i, k, t, todo, -, -, he⟩ | ⟨i, k, t, r', todo, -, he⟩ |
    ⟨i, k, t, r', todo, -, -, he⟩ | ⟨i, k, t, -, he⟩
  · rw [he]
  · rw [he]; exact List.prefix_refl _
  · rw [he]; exact List.prefix_refl _
  · rw [he]
    by_cases hr : r = r'
    · subst hr; simp only [St.goto, St.put, Function.update_self]; exact List.prefix_append _ _
    · simp only [St.goto, St.put, Function.update_of_ne hr]; exact List.prefix_refl _
  · rw [he]; exact List.prefix_refl _
  · rw [he]; exact List.prefix_refl _

/-- the sender an operation belongs to -/
def Op.sender : Op S R T → S
  | .begin i _ | .snap i _ | .post i | .skip i | .finish i => i

/-- a sender stands still while others move -/
theorem pc_frame {s : St S R T} {o : Op S R T} {i : S} (ho : o.sender ≠ i) : (step s o).pc i = s.pc i := by
  cases o <;> simp only [step] <;> repeat' (first | split | split_ifs)
  all_goals first
    | rfl
    | exact Function.update_of_ne (Ne.symm ho) _ _

/-- the operation skips r as a receiver of i -/
def Skips (s : St S R T) (i : S) (r : R) (o : Op S R T) : Prop :=
  o = .skip i ∧ ∃ k t todo, s.pc i = .walk k t (r :: todo)

/-- r has message k of i -/
def Has (s : St S R T) (i : S) (k : ℕ) (r : R) : Prop := ∃ e ∈ s.inbox r, e.src = i ∧ e.idx = k

/-- r is still to be served message k of i, or has it -/
def Served (i : S) (k : ℕ) (r : R) (s : St S R T) : Prop :=
  (∃ t todo, s.pc i = .walk k t todo ∧ r ∈ todo) ∨ Has s i k r

/-- **No loss.** A receiver to be served stays so until it has the message, unless it is skipped. -/
theorem served_step {s : St S R T} {i : S} {k : ℕ} {r : R} (h : Served i k r s) {o : Op S R T} (ho : ¬ Skips s i r o) :
    Served i k r (step s o) := by
  rcases h with ⟨t, todo, hi, hr⟩ | ⟨e, he, hs⟩
  · by_cases hm : o.sender = i
    · cases o with
      | begin j u => obtain rfl : j = i := hm; exact Or.inl ⟨t, todo, by simp only [step, hi], hr⟩
      | snap j l => obtain rfl : j = i := hm; exact Or.inl ⟨t, todo, by simp only [step, hi], hr⟩
      | post j =>
        obtain rfl : j = i := hm
        cases todo with
        | nil => cases hr
        | cons r' todo =>
          simp only [step, hi]
          rcases List.mem_cons.1 hr with rfl | hr
          · exact Or.inr ⟨⟨j, k, t⟩, by simp [St.goto, St.put], rfl, rfl⟩
          · exact Or.inl ⟨t, todo, by simp [St.goto], hr⟩
      | skip j =>
        obtain rfl : j = i := hm
        cases todo with
        | nil => cases hr
        | cons r' todo =>
          simp only [step, hi]
          rcases List.mem_cons.1 hr with rfl | hr
          · exact absurd ⟨rfl, k, t, todo, hi⟩ ho
          · exact Or.inl ⟨t, todo, by simp [St.goto], hr⟩
      | finish j =>
        obtain rfl : j = i := hm
        cases todo with
        | nil => cases hr
        | cons r' todo => exact Or.inl ⟨t, r' :: todo, by simp only [step, hi], hr⟩
    · exact Or.inl ⟨t, todo, (pc_frame hm).trans hi, hr⟩
  · exact Or.inr ⟨e, (inbox_step s o r).subset he, hs⟩

/-- what a step can add to an inbox -/
theorem has_step {s : St S R T} {o : Op S R T} {i : S} {k : ℕ} {r : R} (h : Has (step s o) i k r) :
    Has s i k r ∨ ∃ t todo, s.pc i = .walk k t (r :: todo) := by
  obtain ⟨e, he, hs, hk⟩ := h
  rcases step_cases s o with heq | ⟨j, u, -, heq⟩ | ⟨j, k', u, todo, -, -, heq⟩ | ⟨j, k', u, r', todo, hj, heq⟩ |
    ⟨j, k', u, r', todo, -, -, heq⟩ | ⟨j, k', u, -, heq⟩
  · rw [heq] at he; exact Or.inl ⟨e, he, hs, hk⟩
  · rw [heq] at he; exact Or.inl ⟨e, he, hs, hk⟩
  · rw [heq] at he; exact Or.inl ⟨e, he, hs, hk⟩
  · rw [heq] at he
    by_cases hr : r = r'
    · subst hr
      simp only [St.goto, St.put, Function.update_self, List.mem_append, List.mem_singleton] at he
      rcases he with he | rfl
      · exact Or.inl ⟨e, he, hs, hk⟩
      · subst hs hk
        exact Or.inr ⟨u, todo, hj⟩
    · simp only [St.goto, St.put, Function.update_of_ne hr] at he
      exact Or.inl ⟨e, he, hs, hk⟩
  · rw [heq] at he; exact Or.inl ⟨e, he, hs, hk⟩
  · rw [heq] at he; exact Or.inl ⟨e, he, hs, hk⟩

theorem sent_step (s : St S R T) (o : Op S R T) (i : S) : s.sent i <+: (step s o).sent i := by
  rcases step_cases s o with he | ⟨j, u, -, he⟩ | ⟨j, k', u, todo, -, -, he⟩ | ⟨j, k', u, r', todo, -, he⟩ |
    ⟨j, k', u, r', todo, -, -, he⟩ | ⟨j, k', u, -, he⟩
  · rw [he]
  · rw [he]
    by_cases hij : i = j
    · subst hij; simp only [St.goto, Function.update_self]; exact List.prefix_append _ _
    · simp only [St.goto, Function.update_of_ne hij]; exact List.prefix_refl _
  all_goals rw [he]; exact List.prefix_refl _

/-- where a step can take a sender -/
theorem pc_step (s : St S R T) (o : Op S R T) (i : S) :
    (step s o).pc i = s.pc i ∨
    (∃ t, (step s o).pc i = .start (s.sent i).length t) ∨
    (∃ k t todo, s.pc i = .start k t ∧ (step s o).pc i = .walk k t todo) ∨
    (∃ k t r todo, s.pc i = .walk k t (r :: todo) ∧ (step s o).pc i = .walk k t todo) ∨
    (step s o).pc i = .idle := by
  by_cases hm : o.sender = i
  · cases o with
    | begin j u =>
      obtain rfl : j = i := hm
      simp only [step]
      split
      · exact Or.inr (Or.inl ⟨u, goto_pc _ _ _⟩)
      · exact Or.inl rfl
    | snap j l =>
      obtain rfl : j = i := hm
      simp only [step]
      split
      · rename_i k t h
        split_ifs
        · exact Or.inr (Or.inr (Or.inl ⟨k, t, l, h, goto_pc _ _ _⟩))
        · exact Or.inl rfl
      · exact Or.inl rfl
    | post j =>
      obtain rfl : j = i := hm
      simp only [step]
      split
      · rename_i k t r todo h; exact Or.inr (Or.inr (Or.inr (Or.inl ⟨k, t, r, todo, h, goto_pc _ _ _⟩)))
      · exact Or.inl rfl
    | skip j =>
      obtain rfl : j = i := hm
      simp only [step]
      split
      · rename_i k t r todo h; exact Or.inr (Or.inr (Or.inr (Or.inl ⟨k, t, r, todo, h, goto_pc _ _ _⟩)))
      · exact Or.inl rfl
    | finish j =>
      obtain rfl : j = i := hm
      simp only [step]
      split
      · exact Or.inr (Or.inr (Or.inr (Or.inr (goto_pc _ _ _))))
      · exact Or.inl rfl
  · exact Or.inl (pc_frame hm)

/-- Message k of i goes to receivers in R0 only: those that have it are in R0, and so are those left in the snapshot. -/
structure Confined (i : S) (k : ℕ) (R0 : List R) (s : St S R T) : Prop where
  has : ∀ r, Has s i k r → r ∈ R0
  sent : k < (s.sent i).length
  taken : ∀ t, s.pc i ≠ .start k t
  todo : ∀ t todo, s.pc i = .walk k t todo → todo ⊆ R0

/-- **No stranger.** -/
theorem confined_step {s : St S R T} {i : S} {k : ℕ} {R0 : List R} (h : Confined i k R0 s) (o : Op S R T) :
    Confined i k R0 (step s o) := by
  refine ⟨?_, lt_of_lt_of_le h.sent (sent_step s o i).length_le, ?_, ?_⟩
  · intro r hr
    rcases has_step hr with hr | ⟨t, todo, hi⟩
    · exact h.has r hr
    · exact h.todo t _ hi List.mem_cons_self
  · intro t ht
    rcases pc_step s o i with he | ⟨u, he⟩ | ⟨k', u, todo, -, he⟩ | ⟨k', u, r, todo, -, he⟩ | he <;> rw [he] at ht
    · exact h.taken t ht
    · cases ht; exact lt_irrefl _ h.sent
    · cases ht
    · cases ht
    · cases ht
  · intro t todo ht
    rcases pc_step s o i with he | ⟨u, he⟩ | ⟨k', u, todo', hi, he⟩ | ⟨k', u, r, todo', hi, he⟩ | he <;> rw [he] at ht
    · exact h.todo t todo ht
    · cases ht
    · cases ht; exact absurd hi (h.taken _)
    · cases ht; exact fun x hx => h.todo _ _ hi (List.mem_cons_of_mem r hx)
    · cases ht

/-- the state right after the snapshot of message k confines it to the snapshot -/
theorem confined_snap {s : St S R T} (h : Inv s) {i : S} {k : ℕ} {t : T} {todo : List R} (hi : s.pc i = .start k t) :
    Confined i k todo (s.goto i (.walk k t todo)) := by
  have hc : (s.pc i).carries = some (k, t) := by rw [hi]; rfl
  have hl := h.last i k t hc
  refine ⟨?_, ?_, ?_, ?_⟩
  · intro r hr
    obtain ⟨e, he, hs, hk⟩ := hr
    have := h.ahead i k t hc r (by rw [hi]; trivial) e he hs
    omega
  · exact lt_of_lt_of_le (Nat.lt_succ_self k) hl.1.le
  · intro u hu
    simp [St.goto] at hu
  · intro u l hu
    simp only [St.goto, Function.update_self, Pc.walk.injEq] at hu
    rw [hu.2.2]
    exact fun _ hx => hx

/-- the sender is done with message k -/
def Done (i : S) (k : ℕ) (s : St S R T) : Prop := k < (s.sent i).length ∧ ∀ t, (s.pc i).carries ≠ some (k, t)

/-- **Finality.** A message its sender is done with stays done, and who has it does not change. -/
theorem done_step {s : St S R T} {i : S} {k : ℕ} (h : Done i k s) (o : Op S R T) :
    Done i k (step s o) ∧ ∀ r, Has (step s o) i k r ↔ Has s i k r := by
  refine ⟨⟨lt_of_lt_of_le h.1 (sent_step s o i).length_le, fun t ht => ?_⟩, fun r => ⟨fun hr => ?_, fun hr => ?_⟩⟩
  · rcases pc_step s o i with he | ⟨u, he⟩ | ⟨k', u, todo', hi, he⟩ | ⟨k', u, r, todo', hi, he⟩ | he <;> rw [he] at ht
    · exact h.2 t ht
    · cases ht; exact lt_irrefl _ h.1
    · cases ht; exact h.2 t (by rw [hi]; rfl)
    · cases ht; exact h.2 t (by rw [hi]; rfl)
    · cases ht
  · rcases has_step hr with hr | ⟨t, todo, hi⟩
    · exact hr
    · exact absurd (by rw [hi]; rfl) (h.2 t)
  · obtain ⟨e, he, hs⟩ := hr
    exact ⟨e, (inbox_step s o r).subset he, hs⟩

/-- how often message k of i is in an inbox -/
def copies (i : S) (k : ℕ) (l : List (Entry S T)) : ℕ := l.countP fun e => e.src = i ∧ e.idx = k

/-- **Once.** An ordered inbox has a message once or not at all. -/
theorem copies_eq {l : List (Entry S T)} (h : l.Pairwise fun a b => a.src = b.src → a.idx < b.idx) (i : S) (k : ℕ) :
    copies i k l = 1 ∧ (∃ e ∈ l, e.src = i ∧ e.idx = k) ∨ copies i k l = 0 ∧ ¬ ∃ e ∈ l, e.src = i ∧ e.idx = k := by
  induction h with
  | nil => right; simp [copies]
  | @cons a l ha hl ih =>
    by_cases hk : a.src = i ∧ a.idx = k
    · have h0 : copies i k l = 0 := by
        rw [copies, List.countP_eq_zero]
        intro b hb he
        have he : b.src = i ∧ b.idx = k := by simpa using he
        have := ha b hb (hk.1.trans he.1.symm)
        omega
      refine Or.inl ⟨?_, a, List.mem_cons_self, hk⟩
      rw [copies, List.countP_cons_of_pos (by simpa using hk)]
      exact congrArg (· + 1) h0
    · have hc : copies i k (a :: l) = copies i k l := List.countP_cons_of_neg (by simpa using hk)
      rw [hc]
      refine ih.imp (fun ⟨h1, e, he, hs⟩ => ⟨h1, e, List.mem_cons_of_mem a he, hs⟩) fun ⟨h1, h2⟩ => ⟨h1, ?_⟩
      rintro ⟨e, he, hs⟩
      rcases List.mem_cons.1 he with rfl | he
      · exact hk hs
      · exact h2 ⟨e, he, hs⟩

end Gss.Core.Multicast
