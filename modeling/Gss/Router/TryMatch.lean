/-
try_match itself: the loop over the children of a node, and the loop over the path (router/detail/impl/router.cpp).

The search branches when more than one child could match (`branches`); otherwise it moves on to the only child that
does. `AtChild` is what the loop over the children knows at one of them; there is one lemma for each kind of child.

- `childLoop_spec`: the loop over the children.
- `tryMatch_spec`: try_match finds the least walk, or none when there is none, or the arrays overflow.
-/
import Gss.Router.Search

namespace Gss.Router

open Gss.Core SegmentTemplate

variable {V : Type*}

section Search

variable {u : Url} {ns : List (Node V)} {pat : ℕ → List (Elem Bytes)} {segs : List Bytes} {level : ℤ}

/-! ### The children of a node -/

/-- what the loop over the children may return; where it moves on, what the rest of the search finds is found -/
def StepPost (u : Url) (ns : List (Node V)) (pat : ℕ → List (Elem Bytes)) (segs : List Bytes) (level : ℤ) (it : ℕ)
    (S : Set (List Letter × ℕ × List (ℕ × List Bytes))) (i : ℕ) (o : Out) : Except Fault (Step × Out) → Prop
  | .error e => e = .overflow ∧ ¬ (Roomy ns pat o.slots.length ∧ o.n ≤ fields (pat i))
  | .ok (.found j, o') => Best (Found ns pat segs o) S (some (j, o'))
  | .ok (.moved c, o') => IsChild ns i c ∧ o'.n ≤ o'.slots.length ∧
      ∀ res, Post ns pat segs (alts u ns level c (segs.drop (it + 1))) c o' res → Post ns pat segs S i o res
  | .ok (.unmatched, o') => S = ∅ ∧
      ∃ more, o.Ext o' more ∧ (Bare ns pat i → more = []) ∧ (Roomy ns pat o.slots.length → more = [])

theorem StepPost.after {it : ℕ} {S : Set (List Letter × ℕ × List (ℕ × List Bytes))} {i : ℕ} {o o1 : Out}
    {more : List (View × Bytes)} (hext : o.Ext o1 more) (hclean : Clean ns pat → more = [] ∨ S = ∅)
    (hroomy : Roomy ns pat o.slots.length → more = []) (hbare : Bare ns pat i → more = [])
    {res : Except Fault (Step × Out)} (h : StepPost u ns pat segs level it S i o1 res) :
    StepPost u ns pat segs level it S i o res := by
  match res with
  | .error e =>
    have hpost : Post ns pat segs S i o (.error e) := Post.after hext hclean hroomy hbare h
    exact hpost
  | .ok (.found j, o2) =>
    have hpost : Post ns pat segs S i o (.ok (some j, o2)) :=
      Post.after hext hclean hroomy hbare ⟨h, fun h0 => (by cases h0)⟩
    exact hpost.1
  | .ok (.moved c, o2) =>
    exact ⟨h.1, h.2.1, fun res hres => (h.2.2 res hres).after hext hclean hroomy hbare⟩
  | .ok (.unmatched, o2) =>
    obtain ⟨hS, more', hmore, hb, hr⟩ := h
    refine ⟨hS, more ++ more', hext.trans hmore, ?_, ?_⟩
    · intro hbi
      rw [hbare hbi, hb hbi]
      rfl
    · intro hri
      rw [hroomy hri, hr (hext.length ▸ hri)]
      rfl

/-- **One after the other**, in the loop over the children. -/
theorem StepPost.orElse {it : ℕ} {S T : Set (List Letter × ℕ × List (ℕ × List Bytes))} {i c : ℕ} {o : Out}
    {res : Except Fault (Option ℕ × Out)} {f : Option ℕ × Out → Except Fault (Step × Out)}
    (hres : Post ns pat segs S c o res) (hfields : fields (pat i) ≤ fields (pat c))
    (hle : ∀ x ∈ S, ∀ y ∈ T, x.1 ≤ y.1) (hsome : ∀ j o', f (some j, o') = .ok (.found j, o'))
    (hnone : ∀ o' more, o.Ext o' more → (Bare ns pat c → more = []) →
      StepPost u ns pat segs level it T i o (f (none, o'))) :
    StepPost u ns pat segs level it (S ∪ T) i o (res >>= f) := by
  match res with
  | .error e => exact ⟨hres.1, fun hr => hres.2 ⟨hr.1, hr.2.trans hfields⟩⟩
  | .ok (some j, o') =>
    have hf : (Except.ok (some j, o') >>= f) = .ok (.found j, o') := hsome j o'
    rw [hf]
    exact hres.1.left hle
  | .ok (none, o') =>
    obtain ⟨more, hmore, hb⟩ := hres.2 rfl
    have hS : S = ∅ := hres.1
    rw [hS, Set.empty_union]
    exact hnone o' more hmore hb

/-- no walk goes by a child that does not match -/
theorem via_unmatched {c : ℕ} {s : Bytes} {rest : List Bytes} (hm : (nodeAt ns c).seg.matchSeg u s = false) :
    via u ns level c (s :: rest) = ∅ := by
  rw [← Bool.not_eq_true, matchSeg_iff] at hm
  push Not at hm
  exact via_lit_empty (elem_of_literal hm.1) hm.2

/-- two matching literals of a node are the same -/
theorem eq_of_matchSeg (h : Tree ns pat) {i c d : ℕ} {s : Bytes} (hi : i < ns.length) (hc : IsChild ns i c)
    (hd : IsChild ns i d) (hlc : (nodeAt ns c).seg.isLiteral = true) (hld : (nodeAt ns d).seg.isLiteral = true)
    (hmc : (nodeAt ns c).seg.matchSeg u s = true) (hmd : (nodeAt ns d).seg.matchSeg u s = true) : c = d := by
  refine h.child_inj hi hc hd ?_
  have hc' : Fits u _ s := (matchSeg_iff ..).1 hmc hlc
  have hd' : Fits u _ s := (matchSeg_iff ..).1 hmd hld
  rw [elem_of_literal hlc, elem_of_literal hld, ← show _ = (nodeAt ns c).seg.str from hc',
    ← show _ = (nodeAt ns d).seg.str from hd']

/-! ### branch -/

/-- with one match counted, the loop stops at the next; with none, at the second, or at a modifier -/
theorem branchesLoop_true {s : Bytes} {cs : List ℕ} {lb : ℕ} (hlb : lb ≤ 1) (hnd : cs.Nodup)
    (hb : branchesLoop u ns s cs lb = true) :
    (∃ d ∈ cs, (nodeAt ns d).seg.isLiteral = false ∧ (nodeAt ns d).seg.hasModifier = true) ∨
      (lb = 1 ∧ ∃ c ∈ cs, (nodeAt ns c).seg.matchSeg u s = true) ∨
      ∃ c ∈ cs, ∃ d ∈ cs, c ≠ d ∧ (nodeAt ns c).seg.matchSeg u s = true ∧ (nodeAt ns d).seg.matchSeg u s = true := by
  induction cs generalizing lb with
  | nil => cases hb
  | cons c cs ih =>
    obtain ⟨hnot, hnd⟩ := List.nodup_cons.1 hnd
    unfold branchesLoop at hb
    by_cases hmod : ((nodeAt ns c).seg.isLiteral || !(nodeAt ns c).seg.hasModifier) = true
    · simp only [hmod, if_true] at hb
      cases hm : (nodeAt ns c).seg.matchSeg u s with
      | false =>
        simp only [hm, Bool.toNat_false, Nat.add_zero, if_neg (not_lt.2 hlb)] at hb
        rcases ih hlb hnd hb with h | h | h
        · obtain ⟨d, hd, h⟩ := h
          exact Or.inl ⟨d, List.mem_cons_of_mem _ hd, h⟩
        · obtain ⟨h1, d, hd, h⟩ := h
          exact Or.inr (Or.inl ⟨h1, d, List.mem_cons_of_mem _ hd, h⟩)
        · obtain ⟨a, ha, b, hb', h⟩ := h
          exact Or.inr (Or.inr ⟨a, List.mem_cons_of_mem _ ha, b, List.mem_cons_of_mem _ hb', h⟩)
      | true =>
        rcases Nat.le_one_iff_eq_zero_or_eq_one.1 hlb with rfl | rfl
        · simp only [hm, Bool.toNat_true, Nat.zero_add, if_neg (lt_irrefl 1)] at hb
          rcases ih le_rfl hnd hb with h | h | h
          · obtain ⟨d, hd, h⟩ := h
            exact Or.inl ⟨d, List.mem_cons_of_mem _ hd, h⟩
          · obtain ⟨-, d, hd, h⟩ := h
            refine Or.inr (Or.inr ⟨c, List.mem_cons_self, d, List.mem_cons_of_mem _ hd, ?_, hm, h⟩)
            rintro rfl
            exact hnot hd
          · obtain ⟨a, ha, b, hb', h⟩ := h
            exact Or.inr (Or.inr ⟨a, List.mem_cons_of_mem _ ha, b, List.mem_cons_of_mem _ hb', h⟩)
        · exact Or.inr (Or.inl ⟨rfl, c, List.mem_cons_self, hm⟩)
    · simp only [Bool.or_eq_true, Bool.not_eq_true', not_or, Bool.not_eq_true, Bool.not_eq_false] at hmod
      exact Or.inl ⟨c, List.mem_cons_self, hmod⟩

/-- without a branch there is at most one match, and no modifier beside another child -/
theorem branchesLoop_false {s : Bytes} {cs : List ℕ} {lb : ℕ} (hb : branchesLoop u ns s cs lb = false) :
    (∀ c ∈ cs, (nodeAt ns c).seg.matchSeg u s = true → lb = 0) ∧
      ∀ c ∈ cs, ∀ d ∈ cs, (nodeAt ns c).seg.matchSeg u s = true → (nodeAt ns d).seg.matchSeg u s = true → c = d := by
  induction cs generalizing lb with
  | nil => exact ⟨fun c hc => (by cases hc), fun c hc => (by cases hc)⟩
  | cons c cs ih =>
    unfold branchesLoop at hb
    by_cases hmod : ((nodeAt ns c).seg.isLiteral || !(nodeAt ns c).seg.hasModifier) = true
    · simp only [hmod, if_true] at hb
      split_ifs at hb with hlt
      obtain ⟨h1, h2⟩ := ih hb
      cases hm : (nodeAt ns c).seg.matchSeg u s with
      | false =>
        rw [hm, Bool.toNat_false, Nat.add_zero] at h1
        refine ⟨?_, ?_⟩
        · intro d hd hmd
          rcases List.mem_cons.1 hd with rfl | hd
          · rw [hm] at hmd
            cases hmd
          · exact h1 d hd hmd
        · intro a ha d hd hma hmd
          rcases List.mem_cons.1 ha with rfl | ha
          · rw [hm] at hma
            cases hma
          · rcases List.mem_cons.1 hd with rfl | hd
            · rw [hm] at hmd
              cases hmd
            · exact h2 a ha d hd hma hmd
      | true =>
        rw [hm, Bool.toNat_true] at h1 hlt
        have hno : ∀ d ∈ cs, (nodeAt ns d).seg.matchSeg u s ≠ true := fun d hd hmd => absurd (h1 d hd hmd) (by omega)
        refine ⟨fun _ _ _ => by omega, ?_⟩
        intro a ha d hd hma hmd
        rcases List.mem_cons.1 ha with rfl | ha
        · rcases List.mem_cons.1 hd with rfl | hd
          · rfl
          · exact absurd hmd (hno d hd)
        · exact absurd hma (hno a ha)
    · simp only [hmod] at hb
      simp at hb

/-- when the search branches, there is a field among the children -/
theorem field_of_branches (h : Tree ns pat) {i : ℕ} (hi : i < ns.length) {s : Bytes} (hb : branches u ns i s = true) :
    ∃ d, IsChild ns i d ∧ (elemAt ns d).isField = true := by
  have hfield : ∀ d, (elemAt ns d).isField = !(nodeAt ns d).seg.isLiteral := fun d => isField_elem _
  unfold branches at hb
  split_ifs at hb with hsize
  rcases branchesLoop_true (Nat.zero_le _) (h.nodup i hi) hb with h' | h' | h'
  · obtain ⟨d, hd, hld, -⟩ := h'
    exact ⟨d, hd, by rw [hfield, hld]; rfl⟩
  · cases h'.1
  · obtain ⟨a, ha, b, hb', hab, hma, hmb⟩ := h'
    cases hla : (nodeAt ns a).seg.isLiteral with
    | false => exact ⟨a, ha, by rw [hfield, hla]; rfl⟩
    | true =>
      cases hlb : (nodeAt ns b).seg.isLiteral with
      | false => exact ⟨b, hb', by rw [hfield, hlb]; rfl⟩
      | true => exact absurd (eq_of_matchSeg h hi ha hb' hla hlb hma hmb) hab

/-- without a branch at most one child matches -/
theorem eq_of_not_branches {i : ℕ} {s : Bytes} (hb : branches u ns i s = false) {c d : ℕ} (hc : IsChild ns i c)
    (hd : IsChild ns i d) (hmc : (nodeAt ns c).seg.matchSeg u s = true)
    (hmd : (nodeAt ns d).seg.matchSeg u s = true) : c = d := by
  unfold branches at hb
  split_ifs at hb with hsize
  · exact (branchesLoop_false hb).2 c hc d hd hmc hmd
  · rw [← ChildIdxVector.length_toList, not_lt] at hsize
    obtain ⟨k, hk, rfl⟩ := List.getElem_of_mem hc
    obtain ⟨k', hk', rfl⟩ := List.getElem_of_mem hd
    have hkk : k = k' := by omega
    subst hkk
    rfl

/-! ### The search -/

/-- no dot segments in the path -/
def Plain (u : Url) (segs : List Bytes) : Prop := ∀ s ∈ segs, u.decode s ≠ dot ∧ u.decode s ≠ dotdot ∧ s ≠ dotdot

instance (u : Url) (segs : List Bytes) : Decidable (Plain u segs) :=
  inferInstanceAs (Decidable (∀ s ∈ segs, u.decode s ≠ dot ∧ u.decode s ≠ dotdot ∧ s ≠ dotdot))

theorem leaves_plain {l : List Bytes} (hl : dotdot ∉ l) (star : Bool) (ndotdot nnondot : ℕ) :
    leaves star l ndotdot nnondot = false := by
  rw [← Bool.not_eq_true, leaves_iff]
  intro h
  obtain ⟨q, hq, -⟩ := h
  exact hl (hq.subset (by simp))

/-- what the loop over the children of i knows at the child c, with cs still to come -/
structure AtChild (u : Url) (ns : List (Node V)) (pat : ℕ → List (Elem Bytes)) (segs : List Bytes) (level : ℤ)
    (branch : Bool) (rec : ℕ → ℕ → Out → Except Fault (Option ℕ × Out)) (i it : ℕ) (s : Bytes) (c : ℕ) (cs : List ℕ)
    (o : Out) : Prop where
  tree : Tree ns pat
  plain : Plain u segs
  lt : i < ns.length
  seg : segs[it]? = some s
  sub : (c :: cs).Sublist (nodeAt ns i).childIdx.toList
  field : branch = true → ∃ d, IsChild ns i d ∧ (elemAt ns d).isField = true
  only : branch = false → ∀ c d, IsChild ns i c → IsChild ns i d → (nodeAt ns c).seg.matchSeg u s = true →
    (nodeAt ns d).seg.matchSeg u s = true → c = d
  below : ∀ start o, it ≤ start → start ≤ segs.length → o.n ≤ o.slots.length →
    Post ns pat segs (alts u ns level c (segs.drop start)) c o (rec start c o)
  next : ∀ o, o.n ≤ o.slots.length → StepPost u ns pat segs level it (viaAny u ns level cs (segs.drop it)) i o
    (childLoop rec u ns segs branch it s cs o)
  le : o.n ≤ o.slots.length

namespace AtChild

variable {branch : Bool} {rec : ℕ → ℕ → Out → Except Fault (Option ℕ × Out)} {i it : ℕ} {s : Bytes} {c : ℕ}
  {cs : List ℕ} {o : Out}

section

variable (a : AtChild u ns pat segs level branch rec i it s c cs o)

include a

theorem isChild : IsChild ns i c := a.sub.subset List.mem_cons_self

theorem it_lt : it < segs.length := (List.getElem?_eq_some_iff.1 a.seg).1

theorem drop_eq : segs.drop it = s :: segs.drop (it + 1) := by
  rw [List.drop_eq_getElem_cons a.it_lt, (List.getElem?_eq_some_iff.1 a.seg).2]

/-- the view that is written at c -/
theorem seen_seg (id : Bytes) : seen segs (some (it, it + 1), id) = ([s], id) := by simp [seen, a.drop_eq]

theorem not_mem : c ∉ cs := (List.nodup_cons.1 ((a.tree.nodup i a.lt).sublist a.sub)).1

theorem isChild_of_mem {d : ℕ} (hd : d ∈ cs) : IsChild ns i d := a.sub.subset (List.mem_cons_of_mem _ hd)

theorem via_le {x y : List Letter × ℕ × List (ℕ × List Bytes)} (hx : x ∈ via u ns level c (segs.drop it))
    (hy : y ∈ viaAny u ns level cs (segs.drop it)) : x.1 ≤ y.1 := via_le_viaAny a.tree a.lt a.sub hx hy

/-- the rest of the loop, after a rewind -/
theorem next_of_ext {o1 : Out} (hback : o.Ext o1 []) : StepPost u ns pat segs level it
    (viaAny u ns level cs (segs.drop it)) i o (childLoop rec u ns segs branch it s cs o1) :=
  (a.next o1 hback.le').after hback (fun _ => Or.inl rfl) (fun _ => rfl) fun _ => rfl

/-- without a branch, a child that matches is the only one -/
theorem viaAny_empty (hb : branch = false) (hm : (nodeAt ns c).seg.matchSeg u s = true) :
    viaAny u ns level cs (segs.drop it) = ∅ := by
  refine Set.eq_empty_of_forall_notMem ?_
  intro x hx
  obtain ⟨d, hd, hx⟩ := hx
  cases hmd : (nodeAt ns d).seg.matchSeg u s with
  | true => exact a.not_mem (a.only hb c d a.isChild (a.isChild_of_mem hd) hm hmd ▸ hd)
  | false =>
    rw [a.drop_eq, via_unmatched hmd] at hx
    exact hx

theorem unmatched {l : Bytes} (he : elemAt ns c = .lit l) (hs : u.decode s ≠ l) :
    StepPost u ns pat segs level it (viaAny u ns level (c :: cs) (segs.drop it)) i o
      (childLoop rec u ns segs branch it s (c :: cs) o) := by
  have hvia : via u ns level c (segs.drop it) = ∅ := by
    rw [a.drop_eq]
    exact via_lit_empty he hs
  rw [childLoop_pass he hs, viaAny_cons, hvia, Set.empty_union]
  exact a.next_of_ext (.refl a.le)

theorem literal {l : Bytes} (he : elemAt ns c = .lit l) (hs : u.decode s = l) :
    StepPost u ns pat segs level it (viaAny u ns level (c :: cs) (segs.drop it)) i o
      (childLoop rec u ns segs branch it s (c :: cs) o) := by
  have hlit : (elemAt ns c).isField = false := by rw [he]; rfl
  have hm : (nodeAt ns c).seg.matchSeg u s = true := (matchSeg_lit he u s).2 hs
  have hvia : via u ns level c (segs.drop it) = past u ns level c (segs.drop (it + 1)) := by
    rw [a.drop_eq]
    exact via_lit he hs
  have hfields := fields_child a.tree a.lt a.isChild
  rw [hlit, if_neg (by decide), Nat.add_zero] at hfields
  rw [childLoop_lit he hs, viaAny_cons]
  cases branch with
  | true =>
    obtain ⟨d, hd, hf⟩ := a.field rfl
    have hpost := a.below (it + 1) o (by omega) a.it_lt a.le
    have hle : ∀ x ∈ via u ns level c (segs.drop it), ∀ y ∈ viaAny u ns level cs (segs.drop it), x.1 ≤ y.1 :=
      fun x hx y hy => a.via_le hx hy
    rw [hvia] at hle ⊢
    refine StepPost.orElse (Post.past hpost) hfields.ge hle (fun _ _ => rfl) ?_
    intro o1 more hmore hbare
    -- what c has left stays in the arrays
    have hnone : Clean ns pat → more = [] := fun hclean =>
      hbare (hclean.literal i c d a.lt a.isChild hd hlit hf)
    exact (a.next o1 hmore.le').after hmore (fun hclean => Or.inl (hnone hclean))
      (fun hroomy => hnone hroomy.toClean) fun hbi => hbare (bare_child a.tree a.lt a.isChild hbi).2
  | false =>
    rw [a.viaAny_empty rfl hm, Set.union_empty, hvia]
    exact ⟨a.isChild, a.le, fun res hres => Post.of_literal a.tree a.lt a.isChild hlit (Post.past hres)⟩

theorem single (he : elemAt ns c = .one) :
    StepPost u ns pat segs level it (viaAny u ns level (c :: cs) (segs.drop it)) i o
      (childLoop rec u ns segs branch it s (c :: cs) o) := by
  have hf : (elemAt ns c).isField = true := by rw [he]; rfl
  have hm : (nodeAt ns c).seg.matchSeg u s = true := matchSeg_field hf u s
  have hvia : via u ns level c (segs.drop it) = taking u ns level c [s] (segs.drop (it + 1)) := by
    rw [a.drop_eq]
    exact via_one he
  rw [childLoop_one he, viaAny_cons]
  cases hpush : o.push (some (it, it + 1)) (nodeAt ns c).seg.id with
  | error e =>
    obtain ⟨rfl, hfull⟩ := Out.push_error hpush
    exact ⟨rfl, not_roomy_of_full a.tree a.lt a.isChild hf hfull⟩
  | ok o1 =>
    have hext := Out.push_ok a.le hpush
    cases branch with
    | true =>
      have hpost := Post.taking a.tree a.lt a.isChild hf hext (a.seen_seg _)
        (a.below (it + 1) o1 (by omega) a.it_lt hext.le')
      have hle : ∀ x ∈ via u ns level c (segs.drop it), ∀ y ∈ viaAny u ns level cs (segs.drop it), x.1 ≤ y.1 :=
        fun x hx y hy => a.via_le hx hy
      rw [hvia] at hle ⊢
      refine StepPost.orElse hpost le_rfl hle (fun _ _ => rfl) ?_
      intro o2 more hmore _
      exact a.next_of_ext hmore.rewind_zero
    | false =>
      rw [a.viaAny_empty rfl hm, Set.union_empty, hvia]
      exact ⟨a.isChild, hext.le', fun res hres => Post.taking a.tree a.lt a.isChild hf hext (a.seen_seg _) hres⟩

theorem optional (he : elemAt ns c = .opt) :
    StepPost u ns pat segs level it (viaAny u ns level (c :: cs) (segs.drop it)) i o
      (childLoop rec u ns segs branch it s (c :: cs) o) := by
  have hf : (elemAt ns c).isField = true := by rw [he]; rfl
  have hvia : via u ns level c (segs.drop it) =
      taking u ns level c [s] (segs.drop (it + 1)) ∪ taking u ns level c [] (segs.drop it) := by
    rw [a.drop_eq]
    exact via_opt he
  rw [childLoop_opt he, viaAny_cons]
  cases hpush : o.push (some (it, it + 1)) (nodeAt ns c).seg.id with
  | error e =>
    obtain ⟨rfl, hfull⟩ := Out.push_error hpush
    exact ⟨rfl, not_roomy_of_full a.tree a.lt a.isChild hf hfull⟩
  | ok o1 =>
    have hext := Out.push_ok a.le hpush
    have hpost := Post.taking a.tree a.lt a.isChild hf hext (a.seen_seg _)
      (a.below (it + 1) o1 (by omega) a.it_lt hext.le')
    have hle : ∀ x ∈ via u ns level c (segs.drop it), ∀ y ∈ viaAny u ns level cs (segs.drop it), x.1 ≤ y.1 :=
      fun x hx y hy => a.via_le hx hy
    rw [hvia] at hle ⊢
    rw [Set.union_assoc]
    refine StepPost.orElse hpost le_rfl ?_ (fun _ _ => rfl) ?_
    · rintro x hx y (hy | hy)
      · refine taking_le ?_ hx hy
        have := a.it_lt
        simp only [List.length_drop]
        omega
      · exact hle x (Or.inl hx) y hy
    · -- c takes nothing
      intro o2 more hmore _
      have hback := hmore.rewind_zero
      cases hpush2 : (o2.rewind o.n).push none (nodeAt ns c).seg.id with
      | error e =>
        obtain ⟨rfl, hfull⟩ := Out.push_error hpush2
        rw [hback.length] at hfull
        simp only [hpush2]
        exact ⟨rfl, not_roomy_of_full a.tree a.lt a.isChild hf hfull⟩
      | ok o3 =>
        have hext2 := hback.trans (Out.push_ok hback.le' hpush2)
        have hpost2 := Post.taking a.tree a.lt a.isChild hf (e := (none, (nodeAt ns c).seg.id)) hext2 rfl
          (a.below it o3 le_rfl a.it_lt.le hext2.le')
        simp only [hpush2]
        refine StepPost.orElse hpost2 le_rfl (fun x hx y hy => hle x (Or.inr hx) y hy) (fun _ _ => rfl) ?_
        intro o4 more' hmore' _
        exact a.next_of_ext hmore'.rewind_zero

/-- after a star nothing but a plus could come, and after a plus nothing -/
theorem viaAny_after_many (he : elemAt ns c = .star ∨ elemAt ns c = .plus) (hclean : Clean ns pat) :
    viaAny u ns level cs (segs.drop it) = ∅ := by
  refine Set.eq_empty_of_forall_notMem ?_
  intro x hx
  obtain ⟨d, hd, hx⟩ := hx
  have hcd := a.isChild_of_mem hd
  have hrank : (elemAt ns c).rank ≤ (elemAt ns d).rank :=
    (List.pairwise_cons.1 ((a.tree.sorted i a.lt).sublist a.sub)).1 d hd
  have hne : elemAt ns c ≠ elemAt ns d := fun hed =>
    a.not_mem (a.tree.child_inj a.lt a.isChild hcd hed ▸ hd)
  have hno := hclean.many i c d a.lt a.isChild hcd
  cases hed : elemAt ns d <;> rcases he with he | he <;> simp_all [Elem.rank]

theorem many (he : elemAt ns c = .star ∨ elemAt ns c = .plus) :
    StepPost u ns pat segs level it (viaAny u ns level (c :: cs) (segs.drop it)) i o
      (childLoop rec u ns segs branch it s (c :: cs) o) := by
  have hf : (elemAt ns c).isField = true := by rcases he with he | he <;> rw [he] <;> rfl
  have hdots : dotdot ∉ segs.drop it := fun hmem => (a.plain _ (List.mem_of_mem_drop hmem)).2.2 rfl
  rw [childLoop_many he, leaves_plain hdots, if_neg Bool.false_ne_true, viaAny_cons]
  cases hpush : o.push (some (it, it + 1)) (nodeAt ns c).seg.id with
  | error e =>
    obtain ⟨rfl, hfull⟩ := Out.push_error hpush
    exact ⟨rfl, not_roomy_of_full a.tree a.lt a.isChild hf hfull⟩
  | ok o1 =>
    have hext := Out.push_ok a.le hpush
    set first := if (nodeAt ns c).seg.isPlus = true then it + 1 else it with hfirst
    have hkind : elemAt ns c = .star ∧ first = it ∨ elemAt ns c = .plus ∧ first = it + 1 := by
      rcases he with he | he
      · refine Or.inl ⟨he, if_neg ?_⟩
        rw [isPlus_iff, show (nodeAt ns c).seg.elem = .star from he]
        simp
      · exact Or.inr ⟨he, if_pos (isPlus_iff.2 he)⟩
    have hlt := a.it_lt
    have hbounds : it ≤ first ∧ first ≤ segs.length := by rcases hkind with hk | hk <;> omega
    have hpost := starLoop_spec a.tree a.lt a.isChild hkind (k := segs.length - first)
      (fun start o' h1 h2 h3 => a.below start o' (hbounds.1.trans h1) h2 h3) (by omega) hext
    rw [← via_eq_takingTo hlt hkind] at hpost
    refine StepPost.orElse hpost le_rfl (fun x hx y hy => a.via_le hx hy) (fun _ _ => rfl) ?_
    intro o2 more hmore hbare
    refine (a.next o2 hmore.le').after hmore (fun hclean => Or.inr (a.viaAny_after_many he hclean)) ?_ hbare
    intro hroomy
    have hchild := a.tree.of_child a.lt a.isChild
    have hsingle := hroomy.single c hchild.1 (by omega)
    rcases he with he | he
    · exact absurd he hsingle.1
    · exact absurd he hsingle.2

end

end AtChild

/-- **The loop over the children** finds the least walk by one of them, or moves on to the only one that matches. -/
theorem childLoop_spec (h : Tree ns pat) (hplain : Plain u segs) {i it : ℕ} {s : Bytes} (hi : i < ns.length)
    (hit : segs[it]? = some s) {rec : ℕ → ℕ → Out → Except Fault (Option ℕ × Out)}
    (hrec : ∀ start c o, it ≤ start → start ≤ segs.length → IsChild ns i c → o.n ≤ o.slots.length →
      Post ns pat segs (alts u ns level c (segs.drop start)) c o (rec start c o))
    {cs : List ℕ} (hcs : cs.Sublist (nodeAt ns i).childIdx.toList) {o : Out} (ho : o.n ≤ o.slots.length) :
    StepPost u ns pat segs level it (viaAny u ns level cs (segs.drop it)) i o
      (childLoop rec u ns segs (branches u ns i s) it s cs o) := by
  induction cs generalizing o with
  | nil => exact ⟨viaAny_nil, [], .refl ho, fun _ => rfl, fun _ => rfl⟩
  | cons c cs ih =>
    have hc : IsChild ns i c := hcs.subset List.mem_cons_self
    have a : AtChild u ns pat segs level (branches u ns i s) rec i it s c cs o :=
      ⟨h, hplain, hi, hit, hcs, fun hb => field_of_branches h hi hb,
        fun hb c d hc hd hmc hmd => eq_of_not_branches hb hc hd hmc hmd,
        fun start o h1 h2 h3 => hrec start c o h1 h2 hc h3,
        fun o ho => ih ((List.sublist_cons_self c cs).trans hcs) ho, ho⟩
    cases he : elemAt ns c with
    | lit l =>
      by_cases hs : u.decode s = l
      · exact a.literal he hs
      · exact a.unmatched he hs
    | one => exact a.single he
    | opt => exact a.optional he
    | star => exact a.many (Or.inl he)
    | plus => exact a.many (Or.inr he)

/-- above level 0 there is nothing to find -/
theorem alts_above (hl : level ≠ 0) (i : ℕ) (l : List Bytes) : alts u ns level i l = ∅ :=
  Set.eq_empty_of_forall_notMem fun _ hx => hl hx.2.1

theorem post_above {i : ℕ} {l : List Bytes} (hl : level ≠ 0) {o : Out} (ho : o.n ≤ o.slots.length) :
    Post ns pat segs (alts u ns level i l) i o (.ok (none, o)) :=
  ⟨alts_above hl i l, fun _ => ⟨[], .refl ho, fun _ => rfl⟩⟩

/-- a step ahead in the path uses less fuel than any step back in the tree saves -/
theorem fuel_ahead {a b M x y fuel : ℕ} (hab : a < b) (hx : x ≤ M) (hfuel : b * (M + 1) + y < fuel + 1) :
    a * (M + 1) + x < fuel := by
  have hmul : (a + 1) * (M + 1) ≤ b * (M + 1) := Nat.mul_le_mul_right _ hab
  rw [Nat.add_mul, Nat.one_mul] at hmul
  omega

/-- **try_match** finds the least walk that uses up the path and ends at a node with a resource, or none when there is
none; or the arrays overflow. -/
theorem tryMatch_spec (h : Tree ns pat)
    (hw : ∀ i, i < ns.length → i ≠ 0 → (nodeAt ns i).resource = none → (nodeAt ns i).childIdx.toList ≠ [])
    (hplain : Plain u segs) {fuel it cur : ℕ} (hit : it ≤ segs.length) (hcur : cur < ns.length) (hlevel : 0 ≤ level)
    (hroot : it < segs.length ∨ cur ≠ 0 ∨ level ≠ 0)
    (hfuel : (segs.length - it) * (ns.length + 1) + (ns.length - cur) < fuel) {o : Out} (ho : o.n ≤ o.slots.length) :
    Post ns pat segs (alts u ns level cur (segs.drop it)) cur o (tryMatch u ns segs fuel it cur level o) := by
  induction fuel generalizing it cur level o with
  | zero => omega
  | succ fuel ih =>
    rcases Nat.lt_or_ge it segs.length with hlt | hge
    · have hs : segs[it]? = some segs[it] := List.getElem?_eq_getElem hlt
      have hp := hplain _ (List.getElem_mem hlt)
      simp only [tryMatch, hs, hp.1, hp.2.1, if_false, if_neg (not_lt.2 hlevel)]
      have hne : segs.drop it ≠ [] := by
        intro h0
        have hlen := congrArg List.length h0
        simp at hlen
        omega
      rw [alts_eq_viaAny (Or.inl hne)]
      have hloop : StepPost u ns pat segs level it
          (viaAny u ns level (nodeAt ns cur).childIdx.toList (segs.drop it)) cur o
          (childLoop (fun it i o => tryMatch u ns segs fuel it i level o) u ns segs (branches u ns cur segs[it]) it
            segs[it] (nodeAt ns cur).childIdx.toList o) :=
        childLoop_spec h hplain hcur hs ?_ (List.Sublist.refl _) ho
      · cases hres : childLoop (fun it i o => tryMatch u ns segs fuel it i level o) u ns segs
            (branches u ns cur segs[it]) it segs[it] (nodeAt ns cur).childIdx.toList o with
        | error e =>
          rw [hres] at hloop
          exact hloop
        | ok r =>
          obtain ⟨r, o1⟩ := r
          rw [hres] at hloop
          have hsub : segs.length - (it + 1) < segs.length - it := by omega
          cases r with
          | found j => exact ⟨hloop, fun h0 => (by cases h0)⟩
          | moved c =>
            obtain ⟨hc, ho1, hnext⟩ := hloop
            obtain ⟨hclt, hic, -⟩ := h.of_child hcur hc
            refine hnext _ (ih (by omega) hclt hlevel (Or.inr (Or.inl (by omega))) ?_ ho1)
            exact fuel_ahead hsub (Nat.sub_le _ _) hfuel
          | unmatched =>
            obtain ⟨hS, more, hmore, hbare, hroomy⟩ := hloop
            have hup : level + 1 ≠ 0 := by omega
            have hpost : Post ns pat segs (alts u ns (level + 1) cur (segs.drop (it + 1))) cur o1
                (tryMatch u ns segs fuel (it + 1) cur (level + 1) o1) :=
              ih (by omega) hcur (by omega) (Or.inr (Or.inr hup)) (fuel_ahead hsub (Nat.sub_le _ _) hfuel) hmore.le'
            rw [hS]
            rw [alts_above hup] at hpost
            exact hpost.after hmore (fun _ => Or.inr rfl) hroomy hbare
      · intro start c o' h1 h2 hc ho'
        obtain ⟨hclt, hic, -⟩ := h.of_child hcur hc
        refine ih h2 hclt hlevel (Or.inr (Or.inl (by omega))) ?_ ho'
        rcases Nat.eq_or_lt_of_le h1 with rfl | hlt'
        · omega
        · exact fuel_ahead (by omega : segs.length - start < segs.length - it) (Nat.sub_le _ _) hfuel
    · have hnone : segs[it]? = none := List.getElem?_eq_none hge
      have hdrop : segs.drop it = [] := List.drop_eq_nil_of_le hge
      simp only [tryMatch, hnone, hdrop]
      split_ifs with hl hr
      · exact post_above hl ho
      · obtain rfl : level = 0 := not_not.1 hl
        have h0 : cur ≠ 0 := by
          rcases hroot with h | h | h
          · omega
          · exact h
          · exact absurd rfl h
        exact findOptional_spec h hw hcur h0 (by omega) ho
      · obtain rfl : level = 0 := not_not.1 hl
        refine ⟨best_here ho ?_, fun h0 => (by cases h0)⟩
        rw [Option.isSome_iff_ne_none]
        intro h0
        exact hr (by rw [h0]; rfl)

end Search

end Gss.Router
