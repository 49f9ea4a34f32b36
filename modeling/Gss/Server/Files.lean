/-
The file branch of handle_request: which file a target opens, and how the answers to HEAD and to GET compare.

- `path_within_docRoot`: a target that passes the check opens a path within the document root, whatever the root is.
- `head_agrees_iff`: HEAD gets the status, the type and the length that GET gets, and an empty body, exactly when the
  target is legal, its file opens and it is not an admin report. The error responses carry their text for every method,
  and the branch of the admin report tests for GET.
-/
import Gss.Core.Path
import Gss.Server.HttpSession

namespace Gss.HttpSession

open Gss.Core

/-! ## Confinement to the document root -/

/-- what path_cat puts in front of a target: the root, without one separator at its end -/
theorem pathCat_within {docRoot : Bytes} (hr : docRoot ≠ []) {b : Bytes} (hb : [dot, dot] ∉ b.splitOn slash) :
    (lexNormal slash dot docRoot).Within (lexNormal slash dot (pathCat docRoot (slash :: b))) := by
  rw [pathCat, if_neg hr]
  split_ifs with hs
  · have hroot : docRoot = docRoot.dropLast ++ [slash] := (List.dropLast_append_getLast? _ hs).symm
    conv_lhs => rw [hroot]
    exact within_append_sep _ hb
  · exact within_append hr hb

/-- the target, with the name of the index page when it names a directory -/
def opens (target : Bytes) : Bytes :=
  if target.getLast? = some slash then target ++ bytes "index.html" else target

theorem filePath_eq (docRoot target : Bytes) : filePath docRoot target = pathCat docRoot (opens target) := by
  unfold filePath opens pathCat
  split_ifs <;> simp

/-- a legal target starts with the separator -/
theorem opens_cons {target : Bytes} (ht : ¬ IllegalTarget target) : ∃ b, opens target = slash :: b := by
  simp only [IllegalTarget, not_or, not_not] at ht
  cases target with
  | nil => exact absurd rfl ht.1
  | cons x rest =>
    obtain rfl : x = slash := by simpa using ht.2.1
    unfold opens
    split_ifs
    · exact ⟨rest ++ bytes "index.html", rfl⟩
    · exact ⟨rest, rfl⟩

/-- no part of a legal target is `..` between separators -/
theorem plain_of_infix {target : Bytes} (ht : ¬ IllegalTarget target) {u : Bytes} (hu : u <:+: target) :
    [dot, dot] ∉ u.splitOn slash := by
  intro hm
  exact ht (Or.inr (Or.inr ((infix_of_mem_splitOn hm).trans hu)))

theorem plain_opens {target : Bytes} (ht : ¬ IllegalTarget target) : [dot, dot] ∉ (opens target).splitOn slash := by
  unfold opens
  split_ifs with hs
  · have hsplit : target = target.dropLast ++ [slash] := (List.dropLast_append_getLast? _ hs).symm
    have hindex : (bytes "index.html").splitOn slash = [bytes "index.html"] := by decide
    rw [hsplit, List.append_assoc, List.singleton_append, List.splitOn_append_cons_self, hindex, List.mem_append]
    rintro (hm | hm)
    · exact plain_of_infix ht (List.dropLast_prefix target).isInfix hm
    · revert hm
      decide
  · exact plain_of_infix ht (List.infix_refl target)

theorem cStr_append {a : Bytes} (h : (0 : UInt8) ∉ a) (b : Bytes) : cStr (a ++ b) = a ++ cStr b := by
  apply List.takeWhile_append_of_pos
  intro x hx
  simpa using fun h0 : x = 0 => h (h0 ▸ hx)

/-- nothing behind a null byte is read -/
theorem cStr_cut {a : Bytes} (h : (0 : UInt8) ∈ a) (b : Bytes) : cStr (a ++ b) = cStr a := by
  obtain ⟨x, y, rfl, hx⟩ := List.eq_append_cons_of_mem h
  rw [List.append_assoc, cStr_append hx, cStr_append hx]
  rfl

/-- the same, as far as the path is read -/
theorem plain_cStr {target : Bytes} (ht : ¬ IllegalTarget target) :
    [dot, dot] ∉ (cStr (opens target)).splitOn slash := by
  by_cases h0 : (0 : UInt8) ∈ target
  · have hcut : cStr (opens target) = cStr target := by
      unfold opens
      split_ifs
      · exact cStr_cut h0 _
      · rfl
    rw [hcut]
    exact plain_of_infix ht (List.takeWhile_prefix _).isInfix
  · have hall : cStr (opens target) = opens target := by
      have hno : (0 : UInt8) ∉ opens target := by
        unfold opens
        split_ifs
        · rw [List.mem_append, not_or]
          exact ⟨h0, by decide⟩
        · exact h0
      have happ := cStr_append hno []
      rw [List.append_nil] at happ
      exact happ.trans (List.append_nil _)
    rw [hall]
    exact plain_opens ht

/-- a path behind a root is within it, if it starts with the separator and has no segment `..` -/
theorem pathCat_within_of {docRoot u : Bytes} (hr : docRoot ≠ []) (hu : ∃ b, u = slash :: b)
    (hp : [dot, dot] ∉ u.splitOn slash) :
    (lexNormal slash dot docRoot).Within (lexNormal slash dot (pathCat docRoot u)) := by
  obtain ⟨b, rfl⟩ := hu
  apply pathCat_within hr
  rw [List.splitOn_cons_eq_if_modifyHead, if_pos (by simp), List.mem_cons, not_or] at hp
  exact hp.2

/-- **Document-root confinement.** For every root and every target that handle_request lets through, the path of the
file starts at the root directory or not as the root does, and its normalized segments begin with those of the root. So
does the path as c_str() hands it on, when the root has no null byte. -/
theorem path_within_docRoot {docRoot target : Bytes} (hr : docRoot ≠ []) (ht : ¬ IllegalTarget target) :
    (lexNormal slash dot docRoot).Within (lexNormal slash dot (filePath docRoot target)) ∧
      ((0 : UInt8) ∉ docRoot →
        (lexNormal slash dot docRoot).Within (lexNormal slash dot (cStr (filePath docRoot target)))) := by
  rw [filePath_eq]
  refine ⟨pathCat_within_of hr (opens_cons ht) (plain_opens ht), ?_⟩
  intro h0
  have hcut : cStr (pathCat docRoot (opens target)) = pathCat docRoot (cStr (opens target)) := by
    unfold pathCat
    split_ifs
    · rfl
    · exact cStr_append (fun hm => h0 (List.dropLast_subset _ hm)) _
    · exact cStr_append h0 _
  rw [hcut]
  refine pathCat_within_of hr ?_ (plain_cStr ht)
  obtain ⟨b, hb⟩ := opens_cons ht
  rw [hb]
  exact ⟨cStr b, rfl⟩

theorem path_within_docRoot_dots :
    (lexNormal slash dot (bytes "/srv/./x/../www/")).Within
        (lexNormal slash dot (filePath (bytes "/srv/./x/../www/") (bytes "/a//b/"))) ∧
      ((0 : UInt8) ∉ bytes "/srv/./x/../www/" → (lexNormal slash dot (bytes "/srv/./x/../www/")).Within
        (lexNormal slash dot (cStr (filePath (bytes "/srv/./x/../www/") (bytes "/a//b/"))))) :=
  path_within_docRoot (by decide) (by decide)

example : (lexNormal slash dot (filePath (bytes "/srv/./x/../www/") (bytes "/a//b/"))).segs =
    [bytes "srv", bytes "www", bytes "a", bytes "b", bytes "index.html"] := by decide

/-! ## HEAD and GET -/

/-- HEAD gets the status, the type and the length that GET gets, and an empty body -/
def HeadAgrees (lib : Nlohmann) (disk : Bytes → OpenResult) (docRoot : Bytes) (req : Request) (s : Shared) : Prop :=
  ∃ h g, (handleRequest lib disk docRoot { req with method := .head } s).1 = .ok h ∧
    (handleRequest lib disk docRoot { req with method := .get } s).1 = .ok g ∧
    h.status = g.status ∧ h.contentType = g.contentType ∧ h.contentLength = g.contentLength ∧ h.body = .empty

/-- the admin report of the state, as it is sent -/
def reportBytes (lib : Nlohmann) (s : Shared) : Bytes := lib.dump (adminBody s.curr s.tasksQueue)

/-- The target is legal and its file opens. If it is also a target of the admin report, the file happens to have the
type and the length of the report. -/
def HeadSafe (lib : Nlohmann) (disk : Bytes → OpenResult) (docRoot : Bytes) (req : Request) (s : Shared) : Prop :=
  ¬ IllegalTarget req.target ∧ ∃ content, disk (cStr (filePath docRoot req.target)) = .opened content ∧
    (bytes "/api/admin" <:+: req.target →
      mimeType (filePath docRoot req.target) = "application/json" ∧ content.length = (reportBytes lib s).length)

section Head

variable (lib : Nlohmann) (disk : Bytes → OpenResult) (docRoot : Bytes) (req : Request) (s : Shared)

/-- HEAD goes to the file branch -/
theorem handleRequest_head (ht : ¬ IllegalTarget req.target) :
    (handleRequest lib disk docRoot { req with method := .head } s).1 =
      .ok (getFile disk docRoot { req with method := .head }) := by
  simp [handleRequest, ht]

/-- GET goes to the admin report or to the file branch -/
theorem handleRequest_get (ht : ¬ IllegalTarget req.target) :
    (handleRequest lib disk docRoot { req with method := .get } s).1 =
      .ok (if bytes "/api/admin" <:+: req.target then getAdmin lib { req with method := .get } s
        else getFile disk docRoot { req with method := .get }) := by
  simp only [handleRequest, ht]
  split_ifs <;> simp_all

/-- the answer to HEAD has no body exactly when the file opens -/
theorem getFile_head_empty_iff :
    (getFile disk docRoot { req with method := .head }).body = .empty ↔
      ∃ content, disk (cStr (filePath docRoot req.target)) = .opened content := by
  unfold getFile
  simp only
  split <;> simp_all [notFound, serverError, stringResponse]

/-- HEAD and GET in one state -/
theorem head_agrees_state_iff : HeadAgrees lib disk docRoot req s ↔ HeadSafe lib disk docRoot req s := by
  by_cases ht : IllegalTarget req.target
  · -- the bad request's text is the body
    refine iff_of_false ?_ fun h => h.1 ht
    intro hagree
    obtain ⟨h, g, hh, _, _, _, _, hbody⟩ := hagree
    have hbad : (handleRequest lib disk docRoot { req with method := .head } s).1 =
        .ok (badRequest { req with method := .head } "Illegal request-target") := by simp [handleRequest, ht]
    cases hbad.symm.trans hh
    cases hbody
  have hhead := handleRequest_head lib disk docRoot req s ht
  have hget := handleRequest_get lib disk docRoot req s ht
  constructor
  · intro hagree
    obtain ⟨h, g, hh, hg, hstatus, htype, hlength, hbody⟩ := hagree
    cases hhead.symm.trans hh
    cases hget.symm.trans hg
    obtain ⟨content, hopen⟩ := (getFile_head_empty_iff disk docRoot req).1 hbody
    refine ⟨ht, content, hopen, ?_⟩
    intro hadmin
    rw [if_pos hadmin] at htype hlength
    simp only [getFile, hopen] at htype hlength
    exact ⟨htype, hlength⟩
  · intro hfound
    obtain ⟨_, content, hopen, hadmin⟩ := hfound
    refine ⟨_, _, hhead, hget, ?_⟩
    split_ifs with ha
    · obtain ⟨htype, hlength⟩ := hadmin ha
      simp only [getFile, hopen]
      exact ⟨rfl, htype, hlength, rfl⟩
    · simp [getFile, hopen]

/-- **When HEAD agrees with GET.** The error responses carry their text as the body for HEAD as well; on a target of the
admin report HEAD is answered for the file. So a request agrees in every state exactly when its target is legal, its
file opens and it is no target of the report, given that reports of different states can differ in length. In one state
the file may have the report's type and length by chance. -/
theorem head_agrees_iff :
    (HeadAgrees lib disk docRoot req s ↔ HeadSafe lib disk docRoot req s) ∧
      ((∃ s₁ s₂, (reportBytes lib s₁).length ≠ (reportBytes lib s₂).length) →
        ((∀ s, HeadAgrees lib disk docRoot req s) ↔ ¬ IllegalTarget req.target ∧
          (∃ content, disk (cStr (filePath docRoot req.target)) = .opened content) ∧
          ¬ bytes "/api/admin" <:+: req.target)) := by
  refine ⟨head_agrees_state_iff lib disk docRoot req s, ?_⟩
  intro hdiff
  obtain ⟨s₁, s₂, hne⟩ := hdiff
  simp only [head_agrees_state_iff]
  constructor
  · intro hall
    obtain ⟨ht, content, hopen, h1⟩ := hall s₁
    refine ⟨ht, ⟨content, hopen⟩, ?_⟩
    intro hadmin
    obtain ⟨-, content', hopen', h2⟩ := hall s₂
    rw [hopen, OpenResult.opened.injEq] at hopen'
    exact hne ((h1 hadmin).2.symm.trans (hopen' ▸ (h2 hadmin).2))
  · intro hsafe s
    obtain ⟨ht, ⟨content, hopen⟩, hadmin⟩ := hsafe
    exact ⟨ht, content, hopen, fun h => absurd h hadmin⟩

end Head

/-- a library that prints two reports: nothing running, and one task running -/
def reportLib : Nlohmann where
  parse _ := .error (.parseError 101)
  floatCast _ := Int32.minValue
  dump j :=
    match j.elem "processing" with
    | .null => bytes "\x7b\"pending\":[],\"processing\":null\x7d"
    | _ => bytes
      "\x7b\"pending\":[],\"processing\":\x7b\"description\":\"\",\"duration\":1,\"name\":\"ann\"\x7d\x7d"

theorem head_agrees_page :
    ∀ s, HeadAgrees reportLib (fun _ => .opened [1, 2, 3]) (bytes "/srv") ⟨.head, bytes "/a.html", 11, true, []⟩ s :=
  ((head_agrees_iff reportLib (fun _ => .opened [1, 2, 3]) (bytes "/srv") ⟨.head, bytes "/a.html", 11, true, []⟩
    ⟨[], none⟩).2 ⟨⟨[], none⟩, ⟨[], some (Task.make "ann" "" 1)⟩, by decide⟩).2 ⟨by decide, ⟨_, rfl⟩, by decide⟩

/-- **A HEAD request for a missing file is answered with a body.** -/
theorem head_not_found_has_body :
    let req : Request := ⟨.head, bytes "/a", 11, true, []⟩
    let r := (handleRequest (.table [] []) (fun _ => .noSuchFile) (bytes "/srv") req ⟨[], none⟩).1
    ¬ HeadAgrees (.table [] []) (fun _ => .noSuchFile) (bytes "/srv") req ⟨[], none⟩ ∧
      r = .ok (notFound req (bytes "/a")) ∧
      (notFound req (bytes "/a")).body = .string (bytes "The resource '/a' was not found.") := by
  intro req r
  refine ⟨?_, rfl, rfl⟩
  intro hagree
  obtain ⟨h, g, hh, _, _, _, _, hbody⟩ := hagree
  cases hh
  cases hbody

end Gss.HttpSession
