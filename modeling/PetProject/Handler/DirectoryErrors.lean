import PetProject.Framework.Machine
import PetProject.Framework.Outcome
import PetProject.Handler.DirectoryLookup

/-!
# A folder that cannot be read

`Server_dir_handler` checks its path when it is constructed and in `set_path`, and clears the path
when it is no folder. The requests that come later iterate over the path without asking for the
result of the check, and the iteration over what is no folder throws.
-/

namespace PetProject.Handler

open Framework Database

/-- The folders at the time of a call: the paths for which `is_directory` says so without an error,
and what an iteration over a path yields. -/
structure Folders where
  isDirectory : Text → Bool
  iteration : Text → Iteration DirEntry
  iteration_failed : ∀ path, isDirectory path = false → iteration path = .failed
  isDirectory_nil : isDirectory [] = false
  names : ∀ path, ∀ e ∈ (iteration path).entries, FileName e.name

/-- The members of a `Server_dir_handler`. -/
structure DirHandler where
  filesPath : Text
  checkRes : Bool
  deriving DecidableEq, Repr

namespace DirHandler

open ServerDirHandler

/-- `Server_dir_handler::check_dir`. -/
def checkDir (folders : Folders) (s : DirHandler) : DirHandler :=
  if folders.isDirectory s.filesPath then { s with checkRes := true } else ⟨[], false⟩

/-- The constructor of `Server_dir_handler`. -/
def construct (folders : Folders) (filesPath : Text) : DirHandler :=
  checkDir folders ⟨filesPath, false⟩

/-- `Server_dir_handler::set_path`, which returns `check_res`. -/
def setPath (folders : Folders) (filesPath : Text) (s : DirHandler) : DirHandler :=
  checkDir folders { s with filesPath := filesPath }

/-- `Server_dir_handler::handle`: whether the request is for a file, and the vector. -/
def handle (s : DirHandler) (folders : Folders) (released : Text → Text) (info : ReqInfo) :
    Outcome (Bool × ReqInfo) :=
  let iteration := folders.iteration s.filesPath
  if AsksForTable info.target then
    if iteration.complete then
      .returns
        (false, { info with result := ServerDirHandler.formingFilesTable iteration.entries })
    else .throws
  else (findOver released s.filesPath iteration info).map fun info => (true, info)

end DirHandler

/-- A call on the object; `released` is what the view of a file name reads as in this call. -/
inductive DirCall
  | setPath (folders : Folders) (filesPath : Text)
  | handle (folders : Folders) (released : Text → Text) (info : ReqInfo)

/-- A request leaves the object as it is, also when it throws. -/
def DirHandler.step (s : DirHandler) : DirCall → Option DirHandler
  | .setPath folders filesPath => some (s.setPath folders filesPath)
  | .handle _ _ _ => some s

def dirMachine : Machine DirHandler DirCall := ⟨DirHandler.step⟩

namespace DirHandler

open ServerDirHandler

/-- The outcome of a request, as its vector is to describe it: a result or an error is stored, and
the other one is left alone. -/
inductive Described (released : Text → Text) (filesPath : Text) (iteration : Iteration DirEntry)
    (info : ReqInfo) : Bool × ReqInfo → Prop
  | listing (htable : AsksForTable info.target) (hcomplete : iteration.complete = true) :
    Described released filesPath iteration info
      (false, { info with result := ServerDirHandler.formingFilesTable iteration.entries })
  | file (hfile : ¬AsksForTable info.target) (hlegal : ¬illegalTarget info.target) (name : Text)
      (hname : name ∈ fileNames iteration.entries)
      (hfits : compareFile info.target (released name)) :
    Described released filesPath iteration info (true, { info with
      target := if IsStem info.target then released name else info.target
      result := joinPath filesPath (released name) })
  | refused (hfile : ¬AsksForTable info.target) (hillegal : illegalTarget info.target)
      (error : Text) (herror : error ≠ []) :
    Described released filesPath iteration info (true, { info with error := error })
  | missing (hfile : ¬AsksForTable info.target) (hlegal : ¬illegalTarget info.target)
      (hcomplete : iteration.complete = true)
      (hnone : ∀ name ∈ fileNames iteration.entries, ¬compareFile info.target (released name)) :
    Described released filesPath iteration info (true, { info with
      target := if IsStem info.target then info.target.dropLast else info.target
      error := notFoundError
        (if IsStem info.target then info.target.dropLast else info.target) })
  | unreadable (isFile : Bool) (hfailed : iteration.complete = false) (error : Text)
      (herror : error ≠ []) :
    Described released filesPath iteration info (isFile, { info with error := error })

/-- A request is answered: `handle` returns, and the vector describes the outcome. -/
def Answers (s : DirHandler) : DirCall → Prop
  | .setPath _ _ => True
  | .handle folders released info =>
    ∃ out, s.handle folders released info = .returns out ∧
      Described released s.filesPath (folders.iteration s.filesPath) info out

/-- The condition on a request: its target is refused, or the last check has succeeded and the
iteration over the folder comes to its end or, in a lookup, to a file that fits. -/
def CanAnswer (s : DirHandler) : DirCall → Prop
  | .setPath _ _ => True
  | .handle folders released info =>
    let iteration := folders.iteration s.filesPath
    ¬AsksForTable info.target ∧ illegalTarget info.target ∨
      s.checkRes = true ∧ (iteration.complete = true ∨ ¬AsksForTable info.target ∧
        ∃ name ∈ fileNames iteration.entries, compareFile info.target (released name))

/-- A failed check has cleared the path. -/
def Checked (s : DirHandler) : Prop := s.checkRes = false → s.filesPath = []

/-! ## One lookup -/

section Lookup

variable {released : Text → Text} {filesPath : Text} {iteration : Iteration DirEntry}
  {info : ReqInfo}

private theorem findOver_eq_of_findThrough (hne : info.target ≠ []) (hlegal : ¬illegalTarget info.target)
    {out : ReqInfo} (hout : findThrough released filesPath iteration.entries info = some out) :
    findOver released filesPath iteration info =
      if iteration.complete = true ∨ ∃ name ∈ fileNames iteration.entries,
          compareFile info.target (released name) = true then .returns out
      else .throws := by
  rw [findThrough_eq hne hlegal, Option.some.injEq] at hout
  rw [findOver_eq hne hlegal]
  cases hfind : (fileNames iteration.entries).find? fun name =>
      compareFile info.target (released name) with
  | some name =>
    have hfits : ∃ name ∈ fileNames iteration.entries,
        compareFile info.target (released name) = true :=
      ⟨name, List.mem_of_find?_eq_some hfind, by simpa using List.find?_some hfind⟩
    rw [hfind] at hout
    rw [if_pos (Or.inr hfits), ← hout]
  | none =>
    have hnone : ¬∃ name ∈ fileNames iteration.entries,
        compareFile info.target (released name) = true := by
      rintro ⟨name, hname, hfits⟩
      exact List.find?_eq_none.mp hfind name hname hfits
    rw [hfind] at hout
    simp only [hnone, or_false, ← hout]

end Lookup

/-! ## One request -/

section Request

variable {s : DirHandler} {folders : Folders} {released : Text → Text} {info : ReqInfo}

private theorem ne_nil_of_file (hfile : ¬AsksForTable info.target) : info.target ≠ [] :=
  fun hnil => hfile (Or.inl hnil)

theorem Checked.iteration_failed (h : s.Checked) (hres : s.checkRes = false) :
    folders.iteration s.filesPath = .failed := by
  rw [h hres]
  exact folders.iteration_failed [] folders.isDirectory_nil

private theorem handle_file (hfile : ¬AsksForTable info.target) (hlegal : ¬illegalTarget info.target)
    {out : ReqInfo}
    (hout : findThrough released s.filesPath (folders.iteration s.filesPath).entries info =
      some out) :
    s.handle folders released info =
      if (folders.iteration s.filesPath).complete = true ∨
          ∃ name ∈ fileNames (folders.iteration s.filesPath).entries,
            compareFile info.target (released name) = true then .returns (true, out)
      else .throws := by
  rw [handle, if_neg hfile, findOver_eq_of_findThrough (ne_nil_of_file hfile) hlegal hout]
  split
  case isTrue => rfl
  case isFalse => rfl

private theorem answers_of_canAnswer (h : s.CanAnswer (.handle folders released info)) :
    s.Answers (.handle folders released info) := by
  by_cases htable : AsksForTable info.target
  · obtain ⟨hfile, -⟩ | ⟨-, hcomplete | ⟨hfile, -⟩⟩ := h
    · exact absurd htable hfile
    · refine ⟨_, ?_, .listing htable hcomplete⟩
      rw [handle, if_pos htable, if_pos hcomplete]
    · exact absurd htable hfile
  · have hne := ne_nil_of_file htable
    by_cases hillegal : illegalTarget info.target
    · refine ⟨_, ?_, .refused htable hillegal "Illegal request-target".toList (by simp)⟩
      rw [handle, if_neg htable, findOver_refused hne hillegal]
      rfl
    · obtain ⟨-, habsurd⟩ | ⟨-, hreached⟩ := h
      · exact absurd habsurd hillegal
      · have hreached := hreached.imp_right And.right
        refine ⟨_, (handle_file htable hillegal (findThrough_eq hne hillegal)).trans
          (if_pos hreached), ?_⟩
        cases hfind : (fileNames (folders.iteration s.filesPath).entries).find?
            fun name => compareFile info.target (released name) with
        | some name =>
          have hfits : compareFile info.target (released name) = true := by
            simpa using List.find?_some hfind
          exact .file htable hillegal name (List.mem_of_find?_eq_some hfind) hfits
        | none =>
          have hnone := List.find?_eq_none.mp hfind
          refine .missing htable hillegal (hreached.resolve_right ?_) hnone
          rintro ⟨name, hname, hfits⟩
          exact hnone name hname hfits

private theorem handle_throws (hchecked : s.Checked)
    (h : ¬s.CanAnswer (.handle folders released info)) :
    s.handle folders released info = .throws := by
  obtain ⟨hrefused, hreached⟩ := not_or.mp h
  have hstopped : ¬((folders.iteration s.filesPath).complete = true ∨
      ¬AsksForTable info.target ∧ ∃ name ∈ fileNames (folders.iteration s.filesPath).entries,
        compareFile info.target (released name)) := by
    intro hends
    cases hres : s.checkRes with
    | true => exact hreached ⟨hres, hends⟩
    | false =>
      rw [hchecked.iteration_failed hres] at hends
      simp [Iteration.failed, fileNames] at hends
  obtain ⟨hincomplete, hnone⟩ := not_or.mp hstopped
  by_cases htable : AsksForTable info.target
  · rw [handle, if_pos htable, if_neg hincomplete]
  · have hlegal : ¬illegalTarget info.target := fun hillegal => hrefused ⟨htable, hillegal⟩
    rw [handle_file htable hlegal (findThrough_eq (ne_nil_of_file htable) hlegal), if_neg]
    exact not_or.mpr ⟨hincomplete, fun hfits => hnone ⟨htable, hfits⟩⟩

private theorem answers_iff (hchecked : s.Checked) (call : DirCall) :
    s.Answers call ↔ s.CanAnswer call := by
  cases call with
  | setPath folders filesPath => exact Iff.rfl
  | handle folders released info =>
    refine ⟨fun hanswers => ?_, answers_of_canAnswer⟩
    by_contra h
    obtain ⟨out, hout, -⟩ := hanswers
    exact nomatch hout.symm.trans (handle_throws hchecked h)

end Request

/-! ## Runs -/

private theorem checked_checkDir (folders : Folders) (s : DirHandler) : (checkDir folders s).Checked := by
  intro hres
  unfold checkDir at hres ⊢
  split at hres
  case isTrue => exact nomatch hres
  case isFalse hno => rw [if_neg hno]

private theorem checked_step {s t : DirHandler} {call : DirCall} (h : dirMachine.step s call = some t)
    (hs : s.Checked) : t.Checked := by
  cases call with
  | setPath folders filesPath =>
    obtain rfl := Option.some.inj h
    exact checked_checkDir folders _
  | handle folders released info =>
    obtain rfl := Option.some.inj h
    exact hs

/-- All requests of a run are answered exactly if, at each of them that is not refused, the last
check has succeeded and the folder can be read as far as the request needs. -/
theorem requests_answered_iff (folders : Folders) (filesPath : Text) (calls : List DirCall) :
    dirMachine.Guarded Answers (construct folders filesPath) calls ↔
      dirMachine.Guarded CanAnswer (construct folders filesPath) calls :=
  Machine.guarded_congr (I := Checked) (L := fun _ => True) (fun _ _ _ _ => rfl)
    (fun _ _ _ hstep _ hs => checked_step hstep hs) (fun _ call _ hs => answers_iff hs call)
    (fun _ _ => trivial) (checked_checkDir folders _)

def noFolders : Folders where
  isDirectory _ := false
  iteration _ := .failed
  iteration_failed _ _ := rfl
  isDirectory_nil := rfl
  names _ _ he := nomatch he

/-- The listing is asked for after the check in the constructor has failed. -/
theorem request_after_failed_check_throws :
    ¬∀ (folders : Folders) (filesPath : Text) (calls : List DirCall),
      dirMachine.Guarded Answers (construct folders filesPath) calls := by
  intro hclaim
  obtain ⟨hanswers, -⟩ := hclaim noFolders ['d'] [.handle noFolders id .blank] _ rfl
  obtain ⟨out, hout, -⟩ := hanswers
  have hthrows : (construct noFolders ['d']).handle noFolders id .blank = .throws := rfl
  exact nomatch hout.symm.trans hthrows

end DirHandler

end PetProject.Handler
