import Mathlib.Data.List.Find
import PetProject.Framework.Outcome
import PetProject.Handler.ServerDirHandler

/-!
# The name that a lookup reads

`Server_dir_handler::find` holds each file name in `curr_file`, a view into the path that
`filename()` returns by value. That path is destroyed at the end of its statement, so what the
loop compares and joins is whatever its memory reads as by then. The lookup is modelled over that
reading, and over an iteration that may throw; in a folder that is read to its end it is right
exactly when the memory keeps every name.
-/

namespace PetProject.Handler

open Framework Database

namespace ServerDirHandler

/-- The closures that are assigned to `compare`; the first one refers to the target itself. -/
inductive Compare
  | startsWith
  | equals (target : Text)
  deriving DecidableEq, Repr

/-- A call of `compare`: its result, and the target afterwards. -/
def Compare.call (target currFile : Text) : Compare → Bool × Text
  | .startsWith => if target.isPrefixOf currFile then (true, currFile) else (false, target)
  | .equals name => (currFile = name, target)

/-- The loop of `find` over an iteration that may throw, and what follows it. `released` gives what
the view of a name reads as. -/
def lookOver (released : Text → Text) (filesPath : Text) (compare : Compare) (complete : Bool) :
    List DirEntry → ReqInfo → Outcome ReqInfo
  | [], info =>
    if complete then .returns { info with error := notFoundError info.target } else .throws
  | entry :: entries, info =>
    if entry.isRegularFile then
      let currFile := released entry.name
      let compared := compare.call info.target currFile
      let info := { info with target := compared.2 }
      if compared.1 then .returns { info with result := joinPath filesPath currFile }
      else lookOver released filesPath compare complete entries info
    else lookOver released filesPath compare complete entries info

/-- `Server_dir_handler::find`. -/
def findOver (released : Text → Text) (filesPath : Text) (iteration : Iteration DirEntry)
    (info : ReqInfo) : Outcome ReqInfo :=
  match info.target.getLast? with
  -- `back()` of an empty string
  | none => .undefined
  | some back =>
    if back = '/' ∨ ['.', '.'] <:+: info.target then
      .returns { info with error := "Illegal request-target".toList }
    else if 1 < info.target.length ∧ back = '*' then
      lookOver released filesPath .startsWith iteration.complete iteration.entries
        { info with target := info.target.dropLast }
    else lookOver released filesPath (.equals info.target) iteration.complete iteration.entries info

/-- The lookup in a folder that is read to its end; `none` when it is undefined. -/
def findThrough (released : Text → Text) (filesPath : Text) (entries : List DirEntry)
    (info : ReqInfo) : Option ReqInfo :=
  (findOver released filesPath ⟨entries, true⟩ info).result

/-- What the lookup of a target is to leave in a vector without a result and an error. -/
structure Finds (filesPath : Text) (entries : List DirEntry) (info out : ReqInfo) : Prop where
  refused : illegalTarget info.target → out = { info with error := out.error } ∧ out.error ≠ []
  found : ¬illegalTarget info.target →
    ∀ f ∈ (fileNames entries).find? (compareFile info.target), out = { info with
      target := if IsStem info.target then f else info.target, result := joinPath filesPath f }
  missing : ¬illegalTarget info.target →
    (fileNames entries).find? (compareFile info.target) = none →
      out.result = [] ∧ ∃ target, out.error = notFoundError target
  inside : out.result ≠ [] → ∃ f ∈ fileNames entries, out.result = joinPath filesPath f

private theorem fileNames_cons_regular {entry : DirEntry} (h : entry.isRegularFile)
    (entries : List DirEntry) :
    fileNames (entry :: entries) = entry.name :: fileNames entries := by
  simp [fileNames, h]

private theorem fileNames_cons_other {entry : DirEntry} (h : ¬entry.isRegularFile)
    (entries : List DirEntry) : fileNames (entry :: entries) = fileNames entries := by
  simp [fileNames, h]

private theorem illegalTarget_iff_back {target : Text} {back : Char} (hback : target.getLast? = some back) :
    illegalTarget target ↔ back = '/' ∨ ['.', '.'] <:+: target := by
  simp [illegalTarget, hback]

private theorem isStem_iff_back {target : Text} {back : Char} (hback : target.getLast? = some back) :
    IsStem target ↔ 1 < target.length ∧ back = '*' := by
  simp [IsStem, hback]

section Loop

variable {released : Text → Text} {filesPath : Text} {entries : List DirEntry}
  {iteration : Iteration DirEntry} {info : ReqInfo}

private theorem Compare.call_false {compare : Compare} {target currFile : Text}
    (h : (compare.call target currFile).1 = false) : (compare.call target currFile).2 = target := by
  cases compare with
  | startsWith =>
    unfold Compare.call at h ⊢
    dsimp only at h ⊢
    split at h
    case isTrue => exact nomatch h
    case isFalse hne => rw [if_neg hne]
  | equals name => rfl

private theorem Compare.startsWith_call {target : Text} (h : IsStem target) (name : Text) :
    (Compare.startsWith.call target.dropLast name).1 = compareFile target name := by
  by_cases hp : target.dropLast.isPrefixOf name <;> simp [Compare.call, compareFile, h, hp]

private theorem Compare.equals_call {target : Text} (h : ¬IsStem target) (name : Text) :
    ((Compare.equals target).call target name).1 = compareFile target name := by
  simp [Compare.call, compareFile, h]

private theorem lookOver_eq (compare : Compare) (complete : Bool) :
    lookOver released filesPath compare complete entries info =
      match (fileNames entries).find? fun name => (compare.call info.target (released name)).1 with
      | some name => .returns { info with
          target := (compare.call info.target (released name)).2
          result := joinPath filesPath (released name) }
      | none =>
        if complete then .returns { info with error := notFoundError info.target } else .throws := by
  induction entries with
  | nil => rfl
  | cons entry entries ih =>
    unfold lookOver
    by_cases hregular : entry.isRegularFile
    · rw [if_pos hregular, fileNames_cons_regular hregular, List.find?_cons]
      dsimp only
      cases hcall : (compare.call info.target (released entry.name)).1 with
      | true => rfl
      | false =>
        have htarget := Compare.call_false hcall
        rw [htarget]
        exact ih
    · rw [if_neg hregular, fileNames_cons_other hregular]
      exact ih

theorem findOver_refused (hne : info.target ≠ []) (hillegal : illegalTarget info.target) :
    findOver released filesPath iteration info =
      .returns { info with error := "Illegal request-target".toList } := by
  obtain ⟨back, hback⟩ := Option.isSome_iff_exists.mp (List.getLast?_isSome.mpr hne)
  rw [findOver, hback]
  exact if_pos ((illegalTarget_iff_back hback).mp hillegal)

/-- The lookup of a legal target takes the first name that fits, as the names are read. -/
theorem findOver_eq (hne : info.target ≠ []) (hlegal : ¬illegalTarget info.target) :
    findOver released filesPath iteration info =
      match (fileNames iteration.entries).find? fun name =>
        compareFile info.target (released name) with
      | some name => .returns { info with
          target := if IsStem info.target then released name else info.target
          result := joinPath filesPath (released name) }
      | none =>
        let target := if IsStem info.target then info.target.dropLast else info.target
        if iteration.complete then
          .returns { info with target := target, error := notFoundError target }
        else .throws := by
  obtain ⟨back, hback⟩ := Option.isSome_iff_exists.mp (List.getLast?_isSome.mpr hne)
  unfold findOver
  have hillegal := mt (illegalTarget_iff_back hback).mpr hlegal
  have hstem := isStem_iff_back hback
  rw [hback]
  dsimp only
  rw [if_neg hillegal]
  by_cases h : IsStem info.target
  · have hcompare : (fun name =>
        (Compare.startsWith.call info.target.dropLast (released name)).1) =
        fun name => compareFile info.target (released name) :=
      funext fun name => Compare.startsWith_call h (released name)
    rw [if_pos (hstem.mp h), lookOver_eq]
    dsimp only
    rw [hcompare]
    cases hfind : (fileNames iteration.entries).find? fun name =>
        compareFile info.target (released name) with
    | none => simp only [h, if_true]
    | some name =>
      have hprefix : info.target.dropLast.isPrefixOf (released name) := by
        simpa [compareFile, h] using List.find?_some hfind
      simp only [Compare.call, h, hprefix, if_true]
  · have hcompare : (fun name =>
        ((Compare.equals info.target).call info.target (released name)).1) =
        fun name => compareFile info.target (released name) :=
      funext fun name => Compare.equals_call h (released name)
    rw [if_neg (mt hstem.mpr h), lookOver_eq, hcompare]
    simp only [Compare.call, h, if_false]

private theorem findThrough_refused (hne : info.target ≠ []) (hillegal : illegalTarget info.target) :
    findThrough released filesPath entries info =
      some { info with error := "Illegal request-target".toList } := by
  rw [findThrough, findOver_refused hne hillegal]
  rfl

theorem findThrough_eq (hne : info.target ≠ []) (hlegal : ¬illegalTarget info.target) :
    findThrough released filesPath entries info = some
      (match (fileNames entries).find? fun name => compareFile info.target (released name) with
      | some name => { info with
          target := if IsStem info.target then released name else info.target
          result := joinPath filesPath (released name) }
      | none =>
        let target := if IsStem info.target then info.target.dropLast else info.target
        { info with target := target, error := notFoundError target }) := by
  rw [findThrough, findOver_eq hne hlegal]
  dsimp only
  cases (fileNames entries).find? fun name => compareFile info.target (released name) <;> rfl

theorem find?_released (hreleased : ∀ name ∈ fileNames entries, released name = name)
    (target : Text) :
    ((fileNames entries).find? fun name => compareFile target (released name)) =
      (fileNames entries).find? (compareFile target) :=
  List.find?_congr fun name hname => by rw [hreleased name hname]

theorem findThrough_result (hne : info.target ≠ []) (hlegal : ¬illegalTarget info.target)
    (hreleased : ∀ name ∈ fileNames entries, released name = name) :
    ∃ out, findThrough released filesPath entries info = some out ∧ out.result =
      ((fileNames entries).find? (compareFile info.target)).elim info.result
        (joinPath filesPath) := by
  rw [findThrough_eq hne hlegal, find?_released hreleased]
  refine ⟨_, rfl, ?_⟩
  cases hfound : (fileNames entries).find? (compareFile info.target) with
  | none => rfl
  | some name =>
    dsimp only
    rw [hreleased name (List.mem_of_find?_eq_some hfound)]
    rfl

private theorem findThrough_finds (hne : info.target ≠ []) (hresult : info.result = [])
    (hreleased : ∀ name ∈ fileNames entries, released name = name) :
    ∃ out, findThrough released filesPath entries info = some out ∧
      Finds filesPath entries info out := by
  by_cases hillegal : illegalTarget info.target
  · exact ⟨_, findThrough_refused hne hillegal, fun _ => ⟨rfl, by simp⟩,
      fun hlegal => absurd hillegal hlegal, fun hlegal => absurd hillegal hlegal,
      fun hne => absurd hresult hne⟩
  · rw [findThrough_eq hne hillegal, find?_released hreleased]
    cases hfound : (fileNames entries).find? (compareFile info.target) with
    | none =>
      refine ⟨_, rfl, fun h => absurd h hillegal, fun _ f hf => ?_, fun _ _ => ⟨hresult, _, rfl⟩,
        fun hne => absurd hresult hne⟩
      rw [hfound] at hf
      cases hf
    | some name =>
      have hname := List.mem_of_find?_eq_some hfound
      refine ⟨_, rfl, fun h => absurd h hillegal, fun _ f hf => ?_, fun _ hnone => ?_, fun _ => ?_⟩
      · obtain rfl : name = f := by simpa [hfound] using hf
        simp only [hreleased name hname]
      · rw [hfound] at hnone
        cases hnone
      · exact ⟨name, hname, by simp only [hreleased name hname]⟩

end Loop

/-- The lookup of every target in every folder finds what it is to find exactly if the memory of a
destroyed path still reads as the name of the file, for every name. -/
theorem directory_lookup_finds_iff (released : Text → Text) :
    (∀ (filesPath : Text) (folder : Folder) (info : ReqInfo), info.target ≠ [] →
      info.result = [] → info.error = [] →
        ∃ out, findThrough released filesPath folder.entries info = some out ∧
          Finds filesPath folder.entries info out) ↔
      ∀ name, FileName name → released name = name := by
  constructor
  · intro hfinds name hname
    obtain ⟨c, rest, rfl⟩ := List.exists_cons_of_ne_nil hname.1
    -- a folder with this file alone, and its first letter with a `*` as the target
    let folder : Folder := ⟨[⟨c :: rest, true⟩], by simpa using hname⟩
    have hstem : IsStem [c, '*'] := ⟨Nat.one_lt_two, rfl⟩
    have hlegal : ¬illegalTarget [c, '*'] := by
      rintro (hslash | hdots)
      · simp at hslash
      · have heq := hdots.eq_of_length rfl
        simp at heq
    obtain ⟨out, hout, hfinds⟩ := hfinds [] folder (requestFor [c, '*']) (by simp [requestFor]) rfl rfl
    have hfirst : (fileNames folder.entries).find? (compareFile [c, '*']) = some (c :: rest) := by
      simp [folder, fileNames, compareFile, hstem]
    have hspec := hfinds.found hlegal _ hfirst
    rw [findThrough_eq (by simp [requestFor]) hlegal, Option.some.injEq] at hout
    by_cases hread : compareFile [c, '*'] (released (c :: rest))
    · have hread' : (fileNames folder.entries).find? (fun name =>
          compareFile [c, '*'] (released name)) = some (c :: rest) := by
        simp [folder, fileNames, hread]
      have htarget := congrArg ReqInfo.target hspec
      rw [← hout] at htarget
      simpa [requestFor, hread', hstem] using htarget
    · have hread' : (fileNames folder.entries).find? (fun name =>
          compareFile [c, '*'] (released name)) = none := by
        simp [folder, fileNames, hread]
      have hresult := congrArg ReqInfo.result hspec
      rw [← hout] at hresult
      have hnil : joinPath [] (c :: rest) = [] := by
        simpa [requestFor, ReqInfo.blank, hread'] using hresult.symm
      exact absurd hnil (joinPath_ne_nil hname.1)
  · intro hreleased filesPath folder info hne hresult _
    have hnames : ∀ name ∈ fileNames folder.entries, released name = name :=
      fun name hmem => hreleased name (fileName_of_mem hmem)
    exact findThrough_finds hne hresult hnames

/-- An allocator that writes its own data over the first sixteen bytes of a released block; names
of up to fifteen bytes are kept inside the path itself. -/
def overwritten (name : Text) : Text :=
  if name.length ≤ 15 then name else List.replicate 16 '\x00' ++ name.drop 16

def longNameFolder : Folder where
  entries := [⟨"a_song_with_a_long_name.mp3".toList, true⟩]
  names := by
    simp only [List.mem_singleton, forall_eq]
    exact ⟨by decide +kernel, by decide +kernel⟩

theorem long_name_not_found :
    ¬∀ (released : Text → Text) (filesPath : Text) (folder : Folder) (info : ReqInfo),
      info.target ≠ [] → info.result = [] → info.error = [] →
        ∃ out, findThrough released filesPath folder.entries info = some out ∧
          Finds filesPath folder.entries info out := by
  intro hclaim
  obtain ⟨out, hout, hfinds⟩ := hclaim overwritten ['d'] longNameFolder
    (requestFor "a_song_with_a_long_name.mp3".toList) (by decide +kernel) rfl rfl
  have hmissed : (findThrough overwritten ['d'] longNameFolder.entries
      (requestFor "a_song_with_a_long_name.mp3".toList)).map ReqInfo.result = some [] := by
    decide +kernel
  have hlegal : ¬illegalTarget (requestFor "a_song_with_a_long_name.mp3".toList).target := by
    decide +kernel
  have hfirst : "a_song_with_a_long_name.mp3".toList ∈ (fileNames longNameFolder.entries).find?
      (compareFile (requestFor "a_song_with_a_long_name.mp3".toList).target) := by
    decide +kernel
  rw [hout, Option.map_some, Option.some.injEq, hfinds.found hlegal _ hfirst] at hmissed
  dsimp only at hmissed
  have hne : "a_song_with_a_long_name.mp3".toList ≠ [] := by decide +kernel
  exact joinPath_ne_nil hne hmissed

end ServerDirHandler

end PetProject.Handler
