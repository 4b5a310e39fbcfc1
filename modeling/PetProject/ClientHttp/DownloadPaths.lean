import PetProject.ClientHttp.Downloads
import PetProject.Framework.PathOpen

/-!
# Where downloads are written

`Client_HTTP::set_params_file_body_parser` joins the name that the server has sent to the download
directory and opens the file. It looks neither whether the name has been found nor what is in it.
-/

namespace PetProject.ClientHttp

open Framework ServerHttp

/-- An error code of the system. -/
structure SystemError where
  noSuchFile : Bool
  message : Text

/-- What a session works with: its download directory, the tree, what `create_directories` makes of
it if that does not fail, the files that may be opened, the error of an opening that fails, and the
name that the user types. -/
structure DownloadSession where
  pathToDwnldDir : Text
  nul_notMem_dir : '\x00' ∉ pathToDwnldDir
  found : WorkingTree
  createDirectories : Except Text WorkingTree
  created : ∀ w, createDirectories = .ok w → (w.directoryAt pathToDwnldDir).isSome
  mayOpen : Place → Bool
  openError : Text → SystemError
  typed : Text

/-- The tree in which a file is opened. -/
def DownloadSession.tree (s : DownloadSession) : Except Text WorkingTree :=
  if s.found.pathExists s.pathToDwnldDir then .ok s.found else s.createDirectories

/-- `std::numeric_limits<std::uint64_t>::max()`. -/
def uint64Max : Nat := 0xffffffffffffffff

/-- What `set_params_file_body_parser` returns, prints, opens, and sets as the limit of the body. -/
structure ParserParams where
  set : Bool
  messages : List Text
  opened : Option Place
  bodyLimit : Option Nat

/-- `set_params_file_body_parser` once the name is there, after what has been printed for it. -/
def openDownload (s : DownloadSession) (prompt : List Text) (filename : Text)
    (contentLength : Option Nat) : ParserParams :=
  let pathToFile := cText (joinPath s.pathToDwnldDir filename)
  let messages :=
    if s.found.pathExists s.pathToDwnldDir then prompt
    else prompt ++ ["Download directory doesn't exist, it will be created now\n".toList]
  match s.tree with
  | .error message =>
    ⟨false, messages ++ ["Failed to create directory for download: ".toList ++ message ++ ['\n']],
      none, none⟩
  | .ok w =>
    match w.openToWrite s.mayOpen pathToFile with
    | none =>
      let ec := s.openError pathToFile
      if ec.noSuchFile then
        ⟨false, messages ++ ["Directory  for download doesn't exist".toList ++ ec.message ++ ['\n']],
          none, none⟩
      else ⟨true, messages, none, some (contentLength.getD uint64Max)⟩
    | some place => ⟨true, messages, some place, some (contentLength.getD uint64Max)⟩

/-- `set_params_file_body_parser`; `none` when the name is cut out at positions outside of the
field. -/
def setParamsFileBodyParser (s : DownloadSession) (cdField : Text) (contentLength : Option Nat) :
    Option ParserParams :=
  if cdField = [] then
    some (openDownload s ["Enter name for file to save: ".toList] s.typed contentLength)
  else (extractFilename cdField).map fun filename => openDownload s [] filename contentLength

/-- The responses that `do_session` prints. -/
def PrintsBody (cdField contentType : Text) : Prop :=
  cdField = [] ∧ (contentType = "text/html".toList ∨ contentType = "text/plain".toList)

instance (cdField contentType : Text) : Decidable (PrintsBody cdField contentType) :=
  inferInstanceAs (Decidable (_ ∧ _))

/-- The file that `do_session` opens for a response. -/
def openedForResponse (s : DownloadSession) (cdField contentType : Text)
    (contentLength : Option Nat) : Option Place :=
  if PrintsBody cdField contentType then none
  else (setParamsFileBodyParser s cdField contentLength).bind ParserParams.opened

/-- The name is cut out within the field, and every file that is opened is a child of the download
directory. -/
structure StaysInside (cdField : Text) : Prop where
  positions : ∃ stop, filenameEnd cdField = some stop ∧ filenameBegin cdField ≤ stop ∧
    stop ≤ cdField.length
  opened : ∀ (s : DownloadSession) (contentType : Text) (contentLength : Option Nat) (place : Place),
    openedForResponse s cdField contentType contentLength = some place →
      ∃ w d name, s.tree = .ok w ∧ w.directoryAt s.pathToDwnldDir = some d ∧ place = name :: d

/-- The name lies between the character behind the first equals sign, or the first character if
there is none, and the next double quote. -/
def Encloses (cdField name : Text) : Prop :=
  '"' ∉ name ∧ ∃ rest,
    (∃ head c, '=' ∉ head ∧ cdField = head ++ '=' :: c :: (name ++ '"' :: rest)) ∨
    ('=' ∉ cdField ∧ ∃ c, cdField = c :: (name ++ '"' :: rest))

/-- No component of the name, up to its first NUL, leads out of a directory to a file. -/
def HarmlessName (name : Text) : Prop :=
  Harmless ((cText name).head? = some '/') (components (cText name))

theorem extractFilename_eq_some_iff_encloses {cdField name : Text} :
    extractFilename cdField = some name ↔ Encloses cdField name := by
  rw [extractFilename_eq_some_iff, Encloses]
  refine and_congr_right fun _ => exists_congr fun rest => ?_
  by_cases hequals : '=' ∈ cdField
  · obtain ⟨head, tail, rfl, hhead⟩ := List.eq_append_cons_of_mem hequals
    rw [or_iff_left fun h => h.1 hequals]
    constructor
    · intro hdrop
      cases tail with
      | nil =>
        rw [filenameBegin, findFrom_of_drop List.drop_zero hhead] at hdrop
        simp [advance] at hdrop
      | cons c tail =>
        rw [drop_filenameBegin hhead] at hdrop
        exact ⟨head, c, hhead, by rw [hdrop]⟩
    · rintro ⟨head', c, hhead', heq⟩
      rw [heq, drop_filenameBegin hhead']
  · have hbegin : filenameBegin cdField = 1 := by
      rw [filenameBegin, findFrom_eq_none_iff.mpr (by rwa [List.drop_zero])]
      rfl
    rw [hbegin, or_iff_right]
    · cases cdField with
      | nil => simp
      | cons c cdField => simp [hequals]
    · rintro ⟨head, c, -, rfl⟩
      exact hequals (by simp)

theorem Encloses.ne_nil {cdField name : Text} (h : Encloses cdField name) : cdField ≠ [] := by
  rintro rfl
  obtain ⟨-, rest, ⟨head, c, -, h⟩ | ⟨-, c, h⟩⟩ := h <;> simp at h

theorem openDownload_opened {s : DownloadSession} (prompt : List Text) (filename : Text)
    (contentLength : Option Nat) {place : Place} :
    (openDownload s prompt filename contentLength).opened = some place ↔
      ∃ w, s.tree = .ok w ∧
        w.openToWrite s.mayOpen (joinPath s.pathToDwnldDir (cText filename)) = some place := by
  rw [openDownload, cText_joinPath s.nul_notMem_dir]
  cases htree : s.tree with
  | error message => simp
  | ok w =>
    dsimp only
    cases hopen : w.openToWrite s.mayOpen (joinPath s.pathToDwnldDir (cText filename)) with
    | none =>
      dsimp only
      split <;> simp [hopen]
    | some found => simp [hopen]

theorem openedForResponse_eq_some_iff {s : DownloadSession} {cdField name : Text}
    (hname : Encloses cdField name) (contentType : Text) (contentLength : Option Nat)
    {place : Place} :
    openedForResponse s cdField contentType contentLength = some place ↔
      ∃ w, s.tree = .ok w ∧
        w.openToWrite s.mayOpen (joinPath s.pathToDwnldDir (cText name)) = some place := by
  have hprints : ¬PrintsBody cdField contentType := fun h => hname.ne_nil h.1
  rw [openedForResponse, if_neg hprints, setParamsFileBodyParser, if_neg hname.ne_nil,
    extractFilename_eq_some_iff_encloses.mpr hname, Option.map_some, Option.bind_some]
  exact openDownload_opened [] name contentLength

theorem DownloadSession.dir_ne_nil {s : DownloadSession} {w : WorkingTree} (h : s.tree = .ok w) :
    s.pathToDwnldDir ≠ [] := by
  intro hdir
  have hmissing : s.found.pathExists s.pathToDwnldDir = false := by
    rw [hdir]
    rfl
  rw [DownloadSession.tree, hmissing, if_neg Bool.false_ne_true] at h
  have hcreated := s.created w h
  rw [hdir, WorkingTree.directoryAt, if_pos rfl] at hcreated
  cases hcreated

/-- In a harmless name nothing leads out of the download directory. -/
theorem opened_of_harmless {s : DownloadSession} {w : WorkingTree} (hw : s.tree = .ok w)
    {name : Text} (h : HarmlessName name) {place : Place}
    (hopen : w.openToWrite s.mayOpen (joinPath s.pathToDwnldDir (cText name)) = some place) :
    ∃ d name, w.directoryAt s.pathToDwnldDir = some d ∧ place = name :: d := by
  by_cases habsolute : (cText name).head? = some '/'
  · rw [WorkingTree.openToWrite_joinPath_of_absolute _ _ habsolute] at hopen
    exact absurd hopen (DirectoryTree.openFrom_root_of_harmless habsolute h place)
  · rw [WorkingTree.openToWrite_joinPath _ (s.dir_ne_nil hw) habsolute] at hopen
    obtain ⟨d, hd, hopen⟩ := Option.bind_eq_some_iff.mp hopen
    exact ⟨d, _, hd, DirectoryTree.openFrom_of_harmless habsolute h
      (WorkingTree.isDirectory_of_directoryAt hd) hopen⟩

private theorem staysInside_of_harmless {cdField name : Text} (hname : Encloses cdField name)
    (h : HarmlessName name) : StaysInside cdField := by
  refine ⟨?_, fun s contentType contentLength place hplace => ?_⟩
  · have hextract := extractFilename_eq_some_iff_encloses.mpr hname
    obtain ⟨stop, hstop, -⟩ := Option.map_eq_some_iff.mp hextract
    obtain ⟨hbegin, hend⟩ := findFrom_bounds hstop
    exact ⟨stop, hstop, hbegin, hend.le⟩
  · obtain ⟨w, hw, hopen⟩ := (openedForResponse_eq_some_iff hname _ _).mp hplace
    obtain ⟨d, child, hd, hplace⟩ := opened_of_harmless hw h hopen
    exact ⟨w, d, child, hw, hd, hplace⟩

theorem harmlessName_of_no_slash {name : Text} (h : '/' ∉ name) : HarmlessName name := by
  have hslash : '/' ∉ cText name := fun hmem => h ((List.takeWhile_prefix _).subset hmem)
  have hsingle : components (cText name) = [cText name] := List.splitOn_eq_singleton hslash
  refine Or.inr (Or.inl ⟨fun habsolute => hslash (List.mem_of_head? habsolute), ?_⟩)
  rw [hsingle]
  rfl

/-- What the server of this program sends for a file of its own stays inside. -/
theorem served_name_stays_inside (server : Server) (req : Request) {name : Text} (size : Nat)
    (body : Text) (hslash : '/' ∉ name) (hquote : '"' ∉ name) :
    ∃ cdField, (server.fileRes req name size body).contentDisposition = some cdField ∧
      StaysInside cdField := by
  refine ⟨_, contentDisposition_fileRes server req name size body, ?_⟩
  refine staysInside_of_harmless ⟨hquote, [], Or.inl ⟨_, _, equals_notMem_head, rfl⟩⟩ ?_
  exact harmlessName_of_no_slash hslash

/-- A session in a directory of the given tree, with permission to open everything. -/
def sessionIn (t : DirectoryTree) (d : Place) (hd : t.isDirectory d) : DownloadSession where
  pathToDwnldDir := ['.']
  nul_notMem_dir := by decide
  found := ⟨t, d, hd⟩
  createDirectories := .error []
  created w hw := by cases hw
  mayOpen _ := true
  openError _ := ⟨true, []⟩
  typed := []

private theorem exists_session_of_not_harmless {name : Text} (h : ¬HarmlessName name) :
    ∃ (s : DownloadSession) (w : WorkingTree) (d place : Place), s.tree = .ok w ∧
      w.directoryAt s.pathToDwnldDir = some d ∧
      w.openToWrite s.mayOpen (joinPath s.pathToDwnldDir (cText name)) = some place ∧
      ∀ name, place ≠ name :: d := by
  obtain ⟨t, d, place, hd, hopen, houtside⟩ := exists_escape (components_ne_nil (cText name))
    (fun c hc hdots => objectName_component hc hdots) h
  refine ⟨sessionIn t d hd, ⟨t, d, hd⟩, d, place, rfl, rfl, ?_, houtside⟩
  by_cases habsolute : (cText name).head? = some '/'
  · rw [if_pos habsolute] at hopen
    rw [WorkingTree.openToWrite_joinPath_of_absolute _ _ habsolute]
    exact hopen
  · rw [if_neg habsolute] at hopen
    have htree : (sessionIn t d hd).tree = .ok ⟨t, d, hd⟩ := rfl
    rw [WorkingTree.openToWrite_joinPath _ (DownloadSession.dir_ne_nil htree) habsolute]
    exact hopen

/-- The client keeps to its download directory exactly if the field encloses a harmless name. -/
theorem download_stays_inside_iff (cdField : Text) :
    StaysInside cdField ↔ ∃ name, Encloses cdField name ∧ HarmlessName name := by
  constructor
  · rintro ⟨⟨stop, hstop, -, -⟩, hopened⟩
    obtain ⟨name, hname⟩ : ∃ name, extractFilename cdField = some name :=
      ⟨_, by rw [extractFilename, hstop, Option.map_some]⟩
    rw [extractFilename_eq_some_iff_encloses] at hname
    refine ⟨name, hname, ?_⟩
    by_contra hharm
    obtain ⟨s, w, d, place, hw, hd, hopen, houtside⟩ := exists_session_of_not_harmless hharm
    obtain ⟨w', d', child, hw', hd', hplace⟩ := hopened s [] none place
      ((openedForResponse_eq_some_iff hname [] none).mpr ⟨w, hw, hopen⟩)
    obtain rfl : w = w' := Except.ok.inj (hw.symm.trans hw')
    obtain rfl : d = d' := Option.some.inj (hd.symm.trans hd')
    exact houtside child hplace
  · rintro ⟨name, hname, hharmless⟩
    exact staysInside_of_harmless hname hharmless

/-- A name that leads up is opened next to the download directory. -/
theorem dots_leave_download_directory :
    ¬∀ cdField : Text, cdField ≠ [] → StaysInside cdField := by
  intro h
  let t : DirectoryTree := .ofPlaces [[['d']]] (by decide)
  obtain ⟨w, d, name, hw, hd, hplace⟩ :=
    (h ("attachment; filename=\"../x\"".toList) (by decide)).opened
      (sessionIn t [['d']] (by decide)) [] none [['x']] (by decide +kernel)
  obtain rfl := Except.ok.inj hw
  cases hd
  cases hplace

end PetProject.ClientHttp
