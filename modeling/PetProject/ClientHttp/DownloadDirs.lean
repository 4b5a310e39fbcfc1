import PetProject.ClientHttp.DownloadPaths
import PetProject.ClientHttp.ListParsing
import PetProject.Framework.Machine
import PetProject.Framework.Writers

/-!
# Downloads of several sessions

A session of the client writes to the download directory at its own index, or to the last one when
there is none at its index, and truncates what it opens. Nothing keeps two sessions from writing to
one file at a time.
-/

namespace PetProject.ClientHttp

open Framework

/-- `download_dirs` as it has been parsed, with all of the directories in place. -/
structure DownloadDirs where
  downloadDirs : List Text
  parsed : ∃ s, parse s [] = some downloadDirs
  nul_notMem : ∀ dir ∈ downloadDirs, '\x00' ∉ dir
  found : WorkingTree
  existing : ∀ dir ∈ downloadDirs, (found.directoryAt dir).isSome

/-- What a session goes by when it opens a file: the header of the response, what the system permits
and reports, and what the user types. -/
structure DownloadStart where
  cdField : Text
  contentType : Text
  contentLength : Option Nat
  mayOpen : Place → Bool
  openError : Text → SystemError
  typed : Text

/-- `filename`; `none` when it is cut out at positions outside of the field. -/
def DownloadStart.filename (r : DownloadStart) : Option Text :=
  if r.cdField = [] then some r.typed else extractFilename r.cdField

/-- A header arrives, some of the body is written, or the body is complete or fails. -/
inductive DownloadStep (n : Nat)
  | header (i : Fin n) (r : DownloadStart)
  | body (i : Fin n) (chunk : Text)
  | finish (i : Fin n)

/-- The name of the file leads out of no directory. -/
def DownloadStep.Harmless {n : Nat} : DownloadStep n → Prop
  | .header _ r => ∀ name, r.filename = some name → HarmlessName name
  | _ => True

private theorem segments_ne_nil (s : Text) : segments s ≠ [] := by
  obtain ⟨first, rest, hsplit⟩ := List.exists_cons_of_ne_nil (List.splitOn_ne_nil ',' s)
  rw [segments, hsplit]
  exact List.cons_ne_nil _ _

namespace DownloadDirs

variable (c : DownloadDirs)

private theorem downloadDirs_ne_nil : c.downloadDirs ≠ [] := by
  obtain ⟨s, hs⟩ := c.parsed
  rw [parse, parseFrom_segments (Nat.zero_le s.length), List.nil_append, List.drop_zero] at hs
  exact Option.some.inj hs ▸ segments_ne_nil s

/-- `n_dir`. -/
def nDir : Nat := c.downloadDirs.length - 1

/-- `i_dir`. -/
def iDir (i : Nat) : Nat := if i > c.nDir then c.nDir else i

private theorem nDir_lt : c.nDir < c.downloadDirs.length := by
  have hpos := List.length_pos_of_ne_nil c.downloadDirs_ne_nil
  rw [nDir]
  omega

private theorem iDir_lt (i : Nat) : c.iDir i < c.downloadDirs.length := by
  have hlt := c.nDir_lt
  rw [iDir]
  split <;> omega

/-- `path_to_dwnld_dir`. -/
def pathToDwnldDir (i : Nat) : Text := c.downloadDirs.get ⟨c.iDir i, c.iDir_lt i⟩

private theorem pathToDwnldDir_mem (i : Nat) : c.pathToDwnldDir i ∈ c.downloadDirs := List.get_mem _ _

/-- The session at an index when it opens a file; `create_directories` finds everything in place. -/
def session (i : Nat) (r : DownloadStart) : DownloadSession where
  pathToDwnldDir := c.pathToDwnldDir i
  nul_notMem_dir := c.nul_notMem _ (c.pathToDwnldDir_mem i)
  found := c.found
  createDirectories := .ok c.found
  created _ hw := Except.ok.inj hw ▸ c.existing _ (c.pathToDwnldDir_mem i)
  mayOpen := r.mayOpen
  openError := r.openError
  typed := r.typed

/-- The file that a session opens. -/
def openedBy (i : Nat) (r : DownloadStart) : Option Place :=
  openedForResponse (c.session i r) r.cdField r.contentType r.contentLength

/-- The directory of a session. -/
def folder (i : Nat) : Option Place := c.found.directoryAt (c.pathToDwnldDir i)

def step {n : Nat} (s : Writers (Fin n) Place) : DownloadStep n → Option (Writers (Fin n) Place)
  | .header i r =>
    match c.openedBy i r with
    | none => if s.opened i = none then some s else none
    | some place => s.step (.openFile i place)
  | .body i chunk => s.step (.write i chunk)
  | .finish i => s.step (.close i)

def machine (n : Nat) : Machine (Writers (Fin n) Place) (DownloadStep n) := ⟨c.step⟩

variable {c}

private theorem tree_session (i : Nat) (r : DownloadStart) : (c.session i r).tree = .ok c.found := by
  rw [DownloadSession.tree]
  split <;> rfl

private theorem folder_of_openedBy {i : Nat} {r : DownloadStart} {place : Place}
    (hname : ∀ name, r.filename = some name → HarmlessName name)
    (h : c.openedBy i r = some place) : c.folder i = some place.tail := by
  rw [openedBy, openedForResponse] at h
  split at h
  case isTrue => cases h
  case isFalse =>
    obtain ⟨params, hparams, hplace⟩ := Option.bind_eq_some_iff.mp h
    obtain ⟨prompt, name, hfilename, rfl⟩ : ∃ prompt name, r.filename = some name ∧
        openDownload (c.session i r) prompt name r.contentLength = params := by
      rw [setParamsFileBodyParser] at hparams
      split at hparams
      case isTrue hempty => exact ⟨_, _, if_pos hempty, Option.some.inj hparams⟩
      case isFalse hfield =>
        obtain ⟨name, hextract, heq⟩ := Option.map_eq_some_iff.mp hparams
        exact ⟨_, name, (if_neg hfield).trans hextract, heq⟩
    obtain ⟨w, hw, hwrite⟩ := (openDownload_opened prompt name r.contentLength).mp hplace
    obtain rfl : c.found = w := Except.ok.inj ((tree_session i r).symm.trans hw)
    obtain ⟨d, child, hd, rfl⟩ := opened_of_harmless hw (hname name hfilename) hwrite
    exact hd

private theorem iDir_of_lt {i : Nat} (h : i < c.downloadDirs.length) : c.iDir i = i := by
  rw [iDir, nDir, if_neg (by omega)]

private theorem folder_of_lt {i : Nat} (h : i < c.downloadDirs.length) :
    c.folder i = c.found.directoryAt c.downloadDirs[i] := by
  simp only [folder, pathToDwnldDir, iDir_of_lt h, List.get_eq_getElem]

private theorem folder_of_le {i : Nat} (h : c.downloadDirs.length ≤ i) : c.folder i = c.folder c.nDir := by
  have hlast : c.iDir i = c.iDir c.nDir := by
    rw [iDir_of_lt c.nDir_lt, iDir, if_pos (c.nDir_lt.trans_le h)]
  simp only [folder, pathToDwnldDir, hlast]

/-- What the server of this program sends with a file of the given name. -/
def servedStart (name : Text) : DownloadStart where
  cdField := "attachment; filename".toList ++ '=' :: '"' :: (name ++ ['"'])
  contentType := []
  contentLength := none
  mayOpen _ := true
  openError _ := ⟨true, []⟩
  typed := []

private theorem encloses_servedStart {name : Text} (h : '"' ∉ name) :
    Encloses (servedStart name).cdField name :=
  ⟨h, [], Or.inl ⟨_, _, equals_notMem_head, rfl⟩⟩

private theorem harmless_servedStart {n : Nat} {name : Text} (hquote : '"' ∉ name) (hslash : '/' ∉ name)
    (i : Fin n) : (DownloadStep.header i (servedStart name)).Harmless := by
  have hname := encloses_servedStart hquote
  intro cut hcut
  rw [DownloadStart.filename, if_neg hname.ne_nil,
    extractFilename_eq_some_iff_encloses.mpr hname] at hcut
  obtain rfl := Option.some.inj hcut
  exact harmlessName_of_no_slash hslash

private theorem notMem_freshName {x : Char} (hx : x ≠ 'x') (cs : List Text) : x ∉ freshName cs :=
  fun h => hx (List.eq_of_mem_replicate h)

private theorem openedBy_fresh {i : Nat} {d : Place} (h : c.folder i = some d) :
    c.openedBy i (servedStart (freshName (c.found.tree.entries d))) =
      some (freshName (c.found.tree.entries d) :: d) := by
  have hobject := objectName_freshName (c.found.tree.entries d)
  have hnew := freshName_notMem (c.found.tree.entries d)
  have hquote := notMem_freshName (x := '"') (by decide) (c.found.tree.entries d)
  have hnul := notMem_freshName (x := '\x00') (by decide) (c.found.tree.entries d)
  generalize freshName (c.found.tree.entries d) = name at hobject hnew hquote hnul
  have htree := tree_session (c := c) i (servedStart name)
  have hrelative : name.head? ≠ some '/' := fun hhead =>
    hobject.no_slash (List.mem_of_head? hhead)
  rw [openedBy, openedForResponse_eq_some_iff (encloses_servedStart hquote)]
  refine ⟨c.found, htree, ?_⟩
  rw [cText_eq_self hnul, WorkingTree.openToWrite_joinPath _ (DownloadSession.dir_ne_nil htree)
    hrelative]
  refine Option.bind_eq_some_iff.mpr ⟨d, h, ?_⟩
  rw [components, List.splitOn_eq_singleton hobject.no_slash, DirectoryTree.openFrom_eq_some_iff]
  refine ⟨d, rfl, rfl, ?_, ?_, rfl⟩
  · rintro (hnil | hdot | hdots)
    · exact hobject.nonempty hnil
    · exact hobject.not_dot hdot
    · exact hobject.not_dots hdots
  · intro hdirectory
    exact hnew (DirectoryTree.mem_entries_iff.mpr ⟨_, of_decide_eq_true hdirectory⟩)

/-! ## Runs -/

section Runs

variable {n : Nat} {s t : Writers (Fin n) Place}

/-- A file belongs to the sessions of its directory. -/
def Owns (c : DownloadDirs) {n : Nat} (i : Fin n) (place : Place) : Prop :=
  c.folder i = some place.tail

theorem apart_step {a : DownloadStep n} (hfolder : ∀ i j : Fin n, c.folder i = c.folder j → i = j)
    (h : c.step s a = some t) (ha : a.Harmless) (hs : s.Apart c.Owns) : t.Apart c.Owns := by
  have hown : ∀ (i j : Fin n) (place : Place), c.Owns i place → c.Owns j place → i = j :=
    fun i j place hi hj => hfolder i j (hi.trans hj.symm)
  cases a with
  | header i r =>
    rw [step] at h
    split at h
    case h_1 =>
      split at h
      case isTrue => exact Option.some.inj h ▸ hs
      case isFalse => cases h
    case h_2 place hopened =>
      exact Writers.apart_step hown h (folder_of_openedBy ha hopened) hs
  | body i chunk =>
    rw [step] at h
    exact Writers.apart_step hown h trivial hs
  | finish i =>
    rw [step] at h
    exact Writers.apart_step hown h trivial hs

private theorem step_header {i : Fin n} {r : DownloadStart} {place : Place}
    (h : c.openedBy i r = some place) :
    c.step s (.header i r) = s.step (.openFile i place) := by
  rw [step, h]

private theorem not_intact_of_shared {i j : Fin n} (hij : i ≠ j) (h : c.folder i = c.folder j)
    (files : Place → Option Text) :
    ∃ as : List (DownloadStep n), (∀ a ∈ as, a.Harmless) ∧
      ¬(c.machine n).Always Writers.Intact (.start (Fin n) files) as := by
  obtain ⟨d, hd⟩ : ∃ d, c.folder i = some d :=
    Option.isSome_iff_exists.mp (c.existing _ (c.pathToDwnldDir_mem i))
  have hi := openedBy_fresh hd
  have hj := openedBy_fresh (h ▸ hd)
  have hquote := notMem_freshName (x := '"') (by decide) (c.found.tree.entries d)
  have hslash := notMem_freshName (x := '/') (by decide) (c.found.tree.entries d)
  generalize freshName (c.found.tree.entries d) = name at hi hj hquote hslash
  refine ⟨[.header i (servedStart name), .body i ['x'], .header j (servedStart name)], ?_, ?_⟩
  · intro a ha
    simp only [List.mem_cons, List.not_mem_nil, or_false] at ha
    rcases ha with rfl | rfl | rfl
    · exact harmless_servedStart hquote hslash i
    · trivial
    · exact harmless_servedStart hquote hslash j
  · intro hintact
    obtain ⟨s₁, hopen, hopened₁, hothers₁⟩ :=
      Writers.exists_openFile (s := .start (Fin n) files) (i := i) (name :: d) rfl
    obtain ⟨s₂, hwrite, hopened₂, hothers₂⟩ := Writers.exists_write hopened₁ ['x']
    have hclosed : s₂.opened j = none := by rw [hothers₂ j hij.symm, hothers₁ j hij.symm]; rfl
    obtain ⟨s₃, hagain, -⟩ := Writers.exists_openFile (name :: d) hclosed
    have hrest := (hintact.2 s₁ ((step_header hi).trans hopen)).2 s₂ hwrite
    exact Writers.not_intact_of_open hij hopened₂ (List.cons_ne_nil _ _) hagain
      (hrest.2 s₃ ((step_header hj).trans hagain)).head

private theorem folder_injective_iff :
    (∀ i j : Fin n, c.folder i = c.folder j → i = j) ↔
      n ≤ c.downloadDirs.length ∧ ((c.downloadDirs.take n).map c.found.directoryAt).Nodup := by
  have hget : ∀ i (hi : i < ((c.downloadDirs.take n).map c.found.directoryAt).length),
      ((c.downloadDirs.take n).map c.found.directoryAt)[i] = c.folder i := by
    intro i hi
    rw [List.length_map, List.length_take] at hi
    rw [folder_of_lt (by omega), List.getElem_map, List.getElem_take]
  constructor
  · intro h
    constructor
    · by_contra hlt
      have heq := h ⟨c.downloadDirs.length, by omega⟩ ⟨c.nDir, c.nDir_lt.trans (by omega)⟩
        (folder_of_le le_rfl)
      exact c.nDir_lt.ne' (Fin.val_eq_of_eq heq)
    · refine List.nodup_iff_injective_getElem.mpr fun i j hij => ?_
      dsimp only at hij
      rw [hget, hget] at hij
      have hlength : ((c.downloadDirs.take n).map c.found.directoryAt).length ≤ n := by
        rw [List.length_map]
        exact List.length_take_le n _
      have heq := h ⟨i, i.isLt.trans_le hlength⟩ ⟨j, j.isLt.trans_le hlength⟩ hij
      have hval := Fin.val_eq_of_eq heq
      exact Fin.ext hval
  · rintro ⟨hle, hnodup⟩ i j hij
    have hlength : n = ((c.downloadDirs.take n).map c.found.directoryAt).length := by
      rw [List.length_map, List.length_take, Nat.min_eq_left hle]
    rw [← hget i (hlength ▸ i.isLt), ← hget j (hlength ▸ j.isLt)] at hij
    exact Fin.ext (hnodup.getElem_inj_iff.mp hij)

/-- The sessions keep each other's files intact, whatever harmless names the servers send, exactly if
every session has a download directory of its own. -/
theorem downloads_intact_iff (c : DownloadDirs) (n : Nat) (files : Place → Option Text) :
    (∀ as, (∀ a ∈ as, a.Harmless) →
      (c.machine n).Always Writers.Intact (.start (Fin n) files) as) ↔
      n ≤ c.downloadDirs.length ∧ ((c.downloadDirs.take n).map c.found.directoryAt).Nodup := by
  rw [← folder_injective_iff]
  constructor
  · intro h i j hfolder
    by_contra hij
    obtain ⟨as, has, hnot⟩ := not_intact_of_shared hij hfolder files
    exact hnot (h as has)
  · intro hfolder as has
    have hapart := Machine.always_of_labels (M := c.machine n) (P := Writers.Apart c.Owns)
      (fun s a t h ha hs => apart_step hfolder h ha hs) has (Writers.apart_start files)
    exact hapart.mono fun s hs => hs.intact

end Runs

private theorem parse_two_dirs : parse ['a', ',', ' ', 'b'] [] = some [['a'], ['b']] := by
  rw [parse, parseFrom_segments (Nat.zero_le _), List.nil_append, List.drop_zero]
  decide +kernel

/-- Two directories below the root, from which the client has been started. -/
def twoDirs : DownloadDirs where
  downloadDirs := [['a'], ['b']]
  parsed := ⟨_, parse_two_dirs⟩
  nul_notMem := by decide
  found :=
    { tree :=
        { objects := [([['a']], .directory), ([['b']], .directory)]
          nodup := by decide
          named := by decide
          parent := by decide }
      cwd := []
      isDirectory_cwd := rfl }
  existing := by decide +kernel

/-- Two sessions have a directory each. -/
theorem downloads_intact_two_dirs :
    ∀ as : List (DownloadStep 2), (∀ a ∈ as, a.Harmless) →
      (twoDirs.machine 2).Always Writers.Intact (.start (Fin 2) fun _ => none) as :=
  (downloads_intact_iff twoDirs 2 fun _ => none).mpr ⟨le_rfl, by decide +kernel⟩

end DownloadDirs

end PetProject.ClientHttp
