import PetProject.Exchange.Delivery
import PetProject.Handler.DirectoryLookup
import PetProject.InotifyModule.Rows

/-!
# The service of a folder

What a client sees of the watched folder: the files that a target asks for, by their names or by
their uids, decide the response, whichever changes of the folder the watching thread has passed on
and the database has executed in their order. The directory handler looks at the names alone, and
takes the first of several.
-/

namespace PetProject.Exchange

open Framework Database Handler ServerDirHandler ServerHttp InotifyModule

/-- The names of the files that a target asks for; a file that it asks for in both ways comes
twice. -/
def wanted (hash : Hash) (names : List Text) (target : Text) : List Text :=
  names.filter (compareFile target) ++ names.filter fun name => compareFile target (songUid hash name)

/-- How a lookup that finds the given files ends. -/
def outcomeOf (folder : Text) : List Text → LookupOutcome
  | [] => .notFound
  | [name] => .found [name, folder]
  | _ :: _ :: _ => .several

private theorem outcomeOf_perm {folder : Text} {names names' : List Text} (h : names.Perm names') :
    outcomeOf folder names = outcomeOf folder names' := by
  have hlength := h.length_eq
  match names, names' with
  | [], [] => rfl
  | [name], [name'] => rw [List.singleton_perm_singleton.mp h]
  | _ :: _ :: _, _ :: _ :: _ => rfl

/-- The table has a row for each name, and the columns of each row fit the folder. -/
structure Lists (hash : Hash) (folder : Text) (names : List Text) (songTable : List SongRow) :
    Prop where
  perm : (songTable.map SongRow.songName).Perm names
  nodup : names.Nodup
  fits : ∀ row ∈ songTable, Fits hash folder row.columns

section Lookup

variable {hash : Hash} {folder target : Text} {names : List Text} {songTable : List SongRow}

private theorem Lists.rows_nodup (h : Lists hash folder names songTable) : songTable.Nodup :=
  (h.perm.nodup_iff.mpr h.nodup).of_map

private theorem selected_perm (h : Lists hash folder names songTable) {rows : List SongRow}
    {p : Text → Bool} (hsubperm : rows.Subperm songTable)
    (hrows : ∀ row, row ∈ rows ↔ row ∈ songTable ∧ p row.songName = true) :
    (rows.map SongRow.songName).Perm (names.filter p) := by
  have hselected : rows.Perm (songTable.filter (p ∘ SongRow.songName)) := by
    refine (List.perm_ext_iff_of_nodup
      (nodup_of_subperm hsubperm h.rows_nodup) (h.rows_nodup.filter _)).mpr fun row => ?_
    rw [hrows, List.mem_filter]
    rfl
  have hnames := (hselected.map SongRow.songName).trans
    (List.Perm.of_eq List.filter_map.symm)
  exact hnames.trans (h.perm.filter p)

/-- The lookup of a plain target ends as the files that it asks for decide. -/
theorem Lists.lookup {d : Dialect} {answer : Text → PgResult}
    (h : Lists hash folder names songTable)
    (hdb : AnswersFrom d songTable answer (wildcard target)) (hplain : PlainTarget target)
    (hsafe : SafeLiteral (wildcard target)) :
    lookupOutcome (answer (nameCommand (wildcard target)))
        (answer (uidCommand (wildcard target))) =
      outcomeOf folder (wanted hash names target) := by
  have hsimilar : ∀ text, SimilarTo d (wildcard target) text ↔ compareFile target text = true :=
    fun text => hplain.similarTo_iff.trans (compareFile_iff_isNamedBy target text).symm
  obtain ⟨dbName, N, hname, hN, hmemN⟩ := hdb.byName hsafe
  obtain ⟨dbName', U, huid, hU, hmemU⟩ := hdb.byUid hsafe
  simp only [hsimilar] at hmemN hmemU
  have hpermN := selected_perm h hN hmemN
  have hpermU := selected_perm h (p := fun name => compareFile target (songUid hash name)) hU
    fun row => by
      rw [hmemU]
      refine and_congr_right fun hrow => ?_
      rw [(Prod.mk.inj (h.fits row hrow)).1]
      rfl
  have hfolder : ∀ row ∈ songTable, row.songUrl = folder :=
    fun row hrow => (Prod.mk.inj (h.fits row hrow)).2
  have hrows : outcomeOf folder (N.map SongRow.songName ++ U.map SongRow.songName) =
      outcomeOf folder (wanted hash names target) := outcomeOf_perm (hpermN.append hpermU)
  rw [hname, huid, ← hrows]
  match N, U with
  | [], [] => rfl
  | [row], [] =>
    have hurl := hfolder row ((hmemN row).mp List.mem_cons_self).1
    simp [selected, lookupOutcome, PgResult.handled, outcomeOf, hurl]
  | [], [row] =>
    have hurl := hfolder row ((hmemU row).mp List.mem_cons_self).1
    simp [selected, lookupOutcome, PgResult.handled, outcomeOf, hurl]
  | [_], [_] => rfl
  | _ :: _ :: _, _ => rfl
  | [], _ :: _ :: _ => rfl
  | [_], _ :: _ :: _ => rfl

/-- As long as the memory of the destroyed paths keeps the names, the database handler and the
directory handler find the same file exactly when the target asks for at most one by name and for
none by its uid, or for none by name and for several by uid. -/
theorem handlers_agree_iff {d : Dialect} {answer : Text → PgResult} {info : ReqInfo}
    (h : Lists hash folder names songTable)
    (hdb : AnswersFrom d songTable answer (wildcard info.target)) (hplain : PlainTarget info.target)
    (hsafe : SafeLiteral (wildcard info.target)) (hlegal : ¬illegalTarget info.target)
    (hresult : info.result = []) (hfolder : folder ≠ [] ∧ folder.getLast? ≠ some '/')
    (hnames : ∀ name ∈ names, FileName name) {entries : List DirEntry}
    (hentries : (fileNames entries).Perm names) (hne : info.target ≠ []) {released : Text → Text}
    (hreleased : ∀ name ∈ names, released name = name) :
    ∃ out, findThrough released folder entries info = some out ∧
      ((getFileUri answer info).2.result = out.result ↔
        ((names.filter (compareFile info.target)).length ≤ 1 ∧
            ∀ name ∈ names, compareFile info.target (songUid hash name) = false) ∨
          ((∀ name ∈ names, compareFile info.target name = false) ∧
            1 < (names.filter fun name => compareFile info.target (songUid hash name)).length)) := by
  have hout := getFileUri_leaves answer hlegal
  rw [h.lookup hdb hplain hsafe, wanted] at hout
  obtain ⟨found, hfindThrough, hfind⟩ := findThrough_result hne hlegal
    fun name hname => hreleased name (hentries.mem_iff.mp hname)
  refine ⟨found, hfindThrough, ?_⟩
  have hjoin : ∀ name ∈ names, joinPath folder name = folder ++ '/' :: name := by
    intro name hname
    rw [joinPath, if_neg (head_ne_slash (hnames name hname)), if_neg (not_or.mpr hfolder)]
  have hnobody : ∀ p : Text → Bool, names.filter p = [] ↔ ∀ name ∈ names, p name = false := by
    simp [List.filter_eq_nil_iff]
  rw [hfind, hresult, ← hnobody, ← hnobody]
  cases hfound : (fileNames entries).find? (compareFile info.target) with
  | none =>
    have hnone : names.filter (compareFile info.target) = [] := by
      refine (hnobody _).mpr fun name hname => ?_
      simpa using List.find?_eq_none.mp hfound name (hentries.mem_iff.mpr hname)
    rw [hnone, List.nil_append] at hout
    rw [hnone, Option.elim_none]
    cases hu : names.filter (fun name => compareFile info.target (songUid hash name)) with
    | nil =>
      rw [hu] at hout
      simp [hout.1, hresult]
    | cons name others =>
      rw [hu] at hout
      cases others with
      | nil => simp [hout.1]
      | cons => simp [hout.1, hresult]
  | some name =>
    have hname := hentries.mem_iff.mp (List.mem_of_find?_eq_some hfound)
    have hmem : name ∈ names.filter (compareFile info.target) :=
      List.mem_filter.mpr ⟨hname, List.find?_some hfound⟩
    rw [Option.elim_some, hjoin name hname]
    cases hn : names.filter (compareFile info.target) with
    | nil => exact absurd (hn ▸ hmem) List.not_mem_nil
    | cons other others =>
      rw [hn] at hout
      cases others with
      | nil =>
        obtain rfl : name = other := List.mem_singleton.mp (hn ▸ hmem)
        cases hu : names.filter (fun name => compareFile info.target (songUid hash name)) with
        | nil =>
          rw [hu] at hout
          simp [hout.1]
        | cons =>
          rw [hu] at hout
          simp [hout.1, hresult]
      | cons => simp [hout.1, hresult]

end Lookup

/-- A song asked for by its name. -/
theorem handlers_agree_only_song :
    ∃ out, findThrough id "/songs".toList [⟨"ab.mp3".toList, true⟩] (requestFor "ab.mp3".toList) =
        some out ∧
      ((getFileUri (findsRows "ab.mp3".toList [onlySong] [])
          (requestFor "ab.mp3".toList)).2.result = out.result ↔
        ((["ab.mp3".toList].filter (compareFile "ab.mp3".toList)).length ≤ 1 ∧
            ∀ name ∈ ["ab.mp3".toList], compareFile "ab.mp3".toList
              (songUid (fun _ => 1842) name) = false) ∨
          ((∀ name ∈ ["ab.mp3".toList], compareFile "ab.mp3".toList name = false) ∧
            1 < (["ab.mp3".toList].filter fun name => compareFile "ab.mp3".toList
              (songUid (fun _ => 1842) name)).length)) := by
  have hlists : Lists (fun _ => 1842) "/songs".toList ["ab.mp3".toList] [onlySong] :=
    ⟨.refl _, List.nodup_singleton _, by simp only [List.mem_singleton, forall_eq]; rfl⟩
  have hwildcard : wildcard "ab.mp3".toList = "ab.mp3".toList := by decide
  refine handlers_agree_iff (d := noEscapes) hlists ?_
    (by decide) (by decide) (by decide) rfl (by decide) ?_ (.refl _) (by decide) fun _ _ => rfl
  · have hdb := onlySong_answersFrom
    rwa [← hwildcard] at hdb
  · simp only [List.mem_singleton, forall_eq]
    exact ⟨by decide, by decide⟩

/-! ## The response -/

end PetProject.Exchange
