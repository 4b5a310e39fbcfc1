import PetProject.Handler.Answers

/-!
# The decision of a lookup

`get_file_URI` handles two results one after the other. What it leaves in the request vector
depends on them through one of four outcomes, which are then compared with what the rows that
were found call for.
-/

namespace PetProject.Handler

open Framework Database

/-- The code that `res_handle` returns. -/
def PgResult.handled (res : PgResult) : ResHandled :=
  match res.error, res.rows with
  | some _, _ => .dbError
  | none, [] => .notFound
  | none, [_] => .resultIsOk
  | none, _ :: _ :: _ => .severalFiles

inductive LookupOutcome
  | failed
  | several
  | notFound
  | found (row : List Text)
  deriving DecidableEq, Repr

/-- How the two codes are combined. -/
def lookupOutcome (name uid : PgResult) : LookupOutcome :=
  match name.handled, uid.handled with
  | .dbError, _ => .failed
  | .severalFiles, _ => .several
  | _, .dbError => .failed
  | _, .severalFiles => .several
  | .notFound, .notFound => .notFound
  | .resultIsOk, .notFound => .found (name.rows.headD [])
  | .notFound, .resultIsOk => .found (uid.rows.headD [])
  | .resultIsOk, .resultIsOk => .several

def notFoundError (target : Text) : Text := "File ".toList ++ target ++ " not found".toList

/-- What an outcome leaves in the request vector. -/
def LookupOutcome.Leaves (info out : ReqInfo) : LookupOutcome → Prop
  | .failed => out.result = info.result ∧ ∃ text, out.error = info.error ++ "Database ".toList ++ text
  | .several => out.result = info.result ∧ ∃ target, out.error = severalFilesError target
  | .notFound => out.result = info.result ∧ ∃ target, out.error = notFoundError target
  | .found row =>
    out.result = row.getD 1 [] ++ '/' :: row.getD 0 [] ∧ out.target = row.getD 0 [] ∧
      out.error = info.error

private theorem resHandle_code (info : ReqInfo) (res : PgResult) : (resHandle info res).2 = res.handled := by
  rcases res with ⟨dbName, _ | error, _ | ⟨row, _ | ⟨row', rows⟩⟩⟩ <;> rfl

private theorem resHandle_info (info : ReqInfo) (res : PgResult) :
    match res.handled with
    | .dbError => (resHandle info res).1.result = info.result ∧
        ∃ text, (resHandle info res).1.error = info.error ++ "Database ".toList ++ text
    | .severalFiles => (resHandle info res).1.result = info.result ∧
        ∃ target, (resHandle info res).1.error = severalFilesError target
    | _ => (resHandle info res).1 = info := by
  rcases res with ⟨dbName, _ | error, rows⟩
  · rcases rows with _ | ⟨row, _ | ⟨row', rows⟩⟩
    · rfl
    · rfl
    · exact ⟨rfl, _, rfl⟩
  · refine ⟨rfl, dbName ++ " error while searching for target ".toList ++ info.target ++
      ": ".toList ++ error, ?_⟩
    simp only [resHandle, List.append_assoc]

/-- A legal target ends in the outcome of its two results. -/
theorem getFileUri_leaves (lookup : Text → PgResult) {info : ReqInfo}
    (hlegal : ¬illegalTarget info.target) :
    (lookupOutcome (lookup (nameCommand (wildcard info.target)))
      (lookup (uidCommand (wildcard info.target)))).Leaves info (getFileUri lookup info).2 := by
  unfold getFileUri
  rw [if_neg hlegal]
  dsimp only
  generalize lookup (nameCommand (wildcard info.target)) = name
  generalize lookup (uidCommand (wildcard info.target)) = uid
  have hname := resHandle_info { info with target := wildcard info.target } name
  have huid := resHandle_info { info with target := wildcard info.target } uid
  simp only [resHandle_code]
  unfold lookupOutcome
  cases hn : name.handled with
  | dbError => simpa [hn, LookupOutcome.Leaves] using hname
  | severalFiles => simpa [hn, LookupOutcome.Leaves] using hname
  | notFound =>
    rw [hn] at hname
    dsimp only at hname
    rw [hname]
    cases hu : uid.handled with
    | dbError => simpa [hu, LookupOutcome.Leaves] using huid
    | severalFiles => simpa [hu, LookupOutcome.Leaves] using huid
    | notFound =>
      rw [hu] at huid
      simp only [huid, chooseResult, LookupOutcome.Leaves, reduceCtorEq, or_self, if_false]
      exact ⟨rfl, _, rfl⟩
    | resultIsOk =>
      rw [hu] at huid
      simp [huid, chooseResult, LookupOutcome.Leaves]
  | resultIsOk =>
    rw [hn] at hname
    dsimp only at hname
    rw [hname]
    cases hu : uid.handled with
    | dbError => simpa [hu, LookupOutcome.Leaves] using huid
    | severalFiles => simpa [hu, LookupOutcome.Leaves] using huid
    | notFound =>
      rw [hu] at huid
      simp [huid, chooseResult, LookupOutcome.Leaves]
    | resultIsOk =>
      rw [hu] at huid
      simp [huid, chooseResult, LookupOutcome.Leaves]

/-! ## The outcomes in terms of the two results -/

/-- The second result is looked at only when the first one is neither an error nor too many rows. -/
def ConsultsUid (name : PgResult) : Prop := name.error = none ∧ name.rows.length ≤ 1

instance (name : PgResult) : Decidable (ConsultsUid name) := inferInstanceAs (Decidable (_ ∧ _))

def LookupFailed (name uid : PgResult) : Prop :=
  name.error ≠ none ∨ ConsultsUid name ∧ uid.error ≠ none

def SeveralReached (name uid : PgResult) : Prop :=
  name.error = none ∧ 1 < name.rows.length ∨
    ConsultsUid name ∧ uid.error = none ∧
      (1 < uid.rows.length ∨ name.rows.length = 1 ∧ uid.rows.length = 1)

def NothingFound (name uid : PgResult) : Prop :=
  name.error = none ∧ uid.error = none ∧ name.rows = [] ∧ uid.rows = []

/-- The four outcomes exclude each other: a lookup that does not fail and finds neither nothing
nor several rows has found one. -/
theorem lookupOutcome_cases (name uid : PgResult) :
    (LookupFailed name uid ∧ ¬SeveralReached name uid ∧ ¬NothingFound name uid ∧
        lookupOutcome name uid = .failed) ∨
      (¬LookupFailed name uid ∧ SeveralReached name uid ∧ ¬NothingFound name uid ∧
        lookupOutcome name uid = .several) ∨
      (¬LookupFailed name uid ∧ ¬SeveralReached name uid ∧ NothingFound name uid ∧
        lookupOutcome name uid = .notFound) ∨
      (¬LookupFailed name uid ∧ ¬SeveralReached name uid ∧ ¬NothingFound name uid ∧
        lookupOutcome name uid = .found ((name.rows ++ uid.rows).headD [])) := by
  rcases name with ⟨dbName, _ | error, _ | ⟨a, _ | ⟨b, rows⟩⟩⟩ <;>
    rcases uid with ⟨dbName', _ | error', _ | ⟨c, _ | ⟨d, rows'⟩⟩⟩ <;>
    simp [LookupFailed, SeveralReached, NothingFound, ConsultsUid, lookupOutcome, PgResult.handled]

theorem lookupOutcome_failed_iff (name uid : PgResult) :
    lookupOutcome name uid = .failed ↔ LookupFailed name uid := by
  rcases lookupOutcome_cases name uid with ⟨h, -, -, ho⟩ | ⟨h, -, -, ho⟩ | ⟨h, -, -, ho⟩ |
    ⟨h, -, -, ho⟩ <;> simp [h, ho]

/-! ## The rows that were found -/

/-- The answer to one of the two queries: the selected rows, in whatever order they come. -/
def selected (dbName : Text) (rows : List SongRow) : PgResult :=
  ⟨dbName, none, rows.map fun row => [row.songName, row.songUrl]⟩

/-- The vector as `update_log_table` leaves it, with or without an error. -/
def ReqInfo.Logged (info : ReqInfo) : Prop :=
  info.result = [] ∧ (info.error = [] ∨ ∃ dbName resError, info.error = updateError dbName resError)

/-- The vector says what the two lists of rows call for: the URL of the only row that occurs in
them, that there is none, or that there are several. -/
structure Decides (songTable N U : List SongRow) (out : ReqInfo) : Prop where
  found : ∀ row ∈ songTable,
    (out.result = row.songUrl ++ '/' :: row.songName ∧ out.target = row.songName) ↔
      ∀ x, x ∈ N ∨ x ∈ U ↔ x = row
  notFound : (∃ target, out.error = notFoundError target) ↔ N = [] ∧ U = []
  several : (∃ target, out.error = severalFilesError target) ↔
    ∃ x y, x ≠ y ∧ (x ∈ N ∨ x ∈ U) ∧ (y ∈ N ∨ y ∈ U)

private theorem head_append {p : String} {c : Char} (hp : p.toList.head? = some c) (t : Text) :
    (p.toList ++ t).head? = some c := by
  rw [List.head?_append, hp, Option.some_or]

theorem severalFilesError_head (target : Text) : (severalFilesError target).head? = some 'S' := by
  unfold severalFilesError
  rw [List.append_assoc]
  exact head_append (by decide +kernel) _

theorem notFoundError_head (target : Text) : (notFoundError target).head? = some 'F' := by
  unfold notFoundError
  rw [List.append_assoc]
  exact head_append (by decide +kernel) _

private theorem updateError_head (dbName resError : Text) :
    (updateError dbName resError).head? = some 'D' := by
  unfold updateError
  rw [List.append_assoc, List.append_assoc]
  exact head_append (by decide +kernel) _

private theorem several_ne_notFound (s t : Text) : severalFilesError s ≠ notFoundError t := by
  intro h
  have hhead := congrArg List.head? h
  rw [severalFilesError_head, notFoundError_head] at hhead
  exact absurd hhead (by decide)

private theorem ReqInfo.Logged.error_head {info : ReqInfo} (h : info.Logged) :
    info.error.head? ≠ some 'S' ∧ info.error.head? ≠ some 'F' := by
  rcases h.2 with h | ⟨dbName, resError, h⟩
  · simp [h]
  · simp [h, updateError_head]

section Decision

variable {songTable N U : List SongRow} {info out : ReqInfo}

private theorem no_row_named (hresult : out.result = []) (row : SongRow) :
    ¬(out.result = row.songUrl ++ '/' :: row.songName ∧ out.target = row.songName) := by
  simp [hresult]

private theorem decides_of_several (hinfo : info.Logged)
    (hout : (LookupOutcome.several).Leaves info out)
    (hrows : ∃ x y, x ≠ y ∧ (x ∈ N ∨ x ∈ U) ∧ (y ∈ N ∨ y ∈ U)) : Decides songTable N U out := by
  obtain ⟨hresult, target, herror⟩ := hout
  obtain ⟨x, y, hxy, hx, hy⟩ := hrows
  refine ⟨fun row _ => ?_, ?_, ?_⟩
  · refine iff_of_false (no_row_named (hresult.trans hinfo.1) row) fun hall => ?_
    exact hxy (((hall x).mp hx).trans ((hall y).mp hy).symm)
  · refine iff_of_false ?_ ?_
    · rintro ⟨target', h⟩
      exact several_ne_notFound target target' (herror.symm.trans h)
    · rintro ⟨rfl, rfl⟩
      simp at hx
  · exact iff_of_true ⟨target, herror⟩ ⟨x, y, hxy, hx, hy⟩

private theorem decides_of_notFound (hinfo : info.Logged)
    (hout : (LookupOutcome.notFound).Leaves info out) : Decides songTable [] [] out := by
  obtain ⟨hresult, target, herror⟩ := hout
  refine ⟨fun row _ => ?_, ?_, ?_⟩
  · refine iff_of_false (no_row_named (hresult.trans hinfo.1) row) fun hall => ?_
    simpa using (hall row).mpr rfl
  · exact iff_of_true ⟨target, herror⟩ ⟨rfl, rfl⟩
  · refine iff_of_false ?_ ?_
    · rintro ⟨target', h⟩
      exact several_ne_notFound target' target (h.symm.trans herror)
    · rintro ⟨x, y, -, hx, -⟩
      simp at hx

private theorem decides_of_found (hinfo : info.Logged) (hnames : (songTable.map SongRow.songName).Nodup)
    {row : SongRow} (hrow : row ∈ songTable)
    (hout : (LookupOutcome.found [row.songName, row.songUrl]).Leaves info out)
    (hall : ∀ x, x ∈ N ∨ x ∈ U ↔ x = row) : Decides songTable N U out := by
  obtain ⟨hresult, htarget, herror⟩ := hout
  have hhead := hinfo.error_head
  rw [← herror] at hhead
  refine ⟨fun row' hrow' => ?_, ?_, ?_⟩
  · constructor
    · rintro ⟨-, htarget'⟩
      have hname : row'.songName = row.songName := htarget'.symm.trans htarget
      rwa [List.inj_on_of_nodup_map hnames hrow' hrow hname]
    · intro hall'
      obtain rfl : row = row' := (hall' row).mp ((hall row).mpr rfl)
      exact ⟨hresult, htarget⟩
  · refine iff_of_false ?_ ?_
    · rintro ⟨target, h⟩
      exact hhead.2 (by rw [h, notFoundError_head])
    · rintro ⟨rfl, rfl⟩
      simpa using (hall row).mpr rfl
  · refine iff_of_false ?_ ?_
    · rintro ⟨target, h⟩
      exact hhead.1 (by rw [h, severalFilesError_head])
    · rintro ⟨x, y, hxy, hx, hy⟩
      exact hxy (((hall x).mp hx).trans ((hall y).mp hy).symm)

end Decision

/-- The lookup decides as the rows call for, exactly when the two queries have not found the same
single row. -/
theorem lookup_decides_iff (lookup : Text → PgResult) {info : ReqInfo}
    (hlegal : ¬illegalTarget info.target) (hinfo : info.Logged) {songTable N U : List SongRow}
    (hnames : (songTable.map SongRow.songName).Nodup) (hN : N.Subperm songTable)
    (hU : U.Subperm songTable) (dbName dbName' : Text)
    (hname : lookup (nameCommand (wildcard info.target)) = selected dbName N)
    (huid : lookup (uidCommand (wildcard info.target)) = selected dbName' U) :
    Decides songTable N U (getFileUri lookup info).2 ↔ ¬∃ row, N = [row] ∧ U = [row] := by
  have hout := getFileUri_leaves lookup hlegal
  have htable : songTable.Nodup := hnames.of_map
  rw [hname, huid] at hout
  -- two rows at the head of one list are distinct
  have hdistinct : ∀ {x y : SongRow} {rows : List SongRow},
      (x :: y :: rows).Subperm songTable → x ≠ y := by
    intro x y rows hrows hxy
    obtain ⟨rows', hperm, hsublist⟩ := hrows
    have hnodup : (x :: y :: rows).Nodup := hperm.nodup_iff.mp (hsublist.nodup htable)
    simp [hxy] at hnodup
  rcases N with _ | ⟨a, _ | ⟨b, N⟩⟩
  · rcases U with _ | ⟨c, _ | ⟨d, U⟩⟩
    · exact iff_of_true (decides_of_notFound hinfo hout) (by simp)
    · exact iff_of_true (decides_of_found hinfo hnames (hU.subset (by simp)) hout (by simp))
        (by simp)
    · exact iff_of_true (decides_of_several hinfo hout ⟨c, d, hdistinct hU, by simp, by simp⟩)
        (by simp)
  · rcases U with _ | ⟨c, _ | ⟨d, U⟩⟩
    · exact iff_of_true (decides_of_found hinfo hnames (hN.subset (by simp)) hout (by simp))
        (by simp)
    · by_cases hac : a = c
      · -- the same row twice is taken for several files
        subst hac
        refine iff_of_false (fun h => ?_) (by simp)
        obtain ⟨-, target, herror⟩ := hout
        obtain ⟨x, y, hxy, hx, hy⟩ := h.several.mp ⟨target, herror⟩
        simp only [List.mem_singleton, or_self] at hx hy
        exact hxy (hx.trans hy.symm)
      · refine iff_of_true (decides_of_several hinfo hout ⟨a, c, hac, by simp, by simp⟩) ?_
        rintro ⟨row, ha, hc⟩
        simp only [List.cons.injEq, and_true] at ha hc
        exact hac (ha.trans hc.symm)
    · exact iff_of_true (decides_of_several hinfo hout ⟨c, d, hdistinct hU, by simp, by simp⟩)
        (by simp)
  · have hseveral : (lookupOutcome (selected dbName (a :: b :: N)) (selected dbName' U)) =
        .several := by
      rfl
    rw [hseveral] at hout
    exact iff_of_true (decides_of_several hinfo hout ⟨a, b, hdistinct hN, by simp, by simp⟩)
      (by simp)

/-- A file whose name and uid both start with a one. -/
def elevenWav : SongRow := ⟨1, "11.wav".toList, "1842".toList, "f".toList⟩

/-- A database in which the two queries of a target find the given rows. -/
def findsRows (target : Text) (N U : List SongRow) (command : Text) : PgResult :=
  if command = nameCommand target then selected [] N else selected [] U

def requestFor (target : Text) : ReqInfo := { ReqInfo.blank with target := target }

private theorem findsRows_uid (target : Text) (N U : List SongRow) :
    findsRows target N U (uidCommand target) = selected [] U :=
  if_neg (uidCommand_ne_nameCommand target target)

theorem lookup_decides_one_row :
    Decides [elevenWav] [elevenWav] []
      (getFileUri (findsRows "11.wav".toList [elevenWav] []) (requestFor "11.wav".toList)).2 := by
  have hwildcard : wildcard (requestFor "11.wav".toList).target = "11.wav".toList := by
    decide +kernel
  refine (lookup_decides_iff _ (by decide +kernel) ⟨rfl, Or.inl rfl⟩ (by simp)
    (List.Subperm.refl _) List.nil_subperm [] [] ?_ ?_).mpr (by simp)
  · rw [hwildcard]
    exact if_pos rfl
  · rw [hwildcard]
    exact findsRows_uid _ _ _

/-- With a wildcard both queries find the one file, and it is refused as several files. -/
theorem one_file_taken_for_several :
    ¬∀ (lookup : Text → PgResult) (info : ReqInfo) (songTable N U : List SongRow)
        (dbName dbName' : Text),
      ¬illegalTarget info.target → info.Logged → (songTable.map SongRow.songName).Nodup →
      N.Subperm songTable → U.Subperm songTable →
      lookup (nameCommand (wildcard info.target)) = selected dbName N →
      lookup (uidCommand (wildcard info.target)) = selected dbName' U →
      Decides songTable N U (getFileUri lookup info).2 := by
  intro hclaim
  have hwildcard : wildcard (requestFor "1*".toList).target = "1%".toList := by decide +kernel
  have hlegal : ¬illegalTarget (requestFor "1*".toList).target := by decide +kernel
  have hname : findsRows "1%".toList [elevenWav] [elevenWav]
      (nameCommand (wildcard (requestFor "1*".toList).target)) = selected [] [elevenWav] := by
    rw [hwildcard]
    exact if_pos rfl
  have huid : findsRows "1%".toList [elevenWav] [elevenWav]
      (uidCommand (wildcard (requestFor "1*".toList).target)) = selected [] [elevenWav] := by
    rw [hwildcard]
    exact findsRows_uid _ _ _
  have hdecides := hclaim _ _ [elevenWav] [elevenWav] [elevenWav] [] [] hlegal ⟨rfl, Or.inl rfl⟩
    (by simp) (List.Subperm.refl _) (List.Subperm.refl _) hname huid
  have hout := getFileUri_leaves (findsRows "1%".toList [elevenWav] [elevenWav]) hlegal
  rw [hname, huid] at hout
  obtain ⟨-, target, herror⟩ := hout
  obtain ⟨x, y, hxy, hx, hy⟩ := hdecides.several.mp ⟨target, herror⟩
  simp only [List.mem_singleton, or_self] at hx hy
  exact hxy (hx.trans hy.symm)

end PetProject.Handler
