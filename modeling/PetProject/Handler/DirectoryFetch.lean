import PetProject.Handler.DirectoryErrors

/-!
# Fetching what is listed

The listing shows every regular file, and a target is looked up among the same files. Which names
can be fetched is decided by the targets that ask for something else; that the memory of the
destroyed paths still reads as the names is taken for granted here.
-/

namespace PetProject.Handler

open Framework Database ServerDirHandler

/-- The name asks for itself: it is not reserved, it is not refused, and where it is taken for a
stem no other file begins with the stem. -/
structure Fetchable (names : List Text) (name : Text) : Prop where
  unreserved : name ≠ "files_table".toList ∧ name ≠ "Files_table".toList
  legal : ¬['.', '.'] <:+: name
  stem : IsStem name → ∀ other ∈ names, name.dropLast <+: other → other = name

/-- Only one path is a folder. -/
def Folders.only (path : Text) (hpath : path ≠ []) (folder : Folder) : Folders where
  isDirectory p := decide (p = path)
  iteration p := if p = path then ⟨folder.entries, true⟩ else .failed
  iteration_failed p hp := if_neg (of_decide_eq_false hp)
  isDirectory_nil := decide_eq_false (Ne.symm hpath)
  names p e he := by
    split at he
    · exact folder.names e he
    · cases he

/-- The request for a name is answered with the file of the name. -/
def DirHandler.Fetches (s : DirHandler) (folders : Folders) (released : Text → Text)
    (info : ReqInfo) (name : Text) : Prop :=
  ∃ out, s.handle folders released (info.ask name) = .returns (true, out) ∧
    out.result = joinPath s.filesPath name

private theorem find?_eq_some_of_unique {α : Type} {p : α → Bool} {l : List α} {a : α}
    (ha : a ∈ l) (hp : p a) (hunique : ∀ b ∈ l, p b → b = a) : l.find? p = some a := by
  cases hfind : l.find? p with
  | none => exact absurd hp (List.find?_eq_none.mp hfind a ha)
  | some b => rw [hunique b (List.mem_of_find?_eq_some hfind) (List.find?_some hfind)]

private theorem mem_fileNames_perm {entries entries' : List DirEntry} (h : entries'.Perm entries)
    (name : Text) : name ∈ fileNames entries' ↔ name ∈ fileNames entries :=
  ((h.filter _).map _).mem_iff

private theorem not_illegalTarget {name : Text} (h : FileName name)
    (hdots : ¬['.', '.'] <:+: name) : ¬illegalTarget name :=
  fun hillegal => hillegal.elim (fun hslash => h.2 (List.mem_of_getLast? hslash)) hdots

theorem Fetchable.unique {names : List Text} {name other : Text} (h : Fetchable names name)
    (hother : other ∈ names) (hcompare : compareFile name other) : other = name := by
  unfold compareFile at hcompare
  split at hcompare
  case isTrue hstem => exact h.stem hstem other hother (by simpa using hcompare)
  case isFalse => simpa using hcompare

private theorem exists_order {entries : List DirEntry} {other : Text}
    (h : other ∈ fileNames entries) :
    ∃ entries' : List DirEntry, entries'.Perm entries ∧ ∃ rest, fileNames entries' = other :: rest := by
  obtain ⟨e, he, rfl⟩ := List.mem_map.mp h
  obtain ⟨hmem, hregular⟩ := List.mem_filter.mp he
  refine ⟨e :: entries.erase e, (List.perm_cons_erase hmem).symm, fileNames (entries.erase e), ?_⟩
  rw [fileNames, List.filter_cons_of_pos hregular, List.map_cons]
  rfl

namespace DirHandler

variable {s : DirHandler} {folders : Folders} {released : Text → Text} {info : ReqInfo}
  {name : Text}

private theorem fileName_of_listed (h : name ∈ fileNames (folders.iteration s.filesPath).entries) :
    FileName name := by
  let folder : Folder := ⟨_, folders.names s.filesPath⟩
  have hname : name ∈ fileNames folder.entries := h
  exact fileName_of_mem hname

private theorem fetches_iff (hcomplete : (folders.iteration s.filesPath).complete = true)
    (hreleased : ∀ n ∈ fileNames (folders.iteration s.filesPath).entries, released n = n)
    (hname : name ∈ fileNames (folders.iteration s.filesPath).entries) :
    s.Fetches folders released info name ↔ ¬AsksForTable name ∧ ¬illegalTarget name ∧
      (fileNames (folders.iteration s.filesPath).entries).find? (compareFile name) = some name := by
  have htarget : (info.ask name).target = name := rfl
  have hvalid := fileName_of_listed hname
  unfold Fetches handle
  rw [htarget]
  by_cases htable : AsksForTable name
  · rw [if_pos htable, if_pos hcomplete]
    refine iff_of_false ?_ fun h => h.1 htable
    rintro ⟨out, hout, -⟩
    exact Bool.false_ne_true (Prod.mk.inj (Outcome.returns.inj hout)).1
  · rw [if_neg htable]
    by_cases hillegal : illegalTarget name
    · rw [findOver_refused hvalid.1 hillegal]
      refine iff_of_false ?_ fun h => h.2.1 hillegal
      rintro ⟨out, hout, hresult⟩
      obtain rfl := (Prod.mk.inj (Outcome.returns.inj hout)).2
      exact joinPath_ne_nil hvalid.1 hresult.symm
    · rw [findOver_eq hvalid.1 hillegal, htarget, find?_released hreleased]
      simp only [htable, hillegal, not_false_eq_true, true_and]
      cases hfind : (fileNames (folders.iteration s.filesPath).entries).find? (compareFile name) with
      | none => exact absurd (compareFile_self name) (List.find?_eq_none.mp hfind name hname)
      | some found =>
        have hmem := List.mem_of_find?_eq_some hfind
        have hfound := fileName_of_listed hmem
        have hread := hreleased found hmem
        constructor
        · rintro ⟨out, hout, hresult⟩
          obtain rfl := (Prod.mk.inj (Outcome.returns.inj hout)).2
          rw [hread] at hresult
          rw [joinPath_injective (head_ne_slash hfound) (head_ne_slash hvalid) hresult]
        · intro heq
          obtain rfl := Option.some.inj heq
          exact ⟨_, rfl, by rw [hread]⟩

/-- The name is fetched in each order of iteration, and so in the one that is asked about. -/
private theorem found_in_order (hname : name ∈ fileNames (folders.iteration s.filesPath).entries)
    (hfetches : ∀ (folders' : Folders) (released : Text → Text),
      (folders'.iteration s.filesPath).complete = true →
      (folders'.iteration s.filesPath).entries.Perm (folders.iteration s.filesPath).entries →
      (∀ n ∈ fileNames (folders.iteration s.filesPath).entries, released n = n) →
        s.Fetches folders' released info name)
    {entries' : List DirEntry} (hperm : entries'.Perm (folders.iteration s.filesPath).entries) :
    ¬AsksForTable name ∧ ¬illegalTarget name ∧
      (fileNames entries').find? (compareFile name) = some name := by
  have hpath : s.filesPath ≠ [] := by
    intro hnil
    rw [hnil, folders.iteration_failed [] folders.isDirectory_nil] at hname
    cases hname
  let folder : Folder :=
    ⟨entries', fun e he => folders.names s.filesPath e (hperm.mem_iff.mp he)⟩
  have hiteration : (Folders.only s.filesPath hpath folder).iteration s.filesPath =
      ⟨entries', true⟩ := if_pos rfl
  have hmem : name ∈ fileNames
      ((Folders.only s.filesPath hpath folder).iteration s.filesPath).entries := by
    rw [hiteration]
    exact (mem_fileNames_perm hperm name).mpr hname
  have hcomplete :
      ((Folders.only s.filesPath hpath folder).iteration s.filesPath).complete = true := by
    rw [hiteration]
  have hkept : ∀ n ∈ fileNames
      ((Folders.only s.filesPath hpath folder).iteration s.filesPath).entries, id n = n :=
    fun _ _ => rfl
  have hfetched := (fetches_iff hcomplete hkept hmem).mp
    (hfetches _ id hcomplete (by rw [hiteration]; exact hperm) fun _ _ => rfl)
  rwa [hiteration] at hfetched

/-- A listed name is fetched from the unchanged folder, in every order of iteration and as long as
the memory keeps the names, exactly if it asks for itself. -/
theorem listed_file_fetched_iff (s : DirHandler) (folders : Folders) (info : ReqInfo) {name : Text}
    (hname : name ∈ fileNames (folders.iteration s.filesPath).entries) :
    (∀ (folders' : Folders) (released : Text → Text),
      (folders'.iteration s.filesPath).complete = true →
      (folders'.iteration s.filesPath).entries.Perm (folders.iteration s.filesPath).entries →
      (∀ n ∈ fileNames (folders.iteration s.filesPath).entries, released n = n) →
        s.Fetches folders' released info name) ↔
      Fetchable (fileNames (folders.iteration s.filesPath).entries) name := by
  have hvalid := fileName_of_listed hname
  constructor
  · intro hfetches
    obtain ⟨htable, hlegal, -⟩ := found_in_order hname hfetches (List.Perm.refl _)
    refine ⟨⟨?_, ?_⟩, fun hdots => hlegal (Or.inr hdots), fun hstem other hother hprefix => ?_⟩
    · exact fun heq => htable (Or.inr (Or.inr (Or.inl heq)))
    · exact fun heq => htable (Or.inr (Or.inr (Or.inr heq)))
    · obtain ⟨entries', hperm, rest, hfirst⟩ := exists_order hother
      have hcompare : compareFile name other := by
        rw [compareFile, if_pos hstem]
        simpa using hprefix
      obtain ⟨-, -, hfound⟩ := found_in_order hname hfetches hperm
      rw [hfirst, List.find?_cons_of_pos hcompare] at hfound
      exact Option.some.inj hfound
  · intro hfetchable folders' released hcomplete hperm hreleased
    have hmem := mem_fileNames_perm hperm
    refine (fetches_iff hcomplete (fun n hn => hreleased n ((hmem n).mp hn))
      ((hmem name).mpr hname)).mpr ⟨?_, not_illegalTarget hvalid hfetchable.legal, ?_⟩
    · rintro (hnil | hslash | hreserved | hreserved)
      · exact hvalid.1 hnil
      · exact hvalid.2 (hslash ▸ List.mem_singleton_self '/')
      · exact hfetchable.unreserved.1 hreserved
      · exact hfetchable.unreserved.2 hreserved
    · exact find?_eq_some_of_unique ((hmem name).mpr hname) (compareFile_self name)
        fun other hother => hfetchable.unique ((hmem other).mp hother)

private theorem path_d_ne_nil : ['d'] ≠ ([] : Text) := List.cons_ne_nil 'd' []

/-- A file whose name ends in a star, next to another one. -/
def starFolder : Folder where
  entries := [⟨['a'], true⟩, ⟨['b', '*'], true⟩]
  names := by simp [FileName]

theorem listed_file_fetched_star :
    (⟨['d'], true⟩ : DirHandler).Fetches (.only ['d'] path_d_ne_nil starFolder) id .blank
      ['b', '*'] :=
  (listed_file_fetched_iff ⟨['d'], true⟩ (.only ['d'] path_d_ne_nil starFolder) .blank
    (by decide)).mpr ⟨by decide +kernel, by decide, by decide⟩ _ id rfl (List.Perm.refl _)
      fun _ _ => rfl

/-- A file with two dots in its name. -/
def dotsFolder : Folder where
  entries := [⟨['a', '.', '.', 'b'], true⟩]
  names := by simp [FileName]

theorem listed_file_refused :
    ¬∀ (s : DirHandler) (folders : Folders) (info : ReqInfo) (name : Text),
      name ∈ fileNames (folders.iteration s.filesPath).entries →
        s.Fetches folders id info name := by
  intro hclaim
  have hlisted : ['a', '.', '.', 'b'] ∈ fileNames
      ((Folders.only ['d'] path_d_ne_nil dotsFolder).iteration ['d']).entries := by decide
  have hkept : ∀ n ∈ fileNames
      ((Folders.only ['d'] path_d_ne_nil dotsFolder).iteration ['d']).entries, id n = n :=
    fun _ _ => rfl
  have hfetched := hclaim ⟨['d'], true⟩ (.only ['d'] path_d_ne_nil dotsFolder) .blank _ hlisted
  have hillegal : illegalTarget ['a', '.', '.', 'b'] := Or.inr (by decide)
  exact ((fetches_iff (s := ⟨['d'], true⟩) rfl hkept hlisted).mp hfetched).2.1 hillegal

end DirHandler

end PetProject.Handler
