import Mathlib.Data.List.AList
import Mathlib.Data.Multiset.Count
import PetProject.Framework.Machine
import PetProject.InotifyModule.Events

/-!
# The catalogue under changes of the folder

A folder, the changes that may befall its entries and the reports of the kernel on them. The
dispatch of the reports is compared with a full refresh: a departure always leaves the two in
agreement, an arrival only when it brings a regular file under a name that no regular file has. A
symbolic link counts as what it leads to, and no report tells that its target comes or goes. Each
command is executed before the next one is queued.
-/

namespace PetProject.InotifyModule

open Framework Database Handler

/-- The entries of the folder; where its symbolic links lead is not fixed by them. -/
abbrev Folder := AList fun _ : Text => EntryKind

/-- A link leads to a regular file or not; the other kinds stay. -/
def EntryKind.relink (leads : Bool) : EntryKind → EntryKind
  | .link _ => .link leads
  | kind => kind

namespace Folder

/-- The links of the folder, with new answers to where they lead. -/
def relink (links : Text → Bool) (f : Folder) : Folder where
  entries := f.entries.map (Sigma.map id fun name kind => kind.relink (links name))
  nodupKeys := f.nodupKeys.map₂ fun name kind => kind.relink (links name)

private theorem lookup_relink (links : Text → Bool) (f : Folder) (name : Text) :
    (relink links f).lookup name = (f.lookup name).map (EntryKind.relink (links name)) :=
  List.dlookup_map₂ name

private theorem mem_relink {links : Text → Bool} {f : Folder} {name : Text} :
    name ∈ relink links f ↔ name ∈ f := by
  rw [← AList.lookup_isSome, lookup_relink, Option.isSome_map, AList.lookup_isSome]

/-- Some regular file, or a link to one, has the name. -/
def HasRegular (f : Folder) (name : Text) : Prop :=
  (f.lookup name).any EntryKind.isRegularFile = true

instance (f : Folder) (name : Text) : Decidable (f.HasRegular name) :=
  inferInstanceAs (Decidable (_ = true))

private theorem hasRegular_relink {links : Text → Bool} {f : Folder} {name : Text} :
    (relink links f).HasRegular name ↔
      (f.lookup name).any (fun kind => (kind.relink (links name)).isRegularFile) = true := by
  rw [HasRegular, lookup_relink, Option.any_map]

end Folder

/-- What a renamed entry may take the place of. -/
def Replaceable (f : Folder) (name : Text) (kind : EntryKind) : Prop :=
  ∀ old ∈ f.lookup name, old = .directory ↔ kind = .directory

instance (f : Folder) (name : Text) (kind : EntryKind) : Decidable (Replaceable f name kind) :=
  inferInstanceAs (Decidable (∀ old ∈ f.lookup name, _))

/-- A change of an entry; a rename gives it another name. A change elsewhere can matter to the links
of the folder. -/
inductive Change
  | create (name : Text) (kind : EntryKind)
  | delete (name : Text)
  | moveOut (name : Text)
  | moveIn (name : Text) (kind : EntryKind)
  | rename (old new : Text)
  | elsewhere
  deriving DecidableEq, Repr

namespace Change

/-- The folder after a change and the reports on it. An entry that is replaced leaves without a
report of its own. The links that stay are looked at again with `Folder.relink`. -/
def apply : Change → Folder → Option (Folder × List Report)
  | .create name kind, f =>
    if f.lookup name = none then some (f.insert name kind, [⟨.created, kind, name⟩]) else none
  | .delete name, f =>
    (f.lookup name).map fun kind => (f.erase name, [⟨.deleted, kind, name⟩])
  | .moveOut name, f =>
    (f.lookup name).map fun kind => (f.erase name, [⟨.movedFrom, kind, name⟩])
  | .moveIn name kind, f =>
    if Replaceable f name kind then some (f.insert name kind, [⟨.movedTo, kind, name⟩]) else none
  | .rename old new, f =>
    match f.lookup old with
    | some kind =>
      if old ≠ new ∧ Replaceable f new kind then
        some ((f.erase old).insert new kind, [⟨.movedFrom, kind, old⟩, ⟨.movedTo, kind, new⟩])
      else none
    | none => none
  | .elsewhere, f => some (f, [])

def names : Change → List Text
  | .create name _ => [name]
  | .delete name => [name]
  | .moveOut name => [name]
  | .moveIn name _ => [name]
  | .rename old new => [old, new]
  | .elsewhere => []

def arrival : Change → Folder → Option (Text × EntryKind)
  | .create name kind, _ => some (name, kind)
  | .delete _, _ => none
  | .moveOut _, _ => none
  | .moveIn name kind, _ => some (name, kind)
  | .rename old new, f => (f.lookup old).map fun kind => (new, kind)
  | .elsewhere, _ => none

end Change

/-- A change, where the links of the folder lead after it, and the order in which the database visits
the rows when it executes the commands. -/
structure Happening where
  change : Change
  links : Text → Bool
  choice : Choice

/-- The folder, the thread that watches it and the database. -/
structure Watched where
  entries : Folder
  watcher : Watcher
  db : Db

namespace Watched

/-- A change, the dispatch of the reports on it, and the commands, each executed before the next. -/
def step (hash : Hash) (s : Watched) (a : Happening) : Option Watched :=
  (a.change.apply s.entries).map fun r =>
    let handled := readHandleEvent hash s.watcher (r.2.map Report.record)
    { entries := Folder.relink a.links r.1
      watcher := handled.1
      db := execCommands a.choice s.db handled.2 }

/-- The database after `refresh_file_list` and the commands of `refresh`. -/
def refreshed (hash : Hash) (choice : Choice) (s : Watched) : Db :=
  execCommands choice s.db (handle hash (runCommand choice refreshCommand s.db).isSome
    (refreshFileList s.watcher.filesFolder s.entries.entries)).1

/-- A refresh would make no difference. -/
def Agrees (hash : Hash) (s : Watched) : Prop :=
  ∀ choice, s.db.songNames = (s.refreshed hash choice).songNames

/-- An arriving entry is a regular file, under a name that no regular file has. -/
def BringsNewFile (s : Watched) (a : Happening) : Prop :=
  ∀ entry ∈ a.change.arrival s.entries,
    (entry.2.relink (a.links entry.1)).isRegularFile = true ∧ ¬s.entries.HasRegular entry.1

/-- No link that stays begins to lead to a regular file, or ceases to. -/
def KeepsLinks (s : Watched) (a : Happening) : Prop :=
  ∀ entry ∈ s.entries.entries, entry.1 ∉ a.change.names →
    (entry.2.relink (a.links entry.1)).isRegularFile = entry.2.isRegularFile

/-- The reports on a change tell all that a refresh would find. -/
def TellsAll (s : Watched) (a : Happening) : Prop := s.BringsNewFile a ∧ s.KeepsLinks a

instance (s : Watched) (a : Happening) : Decidable (s.TellsAll a) :=
  inferInstanceAs (Decidable ((∀ entry ∈ a.change.arrival s.entries, _) ∧
    ∀ entry ∈ s.entries.entries, _))

/-- All texts that enter commands are safe between quotes. -/
structure Safe (s : Watched) : Prop where
  filesFolder : SafeLiteral s.watcher.filesFolder
  names : ∀ name ∈ s.entries, SafeLiteral name

end Watched

def watchedMachine (hash : Hash) : Machine Watched Happening := ⟨Watched.step hash⟩

/-! ## A refresh -/

private theorem count_regularFiles (f : Folder) (name : Text) :
    (regularFiles f.entries : Multiset Text).count name =
      if Folder.HasRegular f name then 1 else 0 := by
  have hsub : (regularFiles f.entries).Sublist f.keys := List.filter_sublist.map Sigma.fst
  have hmem : name ∈ regularFiles f.entries ↔ Folder.HasRegular f name := by
    rw [Folder.HasRegular, Option.any_eq_true]
    simp only [AList.mem_lookup_iff, ← Option.mem_def]
    simp [regularFiles]
  have hnodup : (regularFiles f.entries : Multiset Text).Nodup :=
    Multiset.coe_nodup.mpr (f.keys_nodup.sublist hsub)
  rw [Multiset.count_eq_of_nodup hnodup]
  simp only [Multiset.mem_coe, hmem]

/-- Each regular file of the folder is in the bag once, and nothing else is. -/
def Mirrors (f : Folder) (names : Multiset Text) : Prop :=
  ∀ name, names.count name = if Folder.HasRegular f name then 1 else 0

theorem mirrors_iff {f : Folder} {names : Multiset Text} :
    Mirrors f names ↔ names = regularFiles f.entries := by
  simp only [Mirrors, Multiset.ext, count_regularFiles]

theorem mem_of_mem_regularFiles {f : Folder} {name : Text} (h : name ∈ regularFiles f.entries) :
    name ∈ f := by
  have hsub : (regularFiles f.entries).Sublist f.keys := List.filter_sublist.map Sigma.fst
  exact AList.mem_keys.mpr (hsub.subset h)

namespace Watched

variable {hash : Hash} {s t : Watched}

theorem refreshed_songNames (hsafe : s.Safe) (choice : Choice) :
    (s.refreshed hash choice).songNames = regularFiles s.entries.entries := by
  have hnames : ∀ name ∈ regularFiles s.entries.entries, SafeLiteral name :=
    fun name hname => hsafe.names name (mem_of_mem_regularFiles hname)
  have hsucceeds : (runCommand choice refreshCommand s.db).isSome = true := by
    rw [runCommand_of_statements statementsOf_refresh, Option.isSome_some]
  rw [refreshed, hsucceeds, execCommands_songNames,
    commandOps_refreshFileList hash hsafe.filesFolder hnames]
  exact BagOp.applyAll_rebuild _ _

theorem agrees_iff_mirrors (hsafe : s.Safe) :
    s.Agrees hash ↔ Mirrors s.entries s.db.songNames := by
  rw [mirrors_iff]
  constructor
  · intro h
    exact (h .plain).trans (refreshed_songNames hsafe .plain)
  · intro h choice
    exact h.trans (refreshed_songNames hsafe choice).symm

end Watched

/-! ## One change -/

namespace Change

variable {c : Change} {f f' : Folder} {reports : List Report}

private theorem apply_cases (h : c.apply f = some (f', reports)) :
    (∃ r : Report, r.bagOp = .add r.name ∧ reports = [r] ∧ f' = f.insert r.name r.kind ∧
      c.names = [r.name] ∧ c.arrival f = some (r.name, r.kind)) ∨
    (∃ r : Report, r.bagOp = .drop r.name ∧ reports = [r] ∧ f' = f.erase r.name ∧
      c.names = [r.name] ∧ c.arrival f = none) ∨
    (∃ r r' : Report, r.bagOp = .drop r.name ∧ r'.bagOp = .add r'.name ∧ r'.name ≠ r.name ∧
      reports = [r, r'] ∧ f' = (f.erase r.name).insert r'.name r'.kind ∧
      c.names = [r.name, r'.name] ∧ c.arrival f = some (r'.name, r'.kind)) ∨
    (reports = [] ∧ f' = f ∧ c.names = [] ∧ c.arrival f = none) := by
  cases c with
  | create name kind =>
    obtain ⟨-, hr⟩ := Option.ite_none_right_eq_some.mp h
    cases hr
    exact Or.inl ⟨⟨.created, kind, name⟩, rfl, rfl, rfl, rfl, rfl⟩
  | delete name =>
    obtain ⟨kind, -, hr⟩ := Option.map_eq_some_iff.mp h
    cases hr
    exact Or.inr (Or.inl ⟨⟨.deleted, kind, name⟩, rfl, rfl, rfl, rfl, rfl⟩)
  | moveOut name =>
    obtain ⟨kind, -, hr⟩ := Option.map_eq_some_iff.mp h
    cases hr
    exact Or.inr (Or.inl ⟨⟨.movedFrom, kind, name⟩, rfl, rfl, rfl, rfl, rfl⟩)
  | moveIn name kind =>
    obtain ⟨-, hr⟩ := Option.ite_none_right_eq_some.mp h
    cases hr
    exact Or.inl ⟨⟨.movedTo, kind, name⟩, rfl, rfl, rfl, rfl, rfl⟩
  | rename old new =>
    simp only [apply] at h
    split at h
    case h_1 kind hold =>
      obtain ⟨hrename, hr⟩ := Option.ite_none_right_eq_some.mp h
      cases hr
      have harrival : arrival (.rename old new) f = some (new, kind) := by simp [arrival, hold]
      exact Or.inr (Or.inr (Or.inl ⟨⟨.movedFrom, kind, old⟩, ⟨.movedTo, kind, new⟩, rfl, rfl,
        Ne.symm hrename.1, rfl, rfl, rfl, harrival⟩))
    case h_2 => cases h
  | elsewhere =>
    cases h
    exact Or.inr (Or.inr (Or.inr ⟨rfl, rfl, rfl, rfl⟩))

private theorem apply_spec (h : c.apply f = some (f', reports)) (bag : Multiset Text) (name : Text) :
    (name ∉ c.names → f'.lookup name = f.lookup name ∧
      (BagOp.applyAll (reports.map Report.bagOp) bag).count name = bag.count name) ∧
    (∀ kind, c.arrival f = some (name, kind) → f'.lookup name = some kind ∧
      (BagOp.applyAll (reports.map Report.bagOp) bag).count name = bag.count name + 1) ∧
    (name ∈ c.names → (∀ kind, c.arrival f ≠ some (name, kind)) → f'.lookup name = none ∧
      (BagOp.applyAll (reports.map Report.bagOp) bag).count name = 0) := by
  rcases apply_cases h with ⟨r, hop, rfl, rfl, hnames, harrival⟩ |
    ⟨r, hop, rfl, rfl, hnames, harrival⟩ |
    ⟨r, r', hop, hop', hne, rfl, rfl, hnames, harrival⟩ | ⟨rfl, rfl, hnames, harrival⟩
  · rw [hnames, harrival]
    by_cases hname : name = r.name
    · subst hname
      simp [hop, BagOp.applyAll, BagOp.count_apply, BagOp.tally, BagOp.adds, BagOp.removes]
    · simp [hop, BagOp.applyAll, BagOp.count_apply, BagOp.tally, BagOp.adds, BagOp.removes, hname,
        Ne.symm hname]
  · rw [hnames, harrival]
    by_cases hname : name = r.name
    · subst hname
      simp [hop, BagOp.applyAll, BagOp.count_apply, BagOp.tally, BagOp.removes]
    · simp [hop, BagOp.applyAll, BagOp.count_apply, BagOp.tally, BagOp.adds, BagOp.removes, hname,
        Ne.symm hname]
  · rw [hnames, harrival]
    by_cases hname : name = r'.name
    · subst hname
      simp [hop, hop', BagOp.applyAll, BagOp.count_apply, BagOp.tally, BagOp.adds, BagOp.removes,
        Ne.symm hne]
    · by_cases hold : name = r.name
      · subst hold
        simp [hop, hop', BagOp.applyAll, BagOp.count_apply, BagOp.tally, BagOp.adds,
          BagOp.removes, hname, hne]
      · simp [hop, hop', BagOp.applyAll, BagOp.count_apply, BagOp.tally, BagOp.adds,
          BagOp.removes, hname, hold, Ne.symm hname, Ne.symm hold]
  · rw [hnames, harrival]
    simp [BagOp.applyAll]

private theorem ite_one_zero_eq_iff {p q : Prop} [Decidable p] [Decidable q] :
    ((if p then 1 else 0 : Nat) = if q then 1 else 0) ↔ (p ↔ q) := by
  by_cases hp : p <;> by_cases hq : q <;> simp [hp, hq]

private theorem mirrors_apply_iff (h : c.apply f = some (f', reports)) (links : Text → Bool)
    {bag : Multiset Text} (hbag : Mirrors f bag) :
    Mirrors (Folder.relink links f') (BagOp.applyAll (reports.map Report.bagOp) bag) ↔
      (∀ entry ∈ c.arrival f, (entry.2.relink (links entry.1)).isRegularFile = true ∧
        ¬Folder.HasRegular f entry.1) ∧
      ∀ entry ∈ f.entries, entry.1 ∉ c.names →
        (entry.2.relink (links entry.1)).isRegularFile = entry.2.isRegularFile := by
  constructor
  · intro hafter
    refine ⟨?_, ?_⟩
    · rintro ⟨name, kind⟩ harrival
      obtain ⟨hlookup, hcount⟩ := (apply_spec h bag name).2.1 kind harrival
      have hname := hafter name
      rw [hcount, hbag name] at hname
      have hregular : Folder.HasRegular (Folder.relink links f') name ↔
          (kind.relink (links name)).isRegularFile = true := by
        rw [Folder.hasRegular_relink, hlookup, Option.any_some]
      by_cases hnew : Folder.HasRegular (Folder.relink links f') name
      · refine ⟨hregular.mp hnew, fun hold => ?_⟩
        rw [if_pos hnew, if_pos hold] at hname
        omega
      · rw [if_neg hnew] at hname
        omega
    · rintro ⟨name, kind⟩ hmem hother
      have hold : f.lookup name = some kind := AList.mem_lookup_iff.mpr hmem
      obtain ⟨hlookup, hcount⟩ := (apply_spec h bag name).1 hother
      have hname := hafter name
      rw [hcount, hbag name, ite_one_zero_eq_iff, Folder.hasRegular_relink, hlookup, hold,
        Folder.HasRegular, hold, Option.any_some, Option.any_some] at hname
      exact Bool.eq_iff_iff.mpr hname.symm
  · rintro ⟨harrives, hkeeps⟩ name
    by_cases hother : name ∈ c.names
    · by_cases harrival : ∃ kind, c.arrival f = some (name, kind)
      · obtain ⟨kind, harrival⟩ := harrival
        obtain ⟨hlookup, hcount⟩ := (apply_spec h bag name).2.1 kind harrival
        obtain ⟨hregular, hnew⟩ := harrives _ harrival
        have hafter : Folder.HasRegular (Folder.relink links f') name := by
          rw [Folder.hasRegular_relink, hlookup, Option.any_some]
          exact hregular
        rw [hcount, hbag name, if_neg hnew, if_pos hafter]
      · obtain ⟨hlookup, hcount⟩ := (apply_spec h bag name).2.2 hother (not_exists.mp harrival)
        have hafter : ¬Folder.HasRegular (Folder.relink links f') name := by
          rw [Folder.hasRegular_relink, hlookup]
          simp
        rw [hcount, if_neg hafter]
    · obtain ⟨hlookup, hcount⟩ := (apply_spec h bag name).1 hother
      rw [hcount, hbag name, ite_one_zero_eq_iff, Folder.hasRegular_relink, hlookup,
        Folder.HasRegular]
      cases hold : f.lookup name with
      | none => exact Iff.rfl
      | some kind =>
        rw [Option.any_some, Option.any_some,
          hkeeps ⟨name, kind⟩ (AList.mem_lookup_iff.mp hold) hother]

theorem name_mem_of_apply (h : c.apply f = some (f', reports)) :
    (∀ r ∈ reports, r.name ∈ c.names) ∧ ∀ name ∈ f', name ∈ f ∨ name ∈ c.names := by
  rcases apply_cases h with ⟨r, -, rfl, rfl, hnames, -⟩ | ⟨r, -, rfl, rfl, hnames, -⟩ |
    ⟨r, r', -, -, -, rfl, rfl, hnames, -⟩ | ⟨rfl, rfl, hnames, -⟩
  · simp [hnames, or_comm]
  · simp +contextual [hnames]
  · refine ⟨by simp [hnames], fun name hname => ?_⟩
    rcases (AList.mem_insert _).mp hname with rfl | hname
    · exact Or.inr (by simp [hnames])
    · exact Or.inl (AList.mem_erase.mp hname).2
  · exact ⟨by simp, fun name hname => Or.inl hname⟩

end Change

namespace Watched

variable {hash : Hash} {s t : Watched} {a : Happening}

/-- With safe names the commands of a change carry out its reports. -/
theorem step_spec (h : s.step hash a = some t) (ha : ∀ name ∈ a.change.names, SafeLiteral name)
    (hsafe : s.Safe) : ∃ f reports, a.change.apply s.entries = some (f, reports) ∧
      t.entries = Folder.relink a.links f ∧
      t.db.songNames = BagOp.applyAll (reports.map Report.bagOp) s.db.songNames ∧ t.Safe := by
  obtain ⟨⟨f, reports⟩, happly, rfl⟩ := Option.map_eq_some_iff.mp h
  obtain ⟨hreports, hmem⟩ := Change.name_mem_of_apply happly
  have hsafe' : ∀ r ∈ reports, SafeLiteral r.name := fun r hr => ha r.name (hreports r hr)
  obtain ⟨hops, hfolder⟩ := readHandleEvent_reports hash hsafe.filesFolder hsafe'
  refine ⟨f, reports, happly, rfl, ?_, ?_, ?_⟩
  · rw [execCommands_songNames, hops]
  · exact hfolder ▸ hsafe.filesFolder
  · intro name hname
    exact (hmem name (Folder.mem_relink.mp hname)).elim (hsafe.names name) (ha name)

theorem step_safe (h : s.step hash a = some t) (ha : ∀ name ∈ a.change.names, SafeLiteral name)
    (hsafe : s.Safe) : t.Safe := by
  obtain ⟨-, -, -, -, -, ht⟩ := step_spec h ha hsafe
  exact ht

theorem agrees_of_songNames (hsafe : s.Safe)
    (h : s.db.songNames = regularFiles s.entries.entries) : s.Agrees hash :=
  (agrees_iff_mirrors hsafe).mpr (mirrors_iff.mpr h)

/-- One change keeps the agreement exactly when the reports on it tell all. -/
theorem agrees_step_iff (h : s.step hash a = some t)
    (ha : ∀ name ∈ a.change.names, SafeLiteral name) (hsafe : s.Safe) (hagrees : s.Agrees hash) :
    t.Agrees hash ↔ s.TellsAll a := by
  obtain ⟨f, reports, happly, hentries, hdb, ht⟩ := step_spec h ha hsafe
  rw [agrees_iff_mirrors ht, hdb, hentries]
  exact Change.mirrors_apply_iff happly a.links ((agrees_iff_mirrors hsafe).mp hagrees)

/-- A table that equals the list of regular files stays in agreement with a refresh, after every
change, exactly when each arriving entry is a new regular file and no link that stays comes to lead,
or ceases to lead, to a regular file. -/
theorem incremental_agrees_iff (hash : Hash) {s : Watched} (hsafe : s.Safe)
    (hstart : s.db.songNames = regularFiles s.entries.entries) (changes : List Happening)
    (hnames : ∀ a ∈ changes, ∀ name ∈ a.change.names, SafeLiteral name) :
    (watchedMachine hash).Always (Agrees hash) s changes ↔
      (watchedMachine hash).Guarded TellsAll s changes :=
  Machine.always_iff_guarded (fun _ _ _ => step_safe) (fun _ _ _ => agrees_step_iff) hnames hsafe
    (agrees_of_songNames hsafe hstart)

/-- Files that are created, moved and deleted under new names, and a link that leads to one of
them. -/
def ordinaryChanges : List Happening :=
  [⟨.create ['b'] .regular, fun _ => true, .plain⟩,
    ⟨.create ['l'] (.link true), fun _ => true, .plain⟩,
    ⟨.elsewhere, fun _ => true, .plain⟩,
    ⟨.rename ['l'] ['c'], fun _ => true, .plain⟩,
    ⟨.moveOut ['a'], fun _ => true, .plain⟩,
    ⟨.moveIn ['a'] .regular, fun _ => true, .plain⟩,
    ⟨.delete ['c'], fun _ => true, .plain⟩]

/-- A folder with one file, and a table with its row. -/
def oneFile : Watched where
  entries := AList.singleton ['a'] .regular
  watcher := ⟨['f'], [], [], false⟩
  db := ⟨[⟨1, ['a'], [], ['f']⟩], ⟨1, true⟩, [], .restart⟩

theorem oneFile_safe : oneFile.Safe where
  filesFolder := by decide
  names name hname := by
    obtain rfl : name = ['a'] := by simpa [oneFile, AList.mem_keys] using hname
    decide

theorem incremental_agrees_ordinary :
    (watchedMachine fun _ => 0).Always (Agrees fun _ => 0) oneFile ordinaryChanges :=
  (incremental_agrees_iff _ oneFile_safe rfl ordinaryChanges (by decide)).mpr (by decide +kernel)

/-- A subdirectory becomes a row, which a refresh would not write. -/
theorem subdirectory_breaks_agreement :
    ¬∀ (hash : Hash) (s : Watched) (changes : List Happening),
      s.db.songNames = regularFiles s.entries.entries →
        (watchedMachine hash).Always (Agrees hash) s changes := by
  intro h
  let a : Happening := ⟨.create ['d'] .directory, fun _ => false, .plain⟩
  have halways := h (fun _ => 0) oneFile [a] rfl
  have hstep : ∃ t, oneFile.step (fun _ => 0) a = some t := Option.isSome_iff_exists.mp rfl
  obtain ⟨t, ht⟩ := hstep
  have hsafe : ∀ name ∈ a.change.names, SafeLiteral name := by decide
  obtain ⟨f, reports, happly, hentries, hdb, htsafe⟩ := step_spec ht hsafe oneFile_safe
  have hmirrors : Mirrors oneFile.entries oneFile.db.songNames := mirrors_iff.mpr rfl
  have hagrees := (agrees_iff_mirrors htsafe).mp (halways.2 t ht)
  rw [hdb, hentries, Change.mirrors_apply_iff happly a.links hmirrors] at hagrees
  exact absurd (hagrees.1 (['d'], .directory) rfl).1 (by decide)

end Watched

end PetProject.InotifyModule
