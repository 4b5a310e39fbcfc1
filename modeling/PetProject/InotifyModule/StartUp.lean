import PetProject.Framework.ChangeLog
import PetProject.Framework.Machine
import PetProject.InotifyModule.Events

/-!
# Start-up

`main` arms the watch, scans the folder, and reads the queued events only then, while files come
and go. The scan is a snapshot and the queue a log that begins before it; a file that was created
in between is in both.
-/

namespace PetProject.InotifyModule

open Framework Database Handler

/-- How far `main` has come. -/
inductive Phase
  | unarmed
  | armed
  | scanning
  | refreshed
  | watching
  deriving DecidableEq, Repr

/-- The regular files of the folder, what the kernel knows of the iteration over it (the files
that have been there from its start, and those that have been there at some time), the names that
it has yielded, the queue of events and all that was ever queued, and the commands on their way. -/
structure StartUp where
  files : Finset Text
  phase : Phase
  staying : Finset Text
  seen : Finset Text
  found : List Text
  queue : List Report
  reported : List Report
  issued : List Text
  watcher : Watcher
  db : Db

inductive StartUpStep
  | create (name : Text)
  | delete (name : Text)
  | createInotify
  | openFolder
  | visit (name : Text)
  | closeFolder
  | startWatching
  | readEvents (count : Nat)
  | execute (choice : Choice)

namespace StartUp

/-- The kernel queues a report once the watch is armed. -/
def notify (s : StartUp) (r : Report) : StartUp :=
  if s.phase = .unarmed then s
  else { s with queue := s.queue ++ [r], reported := s.reported ++ [r] }

/-- A step of the folder, of `main`, of the watching thread or of the database. The iteration
yields each file that stays exactly once; of the others it may yield those that were there. -/
def step (hash : Hash) (s : StartUp) : StartUpStep → Option StartUp
  | .create name =>
    if name ∉ s.files then
      some (notify { s with files := insert name s.files, seen := insert name s.seen }
        ⟨.created, .regular, name⟩)
    else none
  | .delete name =>
    if name ∈ s.files then
      some (notify { s with files := s.files.erase name, staying := s.staying.erase name }
        ⟨.deleted, .regular, name⟩)
    else none
  | .createInotify => if s.phase = .unarmed then some { s with phase := .armed } else none
  | .openFolder =>
    if s.phase = .armed then
      some { s with phase := .scanning, staying := s.files, seen := s.files, found := [] }
    else none
  | .visit name =>
    if s.phase = .scanning ∧ name ∈ s.seen ∧ (name ∈ s.staying → name ∉ s.found) then
      some { s with found := s.found ++ [name] }
    else none
  | .closeFolder =>
    if s.phase = .scanning ∧ ∀ name ∈ s.staying, name ∈ s.found then
      -- the truncation succeeds, so that `handle` goes on to add the files
      some { s with
        phase := .refreshed,
        issued := s.issued ++ (handle hash true (refreshFileList s.watcher.filesFolder
          (s.found.map fun name => ⟨name, .regular⟩))).1 }
    else none
  | .startWatching => if s.phase = .refreshed then some { s with phase := .watching } else none
  | .readEvents count =>
    if s.phase = .watching then
      let handled := readHandleEvent hash s.watcher ((s.queue.take count).map Report.record)
      some { s with
        queue := s.queue.drop count, watcher := handled.1, issued := s.issued ++ handled.2 }
    else none
  | .execute choice =>
    match s.issued with
    | command :: issued => some { s with issued := issued, db := execCommand choice s.db command }
    | [] => none

def init (files : Finset Text) (filesFolder : Text) (db : Db) : StartUp where
  files := files
  phase := .unarmed
  staying := ∅
  seen := ∅
  found := []
  queue := []
  reported := []
  issued := []
  watcher := ⟨filesFolder, [], [], false⟩
  db := db

/-- The service watches, and nothing is on its way. -/
def Settled (s : StartUp) : Prop := s.phase = .watching ∧ s.queue = [] ∧ s.issued = []

instance (s : StartUp) : Decidable s.Settled := inferInstanceAs (Decidable (_ ∧ _))

/-- Exactly one row for every file, and no other row. -/
def Exact (s : StartUp) : Prop := s.db.songNames = s.files.val

/-- No name that the scan has yielded was created after the watch was armed, unless it was also
deleted after that. -/
def NoneFoundAndReported (s : StartUp) : Prop :=
  ∀ name ∈ s.found, .add name ∈ s.reported.map Report.bagOp →
    .drop name ∈ s.reported.map Report.bagOp

instance (s : StartUp) : Decidable s.NoneFoundAndReported := List.decidableBAll _ s.found

end StartUp

def startUpMachine (hash : Hash) : Machine StartUp StartUpStep := ⟨StartUp.step hash⟩

/-- New files have names that are safe between quotes. -/
def StartUpStep.Safe : StartUpStep → Prop
  | .create name => SafeLiteral name
  | _ => True

instance : (a : StartUpStep) → Decidable a.Safe
  | .create name => inferInstanceAs (Decidable (SafeLiteral name))
  | .delete _ => isTrue trivial
  | .createInotify => isTrue trivial
  | .openFolder => isTrue trivial
  | .visit _ => isTrue trivial
  | .closeFolder => isTrue trivial
  | .startWatching => isTrue trivial
  | .readEvents _ => isTrue trivial
  | .execute _ => isTrue trivial

namespace StartUp

/-! ## The invariant -/

/-- All texts that enter commands are safe between quotes. -/
structure Safe (s : StartUp) : Prop where
  filesFolder : SafeLiteral s.watcher.filesFolder
  files : ∀ name ∈ s.files, SafeLiteral name
  seen : ∀ name ∈ s.seen, SafeLiteral name
  found : ∀ name ∈ s.found, SafeLiteral name
  queue : ∀ r ∈ s.queue, SafeLiteral r.name

/-- No report has been about the name. -/
def Untouched (s : StartUp) (name : Text) : Prop :=
  .add name ∉ s.reported.map Report.bagOp ∧ .drop name ∉ s.reported.map Report.bagOp

/-- What the names will be when all that is on its way has been carried out. -/
def outcome (s : StartUp) : Multiset Text :=
  BagOp.applyAll (s.issued.flatMap commandOps ++ s.queue.map Report.bagOp) s.db.songNames

/-- What is on its way: nothing but the reports before the folder has been scanned, then what
replays the reports over the scan. -/
def OnTheWay (s : StartUp) : Prop :=
  match s.phase with
  | .unarmed => s.queue = s.reported ∧ s.issued = [] ∧ s.reported = []
  | .armed => s.queue = s.reported ∧ s.issued = []
  | .scanning => s.queue = s.reported ∧ s.issued = []
  | .refreshed => s.outcome = BagOp.applyAll (s.reported.map Report.bagOp) s.found
  | .watching => s.outcome = BagOp.applyAll (s.reported.map Report.bagOp) s.found

/-- What the scan knows of a name that no report has been about. -/
def Scanned (s : StartUp) (name : Text) : Prop :=
  match s.phase with
  | .unarmed => True
  | .armed => True
  | .scanning =>
    if name ∈ s.files then name ∈ s.staying ∧ (s.found : Multiset Text).count name ≤ 1
    else name ∉ s.seen ∧ name ∉ s.found
  | .refreshed => (s.found : Multiset Text).count name = if name ∈ s.files then 1 else 0
  | .watching => (s.found : Multiset Text).count name = if name ∈ s.files then 1 else 0

structure Inv (s : StartUp) : Prop where
  safe : s.Safe
  log : ∃ start, ChangeLog start (s.reported.map Report.bagOp) s.files
  onTheWay : s.OnTheWay
  scanned : ∀ name, s.Untouched name → s.Scanned name

variable {hash : Hash} {s t : StartUp}

theorem inv_init {files : Finset Text} {filesFolder : Text} (hfolder : SafeLiteral filesFolder)
    (hfiles : ∀ name ∈ files, SafeLiteral name) (db : Db) : (init files filesFolder db).Inv where
  safe :=
    { filesFolder := hfolder
      files := hfiles
      seen := by simp [init]
      found := by simp [init]
      queue := by simp [init] }
  log := ⟨files, .nil⟩
  onTheWay := ⟨rfl, rfl, rfl⟩
  scanned _ _ := trivial

private theorem onTheWay_iff (hlate : s.phase = .refreshed ∨ s.phase = .watching) :
    s.OnTheWay ↔ s.outcome = BagOp.applyAll (s.reported.map Report.bagOp) s.found := by
  rcases hlate with hphase | hphase
  · rw [OnTheWay, hphase]
  · rw [OnTheWay, hphase]

private theorem issued_eq_nil (h : s.OnTheWay) (hearly : ¬(s.phase = .refreshed ∨ s.phase = .watching)) :
    s.issued = [] := by
  cases hphase : s.phase with
  | unarmed =>
    rw [OnTheWay, hphase] at h
    exact h.2.1
  | armed =>
    rw [OnTheWay, hphase] at h
    exact h.2
  | scanning =>
    rw [OnTheWay, hphase] at h
    exact h.2
  | refreshed => exact absurd (Or.inl hphase) hearly
  | watching => exact absurd (Or.inr hphase) hearly

private theorem onTheWay_notify (h : s.OnTheWay) (files seen staying : Finset Text) (r : Report) :
    OnTheWay (notify { s with files := files, seen := seen, staying := staying } r) := by
  have hlate : s.outcome = BagOp.applyAll (s.reported.map Report.bagOp) s.found →
      BagOp.applyAll (s.issued.flatMap commandOps ++ (s.queue ++ [r]).map Report.bagOp)
        s.db.songNames = BagOp.applyAll ((s.reported ++ [r]).map Report.bagOp) s.found := by
    intro houtcome
    calc BagOp.applyAll (s.issued.flatMap commandOps ++ (s.queue ++ [r]).map Report.bagOp)
          s.db.songNames
        = BagOp.applyAll [r.bagOp] s.outcome := by
          rw [List.map_append, ← List.append_assoc, BagOp.applyAll_append]
          rfl
      _ = BagOp.applyAll [r.bagOp]
          (BagOp.applyAll (s.reported.map Report.bagOp) s.found) := by rw [houtcome]
      _ = BagOp.applyAll ((s.reported ++ [r]).map Report.bagOp) s.found := by
          rw [List.map_append, BagOp.applyAll_append]
          rfl
  cases hphase : s.phase with
  | unarmed => simpa [OnTheWay, notify, hphase] using h
  | armed => simpa [OnTheWay, notify, hphase] using h
  | scanning => simpa [OnTheWay, notify, hphase] using h
  | refreshed =>
    simp only [OnTheWay, hphase] at h
    simpa [OnTheWay, notify, hphase, outcome] using hlate h
  | watching =>
    simp only [OnTheWay, hphase] at h
    simpa [OnTheWay, notify, hphase, outcome] using hlate h

theorem Inv.report (hs : s.Inv) {files seen staying : Finset Text} {r : Report}
    (hfiles : ∀ name ∈ files, SafeLiteral name) (hseen : ∀ name ∈ seen, SafeLiteral name)
    (hname : SafeLiteral r.name) (hop : r.bagOp = .add r.name ∨ r.bagOp = .drop r.name)
    (hlog : ∀ start ops, ChangeLog start ops s.files → ChangeLog start (ops ++ [r.bagOp]) files)
    (hother : ∀ name, name ≠ r.name → (name ∈ files ↔ name ∈ s.files) ∧
      (name ∈ seen ↔ name ∈ s.seen) ∧ (name ∈ staying ↔ name ∈ s.staying)) :
    Inv (notify { s with files := files, seen := seen, staying := staying } r) := by
  have hsafe := hs.safe
  have honTheWay := onTheWay_notify hs.onTheWay files seen staying r
  by_cases hphase : s.phase = .unarmed
  · have hnone : s.reported = [] := by
      have hway := hs.onTheWay
      rw [OnTheWay, hphase] at hway
      exact hway.2.2
    simp only [notify, hphase, if_true] at honTheWay ⊢
    exact
      { safe := ⟨hsafe.filesFolder, hfiles, hseen, hsafe.found, hsafe.queue⟩
        log := ⟨files, hnone ▸ .nil⟩
        onTheWay := honTheWay
        scanned := fun _ _ => trivial }
  · simp only [notify, hphase, if_false] at honTheWay ⊢
    obtain ⟨start, hstart⟩ := hs.log
    refine
      { safe := ⟨hsafe.filesFolder, hfiles, hseen, hsafe.found, ?_⟩
        log := ⟨start, ?_⟩
        onTheWay := honTheWay
        scanned := fun name huntouched => ?_ }
    · intro r' hr'
      rcases List.mem_append.mp hr' with hr' | hr'
      · exact hsafe.queue r' hr'
      · exact (List.mem_singleton.mp hr') ▸ hname
    · rw [List.map_append]
      exact hlog start _ hstart
    · obtain ⟨hadd, hdrop⟩ := huntouched
      simp only [List.map_append, List.mem_append, not_or, List.map_cons, List.map_nil,
        List.mem_singleton] at hadd hdrop
      have hne : name ≠ r.name := by
        rintro rfl
        exact hop.elim (fun h => hadd.2 h.symm) fun h => hdrop.2 h.symm
      obtain ⟨hfile, hsaw, hstay⟩ := hother name hne
      have hold := hs.scanned name ⟨hadd.1, hdrop.1⟩
      simpa only [Scanned, hfile, hsaw, hstay] using hold

private theorem inv_create {name : Text} (h : s.step hash (.create name) = some t)
    (hname : SafeLiteral name) (hs : s.Inv) : t.Inv := by
  obtain ⟨hnew, ht⟩ := Option.ite_none_right_eq_some.mp h
  obtain rfl := Option.some.inj ht
  have hinsert : ∀ {names : Finset Text}, (∀ n ∈ names, SafeLiteral n) →
      ∀ n ∈ insert name names, SafeLiteral n := fun hnames n hn =>
    (Finset.mem_insert.mp hn).elim (fun heq => heq ▸ hname) (hnames n)
  apply hs.report (hinsert hs.safe.files) (hinsert hs.safe.seen) hname (Or.inl rfl)
  · intro start ops hlog
    exact hlog.add hnew
  · intro n hn
    simp [Finset.mem_insert, hn]

private theorem inv_delete {name : Text} (h : s.step hash (.delete name) = some t) (hs : s.Inv) :
    t.Inv := by
  obtain ⟨hold, ht⟩ := Option.ite_none_right_eq_some.mp h
  obtain rfl := Option.some.inj ht
  apply hs.report (fun n hn => hs.safe.files n (Finset.mem_of_mem_erase hn)) hs.safe.seen
    (hs.safe.files name hold) (Or.inr rfl)
  · intro start ops hlog
    exact hlog.drop hold
  · intro n hn
    simp [Finset.mem_erase, hn]

private theorem inv_createInotify (h : s.step hash .createInotify = some t) (hs : s.Inv) : t.Inv := by
  obtain ⟨hphase, ht⟩ := Option.ite_none_right_eq_some.mp h
  obtain rfl := Option.some.inj ht
  have hway := hs.onTheWay
  rw [OnTheWay, hphase] at hway
  have hsafe := hs.safe
  exact ⟨⟨hsafe.filesFolder, hsafe.files, hsafe.seen, hsafe.found, hsafe.queue⟩, hs.log,
    ⟨hway.1, hway.2.1⟩, fun _ _ => trivial⟩

private theorem inv_openFolder (h : s.step hash .openFolder = some t) (hs : s.Inv) : t.Inv := by
  obtain ⟨hphase, ht⟩ := Option.ite_none_right_eq_some.mp h
  obtain rfl := Option.some.inj ht
  have hway := hs.onTheWay
  rw [OnTheWay, hphase] at hway
  have hsafe := hs.safe
  refine ⟨⟨hsafe.filesFolder, hsafe.files, hsafe.files, by simp, hsafe.queue⟩, hs.log, hway, ?_⟩
  intro name _
  by_cases hname : name ∈ s.files
  · simp [Scanned, hname]
  · simp [Scanned, hname]

private theorem inv_visit {name : Text} (h : s.step hash (.visit name) = some t) (hs : s.Inv) :
    t.Inv := by
  obtain ⟨⟨hphase, hseen, hstaying⟩, ht⟩ := Option.ite_none_right_eq_some.mp h
  obtain rfl := Option.some.inj ht
  have hway := hs.onTheWay
  rw [OnTheWay, hphase] at hway
  have hsafe := hs.safe
  refine ⟨⟨hsafe.filesFolder, hsafe.files, hsafe.seen, ?_, hsafe.queue⟩, hs.log, ?_, ?_⟩
  · intro n hn
    rcases List.mem_append.mp hn with hn | hn
    · exact hsafe.found n hn
    · exact (List.mem_singleton.mp hn) ▸ hsafe.seen name hseen
  · rw [OnTheWay]
    simp only [hphase]
    exact hway
  · intro n huntouched
    have hold := hs.scanned n huntouched
    simp only [Scanned, hphase] at hold ⊢
    by_cases hn : n = name
    · subst hn
      by_cases hfile : n ∈ s.files
      · rw [if_pos hfile] at hold ⊢
        have hcount : (s.found : Multiset Text).count n = 0 :=
          Multiset.count_eq_zero.mpr (hstaying hold.1)
        refine ⟨hold.1, ?_⟩
        rw [← Multiset.coe_add, Multiset.count_add, hcount]
        simp
      · rw [if_neg hfile] at hold
        exact absurd hseen hold.1
    · have hsame : ((s.found ++ [name] : List Text) : Multiset Text).count n =
          (s.found : Multiset Text).count n := by
        rw [← Multiset.coe_add, Multiset.count_add]
        simp [hn]
      rw [hsame]
      simpa [hn] using hold

private theorem regularFiles_map (names : List Text) :
    regularFiles (names.map fun name => ⟨name, .regular⟩) = names := by
  induction names with
  | nil => rfl
  | cons name names ih => simpa [regularFiles, EntryKind.isRegularFile] using ih

private theorem inv_closeFolder (h : s.step hash .closeFolder = some t) (hs : s.Inv) : t.Inv := by
  obtain ⟨⟨hphase, hstaying⟩, ht⟩ := Option.ite_none_right_eq_some.mp h
  obtain rfl := Option.some.inj ht
  have hway := hs.onTheWay
  rw [OnTheWay, hphase] at hway
  obtain ⟨hqueue, hissued⟩ := hway
  have hsafe := hs.safe
  refine ⟨⟨hsafe.filesFolder, hsafe.files, hsafe.seen, hsafe.found, hsafe.queue⟩, hs.log, ?_, ?_⟩
  · have hnames : ∀ name ∈ regularFiles (s.found.map fun name => ⟨name, .regular⟩),
        SafeLiteral name := by
      rw [regularFiles_map]
      exact hsafe.found
    simp only [OnTheWay, outcome, hissued, List.nil_append]
    rw [commandOps_refreshFileList hash hsafe.filesFolder hnames, regularFiles_map,
      BagOp.applyAll_append, BagOp.applyAll_rebuild, hqueue]
  · intro name huntouched
    have hold := hs.scanned name huntouched
    simp only [Scanned, hphase] at hold ⊢
    by_cases hfile : name ∈ s.files
    · rw [if_pos hfile] at hold ⊢
      have hfound : name ∈ (s.found : Multiset Text) := hstaying name hold.1
      have hpos := Multiset.count_pos.mpr hfound
      omega
    · rw [if_neg hfile] at hold ⊢
      exact Multiset.count_eq_zero.mpr hold.2

private theorem inv_startWatching (h : s.step hash .startWatching = some t) (hs : s.Inv) : t.Inv := by
  obtain ⟨hphase, ht⟩ := Option.ite_none_right_eq_some.mp h
  obtain rfl := Option.some.inj ht
  have hway := hs.onTheWay
  rw [OnTheWay, hphase] at hway
  have hsafe := hs.safe
  refine ⟨⟨hsafe.filesFolder, hsafe.files, hsafe.seen, hsafe.found, hsafe.queue⟩, hs.log,
    hway, fun name huntouched => ?_⟩
  have hold := hs.scanned name huntouched
  simpa only [Scanned, hphase] using hold

private theorem inv_readEvents {count : Nat} (h : s.step hash (.readEvents count) = some t)
    (hs : s.Inv) : t.Inv := by
  obtain ⟨hphase, ht⟩ := Option.ite_none_right_eq_some.mp h
  obtain rfl := Option.some.inj ht
  have hsafe := hs.safe
  have hread : ∀ r ∈ s.queue.take count, SafeLiteral r.name := fun r hr =>
    hsafe.queue r (List.mem_of_mem_take hr)
  obtain ⟨hops, hfolder⟩ := readHandleEvent_reports hash hsafe.filesFolder hread
  have hway := hs.onTheWay
  rw [OnTheWay, hphase] at hway
  refine ⟨⟨?_, hsafe.files, hsafe.seen, hsafe.found, ?_⟩, hs.log, ?_, ?_⟩
  · exact hfolder ▸ hsafe.filesFolder
  · exact fun r hr => hsafe.queue r (List.mem_of_mem_drop hr)
  · simp only [OnTheWay, hphase, outcome]
    rw [List.flatMap_append, hops, List.append_assoc, ← List.map_append, List.take_append_drop]
    exact hway
  · intro name huntouched
    have hold := hs.scanned name huntouched
    simpa only [Scanned, hphase] using hold

private theorem inv_execute {choice : Choice} (h : s.step hash (.execute choice) = some t)
    (hs : s.Inv) : t.Inv := by
  simp only [step] at h
  split at h
  case h_1 command issued hissued =>
    obtain rfl := Option.some.inj h
    have hway := hs.onTheWay
    have hsafe := hs.safe
    have hlate : s.phase = .refreshed ∨ s.phase = .watching := by
      by_contra hearly
      have hnone := issued_eq_nil hway hearly
      rw [hissued] at hnone
      exact nomatch hnone
    let t : StartUp := { s with issued := issued, db := execCommand choice s.db command }
    have houtcome : t.outcome = s.outcome := by
      simp only [t, outcome, hissued, List.flatMap_cons, List.append_assoc, BagOp.applyAll_append,
        execCommand_songNames]
    have hway' : t.OnTheWay :=
      (onTheWay_iff (s := t) hlate).mpr (houtcome.trans ((onTheWay_iff hlate).mp hway))
    exact ⟨⟨hsafe.filesFolder, hsafe.files, hsafe.seen, hsafe.found, hsafe.queue⟩, hs.log, hway',
      hs.scanned⟩
  case h_2 => exact nomatch h

theorem inv_step {a : StartUpStep} (h : s.step hash a = some t) (ha : a.Safe) (hs : s.Inv) :
    t.Inv := by
  cases a with
  | create name => exact inv_create h ha hs
  | delete name => exact inv_delete h hs
  | createInotify => exact inv_createInotify h hs
  | openFolder => exact inv_openFolder h hs
  | visit name => exact inv_visit h hs
  | closeFolder => exact inv_closeFolder h hs
  | startWatching => exact inv_startWatching h hs
  | readEvents count => exact inv_readEvents h hs
  | execute choice => exact inv_execute h hs

/-! ## The hand-over -/

private theorem Inv.exact_iff (hs : s.Inv) (hsettled : s.Settled) :
    s.Exact ↔ s.NoneFoundAndReported := by
  obtain ⟨hphase, hqueue, hissued⟩ := hsettled
  obtain ⟨start, hlog⟩ := hs.log
  have hway := hs.onTheWay
  simp only [OnTheWay, hphase, outcome, hissued, hqueue, List.flatMap_nil, List.map_nil,
    List.append_nil] at hway
  have hnames : s.db.songNames = BagOp.applyAll (s.reported.map Report.bagOp) s.found := hway
  rw [Exact, hnames]
  refine hlog.replay_eq_iff fun name hadd hdrop => ?_
  have hscanned := hs.scanned name ⟨hadd, hdrop⟩
  simpa only [Scanned, hphase] using hscanned

private theorem inv_run (hash : Hash) {files : Finset Text} {filesFolder : Text}
    (hfolder : SafeLiteral filesFolder) (hfiles : ∀ name ∈ files, SafeLiteral name) (db : Db)
    {steps : List StartUpStep} (hsteps : ∀ a ∈ steps, a.Safe)
    (hrun : (startUpMachine hash).run (.init files filesFolder db) steps = some s) : s.Inv :=
  Machine.run_invariant_of_labels (P := Inv) (L := StartUpStep.Safe) (fun _ _ _ => inv_step) hsteps
    hrun (inv_init hfolder hfiles db)

/-- Wherever the changes of the folder fall, the service starts with exactly one row for every
file, exactly when no file was both found and reported as new, unless it is gone again. -/
theorem start_up_exact_iff (hash : Hash) {files : Finset Text} {filesFolder : Text}
    (hfolder : SafeLiteral filesFolder) (hfiles : ∀ name ∈ files, SafeLiteral name) (db : Db)
    {steps : List StartUpStep} (hsteps : ∀ a ∈ steps, a.Safe)
    (hrun : (startUpMachine hash).run (.init files filesFolder db) steps = some s)
    (hsettled : s.Settled) : s.Exact ↔ s.NoneFoundAndReported :=
  (inv_run hash hfolder hfiles db hsteps hrun).exact_iff hsettled

/-- A file that is there from the start, one that comes during the scan and is missed by it, and
one that is found and goes again. -/
def quietStart : List StartUpStep :=
  [.createInotify, .openFolder, .create ['b'], .create ['c'], .visit ['c'], .visit ['a'],
    .closeFolder, .startWatching, .delete ['c'], .execute .plain, .readEvents 3, .execute .plain,
    .execute .plain, .execute .plain, .execute .plain, .execute .plain]

def emptyDb : Db := ⟨[], .restart, [], .restart⟩

theorem start_up_exact_quiet : ∃ s, (startUpMachine fun _ => 0).run
    (.init {['a']} ['f'] emptyDb) quietStart = some s ∧ s.Settled ∧ s.Exact := by
  have hrun : ((startUpMachine fun _ => 0).run (.init {['a']} ['f'] emptyDb) quietStart).any
      (fun s => s.Settled ∧ s.NoneFoundAndReported) = true := by
    decide +kernel
  obtain ⟨s, hs, hend⟩ := (Option.any_eq_true _ _).mp hrun
  obtain ⟨hsettled, hnone⟩ := of_decide_eq_true hend
  exact ⟨s, hs, hsettled, (start_up_exact_iff _ (by decide) (by decide) emptyDb (by decide) hs
    hsettled).mpr hnone⟩

/-- A file that is created between the arming of the watch and the scan gets two rows. -/
def lateFile : List StartUpStep :=
  [.createInotify, .create ['a'], .openFolder, .visit ['a'], .closeFolder, .startWatching,
    .readEvents 1, .execute .plain, .execute .plain, .execute .plain]

theorem late_file_has_two_rows :
    ¬∀ (hash : Hash) (files : Finset Text) (filesFolder : Text) (db : Db)
      (steps : List StartUpStep) (s : StartUp),
      (startUpMachine hash).run (.init files filesFolder db) steps = some s → s.Settled →
        s.Exact := by
  intro h
  have hrun : ((startUpMachine fun _ => 0).run (.init ∅ ['f'] emptyDb) lateFile).any
      (fun s => s.Settled ∧ ¬ s.NoneFoundAndReported) = true := by
    decide +kernel
  obtain ⟨s, hs, hend⟩ := (Option.any_eq_true _ _).mp hrun
  obtain ⟨hsettled, hfound⟩ := of_decide_eq_true hend
  have hinv : s.Inv := inv_run _ (by decide) (by decide) emptyDb (by decide) hs
  exact hfound ((hinv.exact_iff hsettled).mp (h _ _ _ _ _ s hs hsettled))

end StartUp

end PetProject.InotifyModule
