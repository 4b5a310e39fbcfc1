import PetProject.Framework.Machine
import PetProject.Framework.Positions
import PetProject.Logger.Question

/-!
# Changing the watched folder

The constructors of `Inotify_module` and `set_folder`, as long as nothing is watched yet. Both ask
whether a folder exists and arm a watch on a new inotify descriptor; `set_folder` asks for the
folder that it is about to replace, and nothing closes a descriptor before the destructor.
-/

namespace PetProject.InotifyModule

open Framework Logger

/-! ## The question -/

/-- `Inotify_module::create_dir_if_not_exist`, with a bound on the passes of its loop. -/
def createDirIfNotExist {δ : Type} (folderExists : Bool) (creation : Except Text δ) (s : Console)
    (passes : Nat) : Option (Reply δ) :=
  if folderExists then some ⟨true, none, none, s⟩
  else
    (questionLoop "Unable to create specified directory for songs files: ".toList creation).within
      passes
      { s with cout := s.cout ++ "Specified songs directory doesn't exist, create ".toList }

/-- The questions of the two services end exactly on an input with a `y` or an `n` among its
answers. -/
theorem start_up_question_ends_iff {δ : Type} (creation : Except Text δ) (s : Console) :
    (EndsAsAsked (Logger.createDirIfNotExist creation s) ↔ Answered s.cin.rest) ∧
      (EndsAsAsked (createDirIfNotExist false creation s) ↔ Answered s.cin.rest) :=
  ⟨questionLoop_ends_iff _, questionLoop_ends_iff _⟩

/-- Without an input both questions are asked for ever. -/
theorem question_without_input_never_ends :
    ¬∀ (creation : Except Text Unit) (s : Console),
      EndsAsAsked (Logger.createDirIfNotExist creation s) ∧
        EndsAsAsked (createDirIfNotExist false creation s) := by
  intro hclaim
  have hends := (hclaim (.ok ()) ⟨.ofText [], [], []⟩).1
  exact not_answered_nil ((questionLoop_ends_iff _).mp hends)

/-- A call of `create_dir_if_not_exist` that has returned. -/
structure FolderCheck where
  folderExists : Bool
  creation : Except Text Unit
  console : Console
  passes : Nat
  reply : Reply Unit
  returned : createDirIfNotExist folderExists creation console passes = some reply

/-! ## Descriptors -/

/-- What a call of the kernel returns: a number, or `-1` with `errno`. -/
inductive SysCall
  | ok (n : Nat)
  | failed (errno : Int)
  deriving DecidableEq, Repr

/-- The inotify descriptors that are open, and the path that a watch was armed for. -/
structure Kernel where
  openFds : List Nat
  watches : Int → Int → Option Text

def Kernel.opened (k : Kernel) (n : Nat) : Kernel := { k with openFds := n :: k.openFds }

def Kernel.armed (k : Kernel) (fd wd : Nat) (path : Text) : Kernel :=
  { k with watches := fun f w => if f = fd ∧ w = wd then some path else k.watches f w }

/-- The fields of `Inotify_module`, the kernel, and what the last call has done: the path whose
existence it has checked and the one that it has begun to watch. -/
structure FolderWatch where
  filesFolder : Text
  ifSuccess : Bool
  errorNumber : Int
  fd : Int
  wd : Int
  kernel : Kernel
  checked : Option Text
  watched : Option Text

/-- A call of a constructor. The one that takes a parser is the one that takes a logger. -/
inductive Construction
  | default
  | checking (filesFolder : Text) (check : FolderCheck) (init addWatch : SysCall)
  | withLogger (filesFolder : Text) (init addWatch : SysCall)

/-- A call of `set_folder`; the constructor of its logger may throw. -/
structure FolderCall where
  folder : Text
  addLogger : Bool
  check : FolderCheck
  loggerThrows : Bool
  init : SysCall
  addWatch : SysCall

namespace FolderWatch

/-- `Inotify_module::create_inotify`. -/
def createInotify (init addWatch : SysCall) (s : FolderWatch) : FolderWatch :=
  match init with
  | .failed errno => { s with fd := -1, errorNumber := errno }
  | .ok n =>
    let s := { s with fd := n, kernel := s.kernel.opened n }
    match addWatch with
    | .failed errno => { s with wd := -1, errorNumber := errno }
    | .ok w =>
      { s with
        wd := w
        ifSuccess := true
        kernel := s.kernel.armed n w (cText s.filesFolder)
        watched := some (cText s.filesFolder) }

/-- The values of the members before the body of a constructor. -/
def members : FolderWatch := ⟨[], false, 0, -1, -1, ⟨[], fun _ _ => none⟩, none, none⟩

/-- `Inotify_module::set_folder`. -/
def setFolder (s : FolderWatch) (call : FolderCall) : FolderWatch :=
  let s := { s with checked := some (cText s.filesFolder), watched := none }
  if call.check.reply.value then
    let s := { s with filesFolder := call.folder }
    if call.addLogger && call.loggerThrows then s else createInotify call.init call.addWatch s
  else s

/-- A new descriptor has a number that no open one has. -/
def step (s : FolderWatch) (call : FolderCall) : Option FolderWatch :=
  if ∀ n ∈ s.kernel.openFds, call.init ≠ .ok n then some (s.setFolder call) else none

def ifNoError (s : FolderWatch) : Bool := s.ifSuccess

/-- `Inotify_module::~Inotify_module`, as far as the kernel is concerned. -/
def destroy (s : FolderWatch) : Kernel :=
  if s.fd = -1 then s.kernel
  else ⟨s.kernel.openFds.filter fun n => (n : Int) ≠ s.fd,
    fun f w => if f = s.fd then none else s.kernel.watches f w⟩

end FolderWatch

def Construction.state : Construction → FolderWatch
  | .default => .members
  | .checking filesFolder check init addWatch =>
    let s := { FolderWatch.members with
      filesFolder := filesFolder, checked := some (cText filesFolder) }
    if check.reply.value then s.createInotify init addWatch else s
  | .withLogger filesFolder init addWatch =>
    FolderWatch.createInotify init addWatch { FolderWatch.members with filesFolder := filesFolder }

def folderMachine : Machine FolderWatch FolderCall := ⟨FolderWatch.step⟩

namespace FolderWatch

/-- What `if_no_error` says is so, the folder that was checked is the one that is watched since, and
no descriptor but the current one is open. -/
structure Consistent (s : FolderWatch) : Prop where
  reported : s.ifNoError = true ↔
    s.fd ≠ -1 ∧ s.wd ≠ -1 ∧ s.kernel.watches s.fd s.wd = some (cText s.filesFolder)
  sameFolder : ∀ f ∈ s.checked, ∀ g ∈ s.watched, f = g
  closed : ∀ n ∈ s.kernel.openFds, s.fd = n

/-- The condition on a call in the state before it: unless its check fails, no descriptor is open,
and a watch is armed for the folder that was stored before; when the logger throws, the folder is
that one or nothing is watched. -/
def InOrder (s : FolderWatch) (call : FolderCall) : Prop :=
  call.check.reply.value = true →
    if call.addLogger && call.loggerThrows then
      s.ifSuccess = true → cText call.folder = cText s.filesFolder
    else
      s.fd = -1 ∧ ∀ n w, call.init = .ok n → call.addWatch = .ok w →
        cText call.folder = cText s.filesFolder

/-- A descriptor that is stored is open, and nothing is watched before the first success. -/
structure Tracked (s : FolderWatch) : Prop where
  stored : s.fd ≠ -1 → ∃ n ∈ s.kernel.openFds, s.fd = n
  quiet : s.ifSuccess = false → ∀ f w, s.kernel.watches f w = none

variable {s t : FolderWatch} {call : FolderCall}

private theorem step_eq_some (h : s.step call = some t) :
    (∀ n ∈ s.kernel.openFds, call.init ≠ .ok n) ∧ t = s.setFolder call := by
  unfold step at h
  split at h
  case isTrue hfresh => exact ⟨hfresh, (Option.some.inj h).symm⟩
  case isFalse => exact nomatch h

/-! ## One call of `create_inotify` -/

private theorem tracked_members : members.Tracked :=
  ⟨fun h => absurd rfl h, fun _ _ _ => rfl⟩

private theorem tracked_createInotify (h : s.Tracked) (init addWatch : SysCall) :
    (createInotify init addWatch s).Tracked := by
  cases init with
  | failed errno => exact ⟨fun hfd => absurd rfl hfd, h.quiet⟩
  | ok n =>
    cases addWatch with
    | failed errno => exact ⟨fun _ => ⟨n, List.mem_cons_self, rfl⟩, h.quiet⟩
    | ok w => exact ⟨fun _ => ⟨n, List.mem_cons_self, rfl⟩, fun hsuccess => nomatch hsuccess⟩

private theorem openFds_eq_nil_iff (htracked : s.Tracked) (hclosed : ∀ n ∈ s.kernel.openFds, s.fd = n) :
    s.kernel.openFds = [] ↔ s.fd = -1 := by
  constructor
  · intro hnil
    by_contra hfd
    obtain ⟨n, hn, -⟩ := htracked.stored hfd
    rw [hnil] at hn
    exact nomatch hn
  · intro hfd
    refine List.eq_nil_iff_forall_not_mem.mpr fun n hn => ?_
    have hstored := hclosed n hn
    omega

private theorem Consistent.of_silent (hsilent : s.ifSuccess = false) (hinvalid : s.fd = -1 ∨ s.wd = -1)
    (hnone : s.watched = none) (hclosed : ∀ n ∈ s.kernel.openFds, s.fd = n) : s.Consistent := by
  refine ⟨iff_of_false ?_ ?_, fun f _ g hg => ?_, hclosed⟩
  · rw [ifNoError, hsilent]
    exact Bool.false_ne_true
  · rintro ⟨hfd, hwd, -⟩
    exact hinvalid.elim hfd hwd
  · exact nomatch hnone.symm.trans hg

private theorem consistent_createInotify_iff {init : SysCall} (addWatch : SysCall)
    (hfresh : ∀ n ∈ s.kernel.openFds, init ≠ .ok n) (hnone : s.watched = none)
    (hquiet : s.kernel.openFds = [] → s.ifSuccess = false) :
    (createInotify init addWatch s).Consistent ↔ s.kernel.openFds = [] ∧
      ∀ n w, init = .ok n → addWatch = .ok w → ∀ f ∈ s.checked, f = cText s.filesFolder := by
  cases init with
  | failed errno =>
    constructor
    · intro h
      refine ⟨List.eq_nil_iff_forall_not_mem.mpr fun n hn => ?_, fun n w hn => nomatch hn⟩
      have hstored : (-1 : Int) = n := h.closed n hn
      omega
    · rintro ⟨hnil, -⟩
      refine Consistent.of_silent (hquiet hnil) (Or.inl rfl) hnone fun n hn => ?_
      exact absurd (hnil ▸ hn) List.not_mem_nil
  | ok n =>
    have hopen : (∀ m ∈ n :: s.kernel.openFds, (n : Int) = m) ↔ s.kernel.openFds = [] := by
      rw [List.forall_mem_cons, List.eq_nil_iff_forall_not_mem]
      refine ⟨fun h m hm => ?_, fun h => ⟨rfl, fun m hm => absurd hm (h m)⟩⟩
      have heq := h.2 m hm
      obtain rfl : n = m := by omega
      exact hfresh n hm rfl
    cases addWatch with
    | failed errno =>
      constructor
      · exact fun h => ⟨hopen.mp h.closed, fun n w _ hw => nomatch hw⟩
      · rintro ⟨hnil, -⟩
        exact Consistent.of_silent (hquiet hnil) (Or.inr rfl) hnone (hopen.mpr hnil)
    | ok w =>
      constructor
      · intro h
        exact ⟨hopen.mp h.closed, fun _ _ _ _ f hf => h.sameFolder f hf _ rfl⟩
      · rintro ⟨hnil, hsame⟩
        refine ⟨?_, fun f hf g hg => ?_, hopen.mpr hnil⟩
        · have hn : (n : Int) ≠ -1 := by omega
          have hw : (w : Int) ≠ -1 := by omega
          simp [ifNoError, createInotify, Kernel.armed, hn, hw]
        · obtain rfl := Option.some.inj hg
          exact hsame n w rfl rfl f hf

/-! ## Runs -/

private theorem tracked_setFolder (h : s.Tracked) (call : FolderCall) : (s.setFolder call).Tracked := by
  have hrecorded : ∀ folder : Text, Tracked { s with
      filesFolder := folder, checked := some (cText s.filesFolder), watched := none } :=
    fun _ => ⟨h.stored, h.quiet⟩
  unfold setFolder
  dsimp only
  split
  case isTrue =>
    split
    case isTrue => exact hrecorded call.folder
    case isFalse => exact tracked_createInotify (hrecorded call.folder) call.init call.addWatch
  case isFalse => exact hrecorded s.filesFolder

private theorem Consistent.silent (h : s.Consistent) (hfd : s.fd = -1) : s.ifSuccess = false := by
  by_contra hsuccess
  exact (h.reported.mp (Bool.not_eq_false _ ▸ hsuccess)).1 hfd

private theorem consistent_renamed_iff (htracked : s.Tracked) (h : s.Consistent) (folder : Text) :
    Consistent { s with
      filesFolder := folder, checked := some (cText s.filesFolder), watched := none } ↔
      (s.ifSuccess = true → cText folder = cText s.filesFolder) := by
  constructor
  · intro hafter hsuccess
    obtain ⟨-, -, hold⟩ := h.reported.mp hsuccess
    obtain ⟨-, -, hnew⟩ := hafter.reported.mp hsuccess
    exact Option.some.inj (hnew.symm.trans hold)
  · intro hsame
    refine ⟨?_, fun f _ g hg => (nomatch hg), h.closed⟩
    by_cases hsuccess : s.ifSuccess = true
    · dsimp only
      rw [hsame hsuccess]
      exact h.reported
    · have hwatches := htracked.quiet (Bool.eq_false_iff.mpr hsuccess) s.fd s.wd
      refine iff_of_false hsuccess fun hvalid => ?_
      exact nomatch hwatches.symm.trans hvalid.2.2

private theorem consistent_setFolder_iff (htracked : s.Tracked) (h : s.Consistent)
    (hfresh : ∀ n ∈ s.kernel.openFds, call.init ≠ .ok n) :
    (s.setFolder call).Consistent ↔ s.InOrder call := by
  unfold setFolder InOrder
  dsimp only
  by_cases hcheck : call.check.reply.value = true
  · rw [if_pos hcheck]
    simp only [hcheck, true_implies]
    by_cases hthrows : (call.addLogger && call.loggerThrows) = true
    · rw [if_pos hthrows, if_pos hthrows]
      exact consistent_renamed_iff htracked h call.folder
    · have hnil := openFds_eq_nil_iff htracked h.closed
      have hwatch := consistent_createInotify_iff call.addWatch (s := { s with
          filesFolder := call.folder, checked := some (cText s.filesFolder), watched := none })
        hfresh rfl fun hopen => h.silent (hnil.mp hopen)
      rw [if_neg hthrows, if_neg hthrows, hwatch, ← hnil]
      refine and_congr_right fun _ => forall₂_congr fun n w => ?_
      refine imp_congr_right fun _ => imp_congr_right fun _ => ⟨fun hf => (hf _ rfl).symm, ?_⟩
      intro hsame f hf
      exact (Option.some.inj hf).symm.trans hsame.symm
  · rw [if_neg hcheck]
    exact iff_of_true ⟨h.reported, fun f _ g hg => (nomatch hg), h.closed⟩ fun hpassed =>
      absurd hpassed hcheck

private theorem tracked_step (hstep : folderMachine.step s call = some t) (h : s.Tracked) :
    t.Tracked := by
  obtain ⟨-, rfl⟩ := step_eq_some hstep
  exact tracked_setFolder h call

private theorem consistent_step_iff (hstep : folderMachine.step s call = some t) (htracked : s.Tracked)
    (h : s.Consistent) : t.Consistent ↔ s.InOrder call := by
  obtain ⟨hfresh, rfl⟩ := step_eq_some hstep
  exact consistent_setFolder_iff htracked h hfresh

end FolderWatch

open FolderWatch

private theorem Construction.tracked_state (start : Construction) : start.state.Tracked := by
  cases start with
  | default => exact tracked_members
  | checking filesFolder check init addWatch =>
    have h : Tracked { members with
        filesFolder := filesFolder, checked := some (cText filesFolder) } :=
      ⟨tracked_members.stored, tracked_members.quiet⟩
    unfold Construction.state
    dsimp only
    split
    case isTrue => exact tracked_createInotify h init addWatch
    case isFalse => exact h
  | withLogger filesFolder init addWatch =>
    have h : Tracked { members with filesFolder := filesFolder } :=
      ⟨tracked_members.stored, tracked_members.quiet⟩
    exact tracked_createInotify h init addWatch

private theorem Construction.consistent_state (start : Construction) : start.state.Consistent := by
  have hblank : ∀ (filesFolder : Text) (checked : Option Text), Consistent { members with
      filesFolder := filesFolder, checked := checked } := fun _ _ =>
    Consistent.of_silent rfl (Or.inl rfl) rfl fun _ hn => absurd hn List.not_mem_nil
  cases start with
  | default => exact hblank [] none
  | checking filesFolder check init addWatch =>
    unfold Construction.state
    dsimp only
    split
    case isTrue =>
      refine (consistent_createInotify_iff addWatch (fun n hn => absurd hn List.not_mem_nil) rfl
        fun _ => rfl).mpr ⟨rfl, fun _ _ _ _ f hf => ?_⟩
      exact (Option.some.inj hf).symm
    case isFalse => exact hblank filesFolder _
  | withLogger filesFolder init addWatch =>
    exact (consistent_createInotify_iff addWatch (fun n hn => absurd hn List.not_mem_nil) rfl
      fun _ => rfl).mpr ⟨rfl, fun _ _ _ _ f hf => nomatch hf⟩

namespace FolderWatch

/-- The state is consistent after every call exactly if every call of `set_folder` that passes its
check finds no descriptor open and arms its watch for the folder that it has checked. -/
theorem folder_change_consistent_iff (start : Construction) (calls : List FolderCall) :
    folderMachine.Always Consistent start.state calls ↔
      folderMachine.Guarded InOrder start.state calls :=
  Machine.always_iff_guarded (M := folderMachine) (I := Tracked) (L := fun _ => True)
    (fun _ _ _ hstep _ htracked => tracked_step hstep htracked)
    (fun _ _ _ hstep _ htracked h => consistent_step_iff hstep htracked h)
    (fun _ _ => trivial) start.tracked_state start.consistent_state

/-- The destructor of an object in a consistent state leaves no descriptor open. -/
theorem Consistent.destroy_openFds {s : FolderWatch} (h : s.Consistent) :
    s.destroy.openFds = [] := by
  unfold destroy
  split
  case isTrue hfd =>
    refine List.eq_nil_iff_forall_not_mem.mpr fun n hn => ?_
    have hstored := h.closed n hn
    omega
  case isFalse =>
    refine List.filter_eq_nil_iff.mpr fun n hn => ?_
    simp [h.closed n hn]

/-- The folder exists, so that nothing is asked. -/
def existing : FolderCheck where
  folderExists := true
  creation := .ok ()
  console := ⟨.ofText [], [], []⟩
  passes := 0
  reply := ⟨true, none, none, ⟨.ofText [], [], []⟩⟩
  returned := rfl

/-- A service that watches the folder `"a"` is set to the folder `"b"`. -/
theorem second_folder_leaks :
    ¬∀ (start : Construction) (calls : List FolderCall),
      folderMachine.Always Consistent start.state calls := by
  intro hclaim
  have hafter : ∃ t, folderMachine.run (Construction.withLogger ['a'] (.ok 3) (.ok 1)).state
      [⟨['b'], false, existing, false, .ok 4, .ok 1⟩] = some t ∧ t.kernel.openFds = [4, 3] ∧
        t.fd = 4 :=
    ⟨_, rfl, rfl, rfl⟩
  obtain ⟨t, ht, hopen, hfd⟩ := hafter
  have hclosed := ((hclaim _ _).last ht).closed 3 (by simp [hopen])
  omega

end FolderWatch

end PetProject.InotifyModule
