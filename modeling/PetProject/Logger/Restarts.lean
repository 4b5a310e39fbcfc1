import Mathlib.Algebra.GroupWithZero.Nat
import PetProject.Framework.Machine
import PetProject.Logger.LogChoice

/-!
# A log over many starts

The log directory of one service that nobody else touches: loggers are started, write their records
and are destroyed, one after the other. The k-th file is named after the number k; the directory is
iterated over in any order, and the clock may show any time.
-/

namespace PetProject.Logger

open Framework

/-- One call of `make_record`. -/
structure Record where
  time : Int
  event : Text
  deriving DecidableEq, Repr

/-- A log file: what has been written to it, and when it was written last. -/
structure LogText where
  records : List Record
  lastWriteTime : Int
  deriving DecidableEq, Repr

/-- The arguments of the constructor, and `std::put_time` with the format of the records. -/
structure Settings where
  service : Text
  logDir : Text
  maxLogFileSize : Nat
  putTime : Int → Text

/-- The files, the one that a logger is writing to, and all records that have been made. -/
structure Journal where
  files : List LogText
  opened : Option Nat
  made : List Record
  deriving DecidableEq, Repr

inductive JournalStep
  | start (iteration : List LogEntry) (now : Int)
  | makeRecord (now : Int) (event : Text)
  | stop

namespace Settings

variable (settings : Settings)

/-- What `make_record` writes. -/
def line (r : Record) : Text := settings.putTime r.time ++ r.event ++ ['\n']

def size (f : LogText) : Nat := (f.records.map fun r => (settings.line r).length).sum

/-- The path of the file at an index. -/
def path (k : Nat) : Text := newLogFile settings.service settings.logDir (k + 1)

end Settings

namespace Journal

variable (settings : Settings)

def empty : Journal := ⟨[], none, []⟩

/-- The entry of the file at an index. -/
def entryOf (f : LogText × Nat) : LogEntry :=
  ⟨settings.path f.2, true, some f.1.lastWriteTime, some (settings.size f.1)⟩

def entries (s : Journal) : List LogEntry := s.files.zipIdx.map (entryOf settings)

def indexOf (s : Journal) (path : Text) : Option Nat :=
  (List.range s.files.length).find? fun k => settings.path k = path

def folder (s : Journal) (iteration : List LogEntry) : LogFolder where
  path := settings.logDir
  iteration := ⟨iteration, true⟩
  present path := (s.indexOf settings path).isSome

/-- `open_file` in a directory that is iterated over in the given order, `make_record`, and the
destructor. Opening a file that is there to write truncates it. -/
def step (s : Journal) : JournalStep → Option Journal
  | .start iteration now =>
    if s.opened = none ∧ iteration.Perm (s.entries settings) then
      match selectFile settings.service settings.maxLogFileSize (s.folder settings iteration) with
      | .returns (.app path) => (s.indexOf settings path).map fun k => { s with opened := some k }
      | .returns (.out path) =>
        match s.indexOf settings path with
        | some k => some { s with files := s.files.set k ⟨[], now⟩, opened := some k }
        | none => some { s with files := s.files ++ [⟨[], now⟩], opened := some s.files.length }
      | _ => none
    else none
  | .makeRecord now event =>
    s.opened.bind fun k => s.files[k]?.map fun f =>
      { s with
        files := s.files.set k ⟨f.records ++ [⟨now, event⟩], now⟩
        made := s.made ++ [⟨now, event⟩] }
  | .stop => if s.opened.isSome then some { s with opened := none } else none

end Journal

def journalMachine (settings : Settings) : Machine Journal JournalStep :=
  ⟨Journal.step settings⟩

/-! ## The names of the files -/

private theorem toDigits_injective {m n : Nat} (h : Nat.toDigits 10 m = Nat.toDigits 10 n) : m = n := by
  have hdigits := congrArg (Nat.ofDigitChars 10 · 0) h
  simpa only [Nat.ofDigitChars_ten_toDigits] using hdigits

private theorem newLogFile_injective {service logDir : Text} {m n : Nat}
    (h : newLogFile service logDir m = newLogFile service logDir n) : m = n := by
  have hname : service ++ "_log".toList ++ Nat.toDigits 10 m ++ ".log".toList =
      service ++ "_log".toList ++ Nat.toDigits 10 n ++ ".log".toList := by
    have hhead : (service ++ "_log".toList ++ Nat.toDigits 10 m ++ ".log".toList).head? =
        (service ++ "_log".toList ++ Nat.toDigits 10 n ++ ".log".toList).head? := by
      cases service <;> rfl
    unfold newLogFile joinPath at h
    rw [hhead] at h
    split at h
    case isTrue => exact h
    case isFalse =>
      split at h
      case isTrue => exact List.append_cancel_left h
      case isFalse => exact List.tail_eq_of_cons_eq (List.append_cancel_left h)
  exact toDigits_injective (List.append_cancel_left (List.append_cancel_right hname))

namespace Journal

variable {settings : Settings} {s t : Journal}

private theorem indexOf_path {k : Nat} (hk : k < s.files.length) :
    s.indexOf settings (settings.path k) = some k := by
  rw [indexOf, List.find?_range_eq_some]
  refine ⟨decide_eq_true rfl, List.mem_range.mpr hk, fun j hj => ?_⟩
  simp only [Bool.not_eq_true', decide_eq_false_iff_not]
  intro heq
  have hnumber := newLogFile_injective heq
  omega

private theorem indexOf_next : s.indexOf settings (settings.path s.files.length) = none := by
  rw [indexOf, List.find?_eq_none]
  intro k hk
  rw [List.mem_range] at hk
  simp only [decide_eq_true_eq]
  intro heq
  have hnumber := newLogFile_injective heq
  omega

private theorem mem_entries {e : LogEntry} : e ∈ s.entries settings ↔
    ∃ (k : Nat) (hk : k < s.files.length), e = entryOf settings (s.files[k], k) := by
  rw [entries, List.mem_map]
  constructor
  · rintro ⟨⟨f, k⟩, hf, rfl⟩
    obtain ⟨hk, hf⟩ := List.mem_zipIdx' hf
    exact ⟨k, hk, by rw [hf]⟩
  · rintro ⟨k, hk, rfl⟩
    exact ⟨(s.files[k], k), List.mk_mem_zipIdx_iff_getElem?.mpr (List.getElem?_eq_getElem hk), rfl⟩

section Selection

variable {iteration : List LogEntry} (hperm : iteration.Perm (s.entries settings))

include hperm

private theorem regularFiles_folder : (s.folder settings iteration).regularFiles = iteration := by
  refine List.filter_eq_self.mpr fun e he => ?_
  obtain ⟨k, hk, rfl⟩ := mem_entries.mp (hperm.subset he)
  rfl

private theorem nextLog_folder :
    (s.folder settings iteration).nextLog settings.service = settings.path s.files.length := by
  rw [LogFolder.nextLog, regularFiles_folder hperm, hperm.length_eq, entries, List.length_map,
    List.length_zipIdx, Settings.path, Nat.add_comm]
  rfl

private theorem selectFile_folder :
    (s.files = [] ∧ selectFile settings.service settings.maxLogFileSize
        (s.folder settings iteration) = .returns (.out (settings.path s.files.length))) ∨
      ∃ (k : Nat) (hk : k < s.files.length),
        (∀ f ∈ s.files, f.lastWriteTime ≤ s.files[k].lastWriteTime) ∧
        selectFile settings.service settings.maxLogFileSize (s.folder settings iteration) =
          if settings.size s.files[k] ≤ settings.maxLogFileSize then .returns (.app (settings.path k))
          else .returns (.out (settings.path s.files.length)) := by
  have hregular := regularFiles_folder hperm
  have hnext := nextLog_folder hperm
  by_cases hnil : iteration = []
  · refine Or.inl ⟨?_, ?_⟩
    · rw [hnil] at hperm
      simpa [entries] using hperm.nil_eq.symm
    · rw [selectFile_empty rfl hnil, hnext]
  · have htimes : 2 ≤ iteration.length → ∀ e ∈ iteration, e.lastWriteTime.isSome := by
      intro _ e he
      obtain ⟨k, hk, rfl⟩ := mem_entries.mp (hperm.subset he)
      rfl
    have hfound : (maxElement (lessBy LogEntry.lastWriteTime) iteration).isSome :=
      maxElement_isSome_iff.mpr htimes
    obtain ⟨found, hmax⟩ := Option.isSome_iff_exists.mp hfound
    cases found with
    | none => exact absurd (maxElement_eq_end_iff.mp hmax) hnil
    | some last =>
      have hgreatest := maxElement_greatest hmax
      have hmem : last ∈ iteration := by
        rcases hgreatest with hsingle | ⟨hmem, -⟩
        · simp [hsingle]
        · exact hmem
      obtain ⟨k, hk, rfl⟩ := mem_entries.mp (hperm.subset hmem)
      refine Or.inr ⟨k, hk, fun f hf => ?_, ?_⟩
      · obtain ⟨j, hj, rfl⟩ := List.mem_iff_getElem.mp hf
        have hentry : entryOf settings (s.files[j], j) ∈ iteration :=
          hperm.mem_iff.mpr (mem_entries.mpr ⟨j, hj, rfl⟩)
        rcases hgreatest with hsingle | ⟨-, x, hx, hall⟩
        · rw [hsingle, List.mem_singleton] at hentry
          have htime := congrArg LogEntry.lastWriteTime hentry
          exact (Option.some.inj htime).le
        · obtain ⟨y, hy, hyx⟩ := hall _ hentry
          rw [← Option.some.inj hx, ← Option.some.inj hy] at hyx
          exact hyx
      · rw [← hregular] at hmax
        rw [selectFile_last rfl hmax, hnext]
        have hroom : (entryOf settings (s.files[k], k)).HasRoom settings.maxLogFileSize ↔
            settings.size s.files[k] ≤ settings.maxLogFileSize := by
          simp [LogEntry.HasRoom, entryOf]
        exact if_congr hroom rfl rfl

end Selection

/-! ## What a step can do -/

/-- The file at an index is one of those that were written last. -/
def Latest (s : Journal) (k : Nat) (hk : k < s.files.length) : Prop :=
  ∀ f ∈ s.files, f.lastWriteTime ≤ s.files[k].lastWriteTime

/-- The enabled steps. -/
inductive Fires (settings : Settings) (s : Journal) : JournalStep → Journal → Prop
  | reopen (iteration : List LogEntry) (now : Int) (hclosed : s.opened = none) (k : Nat)
      (hk : k < s.files.length) (hlatest : s.Latest k hk)
      (hroom : settings.size s.files[k] ≤ settings.maxLogFileSize) :
      Fires settings s (.start iteration now) { s with opened := some k }
  | next (iteration : List LogEntry) (now : Int) (hclosed : s.opened = none)
      (hfull : s.files = [] ∨ ∃ (k : Nat) (hk : k < s.files.length), s.Latest k hk ∧
        settings.maxLogFileSize < settings.size s.files[k]) :
      Fires settings s (.start iteration now)
        { s with files := s.files ++ [⟨[], now⟩], opened := some s.files.length }
  | makeRecord (now : Int) (event : Text) (k : Nat) (hopened : s.opened = some k)
      (hk : k < s.files.length) :
      Fires settings s (.makeRecord now event) { s with
        files := s.files.set k ⟨s.files[k].records ++ [⟨now, event⟩], now⟩
        made := s.made ++ [⟨now, event⟩] }
  | stop : Fires settings s .stop { s with opened := none }

private theorem start_next {iteration : List LogEntry} {now : Int} (hclosed : s.opened = none)
    (hperm : iteration.Perm (s.entries settings))
    (hselect : selectFile settings.service settings.maxLogFileSize
      (s.folder settings iteration) = .returns (.out (settings.path s.files.length))) :
    s.step settings (.start iteration now) =
      some { s with files := s.files ++ [⟨[], now⟩], opened := some s.files.length } := by
  rw [step, if_pos ⟨hclosed, hperm⟩, hselect]
  dsimp only
  rw [indexOf_next]

private theorem start_reopen {iteration : List LogEntry} {now : Int} (hclosed : s.opened = none)
    (hperm : iteration.Perm (s.entries settings)) {k : Nat} (hk : k < s.files.length)
    (hselect : selectFile settings.service settings.maxLogFileSize
      (s.folder settings iteration) = .returns (.app (settings.path k))) :
    s.step settings (.start iteration now) = some { s with opened := some k } := by
  rw [step, if_pos ⟨hclosed, hperm⟩, hselect]
  dsimp only
  rw [indexOf_path hk, Option.map_some]

private theorem start_fires {iteration : List LogEntry} (now : Int) (hclosed : s.opened = none)
    (hperm : iteration.Perm (s.entries settings)) :
    ∃ t, s.step settings (.start iteration now) = some t ∧
      s.Fires settings (.start iteration now) t := by
  rcases selectFile_folder hperm with ⟨hnil, hselect⟩ | ⟨k, hk, hlatest, hselect⟩
  · exact ⟨_, start_next hclosed hperm hselect, .next iteration now hclosed (Or.inl hnil)⟩
  · by_cases hroom : settings.size s.files[k] ≤ settings.maxLogFileSize
    · rw [if_pos hroom] at hselect
      exact ⟨_, start_reopen hclosed hperm hk hselect,
        .reopen iteration now hclosed k hk hlatest hroom⟩
    · rw [if_neg hroom] at hselect
      refine ⟨_, start_next hclosed hperm hselect, .next iteration now hclosed (Or.inr ?_)⟩
      exact ⟨k, hk, hlatest, not_le.mp hroom⟩

theorem fires {a : JournalStep} (h : s.step settings a = some t) : s.Fires settings a t := by
  cases a with
  | start iteration now =>
    by_cases hstart : s.opened = none ∧ iteration.Perm (s.entries settings)
    · obtain ⟨u, hu, hfires⟩ := start_fires now hstart.1 hstart.2
      obtain rfl : t = u := Option.some.inj (h.symm.trans hu)
      exact hfires
    · rw [step, if_neg hstart] at h
      exact nomatch h
  | makeRecord now event =>
    obtain ⟨k, hopened, h⟩ := Option.bind_eq_some_iff.mp h
    obtain ⟨f, hf, rfl⟩ := Option.map_eq_some_iff.mp h
    obtain ⟨hk, rfl⟩ := List.getElem?_eq_some_iff.mp hf
    exact .makeRecord now event k hopened hk
  | stop =>
    rw [step] at h
    split at h
    case isTrue => exact Option.some.inj h ▸ .stop
    case isFalse => exact nomatch h

/-! ## No record is lost -/

/-- The records in the files, in the order of their numbers. -/
def written (s : Journal) : List Record := s.files.flatMap LogText.records

/-- The files hold the records that have been made, and a logger writes to one of them. -/
structure Complete (s : Journal) : Prop where
  written : s.written.Perm s.made
  opened : ∀ k, s.opened = some k → k < s.files.length

private theorem complete_step {a : JournalStep} (hstep : s.step settings a = some t) (h : s.Complete) :
    t.Complete := by
  cases fires hstep with
  | reopen iteration now hclosed k hk =>
    exact ⟨h.written, fun j hj => Option.some.inj hj ▸ hk⟩
  | next iteration now hclosed hfull =>
    refine ⟨?_, fun j hj => ?_⟩
    · have hnone : List.flatMap LogText.records [⟨[], now⟩] = [] := rfl
      rw [Journal.written, List.flatMap_append, hnone, List.append_nil]
      exact h.written
    · rw [← Option.some.inj hj, List.length_append]
      exact Nat.lt_add_one _
  | makeRecord now event k hopened hk =>
    refine ⟨?_, fun j hj => ?_⟩
    · have hfiles : s.files = s.files.take k ++ s.files[k] :: s.files.drop (k + 1) := by
        rw [List.getElem_cons_drop, List.take_append_drop]
      have hbefore := h.written
      rw [Journal.written, hfiles, List.flatMap_append, List.flatMap_cons] at hbefore
      rw [Journal.written, List.set_eq_take_append_cons_drop, if_pos hk, List.flatMap_append,
        List.flatMap_cons]
      -- the new record stands in front of the records of the later files
      refine List.Perm.trans ?_ (hbefore.append_right [⟨now, event⟩])
      simp only [List.append_assoc]
      exact (List.perm_append_comm.append_left _).append_left _
    · rw [List.length_set]
      exact h.opened j hj
  | stop => exact ⟨h.written, nofun⟩

/-! ## Records in order -/

/-- The clock shows a later time than that of every file. -/
def Advances (s : Journal) : JournalStep → Prop
  | .start _ now | .makeRecord now _ => ∀ f ∈ s.files, f.lastWriteTime < now
  | .stop => True

instance (s : Journal) (a : JournalStep) : Decidable (s.Advances a) := by
  cases a <;> unfold Advances <;> infer_instance

/-- The file that was written last is the last one, and all the others are full. -/
structure Chronological (settings : Settings) (s : Journal) : Prop where
  written : s.written = s.made
  opened : ∀ k, s.opened = some k → k + 1 = s.files.length
  times : s.files.Pairwise fun f g => f.lastWriteTime < g.lastWriteTime
  full : ∀ f ∈ s.files.dropLast, settings.maxLogFileSize < settings.size f

private theorem Chronological.last_of_latest (h : s.Chronological settings) {k : Nat}
    {hk : k < s.files.length} (hlatest : s.Latest k hk) : k + 1 = s.files.length := by
  by_contra hne
  have hnext : k + 1 < s.files.length := by omega
  have hlater := List.pairwise_iff_getElem.mp h.times k (k + 1) hk hnext (Nat.lt_add_one k)
  exact absurd (hlatest _ (List.getElem_mem hnext)) (not_le.mpr hlater)

private theorem chronological_step {a : JournalStep} (hstep : s.step settings a = some t)
    (hclock : s.Advances a) (h : s.Chronological settings) : t.Chronological settings := by
  cases fires hstep with
  | reopen iteration now hclosed k hk hlatest =>
    refine ⟨h.written, fun j hj => ?_, h.times, h.full⟩
    rw [← Option.some.inj hj]
    exact h.last_of_latest hlatest
  | next iteration now hclosed hfull =>
    refine ⟨?_, fun j hj => ?_, ?_, ?_⟩
    · have hnone : List.flatMap LogText.records [⟨[], now⟩] = [] := rfl
      rw [Journal.written, List.flatMap_append, hnone, List.append_nil]
      exact h.written
    · rw [← Option.some.inj hj, List.length_append]
      rfl
    · rw [List.pairwise_append]
      refine ⟨h.times, List.pairwise_singleton _ _, fun f hf g hg => ?_⟩
      rw [List.mem_singleton.mp hg]
      exact hclock f hf
    · rw [List.dropLast_concat]
      rcases hfull with hnil | ⟨k, hk, hlatest, hsize⟩
      · rw [hnil]
        nofun
      · -- the file that was last is full now
        have hlast := h.last_of_latest hlatest
        have hsplit : s.files = s.files.dropLast ++ [s.files[k]] := by
          have hk' : k = s.files.length - 1 := by omega
          rw [List.dropLast_eq_take, ← hk', List.take_append_getElem, hlast, List.take_length]
        intro f hf
        rw [hsplit] at hf
        rcases List.mem_append.mp hf with hf | hf
        · exact h.full f hf
        · rwa [List.mem_singleton.mp hf]
  | makeRecord now event k hopened hk =>
    have hlast := h.opened k hopened
    obtain ⟨files, f, hfiles⟩ : ∃ files f, s.files = files ++ [f] :=
      (List.eq_nil_or_concat' s.files).resolve_left (List.ne_nil_of_length_pos (by omega))
    have hlength : k = files.length := by
      rw [hfiles, List.length_append, List.length_singleton] at hlast
      omega
    have hget : s.files[k] = f := by simp [hfiles, hlength]
    have hset : s.files.set k ⟨s.files[k].records ++ [⟨now, event⟩], now⟩ =
        files ++ [⟨f.records ++ [⟨now, event⟩], now⟩] := by
      rw [hget, hfiles, hlength, List.set_append_right _ _ le_rfl, Nat.sub_self, List.set_cons_zero]
    have htimes := h.times
    have hfull := h.full
    have hwritten := h.written
    rw [hfiles] at htimes hfull
    rw [Journal.written, hfiles] at hwritten
    refine ⟨?_, fun j hj => ?_, ?_, ?_⟩
    · rw [Journal.written, hset, ← hwritten]
      simp
    · rw [hset, List.length_append, List.length_singleton, hlength.symm]
      rw [hopened] at hj
      rw [← Option.some.inj hj]
    · rw [hset, List.pairwise_append]
      refine ⟨(List.pairwise_append.mp htimes).1, List.pairwise_singleton _ _, fun g hg e he => ?_⟩
      rw [List.mem_singleton.mp he]
      exact hclock g (by simp [hfiles, hg])
    · rw [hset, List.dropLast_concat]
      rwa [List.dropLast_concat] at hfull
  | stop => exact ⟨h.written, nofun, h.times, h.full⟩

end Journal

/-- Over any number of starts every record that was ever made is in one of the files, once, and
the next logger can be started, whatever the clock shows. -/
theorem no_record_is_lost (settings : Settings) (as : List JournalStep) :
    (journalMachine settings).Always
      (fun s => s.written.Perm s.made ∧
        (s.opened = none → ∀ iteration now, iteration.Perm (s.entries settings) →
          (s.step settings (.start iteration now)).isSome))
      .empty as := by
  have hempty : Journal.empty.Complete := ⟨.refl _, nofun⟩
  refine (Machine.always_of_step (fun _ _ _ => Journal.complete_step) hempty as).mono
    fun s h => ⟨h.written, fun hclosed iteration now hperm => ?_⟩
  obtain ⟨t, ht, -⟩ := Journal.start_fires now hclosed hperm
  rw [ht]
  rfl

/-- As long as the clock advances, the files in the order of their numbers hold the records in the
order in which they were made, and every file but the last is larger than the maximum. -/
theorem records_stay_in_order (settings : Settings) (as : List JournalStep)
    (hclock : (journalMachine settings).Guarded Journal.Advances .empty as) :
    (journalMachine settings).Always
      (fun s => s.written = s.made ∧
        ∀ f ∈ s.files.dropLast, settings.maxLogFileSize < settings.size f)
      .empty as := by
  have hempty : Journal.empty.Chronological settings := ⟨rfl, nofun, List.Pairwise.nil, nofun⟩
  exact (hclock.always (fun _ _ _ => Journal.chronological_step) hempty).mono
    fun s h => ⟨h.written, h.full⟩

/-- Two starts with a record each, the first one of which fills its file. -/
def twoStarts : List JournalStep :=
  [.start [] 1, .makeRecord 2 ['a'], .stop,
    .start [⟨newLogFile ['s'] ['d'] 1, true, some 2, some 2⟩] 3, .makeRecord 4 ['b'], .stop]

def smallSettings : Settings := ⟨['s'], ['d'], 1, fun _ => []⟩

theorem records_stay_in_order_two_starts :
    (journalMachine smallSettings).Always
      (fun s => s.written = s.made ∧ ∀ f ∈ s.files.dropLast, 1 < smallSettings.size f)
      .empty twoStarts :=
  records_stay_in_order smallSettings twoStarts (by decide +kernel)

end PetProject.Logger
