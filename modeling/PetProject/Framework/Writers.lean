import Mathlib.Logic.Function.Basic
import PetProject.Framework.SqlText

/-!
# Files with several writers

Any number of parties open files to write, each with a position of its own. Opening truncates a file,
whoever has it open already; a write goes to the position of its party, over what is there.
-/

namespace Framework

/-- What a write at a position leaves in a file; a gap before the position is filled with NULs. -/
def overwrite (content : Text) (pos : Nat) (chunk : Text) : Text :=
  (content ++ List.replicate (pos - content.length) '\x00').take pos ++ chunk ++
    content.drop (pos + chunk.length)

theorem overwrite_length (content chunk : Text) :
    overwrite content content.length chunk = content ++ chunk := by
  rw [overwrite, Nat.sub_self, List.replicate_zero, List.append_nil, List.take_length,
    List.drop_of_length_le (Nat.le_add_right _ _), List.append_nil]

/-- The files, the file that each party has open with what it has written there, and what was
written to a file that has been closed and not opened since. -/
structure Writers (ι κ : Type*) where
  files : κ → Option Text
  opened : ι → Option (κ × Text)
  closed : κ → Option Text

inductive WriterStep (ι κ : Type*)
  | openFile (i : ι) (k : κ)
  | write (i : ι) (chunk : Text)
  | close (i : ι)
  deriving DecidableEq, Repr

namespace Writers

variable {ι κ : Type*} [DecidableEq ι] [DecidableEq κ]

def start (ι : Type*) {κ : Type*} (files : κ → Option Text) : Writers ι κ :=
  ⟨files, fun _ => none, fun _ => none⟩

def step (s : Writers ι κ) : WriterStep ι κ → Option (Writers ι κ)
  | .openFile i k =>
    if s.opened i = none then
      some ⟨Function.update s.files k (some []), Function.update s.opened i (some (k, [])),
        Function.update s.closed k none⟩
    else none
  | .write i chunk => (s.opened i).map fun h =>
      { s with
        files := Function.update s.files h.1
          (some (overwrite ((s.files h.1).getD []) h.2.length chunk))
        opened := Function.update s.opened i (some (h.1, h.2 ++ chunk)) }
  | .close i => (s.opened i).map fun h =>
      { s with
        opened := Function.update s.opened i none
        closed := Function.update s.closed h.1 (some h.2) }

/-- Every file holds what the party has written that has it open or has closed it last. -/
structure Intact (s : Writers ι κ) : Prop where
  opened : ∀ i k text, s.opened i = some (k, text) → s.files k = some text
  closed : ∀ k text, s.closed k = some text → s.files k = some text

/-- Nobody has the file open that is opened. -/
def Free (s : Writers ι κ) : WriterStep ι κ → Prop
  | .openFile _ k => ∀ j text, s.opened j ≠ some (k, text)
  | _ => True

/-- No file is open twice, and an open file is not closed. -/
structure Alone (s : Writers ι κ) : Prop where
  unique : ∀ i j k x y, s.opened i = some (k, x) → s.opened j = some (k, y) → i = j
  pending : ∀ i k text, s.opened i = some (k, text) → s.closed k = none

variable {s t : Writers ι κ}

omit [DecidableEq ι] [DecidableEq κ] in
theorem intact_start (files : κ → Option Text) : (start ι files).Intact where
  opened _ _ _ h := by cases h
  closed _ _ h := by cases h

omit [DecidableEq ι] [DecidableEq κ] in
theorem alone_start (files : κ → Option Text) : (start ι files).Alone where
  unique _ _ _ _ _ h := by cases h
  pending _ _ _ h := by cases h

/-- What one step changes. -/
inductive Fires (s : Writers ι κ) : WriterStep ι κ → Writers ι κ → Prop
  | openFile (i : ι) (k : κ) (hi : s.opened i = none) :
      Fires s (.openFile i k) ⟨Function.update s.files k (some []),
        Function.update s.opened i (some (k, [])), Function.update s.closed k none⟩
  | write (i : ι) (chunk : Text) (k : κ) (text : Text) (hi : s.opened i = some (k, text)) :
      Fires s (.write i chunk) { s with
        files := Function.update s.files k
          (some (overwrite ((s.files k).getD []) text.length chunk))
        opened := Function.update s.opened i (some (k, text ++ chunk)) }
  | close (i : ι) (k : κ) (text : Text) (hi : s.opened i = some (k, text)) :
      Fires s (.close i) { s with
        opened := Function.update s.opened i none
        closed := Function.update s.closed k (some text) }

theorem fires {a : WriterStep ι κ} (h : s.step a = some t) : s.Fires a t := by
  cases a with
  | openFile i k =>
    rw [step] at h
    split at h
    case isTrue hi => exact Option.some.inj h ▸ .openFile i k hi
    case isFalse => cases h
  | write i chunk =>
    obtain ⟨⟨k, text⟩, hi, rfl⟩ := Option.map_eq_some_iff.mp h
    exact .write i chunk k text hi
  | close i =>
    obtain ⟨⟨k, text⟩, hi, rfl⟩ := Option.map_eq_some_iff.mp h
    exact .close i k text hi

theorem exists_openFile {i : ι} (k : κ) (h : s.opened i = none) :
    ∃ t, s.step (.openFile i k) = some t ∧ t.opened i = some (k, []) ∧
      ∀ j, j ≠ i → t.opened j = s.opened j :=
  ⟨_, if_pos h, Function.update_self i _ _, fun _ hj => Function.update_of_ne hj _ _⟩

theorem exists_write {i : ι} {k : κ} {text : Text} (h : s.opened i = some (k, text))
    (chunk : Text) :
    ∃ t, s.step (.write i chunk) = some t ∧ t.opened i = some (k, text ++ chunk) ∧
      ∀ j, j ≠ i → t.opened j = s.opened j := by
  refine ⟨_, Option.map_eq_some_iff.mpr ⟨_, h, rfl⟩, ?_, fun j hj => ?_⟩
  · exact Function.update_self i _ _
  · exact Function.update_of_ne hj _ _

theorem not_intact_of_open {i j : ι} {k : κ} {text : Text} (hij : i ≠ j)
    (hi : s.opened i = some (k, text)) (htext : text ≠ []) (h : s.step (.openFile j k) = some t) :
    ¬t.Intact := by
  intro hintact
  cases fires h with
  | openFile _ _ hj =>
    have hfile : Function.update s.files k (some []) k = some text :=
      hintact.opened i k text ((Function.update_of_ne hij _ _).trans hi)
    rw [Function.update_self] at hfile
    exact htext (Option.some.inj hfile).symm

omit [DecidableEq κ] in
private theorem update_cases {opened : ι → Option (κ × Text)} {i j : ι} {h : Option (κ × Text)}
    {k : κ} {text : Text} (hj : Function.update opened i h j = some (k, text)) :
    j = i ∧ h = some (k, text) ∨ j ≠ i ∧ opened j = some (k, text) := by
  by_cases hji : j = i
  · subst hji
    exact Or.inl ⟨rfl, by rwa [Function.update_self] at hj⟩
  · exact Or.inr ⟨hji, by rwa [Function.update_of_ne hji] at hj⟩

theorem alone_step {a : WriterStep ι κ} (h : s.step a = some t) (hfree : s.Free a)
    (hs : s.Alone) : t.Alone := by
  cases fires h with
  | openFile i k hi =>
    have hk : ∀ j text, s.opened j ≠ some (k, text) := hfree
    constructor
    · intro j j' l x y hj hj'
      rcases update_cases hj with ⟨rfl, heq⟩ | ⟨-, hold⟩
      · cases heq
        rcases update_cases hj' with ⟨rfl, -⟩ | ⟨-, hold'⟩
        · rfl
        · exact absurd hold' (hk j' y)
      · rcases update_cases hj' with ⟨rfl, heq⟩ | ⟨-, hold'⟩
        · cases heq
          exact absurd hold (hk j x)
        · exact hs.unique j j' l x y hold hold'
    · intro j l x hj
      dsimp only
      rcases update_cases hj with ⟨rfl, heq⟩ | ⟨-, hold⟩
      · cases heq
        exact Function.update_self k none s.closed
      · have hl : l ≠ k := by
          rintro rfl
          exact hk j x hold
        rw [Function.update_of_ne hl]
        exact hs.pending j l x hold
  | write i chunk k text hi =>
    have hopened : ∀ {j l x}, Function.update s.opened i (some (k, text ++ chunk)) j =
        some (l, x) → ∃ y, s.opened j = some (l, y) := by
      intro j l x hj
      rcases update_cases hj with ⟨rfl, heq⟩ | ⟨-, hold⟩
      · cases heq
        exact ⟨text, hi⟩
      · exact ⟨x, hold⟩
    constructor
    · intro j j' l x y hj hj'
      obtain ⟨x', hold⟩ := hopened hj
      obtain ⟨y', hold'⟩ := hopened hj'
      exact hs.unique j j' l x' y' hold hold'
    · intro j l x hj
      obtain ⟨y, hold⟩ := hopened hj
      exact hs.pending j l y hold
  | close i k text hi =>
    have hopened : ∀ {j l x}, Function.update s.opened i none j = some (l, x) →
        j ≠ i ∧ s.opened j = some (l, x) := by
      intro j l x hj
      rcases update_cases hj with ⟨-, heq⟩ | hold
      · cases heq
      · exact hold
    constructor
    · intro j j' l x y hj hj'
      exact hs.unique j j' l x y (hopened hj).2 (hopened hj').2
    · intro j l x hj
      obtain ⟨hji, hold⟩ := hopened hj
      have hl : l ≠ k := by
        rintro rfl
        exact hji (hs.unique j i l x text hold hi)
      dsimp only
      rw [Function.update_of_ne hl]
      exact hs.pending j l x hold

theorem intact_step {a : WriterStep ι κ} (h : s.step a = some t) (hfree : s.Free a)
    (halone : s.Alone) (hs : s.Intact) : t.Intact := by
  cases fires h with
  | openFile i k hi =>
    have hk : ∀ j text, s.opened j ≠ some (k, text) := hfree
    constructor
    · intro j l x hj
      dsimp only
      rcases update_cases hj with ⟨rfl, heq⟩ | ⟨-, hold⟩
      · cases heq
        exact Function.update_self k (some []) s.files
      · have hl : l ≠ k := by
          rintro rfl
          exact hk j x hold
        rw [Function.update_of_ne hl]
        exact hs.opened j l x hold
    · intro l x hclosed
      dsimp only at hclosed ⊢
      by_cases hl : l = k
      · rw [hl, Function.update_self] at hclosed
        cases hclosed
      · rw [Function.update_of_ne hl] at hclosed ⊢
        exact hs.closed l x hclosed
  | write i chunk k text hi =>
    have hfile : overwrite ((s.files k).getD []) text.length chunk = text ++ chunk := by
      rw [hs.opened i k text hi, Option.getD_some, overwrite_length]
    constructor
    · intro j l x hj
      dsimp only
      rcases update_cases hj with ⟨rfl, heq⟩ | ⟨hji, hold⟩
      · cases heq
        rw [Function.update_self, hfile]
      · have hl : l ≠ k := by
          rintro rfl
          exact hji (halone.unique j i l x text hold hi)
        rw [Function.update_of_ne hl]
        exact hs.opened j l x hold
    · intro l x hclosed
      dsimp only at hclosed ⊢
      have hl : l ≠ k := by
        rintro rfl
        rw [halone.pending i l text hi] at hclosed
        cases hclosed
      rw [Function.update_of_ne hl]
      exact hs.closed l x hclosed
  | close i k text hi =>
    constructor
    · intro j l x hj
      rcases update_cases hj with ⟨-, heq⟩ | ⟨-, hold⟩
      · cases heq
      · exact hs.opened j l x hold
    · intro l x hclosed
      dsimp only at hclosed ⊢
      by_cases hl : l = k
      · rw [hl, Function.update_self] at hclosed
        cases hclosed
        rw [hl]
        exact hs.opened i k _ hi
      · rw [Function.update_of_ne hl] at hclosed
        exact hs.closed l x hclosed

/-! ## Parties that share no file -/

/-- The party that opens a file owns it. -/
def Within (own : ι → κ → Prop) : WriterStep ι κ → Prop
  | .openFile i k => own i k
  | _ => True

/-- Everybody has open what is his own, and the files are intact. -/
structure Apart (own : ι → κ → Prop) (s : Writers ι κ) : Prop where
  owned : ∀ i k text, s.opened i = some (k, text) → own i k
  alone : s.Alone
  intact : s.Intact

variable {own : ι → κ → Prop}

omit [DecidableEq ι] [DecidableEq κ] in
theorem apart_start (files : κ → Option Text) : (start ι files).Apart own where
  owned _ _ _ h := by cases h
  alone := alone_start files
  intact := intact_start files

theorem owned_step {a : WriterStep ι κ} (h : s.step a = some t) (ha : Within own a)
    (hs : ∀ i k text, s.opened i = some (k, text) → own i k) :
    ∀ i k text, t.opened i = some (k, text) → own i k := by
  intro j l x hj
  cases fires h with
  | openFile i k hi =>
    rcases update_cases hj with ⟨rfl, heq⟩ | ⟨-, hold⟩
    · cases heq
      exact ha
    · exact hs j l x hold
  | write i chunk k text hi =>
    rcases update_cases hj with ⟨rfl, heq⟩ | ⟨-, hold⟩
    · cases heq
      exact hs j _ text hi
    · exact hs j l x hold
  | close i k text hi =>
    rcases update_cases hj with ⟨-, heq⟩ | ⟨-, hold⟩
    · cases heq
    · exact hs j l x hold

theorem free_of_owned {a : WriterStep ι κ} (hown : ∀ i j k, own i k → own j k → i = j)
    (h : s.step a = some t) (ha : Within own a)
    (hs : ∀ i k text, s.opened i = some (k, text) → own i k) : s.Free a := by
  cases fires h with
  | openFile i k hi =>
    intro j text hj
    obtain rfl := hown j i k (hs j k text hj) ha
    rw [hi] at hj
    cases hj
  | write => trivial
  | close => trivial

/-- Parties that open nothing but what no other one owns stay apart. -/
theorem apart_step {a : WriterStep ι κ} (hown : ∀ i j k, own i k → own j k → i = j)
    (h : s.step a = some t) (ha : Within own a) (hs : s.Apart own) : t.Apart own := by
  have hfree := free_of_owned hown h ha hs.owned
  exact ⟨owned_step h ha hs.owned, alone_step h hfree hs.alone,
    intact_step h hfree hs.alone hs.intact⟩

end Writers

end Framework
