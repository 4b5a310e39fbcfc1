import PetProject.Framework.InputStream
import PetProject.Framework.Loop
import PetProject.Logger.OpenFile

/-!
# The question before a directory is created

`create_dir_if_not_exist` asks on the standard input whether a directory that does not exist is to
be created, and goes on asking until it reads a `y` or an `n`. It drops the character behind each
answer. At the end of the input it clears the stream and asks again, and so it never returns.
-/

namespace PetProject.Logger

open Framework

structure Console where
  cin : InputStream
  cout : Text
  cerr : Text

/-- What the function returns, the last answer that it has read, the directory that it has created,
and the console that it leaves. -/
structure Reply (δ : Type) where
  value : Bool
  answer : Option Char
  created : Option δ
  console : Console

/-- One pass of the loop. `create_directories` yields a new directory or the text of an error. -/
def ask {δ : Type} (failure : Text) (creation : Except Text δ) (s : Console) : Reply δ ⊕ Console :=
  let s := { s with cout := s.cout ++ "[y/n]?\n".toList }
  match s.cin.extract with
  | (none, cin) => .inr { s with cin := cin.clear }
  | (some c, cin) =>
    let s := { s with cin := cin.get.2 }
    if c = 'y' then
      match creation with
      | .error message =>
        .inl ⟨false, some c, none, { s with cerr := s.cerr ++ failure ++ message ++ ['\n'] }⟩
      | .ok dir => .inl ⟨true, some c, some dir, s⟩
    else if c = 'n' then .inl ⟨false, some c, none, s⟩
    else if s.cin.onlyBad then .inl ⟨false, some c, none, s⟩
    else .inr s

def questionLoop {δ : Type} (failure : Text) (creation : Except Text δ) : Loop Console (Reply δ) :=
  ⟨ask failure creation⟩

/-- `Logger::create_dir_if_not_exist`, with a bound on the passes of its loop. -/
def createDirIfNotExist {δ : Type} (creation : Except Text δ) (s : Console) (passes : Nat) :
    Option (Reply δ) :=
  (questionLoop "Unable to create specified directory for log files: ".toList creation).within passes
    { s with cout := s.cout ++
        "Specified directory for log files doesn't exist, create ".toList }

/-- The answers in an input: the first character that is no white space, and so on behind the
character after it. The flag says that this one is still to be dropped. -/
def answersFrom : Bool → Text → List Char
  | _, [] => []
  | true, _ :: input => answersFrom false input
  | false, c :: input =>
    if isspace c then answersFrom false input else c :: answersFrom true input

/-- One of the answers is a `y` or an `n`. -/
def Answered (input : Text) : Prop := ∃ c ∈ answersFrom false input, c = 'y' ∨ c = 'n'

instance (input : Text) : Decidable (Answered input) :=
  inferInstanceAs (Decidable (∃ c ∈ _, _))

/-- The function returns, and it returns true only behind a `y` with the directory created. -/
structure EndsAsAsked {δ : Type} (question : Nat → Option (Reply δ)) : Prop where
  ends : ∃ passes reply, question passes = some reply
  created : ∀ passes reply, question passes = some reply → reply.value = true →
    reply.answer = some 'y' ∧ reply.created.isSome

/-! ## Answers -/

private theorem answersFrom_true (input : Text) : answersFrom true input = answersFrom false input.tail := by
  cases input <;> rfl

private theorem answersFrom_false (input : Text) :
    answersFrom false input =
      match input.dropWhile isspace with
      | [] => []
      | c :: rest => c :: answersFrom false rest.tail := by
  induction input with
  | nil => rfl
  | cons c input ih =>
    rw [answersFrom, List.dropWhile_cons]
    split
    · exact ih
    · rw [answersFrom_true]

theorem not_answered_nil : ¬Answered [] := fun ⟨_, hc, _⟩ => nomatch hc

private theorem answered_of_blank {input : Text} (h : input.dropWhile isspace = []) :
    ¬Answered input := by
  rintro ⟨c, hc, -⟩
  rw [answersFrom_false, h] at hc
  exact nomatch hc

private theorem answered_of_cons {input rest : Text} {c : Char}
    (h : input.dropWhile isspace = c :: rest) :
    Answered input ↔ (c = 'y' ∨ c = 'n') ∨ Answered rest.tail := by
  rw [Answered, answersFrom_false, h]
  simp [Answered]

private theorem length_tail_lt {input rest : Text} {c : Char}
    (h : input.dropWhile isspace = c :: rest) : rest.tail.length < input.length := by
  have hle := (List.dropWhile_sublist isspace (l := input)).length_le
  rw [h, List.length_cons] at hle
  rw [List.length_tail]
  omega

/-! ## Passes -/

section Passes

variable {δ : Type} {failure : Text} {creation : Except Text δ} {s : Console}

private theorem ask_not_good (h : s.cin.good = false) :
    ∃ t, ask failure creation s = .inr t ∧ t.cin = .ofText s.cin.rest := by
  unfold ask
  dsimp only
  rw [InputStream.extract_of_not_good h]
  exact ⟨_, rfl, rfl⟩

private theorem ask_blank (hgood : s.cin.good) (h : s.cin.rest.dropWhile isspace = []) :
    ∃ t, ask failure creation s = .inr t ∧ t.cin.rest = [] := by
  unfold ask
  dsimp only
  rw [InputStream.good_iff.mp hgood, InputStream.extract_of_blank h]
  exact ⟨_, rfl, rfl⟩

private theorem ask_wrong (hgood : s.cin.good) {c : Char} {rest : Text}
    (h : s.cin.rest.dropWhile isspace = c :: rest) (hy : c ≠ 'y') (hn : c ≠ 'n') :
    ∃ t, ask failure creation s = .inr t ∧ t.cin.rest = rest.tail := by
  obtain ⟨hrest, hbad⟩ := InputStream.get_ofText rest
  unfold ask
  dsimp only
  rw [InputStream.good_iff.mp hgood, InputStream.extract_of_cons h]
  dsimp only
  rw [if_neg hy, if_neg hn, hbad, if_neg Bool.false_ne_true]
  exact ⟨_, rfl, hrest⟩

private theorem ask_answer (hgood : s.cin.good) {c : Char} {rest : Text}
    (h : s.cin.rest.dropWhile isspace = c :: rest) (hc : c = 'y' ∨ c = 'n') :
    ∃ r, ask failure creation s = .inl r := by
  unfold ask
  dsimp only
  rw [InputStream.good_iff.mp hgood, InputStream.extract_of_cons h]
  dsimp only
  rcases hc with rfl | rfl
  · rw [if_pos rfl]
    cases creation <;> exact ⟨_, rfl⟩
  · exact ⟨_, rfl⟩

private theorem ask_true {r : Reply δ} (h : ask failure creation s = .inl r) (hvalue : r.value = true) :
    r.answer = some 'y' ∧ r.created.isSome := by
  unfold ask at h
  dsimp only at h
  split at h
  case h_1 => exact nomatch h
  case h_2 c cin _ =>
    split at h
    case isTrue hy =>
      cases creation with
      | error message =>
        obtain rfl := Sum.inl.inj h
        exact nomatch hvalue
      | ok dir =>
        obtain rfl := Sum.inl.inj h
        exact ⟨congrArg some hy, rfl⟩
    case isFalse =>
      split at h
      case isTrue =>
        obtain rfl := Sum.inl.inj h
        exact nomatch hvalue
      case isFalse =>
        split at h
        case isTrue =>
          obtain rfl := Sum.inl.inj h
          exact nomatch hvalue
        case isFalse => exact nomatch h

end Passes

/-! ## The loop -/

section Loop

variable {δ : Type} {failure : Text} {creation : Except Text δ}

private theorem ask_unanswered {s : Console} (h : ¬Answered s.cin.rest) :
    ∃ t, ask failure creation s = .inr t ∧ ¬Answered t.cin.rest := by
  by_cases hgood : s.cin.good
  · cases hrest : s.cin.rest.dropWhile isspace with
    | nil =>
      obtain ⟨t, ht, hnil⟩ := ask_blank hgood hrest
      exact ⟨t, ht, hnil ▸ not_answered_nil⟩
    | cons c rest =>
      rw [answered_of_cons hrest] at h
      obtain ⟨hc, htail⟩ := not_or.mp h
      obtain ⟨hy, hn⟩ := not_or.mp hc
      obtain ⟨t, ht, hlater⟩ := ask_wrong hgood hrest hy hn
      exact ⟨t, ht, hlater ▸ htail⟩
  · obtain ⟨t, ht, hcin⟩ := ask_not_good (Bool.eq_false_iff.mpr hgood)
    exact ⟨t, ht, by rwa [hcin]⟩

/-- Twice the characters that are left, and one for a stream that is to be cleared first. -/
def waiting (s : Console) : Nat := 2 * s.cin.rest.length + if s.cin.good then 0 else 1

private theorem ask_answered {s : Console} (h : Answered s.cin.rest) :
    (∃ r, ask failure creation s = .inl r) ∨
      ∃ t, ask failure creation s = .inr t ∧ Answered t.cin.rest ∧ waiting t < waiting s := by
  by_cases hgood : s.cin.good
  · cases hrest : s.cin.rest.dropWhile isspace with
    | nil => exact absurd h (answered_of_blank hrest)
    | cons c rest =>
      by_cases hc : c = 'y' ∨ c = 'n'
      · exact Or.inl (ask_answer hgood hrest hc)
      · obtain ⟨hy, hn⟩ := not_or.mp hc
        obtain ⟨t, ht, hlater⟩ := ask_wrong hgood hrest hy hn
        have hshorter := length_tail_lt hrest
        refine Or.inr ⟨t, ht, ?_, ?_⟩
        · rw [hlater]
          exact ((answered_of_cons hrest).mp h).resolve_left hc
        · rw [waiting, waiting, hlater, if_pos hgood]
          split <;> omega
  · obtain ⟨t, ht, hcin⟩ := ask_not_good (Bool.eq_false_iff.mpr hgood)
    refine Or.inr ⟨t, ht, ?_, ?_⟩
    · rwa [hcin]
    · rw [waiting, waiting, hcin, if_pos (InputStream.good_ofText _), if_neg hgood]
      exact Nat.lt_succ_self _

private theorem questionLoop_returns_iff (s : Console) :
    (∃ passes reply, (questionLoop failure creation).within passes s = some reply) ↔
      Answered s.cin.rest := by
  constructor
  · rintro ⟨passes, reply, hreply⟩
    by_contra h
    exact Loop.not_ends_of_invariant (L := questionLoop failure creation)
      (I := fun s => ¬Answered s.cin.rest) (fun _ => ask_unanswered) h reply ⟨passes, hreply⟩
  · intro h
    obtain ⟨reply, passes, hreply⟩ := Loop.ends_of_variant (L := questionLoop failure creation)
      (I := fun s => Answered s.cin.rest) waiting (fun _ => ask_answered) h
    exact ⟨passes, reply, hreply⟩

theorem questionLoop_ends_iff (s : Console) :
    EndsAsAsked (fun passes => (questionLoop failure creation).within passes s) ↔
      Answered s.cin.rest := by
  rw [← @questionLoop_returns_iff δ failure creation]
  refine ⟨fun h => h.ends, fun h => ⟨h, fun passes reply hreply => ?_⟩⟩
  exact Loop.Ends.result (L := questionLoop failure creation)
    (P := fun r => r.value = true → r.answer = some 'y' ∧ r.created.isSome)
    (fun _ _ => ask_true) ⟨passes, hreply⟩

end Loop

/-- `Logger::open_file` with the question that it asks when there is no log directory. -/
def openFileAsking (fs : FileSystem) (service logDir : Text) (maxLogFileSize : Nat)
    (creation : Except Text (fs.NewDirectory logDir)) (s : Console) (passes : Nat) :
    Option Opening :=
  if (fs.lookup logDir).isSome then some (openFile fs service logDir maxLogFileSize none)
  else
    (createDirIfNotExist creation s passes).map fun reply =>
      openFile fs service logDir maxLogFileSize reply.created

/-- A logger comes to its log file exactly if there is a log directory or an answer to read. -/
theorem open_file_ends_iff (fs : FileSystem) (service logDir : Text) (maxLogFileSize : Nat)
    (creation : Except Text (fs.NewDirectory logDir)) (s : Console) :
    (∃ passes opening,
      openFileAsking fs service logDir maxLogFileSize creation s passes = some opening) ↔
      (fs.lookup logDir).isSome ∨ Answered s.cin.rest := by
  unfold openFileAsking
  by_cases hdir : (fs.lookup logDir).isSome
  · exact iff_of_true ⟨0, _, if_pos hdir⟩ (Or.inl hdir)
  · simp only [hdir, Bool.false_eq_true, false_or]
    have hreturns : (∃ passes reply, createDirIfNotExist creation s passes = some reply) ↔
        Answered s.cin.rest := questionLoop_returns_iff _
    rw [← hreturns]
    refine exists_congr fun passes => ⟨?_, ?_⟩
    · rintro ⟨opening, hopening⟩
      obtain ⟨reply, hreply, -⟩ := Option.map_eq_some_iff.mp hopening
      exact ⟨reply, hreply⟩
    · rintro ⟨reply, hreply⟩
      exact ⟨_, Option.map_eq_some_iff.mpr ⟨reply, hreply, rfl⟩⟩

end PetProject.Logger
