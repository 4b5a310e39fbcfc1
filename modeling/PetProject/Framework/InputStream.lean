import Mathlib.Data.List.Basic
import Mathlib.Data.List.TakeWhile
import Mathlib.Logic.Function.Basic
import PetProject.Framework.SqlText

/-!
# Reading a stream of characters

`std::istream` over a finite input. An extraction at the end of the input, or from a stream that is
not good, fails and sets bits that later extractions respect until they are cleared.
-/

namespace Framework

/-- `std::isspace` in the "C" locale. -/
def isspace (c : Char) : Bool := c = ' ' || (9 ≤ c.toNat && c.toNat ≤ 13)

/-- What is left of the input, and the three bits of `rdstate()`. -/
structure InputStream where
  rest : Text
  eofbit : Bool
  failbit : Bool
  badbit : Bool
  deriving DecidableEq

namespace InputStream

def ofText (input : Text) : InputStream := ⟨input, false, false, false⟩

def good (s : InputStream) : Bool := !s.eofbit && !s.failbit && !s.badbit

def clear (s : InputStream) : InputStream := ⟨s.rest, false, false, false⟩

/-- `rdstate() == std::ios_base::badbit`. -/
def onlyBad (s : InputStream) : Bool := s.badbit && !s.eofbit && !s.failbit

/-- `operator>>` for a character: white space is skipped. -/
def extract (s : InputStream) : Option Char × InputStream :=
  if s.good then
    match s.rest.dropWhile isspace with
    | [] => (none, { s with rest := [], eofbit := true, failbit := true })
    | c :: rest => (some c, { s with rest := rest })
  else (none, { s with failbit := true })

/-- `get()`. -/
def get (s : InputStream) : Option Char × InputStream :=
  if s.good then
    match s.rest with
    | [] => (none, { s with eofbit := true, failbit := true })
    | c :: rest => (some c, { s with rest := rest })
  else (none, { s with failbit := true })

/-- `std::getline` into a string, which keeps what it holds when the stream is not good. -/
def getline (s : InputStream) (held : Text) : Text × InputStream :=
  if s.good then
    match s.rest.dropWhile (· ≠ '\n') with
    | [] => (s.rest, { s with rest := [], eofbit := true, failbit := s.rest.isEmpty })
    | _ :: rest => (s.rest.takeWhile (· ≠ '\n'), { s with rest := rest })
  else (held, { s with failbit := true })

/-- The lines that `getline` can still take from the stream. -/
def lines (s : InputStream) : List Text := if s.good then s.rest.splitOn '\n' else []

theorem good_ofText (input : Text) : (ofText input).good = true := rfl

theorem good_iff {s : InputStream} : s.good = true ↔ s = ofText s.rest := by
  obtain ⟨rest, eof, fail, bad⟩ := s
  cases eof <;> cases fail <;> cases bad <;> simp [good, ofText]

theorem extract_of_not_good {s : InputStream} (h : s.good = false) :
    s.extract = (none, { s with failbit := true }) := by
  rw [extract, h]
  rfl

theorem extract_of_blank {input : Text} (h : input.dropWhile isspace = []) :
    (ofText input).extract = (none, ⟨[], true, true, false⟩) := by
  rw [extract, if_pos (good_ofText input)]
  simp only [ofText, h]

theorem extract_of_cons {input rest : Text} {c : Char}
    (h : input.dropWhile isspace = c :: rest) :
    (ofText input).extract = (some c, ofText rest) := by
  rw [extract, if_pos (good_ofText input)]
  simp only [ofText, h]

theorem get_ofText (input : Text) :
    (ofText input).get.2.rest = input.tail ∧ (ofText input).get.2.onlyBad = false := by
  cases input <;> exact ⟨rfl, rfl⟩

theorem lines_ofText (input : Text) : (ofText input).lines = input.splitOn '\n' :=
  if_pos (good_ofText input)

theorem getline_last {line : Text} (h : '\n' ∉ line) (held : Text) :
    (ofText line).getline held = (line, ⟨[], true, line.isEmpty, false⟩) := by
  have hdrop : line.dropWhile (· ≠ '\n') = [] := by
    refine List.dropWhile_eq_nil_iff.mpr fun c hc => decide_eq_true ?_
    rintro rfl
    exact h hc
  rw [getline, if_pos (good_ofText line)]
  simp only [ofText, hdrop]

theorem getline_line {line : Text} (h : '\n' ∉ line) (rest held : Text) :
    (ofText (line ++ '\n' :: rest)).getline held = (line, ofText rest) := by
  have hline : ∀ c ∈ line, decide (c ≠ '\n') = true := by
    refine fun c hc => decide_eq_true ?_
    rintro rfl
    exact h hc
  have hdrop : (line ++ '\n' :: rest).dropWhile (· ≠ '\n') = '\n' :: rest := by
    rw [List.dropWhile_append_of_pos hline]
    rfl
  have htake : (line ++ '\n' :: rest).takeWhile (· ≠ '\n') = line := by
    rw [List.takeWhile_append_of_pos hline, List.takeWhile_cons_of_neg (by simp),
      List.append_nil]
  rw [getline, if_pos (good_ofText _)]
  simp only [ofText, hdrop, htake]

theorem getline_eq (s : InputStream) (held : Text) :
    (s.getline held).1 = s.lines.headD held ∧ (s.getline held).2.lines = s.lines.tail := by
  by_cases hgood : s.good
  · obtain hs : s = ofText s.rest := good_iff.mp hgood
    rw [hs, lines_ofText]
    by_cases hline : '\n' ∈ s.rest
    · obtain ⟨line, rest, heq, hline⟩ := List.eq_append_cons_of_mem hline
      rw [heq, getline_line hline, List.splitOn_append_cons_self_of_not_mem hline]
      exact ⟨rfl, lines_ofText rest⟩
    · rw [getline_last hline, List.splitOn_eq_singleton hline]
      exact ⟨rfl, rfl⟩
  · rw [getline, lines, if_neg hgood, if_neg hgood]
    exact ⟨rfl, if_neg (by simp [good])⟩

end InputStream

/-! ## Readers that keep their last line -/

section Readers

variable {κ : Type*} [DecidableEq κ] {lines : List Text} {callers : List κ}

/-- The last of the lines that went to a caller, when each call takes the next line. -/
def lastLine (lines : List Text) (callers : List κ) (c : κ) : Text :=
  (((callers.zip lines).filter fun p => p.1 = c).map Prod.snd).getLastD []

/-- Every answer is the next line, and behind the last line the one that its caller got last. -/
def InTurn (lines : List Text) (answers : List (κ × Text)) : Prop :=
  ∀ (k : Nat) (c : κ) (text : Text), answers[k]? = some (c, text) →
    text = lines[k]?.getD (lastLine lines (answers.map Prod.fst) c)

/-- The stream and the kept lines behind some calls. -/
structure Read (lines : List Text) (callers : List κ) (s : InputStream) (held : κ → Text) :
    Prop where
  rest : s.lines = lines.drop callers.length
  held : ∀ c, held c = lastLine lines callers c

omit [DecidableEq κ] in
private theorem zip_append_singleton (callers : List κ) (lines : List Text) (c : κ) :
    (callers ++ [c]).zip lines =
      callers.zip lines ++ (lines[callers.length]?.map fun line => (c, line)).toList := by
  induction callers generalizing lines with
  | nil => cases lines <;> rfl
  | cons d callers ih =>
    cases lines with
    | nil => rfl
    | cons line lines => simp [ih]

theorem lastLine_append_self (lines : List Text) (callers : List κ) (c : κ) :
    lastLine lines (callers ++ [c]) c = lines[callers.length]?.getD (lastLine lines callers c) := by
  rw [lastLine, zip_append_singleton]
  cases lines[callers.length]? with
  | none => simp [lastLine]
  | some line => simp

theorem lastLine_append_of_ne (lines : List Text) (callers : List κ) {c d : κ} (h : d ≠ c) :
    lastLine lines (callers ++ [c]) d = lastLine lines callers d := by
  rw [lastLine, zip_append_singleton, lastLine]
  cases lines[callers.length]? with
  | none => simp
  | some line => simp [h.symm]

theorem lastLine_append_of_le (h : lines.length ≤ callers.length) (c d : κ) :
    lastLine lines (callers ++ [c]) d = lastLine lines callers d := by
  rw [lastLine, zip_append_singleton, List.getElem?_eq_none h, lastLine]
  simp

theorem Read.getline {s : InputStream} {held : κ → Text} (h : Read lines callers s held)
    (c : κ) : Read lines (callers ++ [c]) (s.getline (held c)).2
      (Function.update held c (s.getline (held c)).1) := by
  obtain ⟨htext, hrest⟩ := s.getline_eq (held c)
  constructor
  · rw [hrest, h.rest, List.tail_drop, List.length_append, List.length_singleton]
  · intro d
    by_cases hd : d = c
    · subst hd
      rw [Function.update_self, htext, h.rest, lastLine_append_self, ← h.held,
        List.headD_eq_head?_getD, List.head?_drop]
    · rw [Function.update_of_ne hd, lastLine_append_of_ne lines callers hd, h.held]

theorem InTurn.append {answers : List (κ × Text)} (h : InTurn lines answers) (c : κ) :
    InTurn lines (answers ++ [(c, lastLine lines (answers.map Prod.fst ++ [c]) c)]) := by
  intro k d text hk
  rw [List.map_append, List.map_singleton]
  rcases lt_trichotomy k answers.length with hlt | rfl | hgt
  · rw [List.getElem?_append_left hlt] at hk
    rw [h k d text hk]
    cases hline : lines[k]? with
    | some line => rfl
    | none =>
      have hlen : lines.length ≤ (answers.map Prod.fst).length := by
        have := List.getElem?_eq_none_iff.mp hline
        rw [List.length_map]
        omega
      rw [lastLine_append_of_le hlen]
  · obtain ⟨rfl, rfl⟩ : c = d ∧ lastLine lines (answers.map Prod.fst ++ [c]) c = text := by
      simpa using hk
    rw [lastLine_append_self, List.length_map]
    cases hline : lines[answers.length]? with
    | some line => rfl
    | none => rfl
  · rw [List.getElem?_eq_none (by simpa [Nat.succ_le_iff] using hgt)] at hk
    cases hk

end Readers

end Framework
