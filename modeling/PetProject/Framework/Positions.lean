import Mathlib.Data.List.TakeDrop
import PetProject.Framework.SqlText

/-!
# Positions in a text

Searching a text and cutting pieces out of it as `std::string_view` does, with positions among
which `npos` says that nothing was found. Behind the text lies its NUL, which may be read; nothing
beyond it may.
-/

namespace Framework

/-- A position in a text; `none` is `npos`, the largest number. -/
abbrev Position := Option Nat

/-- Adding to a position; `npos` wraps around. -/
def advance (n : Nat) : Position → Nat
  | none => n - 1
  | some i => i + n

/-- `find` of one character, from the given position on. -/
def findFrom (c : Char) (s : Text) (pos : Nat) : Position :=
  ((s.drop pos).findIdx? (· = c)).map (pos + ·)

/-- `find_last_of` for one character. -/
def findLastOf (c : Char) (s : Text) : Position :=
  (s.reverse.findIdx? (· = c)).map fun i => s.length - 1 - i

/-- `substr(pos, stop - pos)`; `none` when `pos` is behind the end. A count from `npos` on is at
least what is left of the text. -/
def substrTo (s : Text) (pos : Nat) (stop : Position) : Option Text :=
  if pos ≤ s.length then some ((s.drop pos).take (stop.elim s.length (· - pos))) else none

/-- The character at a position of the text or of its NUL. -/
def charAt (s : Text) (pos : Nat) : Option Char := (s ++ ['\x00'])[pos]?

/-- The text that a pointer to its first character stands for. -/
def cText (s : Text) : Text := s.takeWhile (· ≠ '\x00')

theorem cText_append {s : Text} (hs : '\x00' ∉ s) (t : Text) : cText (s ++ t) = s ++ cText t := by
  apply List.takeWhile_append_of_pos
  intro c hc
  simp only [ne_eq, decide_eq_true_eq]
  rintro rfl
  exact hs hc

theorem cText_eq_self {s : Text} (hs : '\x00' ∉ s) : cText s = s := by
  simpa [cText] using cText_append hs []

theorem nul_notMem_cText (s : Text) : '\x00' ∉ cText s := by
  intro h
  simpa using List.all_eq_true.mp List.all_takeWhile _ h

theorem findFrom_eq_none_iff {c : Char} {s : Text} {pos : Nat} :
    findFrom c s pos = none ↔ c ∉ s.drop pos := by
  rw [findFrom, Option.map_eq_none_iff, List.findIdx?_eq_none_iff]
  constructor
  · intro h hc
    simpa using h c hc
  · intro h d hd
    simp only [decide_eq_false_iff_not]
    rintro rfl
    exact h hd

theorem findFrom_bounds {c : Char} {s : Text} {pos stop : Nat} (h : findFrom c s pos = some stop) :
    pos ≤ stop ∧ stop < s.length := by
  obtain ⟨i, hi, rfl⟩ := Option.map_eq_some_iff.mp h
  obtain ⟨hlt, -⟩ := List.findIdx?_eq_some_iff_getElem.mp hi
  rw [List.length_drop] at hlt
  omega

theorem findFrom_of_drop {c : Char} {s u v : Text} {pos : Nat} (h : s.drop pos = u ++ c :: v)
    (hu : c ∉ u) : findFrom c s pos = some (pos + u.length) := by
  have hfirst : ∀ d ∈ u, decide (d = c) = false := by
    intro d hd
    simp only [decide_eq_false_iff_not]
    rintro rfl
    exact hu hd
  rw [findFrom, h, List.findIdx?_append, List.findIdx?_eq_none_iff.mpr hfirst, Option.none_or,
    List.findIdx?_cons]
  simp

theorem findLastOf_eq_none_iff {c : Char} {s : Text} : findLastOf c s = none ↔ c ∉ s := by
  rw [findLastOf, Option.map_eq_none_iff, List.findIdx?_eq_none_iff]
  simp only [List.mem_reverse, decide_eq_false_iff_not]
  exact ⟨fun h hc => h c hc rfl, fun h d hd hdc => h (hdc ▸ hd)⟩

theorem exists_last_of_mem {c : Char} {s : Text} (h : c ∈ s) :
    ∃ u v, s = u ++ c :: v ∧ c ∉ v := by
  obtain ⟨v, u, hsplit, hv⟩ := List.eq_append_cons_of_mem (List.mem_reverse.mpr h)
  refine ⟨u.reverse, v.reverse, ?_, by rwa [List.mem_reverse]⟩
  rw [← List.reverse_reverse s, hsplit, List.reverse_append, List.reverse_cons, List.append_assoc,
    List.singleton_append]

theorem findLastOf_append {c : Char} (u : Text) {v : Text} (hv : c ∉ v) :
    findLastOf c (u ++ c :: v) = some u.length := by
  have hlast : findFrom c (u ++ c :: v).reverse 0 = some (0 + v.reverse.length) :=
    findFrom_of_drop (v := u.reverse) (by simp) (by simpa using hv)
  rw [findFrom, List.drop_zero, List.length_reverse] at hlast
  obtain ⟨i, hi, heq⟩ := Option.map_eq_some_iff.mp hlast
  obtain rfl : i = v.length := by omega
  rw [findLastOf, hi, Option.map_some, List.length_append, List.length_cons]
  exact congrArg some (by omega)

end Framework
