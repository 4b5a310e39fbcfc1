import Mathlib.Order.Monotone.Defs
import PetProject.Framework.Columns
import PetProject.Handler.ServerDirHandler

/-!
# The listing of a folder

`Server_dir_handler::forming_files_table` with its differences of unsigned numbers, none of which
wraps around: a position has no more digits than the number of files.
-/

namespace PetProject.Handler

open Framework Database

namespace ServerDirHandler

/-- The loop of `forming_files_table`, from a position on. -/
def filesTableLines (maxLengthFirstColumn : Nat) : Nat → List Text → Option Text
  | _, [] => some []
  | pos, name :: names =>
    (difference maxLengthFirstColumn (numberOfDigits pos)).bind fun numSpaces =>
      (filesTableLines maxLengthFirstColumn (pos + 1) names).map fun lines =>
        decimal pos ++ List.replicate (numSpaces + 1) ' ' ++ name ++ ['\n'] ++ lines

/-- `forming_files_table`; `none` when the number of spaces would wrap around. -/
def formingFilesTableChecked (entries : List DirEntry) : Option Text :=
  let fileNames := fileNames entries
  let maxLengthFirstColumn := max (numberOfDigits fileNames.length) 3
  (difference maxLengthFirstColumn 3).bind fun numSpaces =>
    (filesTableLines maxLengthFirstColumn 1 fileNames).map fun lines =>
      "Pos".toList ++ List.replicate (numSpaces + 1) ' ' ++ "File name\n".toList ++ lines

/-! ## Digits -/

private theorem numberOfDigits_eq (m : Nat) : numberOfDigits m = (decimal m).length := by
  fun_induction numberOfDigits m with
  | case1 m hdigit =>
    rw [decimal, Nat.toDigits_of_lt_base (by omega), List.length_singleton]
  | case2 m hmore ih =>
    rw [decimal, Nat.toDigits_of_base_le (by decide) (by omega), List.length_append,
      List.length_singleton, ih, decimal, Nat.add_comm]

private theorem monotone_numberOfDigits : Monotone numberOfDigits := by
  intro m n hmn
  rw [numberOfDigits_eq, numberOfDigits_eq, decimal, decimal]
  have hpos : 0 < (Nat.toDigits 10 n).length := Nat.length_toDigits_pos
  have hn : n < 10 ^ (Nat.toDigits 10 n).length :=
    (Nat.length_toDigits_le_iff (by decide) hpos).mp Nat.le.refl
  exact (Nat.length_toDigits_le_iff (by decide) hpos).mpr (Nat.lt_of_le_of_lt hmn hn)

/-! ## Lines -/

/-- A line that ends in a newline, and has its second cell at the given offset. -/
def LineAt (offset : Nat) (cell name line : Text) : Prop :=
  ∃ record, line = record ++ ['\n'] ∧ Aligned ' ' 1 (· * offset) [cell, name] record

private theorem lineAt {width : Nat} {cell : Text} (h : cell.length ≤ width) (name : Text) :
    LineAt (width + 1) cell name
      (cell ++ List.replicate (width - cell.length + 1) ' ' ++ name ++ ['\n']) := by
  refine ⟨_, rfl, ?_⟩
  have hpad : cell ++ List.replicate (width - cell.length + 1) ' ' = padCell ' ' (width + 1) cell := by
    rw [padCell, show width + 1 - cell.length = width - cell.length + 1 by omega]
  rw [hpad]
  have hname := aligned_singleton ' ' 1 (· * (width + 1)) (Nat.zero_mul _) name
  refine hname.cons (List.cons_ne_nil _ _) (Nat.add_le_add_right h 1) (Nat.zero_mul _) fun j => ?_
  rw [Nat.succ_mul, Nat.add_comm]

def filesTableHeader (maxLengthFirstColumn : Nat) : Text :=
  "Pos".toList ++ List.replicate (maxLengthFirstColumn - 3 + 1) ' ' ++ "File name\n".toList

/-- The line of a name, with its index. -/
def filesTableLine (maxLengthFirstColumn : Nat) (name : Text × Nat) : Text :=
  let pos := name.2 + 1
  decimal pos ++ List.replicate (maxLengthFirstColumn - numberOfDigits pos + 1) ' ' ++ name.1 ++ ['\n']

private theorem formingFilesTable_eq (entries : List DirEntry) :
    formingFilesTable entries =
      let width := max (numberOfDigits (fileNames entries).length) 3
      filesTableHeader width ++ ((fileNames entries).zipIdx.map (filesTableLine width)).flatten := by
  dsimp only
  rw [← List.flatMap_def]
  rfl

private theorem lineAt_filesTableHeader {width : Nat} (h : 3 ≤ width) :
    LineAt (width + 1) "Pos".toList "File name".toList (filesTableHeader width) := by
  have hnewline : "File name\n".toList = "File name".toList ++ ['\n'] := by decide
  rw [filesTableHeader, hnewline, ← List.append_assoc]
  exact lineAt h "File name".toList

private theorem lineAt_filesTableLine {width i : Nat} (h : numberOfDigits (i + 1) ≤ width) (name : Text) :
    LineAt (width + 1) (decimal (i + 1)) name (filesTableLine width (name, i)) := by
  rw [filesTableLine, numberOfDigits_eq]
  exact lineAt (numberOfDigits_eq (i + 1) ▸ h) name

private theorem filesTableLines_eq {width : Nat} (k : Nat) {names : List Text}
    (h : ∀ i < names.length, numberOfDigits (k + i + 1) ≤ width) :
    filesTableLines width (k + 1) names =
      some ((names.zipIdx k).flatMap (filesTableLine width)) := by
  induction names generalizing k with
  | nil => rfl
  | cons name names ih =>
    have hfirst : numberOfDigits (k + 1) ≤ width := h 0 (Nat.zero_lt_succ _)
    have hrest := ih (k + 1) fun i hi => by
      rw [Nat.add_right_comm k]
      exact h (i + 1) (Nat.succ_lt_succ hi)
    rw [filesTableLines, difference_eq_some hfirst, Option.bind_some, hrest]
    rfl

private theorem numberOfDigits_le_width {names : List Text} {i : Nat} (hi : i < names.length) :
    numberOfDigits (i + 1) ≤ max (numberOfDigits names.length) 3 :=
  Nat.le_trans (monotone_numberOfDigits hi) (Nat.le_max_left _ _)

private theorem formingFilesTableChecked_eq (entries : List DirEntry) :
    formingFilesTableChecked entries = some (formingFilesTable entries) := by
  have hwidth : ∀ i < (fileNames entries).length,
      numberOfDigits (0 + i + 1) ≤ max (numberOfDigits (fileNames entries).length) 3 := by
    intro i hi
    rw [Nat.zero_add]
    exact numberOfDigits_le_width hi
  have hlines := filesTableLines_eq 0 hwidth
  rw [formingFilesTableChecked, difference_eq_some (Nat.le_max_right _ _), Option.bind_some, hlines]
  rfl

/-- The listing is a header and a line for each name, with the names in one column that leaves room
for the largest position; no difference wraps around. -/
theorem files_table_aligned :
    (∀ m, numberOfDigits m = (decimal m).length) ∧ Monotone numberOfDigits ∧
    ∀ entries : List DirEntry,
      formingFilesTableChecked entries = some (formingFilesTable entries) ∧
      ∃ (header : Text) (lines : List Text),
        let names := fileNames entries
        let offset := max (decimal names.length).length 3 + 1
        formingFilesTable entries = header ++ lines.flatten ∧
        LineAt offset "Pos".toList "File name".toList header ∧ lines.length = names.length ∧
        ∀ i name, names[i]? = some name → ∃ line, lines[i]? = some line ∧
          LineAt offset (decimal (i + 1)) name line := by
  refine ⟨numberOfDigits_eq, monotone_numberOfDigits, fun entries =>
    ⟨formingFilesTableChecked_eq entries, ?_⟩⟩
  have hwidth : 3 ≤ max (numberOfDigits (fileNames entries).length) 3 := Nat.le_max_right _ _
  rw [formingFilesTable_eq]
  dsimp only
  rw [← numberOfDigits_eq]
  refine ⟨_, _, rfl, lineAt_filesTableHeader hwidth, ?_, fun i name hname => ?_⟩
  · rw [List.length_map, List.length_zipIdx]
  · obtain ⟨hi, -⟩ := List.getElem?_eq_some_iff.mp hname
    refine ⟨_, ?_, lineAt_filesTableLine (numberOfDigits_le_width hi) name⟩
    rw [List.getElem?_map, List.getElem?_zipIdx, hname, Nat.zero_add]
    rfl

end ServerDirHandler

end PetProject.Handler
