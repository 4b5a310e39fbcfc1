import Mathlib.Algebra.GroupWithZero.Nat
import Mathlib.Data.List.Basic
import Mathlib.Order.Bounds.Basic

/-!
# Columns

Lines in which each cell but the last is padded to the width of its column, so that the cells of a
column begin at the same offset in every line.
-/

namespace Framework

/-- A difference of unsigned numbers; `none` where it would wrap around. -/
def difference (m n : Nat) : Option Nat := if n ≤ m then some (m - n) else none

theorem difference_eq_some {m n : Nat} (h : n ≤ m) : difference m n = some (m - n) := if_pos h

variable {α : Type*}

/-- Each cell starts at the offset of its column. Up to the next one it is followed by blanks only,
of which there are at least `gap`; the last one ends the line. -/
structure Aligned (blank : α) (gap : Nat) (offset : Nat → Nat) (cells : List (List α))
    (line : List α) : Prop where
  start : offset 0 = 0
  padded : ∀ j cell, j + 1 < cells.length → cells[j]? = some cell → ∃ pad, gap ≤ pad ∧
    offset (j + 1) = offset j + (cell.length + pad) ∧
    line.drop (offset j) = cell ++ (List.replicate pad blank ++ line.drop (offset (j + 1)))
  last : ∀ j cell, j + 1 = cells.length → cells[j]? = some cell → line.drop (offset j) = cell

def padCell (blank : α) (width : Nat) (cell : List α) : List α :=
  cell ++ List.replicate (width - cell.length) blank

theorem length_padCell (blank : α) {width : Nat} {cell : List α} (h : cell.length ≤ width) :
    (padCell blank width cell).length = width := by
  rw [padCell, List.length_append, List.length_replicate, Nat.add_sub_cancel' h]

theorem drop_padCell_append (blank : α) {width : Nat} {cell : List α} (h : cell.length ≤ width)
    (line : List α) (n : Nat) : (padCell blank width cell ++ line).drop (width + n) = line.drop n := by
  rw [← List.drop_drop]
  congr 1
  exact List.drop_left' (length_padCell blank h)

theorem aligned_singleton (blank : α) (gap : Nat) (offset : Nat → Nat) (hstart : offset 0 = 0)
    (cell : List α) : Aligned blank gap offset [cell] cell where
  start := hstart
  padded j _ hj _ := absurd hj (by simp)
  last j last hj hlast := by
    obtain rfl : j = 0 := by simpa using hj
    rw [hstart, List.drop_zero]
    exact Option.some.inj hlast

theorem Aligned.cons {blank : α} {gap width : Nat} {offset offset' : Nat → Nat} {cell line : List α}
    {cells : List (List α)} (h : Aligned blank gap offset cells line) (hcells : cells ≠ [])
    (hwidth : cell.length + gap ≤ width) (hstart : offset' 0 = 0)
    (hsucc : ∀ j, offset' (j + 1) = width + offset j) :
    Aligned blank gap offset' (cell :: cells) (padCell blank width cell ++ line) where
  start := hstart
  padded j c hj hc := by
    have hle : cell.length ≤ width := by omega
    cases j with
    | zero =>
      obtain rfl : cell = c := Option.some.inj hc
      refine ⟨width - cell.length, by omega, by rw [hsucc, hstart, h.start]; omega, ?_⟩
      rw [hsucc, drop_padCell_append blank hle, hstart, h.start, List.drop_zero, List.drop_zero,
        padCell, List.append_assoc]
    | succ j =>
      obtain ⟨pad, hpad, hoffset, hdrop⟩ := h.padded j c (Nat.lt_of_succ_lt_succ hj) hc
      refine ⟨pad, hpad, by rw [hsucc, hsucc, hoffset]; omega, ?_⟩
      rw [hsucc, hsucc, drop_padCell_append blank hle, drop_padCell_append blank hle, hdrop]
  last j c hj hc := by
    cases j with
    | zero => exact absurd (List.length_eq_zero_iff.mp (Nat.succ.inj hj).symm) hcells
    | succ j =>
      rw [hsucc, drop_padCell_append blank (by omega)]
      exact h.last j c (Nat.succ.inj hj) hc

/-- Where a column begins, behind columns of the given widths. -/
def columnOffset (width : Nat → Nat) (j : Nat) : Nat := ((List.range j).map width).sum

theorem columnOffset_succ (width : Nat → Nat) (j : Nat) :
    columnOffset width (j + 1) = width 0 + columnOffset (fun i => width (i + 1)) j := by
  rw [columnOffset, List.range_succ_eq_map, List.map_cons, List.sum_cons, List.map_map]
  rfl

/-- Cells that leave room for the gap are aligned when they are padded to the widths. -/
theorem aligned_padded (blank : α) {gap : Nat} {width : Nat → Nat} {cells : List (List α)}
    (hwidth : ∀ j cell, cells[j]? = some cell → cell.length + gap ≤ width j) (last : List α) :
    Aligned blank gap (columnOffset width) (cells ++ [last])
      ((cells.mapIdx fun j => padCell blank (width j)).flatten ++ last) := by
  induction cells generalizing width with
  | nil => exact aligned_singleton blank gap _ rfl last
  | cons cell cells ih =>
    rw [List.mapIdx_cons, List.flatten_cons, List.append_assoc]
    refine (ih fun j c hc => hwidth (j + 1) c hc).cons (by simp) (hwidth 0 cell rfl) rfl ?_
    exact columnOffset_succ width

/-! ## The widest cell -/

theorem isGreatest_foldl_max {β : Type*} (width : β → Nat) (rows : List β) (n : Nat) :
    IsGreatest (insert n {m | ∃ row ∈ rows, m = width row})
      (rows.foldl (fun widest row => max widest (width row)) n) := by
  induction rows generalizing n with
  | nil => simp [IsGreatest, upperBounds]
  | cons row rows ih =>
    obtain ⟨hmem, hupper⟩ := ih (max n (width row))
    rw [List.foldl_cons]
    have hfirst := hupper (Set.mem_insert _ _)
    constructor
    · rcases Set.mem_insert_iff.mp hmem with hmax | ⟨other, hother, heq⟩
      · rw [hmax]
        rcases le_total n (width row) with hle | hle
        · rw [max_eq_right hle]
          exact Or.inr ⟨row, List.mem_cons_self, rfl⟩
        · rw [max_eq_left hle]
          exact Or.inl rfl
      · exact Or.inr ⟨other, List.mem_cons_of_mem row hother, heq⟩
    · rintro m (rfl | ⟨other, hother, rfl⟩)
      · exact (le_max_left _ _).trans hfirst
      · rcases List.mem_cons.mp hother with rfl | hother
        · exact (le_max_right _ _).trans hfirst
        · exact hupper (Or.inr ⟨other, hother, rfl⟩)

theorem isGreatest_width {β : Type*} (width : β → Nat) {rows : List β} (hrows : rows ≠ []) :
    IsGreatest {m | ∃ row ∈ rows, m = width row}
      (rows.foldl (fun widest row => max widest (width row)) 0) := by
  obtain ⟨hmem, hupper⟩ := isGreatest_foldl_max width rows 0
  refine ⟨?_, fun m hm => hupper (Or.inr hm)⟩
  rcases Set.mem_insert_iff.mp hmem with hzero | hmem
  · obtain ⟨row, hrow⟩ := List.exists_mem_of_ne_nil rows hrows
    have hle := hupper (Or.inr ⟨row, hrow, rfl⟩)
    exact ⟨row, hrow, by omega⟩
  · exact hmem

end Framework
