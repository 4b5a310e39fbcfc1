import PetProject.DbModule.ResultContainer
import PetProject.Framework.Columns
import PetProject.Handler.Answers

/-!
# Tables as text

`Server_HTTP_handler::forming_tables_helper` on the container of a result, with its differences of
unsigned numbers, none of which wraps around: the width of a column is taken over all of its rows.
-/

namespace PetProject.Handler

open Framework DbModule

/-- `vec_max_len` of one column; `none` when a row has no such cell. -/
def maxLength (container : List (List Cell)) (i : Nat) : Option Nat :=
  container.foldlM (fun longest row => row[i]?.map fun cell => max longest cell.2) 0

/-- One record: the cells of all columns but the last are padded. -/
def tableRecord (vecMaxLen : List Nat) (row : List Cell) : Option Text :=
  let padded := vecMaxLen.zipIdx.mapM fun column =>
    row[column.2]?.bind fun cell => (difference column.1 cell.2).map fun numSpaces =>
      cell.1 ++ List.replicate (numSpaces + 2) ' '
  padded.bind fun cells => row[vecMaxLen.length]?.map fun last => cells.flatten ++ last.1 ++ ['\n']

/-- `forming_tables_helper`; `none` when a difference would wrap around or a cell is not there. -/
def formingTablesHelperChecked (container : List (List Cell)) (info : ReqInfo) : Option ReqInfo :=
  container.head?.bind fun header => (difference header.length 1).bind fun nColumns =>
    ((List.range nColumns).mapM (maxLength container)).bind fun vecMaxLen =>
      container.foldlM (fun info row => (tableRecord vecMaxLen row).map fun record =>
        { info with result := info.result ++ record }) info

/-! ## Loops that do not fail -/

private theorem foldlM_eq_some {σ α : Type*} {f : σ → α → Option σ} {g : σ → α → σ} {l : List α}
    (h : ∀ a ∈ l, ∀ s, f s a = some (g s a)) (s : σ) : l.foldlM f s = some (l.foldl g s) := by
  induction l generalizing s with
  | nil => rfl
  | cons a l ih =>
    obtain ⟨ha, hl⟩ := List.forall_mem_cons.mp h
    rw [List.foldlM_cons, ha, List.foldl_cons]
    exact ih hl (g s a)

private theorem mapM_eq_some {α β : Type*} {f : α → Option β} {g : α → β} {l : List α}
    (h : ∀ a ∈ l, f a = some (g a)) : l.mapM f = some (l.map g) := by
  induction l with
  | nil => rfl
  | cons a l ih =>
    obtain ⟨ha, hl⟩ := List.forall_mem_cons.mp h
    rw [List.mapM_cons, ha, ih hl]
    rfl

/-! ## Rows of one length -/

private theorem getElem?_map_cell {row : List Text} {i : Nat} (h : i < row.length) :
    (row.map cell)[i]? = some (cell (row.getD i [])) := by
  rw [List.getElem?_map, List.getD_eq_getElem?_getD, List.getElem?_eq_getElem h]
  rfl

private theorem maxLength_eq {table : List (List Text)} {i : Nat} (h : ∀ row ∈ table, i < row.length) :
    maxLength (table.map (List.map cell)) i = some (columnWidth table i) := by
  rw [maxLength, List.foldlM_map]
  refine foldlM_eq_some (fun row hrow longest => ?_) 0
  rw [getElem?_map_cell (h row hrow)]
  rfl

private theorem isGreatest_columnWidth {table : List (List Text)} (h : table ≠ []) (i : Nat) :
    IsGreatest {n | ∃ row ∈ table, n = (row.getD i []).length} (columnWidth table i) :=
  isGreatest_width (fun row => (row.getD i []).length) h

private theorem length_le_columnWidth {table : List (List Text)} {row : List Text} (hrow : row ∈ table)
    (j : Nat) : (row.getD j []).length ≤ columnWidth table j :=
  (isGreatest_columnWidth (List.ne_nil_of_mem hrow) j).2 ⟨row, hrow, rfl⟩

private theorem tableRecord_eq {widths : List Nat} {row : List Text} (hrow : row.length = widths.length + 1)
    (hwidths : ∀ j width, widths[j]? = some width → (row.getD j []).length ≤ width) :
    tableRecord widths (row.map cell) = some (tableLine widths row) := by
  have hpadded : (widths.zipIdx.mapM fun column =>
      (row.map cell)[column.2]?.bind fun cell => (difference column.1 cell.2).map fun numSpaces =>
        cell.1 ++ List.replicate (numSpaces + 2) ' ') =
      some (widths.zipIdx.map fun column => row.getD column.2 [] ++
        List.replicate (column.1 - (row.getD column.2 []).length + 2) ' ') := by
    refine mapM_eq_some fun column hcolumn => ?_
    have hget := List.mem_zipIdx_iff_getElem?.mp hcolumn
    obtain ⟨hlt, -⟩ := List.getElem?_eq_some_iff.mp hget
    rw [getElem?_map_cell (by omega), Option.bind_some,
      cell, difference_eq_some (hwidths column.2 column.1 hget)]
    rfl
  rw [tableRecord, hpadded, Option.bind_some, getElem?_map_cell (by omega), Option.map_some,
    ← List.flatMap_def]
  rfl

private theorem foldl_append_result (f : List Text → Text) (table : List (List Text)) (info : ReqInfo) :
    table.foldl (fun info row => { info with result := info.result ++ f row }) info =
      { info with result := info.result ++ table.flatMap f } := by
  induction table generalizing info with
  | nil => rw [List.flatMap_nil, List.append_nil]; rfl
  | cons row table ih => rw [List.foldl_cons, ih, List.flatMap_cons, List.append_assoc]

private theorem length_le_of_getElem?_widths {table : List (List Text)} {row : List Text}
    (hrow : row ∈ table) {n j width : Nat}
    (hwidth : ((List.range n).map (columnWidth table))[j]? = some width) :
    (row.getD j []).length ≤ width := by
  rw [List.getElem?_map, Option.map_eq_some_iff] at hwidth
  obtain ⟨i, hi, rfl⟩ := hwidth
  obtain ⟨-, rfl⟩ := List.getElem?_eq_some_iff.mp hi
  rw [List.getElem_range]
  exact length_le_columnWidth hrow j

private theorem formingTablesHelperChecked_eq {table : List (List Text)} {n : Nat} (hne : table ≠ [])
    (hlength : ∀ row ∈ table, row.length = n + 1) (info : ReqInfo) :
    formingTablesHelperChecked (table.map (List.map cell)) info =
      some { info with
        result := info.result ++
          (table.map (tableLine ((List.range n).map (columnWidth table)))).flatten } := by
  have hhead : (table.map (List.map cell)).head?.map List.length = some (n + 1) := by
    obtain ⟨header, rest, rfl⟩ := List.exists_cons_of_ne_nil hne
    rw [List.map_cons, List.head?_cons, Option.map_some, List.length_map,
      hlength header List.mem_cons_self]
  obtain ⟨header, hheader, hcolumns⟩ := Option.map_eq_some_iff.mp hhead
  have hwidths : (List.range n).mapM (maxLength (table.map (List.map cell))) =
      some ((List.range n).map (columnWidth table)) := by
    refine mapM_eq_some fun j hj => maxLength_eq fun row hrow => ?_
    rw [hlength row hrow]
    exact Nat.lt_succ_of_lt (List.mem_range.mp hj)
  rw [formingTablesHelperChecked, hheader, Option.bind_some, hcolumns,
    difference_eq_some (Nat.le_add_left 1 n), Option.bind_some, Nat.add_sub_cancel, hwidths,
    Option.bind_some, List.foldlM_map, ← List.flatMap_def, ← foldl_append_result]
  refine foldlM_eq_some (fun row hrow info => ?_) info
  rw [tableRecord_eq (by simpa using hlength row hrow) fun j width =>
    length_le_of_getElem?_widths hrow]
  rfl

theorem formingTablesHelper_eq {table : List (List Text)} {n : Nat} (hne : table ≠ [])
    (hlength : ∀ row ∈ table, row.length = n + 1) (info : ReqInfo) :
    formingTablesHelperChecked (table.map (List.map cell)) info =
      some (formingTablesHelper table info) := by
  obtain ⟨header, rest, rfl⟩ := List.exists_cons_of_ne_nil hne
  rw [formingTablesHelperChecked_eq hne hlength, formingTablesHelper, List.headD_cons,
    hlength header List.mem_cons_self, Nat.add_sub_cancel, ← List.flatMap_def]

/-! ## Records -/

private theorem getD_append_of_lt {cells : List Text} (last : Text) {j : Nat} (hj : j < cells.length) :
    (cells ++ [last]).getD j [] = cells[j] := by
  rw [List.getD_eq_getElem?_getD, List.getElem?_append_left hj, List.getElem?_eq_getElem hj]
  rfl

private theorem padded_cells_eq {table : List (List Text)} {cells : List Text} {last : Text}
    (hrow : cells ++ [last] ∈ table) :
    (((List.range cells.length).map (columnWidth table)).zipIdx.map fun column =>
        (cells ++ [last]).getD column.2 [] ++
          List.replicate (column.1 - ((cells ++ [last]).getD column.2 []).length + 2) ' ') =
      cells.mapIdx fun j => padCell ' ' (columnWidth table j + 2) := by
  refine List.ext_getElem (by simp) fun j hj hj' => ?_
  have hcells : j < cells.length := by simpa using hj'
  have hget := getD_append_of_lt last hcells
  have hwidth : cells[j].length ≤ columnWidth table j := hget ▸ length_le_columnWidth hrow j
  simp only [List.getElem_map, List.getElem_zipIdx, List.getElem_range, Nat.zero_add,
    List.getElem_mapIdx, hget]
  rw [padCell, show columnWidth table j + 2 - cells[j].length =
    columnWidth table j - cells[j].length + 2 by omega]

private theorem tableLine_aligned {table : List (List Text)} {row : List Text} {n : Nat}
    (hrow : row ∈ table) (hlength : row.length = n + 1) :
    ∃ line, tableLine ((List.range n).map (columnWidth table)) row = line ++ ['\n'] ∧
      Aligned ' ' 2 (columnOffset fun j => columnWidth table j + 2) row line := by
  rcases List.eq_nil_or_concat row with rfl | ⟨cells, last, rfl⟩
  · cases hlength
  · rw [List.concat_eq_append] at hrow hlength ⊢
    obtain rfl : cells.length = n := by simpa using hlength
    have hlast : (cells ++ [last]).getD cells.length [] = last := by simp
    refine ⟨_, ?_, aligned_padded ' ' (fun j cell hcell => ?_) last⟩
    · rw [tableLine, List.length_map, List.length_range, hlast, List.flatMap_def,
        padded_cells_eq hrow]
    · obtain ⟨hj, rfl⟩ := List.getElem?_eq_some_iff.mp hcell
      rw [← getD_append_of_lt last hj]
      exact Nat.add_le_add_right (length_le_columnWidth hrow j) 2

private theorem isGreatest_cells {table : List (List Text)} {j : Nat} (hne : table ≠ [])
    (hj : ∀ row ∈ table, j < row.length) :
    IsGreatest {n | ∃ row ∈ table.map (List.map cell), ∃ c, row[j]? = some c ∧ n = c.2}
      (columnWidth table j) := by
  constructor
  · obtain ⟨row, hrow, hwidth⟩ := (isGreatest_columnWidth hne j).1
    exact ⟨row.map cell, List.mem_map_of_mem hrow, _, getElem?_map_cell (hj row hrow), hwidth⟩
  · rintro n ⟨_, hcells, c, hc, rfl⟩
    obtain ⟨row, hrow, rfl⟩ := List.mem_map.mp hcells
    rw [getElem?_map_cell (hj row hrow)] at hc
    obtain rfl := Option.some.inj hc
    exact length_le_columnWidth hrow j

/-- The container of a successful result has the names and the tuples as its rows; each of them
becomes a record, with its cells at the same offsets as in all records. -/
theorem table_rendered (res : TableResult) (dbName : Text) (info : ReqInfo)
    (hsuccess : (DbModule.PgResult.make (some res.toPGresult) dbName).success = true)
    (hcolumns : 1 ≤ res.nFields) :
    ∃ (container : List (List Cell)) (records : List Text) (widest : Nat → Nat),
      getResultContainer res dbName = some container ∧
      container.length = res.tuples.length + 1 ∧ (∀ row ∈ container, row.length = res.nFields) ∧
      container[0]? = some (res.fnames.map cell) ∧
      (∀ (i : Nat) (tuple : List Text), res.tuples[i]? = some tuple →
        container[i + 1]? = some (tuple.map cell)) ∧
      formingTablesHelperChecked container info =
        some { info with result := info.result ++ records.flatten } ∧
      records.length = res.tuples.length + 1 ∧
      (∀ j, j < res.nFields → IsGreatest
        {n | ∃ row ∈ container, ∃ c, row[j]? = some c ∧ n = c.2} (widest j)) ∧
      ∀ (i : Nat) (row : List Cell), container[i]? = some row →
        ∃ line, records[i]? = some (line ++ ['\n']) ∧
          Aligned ' ' 2 (columnOffset fun j => widest j + 2) (row.map Prod.fst) line := by
  obtain ⟨n, hn⟩ := Nat.exists_eq_add_of_le' hcolumns
  have hlength : ∀ row ∈ res.rows, row.length = n + 1 := fun row hrow =>
    (res.length_row hrow).trans hn
  have hne : res.rows ≠ [] := List.cons_ne_nil _ _
  refine ⟨res.rows.map (List.map cell),
    res.rows.map (tableLine ((List.range n).map (columnWidth res.rows))), columnWidth res.rows,
    getResultContainer_eq res dbName hsuccess, ?_, ?_, ?_, ?_,
    formingTablesHelperChecked_eq hne hlength info, ?_, ?_, ?_⟩
  · rw [List.length_map]
    rfl
  · intro row hrow
    obtain ⟨texts, htexts, rfl⟩ := List.mem_map.mp hrow
    rw [List.length_map, hlength texts htexts, hn]
  · rfl
  · intro i tuple htuple
    rw [TableResult.rows, List.map_cons, List.getElem?_cons_succ, List.getElem?_map, htuple]
    rfl
  · rw [List.length_map]
    rfl
  · intro j hj
    exact isGreatest_cells hne fun row hrow => hlength row hrow ▸ hn ▸ hj
  · intro i row hrow
    rw [List.getElem?_map, Option.map_eq_some_iff] at hrow
    obtain ⟨texts, htexts, rfl⟩ := hrow
    have hmem := List.mem_of_getElem? htexts
    obtain ⟨line, hline, haligned⟩ := tableLine_aligned hmem (hlength texts hmem)
    refine ⟨line, ?_, ?_⟩
    · rw [List.getElem?_map, htexts, Option.map_some, hline]
    · rw [List.map_map, show Prod.fst ∘ cell = id from rfl, List.map_id]
      exact haligned

def oneSong : TableResult where
  status := .tuplesOk
  nFields := 2
  tuples := [[['1'], ['a', 'b']]]
  errorMessage := []
  fnames := [['i', 'd'], ['n']]
  length_fnames := rfl
  length_tuple := by decide
  nul_notMem_fnames := by decide
  nul_notMem_tuples := by decide

theorem one_song_rendered :
    ∃ container, getResultContainer oneSong ['d'] = some container ∧ container.length = 2 := by
  obtain ⟨container, -, -, hcontainer, hlength, -⟩ :=
    table_rendered oneSong ['d'] .blank (by decide +kernel) (by decide)
  exact ⟨container, hcontainer, hlength⟩

end PetProject.Handler
