import PetProject.DbModule.PgResult
import PetProject.Framework.Positions

/-!
# Results as containers

`PG_result::get_result_container` copies the names of the columns and the values of the tuples, each
with its length, into rows. The row that is being filled is moved into the container and filled
again.
-/

namespace PetProject.DbModule

open Framework

/-- A result with the names of its columns: as many as there are fields, and as there are values in
each tuple. Names and values are C strings. -/
structure TableResult extends PGresult where
  fnames : List Text
  length_fnames : fnames.length = nFields
  length_tuple : ∀ tuple ∈ tuples, tuple.length = nFields
  nul_notMem_fnames : ∀ name ∈ fnames, '\x00' ∉ name
  nul_notMem_tuples : ∀ tuple ∈ tuples, ∀ value ∈ tuple, '\x00' ∉ value

def pqFname (res : TableResult) (field : Nat) : Option Text := res.fnames[field]?

/-- A pointer to a text, with the length of the text. -/
abbrev Cell := Text × Nat

def cell (text : Text) : Cell := (text, text.length)

/-- What `strlen` finds behind a pointer. -/
def cellAt (ptr : Text) : Cell := (cText ptr, (cText ptr).length)

private theorem cellAt_eq {text : Text} (h : '\x00' ∉ text) : cellAt text = cell text := by
  rw [cellAt, cText_eq_self h, cell]

/-- `outer_res_cntnr` and `inner_res_cntnr`. -/
structure ResultContainers where
  outer : List (List Cell)
  inner : List Cell

namespace ResultContainers

/-- Moving the row into the container leaves an empty row behind. -/
def emplaceBack (c : ResultContainers) : ResultContainers := ⟨c.outer ++ [c.inner], []⟩

/-- One of the two loops over the columns, with the accessor that it calls. -/
def fillInner (get : Nat → Option Text) (nFields : Nat) (c : ResultContainers) :
    Option ResultContainers :=
  (List.range nFields).foldlM
    (fun c i => (get i).map fun ptr => { c with inner := c.inner ++ [cellAt ptr] }) c

end ResultContainers

open ResultContainers

/-- `get_result_container` of the `PG_result` made of a result; `none` when it reads a name or a
value that is not there. -/
def getResultContainer (res : TableResult) (dbName : Text) : Option (List (List Cell)) :=
  let r := PgResult.make (some res.toPGresult) dbName
  let header := (fillInner (pqFname res) r.nFields ⟨[], []⟩).map emplaceBack
  let content := header.bind fun c => (List.range r.nTuples).foldlM
    (fun c i => (fillInner (pqGetvalue r.result i) r.nFields c).map emplaceBack) c
  content.map outer

private theorem foldlM_range {σ α : Type*} (step : σ → Nat → Option σ) (build : List α → σ) (xs : List α)
    (hstep : ∀ i x acc, xs[i]? = some x → step (build acc) i = some (build (acc ++ [x]))) :
    (List.range xs.length).foldlM step (build []) = some (build xs) := by
  induction xs using List.reverseRecOn with
  | nil => rfl
  | append_singleton xs x ih =>
    have hxs : ∀ i y acc, xs[i]? = some y → step (build acc) i = some (build (acc ++ [y])) := by
      intro i y acc hy
      obtain ⟨hi, -⟩ := List.getElem?_eq_some_iff.mp hy
      exact hstep i y acc ((List.getElem?_append_left hi).trans hy)
    rw [List.length_append, List.length_singleton, List.range_succ, List.foldlM_append, ih hxs]
    simp [hstep xs.length x xs (by simp)]

private theorem fillInner_eq (get : Nat → Option Text) {texts : List Text} (outer : List (List Cell))
    (hget : ∀ i text, texts[i]? = some text → get i = some text)
    (hnul : ∀ text ∈ texts, '\x00' ∉ text) :
    fillInner get texts.length ⟨outer, []⟩ = some ⟨outer, texts.map cell⟩ := by
  refine foldlM_range _ (fun row => ResultContainers.mk outer (row.map cell)) texts ?_
  intro i text acc htext
  rw [hget i text htext, Option.map_some, cellAt_eq (hnul text (List.mem_of_getElem? htext)),
    List.map_append]
  rfl

/-- The names of the columns, and the tuples. -/
def TableResult.rows (res : TableResult) : List (List Text) := res.fnames :: res.tuples

theorem TableResult.length_row {res : TableResult} {row : List Text} (h : row ∈ res.rows) :
    row.length = res.nFields := by
  rcases List.mem_cons.mp h with rfl | h
  · exact res.length_fnames
  · exact res.length_tuple row h

/-- The container of a successful result has the names in its first row, and then the tuples. -/
theorem getResultContainer_eq (res : TableResult) (dbName : Text)
    (hsuccess : (PgResult.make (some res.toPGresult) dbName).success = true) :
    getResultContainer res dbName = some (res.rows.map (List.map cell)) := by
  have hmake : PgResult.make (some res.toPGresult) dbName =
      ⟨some res.toPGresult, dbName, true, res.nFields, res.tuples.length⟩ := by
    rw [PgResult.make_success] at hsuccess
    rw [PgResult.make, if_neg hsuccess]
    rfl
  have hheader := fillInner_eq (pqFname res) [] (fun i text h => h) res.nul_notMem_fnames
  rw [res.length_fnames] at hheader
  rw [getResultContainer, hmake]
  dsimp only
  rw [hheader, Option.map_some, Option.bind_some]
  have hcontent := foldlM_range
    (fun c i => (fillInner (pqGetvalue (some res.toPGresult) i) res.nFields c).map emplaceBack)
    (fun rows => ⟨res.fnames.map cell :: rows.map (List.map cell), []⟩) res.tuples ?_
  · exact congrArg (Option.map outer) hcontent
  · intro i tuple acc htuple
    have hmem := List.mem_of_getElem? htuple
    have hfill := fillInner_eq (pqGetvalue (some res.toPGresult) i)
      (res.fnames.map cell :: acc.map (List.map cell))
      (fun j text htext => by rw [pqGetvalue, Option.bind_some, htuple, Option.bind_some, htext])
      (res.nul_notMem_tuples tuple hmem)
    rw [res.length_tuple tuple hmem] at hfill
    rw [hfill, Option.map_some, emplaceBack, List.map_append]
    rfl

end PetProject.DbModule
