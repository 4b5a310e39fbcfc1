import PetProject.Database.Tables

/-!
# Consecutive ids

A table is numbered when its ids are `1` to the number of its rows, each once, and its sequence
goes on with the next number. Restarting the sequence and updating the ids numbers a table,
whatever it was like before; an insertion keeps it numbered.
-/

namespace PetProject.Database

open Framework

/-- The ids are `1` to the number of rows, each once, and the next one follows. -/
structure Numbered {α : Type} (idOf : α → Int) (rows : List α) (seq : Sequence) : Prop where
  ids : (rows.map idOf).Perm ((List.range' 1 rows.length).map Nat.cast)
  next : seq.nextval.lastValue = rows.length + 1

section Renumber

variable {α : Type} {idOf : α → Int} {setId : Int → α → α}

theorem renumber_ids (hset : ∀ i a, idOf (setId i a) = i) (seq : Sequence) (rows : List α) :
    (renumber setId seq rows).1.map idOf =
      (List.range' seq.nextval.lastValue rows.length).map Nat.cast := by
  induction rows generalizing seq with
  | nil => rfl
  | cons row rows ih =>
    simp only [renumber, List.map_cons, hset, List.length_cons, List.range'_succ]
    rw [ih, seq.nextval_nextval]

theorem renumber_next (seq : Sequence) (rows : List α) :
    (renumber setId seq rows).2.nextval.lastValue = seq.nextval.lastValue + rows.length := by
  induction rows generalizing seq with
  | nil => rfl
  | cons row rows ih =>
    simp only [renumber, List.length_cons]
    rw [ih, seq.nextval_nextval]
    omega

theorem numbered_renumber (hset : ∀ i a, idOf (setId i a) = i) (rows : List α) :
    Numbered idOf (renumber setId .restart rows).1 (renumber setId .restart rows).2 := by
  refine ⟨?_, ?_⟩
  · rw [renumber_ids hset, renumber_length]
    exact List.Perm.refl _
  · rw [renumber_next, renumber_length]
    exact Nat.add_comm _ _

theorem numbered_nil : Numbered idOf [] .restart := ⟨List.Perm.refl _, rfl⟩

theorem Numbered.append {rows : List α} {seq : Sequence} (h : Numbered idOf rows seq) {row : α}
    (hrow : idOf row = seq.nextval.lastValue) : Numbered idOf (rows ++ [row]) seq.nextval := by
  refine ⟨?_, ?_⟩
  · rw [List.map_append, List.length_append, List.map_singleton, hrow, h.next,
      List.length_singleton, List.range'_1_concat, List.map_append, List.map_singleton]
    rw [Nat.add_comm 1]
    exact h.ids.append_right _
  · rw [seq.nextval_nextval, h.next, List.length_append, List.length_singleton]

end Renumber

def RecordsNumbered (db : Db) : Prop := Numbered LogRow.id db.logTable db.logSeq

end PetProject.Database
