import PetProject.Framework.Positions
import PetProject.ServerHttp.HandleRequest

/-!
# Names of downloaded files

`Client_HTTP::set_params_file_body_parser` cuts the name of a file out of the field
`Content-Disposition`, into which the server has put it between double quotes, as it is.
-/

namespace PetProject.ClientHttp

open Framework ServerHttp

/-- `begin`; without an equals sign `npos` has wrapped around. -/
def filenameBegin (cdField : Text) : Nat := advance 2 (findFrom '=' cdField 0)

/-- `end`. -/
def filenameEnd (cdField : Text) : Position := findFrom '"' cdField (filenameBegin cdField)

/-- The name in a field that is not empty; `none` when `end` is no position in the field. -/
def extractFilename (cdField : Text) : Option Text :=
  (filenameEnd cdField).map fun stop =>
    (cdField.drop (filenameBegin cdField)).take (stop - filenameBegin cdField)

/-- The name is what lies before the next double quote, if there is one. -/
theorem extractFilename_eq_some_iff {cdField name : Text} :
    extractFilename cdField = some name ↔
      '"' ∉ name ∧ ∃ rest, cdField.drop (filenameBegin cdField) = name ++ '"' :: rest := by
  rw [extractFilename, Option.map_eq_some_iff]
  constructor
  · rintro ⟨stop, hstop, rfl⟩
    have hmem : '"' ∈ cdField.drop (filenameBegin cdField) := by
      by_contra hnot
      rw [filenameEnd, findFrom_eq_none_iff.mpr hnot] at hstop
      cases hstop
    obtain ⟨before, rest, hsplit, hbefore⟩ := List.eq_append_cons_of_mem hmem
    have hfirst := findFrom_of_drop hsplit hbefore
    obtain rfl : _ = stop := Option.some.inj (hfirst.symm.trans hstop)
    rw [Nat.add_sub_cancel_left, hsplit, List.take_left]
    exact ⟨hbefore, rest, rfl⟩
  · rintro ⟨hname, rest, hsplit⟩
    refine ⟨_, findFrom_of_drop hsplit hname, ?_⟩
    rw [Nat.add_sub_cancel_left, hsplit, List.take_left]

theorem drop_filenameBegin {head : Text} (hhead : '=' ∉ head) (c : Char) (s : Text) :
    (head ++ '=' :: c :: s).drop (filenameBegin (head ++ '=' :: c :: s)) = s := by
  have hfirst : findFrom '=' (head ++ '=' :: c :: s) 0 = some (0 + head.length) :=
    findFrom_of_drop (List.drop_zero) hhead
  rw [filenameBegin, hfirst, advance, Nat.zero_add, ← List.drop_drop, List.drop_left]
  rfl

theorem equals_notMem_head : '=' ∉ "attachment; filename".toList := by decide

theorem contentDisposition_fileRes (server : Server) (req : Request) (name : Text) (size : Nat)
    (body : Text) : (server.fileRes req name size body).contentDisposition =
      some ("attachment; filename".toList ++ '=' :: '"' :: (name ++ ['"'])) := by
  have hfixed : "attachment; filename=\"".toList = "attachment; filename".toList ++ ['=', '"'] := by
    decide
  rw [Server.fileRes, hfixed, List.append_assoc, List.append_assoc]
  rfl

/-- The client finds the name of a file in the response of the server exactly if there is no double
quote in it. -/
theorem filename_round_trip_iff (server : Server) (req : Request) (name : Text) (size : Nat)
    (body : Text) :
    (server.fileRes req name size body).contentDisposition.bind extractFilename = some name ↔
      '"' ∉ name := by
  rw [contentDisposition_fileRes, Option.bind_some, extractFilename_eq_some_iff,
    drop_filenameBegin equals_notMem_head]
  exact and_iff_left ⟨[], rfl⟩

/-- A name with a double quote is cut short. -/
theorem quoted_name_cut_short :
    ¬∀ (server : Server) (req : Request) (name : Text) (size : Nat) (body : Text),
      name ≠ [] → '/' ∉ name → '\x00' ∉ name →
        (server.fileRes req name size body).contentDisposition.bind extractFilename = some name := by
  intro h
  have hname := h ⟨[], fun _ => [], ⟨⟨[], by decide⟩, 0⟩, fun _ => .error []⟩
    ⟨⟨['/'], [], [], []⟩, 11, true⟩ ['a', '"', 'b'] 0 [] (by decide) (by decide) (by decide)
  exact absurd hname (by decide +kernel)

end PetProject.ClientHttp
