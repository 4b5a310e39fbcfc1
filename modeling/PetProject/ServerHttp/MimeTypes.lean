import PetProject.Framework.Positions
import PetProject.ServerHttp.HandleRequest

/-!
# Media types

`Audio_mime_type::mime_type` looks up what lies behind the last dot of a name. Everything that it
does not know is a stream of octets, so that no file is taken for a text.
-/

namespace PetProject.ServerHttp

open Framework Handler

def octetStream : Text := "application/octet-stream".toList

/-- `types`. -/
def audioTypes : List (Text × Text) :=
  [("aac".toList, "audio/aac".toList),
    ("mid".toList, "audio/midi audio/x-midi".toList),
    ("midi".toList, "audio/midi audio/x-midi".toList),
    ("mp3".toList, "audio/mpeg".toList),
    ("oga".toList, "audio/ogg".toList),
    ("wav".toList, "audio/wav".toList),
    ("weba".toList, "audio/webm".toList),
    ("3gp".toList, "audio/3gpp".toList),
    ("3g2".toList, "audio/3gpp2".toList)]

/-- `Audio_mime_type::mime_type`. -/
def audioMimeType (target : Text) : Text :=
  match findLastOf '.' target with
  | none => octetStream
  | some pos =>
    match audioTypes.find? fun found => found.1 = target.drop (pos + 1) with
    | none => octetStream
    | some found => found.2

private theorem audioTypes_ext : ∀ found ∈ audioTypes, '.' ∉ found.1 := by decide

private theorem audioTypes_find :
    ∀ found ∈ audioTypes, audioTypes.find? (fun t => t.1 = found.1) = some found := by decide

private theorem audioTypes_ne_text : ∀ found ∈ audioTypes, found.2 ≠ "text/plain".toList := by decide

private theorem audioMimeType_append (stem : Text) {ext : Text} (hext : '.' ∉ ext) :
    audioMimeType (stem ++ '.' :: ext) =
      ((audioTypes.find? fun found => found.1 = ext).map Prod.snd).getD octetStream := by
  have hdrop : (stem ++ '.' :: ext).drop (stem.length + 1) = ext := by
    rw [← List.drop_drop, List.drop_left]
    rfl
  rw [audioMimeType, findLastOf_append stem hext]
  dsimp only
  rw [hdrop]
  cases audioTypes.find? fun found => found.1 = ext <;> rfl

private theorem audioMimeType_cases (target : Text) :
    (∃ stem found, found ∈ audioTypes ∧ target = stem ++ '.' :: found.1 ∧
      audioMimeType target = found.2) ∨ audioMimeType target = octetStream := by
  by_cases hdot : '.' ∈ target
  · obtain ⟨stem, ext, rfl, hext⟩ := exists_last_of_mem hdot
    rw [audioMimeType_append stem hext]
    cases hfind : audioTypes.find? fun found => found.1 = ext with
    | none => exact Or.inr rfl
    | some found =>
      have hkey : found.1 = ext := by simpa using List.find?_some hfind
      exact Or.inl ⟨stem, found, List.mem_of_find?_eq_some hfind, by rw [hkey], rfl⟩
  · rw [audioMimeType, findLastOf_eq_none_iff.mpr hdot]
    exact Or.inr rfl

theorem audioMimeType_of_mem (stem : Text) {found : Text × Text} (h : found ∈ audioTypes) :
    audioMimeType (stem ++ '.' :: found.1) = found.2 := by
  rw [audioMimeType_append stem (audioTypes_ext found h), audioTypes_find found h]
  rfl

private theorem audioMimeType_ne_text (target : Text) : audioMimeType target ≠ "text/plain".toList := by
  rcases audioMimeType_cases target with ⟨stem, found, hmem, -, htype⟩ | hoctets
  · rw [htype]
    exact audioTypes_ne_text found hmem
  · rw [hoctets]
    decide

/-- With these types the type of a response alone tells whether it is a file. -/
theorem content_type_tells_files {server : Server} (hmime : server.mimeType = audioMimeType)
    {handler : ReqInfo → Option (Bool × ReqInfo)} {req : Request} {responses : List Response}
    (h : server.handle handler req = some responses) :
    ∀ res ∈ responses,
      res.contentType = "text/plain".toList ↔ res.contentDisposition = none := by
  have hfile : ∀ target size body,
      (server.fileRes req target size body).contentType ≠ "text/plain".toList := by
    intro target size body
    rw [Server.fileRes, hmime]
    exact audioMimeType_ne_text target
  intro res hres
  unfold Server.handle at h
  split at h
  case isTrue =>
    obtain rfl : server.unknownMethodRes req = res := by
      rw [← Option.some.inj h] at hres
      exact (List.mem_singleton.mp hres).symm
    exact iff_of_true rfl rfl
  case isFalse =>
    obtain ⟨⟨ifFile, info⟩, -, rfl⟩ := Option.map_eq_some_iff.mp h
    dsimp only at hres
    unfold Server.respond at hres
    split at hres
    case isTrue =>
      cases hverb : req.verb <;> rw [hverb] at hres <;>
        exact List.mem_singleton.mp hres ▸ iff_of_true rfl rfl
    case isFalse =>
      split at hres
      case isTrue => exact List.mem_singleton.mp hres ▸ iff_of_true rfl rfl
      case isFalse =>
        cases hopen : server.openFile info.result with
        | error message =>
          rw [hopen] at hres
          exact List.mem_singleton.mp hres ▸ iff_of_true rfl rfl
        | ok body =>
          rw [hopen] at hres
          cases hverb : req.verb with
          | head =>
            rw [hverb] at hres
            exact List.mem_singleton.mp hres ▸ iff_of_false (hfile _ _ _) (by simp [Server.fileRes])
          | get =>
            rw [hverb] at hres
            exact List.mem_singleton.mp hres ▸ iff_of_false (hfile _ _ _) (by simp [Server.fileRes])
          | other =>
            rw [hverb] at hres
            exact List.mem_singleton.mp hres ▸ iff_of_true rfl rfl

end PetProject.ServerHttp
