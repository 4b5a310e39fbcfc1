import PetProject.Framework.InputStream
import PetProject.Framework.Positions

/-!
# Lists in the configuration

`Client_HTTP::parse` cuts a text of the configuration at its commas and drops the white space
behind each of them. The inner loop reads the character behind a comma before it looks whether
there is one, so that a comma at the end leads it to the NUL.
-/

namespace PetProject.ClientHttp

open Framework

/-- The inner loop, which moves `pos_begin` on from a comma; `none` when it reads behind the NUL. -/
def skipSpaces (s : Text) (pos : Nat) : Option Nat :=
  match h : charAt s (pos + 1) with
  | none => none
  | some c => if isspace c then skipSpaces s (pos + 1) else some (pos + 1)
termination_by s.length - pos
decreasing_by
  obtain ⟨hlt, -⟩ := List.getElem?_eq_some_iff.mp h
  rw [List.length_append, List.length_singleton] at hlt
  omega

private theorem skipSpaces_eq {s : Text} {pos : Nat} {c : Char} (h : charAt s (pos + 1) = some c) :
    skipSpaces s pos = if isspace c then skipSpaces s (pos + 1) else some (pos + 1) := by
  rw [skipSpaces]
  split
  case h_1 hnone => rw [h] at hnone; cases hnone
  case h_2 d hd => rw [h] at hd; cases hd; rfl

private theorem charAt_of_lt {s : Text} {pos : Nat} (h : pos < s.length) : charAt s pos = some s[pos] := by
  rw [charAt, List.getElem?_append_left h, List.getElem?_eq_getElem h]

private theorem charAt_length (s : Text) : charAt s s.length = some '\x00' := by
  rw [charAt, List.getElem?_append_right le_rfl, Nat.sub_self]
  rfl

private theorem skipSpaces_spec {s : Text} {pos : Nat} (h : pos < s.length) :
    ∃ next, skipSpaces s pos = some next ∧ pos < next ∧ next ≤ s.length ∧
      s.drop next = (s.drop (pos + 1)).dropWhile isspace := by
  induction hn : s.length - pos generalizing pos with
  | zero => omega
  | succ n ih =>
    by_cases hend : pos + 1 = s.length
    · have hread : charAt s (pos + 1) = some '\x00' := hend ▸ charAt_length s
      refine ⟨pos + 1, ?_, by omega, by omega, ?_⟩
      · rw [skipSpaces_eq hread]
        rfl
      · rw [hend, List.drop_length]
        rfl
    · have hlt : pos + 1 < s.length := by omega
      rw [skipSpaces_eq (charAt_of_lt hlt), List.drop_eq_getElem_cons hlt, List.dropWhile_cons]
      split
      · obtain ⟨next, hnext, hpos, hle, hdrop⟩ := ih hlt (by omega)
        exact ⟨next, hnext, by omega, hle, hdrop⟩
      · exact ⟨pos + 1, rfl, by omega, by omega, List.drop_eq_getElem_cons hlt⟩

/-- Where the inner loop leaves `pos_begin`. -/
def nextBegin (s : Text) : Position → Option Position
  | none => some none
  | some posEnd => (skipSpaces s posEnd).map some

private theorem nextBegin_measure {s : Text} {posBegin : Nat} {next : Position}
    (hle : posBegin ≤ s.length) (h : nextBegin s (findFrom ',' s posBegin) = some next) :
    next.elim 0 (s.length + 1 - ·) < s.length + 1 - posBegin := by
  cases hfind : findFrom ',' s posBegin with
  | none =>
    rw [hfind] at h
    obtain rfl : none = next := Option.some.inj h
    simp only [Option.elim_none]
    omega
  | some posEnd =>
    obtain ⟨hbegin, hend⟩ := findFrom_bounds hfind
    obtain ⟨q, hq, hpos, hlength, -⟩ := skipSpaces_spec hend
    rw [hfind, nextBegin, hq] at h
    obtain rfl : some q = next := Option.some.inj h
    simp only [Option.elim_some]
    omega

/-- The loop of `Client_HTTP::parse` from a value of `pos_begin` on; `none` when it reads behind the
NUL or `substr` is given a position behind the end. -/
def parseFrom (s : Text) : Position → List Text → Option (List Text)
  | none, c => some c
  | some posBegin, c =>
    match _h : substrTo s posBegin (findFrom ',' s posBegin),
        _h' : nextBegin s (findFrom ',' s posBegin) with
    | some segment, some next => parseFrom s next (c ++ [segment])
    | _, _ => none
termination_by pos => pos.elim 0 (s.length + 1 - ·)
decreasing_by
  have hle : posBegin ≤ s.length := by
    by_contra hlt
    rw [substrTo, if_neg hlt] at _h
    cases _h
  exact nextBegin_measure hle _h'

/-- `Client_HTTP::parse`. -/
def parse (s : Text) (c : List Text) : Option (List Text) := parseFrom s (some 0) c

private theorem parseFrom_none (s : Text) (c : List Text) : parseFrom s none c = some c := by
  rw [parseFrom]

private theorem parseFrom_some {s segment : Text} {posBegin : Nat} {next : Position} (c : List Text)
    (hsegment : substrTo s posBegin (findFrom ',' s posBegin) = some segment)
    (hnext : nextBegin s (findFrom ',' s posBegin) = some next) :
    parseFrom s (some posBegin) c = parseFrom s next (c ++ [segment]) := by
  rw [parseFrom]
  split
  case h_1 t q ht hq =>
    rw [hsegment] at ht
    rw [hnext] at hq
    cases ht
    cases hq
    rfl
  case h_2 hnone => exact (hnone segment next hsegment hnext).elim

/-! ## The segments -/

/-- The segments between the commas, without the white space in front of those behind a comma. -/
def segments (s : Text) : List Text :=
  match s.splitOn ',' with
  | [] => []
  | first :: rest => first :: rest.map (List.dropWhile isspace)

private theorem segments_of_notMem {s : Text} (h : ',' ∉ s) : segments s = [s] := by
  rw [segments, List.splitOn_eq_singleton h]
  rfl

private theorem splitOn_dropWhile (v : Text) :
    ∃ first rest, v.splitOn ',' = first :: rest ∧
      (v.dropWhile isspace).splitOn ',' = first.dropWhile isspace :: rest := by
  by_cases hv : ',' ∈ v
  · obtain ⟨a, b, rfl, ha⟩ := List.eq_append_cons_of_mem hv
    have hcomma : (',' :: b).dropWhile isspace = ',' :: b := by
      rw [List.dropWhile_cons]
      exact if_neg (by decide)
    have hdrop : (a ++ ',' :: b).dropWhile isspace = a.dropWhile isspace ++ ',' :: b := by
      rw [List.dropWhile_append, hcomma]
      split
      case isTrue hempty => rw [List.isEmpty_iff.mp hempty, List.nil_append]
      case isFalse => rfl
    have hspaces : ',' ∉ a.dropWhile isspace := fun h =>
      ha ((List.dropWhile_suffix isspace).mem h)
    refine ⟨a, b.splitOn ',', List.splitOn_append_cons_self_of_not_mem ha b, ?_⟩
    rw [hdrop, List.splitOn_append_cons_self_of_not_mem hspaces b]
  · have hspaces : ',' ∉ v.dropWhile isspace := fun h =>
      hv ((List.dropWhile_suffix isspace).mem h)
    exact ⟨v, [], List.splitOn_eq_singleton hv, List.splitOn_eq_singleton hspaces⟩

private theorem segments_cut {u : Text} (hu : ',' ∉ u) (v : Text) :
    segments (u ++ ',' :: v) = u :: segments (v.dropWhile isspace) := by
  obtain ⟨first, rest, hv, hdrop⟩ := splitOn_dropWhile v
  unfold segments
  rw [List.splitOn_append_cons_self_of_not_mem hu v, hv, hdrop]
  rfl

/-! ## The loop -/

private theorem substrTo_of_drop {s u rest : Text} {pos : Nat} (hpos : pos ≤ s.length)
    (h : s.drop pos = u ++ rest) : substrTo s pos (some (pos + u.length)) = some u := by
  rw [substrTo, if_pos hpos, h, Option.elim_some, Nat.add_sub_cancel_left, List.take_left]

/-- From `pos_begin` on the loop appends the segments of what is left of the text. -/
theorem parseFrom_segments {s : Text} {pos : Nat} (hpos : pos ≤ s.length) (c : List Text) :
    parseFrom s (some pos) c = some (c ++ segments (s.drop pos)) := by
  induction hn : s.length - pos using Nat.strong_induction_on generalizing pos c with
  | _ n ih =>
    by_cases hcomma : ',' ∈ s.drop pos
    · obtain ⟨u, v, hdrop, hu⟩ := List.eq_append_cons_of_mem hcomma
      have hfind := findFrom_of_drop hdrop hu
      have hsegment := substrTo_of_drop hpos hdrop
      obtain ⟨next, hskip, hlt, hle, hrest⟩ := skipSpaces_spec (findFrom_bounds hfind).2
      have hnext : nextBegin s (findFrom ',' s pos) = some (some next) := by
        rw [hfind, nextBegin, hskip]
        rfl
      have hv : s.drop (pos + u.length + 1) = v := by
        rw [Nat.add_assoc, ← List.drop_drop, hdrop, List.drop_append]
        simp
      rw [parseFrom_some c (hfind ▸ hsegment) hnext, ih _ (by omega) hle _ rfl, hrest, hv, hdrop,
        segments_cut hu, List.append_assoc, List.singleton_append]
    · have hfind : findFrom ',' s pos = none := findFrom_eq_none_iff.mpr hcomma
      have hsegment : substrTo s pos (findFrom ',' s pos) = some (s.drop pos) := by
        rw [hfind, substrTo, if_pos hpos, Option.elim_none]
        exact congrArg some (List.take_of_length_le (by rw [List.length_drop]; omega))
      have hnext : nextBegin s (findFrom ',' s pos) = some none := by rw [hfind]; rfl
      rw [parseFrom_some c hsegment hnext, parseFrom_none, segments_of_notMem hcomma]

/-- An element of a list as it is written in the configuration. -/
structure ListElement (t : Text) : Prop where
  no_comma : ',' ∉ t
  no_space : ∀ c, t.head? = some c → isspace c = false

/-- The elements with `", "` between them. -/
def joined (elements : List Text) : Text := List.intercalate ", ".toList elements

private theorem joined_cons_cons (t u : Text) (l : List Text) :
    joined (t :: u :: l) = t ++ ',' :: ' ' :: joined (u :: l) := by
  unfold joined
  rw [List.intercalate_cons_cons, List.append_assoc]
  rfl

private theorem dropWhile_joined {t : Text} {l : List Text} (h : ListElement t) :
    (joined (t :: l)).dropWhile isspace = joined (t :: l) := by
  have hhead : ∀ {c : Char} {rest : Text}, isspace c = false →
      (c :: rest).dropWhile isspace = c :: rest := by
    intro c rest hc
    rw [List.dropWhile_cons, hc]
    rfl
  cases t with
  | cons c t =>
    have hc := h.no_space c rfl
    cases l with
    | nil => exact hhead hc
    | cons u l =>
      rw [joined_cons_cons, List.cons_append]
      exact hhead hc
  | nil =>
    cases l with
    | nil => rfl
    | cons u l =>
      rw [joined_cons_cons, List.nil_append]
      exact hhead (by decide)

private theorem segments_joined {elements : List Text} (hne : elements ≠ [])
    (h : ∀ t ∈ elements, ListElement t) : segments (joined elements) = elements := by
  induction elements with
  | nil => exact absurd rfl hne
  | cons t l ih =>
    obtain ⟨ht, hl⟩ := List.forall_mem_cons.mp h
    cases l with
    | nil =>
      rw [joined, List.intercalate_singleton]
      exact segments_of_notMem ht.no_comma
    | cons u l =>
      have hspace : (' ' :: joined (u :: l)).dropWhile isspace = joined (u :: l) := by
        rw [List.dropWhile_cons]
        exact dropWhile_joined (hl u List.mem_cons_self)
      rw [joined_cons_cons, segments_cut ht.no_comma, hspace, ih (List.cons_ne_nil u l) hl]

/-- `parse` ends without reading behind the NUL and appends the segments, so that it gives back
every list that was written with a comma and a space between its elements. -/
theorem config_list_parsed :
    (∀ (s : Text) (c : List Text), parse s c = some (c ++ segments s)) ∧
      ∀ elements c : List Text, elements ≠ [] → (∀ t ∈ elements, ListElement t) →
        parse (joined elements) c = some (c ++ elements) := by
  have hparse : ∀ (s : Text) (c : List Text), parse s c = some (c ++ segments s) :=
    fun s c => parseFrom_segments (Nat.zero_le s.length) c
  refine ⟨hparse, fun elements c hne h => ?_⟩
  rw [hparse, segments_joined hne h]

theorem config_list_parsed_trailing_comma :
    parse (joined ["log_table".toList, [], "a.mp3".toList, []]) [] =
      some ["log_table".toList, [], "a.mp3".toList, []] := by
  refine config_list_parsed.2 _ [] (List.cons_ne_nil _ _) fun t ht => ?_
  have helement : ∀ t ∈ ["log_table".toList, [], "a.mp3".toList, []],
      ',' ∉ t ∧ ∀ c ∈ t.head?, isspace c = false := by simp [isspace]
  exact ⟨(helement t ht).1, fun c hc => (helement t ht).2 c hc⟩

end PetProject.ClientHttp
