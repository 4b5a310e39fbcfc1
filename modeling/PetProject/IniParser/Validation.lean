import PetProject.IniParser.Massives

/-!
# Checking the keys of a section

`Parser::validate_parsed` compares the keys of a section with a table of expected ones. Its loop
runs over the keys that were parsed, of which there may be more than entries in the table.
-/

namespace PetProject.IniParser

open Framework

/-- What `validate_parsed` comes to; `undefined` when it reads outside an array. -/
inductive Verdict
  | undefined
  | answer (passed : Bool) (what : Text)
  deriving DecidableEq, Repr

/-- The parsers whose sections have a fixed set of keys. -/
inductive SectionParser
  | inotify
  | serverHttp
  | clientHttp
  deriving DecidableEq, Repr

namespace SectionParser

/-- `expected_count`. -/
def expectedCount : SectionParser → Nat
  | inotify => 3
  | serverHttp => 9
  | clientHttp => 7

/-- The table `expected`. -/
def expected : SectionParser → List Text
  | inotify => ["files_folder".toList, "logs_folder".toList, "max_log_file_size".toList]
  | serverHttp =>
    ["address".toList, "port".toList, "server_name".toList, "files_folder".toList,
      "logs_folder".toList, "max_log_file_size".toList, "num_threads".toList, "days_limit".toList,
      "rows_limit".toList]
  | clientHttp =>
    ["host(address)".toList, "port(service)".toList, "client_name".toList, "version".toList,
      "num_threads".toList, "download_dir".toList, "target_requests".toList]

theorem length_expected (parser : SectionParser) : parser.expected.length = parser.expectedCount := by
  cases parser <;> rfl

end SectionParser

def lessText : Text := "Parsed count of keywords is less than it needed".toList

/-- `keywords[i]` as a string; `none` when there is no live array with a string at `i`. -/
def keywordAt (H : Heap) (this : Parser) (i : Nat) : Option Text :=
  match this.keywords.bind H.block with
  | some (.pointers ps) => ps[i]?.bind (readString H)
  | _ => none

/-- The loop of `validate_parsed`, with the number of its turns that are left. -/
def validateLoop (H : Heap) (this : Parser) (expected : List Text) : Nat → Nat → Verdict
  | 0, _ => .answer true []
  | n + 1, i =>
    match keywordAt H this i, expected[i]? with
    | some keyword, some expected_i =>
      if keyword ≠ expected_i then .answer false expected_i
      else validateLoop H this expected n (i + 1)
    | _, _ => .undefined

/-- `Parser::validate_parsed`. -/
def validateParsed (H : Heap) (this : Parser) (expectedCount : Nat) (expected : List Text) : Verdict :=
  if this.sizeCharPtrPtr < expectedCount then .answer false lessText
  else validateLoop H this expected this.sizeCharPtrPtr 0

/-! ## The comparison of two lists -/

/-- The comparison of the keys with the table, as long as both last. -/
def compareKeys : List Text → List Text → Verdict
  | [], _ => .answer true []
  | _ :: _, [] => .undefined
  | key :: keys, e :: es => if key ≠ e then .answer false e else compareKeys keys es

private theorem compareKeys_undefined_iff {keys es : List Text} :
    compareKeys keys es = .undefined ↔ es <+: keys ∧ es.length < keys.length := by
  induction keys generalizing es with
  | nil => simp [compareKeys]
  | cons key keys ih =>
    cases es with
    | nil => simp [compareKeys]
    | cons e es =>
      rw [compareKeys, List.cons_prefix_cons, List.length_cons, List.length_cons,
        Nat.succ_lt_succ_iff]
      by_cases hkey : key = e
      · rw [if_neg (not_not_intro hkey), ih]
        simp [hkey]
      · rw [if_pos hkey]
        simp [Ne.symm hkey]

theorem compareKeys_passed {keys es : List Text} {what : Text}
    (h : compareKeys keys es = .answer true what) : what = [] ∧ keys <+: es := by
  induction keys generalizing es with
  | nil =>
    cases h
    exact ⟨rfl, List.nil_prefix⟩
  | cons key keys ih =>
    cases es with
    | nil => cases h
    | cons e es =>
      rw [compareKeys] at h
      split at h
      case isTrue => cases h
      case isFalse hkey =>
        obtain ⟨hwhat, hprefix⟩ := ih h
        exact ⟨hwhat, List.cons_prefix_cons.mpr ⟨not_not.mp hkey, hprefix⟩⟩

private theorem compareKeys_failed {keys es : List Text} {what : Text}
    (h : compareKeys keys es = .answer false what) : what ∈ es := by
  induction keys generalizing es with
  | nil => cases h
  | cons key keys ih =>
    cases es with
    | nil => cases h
    | cons e es =>
      rw [compareKeys] at h
      split at h
      case isTrue =>
        cases h
        exact List.mem_cons_self
      case isFalse => exact List.mem_cons_of_mem e (ih h)

private theorem compareKeys_differs {keys es : List Text} {i : Nat} {e : Text} (hi : i < keys.length)
    (he : es[i]? = some e) (hdiffers : keys[i]? ≠ some e) (hsame : ∀ j, j < i → keys[j]? = es[j]?) :
    compareKeys keys es = .answer false e := by
  induction i generalizing keys es with
  | zero =>
    cases keys with
    | nil => exact absurd hi (Nat.not_lt_zero _)
    | cons key keys =>
      cases es with
      | nil => cases he
      | cons e' es =>
        obtain rfl : e' = e := Option.some.inj he
        rw [compareKeys, if_pos fun hkey => hdiffers (congrArg some hkey)]
  | succ i ih =>
    cases keys with
    | nil => exact absurd hi (Nat.not_lt_zero _)
    | cons key keys =>
      cases es with
      | nil => cases he
      | cons e' es =>
        have hkey : key = e' := Option.some.inj (hsame 0 (Nat.succ_pos i))
        rw [compareKeys, if_neg (not_not_intro hkey)]
        refine ih (Nat.lt_of_succ_lt_succ hi) he hdiffers fun j hj => ?_
        exact hsame (j + 1) (Nat.succ_lt_succ hj)

/-! ## The loop -/

theorem keywordAt_eq {H : Heap} {k : Nat} {kqs : List Nat} {ks : List Text} {p : Parser}
    (hp : p.keywords = some k) (hk : IsMassive H k kqs ks) {i : Nat} (hi : i < ks.length) :
    keywordAt H p i = some ks[i] := by
  have hiq : i < kqs.length := hk.strings.length_eq ▸ hi
  have hread := (List.forall₂_iff_get.mp hk.strings).2 i hiq hi
  have hpointer : (kqs.map some ++ [none])[i]? = some (some kqs[i]) := by
    rw [List.getElem?_append_left (by rw [List.length_map]; exact hiq), List.getElem?_map,
      List.getElem?_eq_getElem hiq, Option.map_some]
  rw [keywordAt, hp, Option.bind_some, hk.array, pointersTo]
  dsimp only
  rw [hpointer, Option.bind_some]
  exact hread

private theorem validateLoop_eq {H : Heap} {k : Nat} {kqs : List Nat} {ks es : List Text} {p : Parser}
    (hp : p.keywords = some k) (hk : IsMassive H k kqs ks) {n i : Nat} (hi : i + n = ks.length) :
    validateLoop H p es n i = compareKeys (ks.drop i) (es.drop i) := by
  induction n generalizing i with
  | zero =>
    rw [Nat.add_zero] at hi
    rw [hi, List.drop_length]
    rfl
  | succ n ih =>
    have hlt : i < ks.length := by omega
    rw [validateLoop, keywordAt_eq hp hk hlt, List.drop_eq_getElem_cons hlt]
    cases he : es[i]? with
    | none =>
      rw [List.drop_eq_nil_of_le (List.getElem?_eq_none_iff.mp he)]
      rfl
    | some e =>
      obtain ⟨hie, rfl⟩ := List.getElem?_eq_some_iff.mp he
      rw [List.drop_eq_getElem_cons hie, compareKeys, ih (by omega)]

theorem validateParsed_eq {H : Heap} {p : Parser} {ks vs : List Text} {addrs : List Nat}
    (h : Represents H p (some (ks, vs)) addrs) (es : List Text) :
    validateParsed H p es.length es =
      if ks.length < es.length then .answer false lessText else compareKeys ks es := by
  cases h with
  | filled hk hv hsize =>
    have hlength := hk.strings.length_eq
    rw [validateParsed]
    dsimp only
    rw [hlength, validateLoop_eq rfl hk (Nat.zero_add _), List.drop_zero, List.drop_zero]

/-! ## A section -/

/-- The keys of a section as C strings. -/
def parsedKeys (section_ptree : Section) : List Text := section_ptree.map fun e => cText e.1

/-- `validate_parsed` of a parser that has been constructed from a section. -/
def SectionParser.validateParsed (parser : SectionParser) (section_ptree : Section) (H : Heap) :
    Verdict :=
  let parsed := constructingMassives section_ptree H
  IniParser.validateParsed parsed.2 parsed.1 parser.expectedCount parser.expected

/-- The check stays inside the table, passes only what begins with the expected keys, says that
keys are missing exactly when they are, and else names the first expected key that is not there. -/
structure ValidatesExactly (parser : SectionParser) (section_ptree : Section) (H : Heap) : Prop where
  in_bounds : parser.validateParsed section_ptree H ≠ .undefined
  passed : ∀ what, parser.validateParsed section_ptree H = .answer true what →
    what = [] ∧ ∀ i : Nat, i < parser.expectedCount →
      (parsedKeys section_ptree)[i]? = parser.expected[i]?
  less : parser.validateParsed section_ptree H = .answer false lessText ↔
    section_ptree.length < parser.expectedCount
  differs : parser.expectedCount ≤ section_ptree.length → ∀ (i : Nat) (e : Text),
    parser.expected[i]? = some e →
      (parsedKeys section_ptree)[i]? ≠ some e →
      (∀ j : Nat, j < i → (parsedKeys section_ptree)[j]? = parser.expected[j]?) →
        parser.validateParsed section_ptree H = .answer false e

private theorem lessText_notMem (parser : SectionParser) : lessText ∉ parser.expected := by
  cases parser <;> decide +kernel

theorem SectionParser.validateParsed_eq (parser : SectionParser) (section_ptree : Section)
    (H : Heap) : parser.validateParsed section_ptree H =
      if section_ptree.length < parser.expectedCount then .answer false lessText
      else compareKeys (parsedKeys section_ptree) parser.expected := by
  obtain ⟨addrs, -, hparsed⟩ := constructingMassives_spec section_ptree H
  have h := IniParser.validateParsed_eq hparsed parser.expected
  rw [List.length_map, parser.length_expected] at h
  exact h

/-- The check is exact unless a section begins with the expected keys and goes on. -/
theorem validation_exact_iff (parser : SectionParser) (section_ptree : Section) (H : Heap) :
    ValidatesExactly parser section_ptree H ↔
      section_ptree.length ≤ parser.expectedCount ∨
        ¬parser.expected <+: parsedKeys section_ptree := by
  have heq := parser.validateParsed_eq section_ptree H
  have hlength : (parsedKeys section_ptree).length = section_ptree.length := List.length_map _
  have hcount := parser.length_expected
  by_cases hless : section_ptree.length < parser.expectedCount
  · rw [if_pos hless] at heq
    refine iff_of_true ⟨?_, ?_, iff_of_true heq hless, ?_⟩ (Or.inl hless.le)
    · rw [heq]
      exact Verdict.noConfusion
    · intro what h
      rw [heq] at h
      cases h
    · intro hle
      exact absurd hless (Nat.not_lt.mpr hle)
  · rw [if_neg hless] at heq
    have hundefined : compareKeys (parsedKeys section_ptree) parser.expected = .undefined ↔
        parser.expected <+: parsedKeys section_ptree ∧
          parser.expected.length < (parsedKeys section_ptree).length := compareKeys_undefined_iff
    rw [hlength, hcount, ← heq] at hundefined
    constructor
    · intro h
      have hbounds := h.in_bounds
      rw [ne_eq, hundefined, not_and'] at hbounds
      exact (Nat.lt_or_ge parser.expectedCount section_ptree.length).symm.imp_right hbounds
    · intro h
      refine ⟨?_, ?_, ?_, ?_⟩
      · rw [ne_eq, hundefined, not_and']
        intro hlt
        exact h.resolve_left (Nat.not_le.mpr hlt)
      · intro what hpassed
        rw [heq] at hpassed
        obtain ⟨hwhat, hprefix⟩ := compareKeys_passed hpassed
        have hsame : parsedKeys section_ptree = parser.expected :=
          hprefix.eq_of_length_le (by omega)
        exact ⟨hwhat, fun i _ => by rw [hsame]⟩
      · refine iff_of_false (fun hfailed => ?_) hless
        rw [heq] at hfailed
        exact lessText_notMem parser (compareKeys_failed hfailed)
      · intro hle i e he hdiffers hsame
        obtain ⟨hi, -⟩ := List.getElem?_eq_some_iff.mp he
        rw [heq]
        exact compareKeys_differs (by omega) he hdiffers hsame

theorem further_key_read_outside :
    ¬∀ (parser : SectionParser) (section_ptree : Section) (H : Heap),
      ValidatesExactly parser section_ptree H := by
  intro h
  have hbounds := (h .inotify
    [("files_folder".toList, ['f']), ("logs_folder".toList, ['l']),
      ("max_log_file_size".toList, ['9']), (['m'], ['1'])] .empty).in_bounds
  rw [SectionParser.validateParsed_eq] at hbounds
  revert hbounds
  decide +kernel

end PetProject.IniParser
