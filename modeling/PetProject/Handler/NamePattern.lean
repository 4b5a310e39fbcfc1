import PetProject.Framework.SimilarTo
import PetProject.Handler.ServerDirHandler

/-!
# The target as a pattern

`get_file_URI` hands the target to `SIMILAR TO`, where the directory handler compares names. The
rows that the query for a name selects are those named by the target exactly when nothing in it
means more to a pattern than itself.
-/

namespace PetProject.Handler

open Framework Database ServerDirHandler

/-- The row is selected by a command that asks for a name. -/
def SelectsByName (d : Dialect) (command : Text) (row : SongRow) : Prop :=
  ∃ pattern, ReadsAsMeant command (nameCommand []) [pattern] ∧ SimilarTo d pattern row.songName

/-- A longer target with a trailing `*` names what begins with the rest of it, any other one
itself. -/
def IsNamedBy (target name : Text) : Prop :=
  if IsStem target then target.dropLast <+: name else name = target

theorem compareFile_iff_isNamedBy (target name : Text) :
    compareFile target name ↔ IsNamedBy target name := by
  unfold compareFile IsNamedBy
  split
  · exact List.isPrefixOf_iff_prefix
  · exact decide_eq_true_iff

/-- The rows selected are those with the name; the names in a table hold no NUL. -/
def SelectsNamed (d : Dialect) (command target : Text) : Prop :=
  ∀ row : SongRow, '\x00' ∉ row.songName →
    (SelectsByName d command row ↔ IsNamedBy target row.songName)

/-- The target without the `*` that becomes a `%`. -/
def stem (target : Text) : Text := if IsStem target then target.dropLast else target

/-- A target that means to a pattern what it says: apart from the trailing `*` it has no operator,
no underscore and no `{` in front of a digit. -/
def PlainTarget (target : Text) : Prop := Unmarked (stem target) ∧ '_' ∉ stem target

instance (target : Text) : Decidable (PlainTarget target) := inferInstanceAs (Decidable (_ ∧ _))

section Pattern

variable {target : Text}

private theorem wildcard_of_isStem (h : IsStem target) : wildcard target = stem target ++ ['%'] := by
  rw [stem, if_pos h]
  exact if_pos h

private theorem wildcard_of_not_isStem (h : ¬IsStem target) : wildcard target = stem target := by
  rw [stem, if_neg h]
  exact if_neg h

private theorem isNamedBy_of_isStem (h : IsStem target) {name : Text} :
    IsNamedBy target name ↔ stem target <+: name := by
  rw [IsNamedBy, if_pos h, stem, if_pos h]

private theorem isNamedBy_of_not_isStem (h : ¬IsStem target) {name : Text} :
    IsNamedBy target name ↔ name = stem target := by
  rw [IsNamedBy, if_neg h, stem, if_neg h]

private theorem eq_append_of_isStem (h : IsStem target) : target = target.dropLast ++ ['*'] :=
  (List.dropLast_append_getLast? '*' h.2).symm

private theorem wildcard_eq_append (target : Text) :
    ∃ e, Ending e ∧ wildcard target = stem target ++ e := by
  by_cases h : IsStem target
  · exact ⟨['%'], Or.inr rfl, wildcard_of_isStem h⟩
  · exact ⟨[], Or.inl rfl, by rw [wildcard_of_not_isStem h, List.append_nil]⟩

private theorem isNamedBy_stem (target : Text) : IsNamedBy target (stem target) := by
  by_cases h : IsStem target
  · exact (isNamedBy_of_isStem h).mpr List.prefix_rfl
  · exact (isNamedBy_of_not_isStem h).mpr rfl

private theorem IsNamedBy.stem_prefix {name : Text} (h : IsNamedBy target name) :
    stem target <+: name := by
  by_cases hstem : IsStem target
  · exact (isNamedBy_of_isStem hstem).mp h
  · rw [(isNamedBy_of_not_isStem hstem).mp h]

private theorem mem_stem_iff {c : Char} (hc : c ≠ '*') : c ∈ stem target ↔ c ∈ target := by
  unfold stem
  split
  · rename_i h
    conv_rhs => rw [eq_append_of_isStem h]
    simp [hc]
  · rfl

theorem mem_wildcard_iff {c : Char} (hstar : c ≠ '*') (hpercent : c ≠ '%') :
    c ∈ wildcard target ↔ c ∈ target := by
  by_cases h : IsStem target
  · simp [wildcard_of_isStem h, hpercent, mem_stem_iff hstar]
  · rw [wildcard_of_not_isStem h, mem_stem_iff hstar]

theorem IsNamedBy.nul_notMem {name : Text} (h : IsNamedBy target name) (hname : '\x00' ∉ name) :
    '\x00' ∉ target := by
  rw [← mem_stem_iff (by decide)]
  exact fun hnul => hname (h.stem_prefix.subset hnul)

end Pattern

private theorem plainPiece_nameHead : PlainPiece nameHead := by decide +kernel

private theorem selectsByName_iff {d : Dialect} {pattern : Text} {row : SongRow} (hquote : '\'' ∉ pattern) :
    SelectsByName d (nameCommand pattern) row ↔
      '\x00' ∉ pattern ∧ SimilarTo d pattern row.songName := by
  constructor
  · rintro ⟨other, hreads, hsimilar⟩
    have hnul : '\x00' ∉ pattern := by
      intro hnul
      have hcut : lex (render nameHead [(pattern, selectTail)]) = none :=
        lex_render_cut plainPiece_nameHead hquote hnul
      have hrender : nameCommand pattern = render nameHead [(pattern, selectTail)] := by
        simp only [nameCommand, render, quoted, List.append_assoc, List.cons_append,
          List.nil_append]
      have hliterals := hreads.2
      rw [hrender, hcut] at hliterals
      cases hliterals
    have hsafe : SafeLiteral pattern := fun c hc =>
      ⟨fun h => hquote (h ▸ hc), fun h => hnul (h ▸ hc)⟩
    have hself := ((nameCommand_readsAsMeant_iff pattern).mpr hsafe).2
    obtain rfl : other = pattern := by simpa using hreads.2.symm.trans hself
    exact ⟨hnul, hsimilar⟩
  · rintro ⟨hnul, hsimilar⟩
    have hsafe : SafeLiteral pattern := fun c hc =>
      ⟨fun h => hquote (h ▸ hc), fun h => hnul (h ▸ hc)⟩
    exact ⟨pattern, (nameCommand_readsAsMeant_iff pattern).mpr hsafe, hsimilar⟩

/-- A plain target as a pattern matches the names that it names. -/
theorem PlainTarget.similarTo_iff {d : Dialect} {target name : Text} (h : PlainTarget target) :
    SimilarTo d (wildcard target) name ↔ IsNamedBy target name := by
  obtain ⟨hunmarked, hunder⟩ := h
  by_cases hstem : IsStem target
  · rw [wildcard_of_isStem hstem, similarTo_percent hunmarked, isNamedBy_of_isStem hstem]
    simp [mem_spelled_iff_eq hunder]
  · rw [wildcard_of_not_isStem hstem, similarTo_unmarked hunmarked,
      isNamedBy_of_not_isStem hstem, mem_spelled_iff_eq hunder]

/-! ## A target that is exact -/

section Exact

variable {d : Dialect} {target : Text}

/-- The names without a NUL that the pattern matches are those that the target names. -/
def MatchesNamed (d : Dialect) (target : Text) : Prop :=
  ∀ name : Text, '\x00' ∉ name → (SimilarTo d (wildcard target) name ↔ IsNamedBy target name)

private theorem similarTo_of_mem_spelled (h : Unmarked (stem target)) {name : Text}
    (hname : name ∈ spelled (stem target)) : SimilarTo d (wildcard target) name := by
  by_cases hstem : IsStem target
  · rw [wildcard_of_isStem hstem]
    exact (similarTo_percent h).mpr ⟨name, hname, List.prefix_rfl⟩
  · rw [wildcard_of_not_isStem hstem]
    exact (similarTo_unmarked h).mpr hname

private theorem MatchesNamed.unmarked (h : MatchesNamed d target) (hlight : Light (wildcard target))
    (hnul : '\x00' ∉ stem target) : Unmarked (stem target) := by
  by_contra hmarked
  obtain ⟨e, he, hwildcard⟩ := wildcard_eq_append target
  have hself : SimilarTo d (stem target ++ e) (stem target) :=
    hwildcard ▸ (h _ hnul).mpr (isNamedBy_stem target)
  rcases hself.exists_shorter (hwildcard ▸ hlight) he hmarked (· ≠ '\x00')
    (fun c hc hne => hnul (hne ▸ hc)) with ⟨name, hname, hnul', hshort⟩ | ⟨t, ht, hstem, rfl⟩
  · have hnamed : IsNamedBy target name :=
      (h name fun hmem => hnul' _ hmem rfl).mp (hwildcard ▸ hname)
    exact absurd hnamed.stem_prefix.length_le (by omega)
  -- the backslash before the `%` makes it the last character of every match
  · rw [hstem, List.append_assoc, List.cons_append, List.nil_append,
      similarTo_escaped_percent ht] at hself
    obtain ⟨w, -, heq⟩ := hself
    have hlast := congrArg List.getLast? heq
    simp at hlast

private theorem MatchesNamed.under_notMem (h : MatchesNamed d target) (hunmarked : Unmarked (stem target))
    (hnul : '\x00' ∉ stem target) : '_' ∉ stem target := by
  intro hunder
  obtain ⟨name, hname, hlength, hne, hchars⟩ :=
    exists_mem_spelled_ne 'a' (by decide) hunder
  have hnul' : '\x00' ∉ name := fun hmem => (hchars _ hmem).elim (by decide) hnul
  have hnamed := (h name hnul').mp (similarTo_of_mem_spelled hunmarked hname)
  exact hne (hnamed.stem_prefix.eq_of_length hlength.symm).symm

private theorem selectsNamed_iff (hquote : '\'' ∉ target) :
    SelectsNamed d (nameCommand (wildcard target)) target ↔
      '\x00' ∈ target ∨ MatchesNamed d target := by
  have hquote' : '\'' ∉ wildcard target :=
    (mem_wildcard_iff (by decide) (by decide)).not.mpr hquote
  have hcut : '\x00' ∈ wildcard target ↔ '\x00' ∈ target :=
    mem_wildcard_iff (by decide) (by decide)
  constructor
  · intro h
    refine or_iff_not_imp_left.mpr fun hnul name hname => ?_
    have hrow := h ⟨0, name, [], []⟩ hname
    rwa [selectsByName_iff hquote', hcut, and_iff_right hnul] at hrow
  · rintro (hnul | h) row hname
    · rw [selectsByName_iff hquote', hcut]
      exact iff_of_false (fun hselected => hselected.1 hnul)
        fun hnamed => hnamed.nul_notMem hname hnul
    · rw [selectsByName_iff hquote', hcut, h row.songName hname, and_iff_right_iff_imp]
      exact fun hnamed => hnamed.nul_notMem hname

end Exact

private theorem getFileUri_head (lookup : Text → PgResult) {info : ReqInfo}
    (hlegal : ¬illegalTarget info.target) :
    (getFileUri lookup info).1.head? = some (nameCommand (wildcard info.target)) := by
  rw [getFileUri_commands, if_neg hlegal]
  rfl

/-- The query for a name selects the rows named by the target when the target is plain, and only
then as far as its pattern is light; a target that a NUL cuts selects nothing and names nothing. -/
theorem name_query_selects_named (d : Dialect) (lookup : Text → PgResult) {info : ReqInfo}
    (haccepted : ¬illegalTarget info.target) (hquote : '\'' ∉ info.target) :
    ∃ command, (getFileUri lookup info).1.head? = some command ∧
      (PlainTarget info.target ∨ '\x00' ∈ info.target → SelectsNamed d command info.target) ∧
      (Light (wildcard info.target) → SelectsNamed d command info.target →
        PlainTarget info.target ∨ '\x00' ∈ info.target) := by
  refine ⟨nameCommand (wildcard info.target), getFileUri_head lookup haccepted, ?_, ?_⟩
  · intro hplain
    refine (selectsNamed_iff hquote).mpr (hplain.symm.imp_right fun h name _ => ?_)
    exact h.similarTo_iff
  · intro hlight hselects
    rcases (selectsNamed_iff hquote).mp hselects with hnul | hmatches
    · exact Or.inr hnul
    · by_cases hnul : '\x00' ∈ info.target
      · exact Or.inr hnul
      · have hnul' : '\x00' ∉ stem info.target := (mem_stem_iff (by decide)).not.mpr hnul
        have hunmarked := hmatches.unmarked hlight hnul'
        exact Or.inl ⟨hunmarked, hmatches.under_notMem hunmarked hnul'⟩

theorem name_query_selects_named_song :
    ∃ command, (getFileUri (fun _ => ⟨[], none, []⟩)
        { ReqInfo.blank with target := "song 1*".toList }).1.head? = some command ∧
      SelectsNamed ⟨fun _ => none, fun _ _ => False⟩ command "song 1*".toList := by
  have hplain : PlainTarget "song 1*".toList := by decide
  have hlegal : ¬illegalTarget { ReqInfo.blank with target := "song 1*".toList }.target := by decide
  obtain ⟨command, hcommand, hselects, -⟩ :=
    name_query_selects_named ⟨fun _ => none, fun _ _ => False⟩ (fun _ => ⟨[], none, []⟩) hlegal
      (by decide)
  exact ⟨command, hcommand, hselects (Or.inl hplain)⟩

/-- The request for an ordinary file. -/
def underscoreInfo : ReqInfo := { ReqInfo.blank with target := "my_song.mp3".toList }

/-- An underscore selects the songs with any other character in its place. -/
theorem underscore_selects_other :
    ¬∀ (d : Dialect) (lookup : Text → PgResult) (info : ReqInfo), ¬illegalTarget info.target →
      '\'' ∉ info.target → ∀ command ∈ (getFileUri lookup info).1.head?,
        SelectsNamed d command info.target := by
  intro h
  have hlegal : ¬illegalTarget underscoreInfo.target := by decide
  have hquote : '\'' ∉ underscoreInfo.target := by decide
  have hnul : '\x00' ∉ underscoreInfo.target := by decide
  have hselects := h ⟨fun _ => none, fun _ _ => False⟩ (fun _ => ⟨[], none, []⟩) underscoreInfo
    hlegal hquote _ (getFileUri_head _ hlegal)
  have hmatches := ((selectsNamed_iff hquote).mp hselects).resolve_left hnul
  have hunmarked : Unmarked (stem underscoreInfo.target) := by decide
  have hnul' : '\x00' ∉ stem underscoreInfo.target := by decide
  exact absurd (hmatches.under_notMem hunmarked hnul') (by decide)

end PetProject.Handler
