import PetProject.Handler.Lookup

/-!
# The target after a failed lookup

`get_file_URI` writes a `%` over the trailing `*` of a longer target. Of its exits only those that
report several files put the `*` back, and they go by the last character rather than by whether
anything was written. The vector of every failed lookup is computed here, with the target that it
holds and the error text that quotes it.
-/

namespace PetProject.Handler

open Framework Database

def searchError (earlier dbName target error : Text) : Text :=
  earlier ++ "Database ".toList ++ dbName ++ " error while searching for target ".toList ++
    target ++ ": ".toList ++ error

/-- The error text of a lookup that has found no single row, with `target` as the text quoted. -/
def failureText (earlier : Text) (name uid : PgResult) (target : Text) : Text :=
  match name.error, uid.error with
  | some error, _ => searchError earlier name.dbName target error
  | none, some error =>
    if 1 < name.rows.length then severalFilesError target
    else searchError earlier uid.dbName target error
  | none, none =>
    if name.rows = [] ∧ uid.rows = [] then notFoundError target else severalFilesError target

/-- The target in the vector that a failed lookup leaves behind. -/
def targetLeft (name uid : PgResult) (target : Text) : Text :=
  if lookupOutcome name uid = .several then starBack (wildcard target) else wildcard target

private theorem getFileUri_failed (lookup : Text → PgResult) {info : ReqInfo} {name uid : PgResult}
    (hlegal : ¬illegalTarget info.target)
    (hname : lookup (nameCommand (wildcard info.target)) = name)
    (huid : lookup (uidCommand (wildcard info.target)) = uid)
    (hresult : (getFileUri lookup info).2.result = []) :
    (getFileUri lookup info).2 = { info with
      target := targetLeft name uid info.target
      error := failureText info.error name uid (targetLeft name uid info.target) } := by
  unfold getFileUri at hresult ⊢
  rw [if_neg hlegal] at hresult ⊢
  dsimp only at hresult ⊢
  rw [hname, huid] at hresult ⊢
  unfold targetLeft
  generalize wildcard info.target = target at hresult ⊢
  rcases name with ⟨dbName, _ | error, _ | ⟨a, _ | ⟨b, rows⟩⟩⟩ <;>
    rcases uid with ⟨dbName', _ | error', _ | ⟨c, _ | ⟨d, rows'⟩⟩⟩ <;>
    first
    | rfl
    | exact absurd hresult (by simp [resHandle, chooseResult])

private theorem lookupOutcome_several_iff (name uid : PgResult) :
    lookupOutcome name uid = .several ↔ SeveralReached name uid := by
  rcases lookupOutcome_cases name uid with ⟨-, h, -, ho⟩ | ⟨-, h, -, ho⟩ | ⟨-, h, -, ho⟩ |
    ⟨-, h, -, ho⟩ <;> simp [h, ho]

/-- The vector of a failed lookup holds the target as the client has sent it, and so does the text
of its error. -/
structure KeepsTarget (lookup : Text → PgResult) (info : ReqInfo) : Prop where
  target : (getFileUri lookup info).2.target = info.target
  error : ¬illegalTarget info.target → (getFileUri lookup info).2.error = failureText info.error
    (lookup (nameCommand (wildcard info.target))) (lookup (uidCommand (wildcard info.target)))
    info.target

private theorem rewrite_last_eq_iff {p : Prop} [Decidable p] {target : Text} {c d : Char}
    (hp : p → target.getLast? = some c) (hne : c ≠ d) :
    (if p then target.dropLast ++ [d] else target) = target ↔ ¬p := by
  split
  case isTrue h =>
    refine iff_of_false (fun heq => ?_) (not_not.mpr h)
    have hlast := congrArg List.getLast? heq
    rw [List.getLast?_append_of_ne_nil _ (List.cons_ne_nil d []), hp h] at hlast
    exact hne (Option.some.inj hlast).symm
  case isFalse h => exact iff_of_true rfl h

private theorem targetLeft_eq_iff (name uid : PgResult) (target : Text) :
    targetLeft name uid target = target ↔
      (SeveralReached name uid ∧ target.getLast? ≠ some '%') ∨
      (¬SeveralReached name uid ∧ ¬(1 < target.length ∧ target.getLast? = some '*')) := by
  rw [← lookupOutcome_several_iff]
  unfold targetLeft starBack wildcard
  by_cases hseveral : lookupOutcome name uid = .several
  · rw [if_pos hseveral, and_iff_right hseveral, or_iff_left fun h => h.1 hseveral]
    by_cases hstar : 1 < target.length ∧ target.getLast? = some '*'
    · have hback : target.dropLast ++ ['*'] = target := List.dropLast_append_getLast? _ hstar.2
      simp [hstar, hback]
    · rw [if_neg hstar]
      exact rewrite_last_eq_iff id (by decide)
  · rw [if_neg hseveral, and_iff_right hseveral, or_iff_right fun h => hseveral h.1]
    exact rewrite_last_eq_iff And.right (by decide)

/-- A lookup that fails leaves the target and its quotation as they were exactly if the target is
refused at once, or several files are reported and it does not end in `%`, or it is another exit
and no `*` has been written over. -/
theorem failed_lookup_keeps_target_iff (lookup : Text → PgResult) {info : ReqInfo}
    (hresult : (getFileUri lookup info).2.result = []) :
    KeepsTarget lookup info ↔ illegalTarget info.target ∨
      (SeveralReached (lookup (nameCommand (wildcard info.target)))
          (lookup (uidCommand (wildcard info.target))) ∧ info.target.getLast? ≠ some '%') ∨
      (¬SeveralReached (lookup (nameCommand (wildcard info.target)))
          (lookup (uidCommand (wildcard info.target))) ∧
        ¬(1 < info.target.length ∧ info.target.getLast? = some '*')) := by
  by_cases hillegal : illegalTarget info.target
  · have htarget : (getFileUri lookup info).2.target = info.target := by
      rw [getFileUri, if_pos hillegal]
    exact iff_of_true ⟨htarget, fun hlegal => absurd hillegal hlegal⟩ (Or.inl hillegal)
  · have hout := getFileUri_failed lookup hillegal rfl rfl hresult
    rw [← targetLeft_eq_iff, or_iff_right hillegal]
    constructor
    · intro hkeeps
      have htarget := hkeeps.target
      rwa [hout] at htarget
    · intro hleft
      rw [hleft] at hout
      exact ⟨by rw [hout], fun _ => by rw [hout]⟩

/-- A database without the file. -/
def findsNothing (_ : Text) : PgResult := ⟨[], none, []⟩

theorem failed_lookup_keeps_target_not_found : KeepsTarget findsNothing (requestFor ['a']) :=
  (failed_lookup_keeps_target_iff findsNothing (by decide +kernel)).mpr
    (Or.inr (Or.inr ⟨by simp [SeveralReached, findsNothing], by decide⟩))

/-- The `*` of a target that is not found stays a `%`. -/
theorem star_lost_by_failed_lookup :
    ¬∀ (lookup : Text → PgResult) (info : ReqInfo), (getFileUri lookup info).2.result = [] →
      (getFileUri lookup info).2.error ≠ [] → KeepsTarget lookup info := by
  intro hclaim
  have hkeeps := hclaim findsNothing (requestFor ['a', '*']) (by decide +kernel) (by decide +kernel)
  exact absurd hkeeps.target (by decide +kernel)

end PetProject.Handler
