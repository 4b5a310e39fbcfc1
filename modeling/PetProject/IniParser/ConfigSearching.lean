import PetProject.Framework.DirectoryTree

/-!
# Searching for the configuration file

`Config_searching` looks for a regular file of a given name. Its constructor runs
`searching_forward` in the current directory and in up to three directories above it, and
`searching_backward` from there on to the root. Both change the working directory of the process,
and either leaves the path in a field or throws.
-/

namespace PetProject.IniParser

open Framework

def dot : Text := ['.']

def dots : Text := ['.', '.']

/-- The fields of a `Config_searching` and the working directory of the process; `visited` lists
the directories that `searching_forward` has entered from above. -/
structure ConfigSearching where
  levelDown : Int
  levelUp : Int
  configFounded : Bool
  path : Text
  cwd : Place
  visited : List Place
  deriving DecidableEq, Repr

/-- How the constructor ends: with an object, or with the message of a `c_s_exception`. -/
abbrev SearchResult := Except Text ConfigSearching

namespace ConfigSearching

def init (cwd : Place) : ConfigSearching := ⟨0, 0, false, [], cwd, []⟩

/-- `fs::current_path` with a path, which the system resolves. -/
def currentPath (s : ConfigSearching) : Place → ConfigSearching
  | [] => { s with cwd := [] }
  | name :: d =>
    { s with cwd := if name = dots then d.tail else if name = dot then d else name :: d }

section Search

variable (t : DirectoryTree) (configToFind : Text)

def notFounded : Text := configToFind ++ " not founded".toList

/-- The loop of `searching_forward` over the entries of the directory, and what follows it;
`recurse` is the call of `searching_forward` for an entry. -/
def forwardLoop (previousDir : Option Place) (currentDir : Place)
    (recurse : ConfigSearching → Option SearchResult) :
    List Text → ConfigSearching → Option SearchResult
  | [], s =>
    if s.cwd = [] then some (.error (notFounded configToFind))
    else some (.ok (s.currentPath (dots :: currentDir)))
  | entry :: entries, s =>
    let currDirObject := entry :: currentDir
    if t.isRegularFile currDirObject then
      if t.isDirectory currDirObject then
        if currDirObject ≠ dots :: currentDir ∧ currDirObject ≠ dot :: currentDir ∧
            s.levelDown ≤ 3 ∧ some currDirObject ≠ previousDir then
          let entered := { s with levelDown := s.levelDown + 1,
                                  visited := s.visited ++ [currDirObject] }
          match recurse (entered.currentPath currDirObject) with
          | some (.ok s') =>
            forwardLoop previousDir currentDir recurse entries
              { s' with levelDown := s'.levelDown - 1 }
          | result => result
        else forwardLoop previousDir currentDir recurse entries s
      else if s.configFounded then some (.ok s)
      else if entry = configToFind then
        some (.ok { s with path := pathText currDirObject, configFounded := true })
      else forwardLoop previousDir currentDir recurse entries s
    else forwardLoop previousDir currentDir recurse entries s

/-- `searching_forward`, with a bound on the depth of the recursion. -/
def searchingForward (previousDir : Option Place) : Nat → ConfigSearching → Option SearchResult
  | 0, _ => none
  | fuel + 1, s =>
    forwardLoop t configToFind previousDir s.cwd (searchingForward previousDir fuel)
      (t.entries s.cwd) s

/-- The file is among the entries of the current directory. -/
def holdsConfig (d : Place) : Bool :=
  (t.entries d).any fun entry => t.isRegularFile (entry :: d) && entry = configToFind

/-- `searching_backward`, with a bound on the number of rounds. -/
def searchingBackward : Nat → ConfigSearching → Option SearchResult
  | 0, _ => none
  | fuel + 1, s =>
    if holdsConfig t configToFind s.cwd then
      some (.ok { s with path := pathText s.cwd, configFounded := true })
    else if s.cwd = [] then some (.error (notFounded configToFind))
    else searchingBackward fuel (s.currentPath (dots :: s.cwd))

/-- `searching_begin`; the variable that `searching_forward` receives stays empty, since the loop
assigns another one of the same name. -/
def searchingBegin : Nat → ConfigSearching → Option SearchResult
  | 0, _ => none
  | fuel + 1, s =>
    if s.configFounded = false ∧ s.levelUp ≤ 3 then
      match searchingForward t configToFind none fuel s with
      | some (.ok s') => searchingBegin fuel { s' with levelUp := s'.levelUp + 1 }
      | result => result
    else if s.configFounded = false then searchingBackward t configToFind fuel s
    else some (.ok s)

/-- The constructor `Config_searching(config_to_find)` in a process that stands in a directory. -/
def construct (cwd : t.Directory) (fuel : Nat) : Option SearchResult :=
  searchingBegin t configToFind fuel (init cwd.1)

/-- The constructor ends in this way. -/
def EndsWith (cwd : t.Directory) (result : SearchResult) : Prop :=
  ∃ n, ∀ fuel, n ≤ fuel → construct t configToFind cwd fuel = some result

end Search

/-! ## What the two routines do -/

section Spec

variable {t : DirectoryTree} {configToFind : Text}

private theorem currentPath_dots (s : ConfigSearching) (d : Place) :
    s.currentPath (dots :: d) = { s with cwd := d.tail } := rfl

private theorem not_isDirectory {p : Place} (h : t.isRegularFile p) : t.isDirectory p = false := by
  simp only [DirectoryTree.isRegularFile, decide_eq_true_eq] at h
  simp [DirectoryTree.isDirectory, h]

private theorem forwardLoop_eq {previousDir : Option Place} {currentDir : Place}
    {recurse : ConfigSearching → Option SearchResult} {entries : List Text} {s : ConfigSearching}
    (hs : s.configFounded = false) :
    forwardLoop t configToFind previousDir currentDir recurse entries s =
      if entries.any fun entry => t.isRegularFile (entry :: currentDir) && entry = configToFind then
        some (.ok { s with path := pathText (configToFind :: currentDir), configFounded := true })
      else if s.cwd = [] then some (.error (notFounded configToFind))
      else some (.ok { s with cwd := currentDir.tail }) := by
  induction entries with
  | nil => rfl
  | cons entry entries ih =>
    rw [forwardLoop, List.any_cons]
    by_cases hfile : t.isRegularFile (entry :: currentDir)
    · rw [if_pos hfile, if_neg (Bool.eq_false_iff.mp (not_isDirectory hfile)),
        if_neg (Bool.eq_false_iff.mp hs)]
      by_cases hname : entry = configToFind
      · subst hname
        rw [if_pos rfl, hfile, decide_eq_true rfl, Bool.and_true, Bool.true_or, if_pos rfl]
      · rw [if_neg hname, ih, decide_eq_false hname, Bool.and_false, Bool.false_or]
    · rw [if_neg hfile, ih, Bool.eq_false_iff.mpr hfile, Bool.false_and, Bool.false_or]

private theorem holdsConfig_eq (d : Place) :
    holdsConfig t configToFind d = t.isRegularFile (configToFind :: d) := by
  rw [Bool.eq_iff_iff, holdsConfig, List.any_eq_true]
  constructor
  · rintro ⟨entry, -, hentry⟩
    rw [Bool.and_eq_true, decide_eq_true_eq] at hentry
    exact hentry.2 ▸ hentry.1
  · intro hfile
    exact ⟨configToFind, DirectoryTree.mem_entries_of_isRegularFile hfile, by simp [hfile]⟩

private theorem searchingForward_eq {previousDir : Option Place} {s : ConfigSearching} {fuel : Nat}
    (hs : s.configFounded = false) (hfuel : 0 < fuel) :
    searchingForward t configToFind previousDir fuel s =
      if t.isRegularFile (configToFind :: s.cwd) then
        some (.ok { s with path := pathText (configToFind :: s.cwd), configFounded := true })
      else if s.cwd = [] then some (.error (notFounded configToFind))
      else some (.ok { s with cwd := s.cwd.tail }) := by
  obtain ⟨n, rfl⟩ := Nat.exists_eq_add_one.mpr hfuel
  rw [searchingForward, forwardLoop_eq hs, ← holdsConfig_eq, holdsConfig]

/-! ## The nearest directory -/

variable (t configToFind) in
/-- The nearest of a directory and the directories above it in which the file lies. -/
def nearest (cwd : Place) : Option Place :=
  cwd.tails.find? fun d => t.isRegularFile (configToFind :: d)

private theorem nearest_of_holds {d : Place} (h : t.isRegularFile (configToFind :: d)) :
    nearest t configToFind d = some d := by
  cases d with
  | nil => simp [nearest, h]
  | cons name d =>
    rw [nearest, List.tails_cons]
    exact List.find?_cons_of_pos (p := fun d => t.isRegularFile (configToFind :: d)) h

private theorem nearest_root (h : ¬t.isRegularFile [configToFind]) : nearest t configToFind [] = none := by
  simp [nearest, h]

private theorem nearest_tail {name : Text} {d : Place} (h : ¬t.isRegularFile (configToFind :: name :: d)) :
    nearest t configToFind (name :: d) = nearest t configToFind d := by
  rw [nearest, List.tails_cons]
  exact List.find?_cons_of_neg (p := fun d => t.isRegularFile (configToFind :: d)) h

private theorem nearest_suffix {cwd d : Place} (h : nearest t configToFind cwd = some d) : d <:+ cwd :=
  (List.mem_tails _ _).mp (List.mem_of_find?_eq_some h)

private theorem holds_of_nearest {cwd d : Place} (h : nearest t configToFind cwd = some d) :
    t.isRegularFile (configToFind :: d) :=
  List.find?_some (p := fun d => t.isRegularFile (configToFind :: d)) h

/-! ## The whole search -/

variable (t configToFind) in
/-- The state in which a search ends that starts in `s` with `rounds` more calls of
`searching_forward` and has its file in `d`: the path of the file when one of these calls comes
upon it, else the path of the directory. -/
def foundIn (rounds : Nat) (s : ConfigSearching) (d : Place) : ConfigSearching :=
  { s with
    levelUp := s.levelUp + min (s.cwd.length - d.length + 1 : Nat) rounds
    configFounded := true
    path := if s.cwd.length < d.length + rounds then pathText (configToFind :: d) else pathText d
    cwd := d }

variable (t configToFind) in
def outcome (rounds : Nat) (s : ConfigSearching) : SearchResult :=
  (nearest t configToFind s.cwd).elim (.error (notFounded configToFind)) fun d =>
    .ok (foundIn configToFind rounds s d)

private theorem foundIn_zero {s : ConfigSearching} {d : Place} (h : d.length ≤ s.cwd.length) :
    foundIn configToFind 0 s d = { s with configFounded := true, path := pathText d, cwd := d } := by
  rw [foundIn, Nat.min_zero, Int.natCast_zero, Int.add_zero, Nat.add_zero, if_neg (Nat.not_lt.mpr h)]

private theorem foundIn_here (s : ConfigSearching) (rounds : Nat) :
    foundIn configToFind (rounds + 1) s s.cwd =
      { s with levelUp := s.levelUp + 1, configFounded := true,
               path := pathText (configToFind :: s.cwd) } := by
  have hmin : min (s.cwd.length - s.cwd.length + 1) (rounds + 1) = 1 := by omega
  rw [foundIn, hmin, if_pos (by omega), Int.natCast_one]

private theorem foundIn_above {s : ConfigSearching} {name : Text} {c d : Place} (hcwd : s.cwd = name :: c)
    (h : d.length ≤ c.length) (rounds : Nat) :
    foundIn configToFind (rounds + 1) s d =
      foundIn configToFind rounds { s with levelUp := s.levelUp + 1, cwd := c } d := by
  have hmin : min ((name :: c).length - d.length + 1) (rounds + 1) =
      min (c.length - d.length + 1) rounds + 1 := by
    rw [List.length_cons]
    omega
  have hlt : (name :: c).length < d.length + (rounds + 1) ↔ c.length < d.length + rounds := by
    rw [List.length_cons]
    omega
  simp only [foundIn, hcwd, hmin, hlt, Int.natCast_add, Int.natCast_one]
  rw [Int.add_assoc, Int.add_comm 1]

private theorem outcome_none {rounds : Nat} {s : ConfigSearching} (h : nearest t configToFind s.cwd = none) :
    outcome t configToFind rounds s = .error (notFounded configToFind) := by
  rw [outcome, h, Option.elim_none]

private theorem outcome_some {rounds : Nat} {s : ConfigSearching} {d : Place}
    (h : nearest t configToFind s.cwd = some d) :
    outcome t configToFind rounds s = .ok (foundIn configToFind rounds s d) := by
  rw [outcome, h, Option.elim_some]

private theorem outcome_above {s : ConfigSearching} {name : Text} {c : Place} (hcwd : s.cwd = name :: c)
    (hfile : ¬t.isRegularFile (configToFind :: name :: c)) (rounds : Nat) :
    outcome t configToFind (rounds + 1) s =
      outcome t configToFind rounds { s with levelUp := s.levelUp + 1, cwd := c } := by
  rw [outcome, outcome, hcwd, nearest_tail hfile]
  cases hnear : nearest t configToFind c with
  | none => rfl
  | some d => exact congrArg Except.ok (foundIn_above hcwd (nearest_suffix hnear).length_le rounds)

private theorem searchingBackward_eq {s : ConfigSearching} {fuel : Nat} (hfuel : s.cwd.length < fuel) :
    searchingBackward t configToFind fuel s = some (outcome t configToFind 0 s) := by
  induction fuel generalizing s with
  | zero => exact absurd hfuel (Nat.not_lt_zero _)
  | succ fuel ih =>
    rw [searchingBackward, holdsConfig_eq]
    by_cases hfile : t.isRegularFile (configToFind :: s.cwd)
    · rw [if_pos hfile, outcome_some (nearest_of_holds hfile), foundIn_zero le_rfl]
    · rw [if_neg hfile]
      cases hcwd : s.cwd with
      | nil =>
        rw [hcwd] at hfile
        rw [if_pos rfl, outcome_none (hcwd ▸ nearest_root hfile)]
      | cons name c =>
        rw [hcwd] at hfile hfuel
        rw [if_neg (List.cons_ne_nil name c), currentPath_dots, List.tail_cons,
          ih (Nat.lt_of_succ_lt_succ hfuel), outcome, outcome, hcwd, nearest_tail hfile]
        cases hnear : nearest t configToFind c with
        | none => rfl
        | some d =>
          have hle := (nearest_suffix hnear).length_le
          rw [Option.elim_some, Option.elim_some, foundIn_zero hle,
            foundIn_zero (hcwd ▸ Nat.le_succ_of_le hle)]

private theorem searchingBegin_eq {rounds fuel : Nat} {s : ConfigSearching} (hs : s.configFounded = false)
    (hlevel : s.levelUp + rounds = 4) (hfuel : s.cwd.length + rounds + 1 < fuel) :
    searchingBegin t configToFind fuel s = some (outcome t configToFind rounds s) := by
  induction rounds generalizing s fuel with
  | zero =>
    obtain ⟨n, rfl⟩ := Nat.exists_eq_add_one.mpr (Nat.zero_lt_of_lt hfuel)
    rw [searchingBegin, if_neg (by omega), if_pos hs, searchingBackward_eq (by omega)]
  | succ rounds ih =>
    obtain ⟨n, rfl⟩ := Nat.exists_eq_add_one.mpr (Nat.zero_lt_of_lt hfuel)
    obtain ⟨m, rfl⟩ := Nat.exists_eq_add_one.mpr (show 0 < n by omega)
    rw [searchingBegin, if_pos ⟨hs, by omega⟩, searchingForward_eq hs (Nat.succ_pos m)]
    by_cases hfile : t.isRegularFile (configToFind :: s.cwd)
    · rw [if_pos hfile, outcome_some (nearest_of_holds hfile), foundIn_here]
      rfl
    · rw [if_neg hfile]
      cases hcwd : s.cwd with
      | nil =>
        rw [hcwd] at hfile
        rw [if_pos rfl, outcome_none (hcwd ▸ nearest_root hfile)]
      | cons name c =>
        rw [hcwd, List.length_cons] at hfuel
        rw [hcwd] at hfile
        rw [if_neg (List.cons_ne_nil name c), outcome_above hcwd hfile, List.tail_cons]
        exact ih hs (by dsimp only; omega) (by dsimp only; omega)

private theorem construct_endsWith (cwd : t.Directory) :
    EndsWith t configToFind cwd (outcome t configToFind 4 (init cwd.1)) :=
  ⟨cwd.1.length + 6, fun _ hfuel => searchingBegin_eq rfl rfl (by simp only [init]; omega)⟩

theorem EndsWith.unique {cwd : t.Directory} {result result' : SearchResult}
    (h : EndsWith t configToFind cwd result) (h' : EndsWith t configToFind cwd result') :
    result = result' := by
  obtain ⟨n, hn⟩ := h
  obtain ⟨m, hm⟩ := h'
  exact Option.some.inj ((hn _ (le_max_left n m)).symm.trans (hm _ (le_max_right n m)))

private theorem endsWith_iff {cwd : t.Directory} {result : SearchResult} :
    EndsWith t configToFind cwd result ↔ result = outcome t configToFind 4 (init cwd.1) :=
  ⟨fun h => h.unique (construct_endsWith cwd), fun h => h ▸ construct_endsWith cwd⟩

end Spec

/-- `return_path`. -/
def returnPath (s : ConfigSearching) : Text := s.path

/-! ## Searching upwards -/

section Upwards

variable {t : DirectoryTree} {configToFind : Text} {cwd : t.Directory}

variable (t configToFind cwd) in
/-- The constructor ends; it finds the file in the nearest of the current directory and those above
it, and throws when the file is in none of them. -/
structure SearchesUp : Prop where
  terminates : ∃ result, EndsWith t configToFind cwd result
  found : ∀ d, nearest t configToFind cwd.1 = some d →
    ∃ s, EndsWith t configToFind cwd (.ok s) ∧ s.returnPath = pathText (configToFind :: d)
  absent : nearest t configToFind cwd.1 = none →
    EndsWith t configToFind cwd (.error (notFounded configToFind))

private theorem pathText_ne_parent {name : Text} (h : name ≠ []) (d : Place) :
    pathText d ≠ pathText (name :: d) := by
  intro heq
  have hlength := congrArg List.length heq
  have hname := List.length_pos_iff.mpr h
  rw [length_pathText (List.cons_ne_nil name d), ← List.singleton_append, pathLength_append,
    pathLength, List.map_singleton, List.sum_singleton] at hlength
  cases d with
  | nil =>
    rw [length_pathText_root] at hlength
    omega
  | cons name' d =>
    rw [length_pathText (List.cons_ne_nil name' d)] at hlength
    omega

/-- The search keeps its promise exactly when the nearest file, if there is one, is at most three
levels up, where `searching_forward` comes upon it. -/
theorem upward_search_iff (t : DirectoryTree) (configToFind : Text) (cwd : t.Directory) :
    SearchesUp t configToFind cwd ↔
      ∀ d, nearest t configToFind cwd.1 = some d → cwd.1.length ≤ d.length + 3 := by
  constructor
  · intro h d hd
    obtain ⟨s, hs, hpath⟩ := h.found d hd
    rw [endsWith_iff, outcome_some hd] at hs
    obtain rfl := Except.ok.inj hs
    by_contra hfar
    have hname := (DirectoryTree.objectName_of_kindAt
      (by simpa [DirectoryTree.isRegularFile] using holds_of_nearest hd)).nonempty
    have hbackward : (foundIn configToFind 4 (init cwd.1) d).returnPath = pathText d :=
      if_neg (show ¬cwd.1.length < d.length + 4 by omega)
    exact pathText_ne_parent hname d (hbackward.symm.trans hpath)
  · intro h
    refine ⟨⟨_, construct_endsWith cwd⟩, ?_, ?_⟩
    · intro d hd
      have hnear := h d hd
      exact ⟨foundIn configToFind 4 (init cwd.1) d, endsWith_iff.mpr (outcome_some hd).symm,
        if_pos (show cwd.1.length < d.length + 4 by omega)⟩
    · intro hnone
      exact endsWith_iff.mpr (outcome_none hnone).symm

/-- The directories `/a/b/c/d/e` and the file `/a/ini`. -/
def nestedTree : DirectoryTree where
  objects :=
    [([['a']], .directory), (["ini".toList, ['a']], .regularFile), ([['b'], ['a']], .directory),
      ([['c'], ['b'], ['a']], .directory), ([['d'], ['c'], ['b'], ['a']], .directory),
      ([['e'], ['d'], ['c'], ['b'], ['a']], .directory)]
  nodup := by decide
  named := by decide
  parent := by decide

def innermost : nestedTree.Directory := ⟨[['e'], ['d'], ['c'], ['b'], ['a']], by decide⟩

theorem file_four_levels_up_not_found :
    ¬∀ (t : DirectoryTree) (configToFind : Text) (cwd : t.Directory),
      (∀ p, t.isRegularFile (configToFind :: p) → p <:+ cwd.1) → SearchesUp t configToFind cwd := by
  intro h
  have honly : ∀ p, nestedTree.isRegularFile ("ini".toList :: p) → p <:+ innermost.1 := by
    intro p hp
    have hmem := DirectoryTree.mem_of_kindAt (by simpa [DirectoryTree.isRegularFile] using hp)
    have hplaces : ∀ o ∈ nestedTree.objects, o.2 = .regularFile → o.1 = ["ini".toList, ['a']] := by
      decide
    obtain rfl : p = [['a']] := (List.cons.inj (hplaces _ hmem rfl)).2
    decide
  obtain ⟨s, hs, hpath⟩ := (h nestedTree "ini".toList innermost honly).found [['a']] (by decide)
  have hvalue : outcome nestedTree "ini".toList 4 (init innermost.1) =
      .ok ⟨0, 4, true, ['/', 'a'], [['a']], []⟩ := by decide
  obtain rfl := Except.ok.inj ((endsWith_iff.mp hs).trans hvalue)
  exact absurd hpath (by decide)

end Upwards

/-! ## Searching downwards -/

section Downwards

variable {t : DirectoryTree} {configToFind : Text} {cwd : t.Directory} {sub : Place}

variable (t configToFind cwd sub) in
/-- The constructor finds the file in the directory that `sub` leads down to, after it has entered
the directories on the way, and a call of `searching_forward` for a subdirectory that comes back
without the file leaves the working directory and the level as they were. -/
structure FindsBelow : Prop where
  finds : ∃ s, EndsWith t configToFind cwd (.ok s) ∧
    s.returnPath = pathText (configToFind :: (sub ++ cwd.1)) ∧
      ∀ p, p ≠ [] → p <:+ sub → p ++ cwd.1 ∈ s.visited
  restores : ∀ previousDir fuel (s s' : ConfigSearching) entry, s.configFounded = false →
    searchingForward t configToFind previousDir fuel
        { s with levelDown := s.levelDown + 1, cwd := entry :: s.cwd } = some (.ok s') →
      s'.configFounded = false → s'.cwd = s.cwd ∧ s'.levelDown - 1 = s.levelDown

/-- A branch that is left without the file is left as it was entered; only no branch is. -/
theorem branch_restores {previousDir : Option Place} {fuel : Nat} {s s' : ConfigSearching}
    {entry : Text} (hs : s.configFounded = false)
    (h : searchingForward t configToFind previousDir fuel
      { s with levelDown := s.levelDown + 1, cwd := entry :: s.cwd } = some (.ok s'))
    (hs' : s'.configFounded = false) : s'.cwd = s.cwd ∧ s'.levelDown - 1 = s.levelDown := by
  cases fuel with
  | zero => cases h
  | succ fuel =>
    rw [searchingForward_eq (by exact hs) (Nat.succ_pos fuel)] at h
    split at h
    case isTrue =>
      obtain rfl := Except.ok.inj (Option.some.inj h)
      cases hs'
    case isFalse =>
      rw [if_neg (List.cons_ne_nil entry s.cwd)] at h
      obtain rfl := Except.ok.inj (Option.some.inj h)
      exact ⟨rfl, Int.add_sub_cancel _ _⟩

private theorem length_pathText_cons (name : Text) (d : Place) :
    (pathText (name :: d)).length = name.length + 1 + pathLength d := by
  rw [length_pathText (List.cons_ne_nil name d), pathLength, List.map_cons, List.sum_cons]
  rfl

private theorem length_returnPath_le {s : ConfigSearching} (h : EndsWith t configToFind cwd (.ok s)) :
    s.returnPath.length ≤ (pathText (configToFind :: cwd.1)).length := by
  cases hnear : nearest t configToFind cwd.1 with
  | none =>
    rw [endsWith_iff, outcome_none hnear] at h
    cases h
  | some d =>
    rw [endsWith_iff, outcome_some hnear] at h
    obtain rfl := Except.ok.inj h
    obtain ⟨w, hw⟩ := nearest_suffix hnear
    have hle : pathLength d ≤ pathLength cwd.1 := by
      rw [← hw, pathLength_append]
      omega
    have hparent : (pathText d).length ≤ 1 + pathLength d := by
      cases d with
      | nil => exact le_rfl
      | cons name d =>
        rw [length_pathText (List.cons_ne_nil name d)]
        omega
    rw [length_pathText_cons]
    unfold foundIn returnPath
    dsimp only
    split
    · rw [length_pathText_cons]
      omega
    · omega

/-- No file below the current directory is ever found: the branch that would enter a subdirectory
stands behind the test for a regular file. -/
theorem downward_search_never (t : DirectoryTree) (configToFind : Text) (cwd : t.Directory)
    {sub : Place} (hsub : sub ≠ []) : ¬FindsBelow t configToFind cwd sub := by
  intro h
  obtain ⟨s, hs, hpath, -⟩ := h.finds
  have hle := length_returnPath_le hs
  have hpos := pathLength_pos hsub
  rw [hpath, length_pathText_cons, length_pathText_cons, pathLength_append] at hle
  omega

def outermost : nestedTree.Directory := ⟨[], by decide⟩

theorem downward_search_never_one_level :
    nestedTree.isRegularFile ["ini".toList, ['a']] ∧
      ¬FindsBelow nestedTree "ini".toList outermost [['a']] :=
  ⟨by decide, downward_search_never nestedTree "ini".toList outermost (List.cons_ne_nil _ _)⟩

theorem file_one_level_down_not_found :
    ¬∀ (t : DirectoryTree) (configToFind : Text) (cwd : t.Directory) (sub : Place),
      1 ≤ sub.length → sub.length ≤ 3 → t.isRegularFile (configToFind :: (sub ++ cwd.1)) →
        (∀ d, d <:+ cwd.1 → ¬t.isRegularFile (configToFind :: d)) →
          FindsBelow t configToFind cwd sub := by
  intro h
  have habove : ∀ d, d <:+ outermost.1 → ¬nestedTree.isRegularFile ("ini".toList :: d) := by
    intro d hd
    obtain rfl : d = [] := List.suffix_nil.mp hd
    decide
  obtain ⟨s, hs, -⟩ := (h nestedTree "ini".toList outermost [['a']] (by decide) (by decide)
    (by decide) habove).finds
  have hvalue : outcome nestedTree "ini".toList 4 (init outermost.1) =
      .error (notFounded "ini".toList) := by decide
  exact absurd ((endsWith_iff.mp hs).trans hvalue) (by simp)

end Downwards

end ConfigSearching

end PetProject.IniParser
