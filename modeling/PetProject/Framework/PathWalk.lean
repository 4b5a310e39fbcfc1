import PetProject.Framework.DirectoryTree

/-!
# Walking along paths

The components of a path lead through the directories of a tree, `..` up and a name down. Where they
lead can be told from the components alone, relative to the directory in which the walk begins.
-/

namespace Framework

/-- What lies between the slashes of a path. -/
def components (path : Text) : List Text := path.splitOn '/'

/-- A component that does not lead down to an object. -/
def IsDots (c : Text) : Prop := c = [] ∨ c = ['.'] ∨ c = ['.', '.']

instance (c : Text) : Decidable (IsDots c) := inferInstanceAs (Decidable (_ ∨ _ ∨ _))

theorem components_ne_nil (path : Text) : components path ≠ [] := List.splitOn_ne_nil '/' path

theorem components_append_cons (dir name : Text) :
    components (dir ++ '/' :: name) = components dir ++ components name :=
  List.splitOn_append_cons_self dir name

theorem slash_notMem_components {path c : Text} (h : c ∈ components path) : '/' ∉ c := by
  rw [components] at h
  induction path generalizing c with
  | nil =>
    obtain rfl := List.mem_singleton.mp h
    exact List.not_mem_nil
  | cons x path ih =>
    rw [List.splitOn_cons_eq_if_modifyHead] at h
    split at h
    case isTrue =>
      rcases List.mem_cons.mp h with rfl | h
      · exact List.not_mem_nil
      · exact ih h
    case isFalse hx =>
      obtain ⟨first, rest, hsplit⟩ := List.exists_cons_of_ne_nil (List.splitOn_ne_nil '/' path)
      rw [hsplit] at h ih
      rcases List.mem_cons.mp h with rfl | h
      · rintro hslash
        rcases List.mem_cons.mp hslash with rfl | hslash
        · exact hx (beq_self_eq_true '/')
        · exact ih List.mem_cons_self hslash
      · exact ih (List.mem_cons_of_mem first h)

theorem objectName_component {path c : Text} (h : c ∈ components path) (hdots : ¬IsDots c) :
    ObjectName c where
  nonempty hc := hdots (Or.inl hc)
  no_slash := slash_notMem_components h
  not_dot hc := hdots (Or.inr (Or.inl hc))
  not_dots hc := hdots (Or.inr (Or.inr hc))

namespace DirectoryTree

variable (t : DirectoryTree)

/-- One component on the way through directories. -/
def enter (p : Place) (c : Text) : Option Place :=
  if c = [] ∨ c = ['.'] then some p
  else if c = ['.', '.'] then some p.tail
  else if t.isDirectory (c :: p) then some (c :: p) else none

def walk (p : Place) : List Text → Option Place
  | [] => some p
  | c :: cs => (t.enter p c).bind fun q => walk q cs

theorem walk_append (p : Place) (as bs : List Text) :
    t.walk p (as ++ bs) = (t.walk p as).bind fun q => t.walk q bs := by
  induction as generalizing p with
  | nil => rfl
  | cons c as ih =>
    rw [List.cons_append, walk, walk, Option.bind_assoc]
    congr 1
    funext q
    exact ih q

variable {t}

theorem isDirectory_root : t.isDirectory [] := rfl

theorem isDirectory_tail {p : Place} (h : t.isDirectory p) : t.isDirectory p.tail := by
  cases p with
  | nil => exact h
  | cons name d =>
    have hmem := mem_of_kindAt (of_decide_eq_true h)
    rcases t.parent _ hmem with hroot | hparent
    · rw [hroot]
      exact isDirectory_root
    · cases d with
      | nil => exact isDirectory_root
      | cons => exact decide_eq_true (kindAt_eq_some_of_mem hparent)

theorem isDirectory_of_suffix {p q : Place} (h : t.isDirectory p) (hq : q <:+ p) :
    t.isDirectory q := by
  obtain ⟨names, rfl⟩ := hq
  induction names with
  | nil => exact h
  | cons name names ih => exact ih (isDirectory_tail h)

end DirectoryTree

/-! ## Routes -/

/-- Some levels up, and then down the names of the stack, the last one first. -/
structure Route where
  up : Nat
  stack : List Text
  deriving DecidableEq

namespace Route

def start : Route := ⟨0, []⟩

def enter (r : Route) (c : Text) : Route :=
  if c = [] ∨ c = ['.'] then r
  else if c = ['.', '.'] then
    match r.stack with
    | [] => ⟨r.up + 1, []⟩
    | _ :: names => ⟨r.up, names⟩
  else ⟨r.up, c :: r.stack⟩

/-- Where the components lead in the end. -/
def follow (r : Route) (cs : List Text) : Route := cs.foldl enter r

/-- Where the components lead one after the other. -/
def trail (r : Route) : List Text → List Route
  | [] => [r]
  | c :: cs => r :: trail (r.enter c) cs

/-- The place to which the route leads from another one. -/
def placeFrom (r : Route) (base : Place) : Place := r.stack ++ base.drop r.up

theorem placeFrom_start (base : Place) : start.placeFrom base = base := rfl

theorem placeFrom_root (r : Route) : r.placeFrom [] = r.stack := by
  rw [placeFrom, List.drop_nil, List.append_nil]

theorem self_mem_trail (r : Route) (cs : List Text) : r ∈ r.trail cs := by
  cases cs <;> exact List.mem_cons_self

theorem enter_placeFrom {t : DirectoryTree} {r : Route} {base : Place}
    (h : t.isDirectory (r.placeFrom base)) (c : Text) :
    t.enter (r.placeFrom base) c =
      if t.isDirectory ((r.enter c).placeFrom base) then some ((r.enter c).placeFrom base)
      else none := by
  rw [DirectoryTree.enter, enter]
  split
  case isTrue => rfl
  case isFalse =>
    split
    case isTrue =>
      have htail : (r.placeFrom base).tail = (match r.stack with
          | [] => (⟨r.up + 1, []⟩ : Route)
          | _ :: names => ⟨r.up, names⟩).placeFrom base := by
        cases hstack : r.stack with
        | nil => simp [placeFrom, hstack, List.tail_drop]
        | cons name names => simp [placeFrom, hstack]
      rw [← htail, if_pos (DirectoryTree.isDirectory_tail h)]
    case isFalse => rfl

/-- A walk succeeds exactly if the route leads from directory to directory. -/
theorem walk_eq_some_iff {t : DirectoryTree} {r : Route} {base p : Place}
    (h : t.isDirectory (r.placeFrom base)) (cs : List Text) :
    t.walk (r.placeFrom base) cs = some p ↔
      p = (r.follow cs).placeFrom base ∧ ∀ s ∈ r.trail cs, t.isDirectory (s.placeFrom base) := by
  induction cs generalizing r with
  | nil =>
    rw [DirectoryTree.walk, Option.some.injEq, follow, List.foldl_nil, trail, List.forall_mem_singleton]
    exact ⟨fun hp => ⟨hp.symm, h⟩, fun hp => hp.1.symm⟩
  | cons c cs ih =>
    rw [DirectoryTree.walk, enter_placeFrom h, trail, List.forall_mem_cons]
    by_cases hc : t.isDirectory ((r.enter c).placeFrom base)
    · rw [if_pos hc, Option.bind_some, ih hc]
      exact and_congr_right fun _ => (and_iff_right h).symm
    · rw [if_neg hc, Option.bind_none]
      exact iff_of_false (by simp) fun hall => hc (hall.2.2 _ (self_mem_trail _ _))

theorem walk_start_iff {t : DirectoryTree} {base p : Place} (h : t.isDirectory base)
    (cs : List Text) :
    t.walk base cs = some p ↔
      p = (start.follow cs).placeFrom base ∧ ∀ s ∈ start.trail cs, t.isDirectory (s.placeFrom base) :=
  walk_eq_some_iff (r := start) h cs

theorem mem_stack_enter {r : Route} {c name : Text} (h : name ∈ (r.enter c).stack) :
    name ∈ r.stack ∨ (name = c ∧ ¬IsDots c) := by
  rw [enter] at h
  split at h
  case isTrue => exact Or.inl h
  case isFalse hdot =>
    split at h
    case isTrue =>
      cases hstack : r.stack with
      | nil =>
        rw [hstack] at h
        exact (List.not_mem_nil h).elim
      | cons first names =>
        rw [hstack] at h
        exact Or.inl (List.mem_cons_of_mem first h)
    case isFalse hdots =>
      rcases List.mem_cons.mp h with rfl | h
      · exact Or.inr ⟨rfl, fun h => h.elim (fun h => hdot (Or.inl h)) fun h =>
          h.elim (fun h => hdot (Or.inr h)) hdots⟩
      · exact Or.inl h

theorem mem_stack_trail {r s : Route} {cs : List Text} (hs : s ∈ r.trail cs) {name : Text}
    (hname : name ∈ s.stack) : name ∈ r.stack ∨ (name ∈ cs ∧ ¬IsDots name) := by
  induction cs generalizing r with
  | nil =>
    obtain rfl := List.mem_singleton.mp hs
    exact Or.inl hname
  | cons c cs ih =>
    rcases List.mem_cons.mp hs with rfl | hs
    · exact Or.inl hname
    · rcases ih hs with hfirst | ⟨hmem, hdots⟩
      · rcases mem_stack_enter hfirst with hr | ⟨rfl, hdots⟩
        · exact Or.inl hr
        · exact Or.inr ⟨List.mem_cons_self, hdots⟩
      · exact Or.inr ⟨List.mem_cons_of_mem c hmem, hdots⟩

theorem follow_mem_trail (r : Route) (cs : List Text) : r.follow cs ∈ r.trail cs := by
  induction cs generalizing r with
  | nil => exact List.mem_singleton_self r
  | cons c cs ih => exact List.mem_cons_of_mem r (ih (r.enter c))

theorem up_le_enter (r : Route) (c : Text) : r.up ≤ (r.enter c).up := by
  rw [enter]
  split
  case isTrue => exact Nat.le_refl _
  case isFalse =>
    split
    case isTrue => cases r.stack <;> simp
    case isFalse => exact Nat.le_refl _

theorem up_le_follow {r s : Route} {cs : List Text} (hs : s ∈ r.trail cs) :
    s.up ≤ (r.follow cs).up := by
  induction cs generalizing r s with
  | nil =>
    obtain rfl := List.mem_singleton.mp hs
    exact Nat.le_refl _
  | cons c cs ih =>
    rcases List.mem_cons.mp hs with rfl | hs
    · exact Nat.le_trans (up_le_enter s c) (ih (self_mem_trail (s.enter c) cs))
    · exact ih hs

end Route

end Framework
