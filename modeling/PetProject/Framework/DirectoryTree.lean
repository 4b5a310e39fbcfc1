import Mathlib.Algebra.GroupWithZero.Nat
import Mathlib.Data.List.Basic
import Mathlib.Data.List.Dedup
import Mathlib.Data.List.Infix
import PetProject.Framework.SqlText

/-!
# Directory trees

A finite tree of directories. A place is the list of the names that lead from an object up to the
root, so that a directory lies above a place exactly if it is a proper suffix of it.
-/

namespace Framework

/-- The names on the way from an object up to the root. -/
abbrev Place := List Text

inductive ObjectKind
  | regularFile
  | directory
  | other
  deriving DecidableEq, Repr

/-- A name that a directory may hold. -/
structure ObjectName (name : Text) : Prop where
  nonempty : name ≠ []
  no_slash : '/' ∉ name
  not_dot : name ≠ ['.']
  not_dots : name ≠ ['.', '.']

instance (name : Text) : Decidable (ObjectName name) :=
  decidable_of_iff (name ≠ [] ∧ '/' ∉ name ∧ name ≠ ['.'] ∧ name ≠ ['.', '.'])
    ⟨fun h => ⟨h.1, h.2.1, h.2.2.1, h.2.2.2⟩,
      fun h => ⟨h.nonempty, h.no_slash, h.not_dot, h.not_dots⟩⟩

/-- The objects below the root, in an order in which the iterators yield them. -/
structure DirectoryTree where
  objects : List (Place × ObjectKind)
  nodup : (objects.map Prod.fst).Nodup
  named : ∀ o ∈ objects, o.1 ≠ [] ∧ ∀ name ∈ o.1, ObjectName name
  parent : ∀ o ∈ objects, o.1.tail = [] ∨ (o.1.tail, .directory) ∈ objects

namespace DirectoryTree

variable (t : DirectoryTree)

/-- What lies at a place. -/
def kindAt : Place → Option ObjectKind
  | [] => some .directory
  | name :: d => (t.objects.find? fun o => o.1 = name :: d).map Prod.snd

def isDirectory (p : Place) : Bool := t.kindAt p = some .directory

def isRegularFile (p : Place) : Bool := t.kindAt p = some .regularFile

def entries (d : Place) : List Text :=
  t.objects.filterMap fun o => if o.1.tail = d then o.1.head? else none

def Directory : Type := { d : Place // t.isDirectory d }

variable {t}

theorem kindAt_eq_some_of_mem {name : Text} {d : Place} {k : ObjectKind}
    (h : (name :: d, k) ∈ t.objects) : t.kindAt (name :: d) = some k := by
  have hfound : (t.objects.find? fun o => o.1 = name :: d).isSome := by
    rw [List.find?_isSome]
    exact ⟨_, h, by simp⟩
  obtain ⟨o, ho⟩ := Option.isSome_iff_exists.mp hfound
  have hplace : o.1 = name :: d := by simpa using List.find?_some ho
  have hsame : o = (name :: d, k) :=
    List.inj_on_of_nodup_map t.nodup (List.mem_of_find?_eq_some ho) h hplace
  rw [kindAt, ho, hsame, Option.map_some]

theorem mem_of_kindAt {name : Text} {d : Place} {k : ObjectKind}
    (h : t.kindAt (name :: d) = some k) : (name :: d, k) ∈ t.objects := by
  obtain ⟨o, ho, rfl⟩ := Option.map_eq_some_iff.mp h
  have hplace : o.1 = name :: d := by simpa using List.find?_some ho
  rw [← hplace]
  exact List.mem_of_find?_eq_some ho

theorem mem_entries_iff {name : Text} {d : Place} :
    name ∈ t.entries d ↔ ∃ k, t.kindAt (name :: d) = some k := by
  constructor
  · intro h
    obtain ⟨o, ho, hname⟩ := List.mem_filterMap.mp h
    split at hname
    case isFalse => cases hname
    case isTrue htail =>
      have hplace : o.1 = name :: d := by
        rw [← htail]
        exact (List.cons_head?_tail hname).symm
      exact ⟨o.2, kindAt_eq_some_of_mem (hplace ▸ ho)⟩
  · rintro ⟨k, hk⟩
    exact List.mem_filterMap.mpr ⟨_, mem_of_kindAt hk, if_pos rfl⟩

theorem objectName_of_kindAt {name : Text} {d : Place} {k : ObjectKind}
    (h : t.kindAt (name :: d) = some k) : ObjectName name :=
  (t.named _ (mem_of_kindAt h)).2 name List.mem_cons_self

theorem mem_entries_of_isRegularFile {name : Text} {d : Place} (h : t.isRegularFile (name :: d)) :
    name ∈ t.entries d :=
  mem_entries_iff.mpr ⟨_, by simpa [isRegularFile] using h⟩

end DirectoryTree

/-- The absolute path of a place. -/
def pathText (p : Place) : Text :=
  if p = [] then ['/'] else p.reverse.flatMap fun name => '/' :: name

/-- The number of characters that the names of a place take up in its path. -/
def pathLength (p : Place) : Nat := (p.map fun name => name.length + 1).sum

theorem pathLength_append (p q : Place) : pathLength (p ++ q) = pathLength p + pathLength q := by
  rw [pathLength, List.map_append, List.sum_append, pathLength, pathLength]

theorem pathLength_pos {p : Place} (h : p ≠ []) : 0 < pathLength p := by
  cases p with
  | nil => exact absurd rfl h
  | cons name d =>
    rw [pathLength, List.map_cons, List.sum_cons]
    omega

theorem length_pathText {p : Place} (h : p ≠ []) : (pathText p).length = pathLength p := by
  rw [pathText, if_neg h, List.length_flatMap, List.map_reverse, List.sum_reverse]
  rfl

theorem length_pathText_root : (pathText []).length = 1 := rfl

end Framework
