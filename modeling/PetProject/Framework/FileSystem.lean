import Mathlib.Logic.Function.Basic
import PetProject.Framework.SqlText

/-!
# Files behind paths

A file system as a program sees it through paths: several spellings of a path have one canonical
form, and several canonical paths may name one file. Opening a file to append to it leaves every
file alone; opening it to write truncates it.
-/

namespace Framework

structure File where
  content : List UInt8
  lastWriteTime : Int
  sizeReadable : Bool
  writable : Bool
  deriving DecidableEq

/-- What `file_size` yields; `none` is an error. -/
def File.size (f : File) : Option Nat := if f.sizeReadable then some f.content.length else none

/-- `canonical` follows the links of a path up to the place where a file is or can be created;
`listing` holds the names in a directory in the order of iteration. -/
structure FileSystem where
  canonical : Text → Option Text
  inode : Text → Option Nat
  file : Nat → Option File
  listing : Text → Option (List Text)
  mayCreate : Text → Bool
  clock : Int
  newInode : Nat
  fresh : ∀ n, newInode ≤ n → file n = none

namespace FileSystem

def lookup (fs : FileSystem) (path : Text) : Option Nat := (fs.canonical path).bind fs.inode

def fileAt (fs : FileSystem) (path : Text) : Option File := (fs.lookup path).bind fs.file

theorem fileAt_eq_some {fs : FileSystem} {path : Text} {f : File} :
    fs.fileAt path = some f ↔ ∃ n, fs.lookup path = some n ∧ fs.file n = some f :=
  Option.bind_eq_some_iff

/-- A new file at the place that the path leads to, when nothing is there yet. -/
def create (fs : FileSystem) (path : Text) : FileSystem :=
  match fs.canonical path with
  | none => fs
  | some place =>
    if fs.mayCreate place then
      { fs with
        inode := Function.update fs.inode place (some fs.newInode)
        file := Function.update fs.file fs.newInode (some ⟨[], fs.clock, true, true⟩)
        newInode := fs.newInode + 1
        fresh := fun n hn => by
          have hne : n ≠ fs.newInode := by omega
          rw [Function.update_of_ne hne]
          exact fs.fresh n (by omega) }
    else fs

/-- The file loses its content if it can be written. -/
def truncate (fs : FileSystem) (n : Nat) : FileSystem :=
  { fs with
    file := Function.update fs.file n ((fs.file n).map fun f =>
      if f.writable then { f with content := [], lastWriteTime := fs.clock } else f)
    fresh := fun m hm => by
      by_cases hmn : m = n
      · subst hmn
        rw [Function.update_self, fs.fresh m hm]
        rfl
      · rw [Function.update_of_ne hmn]
        exact fs.fresh m hm }

/-- Opening with `app`. -/
def openApp (fs : FileSystem) (path : Text) : FileSystem :=
  match fs.lookup path with
  | none => fs.create path
  | some _ => fs

/-- Opening with `out`. -/
def openOut (fs : FileSystem) (path : Text) : FileSystem :=
  match fs.lookup path with
  | none => fs.create path
  | some n => fs.truncate n

/-- Every file is where it was, with the content it had. -/
def Keeps (fs fs' : FileSystem) : Prop :=
  ∀ path f, fs.fileAt path = some f → ∃ f', fs'.fileAt path = some f' ∧ f'.content = f.content

theorem Keeps.refl (fs : FileSystem) : fs.Keeps fs := fun _ f h => ⟨f, h, rfl⟩

theorem keeps_create {fs : FileSystem} {path : Text} (hpath : fs.lookup path = none) :
    fs.Keeps (fs.create path) := by
  unfold create
  split
  case h_1 => exact Keeps.refl fs
  case h_2 place hplace =>
    split
    case isFalse => exact Keeps.refl fs
    case isTrue =>
      intro p f hf
      obtain ⟨n, hn, hfile⟩ := fileAt_eq_some.mp hf
      obtain ⟨q, hq, hinode⟩ := Option.bind_eq_some_iff.mp hn
      have hqplace : q ≠ place := by
        rintro rfl
        rw [lookup, hplace] at hpath
        exact nomatch hpath.symm.trans hinode
      have hnew : n ≠ fs.newInode := by
        rintro rfl
        exact nomatch (fs.fresh _ le_rfl).symm.trans hfile
      refine ⟨f, fileAt_eq_some.mpr ⟨n, Option.bind_eq_some_iff.mpr ⟨q, hq, ?_⟩, ?_⟩, rfl⟩
      · exact (Function.update_of_ne hqplace _ _).trans hinode
      · exact (Function.update_of_ne hnew _ _).trans hfile

theorem keeps_openApp (fs : FileSystem) (path : Text) : fs.Keeps (fs.openApp path) := by
  unfold openApp
  split
  case h_1 hpath => exact keeps_create hpath
  case h_2 => exact Keeps.refl fs

theorem fileAt_truncate {fs : FileSystem} {path : Text} {n : Nat} {f : File}
    (hpath : fs.lookup path = some n) (hfile : fs.file n = some f) (hwritable : f.writable) :
    (fs.truncate n).fileAt path = some { f with content := [], lastWriteTime := fs.clock } := by
  refine fileAt_eq_some.mpr ⟨n, hpath, (Function.update_self n _ _).trans ?_⟩
  rw [hfile, Option.map_some, if_pos hwritable]

theorem keeps_truncate {fs : FileSystem} {n : Nat}
    (h : ∀ f, fs.file n = some f → f.writable → f.content = []) : fs.Keeps (fs.truncate n) := by
  intro p f hf
  obtain ⟨m, hm, hfile⟩ := fileAt_eq_some.mp hf
  by_cases hmn : m = n
  · subst hmn
    by_cases hwritable : f.writable
    · exact ⟨_, fileAt_truncate hm hfile hwritable, (h f hfile hwritable).symm⟩
    · refine ⟨f, fileAt_eq_some.mpr ⟨m, hm, (Function.update_self m _ _).trans ?_⟩, rfl⟩
      rw [hfile, Option.map_some, if_neg hwritable]
  · exact ⟨f, fileAt_eq_some.mpr ⟨m, hm, (Function.update_of_ne hmn _ _).trans hfile⟩, rfl⟩

/-- The same files, some of them perhaps under more paths than before. -/
structure SameFiles (fs fs' : FileSystem) : Prop where
  file : fs'.file = fs.file
  lookup : ∀ path n, fs.lookup path = some n → fs'.lookup path = some n
  found : ∀ path n f, fs'.lookup path = some n → fs.file n = some f → ∃ q, fs.lookup q = some n

theorem SameFiles.refl (fs : FileSystem) : fs.SameFiles fs :=
  ⟨rfl, fun _ _ => id, fun path _ _ hpath _ => ⟨path, hpath⟩⟩

theorem SameFiles.fileAt {fs fs' : FileSystem} (h : fs.SameFiles fs') {path : Text} {f : File}
    (hf : fs.fileAt path = some f) : fs'.fileAt path = some f := by
  obtain ⟨n, hn, hfile⟩ := fileAt_eq_some.mp hf
  exact fileAt_eq_some.mpr ⟨n, h.lookup path n hn, h.file ▸ hfile⟩

theorem SameFiles.keeps {fs fs' fs'' : FileSystem} (h : fs.SameFiles fs') (hkeeps : fs'.Keeps fs'') :
    fs.Keeps fs'' := fun path f hf => hkeeps path f (h.fileAt hf)

/-- Opening to write destroys a file exactly if the path denotes one with content that can be
written. -/
theorem SameFiles.keeps_openOut_iff {fs fs' : FileSystem} (h : fs.SameFiles fs') (path : Text) :
    fs.Keeps (fs'.openOut path) ↔
      ∀ f, fs'.fileAt path = some f → f.writable → f.content = [] := by
  unfold openOut
  split
  case h_1 hpath =>
    refine iff_of_true (h.keeps (keeps_create hpath)) fun f hf => ?_
    rw [FileSystem.fileAt, hpath] at hf
    exact nomatch hf
  case h_2 n hpath =>
    constructor
    · intro hkeeps f hf hwritable
      obtain ⟨m, hm, hfile⟩ := fileAt_eq_some.mp hf
      obtain rfl : m = n := Option.some.inj (hm.symm.trans hpath)
      -- the file had a name before, under which its content was the same
      obtain ⟨q, hq⟩ := h.found path m f hpath (h.file ▸ hfile)
      have hbefore : fs.fileAt q = some f := fileAt_eq_some.mpr ⟨m, hq, h.file ▸ hfile⟩
      obtain ⟨f', hf', hcontent⟩ := hkeeps q f hbefore
      have hafter := fileAt_truncate (h.lookup q m hq) hfile hwritable
      rw [← hcontent, ← Option.some.inj (hafter.symm.trans hf')]
    · intro hempty
      exact h.keeps (keeps_truncate fun f hfile =>
        hempty f (fileAt_eq_some.mpr ⟨n, hpath, hfile⟩))

/-- What `create_directories` leaves behind: an empty directory, and the files as they were. -/
structure NewDirectory (fs : FileSystem) (path : Text) where
  after : FileSystem
  sameFiles : fs.SameFiles after
  listing : after.listing path = some []

end FileSystem

/-- `std::filesystem::path::operator/=`. -/
def joinPath (dir name : Text) : Text :=
  if name.head? = some '/' then name
  else if dir = [] ∨ dir.getLast? = some '/' then dir ++ name
  else dir ++ '/' :: name

theorem joinPath_injective {dir name name' : Text} (h : name.head? ≠ some '/')
    (h' : name'.head? ≠ some '/') (heq : joinPath dir name = joinPath dir name') :
    name = name' := by
  unfold joinPath at heq
  rw [if_neg h, if_neg h'] at heq
  split at heq
  case isTrue => exact List.append_cancel_left heq
  case isFalse => exact List.tail_eq_of_cons_eq (List.append_cancel_left heq)

theorem joinPath_ne_nil {dir name : Text} (h : name ≠ []) : joinPath dir name ≠ [] := by
  unfold joinPath
  split
  case isTrue => exact h
  case isFalse =>
    split
    case isTrue => exact fun hnil => h (List.append_eq_nil_iff.mp hnil).2
    case isFalse => exact fun hnil => nomatch (List.append_eq_nil_iff.mp hnil).2

end Framework
