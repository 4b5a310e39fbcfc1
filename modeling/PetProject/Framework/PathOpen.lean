import PetProject.Framework.FileSystem
import PetProject.Framework.PathWalk
import PetProject.Framework.Positions

/-!
# Files opened through paths

A path leads to a file that is opened, or to a new one. Which paths lead from every directory to
nothing but its own files can be told from their components.
-/

namespace Framework

/-- The components lead to a file, or to a new one, in a directory; `mayOpen` says which the system
lets the program open. -/
def DirectoryTree.openFrom (t : DirectoryTree) (mayOpen : Place → Bool) (base : Place)
    (cs : List Text) : Option Place :=
  (t.walk base cs.dropLast).bind fun d =>
    let name := cs.getLastD []
    if ¬IsDots name ∧ ¬t.isDirectory (name :: d) ∧ mayOpen (name :: d) then some (name :: d)
    else none

theorem DirectoryTree.openFrom_eq_some_iff {t : DirectoryTree} {mayOpen : Place → Bool}
    {base place : Place} {cs : List Text} :
    t.openFrom mayOpen base cs = some place ↔
      ∃ d, t.walk base cs.dropLast = some d ∧ place = cs.getLastD [] :: d ∧
        ¬IsDots (cs.getLastD []) ∧ ¬t.isDirectory place ∧ mayOpen place := by
  rw [openFrom, Option.bind_eq_some_iff]
  refine exists_congr fun d => and_congr_right fun _ => ?_
  constructor
  · intro h
    dsimp only at h
    split at h
    case isTrue hopen =>
      obtain rfl := Option.some.inj h
      exact ⟨rfl, hopen⟩
    case isFalse => cases h
  · rintro ⟨rfl, hopen⟩
    exact if_pos hopen

theorem DirectoryTree.openFrom_append (t : DirectoryTree) (mayOpen : Place → Bool) (base : Place)
    (as : List Text) {bs : List Text} (hbs : bs ≠ []) :
    t.openFrom mayOpen base (as ++ bs) =
      (t.walk base as).bind fun d => t.openFrom mayOpen d bs := by
  have hlast : (as ++ bs).getLastD [] = bs.getLastD [] := by
    rw [List.getLastD_eq_getLast?, List.getLastD_eq_getLast?, List.getLast?_append_of_ne_nil as hbs]
  rw [openFrom, List.dropLast_append_of_ne_nil hbs, walk_append, Option.bind_assoc, hlast]
  rfl

/-- The components open no file but a child of the directory in which they begin, if they are
relative: they end in no name, or the route before the name leads back to where it began, or the
name is that of a directory on the way. -/
def Harmless (absolute : Prop) (cs : List Text) : Prop :=
  let route := Route.start.follow cs.dropLast
  let name := cs.getLastD []
  IsDots name ∨ (¬absolute ∧ route = Route.start) ∨
    ∃ r ∈ Route.start.trail cs.dropLast, (absolute ∨ r.up = route.up) ∧ name :: route.stack <:+ r.stack

namespace DirectoryTree

variable {t : DirectoryTree} {mayOpen : Place → Bool}

theorem openFrom_eq_some_iff_route {base place : Place} {cs : List Text}
    (hbase : t.isDirectory base) :
    t.openFrom mayOpen base cs = some place ↔
      place = cs.getLastD [] :: (Route.start.follow cs.dropLast).placeFrom base ∧
      (∀ r ∈ Route.start.trail cs.dropLast, t.isDirectory (r.placeFrom base)) ∧
      ¬IsDots (cs.getLastD []) ∧ ¬t.isDirectory place ∧ mayOpen place := by
  rw [openFrom_eq_some_iff]
  constructor
  · rintro ⟨d, hwalk, rfl, hopen⟩
    obtain ⟨rfl, htrail⟩ := (Route.walk_start_iff hbase cs.dropLast).mp hwalk
    exact ⟨rfl, htrail, hopen⟩
  · rintro ⟨rfl, htrail, hopen⟩
    exact ⟨_, (Route.walk_start_iff hbase cs.dropLast).mpr ⟨rfl, htrail⟩, rfl, hopen⟩

theorem openFrom_root_of_harmless {absolute : Prop} (habsolute : absolute) {cs : List Text}
    (h : Harmless absolute cs) (place : Place) : t.openFrom mayOpen [] cs ≠ some place := by
  intro hopen
  obtain ⟨rfl, htrail, hdots, hdir, -⟩ :=
    (openFrom_eq_some_iff_route isDirectory_root).mp hopen
  rcases h with hname | ⟨hrelative, -⟩ | ⟨r, hr, -, hsuffix⟩
  · exact hdots hname
  · exact hrelative habsolute
  · have hdirectory := htrail r hr
    rw [Route.placeFrom_root] at hdir hdirectory
    exact hdir (isDirectory_of_suffix hdirectory hsuffix)

theorem openFrom_of_harmless {absolute : Prop} (hrelative : ¬absolute) {cs : List Text}
    (h : Harmless absolute cs) {d place : Place} (hd : t.isDirectory d)
    (hopen : t.openFrom mayOpen d cs = some place) : place = cs.getLastD [] :: d := by
  obtain ⟨rfl, htrail, hdots, hdir, -⟩ := (openFrom_eq_some_iff_route hd).mp hopen
  rcases h with hname | ⟨-, hroute⟩ | ⟨r, hr, hup, hsuffix⟩
  · exact absurd hname hdots
  · rw [hroute, Route.placeFrom_start]
  · have hdirectory := htrail r hr
    refine absurd (isDirectory_of_suffix hdirectory ?_) hdir
    rw [Route.placeFrom, Route.placeFrom, hup.resolve_left hrelative, ← List.cons_append]
    exact (List.suffix_append_self_iff).mpr hsuffix

end DirectoryTree

/-! ## Where other components lead -/

namespace DirectoryTree

/-- The tree of the given places and what lies above them. -/
def ofPlaces (places : List Place) (h : ∀ p ∈ places, ∀ name ∈ p, ObjectName name) :
    DirectoryTree where
  objects := ((places.flatMap List.tails).filter (· ≠ [])).dedup.map fun p => (p, .directory)
  nodup := by
    rw [List.map_map]
    exact (List.map_id _).symm ▸ List.nodup_dedup _
  named o ho := by
    obtain ⟨p, hp, rfl⟩ := List.mem_map.mp ho
    obtain ⟨hmem, hne⟩ := List.mem_filter.mp (List.mem_dedup.mp hp)
    obtain ⟨q, hq, htails⟩ := List.mem_flatMap.mp hmem
    exact ⟨of_decide_eq_true hne, fun name hname =>
      h q hq name (((List.mem_tails p q).mp htails).subset hname)⟩
  parent o ho := by
    obtain ⟨p, hp, rfl⟩ := List.mem_map.mp ho
    obtain ⟨hmem, -⟩ := List.mem_filter.mp (List.mem_dedup.mp hp)
    obtain ⟨q, hq, htails⟩ := List.mem_flatMap.mp hmem
    by_cases hroot : p.tail = []
    · exact Or.inl hroot
    · refine Or.inr (List.mem_map.mpr ⟨p.tail, List.mem_dedup.mpr (List.mem_filter.mpr
        ⟨List.mem_flatMap.mpr ⟨q, hq, ?_⟩, decide_eq_true hroot⟩), rfl⟩)
      exact (List.mem_tails _ _).mpr ((List.tail_suffix p).trans ((List.mem_tails p q).mp htails))

theorem isDirectory_ofPlaces_iff {places : List Place}
    {h : ∀ p ∈ places, ∀ name ∈ p, ObjectName name} {p : Place} :
    (ofPlaces places h).isDirectory p ↔ p = [] ∨ ∃ q ∈ places, p <:+ q := by
  cases p with
  | nil => exact iff_of_true isDirectory_root (Or.inl rfl)
  | cons name d =>
    have hmem : (name :: d, ObjectKind.directory) ∈ (ofPlaces places h).objects ↔
        ∃ q ∈ places, name :: d <:+ q := by
      simp [ofPlaces]
    constructor
    · intro hdir
      exact Or.inr (hmem.mp (mem_of_kindAt (of_decide_eq_true hdir)))
    · intro hplaces
      exact decide_eq_true (kindAt_eq_some_of_mem (hmem.mpr (hplaces.resolve_left (by simp))))

end DirectoryTree

/-- A name that is longer than every component. -/
def freshName (cs : List Text) : Text := List.replicate (cs.flatten.length + 3) 'x'

theorem freshName_notMem (cs : List Text) : freshName cs ∉ cs := by
  intro h
  have hle := (List.sublist_flatten_of_mem h).length_le
  rw [freshName, List.length_replicate] at hle
  omega

theorem objectName_freshName (cs : List Text) : ObjectName (freshName cs) where
  nonempty h := by simpa [freshName] using congrArg List.length h
  no_slash h := by simpa using List.eq_of_mem_replicate h
  not_dot h := by simpa [freshName] using congrArg List.length h
  not_dots h := by simpa [freshName] using congrArg List.length h

theorem suffix_of_append_replicate {names stack : List Text} {name : Text} {m n : Nat}
    (hne : names ≠ []) (hname : name ∉ names) (hmn : m ≤ n)
    (h : names ++ List.replicate m name <:+ stack ++ List.replicate n name) :
    m = n ∧ names <:+ stack := by
  obtain ⟨k, rfl⟩ := Nat.exists_eq_add_of_le' hmn
  rw [List.replicate_add, ← List.append_assoc, List.suffix_append_self_iff] at h
  cases k with
  | zero => exact ⟨(Nat.zero_add m).symm, by simpa using h⟩
  | succ k =>
    exfalso
    rcases List.eq_nil_or_concat names with rfl | ⟨front, last, rfl⟩
    · exact hne rfl
    · obtain ⟨before, hbefore⟩ := h
      have hlast : last = name := by
        simpa [List.getLast?_replicate] using congrArg List.getLast? hbefore
      exact hname (by simp [hlast])

theorem mem_of_mem_trail {cs : List Text} {r : Route} (hr : r ∈ Route.start.trail cs.dropLast)
    {name : Text} (hname : name ∈ r.stack) : name ∈ cs ∧ ¬IsDots name := by
  rcases Route.mem_stack_trail hr hname with hstart | ⟨hmem, hdots⟩
  · exact (List.not_mem_nil hstart).elim
  · exact ⟨List.mem_of_mem_dropLast hmem, hdots⟩

theorem getLastD_mem {cs : List Text} (hne : cs ≠ []) : cs.getLastD [] ∈ cs := by
  rw [List.getLastD_eq_getLast?, List.getLast?_eq_some_getLast hne]
  exact List.getLast_mem hne

theorem exists_escape_from {cs : List Text} (hne : cs ≠ [])
    (hcs : ∀ c ∈ cs, ¬IsDots c → ObjectName c) (hdots : ¬IsDots (cs.getLastD [])) {n : Nat}
    {base : Place} (hbase : base = [] ∨ base = List.replicate n (freshName cs))
    (hnew : ∀ r ∈ Route.start.trail cs.dropLast,
      ¬cs.getLastD [] :: (Route.start.follow cs.dropLast).placeFrom base <:+ r.placeFrom base)
    (hroute : (Route.start.follow cs.dropLast).placeFrom base ≠ List.replicate n (freshName cs)) :
    ∃ (t : DirectoryTree) (place : Place), t.isDirectory (List.replicate n (freshName cs)) ∧
      t.openFrom (fun _ => true) base cs = some place ∧
      ∀ name, place ≠ name :: List.replicate n (freshName cs) := by
  have hfresh : ∀ name ∈ List.replicate n (freshName cs), ObjectName name := fun name hname =>
    List.eq_of_mem_replicate hname ▸ objectName_freshName cs
  have hnames : ∀ p ∈ List.replicate n (freshName cs) ::
      (Route.start.trail cs.dropLast).map (Route.placeFrom · base), ∀ name ∈ p, ObjectName name := by
    intro p hp name hname
    rcases List.mem_cons.mp hp with rfl | hp
    · exact hfresh name hname
    · obtain ⟨r, hr, rfl⟩ := List.mem_map.mp hp
      rcases List.mem_append.mp hname with hstack | hdrop
      · obtain ⟨hmem, hname⟩ := mem_of_mem_trail hr hstack
        exact hcs name hmem hname
      · rcases hbase with rfl | rfl
        · simp at hdrop
        · exact hfresh name (List.mem_of_mem_drop hdrop)
  have hd : (DirectoryTree.ofPlaces _ hnames).isDirectory (List.replicate n (freshName cs)) :=
    DirectoryTree.isDirectory_ofPlaces_iff.mpr (Or.inr ⟨_, List.mem_cons_self, List.suffix_rfl⟩)
  have hbasedir : (DirectoryTree.ofPlaces _ hnames).isDirectory base := by
    rcases hbase with rfl | rfl
    · exact DirectoryTree.isDirectory_root
    · exact hd
  refine ⟨.ofPlaces _ hnames, _, hd, (DirectoryTree.openFrom_eq_some_iff_route hbasedir).mpr
    ⟨rfl, fun r hr => ?_, hdots, fun hdir => ?_, rfl⟩, fun name hplace => ?_⟩
  · exact DirectoryTree.isDirectory_ofPlaces_iff.mpr (Or.inr
      ⟨_, List.mem_cons_of_mem _ (List.mem_map_of_mem hr), List.suffix_rfl⟩)
  · rcases DirectoryTree.isDirectory_ofPlaces_iff.mp hdir with hroot | ⟨q, hq, hsuffix⟩
    · cases hroot
    · rcases List.mem_cons.mp hq with rfl | hq
      · have hmem := hsuffix.subset List.mem_cons_self
        exact freshName_notMem cs (List.eq_of_mem_replicate hmem ▸ getLastD_mem hne)
      · obtain ⟨r, hr, rfl⟩ := List.mem_map.mp hq
        exact hnew r hr hsuffix
  · exact hroute (List.cons.inj hplace).2

/-- Components that are not harmless open a file somewhere else in some tree. -/
theorem exists_escape {absolute : Prop} [Decidable absolute] {cs : List Text} (hne : cs ≠ [])
    (hcs : ∀ c ∈ cs, ¬IsDots c → ObjectName c) (h : ¬Harmless absolute cs) :
    ∃ (t : DirectoryTree) (d place : Place), t.isDirectory d ∧
      t.openFrom (fun _ => true) (if absolute then [] else d) cs = some place ∧
      ∀ name, place ≠ name :: d := by
  obtain ⟨hdots, hroute, htrail⟩ := (not_or.mp h).imp_right not_or.mp
  have hlast := Route.follow_mem_trail Route.start cs.dropLast
  have hstack : ∀ r ∈ Route.start.trail cs.dropLast, freshName cs ∉ r.stack := fun r hr hmem =>
    freshName_notMem cs (mem_of_mem_trail hr hmem).1
  by_cases habsolute : absolute
  · have hnew : ∀ r ∈ Route.start.trail cs.dropLast, ¬cs.getLastD [] ::
        (Route.start.follow cs.dropLast).placeFrom [] <:+ r.placeFrom [] := by
      intro r hr hsuffix
      rw [Route.placeFrom_root, Route.placeFrom_root] at hsuffix
      exact htrail ⟨r, hr, Or.inl habsolute, hsuffix⟩
    have hplace : (Route.start.follow cs.dropLast).placeFrom [] ≠
        List.replicate 1 (freshName cs) := by
      intro hplace
      rw [Route.placeFrom_root] at hplace
      exact hstack _ hlast (hplace ▸ List.mem_singleton_self (freshName cs))
    obtain ⟨t, place, hd, hopen, houtside⟩ :=
      exists_escape_from hne hcs hdots (Or.inl rfl) hnew hplace
    exact ⟨t, _, place, hd, by rwa [if_pos habsolute], houtside⟩
  · -- the directory lies deeper than the components lead up
    generalize hfollow : Route.start.follow cs.dropLast = route at hroute htrail hlast
    have hnew : ∀ r ∈ Route.start.trail cs.dropLast, ¬cs.getLastD [] ::
        route.placeFrom (List.replicate (route.up + 1) (freshName cs)) <:+
          r.placeFrom (List.replicate (route.up + 1) (freshName cs)) := by
      intro r hr hsuffix
      have hle : r.up ≤ route.up := hfollow ▸ Route.up_le_follow hr
      have hnames : freshName cs ∉ cs.getLastD [] :: route.stack := by
        intro hmem
        rcases List.mem_cons.mp hmem with heq | hmem
        · exact freshName_notMem cs (heq ▸ getLastD_mem hne)
        · exact hstack _ hlast hmem
      rw [Route.placeFrom, Route.placeFrom, List.drop_replicate, List.drop_replicate,
        ← List.cons_append] at hsuffix
      obtain ⟨hup, hsuffix⟩ :=
        suffix_of_append_replicate (List.cons_ne_nil _ _) hnames (by omega) hsuffix
      exact htrail ⟨r, hr, Or.inr (by omega), hsuffix⟩
    have hplace : route.placeFrom (List.replicate (route.up + 1) (freshName cs)) ≠
        List.replicate (route.up + 1) (freshName cs) := by
      intro hplace
      rw [Route.placeFrom, List.drop_replicate] at hplace
      have hnil : route.stack = [] := by
        refine List.eq_nil_iff_forall_not_mem.mpr fun name hname => ?_
        have hmem := hplace ▸ List.mem_append_left _ hname
        exact hstack _ hlast (List.eq_of_mem_replicate hmem ▸ hname)
      have hlength := congrArg List.length hplace
      rw [hnil, List.nil_append, List.length_replicate, List.length_replicate] at hlength
      obtain ⟨up, stack⟩ := route
      obtain rfl : stack = [] := hnil
      obtain rfl : up = 0 := by
        dsimp only at hlength
        omega
      exact hroute ⟨habsolute, rfl⟩
    obtain ⟨t, place, hd, hopen, houtside⟩ :=
      exists_escape_from hne hcs hdots (Or.inr rfl) (hfollow ▸ hnew) (hfollow ▸ hplace)
    exact ⟨t, _, place, hd, by rwa [if_neg habsolute], houtside⟩

/-! ## Paths from a working directory -/

/-- A tree, and the directory from which relative paths are followed. -/
structure WorkingTree where
  tree : DirectoryTree
  cwd : Place
  isDirectory_cwd : tree.isDirectory cwd

namespace WorkingTree

variable (w : WorkingTree)

def base (path : Text) : Place := if path.head? = some '/' then [] else w.cwd

def directoryAt (path : Text) : Option Place :=
  if path = [] then none else w.tree.walk (w.base path) (components path)

/-- `std::filesystem::exists`. -/
def pathExists (path : Text) : Bool :=
  decide (path ≠ []) && (w.tree.walk (w.base path) (components path).dropLast).any fun d =>
    decide (IsDots ((components path).getLastD [])) ||
      (w.tree.kindAt ((components path).getLastD [] :: d)).isSome

def openToWrite (mayOpen : Place → Bool) (path : Text) : Option Place :=
  w.tree.openFrom mayOpen (w.base path) (components path)

variable {w}

theorem isDirectory_base (path : Text) : w.tree.isDirectory (w.base path) := by
  rw [base]
  split
  · exact DirectoryTree.isDirectory_root
  · exact w.isDirectory_cwd

theorem isDirectory_of_directoryAt {path : Text} {d : Place} (h : w.directoryAt path = some d) :
    w.tree.isDirectory d := by
  rw [directoryAt] at h
  split at h
  case isTrue => cases h
  case isFalse =>
    obtain ⟨rfl, htrail⟩ := (Route.walk_start_iff (isDirectory_base path) _).mp h
    exact htrail _ (Route.follow_mem_trail _ _)

theorem openToWrite_joinPath_of_absolute (mayOpen : Place → Bool) (dir : Text) {name : Text}
    (hname : name.head? = some '/') :
    w.openToWrite mayOpen (joinPath dir name) = w.tree.openFrom mayOpen [] (components name) := by
  rw [joinPath, if_pos hname, openToWrite, base, if_pos hname]

theorem openToWrite_joinPath (mayOpen : Place → Bool) {dir name : Text} (hdir : dir ≠ [])
    (hname : name.head? ≠ some '/') :
    w.openToWrite mayOpen (joinPath dir name) =
      (w.directoryAt dir).bind fun d => w.tree.openFrom mayOpen d (components name) := by
  have hbase : ∀ s, w.base (dir ++ s) = w.base dir := fun s => by
    rw [base, base, List.head?_append_of_ne_nil dir hdir]
  rw [joinPath, if_neg hname, directoryAt, if_neg hdir, openToWrite]
  split
  case isTrue hslash =>
    obtain ⟨front, rfl⟩ : ∃ front, dir = front ++ ['/'] :=
      List.getLast?_eq_some_iff.mp (hslash.resolve_left hdir)
    -- the directory is followed by an empty component
    have hcomponents : components (front ++ ['/']) = components front ++ [[]] :=
      components_append_cons front []
    rw [hbase, List.append_assoc, List.singleton_append, components_append_cons, hcomponents,
      DirectoryTree.openFrom_append _ _ _ _ (components_ne_nil name), DirectoryTree.walk_append,
      Option.bind_assoc]
    rfl
  case isFalse =>
    rw [hbase, components_append_cons,
      DirectoryTree.openFrom_append _ _ _ _ (components_ne_nil name)]

end WorkingTree

theorem cText_joinPath {dir : Text} (hdir : '\x00' ∉ dir) (name : Text) :
    cText (joinPath dir name) = joinPath dir (cText name) := by
  have hhead : (cText name).head? = some '/' ↔ name.head? = some '/' := by
    cases name with
    | nil => exact Iff.rfl
    | cons c name =>
      rw [cText, List.takeWhile_cons]
      split
      · exact Iff.rfl
      · rename_i hc
        obtain rfl : c = '\x00' := by simpa using hc
        exact iff_of_false (by simp) (by simp)
  rw [joinPath, joinPath]
  by_cases hname : name.head? = some '/'
  · rw [if_pos hname, if_pos (hhead.mpr hname)]
  · rw [if_neg hname, if_neg (hhead.not.mpr hname)]
    split
    · exact cText_append hdir name
    · rw [cText_append hdir]
      rfl

end Framework
