import Mathlib.Data.List.Forall2
import PetProject.Framework.Blocks
import PetProject.Framework.Positions

/-!
# The arrays of a parser

A `Parser` keeps the keys and the values of a section in two arrays of C strings, which it allocates
and deletes by hand. Each array of pointers and each array of characters is a block of its own.
-/

namespace PetProject.IniParser

open Framework

inductive Block
  | pointers (ps : List (Option Nat))
  | chars (cs : Text)
  deriving DecidableEq, Repr

abbrev Heap := Blocks Block

/-- The keys of a section with their values. -/
abbrev Section := List (Text × Text)

/-- The fields of `Parser`; `none` is the null pointer. -/
structure Parser where
  sizeCharPtrPtr : Nat
  keywords : Option Nat
  values : Option Nat
  deriving DecidableEq, Repr

/-- `Parser() = default`. -/
def Parser.null : Parser := ⟨0, none, none⟩

/-- What `std::strncpy` leaves in an array of the given size. -/
def strncpy (src : Text) (n : Nat) : Text := (cText src ++ List.replicate n '\x00').take n

/-- The string at an address, `none` when there is no live array with a NUL. -/
def readString (H : Heap) (p : Option Nat) : Option Text :=
  match p.bind H.block with
  | some (.chars cs) => if '\x00' ∈ cs then some (cText cs) else none
  | _ => none

/-- The first pointers of an array, `none` when one of them is not in a live array. -/
def readPointers (H : Heap) (p : Option Nat) (n : Nat) : Option (List (Option Nat)) :=
  if n = 0 then some []
  else
    match p.bind H.block with
    | some (.pointers ps) => if n ≤ ps.length then some (ps.take n) else none
    | _ => none

/-- A new array with a copy of a string. -/
def newString (src : Text) (H : Heap) : Nat × Heap := H.new (.chars (strncpy src (src.length + 1)))

/-- The content of an array of pointers, which ends with a null pointer. -/
def pointersTo (qs : List Nat) : Block := .pointers (qs.map some ++ [none])

/-! ## Construction -/

/-- The loop of `constructing_massives`: the arrays of the keys and of the values. -/
def newEntries : Section → Heap → (List Nat × List Nat) × Heap
  | [], H => (([], []), H)
  | entry :: entries, H =>
    let key := newString entry.1 H
    let value := newString entry.2 key.2
    let rest := newEntries entries value.2
    ((key.1 :: rest.1.1, value.1 :: rest.1.2), rest.2)

/-- `Parser::constructing_massives`. -/
def constructingMassives (section_ptree : Section) (H : Heap) : Parser × Heap :=
  let keywords := H.new (.pointers [])
  let values := keywords.2.new (.pointers [])
  let entries := newEntries section_ptree values.2
  (⟨section_ptree.length, some keywords.1, some values.1⟩,
    (entries.2.write keywords.1 (pointersTo entries.1.1)).write values.1 (pointersTo entries.1.2))

/-- A constructor from a property tree, in which the section may be missing. -/
def constructParser (config : Option Section) (H : Heap) : Parser × Heap :=
  match config with
  | none => (.null, H)
  | some section_ptree => constructingMassives section_ptree H

/-! ## Copying and clearing -/

/-- The loop over the strings of another parser; `none` when it reads outside the live arrays. -/
def copyStrings : List (Option Nat) → Heap → Option (List Nat × Heap)
  | [], H => some ([], H)
  | p :: ps, H =>
    match readString H p with
    | none => none
    | some src =>
      let copy := newString src H
      (copyStrings ps copy.2).map fun rest => (copy.1 :: rest.1, rest.2)

/-- A new array with copies of the strings of another one. -/
def copyMassive (src : Option Nat) (n : Nat) (H : Heap) : Option (Nat × Heap) :=
  let massive := H.new (.pointers [])
  match readPointers massive.2 src n with
  | none => none
  | some ps =>
    (copyStrings ps massive.2).map fun copies =>
      (massive.1, copies.2.write massive.1 (pointersTo copies.1))

/-- `Parser::copying_massives`, whose `this` has the size of `p` already. -/
def copyingMassives (this p : Parser) (H : Heap) : Option (Parser × Heap) :=
  match copyMassive p.values this.sizeCharPtrPtr H with
  | none => none
  | some values =>
    if p.keywords = none then some ({ this with values := some values.1 }, values.2)
    else
      (copyMassive p.keywords this.sizeCharPtrPtr values.2).map fun keywords =>
        ({ this with values := some values.1, keywords := some keywords.1 }, keywords.2)

/-- `Parser::clearing_massives`; `none` when it reads outside the live arrays. -/
def clearingMassives (this : Parser) (H : Heap) : Option Heap :=
  if this.sizeCharPtrPtr = 0 then some H
  else
    match readPointers H this.values this.sizeCharPtrPtr with
    | none => none
    | some values =>
      let H := H.deleteAll values
      if this.keywords = none then some ((H.delete this.keywords).delete this.values)
      else
        (readPointers H this.keywords this.sizeCharPtrPtr).map fun keywords =>
          ((H.deleteAll keywords).delete this.keywords).delete this.values

/-- The copy constructors. -/
def copyParser (p : Parser) (H : Heap) : Option (Parser × Heap) :=
  copyingMassives { Parser.null with sizeCharPtrPtr := p.sizeCharPtrPtr } p H

/-- `Parser::operator=` for two different objects. -/
def assignParser (this rhs : Parser) (H : Heap) : Option (Parser × Heap) :=
  (clearingMassives this H).bind fun H =>
    copyingMassives { this with sizeCharPtrPtr := rhs.sizeCharPtrPtr } rhs H

/-! ## What the arrays stand for -/

/-- The string that starts at each address. -/
def ReadsStrings (H : Heap) (qs : List Nat) (ts : List Text) : Prop :=
  List.Forall₂ (fun q t => readString H (some q) = some t) qs ts

/-- A live array of live strings. -/
structure IsMassive (H : Heap) (a : Nat) (qs : List Nat) (ts : List Text) : Prop where
  array : H.block a = some (pointersTo qs)
  strings : ReadsStrings H qs ts

/-- The parser holds nothing, or the given keys and values in blocks at the given addresses. -/
inductive Represents (H : Heap) : Parser → Option (List Text × List Text) → List Nat → Prop
  | null : Represents H .null none []
  | filled {k v : Nat} {kqs vqs : List Nat} {ks vs : List Text} (hk : IsMassive H k kqs ks)
      (hv : IsMassive H v vqs vs) (hsize : vqs.length = kqs.length) :
      Represents H ⟨kqs.length, some k, some v⟩ (some (ks, vs)) (k :: kqs ++ v :: vqs)

private theorem readString_of_block {H : Heap} {q : Nat} {cs : Text} (h : H.block q = some (.chars cs))
    (hnul : '\x00' ∈ cs) : readString H (some q) = some (cText cs) := by
  rw [readString, Option.bind_some, h]
  exact if_pos hnul

private theorem readString_congr {H H' : Heap} {q : Nat} (h : H'.block q = H.block q) :
    readString H' (some q) = readString H (some q) := by
  rw [readString, readString, Option.bind_some, Option.bind_some, h]

private theorem live_of_readString {H : Heap} {q : Nat} {t : Text} (h : readString H (some q) = some t) :
    H.block q ≠ none := by
  intro hnone
  rw [readString, Option.bind_some, hnone] at h
  cases h

private theorem nul_notMem_of_readString {H : Heap} {q : Nat} {t : Text}
    (h : readString H (some q) = some t) : '\x00' ∉ t := by
  rw [readString] at h
  split at h
  case h_1 cs hcs =>
    split at h
    · obtain rfl := Option.some.inj h
      exact nul_notMem_cText cs
    · cases h
  case h_2 => cases h

theorem ReadsStrings.congr {H H' : Heap} {qs : List Nat} {ts : List Text}
    (h : ReadsStrings H qs ts) (hsame : ∀ q ∈ qs, H'.block q = H.block q) :
    ReadsStrings H' qs ts := by
  refine List.forall₂_iff_get.mpr ⟨h.length_eq, fun i hi hi' => ?_⟩
  rw [readString_congr (hsame _ (List.get_mem qs ⟨i, hi⟩))]
  exact (List.forall₂_iff_get.mp h).2 i hi hi'

theorem ReadsStrings.live {H : Heap} {qs : List Nat} {ts : List Text} (h : ReadsStrings H qs ts)
    {q : Nat} (hq : q ∈ qs) : H.block q ≠ none := by
  obtain ⟨i, hi, rfl⟩ := List.mem_iff_getElem.mp hq
  have hi' : i < ts.length := h.length_eq ▸ hi
  exact live_of_readString ((List.forall₂_iff_get.mp h).2 i hi hi')

theorem IsMassive.congr {H H' : Heap} {a : Nat} {qs : List Nat} {ts : List Text}
    (h : IsMassive H a qs ts) (hsame : ∀ q ∈ a :: qs, H'.block q = H.block q) :
    IsMassive H' a qs ts :=
  ⟨(hsame a List.mem_cons_self).trans h.array,
    h.strings.congr fun q hq => hsame q (List.mem_cons_of_mem a hq)⟩

theorem IsMassive.live {H : Heap} {a : Nat} {qs : List Nat} {ts : List Text}
    (h : IsMassive H a qs ts) {q : Nat} (hq : q ∈ a :: qs) : H.block q ≠ none := by
  rcases List.mem_cons.mp hq with rfl | hq
  · rw [h.array]
    exact Option.some_ne_none _
  · exact h.strings.live hq

theorem Represents.congr {H H' : Heap} {p : Parser} {c : Option (List Text × List Text)}
    {addrs : List Nat} (h : Represents H p c addrs)
    (hsame : ∀ q ∈ addrs, H'.block q = H.block q) : Represents H' p c addrs := by
  cases h with
  | null => exact .null
  | filled hk hv hsize =>
    exact .filled (hk.congr fun q hq => hsame q (List.mem_append_left _ hq))
      (hv.congr fun q hq => hsame q (List.mem_append_right _ hq)) hsize

theorem Represents.live {H : Heap} {p : Parser} {c : Option (List Text × List Text)}
    {addrs : List Nat} (h : Represents H p c addrs) {q : Nat} (hq : q ∈ addrs) :
    H.block q ≠ none := by
  cases h with
  | null => exact (List.not_mem_nil hq).elim
  | filled hk hv hsize =>
    rcases List.mem_append.mp hq with hq | hq
    · exact hk.live hq
    · exact hv.live hq

private theorem readPointers_of_isMassive {H : Heap} {a : Nat} {qs : List Nat} {ts : List Text}
    (h : IsMassive H a qs ts) : readPointers H (some a) qs.length = some (qs.map some) := by
  unfold readPointers
  split
  case isTrue hnil => rw [List.length_eq_zero_iff.mp hnil, List.map_nil]
  case isFalse =>
    have hlength : (qs.map some).length = qs.length := List.length_map some
    rw [Option.bind_some, h.array, pointersTo]
    dsimp only
    rw [if_pos (by rw [List.length_append, hlength]; omega), List.take_left' hlength]

/-! ## The lists and the arrays of a parser -/

/-- The list of strings behind a pointer, the null pointer when it is null; `none` when they cannot
be read. -/
def stringsAt (H : Heap) (p : Option Nat) (n : Nat) : Option (Option (List Text)) :=
  if p = none then some none
  else ((readPointers H p n).bind fun ps => ps.mapM (readString H)).map some

/-- The arrays that a pointer leads to. -/
def arraysAt (H : Heap) (p : Option Nat) : List Nat :=
  match p with
  | none => []
  | some a =>
    match H.block a with
    | some (.pointers ps) => a :: ps.filterMap id
    | _ => [a]

/-- The arrays that a parser points to. -/
def Parser.arrays (p : Parser) (H : Heap) : List Nat := arraysAt H p.keywords ++ arraysAt H p.values

private theorem arraysAt_of_isMassive {H : Heap} {a : Nat} {qs : List Nat} {ts : List Text}
    (h : IsMassive H a qs ts) : arraysAt H (some a) = a :: qs := by
  rw [arraysAt, h.array, pointersTo]
  simp

private theorem stringsAt_of_isMassive {H : Heap} {a : Nat} {qs : List Nat} {ts : List Text}
    (h : IsMassive H a qs ts) : stringsAt H (some a) qs.length = some (some ts) := by
  have hread : (qs.map some).mapM (readString H) = some ts := by
    have hs := h.strings
    clear h
    induction qs generalizing ts with
    | nil =>
      cases hs
      rfl
    | cons q qs ih =>
      cases hs with
      | cons hq hqs =>
        rw [List.map_cons, List.mapM_cons, hq, ih hqs]
        rfl
  rw [stringsAt, if_neg (Option.some_ne_none a), readPointers_of_isMassive h, Option.bind_some,
    hread, Option.map_some]

theorem Represents.arrays {H : Heap} {p : Parser} {c : Option (List Text × List Text)}
    {addrs : List Nat} (h : Represents H p c addrs) : p.arrays H = addrs := by
  cases h with
  | null => rfl
  | filled hk hv hsize => rw [Parser.arrays, arraysAt_of_isMassive hk, arraysAt_of_isMassive hv]

theorem Represents.strings {H : Heap} {p : Parser} {c : Option (List Text × List Text)}
    {addrs : List Nat} (h : Represents H p c addrs) :
    stringsAt H p.keywords p.sizeCharPtrPtr = some (c.map Prod.fst) ∧
      stringsAt H p.values p.sizeCharPtrPtr = some (c.map Prod.snd) := by
  cases h with
  | null => exact ⟨rfl, rfl⟩
  | filled hk hv hsize => exact ⟨stringsAt_of_isMassive hk, hsize ▸ stringsAt_of_isMassive hv⟩

theorem Represents.filled_of_values {H : Heap} {p : Parser} {c : Option (List Text × List Text)}
    {addrs : List Nat} (h : Represents H p c addrs) (hvalues : p.values ≠ none) :
    ∃ ks vs, c = some (ks, vs) := by
  cases h with
  | null => exact absurd rfl hvalues
  | filled hk hv hsize => exact ⟨_, _, rfl⟩

theorem Represents.null_of_values {H : Heap} {p : Parser} {c : Option (List Text × List Text)}
    {addrs : List Nat} (h : Represents H p c addrs) (hvalues : p.values = none) : p = .null := by
  cases h with
  | null => rfl
  | filled hk hv hsize => cases hvalues

/-! ## What the functions leave behind -/

private theorem length_cText_le (s : Text) : (cText s).length ≤ s.length :=
  List.Sublist.length_le (List.takeWhile_sublist _)

private theorem strncpy_eq (src : Text) :
    strncpy src (src.length + 1) =
      cText src ++ List.replicate (src.length + 1 - (cText src).length) '\x00' := by
  have hle := length_cText_le src
  rw [strncpy, List.take_append, List.take_of_length_le (by omega), List.take_replicate]
  congr 2
  omega

private theorem newString_spec (src : Text) (H : Heap) :
    H.Allocates (newString src H).2 [(newString src H).1] ∧
      readString (newString src H).2 (some (newString src H).1) = some (cText src) := by
  refine ⟨Blocks.allocates_new _ H, ?_⟩
  have hle := length_cText_le src
  obtain ⟨n, hn⟩ : ∃ n, src.length + 1 - (cText src).length = n + 1 :=
    ⟨src.length - (cText src).length, by omega⟩
  have hcopy : cText (strncpy src (src.length + 1)) = cText src := by
    rw [strncpy_eq, cText_append (nul_notMem_cText src), hn, List.replicate_succ]
    exact List.append_nil _
  have hnul : '\x00' ∈ strncpy src (src.length + 1) := by
    rw [strncpy_eq, hn, List.replicate_succ]
    exact List.mem_append_right _ List.mem_cons_self
  exact (readString_of_block (Blocks.block_new _ H) hnul).trans (congrArg some hcopy)

private theorem readString_allocates {H H' : Heap} {news : List Nat} (h : H.Allocates H' news) {q : Nat}
    {t : Text} (hq : readString H (some q) = some t) : readString H' (some q) = some t :=
  (readString_congr (h.old q (Blocks.lt_next_of_live (live_of_readString hq)))).trans hq

private theorem ReadsStrings.allocates {H H' : Heap} {news qs : List Nat} {ts : List Text}
    (hs : ReadsStrings H qs ts) (h : H.Allocates H' news) : ReadsStrings H' qs ts :=
  hs.imp fun _ _ hq => readString_allocates h hq

private theorem newEntries_spec (entries : Section) (H : Heap) :
    ∃ news : List Nat, news.Perm ((newEntries entries H).1.1 ++ (newEntries entries H).1.2) ∧
      H.Allocates (newEntries entries H).2 news ∧
      ReadsStrings (newEntries entries H).2 (newEntries entries H).1.1
        (entries.map fun e => cText e.1) ∧
      ReadsStrings (newEntries entries H).2 (newEntries entries H).1.2
        (entries.map fun e => cText e.2) := by
  induction entries generalizing H with
  | nil => exact ⟨[], List.Perm.refl _, Blocks.Allocates.refl H, .nil, .nil⟩
  | cons entry entries ih =>
    obtain ⟨hkey, hkeyread⟩ := newString_spec entry.1 H
    obtain ⟨hvalue, hvalueread⟩ := newString_spec entry.2 (newString entry.1 H).2
    obtain ⟨news, hperm, hrest, hkeys, hvalues⟩ :=
      ih (newString entry.2 (newString entry.1 H).2).2
    refine ⟨_, ?_, (hkey.trans hvalue).trans hrest, ?_, ?_⟩
    · exact ((hperm.cons _).trans List.perm_middle.symm).cons _
    · exact .cons (readString_allocates hrest (readString_allocates hvalue hkeyread)) hkeys
    · exact .cons (readString_allocates hrest hvalueread) hvalues

private theorem copyStrings_spec {H : Heap} {qs : List Nat} {ts : List Text} (h : ReadsStrings H qs ts) :
    ∃ copies H', copyStrings (qs.map some) H = some (copies, H') ∧ H.Allocates H' copies ∧
      ReadsStrings H' copies ts := by
  induction qs generalizing ts H with
  | nil =>
    cases h
    exact ⟨[], H, rfl, Blocks.Allocates.refl H, .nil⟩
  | cons q qs ih =>
    cases h with
    | cons hq hqs =>
      obtain ⟨hcopy, hread⟩ := newString_spec _ H
      obtain ⟨copies, H', hrest, halloc, hcopies⟩ := ih (ReadsStrings.allocates hqs hcopy)
      rw [cText_eq_self (nul_notMem_of_readString hq)] at hread
      refine ⟨_ :: copies, H', ?_, hcopy.trans halloc, .cons (readString_allocates halloc hread) hcopies⟩
      rw [List.map_cons, copyStrings, hq]
      dsimp only
      rw [hrest, Option.map_some]

private theorem isMassive_write {H H' : Heap} {qs : List Nat} {ts : List Text} (b : Block)
    (h : (H.new b).2.Allocates H' qs) (hs : ReadsStrings H' qs ts) :
    H.Allocates (H'.write (H.new b).1 (pointersTo qs)) ((H.new b).1 :: qs) ∧
      IsMassive (H'.write (H.new b).1 (pointersTo qs)) (H.new b).1 qs ts := by
  have hlive : H'.block (H.new b).1 ≠ none := by
    rw [h.old (H.new b).1 (Nat.lt_succ_self H.next), Blocks.block_new]
    exact Option.some_ne_none b
  have hapart : ∀ q ∈ qs, q ≠ (H.new b).1 := by
    rintro q hq rfl
    exact absurd (h.range _ hq).1 (Nat.not_succ_le_self H.next)
  refine ⟨((Blocks.allocates_new b H).trans h).write le_rfl _, Blocks.block_write hlive _, ?_⟩
  exact hs.congr fun q hq => Blocks.block_write_of_ne (hapart q hq) _

private theorem copyMassive_spec {H : Heap} {a : Nat} {qs : List Nat} {ts : List Text}
    (h : IsMassive H a qs ts) :
    ∃ a' copies H', copyMassive (some a) qs.length H = some (a', H') ∧
      H.Allocates H' (a' :: copies) ∧ IsMassive H' a' copies ts := by
  have hnew := Blocks.allocates_new (.pointers []) H
  have hsrc : IsMassive (H.new (.pointers [])).2 a qs ts :=
    h.congr fun q hq => hnew.old q (Blocks.lt_next_of_live (h.live hq))
  obtain ⟨copies, H', hcopies, halloc, hs⟩ := copyStrings_spec hsrc.strings
  obtain ⟨hall, hmassive⟩ := isMassive_write _ halloc hs
  refine ⟨_, copies, _, ?_, hall, hmassive⟩
  rw [copyMassive, readPointers_of_isMassive hsrc]
  dsimp only
  rw [hcopies, Option.map_some]

private theorem isMassive_write_two {H H₁ H₂ H' : Heap} {k v : Nat} {kqs vqs news : List Nat}
    {ks vs : List Text} (hk : H.Allocates H₁ [k]) (hv : H₁.Allocates H₂ [v])
    (hklive : H₁.block k ≠ none) (hvlive : H₂.block v ≠ none) (hrest : H₂.Allocates H' news)
    (hperm : news.Perm (kqs ++ vqs)) (hks : ReadsStrings H' kqs ks) (hvs : ReadsStrings H' vqs vs) :
    H.Allocates ((H'.write k (pointersTo kqs)).write v (pointersTo vqs)) (k :: kqs ++ v :: vqs) ∧
      IsMassive ((H'.write k (pointersTo kqs)).write v (pointersTo vqs)) k kqs ks ∧
      IsMassive ((H'.write k (pointersTo kqs)).write v (pointersTo vqs)) v vqs vs := by
  obtain ⟨hHk, hkH⟩ := hk.range k List.mem_cons_self
  obtain ⟨hHv, hvH⟩ := hv.range v List.mem_cons_self
  have hkv : k ≠ v := by omega
  have hapart : ∀ q ∈ kqs ++ vqs, q ≠ k ∧ q ≠ v := by
    intro q hq
    have hle := (hrest.range q (hperm.mem_iff.mpr hq)).1
    omega
  have hsame : ∀ q ∈ kqs ++ vqs,
      ((H'.write k (pointersTo kqs)).write v (pointersTo vqs)).block q = H'.block q := by
    intro q hq
    obtain ⟨hqk, hqv⟩ := hapart q hq
    rw [Blocks.block_write_of_ne hqv, Blocks.block_write_of_ne hqk]
  have hklive' : H'.block k ≠ none := by
    rw [hrest.old k (hkH.trans_le hv.next_le), hv.old k hkH]
    exact hklive
  have hvlive' : (H'.write k (pointersTo kqs)).block v ≠ none := by
    rw [Blocks.block_write_of_ne hkv.symm, hrest.old v hvH]
    exact hvlive
  refine ⟨?_, ⟨?_, hks.congr fun q hq => hsame q (List.mem_append_left _ hq)⟩,
    ⟨Blocks.block_write hvlive' _, hvs.congr fun q hq => hsame q (List.mem_append_right _ hq)⟩⟩
  · have horder : ([k] ++ [v] ++ news).Perm (k :: kqs ++ v :: vqs) :=
      ((hperm.cons v).trans List.perm_middle.symm).cons k
    exact ((((hk.trans hv).trans hrest).write hHk _).write (hk.next_le.trans hHv) _).perm horder
  · rw [Blocks.block_write_of_ne hkv, Blocks.block_write hklive']

/-- A parser that is constructed from a section holds its keys and its values, each up to its first
NUL. -/
theorem constructingMassives_spec (section_ptree : Section) (H : Heap) :
    ∃ addrs, H.Allocates (constructingMassives section_ptree H).2 addrs ∧
      Represents (constructingMassives section_ptree H).2 (constructingMassives section_ptree H).1
        (some (section_ptree.map fun e => cText e.1, section_ptree.map fun e => cText e.2))
        addrs := by
  obtain ⟨news, hperm, hentries, hkeys, hvalues⟩ :=
    newEntries_spec section_ptree ((H.new (.pointers [])).2.new (.pointers [])).2
  have hklive : (H.new (.pointers [])).2.block (H.new (.pointers [])).1 ≠ none := by
    rw [Blocks.block_new]
    exact Option.some_ne_none _
  have hvlive : ((H.new (.pointers [])).2.new (.pointers [])).2.block
      ((H.new (.pointers [])).2.new (.pointers [])).1 ≠ none := by
    rw [Blocks.block_new]
    exact Option.some_ne_none _
  obtain ⟨halloc, hk, hv⟩ := isMassive_write_two (Blocks.allocates_new _ H)
    (Blocks.allocates_new _ _) hklive hvlive hentries hperm hkeys hvalues
  refine ⟨_, halloc, ?_⟩
  have hsize : section_ptree.length = (newEntries section_ptree
      ((H.new (.pointers [])).2.new (.pointers [])).2).1.1.length := by
    rw [hkeys.length_eq, List.length_map]
  have hsame := hvalues.length_eq.trans ((List.length_map _).trans
    ((List.length_map _).symm.trans hkeys.length_eq.symm))
  unfold constructingMassives
  dsimp only
  rw [hsize]
  exact .filled hk hv hsame

theorem copyingMassives_filled {H : Heap} {p : Parser} {ks vs : List Text} {addrs : List Nat}
    (h : Represents H p (some (ks, vs)) addrs) {this : Parser}
    (hsize : this.sizeCharPtrPtr = p.sizeCharPtrPtr) :
    ∃ p' H' news, copyingMassives this p H = some (p', H') ∧ H.Allocates H' news ∧
      Represents H' p' (some (ks, vs)) news := by
  cases h with
  | @filled k v kqs vqs _ _ hk hv hlen =>
    obtain ⟨v', vcopies, H₁, hvcopy, hvalloc, hvmassive⟩ := copyMassive_spec hv
    have hk₁ : IsMassive H₁ k kqs ks :=
      hk.congr fun q hq => hvalloc.old q (Blocks.lt_next_of_live (hk.live hq))
    obtain ⟨k', kcopies, H₂, hkcopy, hkalloc, hkmassive⟩ := copyMassive_spec hk₁
    have hvmassive₂ : IsMassive H₂ v' vcopies vs :=
      hvmassive.congr fun q hq => hkalloc.old q (Blocks.lt_next_of_live (hvmassive.live hq))
    have hkcount : kcopies.length = kqs.length :=
      hkmassive.strings.length_eq.trans hk.strings.length_eq.symm
    have hvcount : vcopies.length = kcopies.length :=
      (hvmassive.strings.length_eq.trans hv.strings.length_eq.symm).trans (hlen.trans hkcount.symm)
    refine ⟨⟨kcopies.length, some k', some v'⟩, H₂, _, ?_,
      (hvalloc.trans hkalloc).perm (List.perm_append_comm), .filled hkmassive hvmassive₂ hvcount⟩
    rw [copyingMassives, hsize]
    dsimp only
    rw [← hlen, hvcopy]
    dsimp only
    rw [if_neg (Option.some_ne_none k), hlen, hkcopy, Option.map_some, hkcount]

theorem copyingMassives_null (this : Parser) (H : Heap) (hsize : this.sizeCharPtrPtr = 0) :
    ∃ H', copyingMassives this .null H = some ({ this with values := some H.next }, H') ∧
      H.Allocates H' [H.next] ∧ IsMassive H' H.next [] [] := by
  obtain ⟨halloc, hmassive⟩ := isMassive_write (.pointers [])
    (Blocks.Allocates.refl (H.new (.pointers [])).2) .nil
  refine ⟨_, ?_, halloc, hmassive⟩
  rw [copyingMassives, hsize]
  rfl

theorem clearingMassives_filled {H : Heap} {p : Parser} {c : Option (List Text × List Text)}
    {addrs : List Nat} (h : Represents H p c addrs) (hnodup : addrs.Nodup)
    (hsize : p.sizeCharPtrPtr ≠ 0) :
    ∃ H' olds, clearingMassives p H = some H' ∧ H.Deletes H' olds ∧ olds.Perm addrs := by
  cases h with
  | null => exact absurd rfl hsize
  | @filled k v kqs vqs ks vs hk hv hlen =>
    have hdelete := Blocks.deletes_deleteAll vqs H
    obtain ⟨hknodup, hvnodup, hdisjoint⟩ := List.nodup_append.mp hnodup
    have hk₁ : IsMassive (H.deleteAll (vqs.map some)) k kqs ks := by
      refine hk.congr fun q hq => ?_
      rw [hdelete.block, if_neg fun hqv => hdisjoint q hq q (List.mem_cons_of_mem v hqv) rfl]
    have hall := ((hdelete.trans (Blocks.deletes_deleteAll kqs _)).trans
      (Blocks.deletes_delete (some k) _)).trans (Blocks.deletes_delete (some v) _)
    have hperm : (vqs ++ kqs ++ [k] ++ [v]).Perm (k :: kqs ++ v :: vqs) := by
      refine List.perm_iff_count.mpr fun q => ?_
      simp only [List.count_append, List.count_cons, List.count_nil]
      omega
    refine ⟨_, _, ?_, hall, hperm⟩
    rw [clearingMassives, if_neg hsize]
    dsimp only
    rw [← hlen, readPointers_of_isMassive hv]
    dsimp only
    rw [if_neg (Option.some_ne_none k), hlen, readPointers_of_isMassive hk₁, Option.map_some]

/-- Clearing deletes blocks of the parser, each once. -/
theorem clearingMassives_spec {H : Heap} {p : Parser} {c : Option (List Text × List Text)}
    {addrs : List Nat} (h : Represents H p c addrs) (hnodup : addrs.Nodup) :
    ∃ H' olds, clearingMassives p H = some H' ∧ H.Deletes H' olds ∧ olds ⊆ addrs ∧
      olds.Nodup := by
  by_cases hzero : p.sizeCharPtrPtr = 0
  · have hnone : H.Deletes H [] :=
      ⟨rfl, fun q => (if_neg List.not_mem_nil).symm, (List.append_nil _).symm⟩
    exact ⟨H, [], if_pos hzero, hnone, List.nil_subset addrs, List.nodup_nil⟩
  · obtain ⟨H', olds, hclear, hdeletes, hperm⟩ := clearingMassives_filled h hnodup hzero
    exact ⟨H', olds, hclear, hdeletes, hperm.subset, hperm.nodup_iff.mpr hnodup⟩

end PetProject.IniParser
