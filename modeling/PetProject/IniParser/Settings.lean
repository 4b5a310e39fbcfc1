import PetProject.IniParser.Copies
import PetProject.IniParser.Validation

/-!
# Settings

Parsers as values: construction gives an object its section, a copy or an assignment hands the
section on. The arrays of every object read back as the section that it has in this way, so that
what a program finds at a position is what the configuration says there.
-/

namespace PetProject.IniParser

open Framework

/-- `parsed_info_ptr()[i]` as a string; `none` when there is no live array with a string at `i`. -/
def parsedInfo (H : Heap) (this : Parser) (i : Nat) : Option Text :=
  match this.values.bind H.block with
  | some (.pointers ps) => ps[i]?.bind (readString H)
  | _ => none

/-- `Parser_DB::parsed_info_ptr`. -/
def Parser.parsedInfoPtr (this : Parser) (m : Char) : Option Nat :=
  match m with
  | 'k' | 'K' => this.keywords
  | 'v' | 'V' => this.values
  | _ => none

/-- The parameters that `PQconnectdbParams` reads: the keys up to a null pointer, each with the value
at its position. -/
def connectdbParams (H : Heap) : List (Option Nat) → List (Option Nat) → Option (List (Text × Text))
  | none :: _, _ => some []
  | some k :: ks, v :: vs =>
    (readString H (some k)).bind fun key => (readString H v).bind fun value =>
      (connectdbParams H ks vs).map fun rest => (key, value) :: rest
  | _, _ => none

/-- The parameters of every connection of `connection_pool::connection_pool`; `some none` when no
connection is made, and `none` when the arrays are read outside. -/
def poolParams (H : Heap) (p : Parser) : Option (Option (List (Text × Text))) :=
  if p.parsedInfoPtr 'k' = none ∨ p.parsedInfoPtr 'v' = none then some none
  else
    match (p.parsedInfoPtr 'k').bind H.block, (p.parsedInfoPtr 'v').bind H.block with
    | some (.pointers ks), some (.pointers vs) => (connectdbParams H ks vs).map some
    | _, _ => none

/-- The keys and the values of a section as C strings. -/
def contents (section_ptree : Section) : List Text × List Text :=
  (section_ptree.map fun e => cText e.1, section_ptree.map fun e => cText e.2)

/-! ## Parsers as values -/

/-- The section of each object that is there, if it has been constructed from one. -/
abbrev Registry (ι : Type*) := ι → Option (Option Section)

namespace Registry

variable {ι : Type*} [DecidableEq ι]

def step (r : Registry ι) : ParserOp ι → Option (Registry ι)
  | .default a => if r a = none then some (Function.update r a (some none)) else none
  | .construct a config => if r a = none then some (Function.update r a (some config)) else none
  | .copy a b =>
    match r a, r b with
    | none, some config => some (Function.update r a (some config))
    | _, _ => none
  | .assign a b =>
    match r a, r b with
    | some _, some config => some (Function.update r a (some config))
    | _, _ => none
  | .destroy a => (r a).map fun _ => Function.update r a none

def machine (ι : Type*) [DecidableEq ι] : Machine (Registry ι) (ParserOp ι) := ⟨step⟩

def empty (ι : Type*) : Registry ι := fun _ => none

end Registry

/-! ## The arrays hold the values -/

/-- An object that is there has the content of its section in the blocks at the addresses. -/
def Holds (H : Heap) (addrs : List Nat) : Option Parser → Option (Option Section) → Prop
  | none, none => True
  | some p, some config => Represents H p (config.map contents) addrs
  | _, _ => False

theorem Holds.congr {H H' : Heap} {addrs : List Nat} {p : Option Parser}
    {c : Option (Option Section)} (h : Holds H addrs p c)
    (hsame : ∀ q ∈ addrs, H'.block q = H.block q) : Holds H' addrs p c := by
  match p, c with
  | none, none => trivial
  | some p, some config => exact Represents.congr h hsame

private theorem Holds.eq_none {H : Heap} {addrs : List Nat} {c : Option (Option Section)}
    (h : Holds H addrs none c) : c = none := by
  cases c with
  | none => rfl
  | some config => exact h.elim

private theorem Holds.exists_config {H : Heap} {addrs : List Nat} {p : Parser}
    {c : Option (Option Section)} (h : Holds H addrs (some p) c) :
    ∃ config, c = some config ∧ Represents H p (config.map contents) addrs := by
  cases c with
  | none => exact h.elim
  | some config => exact ⟨config, rfl, h⟩

namespace Parsers

variable {ι : Type*}

/-- Every object owns arrays that hold what it stands for. -/
structure Realizes (s : Parsers ι) (own : ι → List Nat) (r : Registry ι) : Prop where
  owned : s.Owned own
  holds : ∀ a, Holds s.heap (own a) (s.objects a) (r a)

private theorem realizes_init : (init ι).Realizes (fun _ => []) (Registry.empty ι) :=
  ⟨owned_init, fun _ => trivial⟩

variable [DecidableEq ι] {s t : Parsers ι} {own : ι → List Nat} {r : Registry ι} {a b : ι}

theorem Realizes.place (h : s.Realizes own r) (a : ι) (config : Option Section) {p : Parser}
    {H : Heap} {news : List Nat} (halloc : s.heap.Allocates H news)
    (hp : Represents H p (config.map contents) news) :
    (s.set a (some p) H).Realizes (Function.update own a news)
      (Function.update r a (some config)) where
  owned := h.owned.place a halloc hp
  holds b := by
    rw [objects_set, Function.update_apply, Function.update_apply]
    by_cases hb : b = a
    · rw [if_pos hb, if_pos hb, if_pos hb]
      exact hp
    · rw [if_neg hb, if_neg hb, if_neg hb]
      exact (h.holds b).congr fun q hq => halloc.old q (h.owned.lt_next hq)

theorem Realizes.remove (h : s.Realizes own r) (a : ι) {H : Heap} {olds : List Nat}
    (hdeletes : s.heap.Deletes H olds) (holds : olds ⊆ own a) (hnodup : olds.Nodup) :
    (s.set a none H).Realizes (Function.update own a []) (Function.update r a none) where
  owned := h.owned.remove a hdeletes holds hnodup
  holds b := by
    rw [objects_set, Function.update_apply, Function.update_apply]
    by_cases hb : b = a
    · rw [if_pos hb, if_pos hb, if_pos hb]
      trivial
    · rw [if_neg hb, if_neg hb, if_neg hb]
      refine (h.holds b).congr fun q hq => ?_
      exact (hdeletes.block q).trans (if_neg fun hold => h.owned.disjoint b a hb hq (holds hold))

theorem Realizes.copying (h : s.Realizes own r) (a : ι) (this : Parser) {p : Parser}
    {config : Option Section} (hb : s.objects b = some p) (hrb : r b = some config)
    (hvalues : p.values ≠ none) (hsize : this.sizeCharPtrPtr = p.sizeCharPtrPtr) :
    ∃ q H own', copyingMassives this p s.heap = some (q, H) ∧
      (s.set a (some q) H).Realizes own' (Function.update r a (some config)) := by
  have hp : Represents s.heap p (config.map contents) (own b) := by
    have hholds := h.holds b
    rwa [hb, hrb] at hholds
  obtain ⟨ks, vs, hc⟩ := hp.filled_of_values hvalues
  rw [hc] at hp
  obtain ⟨q, H, news, hcopy, halloc, hq⟩ := copyingMassives_filled hp hsize
  exact ⟨q, H, _, hcopy, h.place a config halloc (hc ▸ hq)⟩

/-- Each operation on the arrays is the operation on the values. -/
theorem Realizes.step {op : ParserOp ι} (h : s.Realizes own r) (hstep : s.step op = some t)
    (hop : s.CopiesArrays op) : ∃ r', r.step op = some r' ∧ ∃ own', t.Realizes own' r' := by
  have habsent : ∀ {c}, s.objects c = none → r c = none := by
    intro c hc
    have hholds := h.holds c
    rw [hc] at hholds
    exact hholds.eq_none
  have hpresent : ∀ {c p}, s.objects c = some p →
      ∃ config, r c = some config ∧ Represents s.heap p (config.map contents) (own c) := by
    intro c p hc
    have hholds := h.holds c
    rw [hc] at hholds
    exact hholds.exists_config
  cases op with
  | default a =>
    rw [Parsers.step] at hstep
    split at hstep
    case isFalse => cases hstep
    case isTrue hfree =>
      obtain rfl := Option.some.inj hstep
      exact ⟨_, if_pos (habsent hfree), _,
        h.place a none (Blocks.Allocates.refl s.heap) .null⟩
  | construct a config =>
    rw [Parsers.step] at hstep
    split at hstep
    case isFalse => cases hstep
    case isTrue hfree =>
      obtain rfl := Option.some.inj hstep
      refine ⟨_, if_pos (habsent hfree), ?_⟩
      cases config with
      | none => exact ⟨_, h.place a none (Blocks.Allocates.refl s.heap) .null⟩
      | some section_ptree =>
        obtain ⟨addrs, halloc, hparsed⟩ := constructingMassives_spec section_ptree s.heap
        exact ⟨_, h.place a (some section_ptree) halloc hparsed⟩
  | copy a b =>
    obtain ⟨p, hp, hvalues⟩ := hop
    obtain ⟨hfree, -, rhs, hb, rfl⟩ := step_copy_eq hstep
    obtain rfl : p = rhs := Option.some.inj (hp.symm.trans hb)
    obtain ⟨config, hrb, -⟩ := hpresent hb
    obtain ⟨q, H, own', hcopy, hcopied⟩ := h.copying a
      { Parser.null with sizeCharPtrPtr := p.sizeCharPtrPtr } hb hrb hvalues rfl
    rw [copyParser, hcopy]
    exact ⟨_, by rw [Registry.step, habsent hfree, hrb], own', hcopied⟩
  | assign a b =>
    obtain ⟨this, rhs, ha, hb, rfl⟩ := step_assign_eq hstep
    obtain ⟨old, hra, hthis⟩ := hpresent ha
    obtain ⟨config, hrb, -⟩ := hpresent hb
    refine ⟨Function.update r a (some config), by rw [Registry.step, hra, hrb], ?_⟩
    by_cases hab : a = b
    · subst hab
      rw [if_pos rfl, ← hrb, Function.update_eq_self]
      exact ⟨own, h⟩
    · obtain ⟨p, hp, hvalues⟩ := hop.resolve_left hab
      obtain rfl : rhs = p := Option.some.inj (hb.symm.trans hp)
      obtain ⟨H, olds, hclear, hdeletes, holds, hnodup⟩ :=
        clearingMassives_spec hthis (h.owned.nodup a)
      have hba : b ≠ a := fun hba => hab hba.symm
      have hb' : (s.set a none H).objects b = some rhs := by
        rw [objects_set, if_neg hba, hb]
      have hrb' : Function.update r a none b = some config := by
        rw [Function.update_of_ne hba, hrb]
      obtain ⟨q, H', own', hcopy, hcopied⟩ := (h.remove a hdeletes holds hnodup).copying a
        { this with sizeCharPtrPtr := rhs.sizeCharPtrPtr } hb' hrb' hvalues rfl
      rw [set_set, Function.update_idem] at hcopied
      have hstore := congrArg (s.store a) hcopy
      rw [if_neg hab, assignParser, hclear, Option.bind_some]
      exact ⟨own', hstore ▸ hcopied⟩
  | destroy a =>
    rw [Parsers.step] at hstep
    cases ha : s.objects a with
    | none => rw [ha] at hstep; cases hstep
    | some p =>
      obtain ⟨config, hra, hp⟩ := hpresent ha
      obtain ⟨H, olds, hclear, hdeletes, holds, hnodup⟩ :=
        clearingMassives_spec hp (h.owned.nodup a)
      rw [ha] at hstep
      dsimp only at hstep
      rw [hclear] at hstep
      obtain rfl := Option.some.inj hstep
      exact ⟨_, by rw [Registry.step, hra, Option.map_some], _, h.remove a hdeletes holds hnodup⟩

end Parsers

/-! ## Reading the settings -/

private theorem parsedInfo_eq_keywordAt (H : Heap) (p : Parser) (i : Nat) :
    parsedInfo H p i = keywordAt H { p with keywords := p.values } i := rfl

private theorem keywordAt_eq_getElem? {H : Heap} {k : Nat} {kqs : List Nat} {ks : List Text} {p : Parser}
    (hp : p.keywords = some k) (hk : IsMassive H k kqs ks) (i : Nat) :
    keywordAt H p i = ks[i]? := by
  by_cases hi : i < ks.length
  · rw [keywordAt_eq hp hk hi, List.getElem?_eq_getElem hi]
  · have hlength := hk.strings.length_eq
    have hbehind : (kqs.map some ++ [none])[i]?.bind (readString H) = none := by
      rw [List.getElem?_append_right (by rw [List.length_map]; omega), List.length_map]
      cases i - kqs.length <;> rfl
    rw [List.getElem?_eq_none (Nat.le_of_not_lt hi), keywordAt, hp, Option.bind_some, hk.array,
      pointersTo]
    exact hbehind

private theorem parsedInfo_of_represents {H : Heap} {p : Parser} {config : Option Section}
    {addrs : List Nat} (h : Represents H p (config.map contents) addrs) (i : Nat) :
    parsedInfo H p i = (config.getD [])[i]?.map fun e => cText e.2 := by
  cases config with
  | none =>
    cases h
    rfl
  | some section_ptree =>
    generalize hc : (some section_ptree).map contents = c at h
    cases h with
    | null => cases hc
    | filled hk hv hsize =>
      obtain ⟨-, rfl⟩ := Prod.mk.inj (Option.some.inj hc)
      rw [parsedInfo_eq_keywordAt, keywordAt_eq_getElem? rfl hv, List.getElem?_map]
      rfl

private theorem connectdbParams_of_reads {H : Heap} {kqs vqs : List Nat} {ks vs : List Text}
    (hk : ReadsStrings H kqs ks) (hv : ReadsStrings H vqs vs) (hsize : vqs.length = kqs.length)
    (ends : List (Option Nat)) :
    connectdbParams H (kqs.map some ++ [none]) (vqs.map some ++ ends) = some (ks.zip vs) := by
  induction hk generalizing vqs vs with
  | nil => rfl
  | cons hkey hkeys ih =>
    cases hv with
    | nil => cases hsize
    | cons hvalue hvalues =>
      have hrest := ih hvalues (Nat.succ.inj hsize)
      simp only [List.map_cons, List.cons_append, connectdbParams, hkey, hvalue, hrest,
        Option.bind_some, Option.map_some, List.zip_cons_cons]

private theorem poolParams_of_represents {H : Heap} {p : Parser} {config : Option Section}
    {addrs : List Nat} (h : Represents H p (config.map contents) addrs) :
    poolParams H p = some (config.map fun s => s.map fun e => (cText e.1, cText e.2)) := by
  cases config with
  | none =>
    cases h
    rfl
  | some section_ptree =>
    generalize hc : (some section_ptree).map contents = c at h
    cases h with
    | null => cases hc
    | filled hk hv hsize =>
      obtain ⟨rfl, rfl⟩ := Prod.mk.inj (Option.some.inj hc)
      rw [poolParams, if_neg (by simp [Parser.parsedInfoPtr])]
      simp only [Parser.parsedInfoPtr, Option.bind_some, hk.array, hv.array, pointersTo,
        connectdbParams_of_reads hk.strings hv.strings hsize, Option.map_some, List.zip_map']

private theorem compareKeys_self (keys : List Text) : compareKeys keys keys = .answer true [] := by
  induction keys with
  | nil => rfl
  | cons key keys ih => rw [compareKeys, if_neg (not_not_intro rfl), ih]

private theorem validateParsed_passes_iff {H : Heap} {p : Parser} {config : Option Section}
    {addrs : List Nat} (h : Represents H p (config.map contents) addrs) (parser : SectionParser) :
    (∃ what, validateParsed H p parser.expectedCount parser.expected = .answer true what) ↔
      (config.getD []).map (fun e => cText e.1) = parser.expected := by
  have hpos : 0 < parser.expected.length := by cases parser <;> decide
  rw [← parser.length_expected]
  cases config with
  | none =>
    cases h
    have hless : Parser.null.sizeCharPtrPtr < parser.expected.length := hpos
    rw [validateParsed, if_pos hless]
    refine iff_of_false (by simp) fun hkeys => ?_
    rw [← hkeys] at hpos
    exact absurd hpos (Nat.lt_irrefl 0)
  | some section_ptree =>
    rw [Option.getD_some, validateParsed_eq h]
    by_cases hless : (section_ptree.map fun e => cText e.1).length < parser.expected.length
    · rw [if_pos hless]
      refine iff_of_false (by simp) fun hkeys => ?_
      rw [hkeys] at hless
      exact absurd hless (Nat.lt_irrefl _)
    · rw [if_neg hless]
      constructor
      · rintro ⟨what, hpassed⟩
        obtain ⟨-, hsame⟩ := compareKeys_passed hpassed
        exact hsame.eq_of_length_le (Nat.le_of_not_lt hless)
      · intro hkeys
        exact ⟨[], by rw [hkeys, compareKeys_self]⟩

/-- As long as only parsers with arrays are copied, every object of a run can be read as the section
that it goes back to: each position yields the value at that position, connections are made with the
pairs of the section, and the check passes exactly when the keys are the expected ones, so that each
expected key has its value at its own position. -/
theorem settings_read_back {ι : Type*} [DecidableEq ι] {ops : List (ParserOp ι)}
    (hcopies : (Parsers.machine ι).Guarded Parsers.CopiesArrays (.init ι) ops) {s : Parsers ι}
    (hrun : (Parsers.machine ι).run (.init ι) ops = some s) :
    ∃ r, (Registry.machine ι).run (Registry.empty ι) ops = some r ∧
      ∀ a p, s.objects a = some p → ∃ config, r a = some config ∧
        (∀ i, parsedInfo s.heap p i = (config.getD [])[i]?.map fun e => cText e.2) ∧
        poolParams s.heap p = some (config.map fun s => s.map fun e => (cText e.1, cText e.2)) ∧
        ∀ parser : SectionParser,
          (∃ what, validateParsed s.heap p parser.expectedCount parser.expected =
              .answer true what) ↔
            (config.getD []).map (fun e => cText e.1) = parser.expected := by
  have hstep : ∀ (s : Parsers ι) op t r, (Parsers.machine ι).step s op = some t →
      s.CopiesArrays op → (∃ own, s.Realizes own r) →
        ∃ r', (Registry.machine ι).step r op = some r' ∧ ∃ own', t.Realizes own' r' := by
    rintro s op t r hstep hop ⟨own, hs⟩
    exact hs.step hstep hop
  obtain ⟨r, hr, own, hrealizes⟩ :=
    hcopies.simulated hstep hrun ⟨_, Parsers.realizes_init⟩
  refine ⟨r, hr, fun a p ha => ?_⟩
  have hholds := hrealizes.holds a
  rw [ha] at hholds
  obtain ⟨config, hconfig, hp⟩ := hholds.exists_config
  exact ⟨config, hconfig, parsedInfo_of_represents hp, poolParams_of_represents hp,
    validateParsed_passes_iff hp⟩

/-- A parser is copied, and the original destroyed. -/
def copyOutlives : List (ParserOp Bool) :=
  [.construct true (some [(['k'], ['v'])]), .copy false true, .destroy true]

theorem settings_read_back_copy :
    ∃ s, (Parsers.machine Bool).run (.init Bool) copyOutlives = some s ∧
      ∃ r, (Registry.machine Bool).run (Registry.empty Bool) copyOutlives = some r ∧
      ∀ a p, s.objects a = some p → ∃ config, r a = some config ∧
        (∀ i, parsedInfo s.heap p i = (config.getD [])[i]?.map fun e => cText e.2) ∧
        poolParams s.heap p = some (config.map fun s => s.map fun e => (cText e.1, cText e.2)) ∧
        ∀ parser : SectionParser,
          (∃ what, validateParsed s.heap p parser.expectedCount parser.expected =
              .answer true what) ↔
            (config.getD []).map (fun e => cText e.1) = parser.expected := by
  have hcopies : (Parsers.machine Bool).Guarded Parsers.CopiesArrays (.init Bool) copyOutlives := by
    intro t ht
    obtain rfl := Option.some.inj ht
    refine ⟨trivial, fun u hu => ?_⟩
    obtain rfl := Option.some.inj hu
    exact ⟨⟨_, rfl, Option.some_ne_none _⟩, fun _ _ => ⟨trivial, trivial⟩⟩
  have henabled :
      ((Parsers.machine Bool).run (.init Bool) copyOutlives).isSome = true := by decide
  obtain ⟨s, hs⟩ := Option.isSome_iff_exists.mp henabled
  exact ⟨s, hs, settings_read_back hcopies hs⟩

end PetProject.IniParser
