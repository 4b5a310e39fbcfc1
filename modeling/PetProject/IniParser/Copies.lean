import PetProject.Framework.Machine
import PetProject.IniParser.Massives

/-!
# Copies of parsers

Any number of parsers that are constructed, copied, assigned to one another and destroyed, over one
heap. Copying goes wrong for a parser without arrays: it leaves `keywords` alone, which after an
assignment points to an array that has just been deleted.
-/

namespace PetProject.IniParser

open Framework

/-- The parsers of a program and their heap; `fault` is set when an array is read that is not
live. -/
structure Parsers (ι : Type*) where
  heap : Heap
  objects : ι → Option Parser
  fault : Bool

inductive ParserOp (ι : Type*)
  | default (a : ι)
  | construct (a : ι) (config : Option Section)
  | copy (a b : ι)
  | assign (a b : ι)
  | destroy (a : ι)

namespace Parsers

variable {ι : Type*}

def init (ι : Type*) : Parsers ι := ⟨.empty, fun _ => none, false⟩

/-! ## What a copy should be -/

/-- The first parser has the keys and the values of the second one, in live arrays of its own. -/
structure CopiedFrom (s : Parsers ι) (a b : ι) (this p : Parser) : Prop where
  keys : ∃ l, stringsAt s.heap this.keywords this.sizeCharPtrPtr = some l ∧
    stringsAt s.heap p.keywords p.sizeCharPtrPtr = some l
  values : ∃ l, stringsAt s.heap this.values this.sizeCharPtrPtr = some l ∧
    stringsAt s.heap p.values p.sizeCharPtrPtr = some l
  live : ∀ q ∈ this.arrays s.heap, s.heap.block q ≠ none
  apart : (this.arrays s.heap).Nodup
  alone : ∀ c other, c ≠ a → s.objects c = some other →
    ∀ q ∈ this.arrays s.heap, q ∉ other.arrays s.heap

/-- What an operation should leave behind. -/
structure Sound (op : ParserOp ι) (t : Parsers ι) : Prop where
  copied : ∀ a b, op = .copy a b ∨ op = .assign a b →
    ∃ this p, t.objects a = some this ∧ t.objects b = some p ∧ t.CopiedFrom a b this p
  deleted_once : t.heap.deleted.Nodup
  in_bounds : t.fault = false

/-- The parser that is copied, if it is not assigned to itself, has arrays. -/
def CopiesArrays (s : Parsers ι) : ParserOp ι → Prop
  | .copy _ b => ∃ p, s.objects b = some p ∧ p.values ≠ none
  | .assign a b => a = b ∨ ∃ p, s.objects b = some p ∧ p.values ≠ none
  | _ => True

/-! ## Ownership -/

/-- Every parser has arrays of its own, or none; no deleted array is live. -/
structure Owned (s : Parsers ι) (own : ι → List Nat) : Prop where
  represents : ∀ a p, s.objects a = some p → ∃ c, Represents s.heap p c (own a)
  absent : ∀ a, s.objects a = none → own a = []
  nodup : ∀ a, (own a).Nodup
  disjoint : ∀ a b, a ≠ b → (own a).Disjoint (own b)
  deleted_nodup : s.heap.deleted.Nodup
  deleted_dead : ∀ q ∈ s.heap.deleted, s.heap.block q = none ∧ q < s.heap.next
  in_bounds : s.fault = false

theorem Owned.live {s : Parsers ι} {own : ι → List Nat} (h : s.Owned own) {a : ι} {q : Nat}
    (hq : q ∈ own a) : s.heap.block q ≠ none := by
  cases ha : s.objects a with
  | none =>
    rw [h.absent a ha] at hq
    exact (List.not_mem_nil hq).elim
  | some p =>
    obtain ⟨c, hc⟩ := h.represents a p ha
    exact hc.live hq

theorem Owned.lt_next {s : Parsers ι} {own : ι → List Nat} (h : s.Owned own) {a : ι} {q : Nat}
    (hq : q ∈ own a) : q < s.heap.next :=
  Blocks.lt_next_of_live (h.live hq)

theorem owned_init : (init ι).Owned fun _ => [] where
  represents a p hp := by cases hp
  absent a ha := rfl
  nodup a := List.nodup_nil
  disjoint a b hab := List.disjoint_nil_left _
  deleted_nodup := List.nodup_nil
  deleted_dead q hq := (List.not_mem_nil hq).elim
  in_bounds := rfl

private theorem Owned.copiedFrom {s : Parsers ι} {own : ι → List Nat} (h : s.Owned own) {a b : ι}
    {this p : Parser} {c : Option (List Text × List Text)} {addrs : List Nat}
    (hthis : Represents s.heap this c (own a)) (hp : Represents s.heap p c addrs) :
    s.CopiedFrom a b this p where
  keys := ⟨_, hthis.strings.1, hp.strings.1⟩
  values := ⟨_, hthis.strings.2, hp.strings.2⟩
  live q hq := hthis.live (hthis.arrays ▸ hq)
  apart := hthis.arrays.symm ▸ h.nodup a
  alone d other hd hother q hq hq' := by
    obtain ⟨c', hc'⟩ := h.represents d other hother
    rw [hthis.arrays] at hq
    rw [hc'.arrays] at hq'
    exact h.disjoint d a hd hq' hq

theorem Owned.sound {op : ParserOp ι} {t : Parsers ι} {own : ι → List Nat} (h : t.Owned own)
    (hop : ∀ a b, op ≠ .copy a b ∧ op ≠ .assign a b) : Sound op t where
  copied a b hab := hab.elim (fun hc => absurd hc (hop a b).1) fun hc => absurd hc (hop a b).2
  deleted_once := h.deleted_nodup
  in_bounds := h.in_bounds

private theorem sound_copy {t : Parsers ι} {own : ι → List Nat} (h : t.Owned own) {a b : ι}
    {op : ParserOp ι} (hop : op = .copy a b ∨ op = .assign a b) {this p : Parser}
    (ha : t.objects a = some this) (hb : t.objects b = some p) (hcopy : t.CopiedFrom a b this p) :
    Sound op t where
  copied a' b' hab := by
    obtain ⟨rfl, rfl⟩ : a = a' ∧ b = b' := by
      rcases hop with rfl | rfl <;> rcases hab with hab | hab <;> cases hab <;> exact ⟨rfl, rfl⟩
    exact ⟨this, p, ha, hb, hcopy⟩
  deleted_once := h.deleted_nodup
  in_bounds := h.in_bounds

private theorem not_sound_copy {t : Parsers ι} {op : ParserOp ι} {a b : ι} {this : Parser}
    (hop : op = .copy a b ∨ op = .assign a b) (ha : t.objects a = some this)
    (hb : t.objects b = some .null) (hsize : this.sizeCharPtrPtr = 0) (hvalues : this.values ≠ none) :
    ¬Sound op t := by
  intro h
  obtain ⟨copy, p, hcopy, hp, hcopied⟩ := h.copied a b hop
  obtain rfl : this = copy := Option.some.inj (ha.symm.trans hcopy)
  obtain rfl : .null = p := Option.some.inj (hb.symm.trans hp)
  obtain ⟨l, hthis, hnull⟩ := hcopied.values
  obtain rfl : none = l := Option.some.inj hnull
  rw [stringsAt, if_neg hvalues, hsize] at hthis
  cases hthis

private theorem Owned.eq_null {s : Parsers ι} {own : ι → List Nat} (h : s.Owned own) {b : ι}
    {p : Parser} (hb : s.objects b = some p) (hnone : ¬∃ q, s.objects b = some q ∧ q.values ≠ none) :
    p = .null := by
  obtain ⟨c, hp⟩ := h.represents b p hb
  exact hp.null_of_values (not_not.mp fun hvalues => hnone ⟨p, hb, hvalues⟩)

/-! ## The operations -/

variable [DecidableEq ι]

def set (s : Parsers ι) (a : ι) (p : Option Parser) (H : Heap) : Parsers ι :=
  ⟨H, Function.update s.objects a p, s.fault⟩

/-- The object gets what a copy yields. -/
def store (s : Parsers ι) (a : ι) : Option (Parser × Heap) → Parsers ι
  | some copy => s.set a (some copy.1) copy.2
  | none => { s with fault := true }

/-- One operation; `none` when the objects are not there for it. -/
def step (s : Parsers ι) : ParserOp ι → Option (Parsers ι)
  | .default a => if s.objects a = none then some (s.set a (some .null) s.heap) else none
  | .construct a config =>
    let parsed := constructParser config s.heap
    if s.objects a = none then some (s.set a (some parsed.1) parsed.2) else none
  | .copy a b =>
    match s.objects a, s.objects b with
    | none, some p => some (s.store a (copyParser p s.heap))
    | _, _ => none
  | .assign a b =>
    match s.objects a, s.objects b with
    | some this, some rhs =>
      if a = b then some s else some (s.store a (assignParser this rhs s.heap))
    | _, _ => none
  | .destroy a =>
    match s.objects a with
    | some p =>
      match clearingMassives p s.heap with
      | some H => some (s.set a none H)
      | none => some { s with objects := Function.update s.objects a none, fault := true }
    | none => none

def machine (ι : Type*) [DecidableEq ι] : Machine (Parsers ι) (ParserOp ι) := ⟨step⟩

theorem objects_set (s : Parsers ι) (a b : ι) (p : Option Parser) (H : Heap) :
    (s.set a p H).objects b = if b = a then p else s.objects b := by
  rw [set]
  exact Function.update_apply s.objects a p b

theorem Owned.place {s : Parsers ι} {own : ι → List Nat} (h : s.Owned own) (a : ι) {p : Parser}
    {H : Heap} {c : Option (List Text × List Text)} {news : List Nat}
    (halloc : s.heap.Allocates H news) (hp : Represents H p c news) :
    (s.set a (some p) H).Owned (Function.update own a news) where
  represents b r hr := by
    rw [objects_set] at hr
    rw [Function.update_apply]
    split at hr
    case isTrue hb =>
      obtain rfl := Option.some.inj hr
      exact ⟨c, by rwa [if_pos hb]⟩
    case isFalse hb =>
      obtain ⟨d, hd⟩ := h.represents b r hr
      rw [if_neg hb]
      exact ⟨d, hd.congr fun q hq => halloc.old q (h.lt_next hq)⟩
  absent b hb := by
    rw [objects_set] at hb
    split at hb
    case isTrue => cases hb
    case isFalse hne =>
      rw [Function.update_of_ne hne]
      exact h.absent b hb
  nodup b := by
    rw [Function.update_apply]
    split
    · exact halloc.nodup
    · exact h.nodup b
  disjoint b d hbd := by
    have hnews : ∀ e, news.Disjoint (own e) := fun e q hq hq' =>
      absurd (h.lt_next hq') (Nat.not_lt.mpr (halloc.range q hq).1)
    rw [Function.update_apply, Function.update_apply]
    split
    case isTrue hb =>
      rw [if_neg fun hd => hbd (hb.trans hd.symm)]
      exact hnews d
    case isFalse =>
      split
      · exact fun q hq hq' => hnews b hq' hq
      · exact h.disjoint b d hbd
  deleted_nodup := halloc.deleted ▸ h.deleted_nodup
  deleted_dead q hq := by
    obtain ⟨hdead, hlt⟩ := h.deleted_dead q (halloc.deleted ▸ hq)
    exact ⟨(halloc.old q hlt).trans hdead, hlt.trans_le halloc.next_le⟩
  in_bounds := h.in_bounds

theorem Owned.remove {s : Parsers ι} {own : ι → List Nat} (h : s.Owned own) (a : ι) {H : Heap}
    {olds : List Nat} (hdeletes : s.heap.Deletes H olds) (holds : olds ⊆ own a)
    (hnodup : olds.Nodup) : (s.set a none H).Owned (Function.update own a []) where
  represents b r hr := by
    rw [objects_set] at hr
    split at hr
    case isTrue => cases hr
    case isFalse hb =>
      obtain ⟨d, hd⟩ := h.represents b r hr
      rw [Function.update_of_ne hb]
      refine ⟨d, hd.congr fun q hq => ?_⟩
      exact (hdeletes.block q).trans (if_neg fun hold => h.disjoint b a hb hq (holds hold))
  absent b hb := by
    rw [objects_set] at hb
    rw [Function.update_apply]
    split
    · rfl
    · rw [if_neg ‹_›] at hb
      exact h.absent b hb
  nodup b := by
    rw [Function.update_apply]
    split
    · exact List.nodup_nil
    · exact h.nodup b
  disjoint b d hbd := by
    rw [Function.update_apply, Function.update_apply]
    split
    · exact List.disjoint_nil_left _
    · split
      · exact List.disjoint_nil_right _
      · exact h.disjoint b d hbd
  deleted_nodup := by
    show H.deleted.Nodup
    rw [hdeletes.deleted]
    refine List.nodup_append.mpr ⟨h.deleted_nodup, hnodup, ?_⟩
    rintro q hq _ hq' rfl
    exact h.live (holds hq') (h.deleted_dead q hq).1
  deleted_dead q hq := by
    have hq' : q ∈ s.heap.deleted ++ olds := hdeletes.deleted ▸ hq
    show H.block q = none ∧ q < H.next
    rw [hdeletes.block, hdeletes.next]
    rcases List.mem_append.mp hq' with hdead | hold
    · obtain ⟨hnone, hlt⟩ := h.deleted_dead q hdead
      exact ⟨by rw [hnone, ite_self], hlt⟩
    · exact ⟨if_pos hold, h.lt_next (holds hold)⟩
  in_bounds := h.in_bounds

/-! ## One operation -/

theorem set_set (s : Parsers ι) (a : ι) (p q : Option Parser) (H H' : Heap) :
    (s.set a p H).set a q H' = s.set a q H' := by
  simp only [set, Function.update_idem]

theorem Owned.copying {s : Parsers ι} {own : ι → List Nat} (h : s.Owned own) (a : ι) {b : ι}
    (this : Parser) {p : Parser} (hb : s.objects b = some p) (hvalues : p.values ≠ none)
    (hsize : this.sizeCharPtrPtr = p.sizeCharPtrPtr) :
    ∃ q H own', copyingMassives this p s.heap = some (q, H) ∧ (s.set a (some q) H).Owned own' ∧
      (s.set a (some q) H).CopiedFrom a b q p := by
  obtain ⟨c, hp⟩ := h.represents b p hb
  obtain ⟨ks, vs, rfl⟩ := hp.filled_of_values hvalues
  obtain ⟨q, H, news, hcopy, halloc, hq⟩ := copyingMassives_filled hp hsize
  have howned := h.place a halloc hq
  have hp' : Represents H p (some (ks, vs)) (own b) :=
    hp.congr fun q hq => halloc.old q (h.lt_next hq)
  have hq' : Represents H q (some (ks, vs)) (Function.update own a news a) := by
    rwa [Function.update_self]
  exact ⟨q, H, _, hcopy, howned, howned.copiedFrom hq' hp'⟩

section Steps

variable {s t : Parsers ι} {own : ι → List Nat} {a b : ι}

theorem step_copy_eq (h : s.step (.copy a b) = some t) :
    s.objects a = none ∧ b ≠ a ∧
      ∃ p, s.objects b = some p ∧ s.store a (copyParser p s.heap) = t := by
  rw [step] at h
  split at h
  case h_1 p ha hb =>
    refine ⟨ha, ?_, p, hb, Option.some.inj h⟩
    rintro rfl
    cases ha.symm.trans hb
  case h_2 => cases h

theorem step_assign_eq (h : s.step (.assign a b) = some t) :
    ∃ this rhs, s.objects a = some this ∧ s.objects b = some rhs ∧
      (if a = b then s else s.store a (assignParser this rhs s.heap)) = t := by
  rw [step] at h
  split at h
  case h_1 this rhs ha hb =>
    refine ⟨this, rhs, ha, hb, ?_⟩
    by_cases hab : a = b
    · rw [if_pos hab] at h ⊢
      exact Option.some.inj h
    · rw [if_neg hab] at h ⊢
      exact Option.some.inj h
  case h_2 => cases h

private theorem Owned.step_copy (h : s.Owned own) (hstep : s.step (.copy a b) = some t)
    (hop : s.CopiesArrays (.copy a b)) : (∃ own', t.Owned own') ∧ Sound (.copy a b) t := by
  obtain ⟨p, hp, hvalues⟩ := hop
  obtain ⟨-, hba, rhs, hb, rfl⟩ := step_copy_eq hstep
  obtain rfl : p = rhs := Option.some.inj (hp.symm.trans hb)
  obtain ⟨q, H, own', hcopy, howned, hcopied⟩ :=
    h.copying a { Parser.null with sizeCharPtrPtr := p.sizeCharPtrPtr } hb hvalues rfl
  rw [copyParser, hcopy]
  refine ⟨⟨own', howned⟩, sound_copy howned (Or.inl rfl) ?_ ?_ hcopied⟩
  · rw [objects_set, if_pos rfl]
  · rw [objects_set, if_neg hba, hb]

private theorem Owned.step_assign (h : s.Owned own) (hstep : s.step (.assign a b) = some t)
    (hop : s.CopiesArrays (.assign a b)) : (∃ own', t.Owned own') ∧ Sound (.assign a b) t := by
  obtain ⟨this, rhs, ha, hb, rfl⟩ := step_assign_eq hstep
  obtain ⟨c, hthis⟩ := h.represents a this ha
  by_cases hab : a = b
  · subst hab
    rw [if_pos rfl]
    exact ⟨⟨own, h⟩, sound_copy h (Or.inr rfl) ha ha (h.copiedFrom hthis hthis)⟩
  · obtain ⟨p, hp, hvalues⟩ := hop.resolve_left hab
    obtain rfl : rhs = p := Option.some.inj (hb.symm.trans hp)
    obtain ⟨H, olds, hclear, hdeletes, holds, hnodup⟩ := clearingMassives_spec hthis (h.nodup a)
    have hba : b ≠ a := fun hba => hab hba.symm
    have hb' : (s.set a none H).objects b = some rhs := by
      rw [objects_set, if_neg hba, hb]
    -- the object has lost its arrays before it gets those of the copy
    obtain ⟨q, H', own', hcopy, howned, hcopied⟩ :=
      (h.remove a hdeletes holds hnodup).copying a
        { this with sizeCharPtrPtr := rhs.sizeCharPtrPtr } hb' hvalues rfl
    rw [set_set] at howned hcopied
    have hstore := congrArg (s.store a) hcopy
    rw [if_neg hab, assignParser, hclear, Option.bind_some]
    refine hstore ▸ ⟨⟨own', howned⟩, sound_copy howned (Or.inr rfl) ?_ ?_ hcopied⟩
    · rw [objects_set, if_pos rfl]
    · rw [objects_set, if_neg hba, hb]

theorem Owned.step {op : ParserOp ι} (h : s.Owned own) (hstep : s.step op = some t)
    (hop : s.CopiesArrays op) : (∃ own', t.Owned own') ∧ Sound op t := by
  cases op with
  | default a =>
    rw [Parsers.step] at hstep
    split at hstep
    case isFalse => cases hstep
    case isTrue =>
      obtain rfl := Option.some.inj hstep
      have howned := h.place a (Blocks.Allocates.refl s.heap) .null
      exact ⟨⟨_, howned⟩, howned.sound fun _ _ => ⟨nofun, nofun⟩⟩
  | construct a config =>
    rw [Parsers.step] at hstep
    split at hstep
    case isFalse => cases hstep
    case isTrue =>
      obtain rfl := Option.some.inj hstep
      cases config with
      | none =>
        have howned := h.place a (Blocks.Allocates.refl s.heap) .null
        exact ⟨⟨_, howned⟩, howned.sound fun _ _ => ⟨nofun, nofun⟩⟩
      | some section_ptree =>
        obtain ⟨addrs, halloc, hparsed⟩ := constructingMassives_spec section_ptree s.heap
        have howned := h.place a halloc hparsed
        exact ⟨⟨_, howned⟩, howned.sound fun _ _ => ⟨nofun, nofun⟩⟩
  | copy a b => exact h.step_copy hstep hop
  | assign a b => exact h.step_assign hstep hop
  | destroy a =>
    rw [Parsers.step] at hstep
    cases ha : s.objects a with
    | none => rw [ha] at hstep; cases hstep
    | some p =>
      obtain ⟨c, hp⟩ := h.represents a p ha
      obtain ⟨H, olds, hclear, hdeletes, holds, hnodup⟩ := clearingMassives_spec hp (h.nodup a)
      rw [ha] at hstep
      dsimp only at hstep
      rw [hclear] at hstep
      obtain rfl := Option.some.inj hstep
      have howned := h.remove a hdeletes holds hnodup
      exact ⟨⟨_, howned⟩, howned.sound fun _ _ => ⟨nofun, nofun⟩⟩

theorem Owned.not_sound {op : ParserOp ι} (h : s.Owned own) (hstep : s.step op = some t)
    (hop : ¬s.CopiesArrays op) : ¬Sound op t := by
  cases op with
  | default a => exact absurd trivial hop
  | construct a config => exact absurd trivial hop
  | destroy a => exact absurd trivial hop
  | copy a b =>
    obtain ⟨-, hba, p, hb, rfl⟩ := step_copy_eq hstep
    obtain rfl := h.eq_null hb hop
    obtain ⟨H, hcopy, -, -⟩ := copyingMassives_null .null s.heap rfl
    have hstore := congrArg (s.store a) hcopy
    refine hstore ▸ not_sound_copy (Or.inl rfl) ((objects_set ..).trans (if_pos rfl)) ?_ rfl
      (Option.some_ne_none s.heap.next)
    exact (objects_set ..).trans ((if_neg hba).trans hb)
  | assign a b =>
    obtain ⟨this, rhs, ha, hb, rfl⟩ := step_assign_eq hstep
    obtain ⟨hab, hnone⟩ := not_or.mp hop
    obtain rfl := h.eq_null hb hnone
    obtain ⟨c, hthis⟩ := h.represents a this ha
    obtain ⟨H, olds, hclear, -, -, -⟩ := clearingMassives_spec hthis (h.nodup a)
    obtain ⟨H', hcopy, -, -⟩ := copyingMassives_null { this with sizeCharPtrPtr := 0 } H rfl
    have hstore := congrArg (s.store a) hcopy
    rw [if_neg hab, assignParser, hclear, Option.bind_some]
    refine hstore ▸ not_sound_copy (Or.inr rfl) ((objects_set ..).trans (if_pos rfl)) ?_ rfl
      (Option.some_ne_none H.next)
    exact (objects_set ..).trans ((if_neg fun hba => hab hba.symm).trans hb)

end Steps

/-- Every copy in a run is an equal, independent parser, and no array is deleted twice, exactly
when no parser without arrays is copied, or assigned to another one. -/
theorem copies_independent_iff (ops : List (ParserOp ι)) :
    (machine ι).Throughout (fun _ op t => Sound op t) (init ι) ops ↔
      (machine ι).Guarded CopiesArrays (init ι) ops := by
  refine Machine.throughout_iff_guarded (I := fun s => ∃ own, s.Owned own) ?_ ?_
    ⟨_, owned_init⟩
  · rintro s op t hstep hop ⟨own, h⟩
    exact (h.step hstep hop).1
  · rintro s op t hstep ⟨own, h⟩
    constructor
    · intro hsound
      by_contra hop
      exact h.not_sound hstep hop hsound
    · intro hop
      exact (h.step hstep hop).2

theorem keywords_dangle_after_assignment :
    ¬∀ ops : List (ParserOp Nat),
      (machine Nat).Throughout (fun _ op t => Sound op t) (init Nat) ops := by
  intro h
  have hassign := (((h [.construct 0 (some [(['k'], ['v'])]), .default 1, .assign 0 1] _ rfl).2
    _ rfl).2 _ rfl).1
  obtain ⟨this, p, hthis, -, hcopied⟩ := hassign.copied 0 1 (Or.inr rfl)
  obtain rfl := Option.some.inj hthis
  exact hcopied.live 0 (by decide) rfl

end Parsers

end PetProject.IniParser
