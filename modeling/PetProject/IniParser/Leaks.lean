import PetProject.IniParser.Copies

/-!
# Arrays that are left over

`clearing_massives` takes a parser without keys for one without arrays, although a section that is
empty yields two of them. They are lost when the parser is destroyed or assigned to.
-/

namespace PetProject.IniParser

open Framework

/-! ## How many arrays are allocated -/

private theorem newEntries_next (entries : Section) (H : Heap) :
    (newEntries entries H).2.next = H.next + 2 * entries.length := by
  induction entries generalizing H with
  | nil => rfl
  | cons entry entries ih =>
    have hrest := ih (newString entry.2 (newString entry.1 H).2).2
    have hstrings : (newString entry.2 (newString entry.1 H).2).2.next = H.next + 1 + 1 := rfl
    rw [hstrings] at hrest
    rw [List.length_cons, newEntries]
    dsimp only
    omega

private theorem constructingMassives_next (section_ptree : Section) (H : Heap) :
    (constructingMassives section_ptree H).2.next = H.next + (2 * section_ptree.length + 2) := by
  have hentries := newEntries_next section_ptree ((H.new (.pointers [])).2.new (.pointers [])).2
  have harrays : ((H.new (.pointers [])).2.new (.pointers [])).2.next = H.next + 1 + 1 := rfl
  have hwrites : (constructingMassives section_ptree H).2.next =
    (newEntries section_ptree ((H.new (.pointers [])).2.new (.pointers [])).2).2.next := rfl
  omega

private theorem copyStrings_next {ps : List (Option Nat)} {H H' : Heap} {copies : List Nat}
    (h : copyStrings ps H = some (copies, H')) : H'.next = H.next + ps.length := by
  induction ps generalizing H H' copies with
  | nil =>
    cases h
    rfl
  | cons p ps ih =>
    rw [copyStrings] at h
    split at h
    case h_1 => cases h
    case h_2 src hsrc =>
      obtain ⟨⟨rest, H''⟩, hrest, hcopies⟩ := Option.map_eq_some_iff.mp h
      cases hcopies
      have hnext : H''.next = (newString src H).2.next + ps.length := ih hrest
      have hstring : (newString src H).2.next = H.next + 1 := rfl
      rw [List.length_cons]
      dsimp only
      omega

private theorem length_readPointers {H : Heap} {p : Option Nat} {n : Nat} {ps : List (Option Nat)}
    (h : readPointers H p n = some ps) : ps.length = n := by
  rw [readPointers] at h
  split at h
  case isTrue hzero =>
    cases h
    exact hzero.symm
  case isFalse =>
    split at h
    case h_1 qs hqs =>
      split at h
      case isTrue hle =>
        cases h
        exact List.length_take_of_le hle
      case isFalse => cases h
    case h_2 => cases h

private theorem copyMassive_next {src : Option Nat} {n a : Nat} {H H' : Heap}
    (h : copyMassive src n H = some (a, H')) : H'.next = H.next + (n + 1) := by
  rw [copyMassive] at h
  split at h
  case h_1 => cases h
  case h_2 ps hps =>
    obtain ⟨⟨copies, H''⟩, hcopies, hwritten⟩ := Option.map_eq_some_iff.mp h
    cases hwritten
    have hnext := copyStrings_next hcopies
    have hlength := length_readPointers hps
    have harray : (H.new (.pointers [])).2.next = H.next + 1 := rfl
    show H''.next = H.next + (n + 1)
    omega

private theorem copyingMassives_next {this p q : Parser} {H H' : Heap} (hkeywords : p.keywords ≠ none)
    (h : copyingMassives this p H = some (q, H')) :
    H'.next = H.next + (2 * q.sizeCharPtrPtr + 2) := by
  rw [copyingMassives] at h
  split at h
  case h_1 => cases h
  case h_2 values hvalues =>
    rw [if_neg hkeywords] at h
    obtain ⟨keywords, hcopied, hq⟩ := Option.map_eq_some_iff.mp h
    cases hq
    have hfirst := copyMassive_next hvalues
    have hsecond := copyMassive_next hcopied
    show keywords.2.next = H.next + (2 * this.sizeCharPtrPtr + 2)
    omega

private theorem Represents.length_addrs {H : Heap} {p : Parser} {ks vs : List Text} {addrs : List Nat}
    (h : Represents H p (some (ks, vs)) addrs) : addrs.length = 2 * p.sizeCharPtrPtr + 2 := by
  cases h with
  | @filled k v kqs vqs _ _ hk hv hsize =>
    rw [List.length_append, List.length_cons, List.length_cons, hsize]
    dsimp only
    omega

private theorem Represents.keywords_ne_none {H : Heap} {p : Parser} {ks vs : List Text}
    {addrs : List Nat} (h : Represents H p (some (ks, vs)) addrs) : p.keywords ≠ none := by
  cases h
  exact Option.some_ne_none _

namespace Parsers

variable {ι : Type*} {s t : Parsers ι} {own : ι → List Nat}

/-! ## What belongs to nobody -/

/-- Every live array is one of a parser that is there. -/
def NoLeak (s : Parsers ι) : Prop :=
  ∀ q, s.heap.block q ≠ none → ∃ a p, s.objects a = some p ∧ q ∈ p.arrays s.heap

/-- A parser with arrays for no keys at all. -/
def Uncleared (p : Parser) : Prop := p.values ≠ none ∧ p.sizeCharPtrPtr = 0

/-- What is destroyed, or assigned to, is not a parser with arrays for no keys. -/
def ClearsArrays (s : Parsers ι) : ParserOp ι → Prop
  | .destroy a => ∀ p, s.objects a = some p → ¬Uncleared p
  | .assign a b => a = b ∨ ∀ p, s.objects a = some p → ¬Uncleared p
  | _ => True

def Covered (s : Parsers ι) (own : ι → List Nat) : Prop :=
  ∀ q, s.heap.block q ≠ none → ∃ a, q ∈ own a

private theorem Owned.noLeak_iff (h : s.Owned own) : s.NoLeak ↔ s.Covered own := by
  refine forall_congr' fun q => imp_congr_right fun _ => exists_congr fun a => ?_
  constructor
  · rintro ⟨p, hp, hq⟩
    obtain ⟨c, hc⟩ := h.represents a p hp
    exact hc.arrays ▸ hq
  · intro hq
    cases ha : s.objects a with
    | none => exact absurd (h.absent a ha ▸ hq) List.not_mem_nil
    | some p =>
      obtain ⟨c, hc⟩ := h.represents a p ha
      exact ⟨p, rfl, hc.arrays.symm ▸ hq⟩

theorem covered_init : (init ι).Covered fun _ => [] := fun _ hq => absurd rfl hq

variable [DecidableEq ι] {a b : ι}

theorem Covered.place (h : s.Covered own) (ha : own a = []) {H : Heap} {news : List Nat}
    (halloc : s.heap.Allocates H news) (hnext : H.next = s.heap.next + news.length)
    (p : Option Parser) : (s.set a p H).Covered (Function.update own a news) := by
  intro q hq
  rcases halloc.live_cases hnext hq with hnew | hold
  · exact ⟨a, by rwa [Function.update_self]⟩
  · obtain ⟨b, hb⟩ := h q hold
    have hba : b ≠ a := by
      rintro rfl
      exact absurd (ha ▸ hb) List.not_mem_nil
    exact ⟨b, by rwa [Function.update_of_ne hba]⟩

theorem Covered.remove (h : s.Covered own) {H : Heap} {olds : List Nat}
    (hdeletes : s.heap.Deletes H olds) (holds : olds.Perm (own a)) :
    (s.set a none H).Covered (Function.update own a []) := by
  intro q hq
  have hq' : H.block q ≠ none := hq
  rw [hdeletes.block] at hq'
  have hkept : q ∉ olds := fun hold => hq' (if_pos hold)
  rw [if_neg hkept] at hq'
  obtain ⟨b, hb⟩ := h q hq'
  have hba : b ≠ a := by
    rintro rfl
    exact hkept (holds.mem_iff.mpr hb)
  exact ⟨b, by rwa [Function.update_of_ne hba]⟩

private theorem not_covered_of_lost {H : Heap} {q : Nat} {news : List Nat} (hlive : H.block q ≠ none)
    (hnews : q ∉ news) (hlost : ∀ b, b ≠ a → q ∉ own b) (p : Option Parser) :
    ¬(s.set a p H).Covered (Function.update own a news) := by
  intro hcovered
  obtain ⟨b, hb⟩ := hcovered q hlive
  by_cases hba : b = a
  · rw [hba, Function.update_self] at hb
    exact hnews hb
  · rw [Function.update_of_ne hba] at hb
    exact hlost b hba hb

/-! ## One operation -/

theorem Owned.copies (h : s.Owned own) (a : ι) (this : Parser) {p : Parser}
    (hb : s.objects b = some p) (hvalues : p.values ≠ none)
    (hsize : this.sizeCharPtrPtr = p.sizeCharPtrPtr) :
    ∃ q H news, copyingMassives this p s.heap = some (q, H) ∧ s.heap.Allocates H news ∧
      H.next = s.heap.next + news.length ∧
      (s.set a (some q) H).Owned (Function.update own a news) := by
  obtain ⟨c, hp⟩ := h.represents b p hb
  obtain ⟨ks, vs, rfl⟩ := hp.filled_of_values hvalues
  obtain ⟨q, H, news, hcopy, halloc, hq⟩ := copyingMassives_filled hp hsize
  have hnext := copyingMassives_next hp.keywords_ne_none hcopy
  have hlength := hq.length_addrs
  exact ⟨q, H, news, hcopy, halloc, by omega, h.place a halloc hq⟩

/-- Clearing a parser leaves over either nothing of it or all of it. -/
theorem Owned.clears (h : s.Owned own) {p : Parser} (ha : s.objects a = some p) :
    ∃ H, clearingMassives p s.heap = some H ∧
      (s.set a none H).Owned (Function.update own a []) ∧
      (¬Uncleared p → s.Covered own → (s.set a none H).Covered (Function.update own a [])) ∧
      (Uncleared p → ∃ q, H.block q ≠ none ∧ ∀ b, b ≠ a → q ∉ own b) := by
  obtain ⟨c, hp⟩ := h.represents a p ha
  by_cases hsize : p.sizeCharPtrPtr = 0
  · have hnone : s.heap.Deletes s.heap [] :=
      ⟨rfl, fun q => (if_neg List.not_mem_nil).symm, (List.append_nil _).symm⟩
    refine ⟨s.heap, if_pos hsize, h.remove a hnone (List.nil_subset _) List.nodup_nil, ?_, ?_⟩
    · intro hcleared hcovered
      have hnull := hp.null_of_values (not_not.mp fun hvalues => hcleared ⟨hvalues, hsize⟩)
      have harrays : own a = [] := by
        rw [← hp.arrays, hnull]
        rfl
      exact hcovered.remove hnone (harrays ▸ List.Perm.refl _)
    · rintro ⟨hvalues, -⟩
      obtain ⟨ks, vs, rfl⟩ := hp.filled_of_values hvalues
      have hlength := hp.length_addrs
      obtain ⟨q, hq⟩ := List.exists_mem_of_length_pos (l := own a) (by omega)
      exact ⟨q, h.live hq, fun b hb hq' => h.disjoint b a hb hq' hq⟩
  · obtain ⟨H, olds, hclear, hdeletes, hperm⟩ := clearingMassives_filled hp (h.nodup a) hsize
    have hremoved := h.remove a hdeletes hperm.subset (hperm.nodup_iff.mpr (h.nodup a))
    exact ⟨H, hclear, hremoved, fun _ hcovered => hcovered.remove hdeletes hperm,
      fun huncleared => absurd huncleared.2 hsize⟩

private theorem Owned.step_covered_iff {op : ParserOp ι} (h : s.Owned own) (hcovered : s.Covered own)
    (hstep : s.step op = some t) (hop : s.CopiesArrays op) :
    ∃ own', t.Owned own' ∧ (t.Covered own' ↔ s.ClearsArrays op) := by
  cases op with
  | default a =>
    rw [Parsers.step] at hstep
    split at hstep
    case isFalse => cases hstep
    case isTrue hfree =>
      obtain rfl := Option.some.inj hstep
      have hnew := Blocks.Allocates.refl s.heap
      exact ⟨_, h.place a hnew .null,
        iff_of_true (hcovered.place (h.absent a hfree) hnew rfl _) trivial⟩
  | construct a config =>
    rw [Parsers.step] at hstep
    split at hstep
    case isFalse => cases hstep
    case isTrue hfree =>
      obtain rfl := Option.some.inj hstep
      cases config with
      | none =>
        have hnew := Blocks.Allocates.refl s.heap
        exact ⟨_, h.place a hnew .null,
          iff_of_true (hcovered.place (h.absent a hfree) hnew rfl _) trivial⟩
      | some section_ptree =>
        obtain ⟨addrs, hnew, hparsed⟩ := constructingMassives_spec section_ptree s.heap
        have hnext := constructingMassives_next section_ptree s.heap
        have hlength := hparsed.length_addrs
        have hsize : (constructingMassives section_ptree s.heap).1.sizeCharPtrPtr =
          section_ptree.length := rfl
        exact ⟨_, h.place a hnew hparsed,
          iff_of_true (hcovered.place (h.absent a hfree) hnew (by omega) _) trivial⟩
  | copy a b =>
    obtain ⟨p, hp, hvalues⟩ := hop
    obtain ⟨hfree, -, rhs, hb, rfl⟩ := step_copy_eq hstep
    obtain rfl : p = rhs := Option.some.inj (hp.symm.trans hb)
    obtain ⟨q, H, news, hcopy, hnew, hnext, howned⟩ :=
      h.copies a { Parser.null with sizeCharPtrPtr := p.sizeCharPtrPtr } hb hvalues rfl
    rw [copyParser, hcopy]
    exact ⟨_, howned, iff_of_true (hcovered.place (h.absent a hfree) hnew hnext _) trivial⟩
  | assign a b =>
    obtain ⟨this, rhs, ha, hb, rfl⟩ := step_assign_eq hstep
    by_cases hab : a = b
    · rw [if_pos hab]
      exact ⟨own, h, iff_of_true hcovered (Or.inl hab)⟩
    · obtain ⟨p, hp, hvalues⟩ := hop.resolve_left hab
      obtain rfl : rhs = p := Option.some.inj (hb.symm.trans hp)
      obtain ⟨H, hclear, hremoved, hkept, hlost⟩ := h.clears ha
      have hb' : (s.set a none H).objects b = some rhs := by
        rw [objects_set, if_neg fun hba => hab hba.symm, hb]
      obtain ⟨q, H', news, hcopy, hnew, hnext, howned⟩ :=
        hremoved.copies a { this with sizeCharPtrPtr := rhs.sizeCharPtrPtr } hb' hvalues rfl
      rw [if_neg hab, assignParser, hclear, Option.bind_some]
      have hstore := congrArg (s.store a) hcopy
      have hfree : Function.update own a [] a = [] := Function.update_self ..
      rw [set_set, Function.update_idem] at howned
      refine hstore ▸ ⟨_, howned, ?_⟩
      by_cases huncleared : Uncleared this
      · obtain ⟨lost, hlive, hnobody⟩ := hlost huncleared
        have hlt : lost < H.next := Blocks.lt_next_of_live hlive
        have hold : H'.block lost ≠ none := hnew.old lost hlt ▸ hlive
        have hnews : lost ∉ news := fun hmem =>
          absurd (hnew.range lost hmem).1 (Nat.not_le_of_lt hlt)
        refine iff_of_false (not_covered_of_lost hold hnews hnobody _) fun hclears => ?_
        exact hclears.elim hab fun hall => hall this ha huncleared
      · have hplaced := (hkept huncleared hcovered).place hfree hnew hnext (some q)
        rw [set_set, Function.update_idem] at hplaced
        refine iff_of_true hplaced (Or.inr fun p hp => ?_)
        obtain rfl : this = p := Option.some.inj (ha.symm.trans hp)
        exact huncleared
  | destroy a =>
    rw [Parsers.step] at hstep
    cases ha : s.objects a with
    | none => rw [ha] at hstep; cases hstep
    | some p =>
      obtain ⟨H, hclear, hremoved, hkept, hlost⟩ := h.clears ha
      rw [ha] at hstep
      dsimp only at hstep
      rw [hclear] at hstep
      obtain rfl := Option.some.inj hstep
      refine ⟨_, hremoved, ?_⟩
      by_cases huncleared : Uncleared p
      · obtain ⟨lost, hlive, hnobody⟩ := hlost huncleared
        exact iff_of_false (not_covered_of_lost hlive List.not_mem_nil hnobody _)
          fun hclears => hclears p ha huncleared
      · refine iff_of_true (hkept huncleared hcovered) fun r hr => ?_
        obtain rfl : p = r := Option.some.inj (ha.symm.trans hr)
        exact huncleared

/-- Every copy is sound and every live array belongs to a parser, throughout a run, exactly when
only parsers with arrays are copied and no parser that has arrays for no keys is destroyed or
assigned to. -/
theorem arrays_owned_iff (ops : List (ParserOp ι)) :
    (machine ι).Throughout (fun _ op t => Sound op t ∧ t.NoLeak) (init ι) ops ↔
      (machine ι).Guarded (fun s op => s.CopiesArrays op ∧ s.ClearsArrays op) (init ι) ops := by
  refine Machine.throughout_iff_guarded (I := fun s => ∃ own, s.Owned own ∧ s.Covered own) ?_ ?_
    ⟨_, owned_init, covered_init⟩
  · rintro s op t hstep ⟨hcopies, hclears⟩ ⟨own, h, hcovered⟩
    obtain ⟨own', howned, hiff⟩ := h.step_covered_iff hcovered hstep hcopies
    exact ⟨own', howned, hiff.mpr hclears⟩
  · rintro s op t hstep ⟨own, h, hcovered⟩
    by_cases hcopies : s.CopiesArrays op
    · obtain ⟨own', howned, hiff⟩ := h.step_covered_iff hcovered hstep hcopies
      rw [howned.noLeak_iff, hiff]
      exact ⟨fun hr => ⟨hcopies, hr.2⟩, fun hg => ⟨(h.step hstep hcopies).2, hg.2⟩⟩
    · exact iff_of_false (fun hr => h.not_sound hstep hcopies hr.1) fun hg => hcopies hg.1

end Parsers

end PetProject.IniParser
