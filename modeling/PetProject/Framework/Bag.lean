import Mathlib.Data.Multiset.Filter
import Mathlib.Data.Multiset.Count

/-!
# Bags under insertions and removals

A sequence of insertions, removals of all copies and clearings changes the multiplicity of each
element on its own. From this follows when the order of the changes is immaterial, and that it
is not immaterial as soon as one element is both inserted and removed.
-/

namespace Framework

inductive BagOp (α : Type*)
  | add (a : α)
  | drop (a : α)
  | clear
  deriving DecidableEq

namespace BagOp

variable {α : Type*}

def adds (a : α) : BagOp α → Prop
  | .add b => b = a
  | _ => False

def removes (a : α) : BagOp α → Prop
  | .add _ => False
  | .drop b => b = a
  | .clear => True

theorem not_removes_of_adds {a : α} {o : BagOp α} (h : o.adds a) : ¬ o.removes a := by
  cases o with
  | add b => exact id
  | drop b => exact h.elim
  | clear => exact h.elim

/-- Every element is only inserted or only removed. -/
def Separate (ops : List (BagOp α)) : Prop :=
  ∀ a, (∀ o ∈ ops, ¬ o.adds a) ∨ ∀ o ∈ ops, ¬ o.removes a

variable [DecidableEq α]

def apply : BagOp α → Multiset α → Multiset α
  | .add a, B => a ::ₘ B
  | .drop a, B => B.filter (· ≠ a)
  | .clear, _ => 0

def applyAll (ops : List (BagOp α)) (B : Multiset α) : Multiset α :=
  ops.foldl (fun B o => o.apply B) B

instance (a : α) : (o : BagOp α) → Decidable (o.adds a)
  | .add b => inferInstanceAs (Decidable (b = a))
  | .drop _ => inferInstanceAs (Decidable False)
  | .clear => inferInstanceAs (Decidable False)

instance (a : α) : (o : BagOp α) → Decidable (o.removes a)
  | .add _ => inferInstanceAs (Decidable False)
  | .drop b => inferInstanceAs (Decidable (b = a))
  | .clear => inferInstanceAs (Decidable True)

/-- The effect of a change on the multiplicity of one element. -/
def tally (a : α) (n : Nat) (o : BagOp α) : Nat :=
  if o.removes a then 0 else if o.adds a then n + 1 else n

theorem count_apply (o : BagOp α) (B : Multiset α) (a : α) :
    (o.apply B).count a = tally a (B.count a) o := by
  cases o with
  | add b =>
    by_cases h : b = a
    · subst h; simp [apply, tally, removes, adds]
    · simp [apply, tally, removes, adds, h, Ne.symm h]
  | drop b =>
    by_cases h : b = a
    · subst h; simp [apply, tally, removes]
    · simp [apply, tally, removes, adds, h, Ne.symm h]
  | clear => simp [apply, tally, removes]

theorem applyAll_cons (o : BagOp α) (ops : List (BagOp α)) (B : Multiset α) :
    applyAll (o :: ops) B = applyAll ops (o.apply B) := rfl

theorem applyAll_append (ops ops' : List (BagOp α)) (B : Multiset α) :
    applyAll (ops ++ ops') B = applyAll ops' (applyAll ops B) := List.foldl_append

theorem applyAll_map_add (l : List α) (B : Multiset α) :
    applyAll (l.map .add) B = (l : Multiset α) + B := by
  induction l generalizing B with
  | nil => exact (Multiset.zero_add B).symm
  | cons a l ih =>
    rw [List.map_cons, applyAll_cons, ih, apply, ← Multiset.cons_coe, Multiset.add_cons,
      Multiset.cons_add]

/-- Clearing a bag and filling it again leaves nothing of the old one. -/
theorem applyAll_rebuild (l : List α) (B : Multiset α) :
    applyAll (.clear :: l.map .add) B = l := by
  rw [applyAll_cons, applyAll_map_add, apply, Multiset.add_zero]

theorem count_applyAll (ops : List (BagOp α)) (B : Multiset α) (a : α) :
    (applyAll ops B).count a = ops.foldl (tally a) (B.count a) := by
  induction ops generalizing B with
  | nil => rfl
  | cons o ops ih => rw [applyAll_cons, ih, count_apply, List.foldl_cons]

theorem foldl_tally_of_no_removal {a : α} {ops : List (BagOp α)}
    (h : ∀ o ∈ ops, ¬ o.removes a) (n : Nat) :
    ops.foldl (tally a) n = n + ops.countP (fun o => o.adds a) := by
  induction ops generalizing n with
  | nil => rfl
  | cons o ops ih =>
    obtain ⟨ho, hops⟩ := List.forall_mem_cons.mp h
    rw [List.foldl_cons, ih hops, List.countP_cons]
    by_cases ha : o.adds a
    · simp only [tally, ho, ha, if_true, if_false, decide_true]
      omega
    · simp [tally, ho, ha]

theorem foldl_tally_of_no_add {a : α} {ops : List (BagOp α)} (h : ∀ o ∈ ops, ¬ o.adds a)
    (n : Nat) : ops.foldl (tally a) n = if ∃ o ∈ ops, o.removes a then 0 else n := by
  induction ops generalizing n with
  | nil => simp
  | cons o ops ih =>
    obtain ⟨ho, hops⟩ := List.forall_mem_cons.mp h
    rw [List.foldl_cons, ih hops]
    by_cases hr : o.removes a <;> simp [tally, ho, hr]

/-- The order of the changes is immaterial when no element is both inserted and removed. -/
theorem applyAll_perm {ops ops' : List (BagOp α)} (hsep : Separate ops) (hp : ops.Perm ops')
    (B : Multiset α) : applyAll ops B = applyAll ops' B := by
  refine Multiset.ext.mpr fun a => ?_
  rw [count_applyAll, count_applyAll]
  rcases hsep a with h | h
  · have h' : ∀ o ∈ ops', ¬ o.adds a := fun o ho => h o (hp.mem_iff.mpr ho)
    rw [foldl_tally_of_no_add h, foldl_tally_of_no_add h']
    simp only [hp.mem_iff]
  · have h' : ∀ o ∈ ops', ¬ o.removes a := fun o ho => h o (hp.mem_iff.mpr ho)
    rw [foldl_tally_of_no_removal h, foldl_tally_of_no_removal h', hp.countP_eq]

private theorem exists_last {β : Type*} {p : β → Prop} {l : List β} (h : ∃ x ∈ l, p x) :
    ∃ u x v, l = u ++ x :: v ∧ p x ∧ ∀ y ∈ v, ¬ p y := by
  induction l with
  | nil => simp at h
  | cons c l ih =>
    by_cases hl : ∃ x ∈ l, p x
    · obtain ⟨u, x, v, rfl, hx, hv⟩ := ih hl
      exact ⟨c :: u, x, v, rfl, hx, hv⟩
    · push Not at hl
      obtain ⟨x, hx, hpx⟩ := h
      rcases List.mem_cons.mp hx with rfl | hx
      · exact ⟨[], x, l, rfl, hpx, hl⟩
      · exact absurd hpx (hl x hx)

/-- When an element is both inserted and removed, some suffix gives another bag if it is
carried out in reverse. -/
theorem exists_reversed_suffix_ne {ops : List (BagOp α)} {a : α}
    (hadd : ∃ o ∈ ops, o.adds a) (hrem : ∃ o ∈ ops, o.removes a) (B : Multiset α) :
    ∃ pre suf, ops = pre ++ suf ∧ applyAll (pre ++ suf.reverse) B ≠ applyAll ops B := by
  obtain ⟨u, x, v, hops, hx, hv⟩ := exists_last hadd
  have hafter : (applyAll ops B).count a =
      if ∃ o ∈ v, o.removes a then 0 else (applyAll u B).count a + 1 := by
    rw [hops, applyAll_append, applyAll_cons, count_applyAll, foldl_tally_of_no_add hv,
      count_apply]
    simp [tally, hx, not_removes_of_adds hx]
  by_cases hvr : ∃ o ∈ v, o.removes a
  · -- the reversed suffix ends with the last insertion
    refine ⟨u, x :: v, hops, fun heq => ?_⟩
    have hcount := congrArg (Multiset.count a) heq
    rw [hafter, if_pos hvr, List.reverse_cons, ← List.append_assoc, applyAll_append,
      applyAll_cons, applyAll, List.foldl_nil, count_apply] at hcount
    simp [tally, hx, not_removes_of_adds hx] at hcount
  · -- the reversed suffix ends with the last removal
    obtain ⟨u', y, v', hops', hy, -⟩ := exists_last hrem
    refine ⟨u', y :: v', hops', fun heq => ?_⟩
    have hcount := congrArg (Multiset.count a) heq
    rw [hafter, if_neg hvr, List.reverse_cons, ← List.append_assoc, applyAll_append,
      applyAll_cons, applyAll, List.foldl_nil, count_apply] at hcount
    simp [tally, hy] at hcount

end BagOp

end Framework
