import Mathlib.Data.Option.Basic
import Mathlib.Order.Lattice

/-!
# Calls that may throw

The outcome of a call, an iteration that may end with an exception, and `std::max_element` with a
comparison that may throw.
-/

namespace Framework

inductive Outcome (α : Type*)
  | returns (a : α)
  | throws
  | undefined

def Outcome.map {α β : Type*} (f : α → β) : Outcome α → Outcome β
  | .returns a => .returns (f a)
  | .throws => .throws
  | .undefined => .undefined

def Outcome.result {α : Type*} : Outcome α → Option α
  | .returns a => some a
  | .throws | .undefined => none

/-- What an iteration yields, and whether it comes to its end; it throws behind the last entry if
it does not. -/
structure Iteration (α : Type*) where
  entries : List α
  complete : Bool

def Iteration.failed {α : Type*} : Iteration α := ⟨[], false⟩

section MaxElement

variable {α β : Type*}

/-- The loop of `max_element`; `none` when the comparison throws. -/
def maxFrom (less : α → α → Option Bool) (largest : α) : List α → Option α
  | [] => some largest
  | a :: as => (less largest a).bind fun l => maxFrom less (if l then a else largest) as

/-- `std::max_element`; the end of an empty range is `some none`. -/
def maxElement (less : α → α → Option Bool) : List α → Option (Option α)
  | [] => some none
  | a :: as => (maxFrom less a as).map some

variable [LinearOrder β] {key : α → Option β} {a m : α} {as : List α}

/-- A comparison by a key that may throw when it is read. -/
def lessBy (key : α → Option β) (a b : α) : Option Bool :=
  (key a).bind fun x => (key b).map fun y => decide (x < y)

/-- The element alone, or one of the elements with the greatest key. -/
def GreatestBy (key : α → Option β) (as : List α) (m : α) : Prop :=
  as = [m] ∨ m ∈ as ∧ ∃ x, key m = some x ∧ ∀ a ∈ as, ∃ y, key a = some y ∧ y ≤ x

theorem maxFrom_isSome_iff :
    (maxFrom (lessBy key) a as).isSome ↔ as = [] ∨ ∀ b ∈ a :: as, (key b).isSome := by
  induction as generalizing a with
  | nil => exact iff_of_true rfl (Or.inl rfl)
  | cons b as ih =>
    rw [maxFrom, lessBy]
    cases ha : key a with
    | none => simp [ha]
    | some x =>
      cases hb : key b with
      | none => simp [hb]
      | some y =>
        have hlargest : (key (if decide (x < y) then b else a)).isSome := by
          split
          · simp [hb]
          · simp [ha]
        simp only [Option.bind_some, Option.map_some, ih, List.forall_mem_cons, hlargest, ha, hb,
          Option.isSome_some, true_and, reduceCtorEq, false_or]
        refine ⟨fun h => ?_, Or.inr⟩
        rcases h with rfl | h
        · exact fun c hc => absurd hc List.not_mem_nil
        · exact h

theorem maxFrom_spec {x : β} (ha : key a = some x) (h : maxFrom (lessBy key) a as = some m) :
    m ∈ a :: as ∧ ∃ z, key m = some z ∧ x ≤ z ∧ ∀ b ∈ as, ∃ y, key b = some y ∧ y ≤ z := by
  induction as generalizing a x with
  | nil =>
    obtain rfl := Option.some.inj h
    exact ⟨List.mem_cons_self, x, ha, le_rfl, fun b hb => absurd hb List.not_mem_nil⟩
  | cons b as ih =>
    rw [maxFrom, lessBy, ha, Option.bind_some] at h
    cases hb : key b with
    | none =>
      rw [hb] at h
      exact nomatch h
    | some y =>
      rw [hb, Option.map_some, Option.bind_some] at h
      by_cases hxy : x < y
      · rw [if_pos (decide_eq_true hxy)] at h
        obtain ⟨hmem, z, hz, hyz, hrest⟩ := ih hb h
        refine ⟨List.mem_cons_of_mem a hmem, z, hz, hxy.le.trans hyz, ?_⟩
        exact List.forall_mem_cons.mpr ⟨⟨y, hb, hyz⟩, hrest⟩
      · rw [if_neg (by simpa using hxy)] at h
        obtain ⟨hmem, z, hz, hxz, hrest⟩ := ih ha h
        refine ⟨?_, z, hz, hxz, ?_⟩
        · rcases List.mem_cons.mp hmem with rfl | hmem
          · exact List.mem_cons_self
          · exact List.mem_cons_of_mem a (List.mem_cons_of_mem b hmem)
        · exact List.forall_mem_cons.mpr ⟨⟨y, hb, (not_lt.mp hxy).trans hxz⟩, hrest⟩

theorem maxElement_isSome_iff :
    (maxElement (lessBy key) as).isSome ↔ (2 ≤ as.length → ∀ a ∈ as, (key a).isSome) := by
  cases as with
  | nil => exact iff_of_true rfl fun h => absurd h (by simp)
  | cons a as =>
    rw [maxElement, Option.isSome_map, maxFrom_isSome_iff]
    cases as with
    | nil => exact iff_of_true (Or.inl rfl) fun h => absurd h (by simp)
    | cons b as => simp

theorem maxElement_eq_end_iff {less : α → α → Option Bool} :
    maxElement less as = some none ↔ as = [] := by
  cases as with
  | nil => exact iff_of_true rfl rfl
  | cons a as => simp [maxElement]

theorem maxElement_greatest (h : maxElement (lessBy key) as = some (some m)) :
    GreatestBy key as m := by
  cases as with
  | nil => exact nomatch h
  | cons a as =>
    obtain ⟨m', hm', heq⟩ := Option.map_eq_some_iff.mp h
    obtain rfl := Option.some.inj heq
    cases as with
    | nil =>
      obtain rfl := Option.some.inj hm'
      exact Or.inl rfl
    | cons b as =>
      have hkeys := (maxFrom_isSome_iff.mp (Option.isSome_of_eq_some hm')).resolve_left (by simp)
      obtain ⟨x, hx⟩ := Option.isSome_iff_exists.mp (hkeys a List.mem_cons_self)
      obtain ⟨hmem, z, hz, hxz, hrest⟩ := maxFrom_spec hx hm'
      exact Or.inr ⟨hmem, z, hz, List.forall_mem_cons.mpr ⟨⟨x, hx, hxz⟩, hrest⟩⟩

end MaxElement

end Framework
