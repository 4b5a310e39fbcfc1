import Mathlib.Data.Option.Basic

/-!
# Unbounded loops

A loop is given by its body, which leaves with a result or goes on in another state. It is run
with a bound on the number of its passes, and it ends when some bound is large enough. The rules
below decide from a single pass whether a loop ends, and with what.
-/

namespace Framework

structure Loop (σ ρ : Type*) where
  body : σ → ρ ⊕ σ

namespace Loop

variable {σ ρ : Type*} (L : Loop σ ρ)

/-- The result within so many passes. -/
def within : Nat → σ → Option ρ
  | 0, _ => none
  | n + 1, s =>
    match L.body s with
    | .inl r => some r
    | .inr t => within n t

def Ends (s : σ) (r : ρ) : Prop := ∃ n, L.within n s = some r

variable {L}

theorem ends_of_leave {s : σ} {r : ρ} (h : L.body s = .inl r) : L.Ends s r :=
  ⟨1, by rw [within, h]⟩

theorem ends_iff_of_pass {s t : σ} {r : ρ} (h : L.body s = .inr t) : L.Ends s r ↔ L.Ends t r := by
  constructor
  · rintro ⟨n, hn⟩
    cases n with
    | zero => exact nomatch hn
    | succ n =>
      rw [within, h] at hn
      exact ⟨n, hn⟩
  · rintro ⟨n, hn⟩
    refine ⟨n + 1, ?_⟩
    rw [within, h]
    exact hn

/-- A loop in which every pass goes on, and keeps a property that lets it go on, never ends. -/
theorem not_ends_of_invariant {I : σ → Prop} (hI : ∀ s, I s → ∃ t, L.body s = .inr t ∧ I t) {s : σ}
    (hs : I s) (r : ρ) : ¬L.Ends s r := by
  rintro ⟨n, hn⟩
  induction n generalizing s with
  | zero => exact nomatch hn
  | succ n ih =>
    obtain ⟨t, ht, hIt⟩ := hI s hs
    rw [within, ht] at hn
    exact ih hIt hn

/-- A loop ends when every pass that goes on lowers a number and keeps the property. -/
theorem ends_of_variant {I : σ → Prop} (m : σ → Nat)
    (hI : ∀ s, I s → (∃ r, L.body s = .inl r) ∨ ∃ t, L.body s = .inr t ∧ I t ∧ m t < m s) {s : σ}
    (hs : I s) : ∃ r, L.Ends s r := by
  induction hm : m s using Nat.strongRecOn generalizing s with
  | ind k ih =>
    rcases hI s hs with ⟨r, hr⟩ | ⟨t, ht, hIt, hlt⟩
    · exact ⟨r, ends_of_leave hr⟩
    · obtain ⟨r, hr⟩ := ih (m t) (hm ▸ hlt) hIt rfl
      exact ⟨r, (ends_iff_of_pass ht).mpr hr⟩

theorem Ends.result {P : ρ → Prop} (hP : ∀ s r, L.body s = .inl r → P r) {s : σ} {r : ρ}
    (h : L.Ends s r) : P r := by
  obtain ⟨n, hn⟩ := h
  induction n generalizing s with
  | zero => exact nomatch hn
  | succ n ih =>
    rw [within] at hn
    split at hn
    case h_1 r' hr' => exact Option.some.inj hn ▸ hP s r' hr'
    case h_2 t _ => exact ih hn

end Loop

end Framework
