import Mathlib.Algebra.BigOperators.Group.Finset.Basic
import Mathlib.Data.List.Basic
import Mathlib.Data.List.Nodup
import Mathlib.Logic.Function.Basic
import PetProject.Framework.Machine

/-!
# Custody of tokens

A pool of tokens and holders that take a token from it, give it back, or lose it. Tokens stay
in one place each whatever the holders do; all of them stay accounted for exactly as long as
none is lost. A mutex is a single token, known by its owner; and where the holders are finitely
many, what they hold together can be summed up.
-/

namespace Framework

open scoped BigOperators

/-- The tokens in the pool, and the token of each holder. -/
structure Custody (τ ι : Type*) where
  pool : List τ
  held : ι → Option τ

namespace Custody

variable {τ ι : Type*} [DecidableEq ι]

inductive Move (ι : Type*)
  | take (i : ι)
  | give (i : ι)
  | lose (i : ι)

def step (C : Custody τ ι) : Move ι → Option (Custody τ ι)
  | .take i =>
    match C.held i, C.pool with
    | none, c :: cs => some ⟨cs, Function.update C.held i (some c)⟩
    | _, _ => none
  | .give i => (C.held i).map fun c => ⟨c :: C.pool, Function.update C.held i none⟩
  | .lose i => (C.held i).map fun _ => ⟨C.pool, Function.update C.held i none⟩

def machine (τ ι : Type*) [DecidableEq ι] : Machine (Custody τ ι) (Move ι) := ⟨step⟩

theorem run_take {C : Custody τ ι} {i : ι} {c : τ} {cs : List τ} (hfree : C.held i = none)
    (hpool : C.pool = c :: cs) :
    (machine τ ι).run C [.take i] = some ⟨cs, Function.update C.held i (some c)⟩ := by
  simp [Machine.run_cons, machine, step, hfree, hpool]

theorem run_give {C : Custody τ ι} {i : ι} {c : τ} (hi : C.held i = some c) :
    (machine τ ι).run C [.give i] = some ⟨c :: C.pool, Function.update C.held i none⟩ := by
  simp [Machine.run_cons, machine, step, hi]

theorem run_lose {C : Custody τ ι} {i : ι} {c : τ} (hi : C.held i = some c) :
    (machine τ ι).run C [.lose i] = some ⟨C.pool, Function.update C.held i none⟩ := by
  simp [Machine.run_cons, machine, step, hi]

theorem step_cases {C C' : Custody τ ι} {m : Move ι} (h : C.step m = some C') :
    (∃ i c, m = .take i ∧ C.held i = none ∧ C.pool = c :: C'.pool ∧
      C'.held = Function.update C.held i (some c)) ∨
    (∃ i c, m = .give i ∧ C.held i = some c ∧ C'.pool = c :: C.pool ∧
      C'.held = Function.update C.held i none) ∨
    ∃ i c, m = .lose i ∧ C.held i = some c ∧ C'.pool = C.pool ∧
      C'.held = Function.update C.held i none := by
  cases m with
  | take i =>
    left
    cases hh : C.held i with
    | some c => simp [step, hh] at h
    | none =>
      cases hp : C.pool with
      | nil => simp [step, hh, hp] at h
      | cons c cs =>
        obtain rfl : _ = C' := by simpa [step, hh, hp] using h
        exact ⟨i, c, rfl, hh, rfl, rfl⟩
  | give i =>
    obtain ⟨c, hc, rfl⟩ := Option.map_eq_some_iff.mp h
    exact Or.inr (Or.inl ⟨i, c, rfl, hc, rfl, rfl⟩)
  | lose i =>
    obtain ⟨c, hc, rfl⟩ := Option.map_eq_some_iff.mp h
    exact Or.inr (Or.inr ⟨i, c, rfl, hc, rfl, rfl⟩)

/-- No token is in two places. -/
structure Exclusive (C : Custody τ ι) : Prop where
  nodup : C.pool.Nodup
  apart : ∀ i c, C.held i = some c → c ∉ C.pool
  unique : ∀ i j c, C.held i = some c → C.held j = some c → i = j

/-- Every token of the list is in the pool or has a holder. -/
def Accounted (T : List τ) (C : Custody τ ι) : Prop :=
  ∀ c ∈ T, c ∈ C.pool ∨ ∃ i, C.held i = some c

def Known (T : List τ) (C : Custody τ ι) : Prop :=
  (∀ c ∈ C.pool, c ∈ T) ∧ ∀ i c, C.held i = some c → c ∈ T

private theorem held_of_update_none {f : ι → Option τ} {i j : ι} {c : τ}
    (h : Function.update f i none j = some c) : j ≠ i ∧ f j = some c := by
  by_cases hj : j = i
  · subst hj; simp at h
  · exact ⟨hj, by rwa [Function.update_of_ne hj] at h⟩

private theorem held_of_update_some {f : ι → Option τ} {i j : ι} {c d : τ}
    (h : Function.update f i (some d) j = some c) : (j = i ∧ c = d) ∨ j ≠ i ∧ f j = some c := by
  by_cases hj : j = i
  · subst hj
    exact Or.inl ⟨rfl, by simpa [eq_comm] using h⟩
  · exact Or.inr ⟨hj, by rwa [Function.update_of_ne hj] at h⟩

theorem Exclusive.unique_release {C C' : Custody τ ι} {i : ι} (hC : C.Exclusive)
    (hheld : C'.held = Function.update C.held i none) (j k : ι) (d : τ) (hj : C'.held j = some d)
    (hk : C'.held k = some d) : j = k := by
  rw [hheld] at hj hk
  exact hC.unique j k d (held_of_update_none hj).2 (held_of_update_none hk).2

theorem exclusive_step {C C' : Custody τ ι} {m : Move ι} (h : C.step m = some C')
    (hC : C.Exclusive) : C'.Exclusive := by
  obtain ⟨i, c, -, -, hpool, hheld⟩ | ⟨i, c, -, hi, hpool, hheld⟩ |
    ⟨i, c, -, -, hpool, hheld⟩ := step_cases h
  · have hnodup := hpool ▸ hC.nodup
    obtain ⟨hc, hrest⟩ := List.nodup_cons.mp hnodup
    have hfree : ∀ j, C.held j ≠ some c := by
      intro j hj
      exact hC.apart j c hj (hpool ▸ List.mem_cons_self)
    refine ⟨hrest, ?_, ?_⟩
    · intro j d hj
      rw [hheld] at hj
      obtain ⟨-, rfl⟩ | ⟨-, hj⟩ := held_of_update_some hj
      · exact hc
      · intro hd
        exact hC.apart j d hj (hpool ▸ List.mem_cons_of_mem c hd)
    · intro j k d hj hk
      rw [hheld] at hj hk
      rcases held_of_update_some hj with ⟨hji, hdc⟩ | ⟨-, hj'⟩ <;>
        rcases held_of_update_some hk with ⟨hki, hdc'⟩ | ⟨-, hk'⟩
      · exact hji.trans hki.symm
      · exact absurd (hdc ▸ hk') (hfree k)
      · exact absurd (hdc' ▸ hj') (hfree j)
      · exact hC.unique j k d hj' hk'
  · refine ⟨?_, ?_, hC.unique_release hheld⟩
    · rw [hpool]
      exact List.nodup_cons.mpr ⟨hC.apart i c hi, hC.nodup⟩
    · intro j d hj
      rw [hheld] at hj
      obtain ⟨hne, hj⟩ := held_of_update_none hj
      rw [hpool, List.mem_cons, not_or]
      refine ⟨?_, hC.apart j d hj⟩
      rintro rfl
      exact hne (hC.unique j i d hj hi)
  · refine ⟨hpool ▸ hC.nodup, ?_, hC.unique_release hheld⟩
    intro j d hj
    rw [hheld] at hj
    rw [hpool]
    exact hC.apart j d (held_of_update_none hj).2

theorem known_step {T : List τ} {C C' : Custody τ ι} {m : Move ι} (h : C.step m = some C')
    (hC : C.Known T) : C'.Known T := by
  obtain ⟨i, c, -, -, hpool, hheld⟩ | ⟨i, c, -, hi, hpool, hheld⟩ |
    ⟨i, c, -, -, hpool, hheld⟩ := step_cases h
  · refine ⟨fun d hd => hC.1 d (hpool ▸ List.mem_cons_of_mem c hd), ?_⟩
    intro j d hj
    rw [hheld] at hj
    obtain ⟨-, rfl⟩ | ⟨-, hj⟩ := held_of_update_some hj
    · exact hC.1 d (hpool ▸ List.mem_cons_self)
    · exact hC.2 j d hj
  · refine ⟨?_, ?_⟩
    · rw [hpool]
      exact List.forall_mem_cons.mpr ⟨hC.2 i c hi, hC.1⟩
    · intro j d hj
      rw [hheld] at hj
      exact hC.2 j d (held_of_update_none hj).2
  · refine ⟨hpool ▸ hC.1, ?_⟩
    intro j d hj
    rw [hheld] at hj
    exact hC.2 j d (held_of_update_none hj).2

theorem accounted_of_step {T : List τ} {C C' : Custody τ ι} {m : Move ι} (h : C.step m = some C')
    (hacc : C'.Accounted T) : C.Accounted T := by
  obtain ⟨i, c, -, -, hpool, hheld⟩ | ⟨i, c, -, hi, hpool, hheld⟩ |
    ⟨i, c, -, -, hpool, hheld⟩ := step_cases h
  · intro d hd
    rcases hacc d hd with hd | ⟨j, hj⟩
    · exact Or.inl (hpool ▸ List.mem_cons_of_mem c hd)
    · rw [hheld] at hj
      obtain ⟨-, rfl⟩ | ⟨-, hj⟩ := held_of_update_some hj
      · exact Or.inl (hpool ▸ List.mem_cons_self)
      · exact Or.inr ⟨j, hj⟩
  · intro d hd
    rcases hacc d hd with hd | ⟨j, hj⟩
    · rw [hpool] at hd
      rcases List.mem_cons.mp hd with rfl | hd
      · exact Or.inr ⟨i, hi⟩
      · exact Or.inl hd
    · rw [hheld] at hj
      exact Or.inr ⟨j, (held_of_update_none hj).2⟩
  · intro d hd
    rcases hacc d hd with hd | ⟨j, hj⟩
    · exact Or.inl (hpool ▸ hd)
    · rw [hheld] at hj
      exact Or.inr ⟨j, (held_of_update_none hj).2⟩

/-- A move keeps every token accounted for exactly when it loses none. -/
theorem accounted_step_iff {T : List τ} {C C' : Custody τ ι} {m : Move ι}
    (h : C.step m = some C') (hex : C.Exclusive) (hknown : C.Known T) (hacc : C.Accounted T) :
    C'.Accounted T ↔ ∀ i, m ≠ .lose i := by
  obtain ⟨i, c, rfl, hi, hpool, hheld⟩ | ⟨i, c, rfl, hi, hpool, hheld⟩ |
    ⟨i, c, rfl, hi, hpool, hheld⟩ := step_cases h
  · refine ⟨fun _ j hj => (nomatch hj), fun _ d hd => ?_⟩
    rcases hacc d hd with hd | ⟨j, hj⟩
    · rw [hpool] at hd
      rcases List.mem_cons.mp hd with rfl | hd
      · exact Or.inr ⟨i, by rw [hheld, Function.update_self]⟩
      · exact Or.inl hd
    · refine Or.inr ⟨j, ?_⟩
      rw [hheld, Function.update_of_ne (by rintro rfl; simp [hi] at hj), hj]
  · refine ⟨fun _ j hj => (nomatch hj), fun _ d hd => ?_⟩
    rw [hpool]
    rcases hacc d hd with hd | ⟨j, hj⟩
    · exact Or.inl (List.mem_cons_of_mem c hd)
    · by_cases hji : j = i
      · subst hji
        obtain rfl : c = d := by simpa [hi] using hj
        exact Or.inl List.mem_cons_self
      · exact Or.inr ⟨j, by rw [hheld, Function.update_of_ne hji, hj]⟩
  · refine ⟨fun hlost => ?_, fun hne => absurd rfl (hne i)⟩
    rcases hlost c (hknown.2 i c hi) with hc | ⟨j, hj⟩
    · exact absurd (hpool ▸ hc) (hex.apart i c hi)
    · rw [hheld] at hj
      obtain ⟨hne, hj⟩ := held_of_update_none hj
      exact absurd (hex.unique j i c hj hi) hne

end Custody

/-! ## Mutual exclusion -/

/-- Whoever is inside its critical section owns the mutex. -/
def Owned {χ : Type*} (owner : Option χ) (inside : χ → Prop) : Prop :=
  ∀ x, inside x → owner = some x

namespace Owned

variable {χ : Type*} {owner : Option χ} {inside inside' : χ → Prop}

theorem unique (h : Owned owner inside) {x y : χ} (hx : inside x) (hy : inside y) : x = y :=
  Option.some.inj ((h x hx).symm.trans (h y hy))

theorem acquire (h : Owned none inside) {x : χ} (hothers : ∀ y, y ≠ x → inside' y → inside y) :
    Owned (some x) inside' := by
  intro y hy
  by_cases hyx : y = x
  · rw [hyx]
  · have hfree : none = some y := h y (hothers y hyx hy)
    cases hfree

theorem release (h : Owned owner inside) {x : χ} (hx : inside x) (hout : ¬inside' x)
    (hothers : ∀ y, y ≠ x → inside' y → inside y) : Owned none inside' := by
  intro y hy
  have hyx : y ≠ x := fun hyx => hout (hyx ▸ hy)
  exact absurd (h.unique (hothers y hyx hy) hx) hyx

theorem keep (h : Owned owner inside) (hinside : ∀ y, inside' y → inside y) :
    Owned owner inside' := fun y hy => h y (hinside y hy)

end Owned

/-! ## Sums over the holders -/

theorem sum_update_add {ι σ M : Type*} [Fintype ι] [DecidableEq ι] [AddCommMonoid M]
    (held : σ → M) (state : ι → σ) (i : ι) (u : σ) :
    ∑ j, held (Function.update state i u j) + held (state i) =
      ∑ j, held (state j) + held u := by
  have hothers : ∑ j ∈ Finset.univ.erase i, held (Function.update state i u j) =
      ∑ j ∈ Finset.univ.erase i, held (state j) := by
    apply Finset.sum_congr rfl
    intro j hj
    rw [Function.update_of_ne (Finset.ne_of_mem_erase hj)]
  calc ∑ j, held (Function.update state i u j) + held (state i)
      = held u + ∑ j ∈ Finset.univ.erase i, held (state j) + held (state i) := by
        rw [← Finset.add_sum_erase _ _ (Finset.mem_univ i), hothers, Function.update_self]
    _ = held (state i) + ∑ j ∈ Finset.univ.erase i, held (state j) + held u := by ac_rfl
    _ = ∑ j, held (state j) + held u := by
        rw [Finset.add_sum_erase _ (fun j => held (state j)) (Finset.mem_univ i)]

end Framework
