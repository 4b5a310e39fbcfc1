import Mathlib.Data.List.Basic
import Mathlib.Data.Option.Basic

/-!
# Labelled machines

A machine is a partial step function: the label of a step resolves every choice of the
scheduler and of the environment, so that a run is a list of labels and can be evaluated.
The rules below turn what one step preserves into what a run preserves.
-/

namespace Framework

/-- A labelled machine; `none` means that the labelled step is not enabled. -/
structure Machine (σ α : Type*) where
  step : σ → α → Option σ

namespace Machine

variable {σ α : Type*} (M : Machine σ α)

/-- The state after the labels of a list, when every step is enabled. -/
def run (s : σ) : List α → Option σ
  | [] => some s
  | a :: as => (M.step s a).bind fun t => run t as

@[simp] theorem run_nil (s : σ) : M.run s [] = some s := rfl

theorem run_cons (s : σ) (a : α) (as : List α) :
    M.run s (a :: as) = (M.step s a).bind fun t => M.run t as := rfl

theorem run_cons_eq_some {s u : σ} {a : α} {as : List α} :
    M.run s (a :: as) = some u ↔ ∃ t, M.step s a = some t ∧ M.run t as = some u := by
  rw [run_cons, Option.bind_eq_some_iff]

theorem run_append (s : σ) (as bs : List α) :
    M.run s (as ++ bs) = (M.run s as).bind fun t => M.run t bs := by
  induction as generalizing s with
  | nil => rfl
  | cons a as ih =>
    rw [List.cons_append, run_cons, run_cons, Option.bind_assoc]
    congr 1
    funext t
    exact ih t

theorem run_append_eq_some {s u : σ} {as bs : List α} :
    M.run s (as ++ bs) = some u ↔ ∃ t, M.run s as = some t ∧ M.run t bs = some u := by
  rw [run_append, Option.bind_eq_some_iff]

/-- Some run leads from the first state to the second. -/
def Reaches (s t : σ) : Prop := ∃ as, M.run s as = some t

theorem Reaches.refl (s : σ) : M.Reaches s s := ⟨[], rfl⟩

variable {M}

theorem Reaches.single {s t : σ} {a : α} (h : M.step s a = some t) : M.Reaches s t :=
  ⟨[a], by rw [run_cons, h]; rfl⟩

theorem Reaches.trans {s t u : σ} (h : M.Reaches s t) (h' : M.Reaches t u) : M.Reaches s u := by
  obtain ⟨as, ha⟩ := h
  obtain ⟨bs, hb⟩ := h'
  exact ⟨as ++ bs, by rw [run_append, ha]; exact hb⟩

theorem run_invariant_of_labels {P : σ → Prop} {L : α → Prop}
    (hstep : ∀ s a t, M.step s a = some t → L a → P s → P t)
    {s t : σ} {as : List α} (hL : ∀ a ∈ as, L a) (hrun : M.run s as = some t) (hs : P s) : P t := by
  induction as generalizing s with
  | nil => exact Option.some.inj hrun ▸ hs
  | cons a as ih =>
    obtain ⟨ha, hLas⟩ := List.forall_mem_cons.mp hL
    obtain ⟨u, hu, hrest⟩ := M.run_cons_eq_some.mp hrun
    exact ih hLas hrest (hstep s a u hu ha hs)

theorem run_invariant {P : σ → Prop}
    (hstep : ∀ s a t, M.step s a = some t → P s → P t)
    {s t : σ} {as : List α} (hrun : M.run s as = some t) (hs : P s) : P t :=
  run_invariant_of_labels (L := fun _ => True) (fun s a t h _ => hstep s a t h)
    (fun _ _ => trivial) hrun hs

theorem run_appends {γ : Type*} {I : σ → Prop} {f : σ → List γ} {g : α → List γ}
    (hI : ∀ s a t, M.step s a = some t → I s → I t)
    (hstep : ∀ s a t, M.step s a = some t → I s → f t = f s ++ g a)
    {s t : σ} {as : List α} (hrun : M.run s as = some t) (hs : I s) :
    f t = f s ++ as.flatMap g := by
  induction as generalizing s with
  | nil =>
    obtain rfl := Option.some.inj hrun
    exact (List.append_nil _).symm
  | cons a as ih =>
    obtain ⟨u, hu, hrest⟩ := M.run_cons_eq_some.mp hrun
    rw [ih hrest (hI s a u hu hs), hstep s a u hu hs, List.flatMap_cons, List.append_assoc]

theorem Reaches.invariant {P : σ → Prop}
    (hstep : ∀ s a t, M.step s a = some t → P s → P t)
    {s t : σ} (h : M.Reaches s t) (hs : P s) : P t := by
  obtain ⟨as, hrun⟩ := h
  exact run_invariant hstep hrun hs

variable (M)

/-- Every enabled step of the run meets the guard in the state in which it is taken. -/
def Guarded (G : σ → α → Prop) (s : σ) : List α → Prop
  | [] => True
  | a :: as => ∀ t, M.step s a = some t → G s a ∧ Guarded G t as

/-- The property holds in the first state and after every enabled prefix of the run. -/
def Always (P : σ → Prop) (s : σ) : List α → Prop
  | [] => P s
  | a :: as => P s ∧ ∀ t, M.step s a = some t → Always P t as

/-- The relation holds across every enabled step of the run. -/
def Throughout (R : σ → α → σ → Prop) (s : σ) : List α → Prop
  | [] => True
  | a :: as => ∀ t, M.step s a = some t → R s a t ∧ Throughout R t as

instance Guarded.decidable (G : σ → α → Prop) [∀ s a, Decidable (G s a)] :
    ∀ (s : σ) (as : List α), Decidable (M.Guarded G s as)
  | _, [] => isTrue trivial
  | s, a :: as =>
    match h : M.step s a with
    | none => isTrue fun _ ht => nomatch h.symm.trans ht
    | some t =>
      have := Guarded.decidable G t as
      decidable_of_iff (G s a ∧ M.Guarded G t as)
        ⟨fun hG _ ht => Option.some.inj (h.symm.trans ht) ▸ hG, fun hG => hG t h⟩

variable {M}

theorem Always.head {P : σ → Prop} {s : σ} {as : List α} (h : M.Always P s as) : P s := by
  cases as with
  | nil => exact h
  | cons a as => exact h.1

theorem Always.last {P : σ → Prop} {s t : σ} {as : List α} (h : M.Always P s as)
    (hrun : M.run s as = some t) : P t := by
  induction as generalizing s with
  | nil => exact Option.some.inj hrun ▸ h
  | cons a as ih =>
    obtain ⟨u, hu, hrest⟩ := M.run_cons_eq_some.mp hrun
    exact ih (h.2 u hu) hrest

theorem Always.mono {P Q : σ → Prop} (hPQ : ∀ s, P s → Q s) {s : σ} {as : List α}
    (h : M.Always P s as) : M.Always Q s as := by
  induction as generalizing s with
  | nil => exact hPQ s h
  | cons a as ih => exact ⟨hPQ s h.1, fun t ht => ih (h.2 t ht)⟩

theorem Always.and {P Q : σ → Prop} {s : σ} {as : List α} (h : M.Always P s as)
    (h' : M.Always Q s as) : M.Always (fun s => P s ∧ Q s) s as := by
  induction as generalizing s with
  | nil => exact ⟨h, h'⟩
  | cons a as ih => exact ⟨⟨h.1, h'.1⟩, fun t ht => ih (h.2 t ht) (h'.2 t ht)⟩

theorem always_of_labels {P : σ → Prop} {L : α → Prop}
    (hstep : ∀ s a t, M.step s a = some t → L a → P s → P t)
    {s : σ} {as : List α} (hL : ∀ a ∈ as, L a) (hs : P s) : M.Always P s as := by
  induction as generalizing s with
  | nil => exact hs
  | cons a as ih =>
    obtain ⟨ha, hLas⟩ := List.forall_mem_cons.mp hL
    exact ⟨hs, fun t ht => ih hLas (hstep s a t ht ha hs)⟩

theorem always_of_step {P : σ → Prop} (hstep : ∀ s a t, M.step s a = some t → P s → P t)
    {s : σ} (hs : P s) (as : List α) : M.Always P s as :=
  always_of_labels (L := fun _ => True) (fun s a t h _ => hstep s a t h) (fun _ _ => trivial) hs

theorem Guarded.always {G : σ → α → Prop} {P : σ → Prop}
    (hstep : ∀ s a t, M.step s a = some t → G s a → P s → P t)
    {s : σ} {as : List α} (hG : M.Guarded G s as) (hs : P s) : M.Always P s as := by
  induction as generalizing s with
  | nil => exact hs
  | cons a as ih =>
    refine ⟨hs, fun t ht => ?_⟩
    obtain ⟨hg, hrest⟩ := hG t ht
    exact ih hrest (hstep s a t ht hg hs)

/-- A guard whose steps keep an invariant can be exchanged for one that it entails under the
invariant. -/
theorem Guarded.exchange {G H : σ → α → Prop} {P : σ → Prop}
    (hstep : ∀ s a t, M.step s a = some t → G s a → P s → P t)
    (hGH : ∀ s a t, M.step s a = some t → G s a → P s → H s a)
    {s : σ} {as : List α} (hG : M.Guarded G s as) (hs : P s) : M.Guarded H s as := by
  induction as generalizing s with
  | nil => trivial
  | cons a as ih =>
    intro t ht
    obtain ⟨hg, hrest⟩ := hG t ht
    exact ⟨hGH s a t ht hg hs, ih hrest (hstep s a t ht hg hs)⟩

/-- When, under an invariant, a step keeps the property exactly if it meets the guard, a run
keeps the property throughout exactly if all of its steps meet the guard. The labels may be
restricted to a kind that preserves the invariant. -/
theorem always_iff_guarded {G : σ → α → Prop} {I P : σ → Prop} {L : α → Prop}
    (hI : ∀ s a t, M.step s a = some t → L a → I s → I t)
    (hstep : ∀ s a t, M.step s a = some t → L a → I s → P s → (P t ↔ G s a))
    {s : σ} {as : List α} (hL : ∀ a ∈ as, L a) (hi : I s) (hs : P s) :
    M.Always P s as ↔ M.Guarded G s as := by
  induction as generalizing s with
  | nil => exact ⟨fun _ => trivial, fun _ => hs⟩
  | cons a as ih =>
    obtain ⟨ha, hLas⟩ := List.forall_mem_cons.mp hL
    constructor
    · rintro ⟨-, hrest⟩ t ht
      have hPt : P t := (hrest t ht).head
      exact ⟨(hstep s a t ht ha hi hs).mp hPt, (ih hLas (hI s a t ht ha hi) hPt).mp (hrest t ht)⟩
    · intro hG
      refine ⟨hs, fun t ht => ?_⟩
      obtain ⟨hg, hrest⟩ := hG t ht
      have hPt : P t := (hstep s a t ht ha hi hs).mpr hg
      exact (ih hLas (hI s a t ht ha hi) hPt).mpr hrest

/-- When, under an invariant that guarded steps keep, the relation holds across a step exactly if
the step meets the guard, it holds throughout a run exactly if all of its steps meet the guard. -/
theorem throughout_iff_guarded {R : σ → α → σ → Prop} {G : σ → α → Prop} {I : σ → Prop}
    (hI : ∀ s a t, M.step s a = some t → G s a → I s → I t)
    (hstep : ∀ s a t, M.step s a = some t → I s → (R s a t ↔ G s a))
    {s : σ} {as : List α} (hi : I s) : M.Throughout R s as ↔ M.Guarded G s as := by
  induction as generalizing s with
  | nil => exact Iff.rfl
  | cons a as ih =>
    refine forall_congr' fun t => imp_congr_right fun ht => ?_
    rw [hstep s a t ht hi]
    exact and_congr_right fun hg => ih (hI s a t ht hg hi)

theorem throughout_of_step {R : σ → α → σ → Prop} {I : σ → Prop}
    (hI : ∀ s a t, M.step s a = some t → I s → I t)
    (hstep : ∀ s a t, M.step s a = some t → I s → R s a t) {s : σ} (hi : I s) (as : List α) :
    M.Throughout R s as := by
  induction as generalizing s with
  | nil => trivial
  | cons a as ih => exact fun t ht => ⟨hstep s a t ht hi, ih (hI s a t ht hi)⟩

/-- When, under an invariant, the property holds after a step exactly if it held before and the step
meets the guard, it holds after a run exactly if it held before and all the steps meet the guard. -/
theorem last_iff_guarded {G : σ → α → Prop} {I P : σ → Prop}
    (hI : ∀ s a t, M.step s a = some t → I s → I t)
    (hstep : ∀ s a t, M.step s a = some t → I s → (P t ↔ P s ∧ G s a))
    {s t : σ} {as : List α} (hrun : M.run s as = some t) (hi : I s) :
    P t ↔ P s ∧ M.Guarded G s as := by
  induction as generalizing s with
  | nil =>
    obtain rfl := Option.some.inj hrun
    exact ⟨fun h => ⟨h, trivial⟩, And.left⟩
  | cons a as ih =>
    obtain ⟨u, hu, hrest⟩ := M.run_cons_eq_some.mp hrun
    have hguarded : M.Guarded G s (a :: as) ↔ G s a ∧ M.Guarded G u as :=
      ⟨fun h => h u hu, fun h v hv => Option.some.inj (hu.symm.trans hv) ▸ h⟩
    rw [ih hrest (hI s a u hu hi), hstep s a u hu hi, hguarded, and_assoc]

/-- A map under which every step of one machine is matched by a run of another one carries
reachability over. -/
theorem Reaches.map {τ β : Type*} {M' : Machine τ β} (f : σ → τ)
    (hsim : ∀ s a t, M.step s a = some t → M'.Reaches (f s) (f t))
    {s t : σ} (h : M.Reaches s t) : M'.Reaches (f s) (f t) :=
  h.invariant (P := fun u => M'.Reaches (f s) (f u))
    (fun u a v hstep hu => hu.trans (hsim u a v hstep)) (Reaches.refl M' (f s))

/-- Guarded steps that another machine matches under a relation make guarded runs that it matches. -/
theorem Guarded.simulated {τ : Type*} {N : Machine τ α} {G : σ → α → Prop} {R : σ → τ → Prop}
    (hstep : ∀ s a s' t, M.step s a = some s' → G s a → R s t →
      ∃ t', N.step t a = some t' ∧ R s' t')
    {s s' : σ} {t : τ} {as : List α} (hG : M.Guarded G s as) (hrun : M.run s as = some s')
    (hst : R s t) : ∃ t', N.run t as = some t' ∧ R s' t' := by
  induction as generalizing s t with
  | nil =>
    obtain rfl := Option.some.inj hrun
    exact ⟨t, rfl, hst⟩
  | cons a as ih =>
    obtain ⟨u, hu, hrest⟩ := M.run_cons_eq_some.mp hrun
    obtain ⟨hg, hG⟩ := hG u hu
    obtain ⟨v, hv, huv⟩ := hstep s a u t hu hg hst
    obtain ⟨t', ht', hst'⟩ := ih hG hrest huv
    exact ⟨t', N.run_cons_eq_some.mpr ⟨v, hv, ht'⟩, hst'⟩

/-! ## Machines with the same steps -/

section Congruence

variable {N : Machine σ α} {I : σ → Prop} {L : α → Prop}

theorem run_congr (heq : ∀ s a, L a → I s → M.step s a = N.step s a)
    (hI : ∀ s a t, M.step s a = some t → L a → I s → I t) {s : σ} {as : List α}
    (hL : ∀ a ∈ as, L a) (hs : I s) : M.run s as = N.run s as := by
  induction as generalizing s with
  | nil => rfl
  | cons a as ih =>
    obtain ⟨ha, hLas⟩ := List.forall_mem_cons.mp hL
    rw [run_cons, run_cons, ← heq s a ha hs]
    cases ht : M.step s a with
    | none => rfl
    | some t => exact ih hLas (hI s a t ht ha hs)

theorem guarded_congr {G H : σ → α → Prop} (heq : ∀ s a, L a → I s → M.step s a = N.step s a)
    (hI : ∀ s a t, M.step s a = some t → L a → I s → I t)
    (hGH : ∀ s a, L a → I s → (G s a ↔ H s a)) {s : σ} {as : List α} (hL : ∀ a ∈ as, L a)
    (hs : I s) : M.Guarded G s as ↔ N.Guarded H s as := by
  induction as generalizing s with
  | nil => exact Iff.rfl
  | cons a as ih =>
    obtain ⟨ha, hLas⟩ := List.forall_mem_cons.mp hL
    refine forall_congr' fun t => ?_
    rw [← heq s a ha hs]
    exact imp_congr_right fun ht => and_congr (hGH s a ha hs) (ih hLas (hI s a t ht ha hs))

end Congruence

end Machine

end Framework
