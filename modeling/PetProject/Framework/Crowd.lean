import Mathlib.Data.List.Basic
import PetProject.Framework.Machine

/-!
# Crowds

Parties join one after the other and take their steps in any order. A step of a party may leave it
with something to say, which it says word by word before its next step, and everything that is said
is heard in the order in which it is said.
-/

namespace Framework

/-- A machine whose states hold what a party has said, or is about to say, from the beginning on. -/
structure Speaker (σ α β : Type*) where
  machine : Machine σ α
  speech : σ → List β
  grows : ∀ s a t, machine.step s a = some t → speech s <+: speech t

/-- The parties in the order in which they have joined, each with what it has still to say, and what
has been heard, with the party that has said it. -/
structure Crowd (σ β : Type*) where
  members : List (σ × List β)
  heard : List (Option Nat × β)

namespace Crowd

variable {σ α β : Type*} (P : Speaker σ α β)

/-- A new party says at once what it has to say. -/
def join (c : Crowd σ β) (s : σ) : Crowd σ β where
  members := c.members ++ [(s, [])]
  heard := c.heard ++ (P.speech s).map fun b => (some c.members.length, b)

def move (c : Crowd σ β) (k : Nat) (a : α) : Option (Crowd σ β) :=
  match c.members[k]? with
  | some (s, []) => (P.machine.step s a).map fun t =>
      { c with members := c.members.set k (t, (P.speech t).drop (P.speech s).length) }
  | _ => none

def say (c : Crowd σ β) (k : Nat) : Option (Crowd σ β) :=
  match c.members[k]? with
  | some (s, b :: rest) => some ⟨c.members.set k (s, rest), c.heard ++ [(some k, b)]⟩
  | _ => none

/-- Something is said by nobody of the crowd. -/
def aside (c : Crowd σ β) (b : β) : Crowd σ β := { c with heard := c.heard ++ [(none, b)] }

/-- What one speaker has been heard to say. -/
def words (k : Option Nat) (heard : List (Option Nat × β)) : List β :=
  (heard.filter fun e => e.1 = k).map Prod.snd

variable {P} {c c' : Crowd σ β}

theorem words_append (k : Option Nat) (heard heard' : List (Option Nat × β)) :
    words k (heard ++ heard') = words k heard ++ words k heard' := by
  rw [words, List.filter_append, List.map_append, words, words]

theorem words_own (k : Option Nat) (bs : List β) : words k (bs.map fun b => (k, b)) = bs := by
  rw [words, List.filter_eq_self.mpr, List.map_map]
  · exact List.map_id bs
  · intro e he
    obtain ⟨b, -, rfl⟩ := List.mem_map.mp he
    exact decide_eq_true rfl

theorem words_other {k l : Option Nat} (h : l ≠ k) (bs : List β) :
    words k (bs.map fun b => (l, b)) = [] := by
  rw [words, List.filter_eq_nil_iff.mpr, List.map_nil]
  intro e he
  obtain ⟨b, -, rfl⟩ := List.mem_map.mp he
  simpa using h

theorem move_spec {k : Nat} {a : α} (h : c.move P k a = some c') :
    ∃ s t, c.members[k]? = some (s, []) ∧ P.machine.step s a = some t ∧
      c' = { c with members := c.members.set k (t, (P.speech t).drop (P.speech s).length) } := by
  rw [move] at h
  split at h
  case h_1 s hk =>
    obtain ⟨t, ht, rfl⟩ := Option.map_eq_some_iff.mp h
    exact ⟨s, t, hk, ht, rfl⟩
  case h_2 => cases h

theorem say_spec {k : Nat} (h : c.say k = some c') :
    ∃ s b rest, c.members[k]? = some (s, b :: rest) ∧
      c' = ⟨c.members.set k (s, rest), c.heard ++ [(some k, b)]⟩ := by
  rw [say] at h
  split at h
  case h_1 s b rest hk => exact ⟨s, b, rest, hk, (Option.some.inj h).symm⟩
  case h_2 => cases h

theorem length_move {k : Nat} {a : α} (h : c.move P k a = some c') :
    c'.members.length = c.members.length := by
  obtain ⟨s, t, -, -, rfl⟩ := move_spec h
  exact List.length_set

theorem length_say {k : Nat} (h : c.say k = some c') :
    c'.members.length = c.members.length := by
  obtain ⟨s, b, rest, -, rfl⟩ := say_spec h
  exact List.length_set

/-! ## Members -/

/-- What every party brings with it and keeps in its steps holds of all of them. -/
theorem forall_join {Q : σ → Prop} (h : ∀ m ∈ c.members, Q m.1) {s : σ} (hs : Q s) :
    ∀ m ∈ (c.join P s).members, Q m.1 := by
  intro m hm
  rcases List.mem_append.mp hm with hm | hm
  · exact h m hm
  · exact List.mem_singleton.mp hm ▸ hs

theorem forall_move {Q : σ → Prop} (hQ : ∀ s a t, P.machine.step s a = some t → Q s → Q t)
    (h : ∀ m ∈ c.members, Q m.1) {k : Nat} {a : α} (hmove : c.move P k a = some c') :
    ∀ m ∈ c'.members, Q m.1 := by
  obtain ⟨s, t, hk, ht, rfl⟩ := move_spec hmove
  intro m hm
  rcases List.mem_or_eq_of_mem_set hm with hm | rfl
  · exact h m hm
  · exact hQ s a t ht (h _ (List.mem_of_getElem? hk))

theorem forall_say {Q : σ → Prop} (h : ∀ m ∈ c.members, Q m.1) {k : Nat}
    (hsay : c.say k = some c') : ∀ m ∈ c'.members, Q m.1 := by
  obtain ⟨s, b, rest, hk, rfl⟩ := say_spec hsay
  have hs : Q s := h _ (List.mem_of_getElem? hk)
  intro m hm
  rcases List.mem_or_eq_of_mem_set hm with hm | rfl
  · exact h m hm
  · exact hs

private theorem map_set_of_eq {τ γ : Type*} {g : τ → γ} {l : List τ} {k : Nat} {x y : τ}
    (hk : l[k]? = some x) (h : g y = g x) : (l.set k y).map g = l.map g := by
  obtain ⟨hlt, rfl⟩ := List.getElem?_eq_some_iff.mp hk
  have hlt' : k < (l.map g).length := by rwa [List.length_map]
  rw [List.map_set, h, ← List.getElem_map g (h := hlt'), List.set_getElem_self]

theorem map_move {γ : Type*} {f : σ → γ} (hf : ∀ s a t, P.machine.step s a = some t → f t = f s)
    {k : Nat} {a : α} (h : c.move P k a = some c') :
    (c'.members.map fun m => f m.1) = c.members.map fun m => f m.1 := by
  obtain ⟨s, t, hk, ht, rfl⟩ := move_spec h
  exact map_set_of_eq hk (hf s a t ht)

theorem map_say {γ : Type*} (f : σ → γ) {k : Nat} (h : c.say k = some c') :
    (c'.members.map fun m => f m.1) = c.members.map fun m => f m.1 := by
  obtain ⟨s, b, rest, hk, rfl⟩ := say_spec h
  exact map_set_of_eq hk rfl

/-! ## What is heard -/

/-- Of every party there has been heard what it has said, in order, and nothing else; what it has
still to say comes behind that. -/
structure Accounted (P : Speaker σ α β) (c : Crowd σ β) : Prop where
  members : ∀ k s rest, c.members[k]? = some (s, rest) →
    words (some k) c.heard ++ rest = P.speech s
  others : ∀ k, c.members.length ≤ k → words (some k) c.heard = []

theorem accounted_aside (h : c.Accounted P) (b : β) : (c.aside b).Accounted P := by
  have hwords : ∀ k, words (some k) (c.aside b).heard = words (some k) c.heard := by
    intro k
    have hother := words_other (k := some k) (l := none) (by simp) [b]
    rw [aside, words_append]
    exact (congrArg _ hother).trans (List.append_nil _)
  constructor
  · intro k s rest hk
    rw [hwords]
    exact h.members k s rest hk
  · intro k hk
    rw [hwords]
    exact h.others k hk

theorem accounted_join (h : c.Accounted P) (s : σ) : (c.join P s).Accounted P := by
  have hwords : ∀ k, k ≠ c.members.length →
      words (some k) (c.join P s).heard = words (some k) c.heard := by
    intro k hk
    rw [join, words_append, words_other (fun heq => hk (Option.some.inj heq).symm),
      List.append_nil]
  constructor
  · intro k u rest hk
    dsimp only [join] at hk
    rcases Nat.lt_trichotomy k c.members.length with hlt | rfl | hgt
    · rw [List.getElem?_append_left hlt] at hk
      rw [hwords k (Nat.ne_of_lt hlt)]
      exact h.members k u rest hk
    · rw [List.getElem?_append_right (Nat.le_refl _), Nat.sub_self, List.getElem?_cons_zero] at hk
      cases hk
      rw [join, words_append, h.others _ (Nat.le_refl _), words_own, List.nil_append, List.append_nil]
    · rw [List.getElem?_append_right (Nat.le_of_lt hgt), List.getElem?_eq_none (by simp; omega)] at hk
      cases hk
  · intro k hk
    rw [join, List.length_append, List.length_singleton] at hk
    rw [hwords k (by omega)]
    exact h.others k (by omega)

theorem accounted_move (h : c.Accounted P) {k : Nat} {a : α} (hmove : c.move P k a = some c') :
    c'.Accounted P := by
  obtain ⟨s, t, hk, ht, rfl⟩ := move_spec hmove
  constructor
  · intro j u rest hj
    dsimp only at hj
    by_cases hjk : k = j
    · subst hjk
      obtain ⟨hlt, -⟩ := List.getElem?_eq_some_iff.mp hk
      rw [List.getElem?_set_self hlt] at hj
      cases hj
      obtain ⟨suffix, hsuffix⟩ := P.grows s a t ht
      have hheard := h.members k s [] hk
      rw [List.append_nil] at hheard
      rw [hheard, ← hsuffix, List.drop_left]
    · rw [List.getElem?_set_ne hjk] at hj
      exact h.members j u rest hj
  · intro j hj
    rw [List.length_set] at hj
    exact h.others j hj

theorem accounted_say (h : c.Accounted P) {k : Nat} (hsay : c.say k = some c') :
    c'.Accounted P := by
  obtain ⟨s, b, rest, hk, rfl⟩ := say_spec hsay
  obtain ⟨hlt, -⟩ := List.getElem?_eq_some_iff.mp hk
  have hown : words (some k) [(some k, b)] = [b] := words_own (some k) [b]
  have hother : ∀ j, k ≠ j → words (some j) [(some k, b)] = [] := fun j hkj =>
    words_other (fun heq => hkj (Option.some.inj heq)) [b]
  constructor
  · intro j u rest' hj
    dsimp only at hj
    rw [words_append]
    by_cases hjk : k = j
    · subst hjk
      rw [List.getElem?_set_self hlt] at hj
      cases hj
      rw [hown, List.append_assoc]
      exact h.members k s (b :: rest) hk
    · rw [List.getElem?_set_ne hjk] at hj
      rw [hother j hjk, List.append_nil]
      exact h.members j u rest' hj
  · intro j hj
    rw [List.length_set] at hj
    rw [words_append, hother j (by omega), List.append_nil]
    exact h.others j hj

end Crowd

end Framework
