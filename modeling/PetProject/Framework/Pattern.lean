import Mathlib.Computability.Language

/-!
# Patterns

Regular patterns with bounded repetition, over any alphabet. A pattern costs as many characters
as its sets must supply in a shortest word: `exists_short` finds a word of at most this length
among the words of any kind that the pattern matches at all.
-/

namespace Framework

inductive Pattern (α : Type)
  | never
  | empty
  | set (S : α → Bool)
  | seq (p q : Pattern α)
  | alt (p q : Pattern α)
  | rep (p : Pattern α) (least : Nat) (most : Option Nat)

namespace Pattern

variable {α : Type}

def any : Pattern α := .set fun _ => true

def anyWord : Pattern α := .rep any 0 none

def language : Pattern α → Language α
  | never => 0
  | empty => 1
  | set S => {w | ∃ c, S c ∧ w = [c]}
  | seq p q => p.language * q.language
  | alt p q => p.language + q.language
  | rep p least most => {w | ∃ k, least ≤ k ∧ (∀ n ∈ most, k ≤ n) ∧ w ∈ p.language ^ k}

def cost : Pattern α → Nat
  | never => 0
  | empty => 0
  | set _ => 1
  | seq p q => p.cost + q.cost
  | alt p q => max p.cost q.cost
  | rep p least _ => least * p.cost

theorem mem_set {S : α → Bool} {w : List α} : w ∈ (set S).language ↔ ∃ c, S c ∧ w = [c] := Iff.rfl

theorem mem_rep {p : Pattern α} {least : Nat} {most : Option Nat} {w : List α} :
    w ∈ (rep p least most).language ↔
      ∃ k, least ≤ k ∧ (∀ n ∈ most, k ≤ n) ∧ w ∈ p.language ^ k := Iff.rfl

theorem mem_anyWord (w : List α) : w ∈ anyWord.language := by
  refine mem_rep.mpr ⟨w.length, Nat.zero_le _, by simp, ?_⟩
  induction w with
  | nil => exact Language.nil_mem_one
  | cons c w ih =>
    rw [List.length_cons, pow_succ']
    exact Language.append_mem_mul (a := [c]) (mem_set.mpr ⟨c, rfl, rfl⟩) ih

private theorem flatten_replicate_mem {p : Pattern α} {u : List α} (hu : u ∈ p.language) (k : Nat) :
    (List.replicate k u).flatten ∈ p.language ^ k := by
  induction k with
  | zero => exact Language.nil_mem_one
  | succ k ih =>
    rw [List.replicate_succ, List.flatten_cons, pow_succ']
    exact Language.append_mem_mul hu ih

/-- Among the matched words all of whose characters satisfy `G` there is a short one. -/
theorem exists_short (G : α → Prop) (p : Pattern α) (h : ∃ w ∈ p.language, ∀ c ∈ w, G c) :
    ∃ w ∈ p.language, (∀ c ∈ w, G c) ∧ w.length ≤ p.cost := by
  induction p with
  | never =>
    obtain ⟨w, hw, -⟩ := h
    exact absurd hw (Language.notMem_zero w)
  | empty => exact ⟨[], Language.nil_mem_one, by simp, le_rfl⟩
  | set S =>
    obtain ⟨w, ⟨c, hc, rfl⟩, hG⟩ := h
    exact ⟨[c], mem_set.mpr ⟨c, hc, rfl⟩, hG, le_rfl⟩
  | seq p q ihp ihq =>
    obtain ⟨w, hw, hG⟩ := h
    obtain ⟨a, ha, b, hb, rfl⟩ := Language.mem_mul.mp hw
    obtain ⟨hGa, hGb⟩ := List.forall_mem_append.mp hG
    obtain ⟨u, hu, hGu, hucost⟩ := ihp ⟨a, ha, hGa⟩
    obtain ⟨v, hv, hGv, hvcost⟩ := ihq ⟨b, hb, hGb⟩
    refine ⟨u ++ v, Language.append_mem_mul hu hv, List.forall_mem_append.mpr ⟨hGu, hGv⟩, ?_⟩
    rw [List.length_append]
    exact Nat.add_le_add hucost hvcost
  | alt p q ihp ihq =>
    obtain ⟨w, hw, hG⟩ := h
    rcases (Language.mem_add _ _ _).mp hw with hw | hw
    · obtain ⟨u, hu, hGu, hcost⟩ := ihp ⟨w, hw, hG⟩
      exact ⟨u, (Language.mem_add _ _ _).mpr (Or.inl hu), hGu, hcost.trans (le_max_left _ _)⟩
    · obtain ⟨u, hu, hGu, hcost⟩ := ihq ⟨w, hw, hG⟩
      exact ⟨u, (Language.mem_add _ _ _).mpr (Or.inr hu), hGu, hcost.trans (le_max_right _ _)⟩
  | rep p least most ih =>
    obtain ⟨w, ⟨k, hleast, hmost, hw⟩, hG⟩ := h
    have hfew : ∀ n ∈ most, least ≤ n := fun n hn => hleast.trans (hmost n hn)
    rcases Nat.eq_zero_or_pos least with rfl | hpos
    · refine ⟨[], mem_rep.mpr ⟨0, le_rfl, hfew, Language.nil_mem_one⟩, by simp, Nat.zero_le _⟩
    -- the first of the words that `w` consists of
    · obtain ⟨j, rfl⟩ : ∃ j, k = j + 1 := ⟨k - 1, by omega⟩
      rw [pow_succ'] at hw
      obtain ⟨a, ha, b, -, rfl⟩ := Language.mem_mul.mp hw
      obtain ⟨u, hu, hGu, hcost⟩ := ih ⟨a, ha, (List.forall_mem_append.mp hG).1⟩
      refine ⟨(List.replicate least u).flatten,
        mem_rep.mpr ⟨least, le_rfl, hfew, flatten_replicate_mem hu least⟩, ?_, ?_⟩
      · intro c hc
        obtain ⟨v, hv, hcv⟩ := List.mem_flatten.mp hc
        exact hGu c (List.eq_of_mem_replicate hv ▸ hcv)
      · rw [List.length_flatten, List.map_replicate, List.sum_replicate_nat]
        exact Nat.mul_le_mul_left _ hcost

end Pattern

end Framework
