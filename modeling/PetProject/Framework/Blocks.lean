import Mathlib.Data.List.Perm.Subperm
import Mathlib.Data.List.Nodup
import Mathlib.Logic.Function.Basic
import Mathlib.Order.Nat

/-!
# Blocks of memory

Blocks come from `new`, with an address that was never given out before, and stay live until they
are deleted. Every address that `delete` receives is recorded, so that a block that is deleted twice
shows in the record.
-/

namespace Framework

/-- The live blocks and the deleted addresses; the addresses from `next` on have not been given
out. -/
structure Blocks (β : Type*) where
  next : Nat
  block : Nat → Option β
  deleted : List Nat
  fresh : ∀ q, next ≤ q → block q = none

namespace Blocks

variable {β : Type*}

def empty : Blocks β := ⟨0, fun _ => none, [], fun _ _ => rfl⟩

def new (b : β) (M : Blocks β) : Nat × Blocks β :=
  (M.next,
    { next := M.next + 1
      block := Function.update M.block M.next (some b)
      deleted := M.deleted
      fresh := fun q hq => by
        rw [Function.update_of_ne (by omega)]
        exact M.fresh q (by omega) })

def write (p : Nat) (b : β) (M : Blocks β) : Blocks β :=
  { M with
    block := Function.update M.block p ((M.block p).map fun _ => b)
    fresh := fun q hq => by
      by_cases hqp : q = p
      · subst hqp
        rw [Function.update_self, M.fresh q hq, Option.map_none]
      · rw [Function.update_of_ne hqp, M.fresh q hq] }

/-- `delete []`; the null pointer is no block. -/
def delete (p : Option Nat) (M : Blocks β) : Blocks β :=
  match p with
  | none => M
  | some a =>
    { M with
      block := Function.update M.block a none
      deleted := M.deleted ++ [a]
      fresh := fun q hq => by
        by_cases hqa : q = a
        · rw [hqa, Function.update_self]
        · rw [Function.update_of_ne hqa, M.fresh q hq] }

def deleteAll (ps : List (Option Nat)) (M : Blocks β) : Blocks β :=
  ps.foldl (fun M p => M.delete p) M

theorem lt_next_of_live {M : Blocks β} {q : Nat} (h : M.block q ≠ none) : q < M.next := by
  by_contra hq
  exact h (M.fresh q (Nat.le_of_not_lt hq))

/-! ## Allocation -/

/-- Between the two states the given blocks were allocated, and the older ones left alone. -/
structure Allocates (M M' : Blocks β) (news : List Nat) : Prop where
  next_le : M.next ≤ M'.next
  old : ∀ q, q < M.next → M'.block q = M.block q
  deleted : M'.deleted = M.deleted
  range : ∀ q ∈ news, M.next ≤ q ∧ q < M'.next
  nodup : news.Nodup

theorem Allocates.refl (M : Blocks β) : M.Allocates M [] :=
  ⟨le_rfl, fun _ _ => rfl, rfl, fun _ hq => (List.not_mem_nil hq).elim, List.nodup_nil⟩

theorem allocates_new (b : β) (M : Blocks β) : M.Allocates (M.new b).2 [(M.new b).1] where
  next_le := Nat.le_succ M.next
  old q hq := Function.update_of_ne (Nat.ne_of_lt hq) _ _
  deleted := rfl
  range q hq := by
    obtain rfl := List.mem_singleton.mp hq
    exact ⟨le_rfl, Nat.lt_succ_self M.next⟩
  nodup := List.nodup_singleton _

theorem block_new (b : β) (M : Blocks β) : (M.new b).2.block (M.new b).1 = some b :=
  Function.update_self _ _ _

theorem Allocates.trans {M M' M'' : Blocks β} {news news' : List Nat} (h : M.Allocates M' news)
    (h' : M'.Allocates M'' news') : M.Allocates M'' (news ++ news') where
  next_le := h.next_le.trans h'.next_le
  old q hq := (h'.old q (hq.trans_le h.next_le)).trans (h.old q hq)
  deleted := h'.deleted.trans h.deleted
  range q hq := by
    rcases List.mem_append.mp hq with hq | hq
    · exact ⟨(h.range q hq).1, (h.range q hq).2.trans_le h'.next_le⟩
    · exact ⟨h.next_le.trans (h'.range q hq).1, (h'.range q hq).2⟩
  nodup := by
    refine List.nodup_append.mpr ⟨h.nodup, h'.nodup, ?_⟩
    rintro q hq _ hq' rfl
    exact absurd (h.range q hq).2 (Nat.not_lt.mpr (h'.range q hq').1)

theorem Allocates.perm {M M' : Blocks β} {news news' : List Nat} (h : M.Allocates M' news)
    (hperm : news.Perm news') : M.Allocates M' news' where
  next_le := h.next_le
  old := h.old
  deleted := h.deleted
  range q hq := h.range q (hperm.mem_iff.mpr hq)
  nodup := hperm.nodup_iff.mp h.nodup

theorem Allocates.write {M M' : Blocks β} {news : List Nat} (h : M.Allocates M' news) {p : Nat}
    (hp : M.next ≤ p) (b : β) : M.Allocates (M'.write p b) news where
  next_le := h.next_le
  old q hq := (Function.update_of_ne (by omega) _ _).trans (h.old q hq)
  deleted := h.deleted
  range := h.range
  nodup := h.nodup

theorem Allocates.live_cases {M M' : Blocks β} {news : List Nat} (h : M.Allocates M' news)
    (hnext : M'.next = M.next + news.length) {q : Nat} (hq : M'.block q ≠ none) :
    q ∈ news ∨ M.block q ≠ none := by
  by_cases hlt : q < M.next
  · exact Or.inr (h.old q hlt ▸ hq)
  · have hrange : (List.range' M.next news.length).Subset news := by
      have hsubset : news ⊆ List.range' M.next news.length := by
        intro p hp
        have hbounds := h.range p hp
        exact List.mem_range'_1.mpr ⟨hbounds.1, hnext ▸ hbounds.2⟩
      have hperm := (h.nodup.subperm hsubset).perm_of_length_le (by rw [List.length_range'])
      exact hperm.symm.subset
    have hqlt := lt_next_of_live hq
    exact Or.inl (hrange (List.mem_range'_1.mpr ⟨Nat.le_of_not_lt hlt, hnext ▸ hqlt⟩))

theorem block_write {M : Blocks β} {p : Nat} (hp : M.block p ≠ none) (b : β) :
    (M.write p b).block p = some b := by
  obtain ⟨c, hc⟩ := Option.ne_none_iff_exists'.mp hp
  refine (Function.update_self p _ _).trans ?_
  rw [hc, Option.map_some]

theorem block_write_of_ne {M : Blocks β} {p q : Nat} (h : q ≠ p) (b : β) :
    (M.write p b).block q = M.block q :=
  Function.update_of_ne h _ _

/-! ## Deletion -/

theorem block_delete (p : Option Nat) (M : Blocks β) (q : Nat) :
    (M.delete p).block q = if p = some q then none else M.block q := by
  cases p with
  | none => rw [if_neg (by simp)]; rfl
  | some a =>
    by_cases hqa : q = a
    · subst hqa
      rw [if_pos rfl]
      exact Function.update_self _ _ _
    · rw [if_neg fun h => hqa (Option.some.inj h).symm]
      exact Function.update_of_ne hqa _ _

theorem deleted_delete (p : Option Nat) (M : Blocks β) :
    (M.delete p).deleted = M.deleted ++ p.toList := by
  cases p with
  | none => exact (List.append_nil _).symm
  | some a => rfl

theorem next_delete (p : Option Nat) (M : Blocks β) : (M.delete p).next = M.next := by
  cases p <;> rfl

/-- What a list of deletions leaves behind. -/
structure Deletes (M M' : Blocks β) (olds : List Nat) : Prop where
  next : M'.next = M.next
  block : ∀ q, M'.block q = if q ∈ olds then none else M.block q
  deleted : M'.deleted = M.deleted ++ olds

theorem deletes_delete (p : Option Nat) (M : Blocks β) : M.Deletes (M.delete p) p.toList where
  next := next_delete p M
  block q := by
    rw [block_delete]
    exact if_congr Option.mem_toList.symm rfl rfl
  deleted := deleted_delete p M

theorem Deletes.trans {M M' M'' : Blocks β} {olds olds' : List Nat} (h : M.Deletes M' olds)
    (h' : M'.Deletes M'' olds') : M.Deletes M'' (olds ++ olds') where
  next := h'.next.trans h.next
  block q := by
    rw [h'.block, h.block]
    by_cases hq : q ∈ olds <;> by_cases hq' : q ∈ olds' <;> simp [hq, hq']
  deleted := by rw [h'.deleted, h.deleted, List.append_assoc]

theorem deletes_deleteAll (as : List Nat) (M : Blocks β) :
    M.Deletes (M.deleteAll (as.map some)) as := by
  induction as generalizing M with
  | nil => exact ⟨rfl, fun q => (if_neg List.not_mem_nil).symm, (List.append_nil _).symm⟩
  | cons a as ih => exact (deletes_delete (some a) M).trans (ih (M.delete (some a)))

end Blocks

end Framework
