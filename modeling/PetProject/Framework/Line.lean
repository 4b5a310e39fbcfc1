import Mathlib.Data.List.Nodup
import Mathlib.Data.List.Sublists

/-!
# A line of waiting entries

A double-ended queue together with the entries that have left it, in the order in which they
left. Whatever is pushed and popped, two entries keep the order in which they once stood, so
that the order of departure can be read off at the moment of a push.
-/

namespace Framework

structure Line (τ : Type*) where
  gone : List τ
  queue : List τ

namespace Line

variable {τ : Type*}

def all (L : Line τ) : List τ := L.gone ++ L.queue

def pushBack (L : Line τ) (x : τ) : Line τ := ⟨L.gone, L.queue ++ [x]⟩

def pushFront (L : Line τ) (x : τ) : Line τ := ⟨L.gone, x :: L.queue⟩

/-- What may happen to a line; entries are pushed at most once. -/
inductive Next (L : Line τ) : Line τ → Prop
  | stay : Next L L
  | pop (x : τ) (xs : List τ) (hqueue : L.queue = x :: xs) : Next L ⟨L.gone ++ [x], xs⟩
  | back (x : τ) (hx : x ∉ L.all) : Next L (L.pushBack x)
  | front (x : τ) (hx : x ∉ L.all) : Next L (L.pushFront x)

/-- The first entry stands, or left, ahead of the second. -/
def Before (x y : τ) (l : List τ) : Prop := [x, y].Sublist l

theorem all_pushBack (L : Line τ) (x : τ) : (L.pushBack x).all = L.all ++ [x] := by
  simp [all, pushBack]

theorem all_pushFront (L : Line τ) (x : τ) :
    (L.pushFront x).all = L.gone ++ x :: L.queue := rfl

@[simp] theorem mem_all_pushBack {L : Line τ} {x y : τ} :
    y ∈ (L.pushBack x).all ↔ y = x ∨ y ∈ L.all := by
  rw [all_pushBack, List.mem_append, List.mem_singleton, or_comm]

@[simp] theorem mem_all_pushFront {L : Line τ} {x y : τ} :
    y ∈ (L.pushFront x).all ↔ y = x ∨ y ∈ L.all := by
  rw [all_pushFront, all, List.mem_append, List.mem_cons, List.mem_append]
  exact or_left_comm

theorem sublist_pushFront (L : Line τ) (x : τ) : L.all.Sublist (L.pushFront x).all :=
  (List.sublist_cons_self x L.queue).append_left L.gone

variable {L L' : Line τ}

theorem Next.sublist (h : L.Next L') : L.all.Sublist L'.all := by
  cases h with
  | stay => exact List.Sublist.refl _
  | pop x xs hqueue => simp [all, hqueue]
  | back x hx => exact all_pushBack L x ▸ List.sublist_append_left _ _
  | front x hx => exact sublist_pushFront L x

theorem Next.nodup (h : L.Next L') (hL : L.all.Nodup) : L'.all.Nodup := by
  cases h with
  | stay => exact hL
  | pop x xs hqueue => simpa [all, hqueue] using hL
  | back x hx =>
    rw [all_pushBack, ← List.concat_eq_append]
    exact hL.concat hx
  | front x hx =>
    rw [all_pushFront, List.nodup_middle]
    exact List.nodup_cons.mpr ⟨hx, hL⟩

theorem Next.before (h : L.Next L') {x y : τ} (hxy : Before x y L.all) : Before x y L'.all :=
  hxy.trans h.sublist

theorem before_pushBack {x y : τ} (hx : x ∈ L.all) : Before x y (L.pushBack y).all := by
  rw [all_pushBack]
  exact (List.singleton_sublist.mpr hx).append (List.Sublist.refl [y])

theorem before_pushFront {x y : τ} (hx : x ∈ L.queue) : Before y x (L.pushFront y).all := by
  have hqueue : [y, x].Sublist (y :: L.queue) := (List.singleton_sublist.mpr hx).cons_cons y
  exact hqueue.trans (List.sublist_append_right _ _)

theorem Before.gone {x y : τ} (h : Before x y L.all) (hL : L.all.Nodup) (hy : y ∈ L.gone) :
    Before x y L.gone := by
  obtain ⟨l, m, hlm, hl, hm⟩ := List.sublist_append_iff.mp h
  cases m using List.reverseRecOn with
  | nil =>
    rw [List.append_nil] at hlm
    rw [← hlm] at hl
    exact hl
  | append_singleton m z =>
    have hz : y = z := by
      have hlast := congrArg List.getLast? hlm
      simpa using hlast
    have hqueue : y ∈ L.queue := hm.subset (by simp [hz])
    exact absurd hqueue (List.disjoint_of_nodup_append hL hy)

end Line

end Framework
