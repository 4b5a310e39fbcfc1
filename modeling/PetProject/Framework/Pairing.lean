import Mathlib.Data.List.Basic
import Mathlib.Data.List.Infix

/-!
# Requests and responses in order

A party asks over one queue, another one serves what it finds there and answers over a second
queue, and the first one takes the responses for what it has asked. Neither queue names the request
that a response belongs to: that the two parties agree on the pairs follows from the order alone.
-/

namespace Framework

variable {α β : Type*}

/-- The requests that have been served and those on their way are the ones that have been settled
and those that are outstanding; the responses that have been taken, those on their way and those
that will never arrive are the ones that have been given. -/
structure Paired (served taken : List (α × β)) (requests outstanding : List α)
    (responses dropped : List β) : Prop where
  asked : served.map Prod.fst ++ requests = taken.map Prod.fst ++ outstanding
  answered : taken.map Prod.snd ++ (responses ++ dropped) = served.map Prod.snd

namespace Paired

variable {served taken : List (α × β)} {requests outstanding : List α} {responses dropped : List β}

theorem start : Paired ([] : List (α × β)) [] [] [] [] [] := ⟨rfl, rfl⟩

theorem ask (h : Paired served taken requests outstanding responses dropped) (a : α) :
    Paired served taken (requests ++ [a]) (outstanding ++ [a]) responses dropped where
  asked := by rw [← List.append_assoc, h.asked, List.append_assoc]
  answered := h.answered

theorem serve {a : α} (h : Paired served taken (a :: requests) outstanding responses []) (b : β) :
    Paired (served ++ [(a, b)]) taken requests outstanding (responses ++ [b]) [] where
  asked := by
    rw [List.map_append, List.append_assoc]
    exact h.asked
  answered := by
    rw [List.map_append, ← h.answered]
    simp

theorem take {a : α} {b : β}
    (h : Paired served taken requests (a :: outstanding) (b :: responses) dropped) :
    Paired served (taken ++ [(a, b)]) requests outstanding responses dropped where
  asked := by
    rw [List.map_append, List.append_assoc]
    exact h.asked
  answered := by
    rw [List.map_append, List.append_assoc]
    exact h.answered

theorem drop {lost : List β}
    (h : Paired served taken requests outstanding (responses ++ lost) dropped) :
    Paired served taken requests outstanding responses (lost ++ dropped) where
  asked := h.asked
  answered := by
    rw [← List.append_assoc responses]
    exact h.answered

theorem length_add (h : Paired served taken requests outstanding responses dropped) :
    requests.length + responses.length + dropped.length = outstanding.length := by
  have hasked := congrArg List.length h.asked
  have hanswered := congrArg List.length h.answered
  simp only [List.length_append, List.length_map] at hasked hanswered
  omega

theorem taken_prefix (h : Paired served taken requests outstanding responses dropped) :
    taken <+: served := by
  have hanswered := congrArg List.length h.answered
  simp only [List.length_append, List.length_map] at hanswered
  have hlength : taken.length ≤ served.length := by omega
  have hfst : taken.map Prod.fst = (served.map Prod.fst).take taken.length := by
    have htake := congrArg (List.take taken.length) h.asked
    rw [List.take_append_of_le_length (by simpa using hlength), List.take_left' (by simp)] at htake
    exact htake.symm
  have hsnd : taken.map Prod.snd = (served.map Prod.snd).take taken.length := by
    rw [← h.answered, List.take_left' (by simp)]
  have htaken : taken = served.take taken.length :=
    (List.zip_of_prod hfst hsnd).trans (List.zip_of_prod List.map_take List.map_take).symm
  rw [htaken]
  exact List.take_prefix _ _

end Paired

end Framework
