import Mathlib.Data.List.Nodup
import Mathlib.Logic.Function.Basic

namespace LinkedStack

variable {N : Type} {next : N → Option N} {head : Option N} {e p : N} {l xs ys : List N}

-- The nodes reached from `head` by `next`, the top first.
def Linked (next : N → Option N) : Option N → List N → Prop
  | head, [] => head = none
  | head, x :: xs => head = some x ∧ Linked next (next x) xs

namespace Linked

theorem head_eq (h : Linked next head l) : head = l.head? := by
  cases l with
  | nil => exact h
  | cons x xs => exact h.1

theorem of_none (h : Linked next none l) : l = [] := by
  cases l with
  | nil => rfl
  | cons x xs => cases h.1

theorem of_some (h : Linked next (some e) l) : ∃ ys, l = e :: ys ∧ Linked next (next e) ys := by
  cases l with
  | nil => cases h
  | cons x xs =>
    obtain ⟨hx,hl⟩ := h
    cases hx
    exact ⟨xs,rfl,hl⟩

theorem push (h : Linked next head l) (he : next e = head) : Linked next (some e) (e :: l) :=
  ⟨rfl,he ▸ h⟩

theorem drop (h : Linked next head (xs ++ ys)) : Linked next ys.head? ys := by
  induction xs generalizing head with
  | nil => exact h.head_eq ▸ h
  | cons x xs ih => exact ih h.2

theorem next_eq (h : Linked next head (xs ++ e :: ys)) : next e = ys.head? :=
  (drop h).2.head_eq

variable [DecidableEq N]

-- A store to a node that is not linked.
theorem store (h : Linked next head l) (he : e ∉ l) (o : Option N) :
    Linked (Function.update next e o) head l := by
  induction l generalizing head with
  | nil => exact h
  | cons x xs ih =>
    obtain ⟨hx,hl⟩ := h
    have hne : x ≠ e := fun hxe => he (hxe ▸ List.mem_cons_self)
    refine ⟨hx,?_⟩
    rw [Function.update_of_ne hne]
    exact ih hl (fun hm => he (List.mem_cons_of_mem x hm))

-- A store that takes out the node below p.
theorem unlink (hn : (xs ++ p :: e :: ys).Nodup) (h : Linked next head (xs ++ p :: e :: ys)) :
    Linked (Function.update next p ys.head?) head (xs ++ p :: ys) := by
  induction xs generalizing head with
  | nil =>
    obtain ⟨hp,hl⟩ := h
    obtain ⟨hmem,-⟩ := List.nodup_cons.mp hn
    refine ⟨hp,?_⟩
    rw [Function.update_self]
    exact store (hl.2.head_eq ▸ hl.2) (fun hm => hmem (List.mem_cons_of_mem e hm)) _
  | cons x xs ih =>
    obtain ⟨hx,hl⟩ := h
    obtain ⟨hmem,hn⟩ := List.nodup_cons.mp hn
    have hne : x ≠ p := fun hxp => hmem (hxp ▸ by simp)
    refine ⟨hx,?_⟩
    rw [Function.update_of_ne hne]
    exact ih hn hl

end Linked

end LinkedStack
