import Mathlib.Data.List.Basic
import Mathlib.Order.Basic
import Mathlib.Tactic.Common

namespace Interleaving

variable {L : Type}

def total (f : L → ℕ) : List L → ℕ
  | [] => 0
  | l :: ts => f l + total f ts

@[simp] theorem total_nil (f : L → ℕ) : total f [] = 0 := rfl

@[simp] theorem total_cons (f : L → ℕ) (l : L) (ts : List L) :
    total f (l :: ts) = f l + total f ts := rfl

@[simp] theorem total_append (f : L → ℕ) (xs ys : List L) :
    total f (xs ++ ys) = total f xs + total f ys := by
  induction xs with
  | nil => simp
  | cons l xs ih => simp [ih,Nat.add_assoc]

theorem total_call (f : L → ℕ) (ts : List L) (l : L) : total f (ts ++ [l]) = total f ts + f l := by
  simp

theorem total_split (f : L → ℕ) (xs ys : List L) (l : L) :
    total f (xs ++ l :: ys) = total f (xs ++ ys) + f l := by
  simp only [total_append,total_cons]
  omega

theorem total_act (f : L → ℕ) (xs ys new : List L) (l : L) :
    total f (xs ++ l :: (ys ++ new)) = total f (xs ++ ys) + f l + total f new := by
  simp only [total_append,total_cons]
  omega

theorem total_eq_zero {f : L → ℕ} {ts : List L} : total f ts = 0 ↔ ∀ l ∈ ts, f l = 0 := by
  induction ts with
  | nil => simp
  | cons l ts ih => simp [ih]

theorem le_total {f : L → ℕ} {ts : List L} {l : L} (h : l ∈ ts) : f l ≤ total f ts := by
  induction ts with
  | nil => cases h
  | cons t ts ih =>
    rw [total_cons]
    rcases List.mem_cons.mp h with rfl | h
    · omega
    · have := ih h
      omega

theorem add_le_total {f : L → ℕ} {ts : List L} {l t : L} (hl : l ∈ ts) (ht : t ∈ ts) (hne : l ≠ t) :
    f l + f t ≤ total f ts := by
  induction ts with
  | nil => cases hl
  | cons u ts ih =>
    rw [total_cons]
    rcases List.mem_cons.mp hl with rfl | hl'
    · rcases List.mem_cons.mp ht with he | ht
      · exact absurd he.symm hne
      · exact Nat.add_le_add_left (le_total ht) (f l)
    · rcases List.mem_cons.mp ht with rfl | ht
      · have := @le_total L f ts l hl'
        omega
      · have := ih hl' ht
        omega

theorem exists_of_total {f : L → ℕ} {ts : List L} (h : 0 < total f ts) : ∃ l ∈ ts, 0 < f l := by
  by_contra hno
  have hz : total f ts = 0 :=
    total_eq_zero.mpr fun l hl => Nat.eq_zero_of_not_pos fun hf => hno ⟨l,hl,hf⟩
  omega

theorem eq_zero_of_other {f : L → ℕ} {xs ys : List L} {l t : L} (h : total f (xs ++ l :: ys) ≤ 1)
    (ht : t ∈ xs ++ ys) (hf : 0 < f t) : f l = 0 := by
  rw [total_split] at h
  have := le_total (f := f) ht
  omega

theorem total_le {f g : L → ℕ} {ts : List L} (h : ∀ l ∈ ts, f l ≤ g l) :
    total f ts ≤ total g ts := by
  induction ts with
  | nil => simp
  | cons l ts ih =>
    have hl := h l (by simp)
    have ht := ih (fun t ht => h t (by simp [ht]))
    simp only [total_cons]
    omega

end Interleaving
