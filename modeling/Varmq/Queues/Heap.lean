import Mathlib.Data.List.Basic
import Mathlib.Tactic.Common

namespace Varmq.Queues

variable {A : Type}

def swap (l : List A) (i j : ℕ) : List A :=
  if h : i < l.length ∧ j < l.length then (l.set i l[j]).set j l[i] else l

def lessAt (less : A → A → Bool) (l : List A) (i j : ℕ) : Bool :=
  match l[i]?,l[j]? with
  | some a,some b => less a b
  | _,_ => false

-- j goes down with every turn of the loop, so that j turns are enough.
def upLoop (less : A → A → Bool) : ℕ → List A → ℕ → List A
  | 0, l, _ => l
  | fuel + 1, l, j =>
      let i := (j - 1) / 2
      if i = j ∨ lessAt less l j i = false then l else upLoop less fuel (swap l i j) i

def up (less : A → A → Bool) (l : List A) (j : ℕ) : List A := upLoop less j l j

def lesserChild (less : A → A → Bool) (l : List A) (j n : ℕ) : ℕ :=
  if j + 1 < n ∧ lessAt less l (j + 1) j = true then j + 1 else j

-- i goes up with every turn and stays below n.
def downLoop (less : A → A → Bool) : ℕ → List A → ℕ → ℕ → List A
  | 0, l, _, _ => l
  | fuel + 1, l, i, n =>
      if n ≤ 2 * i + 1 then l
      else
        let j := lesserChild less l (2 * i + 1) n
        if lessAt less l j i = false then l else downLoop less fuel (swap l i j) j n

def down (less : A → A → Bool) (l : List A) (i n : ℕ) : List A := downLoop less n l i n

def push (less : A → A → Bool) (l : List A) (x : A) : List A := up less (l ++ [x]) l.length

-- The caller checks that there is an item.
def pop (less : A → A → Bool) (l : List A) : Option (A × List A) :=
  let n := l.length - 1
  let l' := down less (swap l 0 n) 0 n
  l'[n]?.map fun x => (x,l'.take n)

theorem swap_perm (l : List A) (i j : ℕ) : (swap l i j).Perm l := by
  unfold swap
  split
  · rename_i h
    exact List.set_set_perm h.1 h.2
  · exact .refl _

theorem upLoop_perm (less : A → A → Bool) (fuel : ℕ) (l : List A) (j : ℕ) :
    (upLoop less fuel l j).Perm l := by
  induction fuel generalizing l j with
  | zero => exact .refl _
  | succ fuel ih =>
    simp only [upLoop]
    split
    · exact .refl _
    · exact (ih _ _).trans (swap_perm _ _ _)

theorem downLoop_perm (less : A → A → Bool) (fuel : ℕ) (l : List A) (i n : ℕ) :
    (downLoop less fuel l i n).Perm l := by
  induction fuel generalizing l i with
  | zero => exact .refl _
  | succ fuel ih =>
    simp only [downLoop]
    split
    · exact .refl _
    · split
      · exact .refl _
      · exact (ih _ _).trans (swap_perm _ _ _)

theorem push_perm (less : A → A → Bool) (l : List A) (x : A) : (push less l x).Perm (x :: l) :=
  (upLoop_perm less _ _ _).trans (List.perm_append_singleton x l)

theorem pop_perm {less : A → A → Bool} {l rest : List A} {x : A}
    (h : pop less l = some (x,rest)) : l.Perm (x :: rest) := by
  obtain ⟨y,hy,heq⟩ := Option.map_eq_some_iff.mp h
  cases heq
  have hp : (down less (swap l 0 (l.length - 1)) 0 (l.length - 1)).Perm l :=
    (downLoop_perm less _ _ _ _).trans (swap_perm _ _ _)
  generalize down less (swap l 0 (l.length - 1)) 0 (l.length - 1) = l' at hy hp ⊢
  obtain ⟨hn,hx⟩ := List.getElem?_eq_some_iff.mp hy
  have hlast : l' = l'.take (l.length - 1) ++ [x] := by
    have hdrop : l'.drop (l.length - 1) = [x] := by
      rw [List.drop_eq_getElem_cons hn,hx,List.drop_eq_nil_of_le]
      rw [hp.length_eq] at hn ⊢
      omega
    rw [← hdrop,List.take_append_drop]
  refine hp.symm.trans ?_
  nth_rewrite 1 [hlast]
  exact List.perm_append_singleton x _

theorem swap_other {l : List A} {i j k : ℕ} (hi : k ≠ i) (hj : k ≠ j) :
    (swap l i j)[k]? = l[k]? := by
  unfold swap
  split
  · rw [List.getElem?_set_ne (Ne.symm hj),List.getElem?_set_ne (Ne.symm hi)]
  · rfl

theorem lesserChild_lt {less : A → A → Bool} {l : List A} {j n : ℕ} (h : j < n) :
    lesserChild less l j n < n := by
  unfold lesserChild
  split
  · omega
  · exact h

theorem downLoop_last (less : A → A → Bool) (fuel : ℕ) (l : List A) (i n : ℕ) :
    (downLoop less fuel l i n)[n]? = l[n]? := by
  induction fuel generalizing l i with
  | zero => rfl
  | succ fuel ih =>
    simp only [downLoop]
    split
    · rfl
    · rename_i hn
      split
      · rfl
      · have hj := @lesserChild_lt _ less l _ _ (Nat.lt_of_not_le hn)
        rw [ih,swap_other (by omega) (by omega)]

theorem pop_head {less : A → A → Bool} {l rest : List A} {x : A}
    (h : pop less l = some (x,rest)) : l.head? = some x := by
  obtain ⟨y,hy,heq⟩ := Option.map_eq_some_iff.mp h
  cases heq
  rw [down,downLoop_last] at hy
  cases l with
  | nil => simp [swap] at hy
  | cons a l =>
    rw [swap,dif_pos ⟨by simp,by simp⟩,List.getElem?_set_self (by simp)] at hy
    simpa using hy

theorem pop_nonempty (less : A → A → Bool) {l : List A} (h : l ≠ []) :
    ∃ x rest, pop less l = some (x,rest) := by
  have hlen : (down less (swap l 0 (l.length - 1)) 0 (l.length - 1)).length = l.length :=
    ((downLoop_perm less _ _ _ _).trans (swap_perm _ _ _)).length_eq
  have hpos := List.length_pos_iff.mpr h
  have hn : l.length - 1 < (down less (swap l 0 (l.length - 1)) 0 (l.length - 1)).length := by omega
  exact ⟨_,_,by rw [pop,List.getElem?_eq_getElem hn]; rfl⟩

end Varmq.Queues
