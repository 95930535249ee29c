import Varmq.Queues.Heap

namespace Varmq.Queues

variable {A : Type} {less : A → A → Bool}

-- A strict order in which what is not less is at least as great.
structure Strict (less : A → A → Bool) : Prop where
  asymm : ∀ {a b}, less a b = true → less b a = false
  trans : ∀ {a b c}, less b a = false → less c b = false → less c a = false

def parent (k : ℕ) : ℕ := (k - 1) / 2

-- The first n items are a heap: none is less than its parent.
def HeapOn (less : A → A → Bool) (l : List A) (n : ℕ) : Prop :=
  ∀ k, 0 < k → k < n → lessAt less l k (parent k) = false

theorem lessAt_congr {l l' : List A} {i j i' j' : ℕ} (hi : l'[i]? = l[i']?) (hj : l'[j]? = l[j']?) :
    lessAt less l' i j = lessAt less l i' j' := by
  rw [lessAt,lessAt,hi,hj]

theorem lessAt_of {l : List A} {i j : ℕ} {a b : A} (hi : l[i]? = some a) (hj : l[j]? = some b) :
    lessAt less l i j = less a b := by
  rw [lessAt,hi,hj]

theorem lessAt_true {l : List A} {i j : ℕ} (h : lessAt less l i j = true) :
    i < l.length ∧ j < l.length := by
  unfold lessAt at h
  split at h
  · rename_i hi hj
    exact ⟨(List.getElem?_eq_some_iff.mp hi).1,(List.getElem?_eq_some_iff.mp hj).1⟩
  · cases h

theorem Strict.asymmAt (ho : Strict less) {l : List A} {i j : ℕ} (h : lessAt less l i j = true) :
    lessAt less l j i = false := by
  obtain ⟨hi,hj⟩ := lessAt_true h
  rw [lessAt_of (List.getElem?_eq_getElem hi) (List.getElem?_eq_getElem hj)] at h
  rw [lessAt_of (List.getElem?_eq_getElem hj) (List.getElem?_eq_getElem hi)]
  exact ho.asymm h

theorem Strict.transAt (ho : Strict less) {l : List A} {i j k : ℕ} (hj : j < l.length)
    (hij : lessAt less l j i = false) (hjk : lessAt less l k j = false) :
    lessAt less l k i = false := by
  cases hi : l[i]? with
  | none => simp [lessAt,hi]
  | some a =>
    cases hk : l[k]? with
    | none => simp [lessAt,hk]
    | some c =>
      rw [lessAt_of (List.getElem?_eq_getElem hj) hi] at hij
      rw [lessAt_of hk (List.getElem?_eq_getElem hj)] at hjk
      rw [lessAt_of hk hi]
      exact ho.trans hij hjk

theorem Strict.irreflAt (ho : Strict less) (l : List A) (i : ℕ) : lessAt less l i i = false := by
  cases h : lessAt less l i i with
  | false => rfl
  | true => rw [← h,ho.asymmAt h]

section Swap

variable {l : List A} {i j : ℕ} (hi : i < l.length) (hj : j < l.length)

include hi hj

theorem swap_left : (swap l i j)[i]? = l[j]? := by
  rw [swap,dif_pos ⟨hi,hj⟩]
  by_cases he : j = i
  · subst he
    rw [List.getElem?_set_self (by simpa using hj),List.getElem?_eq_getElem hj]
  · rw [List.getElem?_set_ne he,List.getElem?_set_self hi,List.getElem?_eq_getElem hj]

theorem swap_right : (swap l i j)[j]? = l[i]? := by
  rw [swap,dif_pos ⟨hi,hj⟩,List.getElem?_set_self (by simpa using hj),List.getElem?_eq_getElem hi]

end Swap

@[simp] theorem length_swap (l : List A) (i j : ℕ) : (swap l i j).length = l.length :=
  (swap_perm l i j).length_eq

theorem HeapOn.root (ho : Strict less) {l : List A} {n : ℕ} (h : HeapOn less l n)
    (hn : n ≤ l.length) {k : ℕ} (hk : k < n) : lessAt less l k 0 = false := by
  induction k using Nat.strongRecOn with
  | ind k ih =>
    rcases Nat.eq_zero_or_pos k with rfl | hpos
    · exact ho.irreflAt l 0
    · have hp : parent k < k := by unfold parent; omega
      exact ho.transAt (by omega) (ih _ hp (by omega)) (h k hpos hk)

-- Sift up at j: only j may be less than its parent, and its children are not less than that one.
structure UpAt (less : A → A → Bool) (l : List A) (n j : ℕ) : Prop where
  others : ∀ k, 0 < k → k < n → k ≠ j → lessAt less l k (parent k) = false
  children : ∀ k, 0 < k → k < n → 0 < j → parent k = j → lessAt less l k (parent j) = false

theorem UpAt.swapped (ho : Strict less) {l : List A} {n j : ℕ} (h : UpAt less l n j)
    (hn : n ≤ l.length) (hj : j < n) (hne : parent j ≠ j)
    (hl : lessAt less l j (parent j) = true) :
    UpAt less (swap l (parent j) j) n (parent j) := by
  have hpos : 0 < j := by
    rcases Nat.eq_zero_or_pos j with rfl | hpos
    · exact absurd rfl hne
    · exact hpos
  have hp : parent j < j := by unfold parent at hne ⊢; omega
  have hpi : parent j < l.length := by omega
  have hji : j < l.length := by omega
  have hleft := swap_left hpi hji
  have hright := swap_right hpi hji
  have hasymm := ho.asymmAt hl
  constructor
  · intro k hk hkn hkp
    by_cases hkj : k = j
    · subst hkj
      rw [lessAt_congr hright hleft]
      exact hasymm
    · have hself := swap_other (l := l) hkp hkj
      by_cases hpj : parent k = j
      · rw [hpj,lessAt_congr hself hright]
        exact h.children k hk hkn hpos hpj
      · by_cases hpp : parent k = parent j
        · rw [hpp,lessAt_congr hself hleft]
          exact ho.transAt hpi hasymm (hpp ▸ h.others k hk hkn hkj)
        · rw [lessAt_congr hself (swap_other hpp hpj)]
          exact h.others k hk hkn hkj
  · intro k hk hkn hpp hkp
    have hgp : parent (parent j) < parent j := by
      generalize parent j = p at hpp
      unfold parent
      omega
    have hup := h.others (parent j) hpp (by omega) (by omega)
    have hother := @swap_other _ l (parent j) j _ (Nat.ne_of_lt hgp) (by omega)
    by_cases hkj : k = j
    · subst hkj
      rw [lessAt_congr hright hother]
      exact hup
    · have hkne : k ≠ parent j := by
        intro he
        rw [he] at hkp
        omega
      rw [lessAt_congr (swap_other hkne hkj) hother]
      exact ho.transAt hpi hup (hkp ▸ h.others k hk hkn hkj)

theorem UpAt.upLoop (ho : Strict less) {fuel : ℕ} {l : List A} {n j : ℕ} (h : UpAt less l n j)
    (hn : n ≤ l.length) (hj : j < n) (hf : j ≤ fuel) : HeapOn less (upLoop less fuel l j) n := by
  have hdone {l : List A} {j : ℕ} (h : UpAt less l n j)
      (hl : j = 0 ∨ lessAt less l j (parent j) = false) : HeapOn less l n := by
    intro k hk hkn
    by_cases hkj : k = j
    · subst hkj
      exact hl.resolve_left (Nat.ne_of_gt hk)
    · exact h.others k hk hkn hkj
  induction fuel generalizing l j with
  | zero => exact hdone h (.inl (by omega))
  | succ fuel ih =>
    simp only [Queues.upLoop]
    split
    · rename_i hstop
      rcases hstop with hstop | hstop
      · exact hdone h (.inl (by omega))
      · exact hdone h (.inr hstop)
    · rename_i hgo
      simp only [not_or,Bool.not_eq_false] at hgo
      have hp : parent j < j := by
        have := hgo.1
        unfold parent
        omega
      exact ih (h.swapped ho hn hj hgo.1 hgo.2) (by simpa using hn) (by unfold parent at hp; omega)
        (by unfold parent at hp; omega)

theorem push_heap (ho : Strict less) {l : List A} (h : HeapOn less l l.length) (x : A) :
    HeapOn less (push less l x) (push less l x).length := by
  have hlen : (push less l x).length = l.length + 1 := (push_perm less l x).length_eq
  rw [hlen]
  refine UpAt.upLoop ho ⟨fun k hk hkn hne => ?_,fun k hk hkn hpos hp => ?_⟩ (by simp)
    (Nat.lt_succ_self _) (Nat.le_refl _)
  · have hk' : k < l.length := by omega
    have hp : parent k < l.length := by unfold parent; omega
    rw [lessAt_congr (List.getElem?_append_left hk') (List.getElem?_append_left hp)]
    exact h k hk hk'
  · unfold parent at hp
    omega

-- Sift down at i: only the children of i may be less than it, and they are not less than its parent.
structure DownAt (less : A → A → Bool) (l : List A) (n i : ℕ) : Prop where
  others : ∀ k, 0 < k → k < n → parent k ≠ i → lessAt less l k (parent k) = false
  children : ∀ k, 0 < k → k < n → 0 < i → parent k = i → lessAt less l k (parent i) = false

theorem child_cases {k i : ℕ} (hk : 0 < k) (h : parent k = i) : k = 2 * i + 1 ∨ k = 2 * i + 2 := by
  unfold parent at h
  omega

theorem lesserChild_parent (less : A → A → Bool) (l : List A) (i n : ℕ) :
    parent (lesserChild less l (2 * i + 1) n) = i ∧ 0 < lesserChild less l (2 * i + 1) n := by
  unfold lesserChild parent
  split <;> omega

theorem lesserChild_least (ho : Strict less) {l : List A} {i n k : ℕ} (hk : 0 < k) (hkn : k < n)
    (hp : parent k = i) : lessAt less l k (lesserChild less l (2 * i + 1) n) = false := by
  unfold lesserChild
  split
  · rename_i h
    rcases child_cases hk hp with rfl | rfl
    · exact ho.asymmAt h.2
    · exact ho.irreflAt l _
  · rename_i h
    rcases child_cases hk hp with rfl | rfl
    · exact ho.irreflAt l _
    · exact Bool.eq_false_iff.mpr fun hl => h ⟨hkn,hl⟩

theorem DownAt.swapped (ho : Strict less) {l : List A} {n i j : ℕ} (h : DownAt less l n i)
    (hn : n ≤ l.length) (hjn : j < n) (hj : 0 < j) (hp : parent j = i)
    (hleast : ∀ k, 0 < k → k < n → parent k = i → lessAt less l k j = false)
    (hl : lessAt less l j i = true) : DownAt less (swap l i j) n j := by
  have hij : i < j := by unfold parent at hp; omega
  have hil : i < l.length := by omega
  have hjl : j < l.length := by omega
  have hleft := swap_left hil hjl
  have hright := swap_right hil hjl
  constructor
  · intro k hk hkn hkp
    by_cases hkj : k = j
    · subst hkj
      rw [hp,lessAt_congr hright hleft]
      exact ho.asymmAt hl
    · by_cases hki : k = i
      · subst hki
        have hpk : parent k < k := by unfold parent; omega
        rw [lessAt_congr hleft (swap_other (Nat.ne_of_lt hpk) (by omega))]
        exact h.children j hj hjn hk hp
      · have hself := swap_other (l := l) hki hkj
        by_cases hpi : parent k = i
        · rw [hpi,lessAt_congr hself hleft]
          exact hleast k hk hkn hpi
        · rw [lessAt_congr hself (swap_other hpi hkp)]
          exact h.others k hk hkn hpi
  · intro k hk hkn _ hkp
    have hjk : j < k := by unfold parent at hkp; omega
    rw [hp,lessAt_congr (swap_other (by omega) (by omega)) hleft]
    have hne : parent k ≠ i := by omega
    exact hkp ▸ h.others k hk hkn hne

theorem DownAt.downLoop (ho : Strict less) {fuel : ℕ} {l : List A} {n i : ℕ}
    (h : DownAt less l n i) (hn : n ≤ l.length) (hf : n ≤ i + fuel) :
    HeapOn less (downLoop less fuel l i n) n := by
  have hdone {l : List A} {i : ℕ} (h : DownAt less l n i)
      (hl : ∀ k, 0 < k → k < n → parent k = i → lessAt less l k i = false) : HeapOn less l n := by
    intro k hk hkn
    by_cases hkp : parent k = i
    · exact hkp ▸ hl k hk hkn hkp
    · exact h.others k hk hkn hkp
  induction fuel generalizing l i with
  | zero => exact hdone h fun k hk hkn hp => by unfold parent at hp; omega
  | succ fuel ih =>
    simp only [Queues.downLoop]
    split
    · exact hdone h fun k hk hkn hp => by unfold parent at hp; omega
    · rename_i hc
      obtain ⟨hp,hpos⟩ := lesserChild_parent less l i n
      have hlt := @lesserChild_lt _ less l _ _ (Nat.lt_of_not_le hc)
      have hleast : ∀ k, 0 < k → k < n → parent k = i →
          lessAt less l k (lesserChild less l (2 * i + 1) n) = false := fun k hk hkn hp =>
        lesserChild_least ho hk hkn hp
      generalize lesserChild less l (2 * i + 1) n = j at hp hpos hlt hleast ⊢
      split
      · rename_i hstop
        exact hdone h fun k hk hkn hkp => ho.transAt (by omega) hstop (hleast k hk hkn hkp)
      · rename_i hgo
        have hij : i < j := by unfold parent at hp; omega
        exact ih (h.swapped ho hn hlt hpos hp hleast (by simpa using hgo)) (by simpa using hn)
          (by omega)

theorem pop_heap (ho : Strict less) {l rest : List A} {x : A} (h : HeapOn less l l.length)
    (hp : pop less l = some (x,rest)) : HeapOn less rest rest.length := by
  obtain ⟨y,hy,heq⟩ := Option.map_eq_some_iff.mp hp
  cases heq
  obtain ⟨hlt,-⟩ := List.getElem?_eq_some_iff.mp hy
  have hlen : (down less (swap l 0 (l.length - 1)) 0 (l.length - 1)).length = l.length :=
    ((downLoop_perm less _ _ _ _).trans (swap_perm _ _ _)).length_eq
  have hdown : HeapOn less (down less (swap l 0 (l.length - 1)) 0 (l.length - 1)) (l.length - 1) := by
    refine DownAt.downLoop ho ⟨fun k hk hkn hkp => ?_,fun k _ _ h0 => absurd h0 (Nat.lt_irrefl 0)⟩
      (by simp) (by omega)
    have hpk : parent k < k := by unfold parent; omega
    rw [lessAt_congr (swap_other (by omega) (by omega)) (swap_other hkp (by omega))]
    exact h k hk (by omega)
  rw [List.length_take,Nat.min_eq_left (by omega)]
  intro k hk hkn
  have hpk : parent k < k := by unfold parent; omega
  rw [lessAt_congr (List.getElem?_take_of_lt hkn) (List.getElem?_take_of_lt (by omega))]
  exact hdown k hk hkn

theorem pop_least (ho : Strict less) {l rest : List A} {x y : A} (h : HeapOn less l l.length)
    (hp : pop less l = some (x,rest)) (hy : y ∈ l) : less y x = false := by
  obtain ⟨k,hk,rfl⟩ := List.getElem_of_mem hy
  have hroot := h.root ho (Nat.le_refl _) hk
  rw [lessAt_of (List.getElem?_eq_getElem hk) (List.head?_eq_getElem? ▸ pop_head hp)] at hroot
  exact hroot

theorem pop_nil (less : A → A → Bool) : pop less ([] : List A) = none := rfl

-- What n pops return.
def drain (less : A → A → Bool) : ℕ → List A → List A
  | 0, _ => []
  | n + 1, l =>
      match pop less l with
      | none => []
      | some (x,rest) => x :: drain less n rest

theorem drain_perm {n : ℕ} {l : List A} (hn : l.length = n) : (drain less n l).Perm l := by
  induction n generalizing l with
  | zero =>
    rw [List.length_eq_zero_iff.mp hn]
    exact .refl _
  | succ n ih =>
    obtain ⟨x,rest,hp⟩ := pop_nonempty less (l := l) (by rintro rfl; cases hn)
    have hperm := pop_perm hp
    have hlen : rest.length = n := by
      have := hperm.length_eq
      rw [hn,List.length_cons] at this
      omega
    simp only [drain,hp]
    exact ((ih hlen).cons x).trans hperm.symm

theorem drain_sorted (ho : Strict less) {n : ℕ} {l : List A} (hn : l.length = n)
    (h : HeapOn less l l.length) : (drain less n l).Pairwise fun a b => less b a = false := by
  induction n generalizing l with
  | zero => exact .nil
  | succ n ih =>
    obtain ⟨x,rest,hp⟩ := pop_nonempty less (l := l) (by rintro rfl; cases hn)
    have hperm := pop_perm hp
    have hlen : rest.length = n := by
      have := hperm.length_eq
      rw [hn,List.length_cons] at this
      omega
    simp only [drain,hp]
    refine List.pairwise_cons.mpr ⟨fun y hy => ?_,ih hlen (pop_heap ho h hp)⟩
    have hy' : y ∈ rest := (drain_perm hlen).mem_iff.mp hy
    exact pop_least ho h hp (hperm.mem_iff.mpr (List.mem_cons_of_mem x hy'))

theorem drain_take {n k : ℕ} (h : k ≤ n) (l : List A) : drain less k l = (drain less n l).take k := by
  induction k generalizing n l with
  | zero => rfl
  | succ k ih =>
    obtain ⟨n,rfl⟩ : ∃ m, n = m + 1 := ⟨n - 1,by omega⟩
    simp only [drain]
    cases pop less l with
    | none => rfl
    | some r =>
      obtain ⟨x,rest⟩ := r
      exact congrArg (x :: ·) (ih (by omega) rest)

-- A list sorted by an order that is strict on its items is the only one.
theorem eq_of_sorted (less : A → A → Bool) {l l' : List A} (hp : l.Perm l')
    (hanti : ∀ a ∈ l, ∀ b ∈ l, less a b = false → less b a = false → a = b)
    (hl : l.Pairwise fun a b => less b a = false) (hl' : l'.Pairwise fun a b => less b a = false) :
    l = l' :=
  List.Perm.eq_of_pairwise (fun a b ha hb hab hba => hanti a ha b (hp.mem_iff.mpr hb) hba hab)
    hl hl' hp

end Varmq.Queues
