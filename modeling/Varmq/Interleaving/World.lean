import Mathlib.Data.List.Basic
import Mathlib.Tactic.Common

namespace Interleaving

variable {S L C : Type}

structure World (S L : Type) where
  shared : S
  threads : List L

inductive Event (L C : Type) where
  | call (l : L)
  | act (i : ℕ) (c : C)

abbrev Events (L C : Type) := List (Event L C)

structure Program (S L C : Type) where
  entry : S → L → Bool
  step : S → L → C → Option (S × L × List L)

abbrev Guard (S L C : Type) := World S L → Event L C → Bool

def always : Guard S L C := fun _ _ => true

namespace Program

variable (P : Program S L C)

def next (w : World S L) : Event L C → Option (World S L)
  | .call l => if P.entry w.shared l then some ⟨w.shared,w.threads ++ [l]⟩ else none
  | .act i c =>
      match w.threads[i]? with
      | none => none
      | some l =>
          match P.step w.shared l c with
          | none => none
          | some (s,l',new) => some ⟨s,w.threads.set i l' ++ new⟩

def run (ok : Guard S L C) (w : World S L) : List (Event L C) → Option (World S L)
  | [] => some w
  | e :: es =>
      if ok w e then
        match P.next w e with
        | none => none
        | some w' => run ok w' es
      else none

inductive Reach (ok : Guard S L C) (w₀ : World S L) : World S L → Prop
  | refl : Reach ok w₀ w₀
  | tail {w w' : World S L} {e : Event L C} (h : Reach ok w₀ w) (hok : ok w e = true)
      (hn : P.next w e = some w') : Reach ok w₀ w'

variable {P}

theorem reach_trans {ok : Guard S L C} {u v w : World S L} (h : P.Reach ok u v)
    (k : P.Reach ok v w) : P.Reach ok u w := by
  induction k with
  | refl => exact h
  | tail _ hok hn ih => exact .tail ih hok hn

theorem reach_mono {ok ok' : Guard S L C} {u v : World S L}
    (h : ∀ w e, ok w e = true → ok' w e = true) (k : P.Reach ok u v) : P.Reach ok' u v := by
  induction k with
  | refl => exact .refl
  | tail _ hok hn ih => exact .tail ih (h _ _ hok) hn

theorem reach_of_run {ok : Guard S L C} {es : List (Event L C)} {w w' : World S L}
    (h : P.run ok w es = some w') : P.Reach ok w w' := by
  induction es generalizing w with
  | nil =>
    simp only [run,Option.some.injEq] at h
    exact h ▸ .refl
  | cons e es ih =>
    simp only [run] at h
    split at h
    case isFalse => cases h
    case isTrue hok =>
      split at h
      · cases h
      · rename_i v hv
        exact reach_trans (.tail .refl hok hv) (ih h)

theorem exists_reach_of_run (P : Program S L C) (ok : Guard S L C) (w₀ : World S L)
    (es : List (Event L C)) (p : World S L → Bool) (h : (P.run ok w₀ es).any p = true) :
    ∃ w, P.Reach ok w₀ w ∧ p w = true := by
  cases hw : P.run ok w₀ es with
  | none => simp [hw] at h
  | some w =>
    rw [hw] at h
    exact ⟨w,reach_of_run hw,by simpa using h⟩

end Program

theorem set_split {ts : List L} {i : ℕ} {l : L} (h : ts[i]? = some l) :
    ∃ xs ys, ts = xs ++ l :: ys ∧ xs.length = i ∧ ∀ l', ts.set i l' = xs ++ l' :: ys := by
  obtain ⟨hi,hl⟩ := List.getElem?_eq_some_iff.mp h
  refine ⟨ts.take i,ts.drop (i+1),?_,?_,?_⟩
  · rw [← hl,List.getElem_cons_drop,List.take_append_drop]
  · rw [List.length_take]
    omega
  · intro l'
    rw [List.set_eq_take_append_cons_drop,if_pos hi]

theorem getElem?_split (xs ys : List L) (l : L) : (xs ++ l :: ys)[xs.length]? = some l := by
  simp

theorem getElem?_other {xs ys new : List L} {l l' t : L} {i : ℕ} (hi : i ≠ xs.length)
    (h : (xs ++ l :: ys)[i]? = some t) :
    (xs ++ l' :: (ys ++ new))[i]? = some t ∧ t ∈ xs ++ ys := by
  rcases Nat.lt_or_gt_of_ne hi with hlt | hgt
  · rw [List.getElem?_append_left hlt] at h ⊢
    exact ⟨h,List.mem_append_left _ (List.mem_of_getElem? h)⟩
  · obtain ⟨j,rfl⟩ : ∃ j, i = xs.length + (j + 1) := ⟨i - xs.length - 1,by omega⟩
    rw [List.getElem?_append_right (by omega),Nat.add_sub_cancel_left,List.getElem?_cons_succ] at h ⊢
    obtain ⟨hj,-⟩ := List.getElem?_eq_some_iff.mp h
    exact ⟨by rw [List.getElem?_append_left hj,h],
      List.mem_append_right _ (List.mem_of_getElem? h)⟩

theorem mem_of_getElem?_other {xs ys : List L} {l t : L} {i : ℕ} (hi : i ≠ xs.length)
    (h : (xs ++ l :: ys)[i]? = some t) : t ∈ xs ++ ys :=
  (@getElem?_other _ xs ys [] l l t i hi h).2

theorem mem_of_other {xs ys : List L} {l t : L} (h : t ∈ xs ++ ys) : t ∈ xs ++ l :: ys := by
  rcases List.mem_append.mp h with h | h
  · exact List.mem_append_left _ h
  · exact List.mem_append_right _ (List.mem_cons_of_mem _ h)

theorem mem_split {xs ys : List L} {l t : L} (h : t ∈ xs ++ l :: ys) : t ∈ xs ++ ys ∨ t = l := by
  rcases List.mem_append.mp h with h | h
  · exact .inl (List.mem_append_left _ h)
  · rcases List.mem_cons.mp h with h | h
    · exact .inr h
    · exact .inl (List.mem_append_right _ h)

theorem mem_of_act {xs ys new : List L} {l t : L} (h : t ∈ xs ++ ys) :
    t ∈ xs ++ l :: (ys ++ new) := by
  refine mem_of_other ?_
  rw [← List.append_assoc]
  exact List.mem_append_left _ h

theorem mem_act {xs ys new : List L} {l t : L} (h : t ∈ xs ++ l :: (ys ++ new)) :
    t ∈ xs ++ ys ∨ t = l ∨ t ∈ new := by
  rcases mem_split h with h | h
  · rw [← List.append_assoc] at h
    exact (List.mem_append.mp h).imp_right .inr
  · exact .inr (.inl h)

theorem forall_call {p : L → Prop} {ts : List L} {l : L} (h : ∀ t ∈ ts, p t) (hl : p l) :
    ∀ t ∈ ts ++ [l], p t := by
  intro t ht
  rcases List.mem_append.mp ht with ht | ht
  · exact h t ht
  · rw [List.mem_singleton.mp ht]
    exact hl

theorem forall_act {p : L → Prop} {xs ys new : List L} {l : L} (h : ∀ t ∈ xs ++ ys, p t) (hl : p l)
    (hn : ∀ t ∈ new, p t) : ∀ t ∈ xs ++ l :: (ys ++ new), p t := by
  intro t ht
  rcases mem_act ht with ht | rfl | ht
  · exact h t ht
  · exact hl
  · exact hn t ht

theorem exists_act {p : L → Prop} {xs ys new : List L} {l l' : L} (h : ∃ t ∈ xs ++ l :: ys, p t)
    (hl : p l → p l') : ∃ t ∈ xs ++ l' :: (ys ++ new), p t := by
  obtain ⟨t,ht,hp⟩ := h
  rcases mem_split ht with ht | rfl
  · exact ⟨t,mem_of_act ht,hp⟩
  · exact ⟨l',by simp,hl hp⟩

theorem filterMap_claim {A B : Type} {f : A → Option B} {xs ys : List A} {a a' : A} {b : B}
    {bs : List B} (h : ((xs ++ a :: ys).filterMap f).Perm bs) (hn : f a = none) (hs : f a' = some b) :
    ((xs ++ a' :: ys).filterMap f).Perm (bs ++ [b]) := by
  simp only [List.filterMap_append,List.filterMap_cons,hn,hs] at h ⊢
  exact List.perm_middle.trans ((h.cons b).trans (List.perm_append_singleton b bs).symm)

theorem filterMap_same {A B : Type} {f : A → Option B} {xs ys : List A} {a a' : A}
    (h : f a' = f a) : (xs ++ a' :: ys).filterMap f = (xs ++ a :: ys).filterMap f := by
  simp [List.filterMap_cons,h]

-- Whoever is blocked waits for someone of lower rank, so not everyone is.
theorem exists_unblocked {busy blocked : L → Prop} {ts : List L} (rank : L → ℕ)
    (h : ∀ t ∈ ts, busy t → blocked t → ∃ u ∈ ts, busy u ∧ rank u < rank t) {t : L} (ht : t ∈ ts)
    (hb : busy t) : ∃ u ∈ ts, busy u ∧ ¬blocked u := by
  induction hn : rank t using Nat.strongRecOn generalizing t with
  | ind n ih =>
    by_cases hblocked : blocked t
    · obtain ⟨u,hu,hbu,hlt⟩ := h t ht hb hblocked
      exact ih (rank u) (hn ▸ hlt) hu hbu rfl
    · exact ⟨t,ht,hb,hblocked⟩

namespace Program

variable {P : Program S L C} {ok : Guard S L C}

theorem next_act {s : S} {xs ys : List L} {l : L} {c : C} {w' : World S L}
    (h : P.next ⟨s,xs ++ l :: ys⟩ (.act xs.length c) = some w') :
    ∃ s' l' new, P.step s l c = some (s',l',new) ∧ w' = ⟨s',xs ++ l' :: (ys ++ new)⟩ := by
  simp only [next,getElem?_split] at h
  split at h
  · cases h
  · rename_i s' l' new hs
    refine ⟨s',l',new,hs,?_⟩
    simpa using h.symm

theorem next_of_step {s s' : S} {xs ys new : List L} {l l' : L} {c : C}
    (h : P.step s l c = some (s',l',new)) :
    P.next ⟨s,xs ++ l :: ys⟩ (.act xs.length c) = some ⟨s',xs ++ l' :: (ys ++ new)⟩ := by
  simp [next,h]

theorem next_cases {w w' : World S L} {e : Event L C} (h : P.next w e = some w') :
    (∃ l, e = .call l ∧ P.entry w.shared l = true ∧ w' = ⟨w.shared,w.threads ++ [l]⟩) ∨
    (∃ xs l ys c s' l' new, e = .act xs.length c ∧ w.threads = xs ++ l :: ys ∧
      P.step w.shared l c = some (s',l',new) ∧ w' = ⟨s',xs ++ l' :: (ys ++ new)⟩) := by
  cases e with
  | call l =>
    left
    simp only [next] at h
    split at h
    case isTrue he => exact ⟨l,rfl,he,(Option.some.inj h).symm⟩
    case isFalse => cases h
  | act i c =>
    right
    cases hl : w.threads[i]? with
    | none => simp [next,hl] at h
    | some l =>
      obtain ⟨xs,ys,hts,hi,-⟩ := set_split hl
      subst hi
      obtain ⟨s,ts⟩ := w
      simp only at hts
      subst hts
      obtain ⟨s',l',new,hs,hw⟩ := next_act h
      exact ⟨xs,l,ys,c,s',l',new,rfl,rfl,hs,hw⟩

theorem reach_invariant {I : S → List L → Prop} {w₀ w : World S L}
    (h0 : I w₀.shared w₀.threads)
    (hcall : ∀ s ts l, I s ts → ok ⟨s,ts⟩ (.call l) = true → P.entry s l = true →
      I s (ts ++ [l]))
    (hact : ∀ s xs l ys c s' l' new, I s (xs ++ l :: ys) →
      ok ⟨s,xs ++ l :: ys⟩ (.act xs.length c) = true → P.step s l c = some (s',l',new) →
      I s' (xs ++ l' :: (ys ++ new)))
    (h : P.Reach ok w₀ w) : I w.shared w.threads := by
  induction h with
  | refl => exact h0
  | @tail u v e _ hok hn ih =>
    rcases next_cases hn with ⟨l,rfl,he,rfl⟩ | ⟨xs,l,ys,c,s',l',new,rfl,hts,hs,rfl⟩
    · exact hcall _ _ l ih hok he
    · obtain ⟨s,ts⟩ := u
      simp only at hts ih
      subst hts
      exact hact s xs l ys c s' l' new ih hok hs

end Program

end Interleaving
