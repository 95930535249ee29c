import Mathlib.Data.List.Basic
import Mathlib.Data.Int.Notation
import Mathlib.Tactic.Common

namespace Selection

variable {A B : Type} {line seen : List A} {x y : A} {before after before' after' : A → Prop}

-- An element of the list by what holds of those before it and of those after it.
def First (line : List A) (x : A) (before after : A → Prop) : Prop :=
  ∃ as bs, line = as ++ x :: bs ∧ (∀ a ∈ as, before a) ∧ ∀ b ∈ bs, after b

theorem First.mem (h : First line x before after) : x ∈ line := by
  obtain ⟨as,bs,rfl,-,-⟩ := h
  exact List.mem_append_right as List.mem_cons_self

theorem First.each (h : First line x before after) (hb : ∀ a, before a → after a) (hx : after x) :
    ∀ a ∈ line, after a := by
  obtain ⟨as,bs,rfl,h1,h2⟩ := h
  intro a ha
  rcases List.mem_append.mp ha with ha | ha
  · exact hb a (h1 a ha)
  · rcases List.mem_cons.mp ha with rfl | ha
    · exact hx
    · exact h2 a ha

-- The next element does not take the place of x.
theorem First.keep (h : First line x before after) (hy : after y) :
    First (line ++ [y]) x before after := by
  obtain ⟨as,bs,rfl,h1,h2⟩ := h
  refine ⟨as,bs ++ [y],by simp,h1,fun b hb => ?_⟩
  rcases List.mem_append.mp hb with hb | hb
  · exact h2 b hb
  · rw [List.mem_singleton.mp hb]
    exact hy

theorem first_last (h : ∀ a ∈ line, before a) : First (line ++ [y]) y before after :=
  ⟨line,[],rfl,h,(fun _ hb => by cases hb)⟩

theorem First.map {f : A → B} {p q : B → Prop} (h : First line x (fun a => p (f a)) fun a => q (f a)) :
    First (line.map f) (f x) p q := by
  obtain ⟨as,bs,rfl,h1,h2⟩ := h
  refine ⟨as.map f,bs.map f,by simp,fun a ha => ?_,fun b hb => ?_⟩
  · obtain ⟨a',ha',rfl⟩ := List.mem_map.mp ha
    exact h1 a' ha'
  · obtain ⟨b',hb',rfl⟩ := List.mem_map.mp hb
    exact h2 b' hb'

theorem first_of_find {p : A → Bool} (h : line.find? p = some x) :
    First line x (fun a => p a = false) fun _ => True := by
  obtain ⟨-,as,bs,rfl,hno⟩ := List.find?_eq_some_iff_append.mp h
  exact ⟨as,bs,rfl,(fun a ha => by simpa using hno a ha),fun _ _ => trivial⟩

-- slices.MaxFunc from its first element on: of equal maximal elements the first.
def maxFunc (cmp : A → A → ℤ) (x : A) : List A → A
  | [] => x
  | y :: ys => maxFunc cmp (if 0 < cmp y x then y else x) ys

theorem first_maxFunc {f : A → ℤ} (h : First seen x (fun a => f a < f x) fun a => f a ≤ f x)
    (ys : List A) : First (seen ++ ys) (maxFunc (fun a b => f a - f b) x ys)
      (fun a => f a < f (maxFunc (fun a b => f a - f b) x ys))
      fun a => f a ≤ f (maxFunc (fun a b => f a - f b) x ys) := by
  induction ys generalizing seen x with
  | nil =>
    rw [List.append_nil]
    exact h
  | cons y ys ih =>
    rw [List.append_cons,maxFunc]
    split
    · rename_i hlt
      have hall := h.each (fun a ha => Int.le_of_lt ha) (Int.le_refl _)
      refine ih (first_last fun a ha => ?_)
      have := hall a ha
      omega
    · rename_i hle
      exact ih (h.keep (by omega))

end Selection
