import Varmq.Interleaving.World

namespace Interleaving

variable {S L C R : Type} {P : Program S L C} {c : C} {res : L → Option R} {s s' : S} {l l' : L}
  {Q Q' : S → L → Prop}

namespace Program

-- One call on its own: at most f steps, all with choice c, until it has a result.
def alone (P : Program S L C) (c : C) (res : L → Option R) : ℕ → S → L → Option (S × R)
  | f, s, l =>
      match res l with
      | some r => some (s,r)
      | none =>
          match f with
          | 0 => none
          | f+1 =>
              match P.step s l c with
              | some (s',l',[]) => alone P c res f s' l'
              | _ => none

-- Steps of its own lead the call to where Q holds.
inductive Leads (P : Program S L C) (c : C) (Q : S → L → Prop) : S → L → Prop
  | done {s : S} {l : L} (h : Q s l) : Leads P c Q s l
  | step {s s' : S} {l l' : L} (hs : P.step s l c = some (s',l',[])) (h : Leads P c Q s' l') :
      Leads P c Q s l

theorem Leads.trans (h : P.Leads c Q s l) (hq : ∀ s l, Q s l → P.Leads c Q' s l) :
    P.Leads c Q' s l := by
  induction h with
  | done h => exact hq _ _ h
  | step hs _ ih => exact .step hs ih

theorem alone_result {f : ℕ} {r : R} (h : res l = some r) : P.alone c res f s l = some (s,r) := by
  cases f <;> simp only [alone,h]

theorem alone_step {f : ℕ} (h : res l = none) (hs : P.step s l c = some (s',l',[])) :
    P.alone c res (f + 1) s l = P.alone c res f s' l' := by
  rw [alone,h]
  simp only [hs]

theorem alone_of_leads {Q : S → R → Prop}
    (h : P.Leads c (fun s l => ∃ r, res l = some r ∧ Q s r) s l)
    (hstop : ∀ s l, (res l).isSome = true → P.step s l c = none) :
    ∃ n s' r, Q s' r ∧ ∀ f ≥ n, P.alone c res f s l = some (s',r) := by
  induction h with
  | @done s l h =>
    obtain ⟨r,hr,hq⟩ := h
    exact ⟨0,s,r,hq,fun f _ => alone_result hr⟩
  | @step s s' l l' hs _ ih =>
    obtain ⟨n,u,r,hq,hall⟩ := ih
    have hnone : res l = none := by
      cases hr : res l with
      | none => rfl
      | some r =>
        rw [hstop s l (by rw [hr]; rfl)] at hs
        cases hs
    refine ⟨n + 1,u,r,hq,fun f hf => ?_⟩
    obtain ⟨f,rfl⟩ : ∃ k, f = k + 1 := ⟨f - 1,by omega⟩
    rw [alone_step hnone hs]
    exact hall f (by omega)

end Program

end Interleaving
