import Varmq.Interleaving.World

namespace Interleaving

variable {S L C : Type} {P : Program S L C} {ok : Guard S L C} {w₀ w w' : World S L} {i : ℕ} {l : L}
  {p q : S → L → Prop}

-- On the way to w there was a state in which p held of it and of thread i.
def Seen (P : Program S L C) (ok : Guard S L C) (w₀ w : World S L) (i : ℕ) (p : S → L → Prop) :
    Prop :=
  ∃ u l, P.Reach ok w₀ u ∧ P.Reach ok u w ∧ u.threads[i]? = some l ∧ p u.shared l

theorem Seen.now (h : P.Reach ok w₀ w) (hi : w.threads[i]? = some l) (hp : p w.shared l) :
    Seen P ok w₀ w i p := ⟨w,l,h,.refl,hi,hp⟩

theorem Seen.tail {e : Event L C} (h : Seen P ok w₀ w i p) (hok : ok w e = true)
    (hn : P.next w e = some w') : Seen P ok w₀ w' i p := by
  obtain ⟨u,l,h1,h2,h3,h4⟩ := h
  exact ⟨u,l,h1,.tail h2 hok hn,h3,h4⟩

theorem Seen.imp (h : Seen P ok w₀ w i p)
    (hpq : ∀ u l, P.Reach ok w₀ u → u.threads[i]? = some l → p u.shared l → q u.shared l) :
    Seen P ok w₀ w i q := by
  obtain ⟨u,l,h1,h2,h3,h4⟩ := h
  exact ⟨u,l,h1,h2,h3,hpq u l h1 h3 h4⟩

end Interleaving
