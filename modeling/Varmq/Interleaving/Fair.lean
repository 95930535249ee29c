import Mathlib.Data.Nat.Find
import Varmq.Interleaving.World

namespace Interleaving

variable {S L C : Type} (P : Program S L C) (w₀ : World S L)

-- At none nothing happens: a run that ends is one that stays as it is.
structure Run where
  world : ℕ → World S L
  event : ℕ → Option (Event L C)
  starts : world 0 = w₀
  stays : ∀ i, event i = none → world (i + 1) = world i
  steps : ∀ i e, event i = some e → P.next (world i) e = some (world (i + 1))

def Enabled (w : World S L) (j : ℕ) : Prop :=
  ∃ l c s' l' new, w.threads[j]? = some l ∧ P.step w.shared l c = some (s',l',new)

variable {P w₀}

namespace Run

variable (r : Run P w₀)

def Acts (k j : ℕ) : Prop := ∃ c, r.event k = some (.act j c)

-- Whoever can always go on does so in the end.
def Fair : Prop := ∀ i j, (∀ k, i ≤ k → Enabled P (r.world k) j) → ∃ k, i ≤ k ∧ r.Acts k j

def Obeys (ok : Guard S L C) : Prop := ∀ i e, r.event i = some e → ok (r.world i) e = true

theorem reach_of_obeys {ok : Guard S L C} (h : r.Obeys ok) (i : ℕ) : P.Reach ok w₀ (r.world i) := by
  induction i with
  | zero =>
    rw [r.starts]
    exact .refl
  | succ i ih =>
    cases he : r.event i with
    | none =>
      rw [r.stays i he]
      exact ih
    | some e => exact .tail ih (h i e he) (r.steps i e he)

theorem reach (i : ℕ) : P.Reach always w₀ (r.world i) := r.reach_of_obeys (fun _ _ _ => rfl) i

variable {r}

theorem keeps_thread {i j : ℕ} {l : L} (h : (r.world i).threads[j]? = some l) (ha : ¬r.Acts i j) :
    (r.world (i + 1)).threads[j]? = some l := by
  cases he : r.event i with
  | none =>
    rw [r.stays i he]
    exact h
  | some e =>
    rcases Program.next_cases (r.steps i e he) with ⟨m,rfl,-,hw⟩ | ⟨xs,m,ys,c,s',m',new,rfl,hts,-,hw⟩
    · rw [hw]
      obtain ⟨hj,-⟩ := List.getElem?_eq_some_iff.mp h
      rw [List.getElem?_append_left hj]
      exact h
    · rw [hw]
      have hj : j ≠ xs.length := by
        rintro rfl
        exact ha ⟨c,he⟩
      rw [hts] at h
      exact (getElem?_other hj h).1

-- What holds until j acts or the goal is reached, and lets j act as long as it holds,
-- ends in one of the two.
theorem acts_or (goal : World S L → Prop) {I : World S L → Prop} {i j : ℕ} (hfair : r.Fair) (hi : I (r.world i))
    (hkeep : ∀ k, i ≤ k → I (r.world k) → ¬r.Acts k j →
      I (r.world (k + 1)) ∨ goal (r.world (k + 1)))
    (hen : ∀ k, I (r.world k) → Enabled P (r.world k) j) :
    ∃ k, i ≤ k ∧ ((I (r.world k) ∧ r.Acts k j) ∨ goal (r.world k)) := by
  by_contra hno
  have hall : ∀ d, I (r.world (i + d)) := by
    intro d
    induction d with
    | zero => exact hi
    | succ d ih =>
      have ha : ¬r.Acts (i + d) j := fun ha => hno ⟨i + d,by omega,.inl ⟨ih,ha⟩⟩
      rcases hkeep (i + d) (by omega) ih ha with h | h
      · exact h
      · exact absurd ⟨i + d + 1,by omega,.inr h⟩ hno
  have hI : ∀ k, i ≤ k → I (r.world k) := by
    intro k hk
    obtain ⟨d,rfl⟩ := Nat.exists_eq_add_of_le hk
    exact hall d
  obtain ⟨k,hk,ha⟩ := hfair i j (fun k hk => hen k (hI k hk))
  exact hno ⟨k,hk,.inl ⟨hI k hk,ha⟩⟩

theorem acts_of_kept {I : World S L → Prop} {i j : ℕ} (hfair : r.Fair) (hi : I (r.world i))
    (hkeep : ∀ k, i ≤ k → I (r.world k) → ¬r.Acts k j → I (r.world (k + 1)))
    (hen : ∀ k, I (r.world k) → Enabled P (r.world k) j) :
    ∃ k, i ≤ k ∧ I (r.world k) ∧ r.Acts k j := by
  obtain ⟨k,hk,h | h⟩ := acts_or (fun _ => False) hfair hi
    (fun k hk hI ha => .inl (hkeep k hk hI ha)) hen
  · exact ⟨k,hk,h⟩
  · exact h.elim

theorem acts_step {i j : ℕ} {l : L} (h : (r.world i).threads[j]? = some l) (ha : r.Acts i j) :
    ∃ c s' l' new, P.step (r.world i).shared l c = some (s',l',new) ∧
      (r.world (i + 1)).shared = s' ∧ (r.world (i + 1)).threads[j]? = some l' := by
  obtain ⟨c,he⟩ := ha
  rcases Program.next_cases (r.steps i _ he) with ⟨m,hm,-⟩ | ⟨xs,m,ys,c',s',l',new,hm,hts,hs,hw⟩
  · cases hm
  · cases hm
    rw [hts,getElem?_split] at h
    cases h
    exact ⟨c,s',l',new,hs,by rw [hw],by rw [hw]; exact getElem?_split _ _ _⟩

-- What no thread starts with comes to hold of it by a step of its own.
theorem comes_by_act {p : L → Prop} (hstart : ∀ l ∈ w₀.threads, ¬p l)
    (hcall : ∀ s l, P.entry s l = true → ¬p l)
    (hnew : ∀ s l c s' l' new, P.step s l c = some (s',l',new) → ∀ t ∈ new, ¬p t) {i j : ℕ} {l : L}
    (h : (r.world i).threads[j]? = some l) (hp : p l) :
    ∃ k < i, r.Acts k j ∧ ∃ l₀ l', (r.world k).threads[j]? = some l₀ ∧ ¬p l₀ ∧
      (r.world (k + 1)).threads[j]? = some l' ∧ p l' := by
  induction i generalizing l with
  | zero =>
    rw [r.starts] at h
    exact absurd hp (hstart l (List.mem_of_getElem? h))
  | succ i ih =>
    have hearlier : ∀ {l}, (r.world i).threads[j]? = some l → p l →
        ∃ k < i + 1, r.Acts k j ∧ ∃ l₀ l', (r.world k).threads[j]? = some l₀ ∧ ¬p l₀ ∧
          (r.world (k + 1)).threads[j]? = some l' ∧ p l' := by
      intro l hl hp
      obtain ⟨k,hk,hrest⟩ := ih hl hp
      exact ⟨k,by omega,hrest⟩
    cases he : r.event i with
    | none =>
      rw [r.stays i he] at h
      exact hearlier h hp
    | some e =>
      rcases Program.next_cases (r.steps i e he) with
        ⟨m,rfl,hm,hw⟩ | ⟨xs,m,ys,c,s',m',new,rfl,hts,hs,hw⟩
      · rw [hw] at h
        rcases Nat.lt_or_ge j (r.world i).threads.length with hj | hj
        · exact hearlier (by rwa [List.getElem?_append_left hj] at h) hp
        · rw [List.getElem?_append_right hj] at h
          exact absurd hp (hcall _ l (List.mem_singleton.mp (List.mem_of_getElem? h) ▸ hm))
      · have h' := h
        rw [hw] at h'
        rcases Nat.lt_trichotomy j xs.length with hj | rfl | hj
        · rw [List.getElem?_append_left hj] at h'
          exact hearlier (by rwa [hts,List.getElem?_append_left hj]) hp
        · have hm : (r.world i).threads[xs.length]? = some m := by rw [hts,getElem?_split]
          by_cases hpm : p m
          · exact hearlier hm hpm
          · exact ⟨i,Nat.lt_succ_self i,⟨c,he⟩,m,l,hm,hpm,h,hp⟩
        · obtain ⟨d,rfl⟩ : ∃ d, j = xs.length + (d + 1) := ⟨j - xs.length - 1,by omega⟩
          rw [List.getElem?_append_right (by omega),Nat.add_sub_cancel_left,
            List.getElem?_cons_succ] at h'
          rcases Nat.lt_or_ge d ys.length with hd | hd
          · rw [List.getElem?_append_left hd] at h'
            refine hearlier ?_ hp
            rw [hts,List.getElem?_append_right (by omega),Nat.add_sub_cancel_left,
              List.getElem?_cons_succ,h']
          · rw [List.getElem?_append_right hd] at h'
            exact absurd hp (hnew _ _ _ _ _ _ hs l (List.mem_of_getElem? h'))

-- Whoever goes down with each of its own steps and stays when others step does so finitely often.
theorem acts_finitely {A : Type} {rel : A → A → Prop} (hwf : WellFounded rel) (rank : World S L → A)
    {I : World S L → Prop} {i j : ℕ} (hi : I (r.world i))
    (hother : ∀ k, I (r.world k) → ¬r.Acts k j →
      I (r.world (k + 1)) ∧ rank (r.world (k + 1)) = rank (r.world k))
    (hown : ∀ k, I (r.world k) → r.Acts k j →
      I (r.world (k + 1)) ∧ rel (rank (r.world (k + 1))) (rank (r.world k))) :
    ∃ n, ∀ k, n ≤ k → ¬r.Acts k j := by
  induction ha : rank (r.world i) using hwf.induction generalizing i with
  | h a ih =>
    by_cases hex : ∃ d, r.Acts (i + d) j
    · have hlater : ∀ d, (∀ d' < d, ¬r.Acts (i + d') j) →
          I (r.world (i + d)) ∧ rank (r.world (i + d)) = a := by
        intro d hd
        induction d with
        | zero => exact ⟨hi,ha⟩
        | succ d ihd =>
          obtain ⟨hI,hr⟩ := ihd fun d' hlt => hd d' (by omega)
          obtain ⟨hI',hr'⟩ := hother (i + d) hI (hd d (by omega))
          exact ⟨hI',hr'.trans hr⟩
      classical
      obtain ⟨hI,hr⟩ := hlater (Nat.find hex) fun d' hlt => Nat.find_min hex hlt
      obtain ⟨hI',hlt⟩ := hown _ hI (Nat.find_spec hex)
      exact ih _ (hr ▸ hlt) hI' rfl
    · refine ⟨i,fun k hk hact => hex ?_⟩
      obtain ⟨d,rfl⟩ := Nat.exists_eq_add_of_le hk
      exact ⟨d,hact⟩

end Run

theorem run_always {ok : Guard S L C} {es : List (Event L C)} {w w' : World S L}
    (h : P.run ok w es = some w') : P.run always w es = some w' := by
  induction es generalizing w with
  | nil => exact h
  | cons e es ih =>
    simp only [Program.run,always,if_true] at h ⊢
    split at h
    · cases hn : P.next w e with
      | none => simp [hn] at h
      | some v =>
        rw [hn] at h
        exact ih h
    · cases h

def after (P : Program S L C) : World S L → List (Event L C) → ℕ → World S L
  | w, [], _ => w
  | w, _ :: _, 0 => w
  | w, e :: es, i + 1 =>
      match P.next w e with
      | none => w
      | some w' => after P w' es i

theorem after_run {es : List (Event L C)} {w w' : World S L} (h : P.run always w es = some w') :
    after P w es 0 = w ∧ (∀ i, es[i]? = none → after P w es i = w') ∧
      ∀ i e, es[i]? = some e → P.next (after P w es i) e = some (after P w es (i + 1)) := by
  induction es generalizing w with
  | nil =>
    simp only [Program.run,Option.some.injEq] at h
    exact ⟨rfl,fun _ _ => h,fun i e he => by cases he⟩
  | cons e es ih =>
    simp only [Program.run,always,if_true] at h
    cases hn : P.next w e with
    | none => simp [hn] at h
    | some v =>
      rw [hn] at h
      obtain ⟨h0,hend,hstep⟩ := ih h
      refine ⟨rfl,?_,?_⟩
      · intro i hi
        cases i with
        | zero => cases hi
        | succ i => simpa [after,hn] using hend i (by simpa using hi)
      · intro i d hi
        cases i with
        | zero =>
          simp only [List.getElem?_cons_zero,Option.some.injEq] at hi
          subst hi
          simp [after,hn,h0]
        | succ i => simpa [after,hn] using hstep i d (by simpa using hi)

def Run.ofEvents {w w' : World S L} (es : List (Event L C)) (h : P.run always w es = some w') :
    Run P w where
  world := after P w es
  event i := es[i]?
  starts := (after_run h).1
  stays i hi := by
    have hnext : es[i + 1]? = none := by
      rw [List.getElem?_eq_none_iff] at hi ⊢
      omega
    rw [(after_run h).2.1 i hi,(after_run h).2.1 (i + 1) hnext]
  steps := (after_run h).2.2

theorem Run.obeys_ofEvents {ok : Guard S L C} {w w' : World S L} {es : List (Event L C)}
    (h : P.run ok w es = some w') : (Run.ofEvents es (run_always h)).Obeys ok := by
  have hall : ∀ i e, es[i]? = some e → ok (after P w es i) e = true := by
    induction es generalizing w with
    | nil => exact fun i e he => by cases he
    | cons e es ih =>
      simp only [Program.run] at h
      split at h
      · rename_i hok
        cases hn : P.next w e with
        | none => simp [hn] at h
        | some v =>
          rw [hn] at h
          intro i d hi
          cases i with
          | zero =>
            cases hi
            exact hok
          | succ i =>
            simp only [after,hn]
            exact ih h i d hi
      · cases h
  exact hall

theorem Run.fair_ofEvents {w w' : World S L} {es : List (Event L C)}
    (h : P.run always w es = some w') (hend : ∀ l ∈ w'.threads, ∀ c, P.step w'.shared l c = none) :
    (Run.ofEvents es h).Fair := by
  intro i j hj
  have hlast : (Run.ofEvents es h).world (i + es.length) = w' :=
    (after_run h).2.1 (i + es.length) (by rw [List.getElem?_eq_none_iff]; omega)
  obtain ⟨l,c,s',l',new,hl,hs⟩ := hj (i + es.length) (by omega)
  rw [hlast] at hl hs
  rw [hend l (List.mem_of_getElem? hl) c] at hs
  cases hs

end Interleaving
