import Varmq.Stats.Sound

namespace Varmq.Stats

open Interleaving Topics

variable {s s' : Shared} {l l' t : Thread} {new xs ys ts : List Thread} {j : Job} {c : Choice}
  {e i v : ℕ} {st : Park.Stamp} {wk : Worker}

-- The workers whose parked jobs a Purge has not dropped yet.
def undropped (s : Shared) : PurgePc → List ℕ
  | .bump => List.range s.workers.length
  | .hooks => List.range s.workers.length
  | .drop ws => ws
  | .dropClose _ _ ws => ws
  | .dropTaken _ _ _ ws => ws
  | _ => []

structure Sweeping (e i : ℕ) (s : Shared) (ts : List Thread) : Prop where
  sound : Sound s ts
  bumped : e ≤ s.gen
  swept : ∃ pc, ts[i]? = some (.purge pc) ∧ ∀ v wk, s.workers[v]? = some wk → v ∉ undropped s pc →
    ∀ b ∈ wk.parked.batches, ∀ j ∈ b.jobs, e ≤ b.stamp.epoch

-- Nothing older is parked: a batch looks at the counter under the park lock.
theorem epochs_act (h : Sound s ts) (hl : l ∈ ts) (he : e ≤ s.gen)
    (hs : program.step s l c = some (s',l',new)) (hv : s'.workers[v]? = some wk)
    (hold : ∀ old, s.workers[v]? = some old → ∀ b ∈ old.parked.batches, ∀ j ∈ b.jobs, e ≤ b.stamp.epoch) :
    ∀ b ∈ wk.parked.batches, ∀ j ∈ b.jobs, e ≤ b.stamp.epoch := by
  obtain ⟨hkept,hbound⟩ := step_reparks hs
  cases hw : s.workers[v]? with
  | none =>
    intro b hb
    rw [hbound v wk hv hw] at hb
    cases hb
  | some old =>
    obtain ⟨wk',hv',hr⟩ := hkept v old hw
    cases hv.symm.trans hv'
    refine hr.all (R := fun st _ => e ≤ st.epoch) (fun _ _ _ h => h) (fun st hst hp hstale j hj => ?_) (hold old hw)
    have hg := (h.tagged.hands l hl st hst j hj).1.parks hp
    have hsame : s.gen = st.epoch := by
      by_contra hne
      rw [(stale_iff hg).mpr hne] at hstale
      cases hstale
    exact hsame ▸ he

theorem undropped_mono {pc : PurgePc} (hlen : s.workers.length ≤ s'.workers.length)
    (hv : v ∉ undropped s' pc) : v ∉ undropped s pc := by
  cases pc with
  | bump | hooks =>
    simp only [undropped,List.mem_range] at hv ⊢
    omega
  | _ => exact hv

-- A worker the Purge need not visit any more was visited before, or is the one just visited.
theorem purge_visits {pc pc' : PurgePc} (h : purgeStep s pc = some (s',pc'))
    (hv : s'.workers[v]? = some wk) (hn : v ∉ undropped s' pc') :
    v ∉ undropped s pc ∨ ∃ old, s.workers[v]? = some old ∧ wk.parked = (Park.dropParked 0 old.parked).2 := by
  have hlt := (List.getElem?_eq_some_iff.mp hv).1
  cases pc with
  | bump | hooks =>
    cases h
    exact absurd (List.mem_range.mpr hlt) hn
  | drop ws =>
    cases ws with
    | nil =>
      cases h
      exact .inl hn
    | cons w ws =>
      simp only [purgeStep] at h
      split at h
      · cases h
      · rename_i old hw
        split at h
        · cases h
        · cases h
          by_cases he : v = w
          · subst he
            simp only [Shared.setWorker] at hv hlt
            rw [List.getElem?_set_self (by simpa using hlt)] at hv
            cases hv
            exact .inr ⟨old,hw,rfl⟩
          · exact .inl fun hmem => (List.mem_cons.mp hmem).elim he hn
  | dropClose w jobs ws =>
    cases jobs with
    | nil =>
      simp only [purgeStep] at h
      split at h <;> cases h
      exact .inl hn
    | cons a js =>
      cases h
      exact .inl hn
  | dropTaken w a js ws =>
    cases h
    exact .inl hn
  | values =>
    cases h
    exact .inl hn
  | close jobs => cases jobs <;> cases h <;> exact .inl hn
  | returned => cases h

theorem length_mono (h : program.step s l c = some (s',l',new)) :
    s.workers.length ≤ s'.workers.length := by
  by_contra hlt
  have hlast : s.workers[s'.workers.length]? = some s.workers[s'.workers.length] :=
    List.getElem?_eq_getElem (by omega)
  obtain ⟨wk,hw,-⟩ := (step_reparks h).kept _ _ hlast
  exact absurd (List.getElem?_eq_some_iff.mp hw).1 (Nat.lt_irrefl _)

theorem Sweeping.act (h : Sweeping e i s (xs ++ l :: ys)) (hs : program.step s l c = some (s',l',new)) :
    Sweeping e i s' (xs ++ l' :: (ys ++ new)) := by
  have hl : l ∈ xs ++ l :: ys := by simp
  obtain ⟨pc,hpc,hswept⟩ := h.swept
  refine ⟨h.sound.act hs,by rw [(step_moved hs).gen]; exact h.bumped.trans (Nat.le_add_right _ _),?_⟩
  by_cases hi : i = xs.length
  · subst hi
    rw [getElem?_split] at hpc
    cases hpc
    obtain ⟨⟨u,pc'⟩,hu,hq⟩ := Option.map_eq_some_iff.mp hs
    cases hq
    refine ⟨pc',getElem?_split xs _ _,fun v wk hv hn => ?_⟩
    rcases purge_visits hu hv hn with hold | ⟨old,hold,hdrop⟩
    · exact epochs_act h.sound hl h.bumped hs hv fun old hw => hswept v old hw hold
    · intro b hb j hj
      rw [hdrop] at hb
      obtain ⟨hb,hne⟩ := List.mem_filter.mp hb
      have hg := (h.sound.tagged.parks old (List.mem_of_getElem? hold) b hb j hj).1
      simp [hg] at hne
  · refine ⟨pc,(getElem?_other hi hpc).1,fun v wk hv hn => ?_⟩
    exact epochs_act h.sound hl h.bumped hs hv fun old hw =>
      hswept v old hw (undropped_mono (length_mono hs) hn)

theorem Sweeping.call (h : Sweeping e i s ts) (he : entry s l = true) : Sweeping e i s (ts ++ [l]) := by
  obtain ⟨pc,hpc,hswept⟩ := h.swept
  refine ⟨h.sound.call he,h.bumped,pc,?_,hswept⟩
  rw [List.getElem?_append_left (List.getElem?_eq_some_iff.mp hpc).1,hpc]

theorem bump_next {w w₂ : World Shared Thread} (hi : w.threads[i]? = some (.purge .bump))
    (hn : program.next w (.act i c) = some w₂) :
    w₂.shared = { w.shared with gen := w.shared.gen + 1 } ∧ w₂.threads = w.threads.set i (.purge .hooks) := by
  simp only [Program.next,hi] at hn
  cases hn
  exact ⟨rfl,by simp⟩

theorem sweeping_bump {w w₂ : World Shared Thread} (h : reached w)
    (hi : w.threads[i]? = some (.purge .bump)) (hn : program.next w (.act i c) = some w₂) :
    Sweeping (w.shared.gen + 1) i w₂.shared w₂.threads := by
  obtain ⟨hshared,hthreads⟩ := bump_next hi hn
  refine ⟨reached_sound (.tail h rfl hn),by rw [hshared],.hooks,?_,fun v wk hv hno => ?_⟩
  · rw [hthreads,List.getElem?_set_self (List.getElem?_eq_some_iff.mp hi).1]
  · exact absurd (List.mem_range.mpr (List.getElem?_eq_some_iff.mp hv).1) hno

-- Its walk over the workers is done.
def walked : PurgePc → Bool
  | .values => true
  | .close _ => true
  | .returned => true
  | _ => false

theorem purge_empties_parked {w w₂ w₃ : World Shared Thread} {pc : PurgePc} (h : reached w)
    (hi : w.threads[i]? = some (.purge .bump)) (hn : program.next w (.act i c) = some w₂)
    (hr : program.Reach always w₂ w₃) (hp : w₃.threads[i]? = some (.purge pc)) (hd : walked pc = true) :
    ∀ wk ∈ w₃.shared.workers, ∀ b ∈ wk.parked.batches, ∀ j ∈ b.jobs, w.shared.gen < b.stamp.epoch := by
  have hsweep : Sweeping (w.shared.gen + 1) i w₃.shared w₃.threads :=
    Program.reach_invariant (I := Sweeping (w.shared.gen + 1) i) (sweeping_bump h hi hn)
      (fun _ _ _ hi _ he => hi.call he) (fun _ _ _ _ _ _ _ _ hi _ hs => hi.act hs) hr
  obtain ⟨pc',hpc,hswept⟩ := hsweep.swept
  cases hp.symm.trans hpc
  intro wk hwk b hb j hj
  obtain ⟨v,hv⟩ := List.getElem?_of_mem hwk
  refine hswept v wk hv ?_ b hb j hj
  cases pc <;> first | exact List.not_mem_nil | cases hd

def purging (i : ℕ) (p : PurgePc → Bool) (w : World Shared Thread) : Bool :=
  match w.threads[i]? with
  | some (.purge pc) => p pc
  | _ => false

theorem purging_thread {p : PurgePc → Bool} {w : World Shared Thread} (h : purging i p w = true) :
    ∃ pc, w.threads[i]? = some (.purge pc) ∧ p pc = true := by
  unfold purging at h
  split at h
  · rename_i pc hpc
    exact ⟨pc,hpc,h⟩
  · cases h

def bumping : PurgePc → Bool
  | .bump => true
  | _ => false

theorem bumping_bump {pc : PurgePc} (h : bumping pc = true) : pc = .bump := by
  cases pc <;> first | rfl | cases h

-- The walk is over before a batch stamped after the bump is parked.
def parkedLater : List (Event Thread Choice) :=
  [.act 2 .go,.act 2 .go,.act 2 .go,.act 2 .go,
    .call (.dispatch 0 .plan),.act 3 (.batch 2),.act 3 .go,.act 3 .go,.act 3 .go,.act 3 .go,.act 3 .go,
    .act 3 .go,.act 3 .go,.act 3 .go,.act 3 .go,
    .act 4 .go,.act 4 .go,.act 4 .go,.act 4 .go,.act 4 .go,.act 4 .go,.act 4 .go,
    .call (.setHalting 0 true false),.act 5 .go,.act 4 .go,.act 4 .go,.act 4 .go]

def twoStored : List (Event Thread Choice) :=
  [.call (.bind false),.act 0 .go,.call (.add 7 1 .count),.act 1 .go,.act 1 .go,.act 1 .go,
    .act 1 .go,.act 1 .go,.act 1 .go,.call (.purge .bump)]

theorem purge_empties_parked_later : ∃ w₂ w₃, program.Reach always w₂ w₃ ∧ 0 < w₃.shared.parkedJobs.length ∧
    ∀ wk ∈ w₃.shared.workers, ∀ b ∈ wk.parked.batches, ∀ j ∈ b.jobs, 0 < b.stamp.epoch := by
  have hrun : ((program.run always init twoStored).any fun w =>
      (purging 2 bumping w && decide (w.shared.gen = 0)) &&
      (program.next w (.act 2 .go)).any fun w₂ => (program.run always w₂ parkedLater).any fun w₃ =>
        purging 2 walked w₃ && decide (0 < w₃.shared.parkedJobs.length)) = true := by decide
  obtain ⟨w,hw,hrun⟩ := (Option.any_eq_true _ _).mp hrun
  simp only [Bool.and_eq_true,decide_eq_true_eq] at hrun
  obtain ⟨⟨hi,hgen⟩,hrun⟩ := hrun
  obtain ⟨w₂,hw₂,hrun⟩ := (Option.any_eq_true _ _).mp hrun
  obtain ⟨w₃,hw₃,hrun⟩ := (Option.any_eq_true _ _).mp hrun
  simp only [Bool.and_eq_true,decide_eq_true_eq] at hrun
  obtain ⟨pc,hi,hpc⟩ := purging_thread hi
  cases bumping_bump hpc
  obtain ⟨pc,hp,hd⟩ := purging_thread hrun.1
  refine ⟨w₂,w₃,Program.reach_of_run hw₃,hrun.2,?_⟩
  rw [← hgen]
  exact purge_empties_parked (Program.reach_of_run hw) hi hw₂ (Program.reach_of_run hw₃) hp hd

end Varmq.Stats
