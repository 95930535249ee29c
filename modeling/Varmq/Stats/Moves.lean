import Varmq.Stats.Balance

namespace Varmq.Stats

open Interleaving Topics

variable {s s' : Shared} {l l' : Thread} {new : List Thread} {j : Job} {w : ℕ} {c : Choice}
  {st : Park.Stamp}

def bumps : Thread → ℕ
  | .purge .bump => 1
  | _ => 0

def runs : Thread → List Job
  | .batch _ _ (.work _ j _ _) => [j]
  | _ => []

-- The job it has run and still has to mark or close.
def finishing : Thread → List Job
  | .batch _ _ (.finish _ j _ _) => [j]
  | .batch _ _ (.close _ j _ _) => [j]
  | _ => []

-- The job its next step closes.
def closes : Thread → List Job
  | .add _ _ (.close j) => [j]
  | .batch _ _ (.purged _ j _ _) => [j]
  | .batch _ _ (.close _ j _ _) => [j]
  | .batch _ _ (.parkClose (j :: _) _) => [j]
  | .purge (.dropClose _ (j :: _) _) => [j]
  | .purge (.close (j :: _)) => [j]
  | .close j false => [j]
  | _ => []

-- The job it counts out without having run it.
def skips : Thread → List Job
  | .batch _ _ (.skip _ j _ _) => [j]
  | .batch _ _ (.parkTaken j _ _) => [j]
  | .purge (.dropTaken _ j _ _) => [j]
  | _ => []

def closing : Thread → List Job
  | .purge (.close jobs) => jobs
  | _ => []

inductive Drops (s : Shared) (l l' : Thread) (c : Choice) : List Job → Prop
  | none : Drops s l l' c []
  | took {w k : ℕ} {sole : Bool} {buf : List Job} {r : MemRun} {j : Job}
      (hl : l = .dispatch w (.took sole k buf r j)) (hj : c = .no ∨ s.status j.id = .closed) :
      Drops s l l' c [j]
  | skipped {j : Job} (hl : skips l = [j]) : Drops s l l' c [j]
  | values (hl : l = .purge .values) (hl' : closing l' = s.queue) : Drops s l l' c s.queue

inductive Restated (s s' : Shared) (l l' : Thread) (n : ℕ) : Prop
  | same (h : s'.status n = s.status n)
  | made (hl : plain l = false) (hn : n = s.made) (h : s'.status n = .created)
  | queued (h : s.status n = .created) (h' : s'.status n = .queued)
  | closed {j : Job} (hj : j ∈ closes l) (hn : j.id = n) (h : s.status n ≠ .processing)
      (h' : s'.status n = .closed)
  | processing {w i : ℕ} {st : Park.Stamp} {j : Job} {js : List Job} {r : MemRun}
      (hl : l = .batch w st (.start i j js r)) (hl' : l' = .batch w st (.work i j js r))
      (hn : j.id = n) (h : s.status n ≠ .closed) (h' : s'.status n = .processing)
  | finished {j : Job} (hj : j ∈ finishing l) (hn : j.id = n) (h' : s'.status n = .finished)

-- What a step does to the counter, the ghost lists and the statuses.
structure Moved (s : Shared) (l : Thread) (s' : Shared) (l' : Thread) (c : Choice) : Prop where
  gen : s'.gen = s.gen + bumps l
  kept : plain l = true → s'.accepted = s.accepted ∧ s'.made = s.made
  ran : s'.ran = s.ran ++ runs l
  dropped : ∃ d, s'.dropped = s.dropped ++ d ∧ Drops s l l' c d
  status : ∀ n, Restated s s' l l' n
  shut : ∀ j ∈ closes l, s.status j.id ≠ .processing → s'.status j.id = .closed
  skips : ∀ j ∈ skips l', j ∈ closes l ∧ j ∈ hand l ∨ s'.status j.id = .closed
  finishing : ∀ j ∈ finishing l', j ∈ runs l ∨ j ∈ finishing l

-- Only what the thread itself holds, the parked jobs, the counts or the storage change.
structure Untouched (s s' : Shared) : Prop where
  gen : s'.gen = s.gen
  accepted : s'.accepted = s.accepted
  made : s'.made = s.made
  ran : s'.ran = s.ran
  dropped : s'.dropped = s.dropped

theorem untouched_refl (s : Shared) : Untouched s s := ⟨rfl,rfl,rfl,rfl,rfl⟩

theorem Untouched.moved (h : Untouched s s') (hs : s'.status = s.status) (hb : bumps l = 0)
    (hr : runs l = []) (hc : closes l = []) (hk : ∀ j ∈ skips l', s.status j.id = .closed)
    (hf : finishing l' = []) : Moved s l s' l' c where
  gen := by rw [h.gen,hb,Nat.add_zero]
  kept _ := ⟨h.accepted,h.made⟩
  ran := by rw [h.ran,hr,List.append_nil]
  dropped := ⟨[],by rw [h.dropped,List.append_nil],.none⟩
  status n := .same (congrFun hs n)
  shut j hj := by rw [hc] at hj; cases hj
  skips j hj := .inr (by rw [hs]; exact hk j hj)
  finishing j hj := by rw [hf] at hj; cases hj

theorem closeable_none {st : Jobs.Status} : Jobs.closeable st = none ↔ st ≠ .processing ∧ st ≠ .closed := by
  cases st <;> simp [Jobs.closeable]

theorem notClosed_none {st : Jobs.Status} : Jobs.notClosed st = none ↔ st ≠ .closed := by
  cases st <;> simp [Jobs.notClosed]

theorem close_untouched (s : Shared) (j : Job) : Untouched s (s.close j) := by
  unfold Shared.close
  split <;> exact ⟨rfl,rfl,rfl,rfl,rfl⟩

theorem close_status (s : Shared) (j : Job) (n : ℕ) :
    (s.close j).status n = s.status n ∨
      j.id = n ∧ s.status n ≠ .processing ∧ (s.close j).status n = .closed := by
  unfold Shared.close
  split
  · rename_i h
    by_cases hn : n = j.id
    · subst hn
      exact .inr ⟨rfl,(closeable_none.mp h).1,by simp [Shared.changeStatus]⟩
    · exact .inl (by simp [Shared.changeStatus,hn])
  · exact .inl rfl

theorem close_shut (h : s.status j.id ≠ .processing) : (s.close j).status j.id = .closed := by
  unfold Shared.close
  split
  · simp [Shared.changeStatus]
  · rename_i hn
    rw [closeable_none,not_and_not_right] at hn
    exact hn h

theorem close_moved (hc : closes l = [j]) (hb : bumps l = 0) (hr : runs l = [])
    (hk : ∀ i ∈ skips l', i = j ∧ j ∈ hand l) (hf : finishing l' = []) : Moved s l (s.close j) l' c where
  gen := by rw [(close_untouched s j).gen,hb,Nat.add_zero]
  kept _ := ⟨(close_untouched s j).accepted,(close_untouched s j).made⟩
  ran := by rw [(close_untouched s j).ran,hr,List.append_nil]
  dropped := ⟨[],by rw [(close_untouched s j).dropped,List.append_nil],.none⟩
  status n := by
    rcases close_status s j n with h | ⟨hn,h,h'⟩
    · exact .same h
    · exact .closed (by simp [hc]) hn h h'
  shut i hi hne := by
    rw [hc] at hi
    cases List.mem_singleton.mp hi
    exact close_shut hne
  skips i hi := by
    obtain ⟨rfl,hh⟩ := hk i hi
    exact .inl ⟨by simp [hc],hh⟩
  finishing i hi := by rw [hf] at hi; cases hi

theorem dropped_moved {d : List Job} (hgen : s'.gen = s.gen) (hacc : s'.accepted = s.accepted)
    (hmade : s'.made = s.made) (hran : s'.ran = s.ran) (hstatus : s'.status = s.status)
    (hd : s'.dropped = s.dropped ++ d) (hdrops : Drops s l l' c d) (hb : bumps l = 0)
    (hr : runs l = []) (hc : closes l = []) (hk : skips l' = []) (hf : finishing l' = []) :
    Moved s l s' l' c where
  gen := by rw [hgen,hb,Nat.add_zero]
  kept _ := ⟨hacc,hmade⟩
  ran := by rw [hran,hr,List.append_nil]
  dropped := ⟨d,hd,hdrops⟩
  status n := .same (congrFun hstatus n)
  shut i hi := by rw [hc] at hi; cases hi
  skips i hi := by rw [hk] at hi; cases hi
  finishing i hi := by rw [hf] at hi; cases hi

theorem add_moved {m n n' : ℕ} {pc pc' : AddPc} (h : addStep s m n pc c = some (s',n',pc')) :
    Moved s (.add m n pc) s' (.add m n' pc') c := by
  have hplain : plain (.add m n pc) = true → s'.accepted = s.accepted ∧ s'.made = s.made :=
    fun hp => by cases hp
  have hskips : ∀ j ∈ skips (.add m n' pc'), j ∈ closes (.add m n pc) ∧ j ∈ hand (.add m n pc) ∨
      s'.status j.id = .closed :=
    fun j hj => by cases hj
  have hfinish : ∀ j ∈ finishing (.add m n' pc'), j ∈ runs (.add m n pc) ∨ j ∈ finishing (.add m n pc) :=
    fun j hj => by cases hj
  cases pc with
  | count =>
    cases h
    refine ⟨rfl,hplain,(List.append_nil _).symm,⟨[],(List.append_nil _).symm,.none⟩,fun i => ?_,
      (fun j hj => by cases hj),hskips,hfinish⟩
    by_cases hi : i = s.made
    · subst hi
      exact .made rfl rfl (by simp)
    · exact .same (by simp [hi])
  | store j =>
    cases c <;> cases h <;>
      exact ⟨rfl,hplain,(List.append_nil _).symm,⟨[],(List.append_nil _).symm,.none⟩,(fun i => .same rfl),
        (fun j hj => by cases hj),hskips,hfinish⟩
  | markQueued j =>
    simp only [addStep,Option.some.injEq,Prod.mk.injEq] at h
    obtain ⟨rfl,-⟩ := h
    have hsame := markQueued_same s j
    have hgen : (s.markQueued j).gen = s.gen := by
      unfold Shared.markQueued
      split <;> rfl
    refine ⟨hgen,hplain,by rw [hsame.ran]; exact (List.append_nil _).symm,
      ⟨[],by rw [hsame.dropped,List.append_nil],.none⟩,fun i => ?_,(fun j hj => by cases hj),hskips,hfinish⟩
    by_cases hi : i = j.id
    · subst hi
      unfold Shared.markQueued
      split
      · rename_i hc
        exact .queued hc (by simp [Shared.changeStatus])
      · exact .same rfl
    · refine .same ?_
      unfold Shared.markQueued
      split
      · simp [Shared.changeStatus,hi]
      · rfl
  | close j =>
    cases h
    exact close_moved rfl rfl rfl (fun i hi => by cases hi) rfl
  | uncount =>
    simp only [addStep,Option.some.injEq,Prod.mk.injEq] at h
    obtain ⟨rfl,-⟩ := h
    exact ⟨rfl,hplain,(List.append_nil _).symm,⟨[],(List.append_nil _).symm,.none⟩,(fun i => .same rfl),
        (fun j hj => by cases hj),hskips,hfinish⟩
  | returned => cases h

theorem add_same (r : MemRun) (s : Shared) (h : ℕ) (d : ℤ) :
    Untouched s (r.add s h d).1 ∧ (r.add s h d).1.status = s.status := by
  rw [add_rest]
  exact ⟨⟨rfl,rfl,rfl,rfl,rfl⟩,rfl⟩

theorem flush_same (r : MemRun) (s : Shared) :
    Untouched s (r.flush s).1 ∧ (r.flush s).1.status = s.status := by
  rw [flush_rest]
  exact ⟨⟨rfl,rfl,rfl,rfl,rfl⟩,rfl⟩

theorem setWorker_untouched (s : Shared) (w : ℕ) (wk : Worker) : Untouched s (s.setWorker w wk) :=
  ⟨rfl,rfl,rfl,rfl,rfl⟩

theorem dispatch_moved {pc pc' : DispatchPc} {sent : Option (Park.Stamp × List Job)}
    (h : dispatchStep s w pc c = some (s',pc',sent)) :
    Moved s (.dispatch w pc) s' (.dispatch w pc') c := by
  have hquiet : ∀ {s'' : Shared}, Untouched s s'' → s''.status = s.status →
      Moved s (.dispatch w pc) s'' (.dispatch w pc') c :=
    fun hu hs => hu.moved hs rfl rfl rfl (fun j hj => by cases hj) rfl
  cases pc with
  | plan =>
    simp only [dispatchStep] at h
    split at h
    · cases h
    · split at h
      · cases h
        exact hquiet (untouched_refl s) rfl
      · cases c <;> cases h <;> exact hquiet (untouched_refl s) rfl
  | unpark sole k =>
    simp only [dispatchStep] at h
    split at h
    · cases h
    · split at h
      · cases h
        exact hquiet (untouched_refl s) rfl
      · split at h
        · cases h
        · split at h <;> cases h <;> exact hquiet (setWorker_untouched s w _) rfl
  | next sole k buf r =>
    simp only [dispatchStep] at h
    split at h
    · split at h <;> cases h
      · exact hquiet (untouched_refl s) rfl
      · exact hquiet ⟨rfl,rfl,rfl,rfl,rfl⟩ rfl
    · cases h
      exact hquiet (untouched_refl s) rfl
  | took sole k buf r j =>
    cases c with
    | no =>
      cases h
      exact dropped_moved rfl rfl rfl rfl rfl rfl (.took rfl (.inl rfl)) rfl rfl rfl rfl rfl
    | go | batch =>
      simp only [dispatchStep] at h
      split at h
      · rename_i hclosed
        cases h
        exact dropped_moved rfl rfl rfl rfl rfl rfl (.took rfl (.inr hclosed)) rfl rfl rfl rfl rfl
      · cases h
        obtain ⟨hu,hs⟩ := add_same r s j.handle 1
        exact hquiet hu hs
  | flush sole buf r =>
    cases h
    obtain ⟨hu,hs⟩ := flush_same r s
    exact hquiet hu hs
  | stamp sole buf =>
    cases buf with
    | nil =>
      cases h
      exact hquiet (untouched_refl s) rfl
    | cons j js =>
      cases sole with
      | false =>
        cases h
        exact hquiet (untouched_refl s) rfl
      | true =>
        simp only [dispatchStep] at h
        split at h <;> cases h
        exact hquiet (setWorker_untouched s w _) rfl
  | send buf st =>
    cases h
    exact hquiet (untouched_refl s) rfl
  | returned => cases h

theorem batch_moved {pc pc' : BatchPc} (h : batchStep s w st pc c = some (s',pc')) :
    Moved s (.batch w st pc) s' (.batch w st pc') c := by
  cases pc with
  | stale i jobs r =>
    cases jobs with
    | nil =>
      cases h
      exact (untouched_refl s).moved rfl rfl rfl rfl (fun j hj => by cases hj) rfl
    | cons j js =>
      simp only [batchStep,Option.some.injEq,Prod.mk.injEq] at h
      obtain ⟨rfl,rfl⟩ := h
      split <;> exact (untouched_refl s).moved rfl rfl rfl rfl (fun j hj => by cases hj) rfl
  | halting i j js r =>
    simp only [batchStep] at h
    split at h
    · cases h
    · split at h <;> cases h <;>
        exact (untouched_refl s).moved rfl rfl rfl rfl (fun j hj => by cases hj) rfl
  | start i j js r =>
    simp only [batchStep] at h
    split at h
    · rename_i hopen
      cases h
      refine ⟨rfl,fun _ => ⟨rfl,rfl⟩,(List.append_nil _).symm,⟨[],(List.append_nil _).symm,.none⟩,
        fun n => ?_,(fun j hj => by cases hj),(fun j hj => by cases hj),fun j hj => by cases hj⟩
      by_cases hn : n = j.id
      · subst hn
        exact .processing rfl rfl rfl (notClosed_none.mp hopen) (by simp [Shared.changeStatus])
      · exact .same (by simp [Shared.changeStatus,hn])
    · rename_i hclosed
      cases h
      refine (untouched_refl s).moved rfl rfl rfl rfl (fun i hi => ?_) rfl
      cases List.mem_singleton.mp hi
      rw [notClosed_none,not_not] at hclosed
      exact hclosed
  | work i j js r =>
    cases c <;> cases h <;>
      exact ⟨rfl,fun _ => ⟨rfl,rfl⟩,rfl,⟨[],(List.append_nil _).symm,.none⟩,(fun n => .same rfl),
        (fun j hj => by cases hj),(fun j hj => by cases hj),fun i hi => .inl hi⟩
  | finish i j js r =>
    cases h
    refine ⟨rfl,fun _ => ⟨rfl,rfl⟩,(List.append_nil _).symm,⟨[],(List.append_nil _).symm,.none⟩,
      fun n => ?_,(fun j hj => by cases hj),(fun j hj => by cases hj),fun j hj => .inr hj⟩
    by_cases hn : n = j.id
    · subst hn
      exact .finished (List.mem_singleton_self j) rfl (by simp [Shared.changeStatus])
    · exact .same (by simp [Shared.changeStatus,hn])
  | purged i j js r =>
    cases h
    exact close_moved rfl rfl rfl (fun i hi => ⟨List.mem_singleton.mp hi,List.mem_cons_self⟩) rfl
  | close i j js r =>
    cases h
    exact close_moved rfl rfl rfl (fun i hi => by cases hi) rfl
  | count i j js r =>
    cases h
    obtain ⟨hu,hs⟩ := add_same r s j.handle (-1)
    exact hu.moved hs rfl rfl rfl (fun j hj => by cases hj) rfl
  | skip i j js r =>
    cases h
    obtain ⟨hu,hs⟩ := add_same r s j.handle (-1)
    exact dropped_moved hu.gen hu.accepted hu.made hu.ran hs (by rw [← hu.dropped]; rfl) (.skipped rfl) rfl rfl rfl
      rfl rfl
  | park i jobs r =>
    simp only [batchStep] at h
    split at h
    · cases h
    · split at h
      · cases h
      · split at h <;> cases h <;>
          exact (setWorker_untouched s w _).moved rfl rfl rfl rfl (fun j hj => by cases hj) rfl
  | parkClose jobs r =>
    cases jobs with
    | nil =>
      simp only [batchStep] at h
      split at h <;> cases h
      exact (setWorker_untouched s w _).moved rfl rfl rfl rfl (fun j hj => by cases hj) rfl
    | cons j js =>
      cases h
      exact close_moved rfl rfl rfl (fun i hi => ⟨List.mem_singleton.mp hi,List.mem_cons_self⟩) rfl
  | parkTaken j js r =>
    cases h
    exact dropped_moved rfl rfl rfl rfl rfl rfl (.skipped rfl) rfl rfl rfl rfl rfl
  | flush r =>
    cases h
    obtain ⟨hu,hs⟩ := flush_same r s
    exact hu.moved hs rfl rfl rfl (fun j hj => by cases hj) rfl
  | returned => cases h

theorem purge_moved {pc pc' : PurgePc} (h : purgeStep s pc = some (s',pc')) :
    Moved s (.purge pc) s' (.purge pc') c := by
  cases pc with
  | bump =>
    cases h
    exact ⟨rfl,fun _ => ⟨rfl,rfl⟩,(List.append_nil _).symm,⟨[],(List.append_nil _).symm,.none⟩,
      (fun n => .same rfl),(fun j hj => by cases hj),(fun j hj => by cases hj),fun j hj => by cases hj⟩
  | hooks =>
    cases h
    exact (untouched_refl s).moved rfl rfl rfl rfl (fun j hj => by cases hj) rfl
  | drop ws =>
    cases ws with
    | nil =>
      cases h
      exact (untouched_refl s).moved rfl rfl rfl rfl (fun j hj => by cases hj) rfl
    | cons w ws =>
      simp only [purgeStep] at h
      split at h
      · cases h
      · split at h
        · cases h
        · cases h
          exact (setWorker_untouched s w _).moved rfl rfl rfl rfl (fun j hj => by cases hj) rfl
  | dropClose w jobs ws =>
    cases jobs with
    | nil =>
      simp only [purgeStep] at h
      split at h
      · cases h
      · cases h
        exact (setWorker_untouched s w _).moved rfl rfl rfl rfl (fun j hj => by cases hj) rfl
    | cons j js =>
      cases h
      exact close_moved rfl rfl rfl (fun i hi => ⟨List.mem_singleton.mp hi,List.mem_cons_self⟩) rfl
  | dropTaken w j js ws =>
    cases h
    exact dropped_moved rfl rfl rfl rfl rfl rfl (.skipped rfl) rfl rfl rfl rfl rfl
  | values =>
    cases h
    exact dropped_moved rfl rfl rfl rfl rfl rfl (.values rfl rfl) rfl rfl rfl rfl rfl
  | close jobs =>
    cases jobs with
    | nil =>
      cases h
      exact (untouched_refl s).moved rfl rfl rfl rfl (fun j hj => by cases hj) rfl
    | cons j js =>
      cases h
      exact close_moved rfl rfl rfl (fun i hi => by cases hi) rfl
  | returned => cases h

theorem step_moved (h : program.step s l c = some (s',l',new)) : Moved s l s' l' c := by
  cases l with
  | add m n pc =>
    obtain ⟨u,hu,hq⟩ := Option.map_eq_some_iff.mp h
    cases hq
    exact add_moved hu
  | dispatch w pc =>
    obtain ⟨u,hu,hq⟩ := Option.map_eq_some_iff.mp h
    cases hq
    exact dispatch_moved hu
  | batch w st pc =>
    obtain ⟨u,hu,hq⟩ := Option.map_eq_some_iff.mp h
    cases hq
    exact batch_moved hu
  | purge pc =>
    obtain ⟨u,hu,hq⟩ := Option.map_eq_some_iff.mp h
    cases hq
    exact purge_moved hu
  | close j done =>
    cases done <;> cases h
    exact close_moved rfl rfl rfl (fun i hi => by cases hi) rfl
  | bind done =>
    cases done <;> cases h
    exact Untouched.moved ⟨rfl,rfl,rfl,rfl,rfl⟩ rfl rfl rfl rfl (fun j hj => by cases hj) rfl
  | setHalting w on done =>
    cases done with
    | true => cases h
    | false =>
      simp only [program,step] at h
      split at h
      · cases h
      · cases h
        exact (setWorker_untouched s w _).moved rfl rfl rfl rfl (fun j hj => by cases hj) rfl
  | setPaused on done =>
    cases done <;> cases h
    exact Untouched.moved ⟨rfl,rfl,rfl,rfl,rfl⟩ rfl rfl rfl rfl (fun j hj => by cases hj) rfl

end Varmq.Stats
