import Varmq.Stats.Ledger

namespace Varmq.Stats

open Interleaving Topics

variable {s s' : Shared} {l l' : Thread} {new : List Thread} {j : Job} {w m n : ℕ} {c : Choice}
  {wk wk' : Worker}

-- What the counts read of the shared state, the parked jobs apart.
structure Keeps (s s' : Shared) : Prop where
  accepted : s'.accepted = s.accepted
  ran : s'.ran = s.ran
  submitted : s'.submitted = s.submitted
  completed : s'.completed = s.completed
  failed : s'.failed = s.failed
  made : s'.made = s.made

structure Same (s s' : Shared) : Prop extends Keeps s s' where
  queue : s'.queue = s.queue
  dropped : s'.dropped = s.dropped
  processing : s'.processing = s.processing
  parked : ∀ p, s'.parkedJobs.countP p = s.parkedJobs.countP p

def plain : Thread → Bool
  | .add _ _ _ => false
  | _ => true

theorem plain_rest (h : plain l = true) : fresh l = [] ∧ ∀ m, adding m l = 0 := by
  cases l with
  | add => cases h
  | _ => exact ⟨rfl,fun _ => rfl⟩

theorem changeStatus_same (s : Shared) (j : Job) (st : Jobs.Status) : Same s (s.changeStatus j st) :=
  ⟨⟨rfl,rfl,rfl,rfl,rfl,rfl⟩,rfl,rfl,rfl,fun _ => rfl⟩

theorem same_refl (s : Shared) : Same s s := ⟨⟨rfl,rfl,rfl,rfl,rfl,rfl⟩,rfl,rfl,rfl,fun _ => rfl⟩

theorem close_same (s : Shared) (j : Job) : Same s (s.close j) := by
  unfold Shared.close
  split
  · exact changeStatus_same s j _
  · exact same_refl s

theorem markQueued_same (s : Shared) (j : Job) : Same s (s.markQueued j) := by
  unfold Shared.markQueued
  split
  · exact changeStatus_same s j _
  · exact same_refl s

theorem setWorker_keeps (s : Shared) (w : ℕ) (wk' : Worker) : Keeps s (s.setWorker w wk') :=
  ⟨rfl,rfl,rfl,rfl,rfl,rfl⟩

theorem setWorker_same (h : s.workers[w]? = some wk) (hp : wk'.parked = wk.parked) :
    Same s (s.setWorker w wk') := by
  refine ⟨setWorker_keeps s w wk',rfl,rfl,rfl,fun p => ?_⟩
  have hset := parkedJobs_setWorker wk' h p
  rw [hp] at hset
  omega

theorem Effect.carry (hs : Keeps s s') (hl : plain l = true) (hl' : plain l' = true)
    (hn : ∀ t ∈ new, plain t = true)
    (places : ∀ p, s.queue.countP p + s.parkedJobs.countP p + (hand l).countP p +
        s.dropped.countP p =
      s'.queue.countP p + s'.parkedJobs.countP p + (hand l').countP p +
        total (fun t => (hand t).countP p) new + s'.dropped.countP p)
    (balance : ∀ m, s'.processing m + s.parkedJobs.countP (of m) + weight m l =
      s.processing m + s'.parkedJobs.countP (of m) + weight m l' + weights m new) :
    Effect s l s' l' new := by
  obtain ⟨hf,ha⟩ := plain_rest hl
  obtain ⟨hf',ha'⟩ := plain_rest hl'
  have hadds : ∀ m, total (adding m) new = 0 :=
    fun m => total_eq_zero.mpr fun t ht => (plain_rest (hn t ht)).2 m
  have hfresh : ∀ j, total (fun t => (fresh t).count j) new = 0 :=
    fun j => total_eq_zero.mpr fun t ht => by rw [(plain_rest (hn t ht)).1]; rfl
  constructor
  · intro p
    have := places p
    rw [hs.accepted,hs.ran]
    omega
  · exact balance
  · intro m
    rw [hs.completed,hs.failed,hs.ran]
  · intro m
    rw [hs.submitted,hs.accepted,ha,ha',hadds]
    simp
  · intro j
    rw [hs.accepted,hs.made,hf,hf',hfresh]
    simp

theorem Effect.quiet (hs : Same s s') (hl : plain l = true) (hl' : plain l' = true)
    (hhand : hand l' = hand l) (hweight : ∀ m, weight m l' = weight m l) : Effect s l s' l' [] := by
  refine .carry hs.toKeeps hl hl' (by simp) ?_ ?_
  · intro p
    rw [hs.queue,hs.parked,hs.dropped,hhand,total_nil]
    rfl
  · intro m
    rw [hs.processing,hs.parked,hweight]
    simp [weights]

theorem weights_nil (m : ℕ) : weights m [] = 0 := rfl

theorem taken_effect (hw : ∀ m, weight m l = weight m l' + one (of m j))
    (hh : ∀ p, (hand l).countP p = (hand l').countP p + one (p j)) (hl : plain l = true)
    (hl' : plain l' = true) : Effect s l ((s.memTaken j.handle (-1)).drop j) l' [] := by
  refine .carry ⟨rfl,rfl,rfl,rfl,rfl,rfl⟩ hl hl' (by simp) ?_ ?_
  · intro p
    have hhand := hh p
    have hdrop : ((s.memTaken j.handle (-1)).drop j).dropped.countP p =
        s.dropped.countP p + one (p j) := by
      simp only [Shared.drop,Shared.memTaken,List.countP_append,countP_cons_one,List.countP_nil]
      omega
    have hrest : ((s.memTaken j.handle (-1)).drop j).queue = s.queue ∧
      ((s.memTaken j.handle (-1)).drop j).parkedJobs = s.parkedJobs := ⟨rfl,rfl⟩
    rw [hrest.1,hrest.2,hdrop,total_nil]
    omega
  · intro m
    have hprocessing : ((s.memTaken j.handle (-1)).drop j).processing m =
        s.processing m + share ⟨some j.handle,-1⟩ m := memTaken_processing s j.handle (-1) m
    have hrest : ((s.memTaken j.handle (-1)).drop j).parkedJobs = s.parkedJobs := rfl
    rw [hrest,hprocessing,(share_job j m).2,hw m,weights_nil]
    ring

-- A worker's parked jobs move into the hands of a goroutine, or out of them.
theorem parked_effect (hw : s.workers[w]? = some wk) (hl : plain l = true) (hl' : plain l' = true)
    (hh : ∀ p, wk.parked.jobs.countP p + (hand l).countP p =
      wk'.parked.jobs.countP p + (hand l').countP p)
    (hweight : ∀ m, (wk.parked.jobs.countP (of m) : ℤ) + weight m l =
      wk'.parked.jobs.countP (of m) + weight m l') : Effect s l (s.setWorker w wk') l' [] := by
  refine .carry (setWorker_keeps s w wk') hl hl' (by simp) ?_ ?_
  · intro p
    have hset := parkedJobs_setWorker wk' hw p
    have hhand := hh p
    have hrest : (s.setWorker w wk').queue = s.queue ∧ (s.setWorker w wk').dropped = s.dropped :=
      ⟨rfl,rfl⟩
    rw [hrest.1,hrest.2,total_nil]
    omega
  · intro m
    have hset := parkedJobs_setWorker wk' hw (of m)
    have hm := hweight m
    have hrest : (s.setWorker w wk').processing = s.processing := rfl
    rw [hrest,weights_nil]
    omega

theorem purge_effect {pc pc' : PurgePc} (h : purgeStep s pc = some (s',pc')) :
    Effect s (.purge pc) s' (.purge pc') [] := by
  cases pc with
  | bump =>
    cases h
    exact .quiet ⟨⟨rfl,rfl,rfl,rfl,rfl,rfl⟩,rfl,rfl,rfl,fun _ => rfl⟩ rfl rfl rfl fun _ => rfl
  | hooks =>
    cases h
    exact .quiet (same_refl s) rfl rfl rfl fun _ => rfl
  | drop ws =>
    cases ws with
    | nil =>
      cases h
      exact .quiet (same_refl s) rfl rfl rfl fun _ => rfl
    | cons w ws =>
      simp only [purgeStep] at h
      split at h
      · cases h
      · rename_i wk hw
        split at h
        · cases h
        · cases h
          have hperm := Park.dropParked_perm 0 wk.parked
          have hcount : ∀ p : Job → Bool, (Park.dropParked 0 wk.parked).1.countP p +
              (Park.dropParked 0 wk.parked).2.jobs.countP p = wk.parked.jobs.countP p := by
            intro p
            rw [← List.countP_append]
            exact hperm.countP_eq p
          refine parked_effect hw rfl rfl ?_ ?_
          · intro p
            have := hcount p
            simp only [hand,List.countP_nil]
            omega
          · intro m
            have := hcount (of m)
            simp only [weight,held,hand,run,List.countP_nil]
            omega
  | dropClose w jobs ws =>
    cases jobs with
    | nil =>
      simp only [purgeStep] at h
      split at h
      · cases h
      · rename_i wk hw
        cases h
        exact .quiet (setWorker_same hw rfl) rfl rfl rfl fun _ => rfl
    | cons j js =>
      cases h
      exact .quiet (close_same s j) rfl rfl rfl fun _ => rfl
  | dropTaken w j js ws =>
    cases h
    exact taken_effect
      (fun m => by simp only [weight,held,hand,run,countP_cons_one]; push_cast; ring)
      (fun p => countP_cons_one p j js) rfl rfl
  | values =>
    cases h
    refine .carry ⟨rfl,rfl,rfl,rfl,rfl,rfl⟩ rfl rfl (by simp) ?_ ?_
    · intro p
      have hparked : ({ s with queue := [], dropped := s.dropped ++ s.queue } : Shared).parkedJobs =
        s.parkedJobs := rfl
      simp only [hand,List.countP_nil,List.countP_append,total_nil,hparked]
      omega
    · intro m
      simp [weights_nil,weight,held,hand,run,Shared.parkedJobs]
  | close jobs =>
    cases jobs with
    | nil =>
      cases h
      exact .quiet (same_refl s) rfl rfl rfl fun _ => rfl
    | cons j js =>
      cases h
      exact .quiet (close_same s j) rfl rfl rfl fun _ => rfl
  | returned => cases h

theorem run_effect {pc pc' : BatchPc} {st : Park.Stamp} {d : List Job} {r : MemRun}
    (hhand : ∀ p, (hand (.batch w st pc)).countP p = (hand (.batch w st pc')).countP p + d.countP p)
    (hheld : held (.batch w st pc) = j :: held (.batch w st pc'))
    (hrun : run (.batch w st pc) = r)
    (hrun' : run (.batch w st pc') = (r.add s j.handle (-1)).2)
    (hs : s' = { s with
      processing := (r.add s j.handle (-1)).1.processing, dropped := s.dropped ++ d }) :
    Effect s (.batch w st pc) s' (.batch w st pc') [] := by
  subst hs
  refine .carry ⟨rfl,rfl,rfl,rfl,rfl,rfl⟩ rfl rfl (by simp) ?_ ?_
  · intro p
    have := hhand p
    simp only [List.countP_append,total_nil,Shared.parkedJobs]
    omega
  · intro m
    have hadd := add_processing r s j.handle (-1) m
    rw [(share_job j m).2] at hadd
    simp only [weight,hheld,hrun,hrun',countP_cons_one,weights_nil,Shared.parkedJobs]
    push_cast
    omega

theorem flush_effect {r : MemRun} (hl : plain l = true) (hl' : plain l' = true)
    (hhand : hand l' = hand l) (hheld : held l' = held l) (hrun : run l = r)
    (hrun' : run l' = .empty) : Effect s l (r.flush s).1 l' [] := by
  rw [flush_rest]
  refine .carry ⟨rfl,rfl,rfl,rfl,rfl,rfl⟩ hl hl' (by simp) ?_ ?_
  · intro p
    rw [hhand]
    rfl
  · intro m
    have hflush := (flush_processing r s m).1
    have hempty : share .empty m = 0 := rfl
    simp only [weight,hheld,hrun,hrun',hempty,weights_nil,Shared.parkedJobs]
    omega

theorem work_effect {i : ℕ} {js : List Job} {st : Park.Stamp} {r : MemRun} {completed failed : ℕ → ℕ}
    (hd : ∀ m, completed m + failed m = s.completed m + s.failed m + one (of m j)) :
    Effect s (.batch w st (.work i j js r))
      { s with completed := completed, failed := failed, ran := s.ran ++ [j] }
      (.batch w st (.finish i j js r)) [] := by
  constructor
  · intro p
    simp only [hand,countP_cons_one,List.countP_append,List.countP_nil,total_nil,Shared.parkedJobs]
    omega
  · intro m
    simp [weight,held,hand,run,weights_nil,Shared.parkedJobs]
  · intro m
    have := hd m
    simp only [countP_cons_one,List.countP_append,List.countP_nil]
    omega
  · intro m
    simp [adding]
  · intro j
    simp [fresh]

theorem update_one (f : ℕ → ℕ) (j : Job) (m : ℕ) :
    Function.update f j.handle (f j.handle + 1) m = f m + one (of m j) := by
  by_cases hm : m = j.handle
  · subst hm
    simp [of]
  · have hne : (j.handle == m) = false := by simpa using Ne.symm hm
    simp [of,hm,hne]

theorem batch_effect {pc pc' : BatchPc} {st : Park.Stamp} (h : batchStep s w st pc c = some (s',pc')) :
    Effect s (.batch w st pc) s' (.batch w st pc') [] := by
  cases pc with
  | stale i jobs r =>
    cases jobs with
    | nil =>
      cases h
      exact .quiet (same_refl s) rfl rfl rfl fun _ => rfl
    | cons j js =>
      simp only [batchStep,Option.some.injEq,Prod.mk.injEq] at h
      obtain ⟨rfl,rfl⟩ := h
      split <;> exact .quiet (same_refl s) rfl rfl rfl fun _ => rfl
  | purged i j js r =>
    cases h
    exact .quiet (close_same s j) rfl rfl rfl fun _ => rfl
  | halting i j js r =>
    simp only [batchStep] at h
    split at h
    · cases h
    · simp only [Option.some.injEq,Prod.mk.injEq] at h
      obtain ⟨rfl,rfl⟩ := h
      split <;> exact .quiet (same_refl s) rfl rfl rfl fun _ => rfl
  | start i j js r =>
    simp only [batchStep] at h
    split at h <;> cases h
    · exact .quiet (changeStatus_same s j _) rfl rfl rfl fun _ => rfl
    · exact .quiet (same_refl s) rfl rfl rfl fun _ => rfl
  | work i j js r =>
    cases c with
    | no =>
      cases h
      refine work_effect fun m => ?_
      have := update_one s.failed j m
      simp only [Shared.fail]
      omega
    | go | batch =>
      cases h
      refine work_effect fun m => ?_
      have := update_one s.completed j m
      simp only [Shared.succeed]
      omega
  | finish i j js r =>
    cases h
    exact .quiet (changeStatus_same s j _) rfl rfl rfl fun _ => rfl
  | close i j js r =>
    cases h
    exact .quiet (close_same s j) rfl rfl rfl fun _ => rfl
  | count i j js r =>
    cases h
    refine run_effect (d := []) (r := r) (fun p => by simp [hand]) rfl rfl rfl ?_
    rw [List.append_nil]
    exact add_rest r s j.handle (-1)
  | skip i j js r =>
    cases h
    refine run_effect (d := [j]) (r := r) (fun p => by simp [hand,countP_cons_one,one]) rfl rfl rfl ?_
    exact congrArg (Shared.drop · j) (add_rest r s j.handle (-1))
  | park i jobs r =>
    simp only [batchStep] at h
    split at h
    · cases h
    · rename_i wk hw
      split at h
      · cases h
      · have hcount := fun p : Job → Bool => congrArg (List.countP p)
          (Park.jobs_park s.gens s.pauses wk.parked jobs { st with seq := st.seq + i })
        simp only [List.countP_append] at hcount
        split at h
        · rename_i parked hpark
          rw [hpark] at hcount
          cases h
          refine parked_effect hw rfl rfl ?_ ?_
          · intro p
            have := hcount p
            simp only [hand,List.countP_nil] at this ⊢
            omega
          · intro m
            have := hcount (of m)
            simp only [weight,held,hand,run,List.countP_nil] at this ⊢
            omega
        · rename_i parked j js hpark
          rw [hpark] at hcount
          cases h
          refine parked_effect hw rfl rfl ?_ ?_
          · intro p
            have := hcount p
            simp only [hand] at this ⊢
            omega
          · intro m
            have := hcount (of m)
            simp only [weight,held,hand,run] at this ⊢
            omega
  | parkClose jobs r =>
    cases jobs with
    | nil =>
      simp only [batchStep] at h
      split at h
      · cases h
      · rename_i wk hw
        cases h
        exact .quiet (setWorker_same hw rfl) rfl rfl rfl fun _ => rfl
    | cons j js =>
      cases h
      exact .quiet (close_same s j) rfl rfl rfl fun _ => rfl
  | parkTaken j js r =>
    cases h
    exact taken_effect
      (fun m => by simp only [weight,held,hand,run,countP_cons_one]; push_cast; ring)
      (fun p => countP_cons_one p j js) rfl rfl
  | flush r =>
    cases h
    exact flush_effect rfl rfl rfl rfl rfl rfl
  | returned => cases h

theorem dispatch_effect {pc pc' : DispatchPc} {sent : Option (Park.Stamp × List Job)}
    (h : dispatchStep s w pc c = some (s',pc',sent)) :
    Effect s (.dispatch w pc) s' (.dispatch w pc')
      (sent.map fun (st,buf) => Thread.batch w st (.stale 0 buf .empty)).toList := by
  cases pc with
  | plan =>
    simp only [dispatchStep] at h
    split at h
    · cases h
    · split at h
      · cases h
        exact .quiet (same_refl s) rfl rfl rfl fun _ => rfl
      · cases c <;> cases h <;> exact .quiet (same_refl s) rfl rfl rfl fun _ => rfl
  | unpark sole k =>
    simp only [dispatchStep] at h
    split at h
    · cases h
    · rename_i wk hw
      split at h
      · cases h
        exact .quiet (same_refl s) rfl rfl rfl fun _ => rfl
      · split at h
        · cases h
        · have hperm := Park.unpark_perm s.pauses wk.parked k
          split at h
          all_goals
            rename_i hunpark
            rw [hunpark] at hperm
            have hcount := fun p : Job → Bool => hperm.countP_eq p
            simp only [List.countP_append] at hcount
            cases h
            refine parked_effect hw rfl rfl ?_ ?_
            · intro p
              have := hcount p
              simp only [hand,List.countP_nil] at this ⊢
              omega
            · intro m
              have := hcount (of m)
              simp only [weight,held,hand,run,List.countP_nil] at this ⊢
              omega
  | next sole k buf r =>
    simp only [dispatchStep] at h
    split at h
    · split at h
      · cases h
        exact .quiet (same_refl s) rfl rfl rfl fun _ => rfl
      · rename_i j queue hq
        cases h
        refine .carry ⟨rfl,rfl,rfl,rfl,rfl,rfl⟩ rfl rfl (by simp) ?_ ?_
        · intro p
          simp only [hand,hq,countP_cons_one,Shared.parkedJobs,Option.map_none,Option.toList_none,
            total_nil]
          omega
        · intro m
          simp [weight,held,hand,run,weights_nil,Shared.parkedJobs]
    · cases h
      exact .quiet (same_refl s) rfl rfl rfl fun _ => rfl
  | took sole k buf r j =>
    have hdrop : ∀ pc, hand (.dispatch w pc) = buf → held (.dispatch w pc) = buf →
        run (.dispatch w pc) = r →
        Effect s (.dispatch w (.took sole k buf r j)) (s.drop j) (.dispatch w pc) [] := by
      intro pc hhand hheld hrun
      refine .carry ⟨rfl,rfl,rfl,rfl,rfl,rfl⟩ rfl rfl (by simp) ?_ ?_
      · intro p
        rw [hhand]
        simp only [hand,Shared.drop,List.countP_append,countP_cons_one,List.countP_nil,total_nil,
          Shared.parkedJobs]
        omega
      · intro m
        simp only [weight,hheld,hrun]
        simp [held,run,weights_nil,Shared.parkedJobs,Shared.drop]
    cases c with
    | no =>
      cases h
      exact hdrop _ rfl rfl rfl
    | go | batch =>
      simp only [dispatchStep] at h
      split at h
      · cases h
        exact hdrop _ rfl rfl rfl
      · simp only [Option.some.injEq,Prod.mk.injEq] at h
        obtain ⟨rfl,rfl,rfl⟩ := h
        rw [add_rest]
        refine .carry ⟨rfl,rfl,rfl,rfl,rfl,rfl⟩ rfl rfl (by simp) ?_ ?_
        · intro p
          simp only [hand,List.countP_append,countP_cons_one,List.countP_nil,Shared.parkedJobs,
            Option.map_none,Option.toList_none,total_nil]
          omega
        · intro m
          have hadd := add_processing r s j.handle 1 m
          rw [(share_job j m).1] at hadd
          simp only [weight,held,hand,run,List.countP_append,countP_cons_one,List.countP_nil,
            Shared.parkedJobs,Option.map_none,Option.toList_none,weights_nil]
          push_cast
          omega
  | flush sole buf r =>
    cases h
    exact flush_effect rfl rfl rfl rfl rfl rfl
  | stamp sole buf =>
    cases buf with
    | nil =>
      cases h
      exact .quiet (same_refl s) rfl rfl rfl fun _ => rfl
    | cons j js =>
      cases sole with
      | false =>
        cases h
        exact .quiet (same_refl s) rfl rfl rfl fun _ => rfl
      | true =>
        simp only [dispatchStep] at h
        split at h
        · cases h
        · rename_i wk hw
          cases h
          exact .quiet (setWorker_same hw rfl) rfl rfl rfl fun _ => rfl
  | send buf st =>
    cases h
    refine .carry (same_refl s).toKeeps rfl rfl (by simp [plain]) ?_ ?_
    · intro p
      simp [hand]
    · intro m
      simp [weights,weight,held,hand,run,share,MemRun.empty]
  | returned => cases h

end Varmq.Stats
