import Varmq.Stats.Step

namespace Varmq.Stats

open Interleaving Topics

variable {s s' : Shared} {l l' : Thread} {new xs ys ts : List Thread} {j : Job} {w m n : ℕ}
  {c : Choice}

-- The job of an Add is the handle's; a fill has added no more than its buffer, a batch only takes
-- away.
def Fit : Thread → Prop
  | .add m _ (.store j) => j.handle = m
  | .add m _ (.close j) => j.handle = m
  | .dispatch w pc => ∀ m, share (run (.dispatch w pc)) m ≤ (held (.dispatch w pc)).countP (of m)
  | .batch w st pc => (run (.batch w st pc)).n ≤ 0
  | _ => True

theorem share_le {r : MemRun} (h : r.n ≤ 0) (m : ℕ) : share r m ≤ 0 := by
  unfold share
  split
  · exact h
  · exact le_refl 0

theorem weight_nonneg {t : Thread} (h : Fit t) (m : ℕ) : 0 ≤ weight m t := by
  cases t with
  | dispatch w pc =>
    have := h m
    simp only [weight]
    omega
  | batch w st pc =>
    have := share_le h m
    simp only [weight]
    omega
  | _ => simp [weight,run,share,MemRun.empty]

theorem add_share (r : MemRun) (s : Shared) (h : ℕ) (d : ℤ) (m : ℕ) :
    share (r.add s h d).2 m = if h = m then share r m + d else 0 := by
  unfold MemRun.add
  split
  case isTrue hr =>
    simp only [share,hr,Option.some.injEq]
    split <;> rfl
  case isFalse hr =>
    rw [share_some,flush_run]
    by_cases hm : h = m
    · subst hm
      simp [share,hr]
    · simp [hm]

theorem add_le {r : MemRun} (h : r.n ≤ 0) (s : Shared) (i : ℕ) : (r.add s i (-1)).2.n ≤ 0 := by
  unfold MemRun.add
  split
  · simp only
    omega
  · simp only [flush_run]
    omega

theorem dispatch_fit {pc pc' : DispatchPc} {sent : Option (Park.Stamp × List Job)}
    (hf : Fit (.dispatch w pc)) (h : dispatchStep s w pc c = some (s',pc',sent)) :
    Fit (.dispatch w pc') := by
  have hempty : ∀ pc, run (.dispatch w pc) = .empty → Fit (.dispatch w pc) := by
    intro pc hrun m
    rw [hrun]
    simp [share,MemRun.empty]
  cases pc with
  | plan =>
    simp only [dispatchStep] at h
    split at h
    · cases h
    · split at h
      · cases h
        exact hempty _ rfl
      · cases c <;> cases h <;> exact hempty _ rfl
  | unpark sole k =>
    simp only [dispatchStep] at h
    split at h
    · cases h
    · split at h
      · cases h
        exact hempty _ rfl
      · split at h
        · cases h
        · split at h <;> cases h <;> exact hempty _ rfl
  | next sole k buf r =>
    simp only [dispatchStep] at h
    split at h
    · split at h <;> cases h <;> exact hf
    · cases h
      exact hf
  | took sole k buf r j =>
    cases c with
    | no =>
      cases h
      exact hf
    | go | batch =>
      simp only [dispatchStep] at h
      split at h
      · cases h
        exact hf
      · cases h
        intro m
        have hm : share r m ≤ (buf.countP (of m) : ℤ) := hf m
        simp only [run,held,hand,List.countP_append,countP_cons_one,List.countP_nil,add_share]
        split
        · rename_i hj
          have hone : one (of m j) = 1 := by simp [of,hj]
          omega
        · omega
  | flush sole buf r =>
    cases h
    exact hempty _ rfl
  | stamp sole buf =>
    cases buf with
    | nil =>
      cases h
      exact hempty _ rfl
    | cons j js =>
      cases sole with
      | false =>
        cases h
        exact hempty _ rfl
      | true =>
        simp only [dispatchStep] at h
        split at h <;> cases h
        exact hempty _ rfl
  | send buf st =>
    cases h
    exact hempty _ rfl
  | returned => cases h

theorem batch_fit {pc pc' : BatchPc} {st : Park.Stamp} (hf : Fit (.batch w st pc))
    (h : batchStep s w st pc c = some (s',pc')) : Fit (.batch w st pc') := by
  have hempty : Fit (.batch w st .returned) := le_refl 0
  cases pc with
  | stale i jobs r =>
    cases jobs with
    | nil =>
      cases h
      exact hf
    | cons j js =>
      simp only [batchStep,Option.some.injEq,Prod.mk.injEq] at h
      obtain ⟨rfl,rfl⟩ := h
      split <;> exact hf
  | halting i j js r =>
    simp only [batchStep] at h
    split at h
    · cases h
    · simp only [Option.some.injEq,Prod.mk.injEq] at h
      obtain ⟨rfl,rfl⟩ := h
      split <;> exact hf
  | start i j js r =>
    simp only [batchStep] at h
    split at h <;> cases h <;> exact hf
  | work i j js r => cases c <;> cases h <;> exact hf
  | purged i j js r | finish i j js r | close i j js r | parkTaken j js r =>
    cases h
    exact hf
  | count i j js r | skip i j js r =>
    cases h
    exact add_le hf s j.handle
  | park i jobs r =>
    simp only [batchStep] at h
    split at h
    · cases h
    · split at h
      · cases h
      · split at h <;> cases h <;> exact hf
  | parkClose jobs r =>
    cases jobs with
    | nil =>
      simp only [batchStep] at h
      split at h <;> cases h
      exact hf
    | cons j js =>
      cases h
      exact hf
  | flush r =>
    cases h
    exact hempty
  | returned => cases h

theorem nextItem_rest (m n : ℕ) : fresh (.add m (nextItem n).1 (nextItem n).2) = [] ∧
    ∀ h, adding h (.add m (nextItem n).1 (nextItem n).2) = 0 := by
  cases n <;> exact ⟨rfl,fun _ => rfl⟩

theorem nextItem_fit (m n : ℕ) : Fit (.add m (nextItem n).1 (nextItem n).2) := by
  cases n <;> exact trivial

theorem add_fit {n' : ℕ} {pc pc' : AddPc} (hf : Fit (.add m n pc))
    (h : addStep s m n pc c = some (s',n',pc')) : Fit (.add m n' pc') := by
  cases pc with
  | count =>
    cases h
    rfl
  | store j => cases c <;> cases h <;> first | exact hf | exact trivial
  | markQueued j =>
    simp only [addStep,Option.some.injEq,Prod.mk.injEq] at h
    obtain ⟨-,hn⟩ := h
    have hfit := nextItem_fit m n
    rw [hn] at hfit
    exact hfit
  | close j =>
    cases h
    exact trivial
  | uncount =>
    simp only [addStep,Option.some.injEq,Prod.mk.injEq] at h
    obtain ⟨-,hn⟩ := h
    have hfit := nextItem_fit m n
    rw [hn] at hfit
    exact hfit
  | returned => cases h

-- An Add moves neither a taken job nor a processing count.
structure Apart (s s' : Shared) : Prop where
  ran : s'.ran = s.ran
  dropped : s'.dropped = s.dropped
  processing : s'.processing = s.processing
  completed : s'.completed = s.completed
  failed : s'.failed = s.failed
  workers : s'.workers = s.workers

theorem Effect.apart {n' : ℕ} {pc pc' : AddPc} (hs : Apart s s')
    (places : ∀ p, s'.accepted.countP p + s.queue.countP p =
      s.accepted.countP p + s'.queue.countP p)
    (adds : ∀ i, s'.submitted i + s.accepted.countP (of i) + adding i (.add m n pc) =
      s.submitted i + s'.accepted.countP (of i) + adding i (.add m n' pc'))
    (ids : ∀ j, s'.accepted.count j + (fresh (.add m n' pc')).count j +
        one (decide (j.id < s.made)) ≤
      s.accepted.count j + (fresh (.add m n pc)).count j + one (decide (j.id < s'.made))) :
    Effect s (.add m n pc) s' (.add m n' pc') [] := by
  have hparked : s'.parkedJobs = s.parkedJobs := by
    simp only [Shared.parkedJobs,hs.workers]
  constructor
  · intro p
    have := places p
    rw [hparked,hs.ran,hs.dropped,total_nil]
    simp only [hand]
    omega
  · intro m
    rw [hparked,hs.processing,weights_nil]
    simp only [weight,held,hand,run]
    omega
  · intro m
    rw [hs.completed,hs.failed,hs.ran]
  · intro i
    have := adds i
    rw [total_nil]
    omega
  · intro j
    have := ids j
    rw [total_nil]
    omega

theorem close_apart (s : Shared) (j : Job) : Apart s (s.close j) := by
  unfold Shared.close
  split <;> exact ⟨rfl,rfl,rfl,rfl,rfl,rfl⟩

theorem markQueued_apart (s : Shared) (j : Job) : Apart s (s.markQueued j) := by
  unfold Shared.markQueued
  split <;> exact ⟨rfl,rfl,rfl,rfl,rfl,rfl⟩

theorem one_lt_succ (j : Job) (a h : ℕ) :
    [(⟨a,h⟩ : Job)].count j + one (decide (j.id < a)) ≤ one (decide (j.id < a + 1)) := by
  by_cases hj : j = ⟨a,h⟩
  · subst hj
    simp
  · rw [List.count_singleton,if_neg (by simpa using Ne.symm hj)]
    by_cases hlt : j.id < a
    · simp [hlt,Nat.lt_succ_of_lt hlt]
    · simp [hlt]

theorem add_effect {n' : ℕ} {pc pc' : AddPc} (hf : Fit (.add m n pc))
    (h : addStep s m n pc c = some (s',n',pc')) : Effect s (.add m n pc) s' (.add m n' pc') [] := by
  cases pc with
  | count =>
    cases h
    refine .apart ⟨rfl,rfl,rfl,rfl,rfl,rfl⟩ (fun _ => rfl) ?_ ?_
    · intro i
      have hadded := added_submitted s m 1 i
      rw [share_one] at hadded
      simp only [adding,Shared.added] at hadded ⊢
      omega
    · intro j
      have := one_lt_succ j s.made m
      simp only [fresh,List.count_nil,Shared.added]
      omega
  | store j =>
    have haccept : Effect s (.add m n (.store j))
        { s with queue := s.queue ++ [j], accepted := s.accepted ++ [j] }
        (.add m n (.markQueued j)) [] := by
      refine .apart ⟨rfl,rfl,rfl,rfl,rfl,rfl⟩ ?_ ?_ ?_
      · intro p
        simp only [List.countP_append]
        omega
      · intro i
        have hone : one (m == i) = one (of i j) := by
          have hj : j.handle = m := hf
          rw [of,hj]
        simp only [List.countP_append,countP_cons_one,List.countP_nil,adding,hone]
        omega
      · intro i
        simp only [fresh,List.count_append,List.count_nil]
        omega
    cases c with
    | no =>
      cases h
      refine .apart ⟨rfl,rfl,rfl,rfl,rfl,rfl⟩ (fun _ => rfl) (fun _ => rfl) ?_
      intro i
      simp only [fresh,List.count_nil]
      omega
    | go | batch =>
      cases h
      exact haccept
  | markQueued j =>
    simp only [addStep,Option.some.injEq,Prod.mk.injEq] at h
    obtain ⟨rfl,hn⟩ := h
    obtain ⟨hfresh,hadding⟩ := nextItem_rest m n
    rw [hn] at hfresh hadding
    have hsame := markQueued_same s j
    refine .apart (markQueued_apart s j) ?_ ?_ ?_
    · intro p
      rw [hsame.accepted,hsame.queue]
    · intro i
      rw [hsame.accepted,hsame.submitted,hadding]
      rfl
    · intro i
      rw [hsame.accepted,hsame.made,hfresh]
      exact le_refl _
  | close j =>
    cases h
    have hsame := close_same s j
    refine .apart (close_apart s j) ?_ ?_ ?_
    · intro p
      rw [hsame.accepted,hsame.queue]
    · intro i
      rw [hsame.accepted,hsame.submitted]
      rfl
    · intro i
      rw [hsame.accepted,hsame.made]
      exact le_refl _
  | uncount =>
    simp only [addStep,Option.some.injEq,Prod.mk.injEq] at h
    obtain ⟨rfl,hn⟩ := h
    obtain ⟨hfresh,hadding⟩ := nextItem_rest m n
    rw [hn] at hfresh hadding
    refine .apart ⟨rfl,rfl,rfl,rfl,rfl,rfl⟩ (fun _ => rfl) ?_ ?_
    · intro i
      have hadded := added_submitted s m (-1) i
      rw [share_neg] at hadded
      rw [hadded,hadding]
      simp only [adding,Shared.added]
      omega
    · intro i
      rw [hfresh]
      exact le_refl _
  | returned => cases h

theorem step_effect (hf : Fit l) (h : program.step s l c = some (s',l',new)) :
    Effect s l s' l' new ∧ Fit l' ∧ ∀ t ∈ new, Fit t := by
  cases l with
  | add m n pc =>
    obtain ⟨u,hu,hq⟩ := Option.map_eq_some_iff.mp h
    cases hq
    exact ⟨add_effect hf hu,add_fit hf hu,by simp⟩
  | dispatch w pc =>
    obtain ⟨u,hu,hq⟩ := Option.map_eq_some_iff.mp h
    cases hq
    refine ⟨dispatch_effect hu,dispatch_fit hf hu,?_⟩
    intro t ht
    obtain ⟨r,-,rfl⟩ := Option.map_eq_some_iff.mp (Option.mem_toList.mp ht)
    exact le_refl (0 : ℤ)
  | batch w st pc =>
    obtain ⟨u,hu,hq⟩ := Option.map_eq_some_iff.mp h
    cases hq
    exact ⟨batch_effect hu,batch_fit hf hu,by simp⟩
  | purge pc =>
    obtain ⟨u,hu,hq⟩ := Option.map_eq_some_iff.mp h
    cases hq
    exact ⟨purge_effect hu,trivial,by simp⟩
  | close j done =>
    cases done <;> cases h
    exact ⟨.quiet (close_same s j) rfl rfl rfl fun _ => rfl,trivial,by simp⟩
  | bind done =>
    cases done <;> cases h
    refine ⟨.quiet ⟨⟨rfl,rfl,rfl,rfl,rfl,rfl⟩,rfl,rfl,rfl,?_⟩ rfl rfl rfl fun _ => rfl,trivial,by simp⟩
    intro p
    simp [Shared.parkedJobs,Park.Parked.empty,Park.Parked.jobs]
  | setHalting w on done =>
    cases done with
    | true => cases h
    | false =>
      simp only [program,step] at h
      split at h
      · cases h
      · rename_i wk hw
        cases h
        exact ⟨.quiet (setWorker_same hw rfl) rfl rfl rfl fun _ => rfl,trivial,by simp⟩
  | setPaused on done =>
    cases done <;> cases h
    exact ⟨.quiet ⟨⟨rfl,rfl,rfl,rfl,rfl,rfl⟩,rfl,rfl,rfl,fun _ => rfl⟩ rfl rfl rfl fun _ => rfl,
      trivial,by simp⟩

end Varmq.Stats
