import Varmq.Dispatch.Single
import Varmq.Wakeup.Known

namespace Varmq.Wakeup

open Interleaving
open Varmq.Dispatch (Batch PendingPc AddPc QueuePc PurgePc Choice)

variable {cfg : Config} {s s' : Shared} {c : Choice} {l l' : Thread} {new ts ts' xs ys : List Thread}

-- What the steps of the other goroutines leave of the plan the loop is making.
structure Leaves (s s' : Shared) (l : Thread) : Prop where
  refusals : s'.core.refusals = s.core.refusals
  busy : s'.core.busyWorkers ≤ s.core.busyWorkers
  nanos : s'.jobNanos = s.jobNanos ∨ Dispatch.busyOf (proj l) = 1
  nodes : 0 < s.nodes → 0 < s'.nodes ∨
    (s.nodes = 1 ∧ ∃ shrink m, l = .tunePool (.popBack shrink m))

theorem Leaves.frame (h1 : s'.core.refusals = s.core.refusals)
    (h2 : s'.core.busyWorkers ≤ s.core.busyWorkers) (h3 : s'.jobNanos = s.jobNanos)
    (h4 : s.nodes ≤ s'.nodes) : Leaves s s' l :=
  ⟨h1,h2,.inl h3,fun h => .inl (Nat.lt_of_lt_of_le h h4)⟩

theorem batch_leaves {b b' : Batch} {ran ran' : ℕ} {pc pc' : BatchPc}
    (hs : batchStep cfg s b ran pc c = some (s',b',ran',pc')) :
    Leaves s s' (.batch b ran pc) := by
  cases pc with
  | on pc =>
    rcases batch_on hs with ⟨rfl,rfl,rfl,-⟩ | ⟨rfl,rfl,rfl,-⟩ | ⟨-,-,d,pc₁,hp,rfl,-⟩
    · exact .frame rfl (Nat.le_refl _) rfl (Nat.le_refl _)
    · exact .frame rfl (Nat.le_refl _) rfl (Nat.le_refl _)
    · have hd : d.refusals = s.core.refusals ∧ d.busyWorkers ≤ s.core.busyWorkers := by
        cases pc <;> simp only [Dispatch.batchStep] at hp <;>
          grind [Dispatch.Shared.closeJob,Dispatch.Shared.closeJobs,Dispatch.Shared.setJob]
      exact .frame hd.1 hd.2 rfl (Nat.le_refl _)
  | pending pc =>
    obtain ⟨rfl,⟨n,rfl,-⟩ | ⟨d,pc₁,hp,rfl,-⟩⟩ := batch_pending hs
    · exact .frame rfl (Nat.le_refl _) rfl (Nat.le_refl _)
    · obtain ⟨b,rfl⟩ := Dispatch.pending_frame hp
      exact .frame rfl (Nat.le_refl _) rfl (Nat.le_refl _)
  | jobNanos =>
    cases c <;> cases hs
    exact ⟨rfl,Nat.le_refl _,.inr rfl,fun h => .inl h⟩
  | pushNode =>
    cases c <;> cases hs
    exact .frame rfl (Nat.le_refl _) rfl (Nat.le_succ _)
  | releaseWaiters =>
    cases c <;> cases hs
    obtain ⟨q,n,b,he⟩ := alike_releaseWaiters s.core
    exact .frame (by simp only [he]) (by simp only [he]; exact Nat.le_refl _) rfl (Nat.le_refl _)
  | _ =>
    cases c <;> cases hs
    exact .frame rfl (Nat.le_refl _) rfl (Nat.le_refl _)

theorem step_leaves (hl : ∀ pc, l ≠ .loop pc) (hsp : Spares s l)
    (hs : step cfg s l c = some (s',l',new)) : Leaves s s' l := by
  cases step_act hs with
  | loop hp => exact absurd rfl (hl _)
  | batch hp => exact batch_leaves hp
  | @add pc pc' s' hp =>
    obtain ⟨⟨d,pc₁⟩,hd,heq⟩ := Option.map_eq_some_iff.mp hp
    cases heq
    have he : d.refusals = s.core.refusals ∧ d.busyWorkers = s.core.busyWorkers := by
      cases pc <;> cases c <;> simp only [Dispatch.addStep] at hd <;>
        grind [Dispatch.Shared.closeJob,Dispatch.Shared.closeJobs,Dispatch.Shared.setJob]
    exact .frame he.1 (Nat.le_of_eq he.2) rfl (Nat.le_refl _)
  | close => exact .frame rfl (Nat.le_refl _) rfl (Nat.le_refl _)
  | @purge pc pc' d hp =>
    have he : d.refusals = s.core.refusals ∧ d.busyWorkers = s.core.busyWorkers := by
      cases pc with
      | closing js =>
        cases js <;> cases hp
        exact ⟨rfl,rfl⟩
      | _ =>
        simp only [Dispatch.purgeStep] at hp
        grind [Dispatch.Shared.closeJobs]
    exact .frame he.1 (Nat.le_of_eq he.2) rfl (Nat.le_refl _)
  | @queue pc pc' s' hp =>
    obtain ⟨⟨d,pc₁⟩,hd,heq⟩ := Option.map_eq_some_iff.mp hp
    cases heq
    cases pc <;> cases hd <;> exact .frame rfl (Nat.le_refl _) rfl (Nat.le_refl _)
  | @pause pc pc' s' hp =>
    cases pc with
    | call =>
      simp only [pauseStep] at hp
      split at hp <;> cases hp <;> exact .frame rfl (Nat.le_refl _) rfl (Nat.le_refl _)
    | returned r => cases hp
  | @resume pc pc' s' hp =>
    cases pc with
    | cas =>
      simp only [resumeStep] at hp
      split at hp <;> cases hp <;> exact .frame rfl (Nat.le_refl _) rfl (Nat.le_refl _)
    | returned r => cases hp
    | _ =>
      cases hp
      exact .frame rfl (Nat.le_refl _) rfl (Nat.le_refl _)
  | @tunePool pc pc' s' hp =>
    cases pc with
    | popBack shrink m =>
      simp only [tunePoolStep] at hp
      split at hp
      · cases hp
      · split at hp <;> cases hp
        · exact .frame rfl (Nat.le_refl _) rfl (Nat.le_refl _)
        · refine ⟨rfl,Nat.le_refl _,.inl rfl,fun hn => ?_⟩
          by_cases h1 : s.nodes = 1
          · exact .inr ⟨h1,shrink,m,rfl⟩
          · left
            simp only
            omega
    | returned r => cases hp
    | _ =>
      cases hp
      exact .frame rfl (Nat.le_refl _) rfl (Nat.le_refl _)
  | @prune pc pc' s' hp =>
    cases pc with
    | scan keep left =>
      cases left with
      | zero =>
        cases c <;> cases hp
        exact .frame rfl (Nat.le_refl _) rfl (Nat.le_refl _)
      | succ left =>
        obtain ⟨hk,hn⟩ := hsp
        have hn := hn (Nat.succ_pos _)
        cases c with
        | flag drop =>
          cases drop <;> cases hp
          · exact .frame rfl (Nat.le_refl _) rfl (Nat.le_refl _)
          · refine ⟨rfl,Nat.le_refl _,.inl rfl,fun _ => .inl ?_⟩
            simp only
            omega
        | _ => cases hp
    | prune keep =>
      cases c <;> simp only [pruneStep] at hp <;> try cases hp
      split at hp <;> cases hp
      exact .frame rfl (Nat.le_refl _) rfl (Nat.le_refl _)
    | done => cases c <;> cases hp
    | _ =>
      cases c <;> cases hp
      exact .frame rfl (Nat.le_refl _) rfl (Nat.le_refl _)
  | @start pc pc' s' hp =>
    cases pc <;> cases hp <;> exact .frame rfl (Nat.le_refl _) rfl (Nat.le_refl _)

-- With no batch in flight nobody measures a job.
theorem nanos_same (hc : Core s ts) (hl : l ∈ ts) (hv : Leaves s s' l)
    (hb : s.core.busyWorkers = 0) : s'.jobNanos = s.jobNanos := by
  refine hv.nanos.resolve_right fun h1 => ?_
  have hbusy := hc.base.charged.busy
  have hle := le_total (f := Dispatch.busyOf) (List.mem_map_of_mem (f := proj) hl)
  omega

theorem nodes_kept {t : Thread} (hv : Leaves s s' l) (ht : t ∈ xs ++ l :: ys)
    (hok : keepsCounted ⟨s,xs ++ l :: ys⟩ (.act xs.length c) = true) (hr : relies s t = true)
    (hn : 0 < s.nodes) : 0 < s'.nodes := by
  refine (hv.nodes hn).resolve_right ?_
  rintro ⟨h1,shrink,m,rfl⟩
  have hany : (xs ++ .tunePool (.popBack shrink m) :: ys).any (relies s) = true :=
    List.any_eq_true.mpr ⟨t,ht,hr⟩
  simp only [keepsCounted,getElem?_split,hany,h1,decide_true,Bool.true_and,Bool.not_true] at hok
  cases hok

theorem Known.carry {pc : LoopPc} (hk : Known s ts pc) (hcar : Carries s ts s' ts')
    (hr : s'.core.refusals = s.core.refusals)
    (hbusy : s.core.busyWorkers = 0 → s'.core.busyWorkers = 0)
    (hnanos : s.core.busyWorkers = 0 → s'.jobNanos = s.jobNanos)
    (hnodes : relies s (.loop pc) = true → 0 < s.nodes → 0 < s'.nodes) : Known s' ts' pc := by
  cases pc with
  | on pc | releaseWaiters pc => exact KnownOn.carry hk hcar hr
  | limit busy => exact fun hb => (hk hb).carry hcar
  | planLen n busy => exact ⟨fun hb => (hk.1 hb).carry hcar,fun hb => hbusy (hk.2 hb)⟩
  | planShares n busy alive | planGrow n busy alive shares =>
    refine ⟨fun hb => (hk.1 hb).carry hcar,fun hb => ?_⟩
    obtain ⟨hz,hw⟩ := hk.2 hb
    refine ⟨hbusy hz,?_⟩
    rw [hnanos hz]
    by_cases hworth : worthSpawning n s.jobNanos alive = true
    · exact .inl hworth
    · exact .inr (hnodes (by simp [relies,hb,hworth]) (hw.resolve_left hworth))
  | popBack n busy alive shares grow =>
    refine ⟨fun hb => (hk.1 hb).carry hcar,fun hb => ?_⟩
    cases grow with
    | true => exact .inl rfl
    | false => exact .inr (hnodes (by simp [relies,hb]) ((hk.2 hb).resolve_left (by simp)))
  | pushLen k cont | pushNode k cont => exact fun hn => (hk hn).carry hcar
  | _ => trivial

theorem known_other {pc : LoopPc} (hc : Core s (xs ++ l :: ys)) (hv : Leaves s s' l)
    (hok : keepsCounted ⟨s,xs ++ l :: ys⟩ (.act xs.length c) = true)
    (hcar : Carries s (xs ++ l :: ys) s' ts) (hpc : .loop pc ∈ xs ++ l :: ys)
    (hk : Known s (xs ++ l :: ys) pc) : Known s' ts pc := by
  refine hk.carry hcar hv.refusals (fun hb => ?_) (nanos_same hc (by simp) hv)
    fun hr => nodes_kept hv hpc hok hr
  have := hv.busy
  omega

theorem withSafeConcurrency_pos (cfg : Config) (n : ℤ) : 0 < withSafeConcurrency cfg n := by
  unfold withSafeConcurrency
  split
  · exact cfg.cpus_pos
  · omega

structure Limits (cfg : Config) (s s' : Shared) (l l' : Thread) : Prop where
  limit : s'.core.concurrency = s.core.concurrency ∨
    ∃ old, l = .tunePool (.store old s'.core.concurrency)
  stores : ∀ old safe, l' = .tunePool (.store old safe) → ∃ n, safe = withSafeConcurrency cfg n
  loops : isLoop l' = isLoop l

theorem Limits.frame (hl : s'.core.concurrency = s.core.concurrency)
    (ht : ∀ pc, l' ≠ .tunePool pc) (hi : isLoop l' = isLoop l) : Limits cfg s s' l l' :=
  ⟨.inl hl,fun _ _ he => absurd he (ht _),hi⟩

theorem releaseWaiters_limit (d : Dispatch.Shared) :
    (releaseWaiters d).concurrency = d.concurrency := by
  unfold releaseWaiters
  grind

theorem loop_limit {pc pc' : LoopPc} (hs : loopStep s pc c = some (s',pc',new)) :
    s'.core.concurrency = s.core.concurrency := by
  cases pc with
  | on pc =>
    rcases loop_on hs with ⟨rfl,-,rfl,rfl,rfl⟩ | ⟨rfl,rfl,rfl,rfl⟩ | ⟨-,-,-,d,pc₁,new₁,hp,rfl,rfl,rfl⟩
    · rfl
    · rfl
    · exact (Dispatch.loop_claims hp).limit
  | releaseWaiters pc =>
    cases c <;> cases hs
    exact releaseWaiters_limit s.core
  | popBack n busy alive shares grow =>
    cases c <;> simp only [loopStep] at hs <;> try cases hs
    split at hs
    · cases hs
    · split at hs <;> cases hs <;> rfl
  | _ =>
    cases c <;> cases hs
    rfl

theorem batch_limit {b b' : Batch} {ran ran' : ℕ} {pc pc' : BatchPc}
    (hs : batchStep cfg s b ran pc c = some (s',b',ran',pc')) :
    s'.core.concurrency = s.core.concurrency := by
  cases pc with
  | on pc =>
    rcases batch_on hs with ⟨rfl,rfl,rfl,-⟩ | ⟨rfl,rfl,rfl,-⟩ | ⟨-,-,d,pc₁,hp,rfl,-⟩
    · rfl
    · rfl
    · exact (Dispatch.batch_claims hp).limit
  | pending pc =>
    obtain ⟨rfl,⟨n,rfl,-⟩ | ⟨d,pc₁,hp,rfl,-⟩⟩ := batch_pending hs
    · rfl
    · obtain ⟨b,rfl⟩ := Dispatch.pending_frame hp
      rfl
  | releaseWaiters =>
    cases c <;> cases hs
    exact releaseWaiters_limit s.core
  | _ =>
    cases c <;> cases hs
    rfl

theorem step_limits (hs : step cfg s l c = some (s',l',new)) : Limits cfg s s' l l' := by
  cases step_act hs with
  | @tunePool pc pc' s' hp =>
    cases pc with
    | store old safe =>
      cases hp
      refine ⟨.inr ⟨old,rfl⟩,fun old' safe' he => ?_,rfl⟩
      split at he
      · cases he
      · split at he <;> cases he
    | load n =>
      cases hp
      refine ⟨.inl rfl,fun old safe he => ?_,rfl⟩
      split at he <;> cases he
      exact ⟨n,rfl⟩
    | popBack shrink m =>
      simp only [tunePoolStep] at hp
      split at hp
      · cases hp
      · split at hp <;> cases hp <;> exact ⟨.inl rfl,by simp,rfl⟩
    | active n | len shrink m =>
      cases hp
      refine ⟨.inl rfl,fun old safe he => ?_,rfl⟩
      split at he <;> cases he
    | returned r => cases hp
    | _ =>
      cases hp
      exact ⟨.inl rfl,by simp,rfl⟩
  | loop hp => exact .frame (loop_limit hp) (by simp) rfl
  | batch hp => exact .frame (batch_limit hp) (by simp) rfl
  | @add pc pc' s' hp =>
    obtain ⟨⟨d,pc₁⟩,hd,heq⟩ := Option.map_eq_some_iff.mp hp
    cases heq
    have hd' : Dispatch.step s.core (.add pc) c = some (d,.add pc',[]) := by
      simp only [Dispatch.step,hd,Option.map_some]
    exact .frame (Dispatch.step_claims hd').limit (by simp) rfl
  | close => exact .frame rfl (by simp) rfl
  | @purge pc pc' d hp =>
    have hd' : Dispatch.step s.core (.purge pc) .go = some (d,.purge pc',[]) := by
      simp only [Dispatch.step,hp,Option.map_some]
    exact .frame (Dispatch.step_claims hd').limit (by simp) rfl
  | @queue pc pc' s' hp =>
    obtain ⟨⟨d,pc₁⟩,hd,heq⟩ := Option.map_eq_some_iff.mp hp
    cases heq
    cases pc <;> cases hd <;> exact .frame rfl (by simp) rfl
  | @pause pc pc' s' hp =>
    cases pc with
    | call =>
      simp only [pauseStep] at hp
      split at hp <;> cases hp <;> exact .frame rfl (by simp) rfl
    | returned r => cases hp
  | @resume pc pc' s' hp =>
    cases pc with
    | cas =>
      simp only [resumeStep] at hp
      split at hp <;> cases hp <;> exact .frame rfl (by simp) rfl
    | returned r => cases hp
    | _ =>
      cases hp
      exact .frame rfl (by simp) rfl
  | @prune pc pc' s' hp =>
    have he : s'.core = s.core := by
      unfold pruneStep at hp
      grind
    exact .frame (by rw [he]) (by simp) rfl
  | @start pc pc' s' hp => cases pc <;> cases hp <;> exact .frame rfl (by simp) rfl

theorem awake_call (h : Awake s ts) (he : entry cfg s l = true) : Awake s (ts ++ [l]) := by
  have hl : isLoop l = 0 ∧ (∀ pc, l ≠ .loop pc) ∧ ∀ old safe, l ≠ .tunePool (.store old safe) := by
    unfold entry at he
    split at he <;> first | exact ⟨rfl,by simp,by simp⟩ | cases he
  have hcar : Carries s ts s (ts ++ [l]) := by
    refine ⟨.inl,fun ho _ => ?_,.inl rfl,.inl,.inl⟩
    exact ho.imp_right fun ⟨t,ht,hw⟩ => ⟨t,by simp [ht],hw⟩
  refine ⟨core_call h.core he,pooled_call h.pooled he,h.limit,fun old safe hm => ?_,?_,fun pc hm => ?_⟩
  · rcases List.mem_append.mp hm with hm | hm
    · exact h.stores old safe hm
    · exact absurd (List.mem_singleton.mp hm).symm (hl.2.2 old safe)
  · rw [total_call,hl.1]
    exact h.loops
  · rcases List.mem_append.mp hm with hm | hm
    · exact (h.known pc hm).carry hcar rfl (fun hb => hb) (fun _ => rfl) fun _ hn => hn
    · exact absurd (List.mem_singleton.mp hm).symm (hl.2.1 pc)

theorem awake_act (h : Awake s (xs ++ l :: ys))
    (hok : keepsCounted ⟨s,xs ++ l :: ys⟩ (.act xs.length c) = true)
    (hs : step cfg s l c = some (s',l',new)) : Awake s' (xs ++ l' :: (ys ++ new)) := by
  have hlim := step_limits hs
  have hloops := h.loops
  rw [total_split] at hloops
  have hcases : ∀ t ∈ xs ++ l' :: (ys ++ new), t ∈ xs ++ ys ∨ t = l' ∨
      ∃ b ran pc, t = .batch b ran (.on pc) :=
    fun t ht => (mem_act ht).imp_right fun h => h.imp_right (step_new hs t)
  refine ⟨core_act h.core hs,pooled_act h.pooled hs,?_,fun old safe hm => ?_,?_,fun pc hm => ?_⟩
  · rcases hlim.limit with he | ⟨old,rfl⟩
    · rw [he]
      exact h.limit
    · exact h.stores old _ (by simp)
  · rcases hcases _ hm with hm | hm | ⟨b,ran,pc,hm⟩
    · exact h.stores old safe (mem_of_other hm)
    · obtain ⟨n,rfl⟩ := hlim.stores old safe hm.symm
      exact withSafeConcurrency_pos cfg n
    · cases hm
  · have hn : total isLoop new = 0 := total_new (fun _ _ _ => rfl) hs
    have hi := hlim.loops
    rw [total_act]
    omega
  · by_cases hl : ∃ pc₀, l = .loop pc₀
    · obtain ⟨pc₀,rfl⟩ := hl
      have hno : .loop pc ∉ xs ++ ys := by
        intro hin
        have := le_total (f := isLoop) hin
        simp only [isLoop] at this hloops
        omega
      rcases hcases _ hm with hm | hm | ⟨b,ran,pc',hm⟩
      · exact absurd hm hno
      · subst hm
        cases step_act hs with
        | loop hp => exact loop_known h hok hp
      · cases hm
    · push Not at hl
      have hnl : ∀ pc, l' ≠ .loop pc := by
        rintro pc rfl
        have hi := hlim.loops
        cases l with
        | loop pc => exact hl pc rfl
        | _ => cases hi
      rcases hcases _ hm with hm | hm | ⟨b,ran,pc',hm⟩
      · have hv := step_leaves hl (h.pooled.spares l (by simp)) hs
        exact known_other h.core hv hok (step_wakes hl hs).carries (mem_of_other hm)
          (h.known pc (mem_of_other hm))
      · exact absurd hm.symm (hnl pc)
      · cases hm

theorem awake_newWorker (cfg : Config) (n : ℤ) :
    Awake (newWorker cfg n).shared (newWorker cfg n).threads := by
  have hsafe : ∀ ts, Safe (newWorker cfg n).shared ts :=
    fun ts => safe_of_not_live fun hl => by cases hl.1
  refine ⟨core_newWorker cfg n,⟨rfl,rfl,?_⟩,withSafeConcurrency_pos cfg n,?_,Nat.le_refl _,?_⟩
  · simp [newWorker,Spares]
  · simp [newWorker]
  · intro pc hm
    simp only [newWorker,List.mem_cons,Thread.loop.injEq,reduceCtorEq,List.not_mem_nil,
      or_false] at hm
    subst hm
    exact hsafe _

theorem awake_reach {n : ℤ} {w : World Shared Thread}
    (h : (program cfg).Reach keepsCounted (newWorker cfg n) w) : Awake w.shared w.threads := by
  refine Program.reach_invariant (I := Awake) (awake_newWorker cfg n) ?_ ?_ h
  · exact fun s ts l hI _ he => awake_call hI he
  · exact fun s xs l ys c s' l' new hI hok hs => awake_act hI hok hs

-- An unheld job waits only while the queue is not paused.
theorem waiting_jobs (hst : ∀ b ∈ s.core.park.batches, Dispatch.Filed b)
    (h : unheldWaiting s.core = true) :
    s.core.paused = false ∧ (s.core.slots ≠ [] ∨ s.core.park.jobs ≠ []) := by
  simp only [unheldWaiting,Bool.or_eq_true,Bool.and_eq_true,Bool.not_eq_true',List.any_eq_true] at h
  rcases h with ⟨hp,hq⟩ | ⟨b,hb,hh,hj⟩
  · refine ⟨hp,.inl fun hz => ?_⟩
    simp [hz] at hq
  · rw [Dispatch.held_of_bound (hst b hb).2] at hh
    refine ⟨hh,.inr fun hz => (hst b hb).1 ?_⟩
    exact (List.flatMap_eq_nil_iff.mp hz) b hb

theorem no_lost_wakeup {n : ℤ} {w : World Shared Thread}
    (h : (program cfg).Reach keepsCounted (newWorker cfg n) w) : lostWakeup w = false := by
  have ha := awake_reach h
  by_contra hlost
  simp only [lostWakeup,Bool.not_eq_false,Bool.and_eq_true,Bool.not_eq_true',List.all_eq_true,
    List.contains_eq_mem,decide_eq_true_eq] at hlost
  obtain ⟨⟨⟨⟨⟨hloop,hsig⟩,hact⟩,-⟩,hwait⟩,hno⟩ := hlost
  obtain ⟨hp,hjobs⟩ := waiting_jobs ha.core.stamped.parked hwait
  rcases ha.known (.on .select) hloop ⟨hact,hp⟩ hjobs with ho | ⟨t,ht,ho⟩
  · rw [ho] at hsig
    cases hsig
  · have := hno t ht
    simp [willSignal,ho,hp] at this

def goes (i n : ℕ) : List (Event Thread Choice) := List.replicate n (.act i .go)

def addRun (i : ℕ) : List (Event Thread Choice) :=
  ([.call (.add .new),.act i .go,.act i (.flag true)] : Events Thread Choice) ++ goes i 3

-- One job is run and measured, its node is idle again, and a second job is added.
def measuredRun : List (Event Thread Choice) :=
  goes 1 2 ++ addRun 2 ++ goes 0 44 ++ goes 3 5 ++ ([.act 3 (.pick 1)] : Events Thread Choice) ++
  goes 3 14 ++ addRun 4

def keepAll : Config := ⟨100,false,1,by decide⟩

theorem no_lost_wakeup_dispatched :
    ∃ w, (program keepAll).Reach keepsCounted (newWorker keepAll 4) w ∧
      w.shared.core.started = [0] ∧ w.shared.core.slots = [(1,true)] ∧ lostWakeup w = false := by
  obtain ⟨w,hr,hp⟩ := Program.exists_reach_of_run (program keepAll) keepsCounted
    (newWorker keepAll 4) measuredRun
    (fun w => w.shared.core.started = [0] && w.shared.core.slots = [(1,true)]) (by decide +kernel)
  simp only [Bool.and_eq_true,decide_eq_true_eq] at hp
  exact ⟨w,hr,hp.1,hp.2,no_lost_wakeup hr⟩

-- TunePool takes the only idle node, which is not as many as it should leave, after planBatch has
-- counted it: nobody is busy, nobody is spawned, and nobody is left to signal.
theorem wakeup_lost_to_tunePool :
    ∃ w, (program keepAll).Reach always (newWorker keepAll 4) w ∧ lostWakeup w = true :=
  Program.exists_reach_of_run (program keepAll) always (newWorker keepAll 4)
    (measuredRun ++ goes 0 18 ++ .call (.tunePool (.active 3)) :: goes 5 8 ++ goes 0 1) lostWakeup
    (by decide +kernel)

end Varmq.Wakeup
