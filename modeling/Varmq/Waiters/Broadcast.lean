import Varmq.Waiters.Basic

namespace Varmq.Waiters

open Interleaving
open Varmq.Worker (Status)
open Varmq.Lifecycle (Choice FinishPc WaitKind WaitPc LoopPc BatchPc RestartPc StartPc StopPc
  BroadcastPc weights)

def finishSure : FinishPc → Bool
  | .casIdle | .recheck | .casBack | .casPaused | .wake => true
  | _ => false

-- The goroutine executes a Broadcast whatever the others do.
def sure : Lifecycle.Thread → Bool
  | .loop _ (.finish pc _) | .batch (.finish pc) => finishSure pc
  | .loop _ .stopWake | .pause .wake | .resume .lock | .resume .wake | .start .wake => true
  | .restart (.start .wake) | .broadcast .lock | .broadcast .wake => true
  | _ => false

def finishDrained : FinishPc → Bool
  | .lock | .load => true
  | _ => false

-- It brought curProcessing to 0 and executes a Broadcast if it finds it there.
def drained : Lifecycle.Thread → Bool
  | .loop _ (.finish pc _) | .batch (.finish pc) => finishDrained pc
  | _ => false

structure Signals (s s' : Lifecycle.Shared) (l l' : Lifecycle.Thread) : Prop where
  wakes : s'.wakes = s.wakes ∨ s.wakes < s'.wakes ∧ 0 < (weights l).crit
  kept : sure l = true → sure l' = true ∨ s.wakes < s'.wakes
  found : s.curProcessing = 0 → drained l = true → drained l' = true ∨ sure l' = true
  zero : s'.curProcessing = 0 → s.curProcessing = 0 ∨ drained l' = true
  paused : s'.status = .paused → s.status = .paused ∨ sure l' = true
  stopped : s'.status = .stopped → s.status = .stopped ∨ sure l' = true
  active : s'.status.isActive = true → s.status.isActive = true ∨ sure l' = true
  initiated : s'.status = .initiated → s.status = .initiated

variable {s s' : Lifecycle.Shared} {l l' : Lifecycle.Thread} {c : Choice}
  {new : List Lifecycle.Thread}

theorem Signals.frame (hw : s'.wakes = s.wakes) (hc : s'.curProcessing = s.curProcessing)
    (hq : s'.status = s.status) (hu : sure l = false) (hd : drained l = false) :
    Signals s s' l l' := by
  refine ⟨.inl hw,fun h => ?_,fun _ h => ?_,fun h => .inl (hc ▸ h),fun h => .inl (hq ▸ h),
    fun h => .inl (hq ▸ h),fun h => .inl (hq ▸ h),fun h => hq ▸ h⟩
  · rw [hu] at h
    cases h
  · rw [hd] at h
    cases h

structure Finishes (s s' : Lifecycle.Shared) (pc : FinishPc) (o : Option FinishPc) : Prop where
  wakes : s'.wakes = s.wakes ∨ s.wakes < s'.wakes ∧ 0 < pc.crit
  kept : finishSure pc = true → (∃ q, o = some q ∧ finishSure q = true) ∨ s.wakes < s'.wakes
  found : s.curProcessing = 0 → finishDrained pc = true →
    ∃ q, o = some q ∧ (finishDrained q = true ∨ finishSure q = true)
  zero : s'.curProcessing = 0 → s.curProcessing = 0 ∨ ∃ q, o = some q ∧ finishDrained q = true
  paused : s'.status = .paused → s.status = .paused ∨ ∃ q, o = some q ∧ finishSure q = true
  stopped : s'.status = .stopped → s.status = .stopped
  active : s'.status.isActive = true → s.status.isActive = true
  initiated : s'.status = .initiated → s.status = .initiated

theorem finish_finishes {pc : FinishPc} {o : Option FinishPc}
    (hs : Lifecycle.finishStep s pc = some (s',o)) : Finishes s s' pc o := by
  cases pc <;> simp only [Lifecycle.finishStep] at hs <;> constructor <;>
    grind [finishSure,finishDrained,FinishPc.crit,Status.isActive]

theorem loop_finish {k : ℕ} {pc : FinishPc} {r : Lifecycle.Ret} {pc' : LoopPc}
    (hs : Lifecycle.loopStep s k (.finish pc r) c = some (s',pc',new)) :
    ∃ o, Lifecycle.finishStep s pc = some (s',o) ∧
      pc' = (match o with | some q => .finish q r | none => r.pc) := by
  cases c <;> simp only [Lifecycle.loopStep] at hs <;> try cases hs
  split at hs <;> cases hs
  · exact ⟨_,‹_›,rfl⟩
  · exact ⟨_,‹_›,rfl⟩

theorem batch_finish {pc : FinishPc} {pc' : BatchPc}
    (hs : Lifecycle.batchStep s (.finish pc) c = some (s',pc')) :
    ∃ o, Lifecycle.finishStep s pc = some (s',o) ∧
      pc' = (match o with | some q => .finish q | none => .notify) := by
  cases c <;> simp only [Lifecycle.batchStep] at hs <;> try cases hs
  split at hs <;> cases hs
  · exact ⟨_,‹_›,rfl⟩
  · exact ⟨_,‹_›,rfl⟩

theorem finish_signals {pc : FinishPc} {o : Option FinishPc} (f : Finishes s s' pc o)
    (hu : sure l = finishSure pc) (hd : drained l = finishDrained pc)
    (hu' : ∀ q, o = some q → sure l' = finishSure q)
    (hd' : ∀ q, o = some q → drained l' = finishDrained q)
    (hc : pc.crit ≤ (weights l).crit) : Signals s s' l l' := by
  refine ⟨f.wakes.imp_right fun h => ⟨h.1,Nat.lt_of_lt_of_le h.2 hc⟩,fun h => ?_,fun hz h => ?_,
    fun h => ?_,fun h => ?_,fun h => .inl (f.stopped h),fun h => .inl (f.active h),f.initiated⟩
  · rcases f.kept (hu ▸ h) with ⟨q,hq,h1⟩ | h1
    · exact .inl ((hu' q hq).trans h1)
    · exact .inr h1
  · obtain ⟨q,hq,h1 | h1⟩ := f.found hz (hd ▸ h)
    · exact .inl ((hd' q hq).trans h1)
    · exact .inr ((hu' q hq).trans h1)
  · rcases f.zero h with h1 | ⟨q,hq,h1⟩
    · exact .inl h1
    · exact .inr ((hd' q hq).trans h1)
  · rcases f.paused h with h1 | ⟨q,hq,h1⟩
    · exact .inl h1
    · exact .inr ((hu' q hq).trans h1)

theorem wait_frame {k : WaitKind} {pc pc' : WaitPc} {armed : Bool}
    (hs : Lifecycle.waitStep k s pc c = some (s',pc',armed)) :
    s'.wakes = s.wakes ∧ s'.curProcessing = s.curProcessing ∧ s'.status = s.status := by
  cases pc <;> cases c <;> simp only [Lifecycle.waitStep] at hs <;> grind

theorem loop_signals {k : ℕ} {pc pc' : LoopPc}
    (hs : Lifecycle.loopStep s k pc c = some (s',pc',new)) :
    Signals s s' (.loop k pc) (.loop k pc') := by
  cases pc with
  | finish pc r =>
    obtain ⟨o,hp,rfl⟩ := loop_finish hs
    refine finish_signals (finish_finishes hp) rfl rfl ?_ ?_ ?_
    · rintro q rfl
      rfl
    · rintro q rfl
      rfl
    · cases r <;> cases pc <;> exact Nat.le_refl _
  | wait pc =>
    have he : s'.wakes = s.wakes ∧ s'.curProcessing = s.curProcessing ∧ s'.status = s.status := by
      simp only [Lifecycle.loopStep] at hs
      split at hs <;> cases hs <;> exact wait_frame ‹_›
    exact .frame he.1 he.2.1 he.2.2 rfl rfl
  | count m n =>
    cases c <;> cases hs
    refine ⟨.inl rfl,(fun h => by cases h),(fun _ h => by cases h),fun h => .inl ?_,.inl,.inl,.inl,
      id⟩
    simp only at h
    omega
  | claim m n =>
    cases c <;> simp only [Lifecycle.loopStep] at hs <;> try cases hs
    split at hs <;> cases hs
    · refine ⟨.inl rfl,(fun h => by cases h),(fun _ h => by cases h),.inl,?_,?_,fun _ => .inl ?_,?_⟩
      · intro h; cases h
      · intro h; cases h
      · rw [‹s.status = .idle›]
        rfl
      · intro h; cases h
    · exact .frame rfl rfl rfl rfl rfl
  | stopStore =>
    cases c <;> cases hs
    exact ⟨.inl rfl,(fun h => by cases h),(fun _ h => by cases h),.inl,(fun h => by cases h),
      fun _ => .inr rfl,(fun h => by cases h),fun h => by cases h⟩
  | stopWake =>
    cases c <;> cases hs
    exact ⟨.inr ⟨Nat.lt_succ_self _,Nat.one_pos⟩,fun _ => .inr (Nat.lt_succ_self _),(fun _ h => by cases h),.inl,.inl,.inl,.inl,
      id⟩
  | select =>
    cases c <;> simp only [Lifecycle.loopStep] at hs <;> try cases hs
    · split at hs <;> cases hs
      exact ⟨.inl rfl,(fun h => by cases h),(fun _ h => by cases h),.inl,(fun h => by cases h),
        (fun h => by cases h),(fun h => by cases h),fun h => by cases h⟩
    · split at hs <;> cases hs
      exact .frame rfl rfl rfl rfl rfl
  | _ =>
    have he : s'.wakes = s.wakes ∧ s'.curProcessing = s.curProcessing ∧ s'.status = s.status := by
      cases c <;> simp only [Lifecycle.loopStep] at hs <;> grind
    exact .frame he.1 he.2.1 he.2.2 rfl rfl

theorem batch_signals {pc pc' : BatchPc} (hs : Lifecycle.batchStep s pc c = some (s',pc')) :
    Signals s s' (.batch pc) (.batch pc') := by
  cases pc with
  | finish pc =>
    obtain ⟨o,hp,rfl⟩ := batch_finish hs
    refine finish_signals (finish_finishes hp) rfl rfl ?_ ?_ ?_
    · rintro q rfl
      rfl
    · rintro q rfl
      rfl
    · cases pc <;> exact Nat.le_refl _
  | _ =>
    have he : s'.wakes = s.wakes ∧ s'.curProcessing = s.curProcessing ∧ s'.status = s.status := by
      cases c <;> simp only [Lifecycle.batchStep] at hs <;> grind
    exact .frame he.1 he.2.1 he.2.2 rfl rfl

theorem stop_frame {pc pc' : StopPc} (hs : Lifecycle.stopStep s pc = some (s',pc')) :
    s'.wakes = s.wakes ∧ s'.curProcessing = s.curProcessing ∧
      (s'.status = s.status ∨ s'.status = .stopping) := by
  cases pc with
  | cas seen rest => cases rest <;> simp only [Lifecycle.stopStep] at hs <;> grind
  | _ => simp only [Lifecycle.stopStep] at hs; grind

theorem Signals.stopping (hw : s'.wakes = s.wakes) (hc : s'.curProcessing = s.curProcessing)
    (hq : s'.status = s.status ∨ s'.status = .stopping) (hu : sure l = false)
    (hd : drained l = false) : Signals s s' l l' := by
  rcases hq with hq | hq
  · exact .frame hw hc hq hu hd
  · refine ⟨.inl hw,fun h => ?_,fun _ h => ?_,fun h => .inl (hc ▸ h),?_,?_,?_,?_⟩
    · rw [hu] at h
      cases h
    · rw [hd] at h
      cases h
    all_goals
      rw [hq]
      intro h
      cases h

theorem start_signals {pc pc' : StartPc} (hs : Lifecycle.startStep s pc = some (s',pc',new)) :
    Signals s s' (.start pc) (.start pc') := by
  cases pc <;> simp only [Lifecycle.startStep] at hs <;> constructor <;>
    grind [sure,drained,weights,Lifecycle.startWeights,Status.isActive]

theorem restart_signals {pc pc' : RestartPc} (hs : Lifecycle.restartStep s pc = some (s',pc',new)) :
    Signals s s' (.restart pc) (.restart pc') := by
  cases pc with
  | stop pc =>
    rcases Lifecycle.restart_stop hs with ⟨seen,moved,r,rfl,rfl,rfl,rfl⟩ | ⟨pc₁,hp,rfl,rfl⟩
    · exact .frame rfl rfl rfl rfl rfl
    · obtain ⟨h1,h2,h3⟩ := stop_frame hp
      exact .stopping h1 h2 h3 rfl rfl
  | start pc =>
    rcases Lifecycle.restart_start hs with ⟨r,rfl,rfl,rfl,rfl⟩ | ⟨pc₁,hp,rfl⟩
    · exact .frame rfl rfl rfl rfl rfl
    · have h := start_signals hp
      have hu : ∀ q, sure (.restart (.start q)) = sure (.start q) := fun q => by cases q <;> rfl
      refine ⟨h.wakes,?_,(fun _ h => by cases h),?_,?_,?_,?_,h.initiated⟩
      · rw [hu,hu]
        exact h.kept
      · exact fun hz => (h.zero hz).imp_right fun h => by cases h
      · rw [hu]
        exact h.paused
      · rw [hu]
        exact h.stopped
      · rw [hu]
        exact h.active
  | _ =>
    have he : s'.wakes = s.wakes ∧ s'.curProcessing = s.curProcessing ∧ s'.status = s.status := by
      simp only [Lifecycle.restartStep] at hs
      grind
    exact .frame he.1 he.2.1 he.2.2 rfl rfl

theorem step_signals (hs : Lifecycle.step s l c = some (s',l',new)) : Signals s s' l l' := by
  cases Lifecycle.step_act hs with
  | loop hp => exact loop_signals hp
  | batch hp => exact batch_signals hp
  | @pause pc pc' s' hp =>
    cases pc <;> simp only [Lifecycle.pauseStep] at hp <;> constructor <;>
      grind [sure,drained,weights,Lifecycle.pauseWeights,Status.isActive]
  | @resume pc pc' s' hp =>
    cases pc <;> simp only [Lifecycle.resumeStep] at hp <;> constructor <;>
      grind [sure,drained,weights,Lifecycle.resumeWeights,Status.isActive]
  | stop hp =>
    obtain ⟨h1,h2,h3⟩ := stop_frame hp
    exact .stopping h1 h2 h3 rfl rfl
  | start hp => exact start_signals hp
  | restart hp => exact restart_signals hp
  | waiter hp =>
    obtain ⟨h1,h2,h3⟩ := wait_frame hp
    exact .frame h1 h2 h3 rfl rfl
  | @broadcast pc pc' s' hp =>
    cases pc <;> simp only [Lifecycle.broadcastStep] at hp <;> constructor <;>
      grind [sure,drained,weights,Lifecycle.broadcastWeights]
  | cancelParent => exact .frame rfl rfl rfl rfl rfl
  | notify => exact .frame rfl rfl rfl rfl rfl
  | tunePool => exact .frame rfl rfl rfl rfl rfl

end Varmq.Waiters
