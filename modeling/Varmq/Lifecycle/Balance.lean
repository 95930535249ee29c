import Varmq.Lifecycle.Weights

namespace Varmq.Lifecycle

open Interleaving
open Varmq.Worker (Status Error)

variable {s s' : Shared} {y a w : Weights}

namespace Balanced

theorem frame (h : Balanced s w) (hs : s'.status = s.status)
    (hc : s'.curProcessing = s.curProcessing) (hm : s'.mx = s.mx) : Balanced s' w := by
  obtain ⟨h1,h2,h3,h4,h5,h6,h7,h8,h9,h10,h11⟩ := h
  exact ⟨by rwa [hm],by rwa [hc],by rwa [hs],by rwa [hs],by rwa [hs],h6,by rwa [hs],by rwa [hs],
    by rwa [hs],h10,by rwa [hs]⟩

theorem lock (h : Balanced s (y.add a)) (hm : ¬s.mx = true) :
    Balanced { s with mx := true } (y.add { a with crit := a.crit + 1 }) := by
  obtain ⟨h1,h2,h3,h4,h5,h6,h7,h8,h9,h10,h11⟩ := h
  simp only [Weights.add] at *
  refine ⟨?_,h2,h3,h4,h5,h6,h7,h8,h9,h10,h11⟩
  rw [if_neg hm] at h1
  simp only [if_true]
  omega

theorem unlock (h : Balanced s (y.add { a with crit := a.crit + 1 })) :
    Balanced { s with mx := false } (y.add a) := by
  obtain ⟨h1,h2,h3,h4,h5,h6,h7,h8,h9,h10,h11⟩ := h
  simp only [Weights.add] at *
  refine ⟨?_,h2,h3,h4,h5,h6,h7,h8,h9,h10,h11⟩
  simp only [Bool.false_eq_true,if_false]
  split at h1 <;> omega

theorem fewer {p : ℕ} (h : Balanced s (y.add a)) (hp : p ≤ a.passed) :
    Balanced s (y.add { a with passed := p }) := by
  obtain ⟨h1,h2,h3,h4,h5,h6,h7,h8,h9,h10,h11⟩ := h
  simp only [Weights.add] at *
  constructor <;> grind

theorem count {k : ℕ} (hy : Within y) (h : Balanced s (y.add { Weights.zero with live := 1 })) :
    Balanced { s with curProcessing := s.curProcessing + k }
      (y.add { Weights.zero with live := 1, reserved := k }) := by
  obtain ⟨h1,h2,h3,h4,h5,h6,h7,h8,h9,h10,h11⟩ := h
  obtain ⟨y1,y2,y3,y4⟩ := hy
  simp only [Weights.add,Weights.zero] at *
  constructor <;> grind

theorem pass {k : ℕ} (h : Balanced s (y.add { Weights.zero with live := 1, reserved := k }))
    (hs : s.status = .running) :
    Balanced s (y.add { Weights.zero with live := 1, reserved := k, passed := k }) := by
  obtain ⟨h1,h2,h3,h4,h5,h6,h7,h8,h9,h10,h11⟩ := h
  simp only [Weights.add,Weights.zero] at *
  constructor <;> grind

theorem wakeUp (h : Balanced s w) (hs : s.status = .idle) :
    Balanced { s with status := .running } w := by
  obtain ⟨h1,h2,h3,h4,h5,h6,h7,h8,h9,h10,h11⟩ := h
  constructor <;> grind

theorem stopping (h : Balanced s w) (hl : w.launching = 0) :
    Balanced { s with status := .stopping } w := by
  obtain ⟨h1,h2,h3,h4,h5,h6,h7,h8,h9,h10,h11⟩ := h
  constructor <;> grind

theorem cancelled (hy : Within y) (h : Balanced s (y.add { Weights.zero with live := 1 })) :
    Balanced { s with status := .stopping }
      (y.add { Weights.zero with live := 1, waiting := 1 }) := by
  obtain ⟨h1,h2,h3,h4,h5,h6,h7,h8,h9,h10,h11⟩ := h
  obtain ⟨y1,y2,y3,y4⟩ := hy
  simp only [Weights.add,Weights.zero] at *
  constructor <;> grind

theorem shutting (h : Balanced s (y.add { Weights.zero with live := 1, crit := 1, waiting := 1 }))
    (hc : s.curProcessing = 0) :
    Balanced s (y.add { Weights.zero with live := 1, crit := 1, shut := 1, waiting := 1 }) := by
  obtain ⟨h1,h2,h3,h4,h5,h6,h7,h8,h9,h10,h11⟩ := h
  simp only [Weights.add,Weights.zero] at *
  constructor <;> grind

theorem stopped (hy : Within y)
    (h : Balanced s (y.add { Weights.zero with live := 1, shut := 1, crit := 1, waiting := 1 })) :
    Balanced { s with status := .stopped }
      (y.add { Weights.zero with crit := 1, ending := 1 }) := by
  obtain ⟨h1,h2,h3,h4,h5,h6,h7,h8,h9,h10,h11⟩ := h
  obtain ⟨y1,y2,y3,y4⟩ := hy
  simp only [Weights.add,Weights.zero] at *
  constructor <;> grind

theorem ended (h : Balanced s (y.add { Weights.zero with crit := 1, ending := 1 })) :
    Balanced s (y.add { Weights.zero with crit := 1 }) := by
  obtain ⟨h1,h2,h3,h4,h5,h6,h7,h8,h9,h10,h11⟩ := h
  exact ⟨h1,h2,h3,h4,h5,h6,h7,h8,h9,h10,h11⟩

theorem pauseIdle (hy : Within y) (h : Balanced s (y.add { Weights.zero with crit := 1 }))
    (hs : s.status = .idle) :
    Balanced { s with status := .paused } (y.add { Weights.zero with crit := 1 }) := by
  obtain ⟨h1,h2,h3,h4,h5,h6,h7,h8,h9,h10,h11⟩ := h
  obtain ⟨y1,y2,y3,y4⟩ := hy
  simp only [Weights.add,Weights.zero] at *
  constructor <;> grind

theorem pauseRunning (hy : Within y) (h : Balanced s (y.add { Weights.zero with crit := 1 }))
    (hs : s.status = .running) :
    Balanced { s with status := .pausing } (y.add { Weights.zero with crit := 1 }) := by
  obtain ⟨h1,h2,h3,h4,h5,h6,h7,h8,h9,h10,h11⟩ := h
  obtain ⟨y1,y2,y3,y4⟩ := hy
  simp only [Weights.add,Weights.zero] at *
  constructor <;> grind

theorem drain (hy : Within y) (h : Balanced s (y.add { Weights.zero with crit := 1 }))
    (hc : s.curProcessing = 0) :
    Balanced s (y.add { Weights.zero with crit := 1, drained := 1 }) := by
  obtain ⟨h1,h2,h3,h4,h5,h6,h7,h8,h9,h10,h11⟩ := h
  obtain ⟨y1,y2,y3,y4⟩ := hy
  simp only [Weights.add,Weights.zero] at *
  constructor <;> grind

theorem drained_off (h : Balanced s (y.add { Weights.zero with crit := 1, drained := 1 })) :
    Balanced s (y.add { Weights.zero with crit := 1 }) := by
  obtain ⟨h1,h2,h3,h4,h5,h6,h7,h8,h9,h10,h11⟩ := h
  simp only [Weights.add,Weights.zero] at *
  constructor <;> grind

theorem pauseDrained (h : Balanced s (y.add { Weights.zero with crit := 1, drained := 1 }))
    (hs : s.status = .pausing) :
    Balanced { s with status := .paused } (y.add { Weights.zero with crit := 1 }) := by
  obtain ⟨h1,h2,h3,h4,h5,h6,h7,h8,h9,h10,h11⟩ := h
  simp only [Weights.add,Weights.zero] at *
  constructor <;> grind

theorem idleDrained (h : Balanced s (y.add { Weights.zero with crit := 1, drained := 1 }))
    (hs : s.status = .running) :
    Balanced { s with status := .idle } (y.add { Weights.zero with crit := 1, bouncing := 1 }) := by
  obtain ⟨h1,h2,h3,h4,h5,h6,h7,h8,h9,h10,h11⟩ := h
  simp only [Weights.add,Weights.zero] at *
  constructor <;> grind

theorem settle (hy : Within y) (h : Balanced s (y.add { Weights.zero with crit := 1, bouncing := 1 }))
    (hc : s.curProcessing = 0 ∨ s.status ≠ .idle) :
    Balanced s (y.add { Weights.zero with crit := 1 }) := by
  obtain ⟨h1,h2,h3,h4,h5,h6,h7,h8,h9,h10,h11⟩ := h
  obtain ⟨y1,y2,y3,y4⟩ := hy
  simp only [Weights.add,Weights.zero] at *
  constructor <;> grind

theorem resume (h : Balanced s w) (hs : s.status = .paused) :
    Balanced { s with status := .idle } w := by
  obtain ⟨h1,h2,h3,h4,h5,h6,h7,h8,h9,h10,h11⟩ := h
  constructor <;> grind

theorem launching_of (h : Balanced s (y.add { Weights.zero with crit := 1 }))
    (hs : s.status = .initiated ∨ s.status = .stopped) :
    Balanced s (y.add { Weights.zero with crit := 1, launching := 1 }) := by
  obtain ⟨h1,h2,h3,h4,h5,h6,h7,h8,h9,h10,h11⟩ := h
  simp only [Weights.add,Weights.zero] at *
  constructor <;> grind

theorem launch (hy : Within y)
    (h : Balanced s (y.add { Weights.zero with crit := 1, launching := 1 })) :
    Balanced s ((y.add { Weights.zero with live := 1 }).add
      { Weights.zero with crit := 1, launched := 1 }) := by
  obtain ⟨h1,h2,h3,h4,h5,h6,h7,h8,h9,h10,h11⟩ := h
  obtain ⟨y1,y2,y3,y4⟩ := hy
  simp only [Weights.add,Weights.zero] at *
  constructor <;> grind

theorem store (hy : Within y)
    (h : Balanced s (y.add { Weights.zero with crit := 1, launched := 1 })) :
    Balanced { s with status := .idle } (y.add { Weights.zero with crit := 1 }) := by
  obtain ⟨h1,h2,h3,h4,h5,h6,h7,h8,h9,h10,h11⟩ := h
  obtain ⟨y1,y2,y3,y4⟩ := hy
  simp only [Weights.add,Weights.zero] at *
  constructor <;> grind

theorem finished {m : ℕ} (h : Balanced s (y.add { Weights.zero with reserved := m })) :
    Balanced { s with curProcessing := s.curProcessing - m } y := by
  obtain ⟨h1,h2,h3,h4,h5,h6,h7,h8,h9,h10,h11⟩ := h
  simp only [Weights.add,Weights.zero] at *
  constructor <;> grind

end Balanced

theorem finish_balanced {pc : FinishPc} {o : Option FinishPc} (hy : Within y)
    (h : Balanced s (y.add pc.weights)) (hs : finishStep s pc = some (s',o)) :
    Balanced s' (y.add (finishWeights o)) := by
  cases pc with
  | dec m =>
    simp only [finishStep,Option.some.injEq,Prod.mk.injEq] at hs
    obtain ⟨rfl,rfl⟩ := hs
    have hf := h.finished
    split <;> exact hf
  | lock =>
    simp only [finishStep] at hs
    split at hs
    · cases hs
    · cases hs
      exact h.lock ‹_›
  | load =>
    simp only [finishStep,Option.some.injEq,Prod.mk.injEq] at hs
    obtain ⟨rfl,rfl⟩ := hs
    split
    · exact h.drain hy ‹_›
    · exact h
  | casIdle =>
    simp only [finishStep] at hs
    split at hs
    · cases hs
      exact h.idleDrained ‹_›
    · cases hs
      exact h
  | recheck =>
    simp only [finishStep,Option.some.injEq,Prod.mk.injEq] at hs
    obtain ⟨rfl,rfl⟩ := hs
    split
    · exact h.settle hy (.inl ‹_›)
    · exact h
  | casBack =>
    simp only [finishStep] at hs
    split at hs
    · cases hs
      exact (h.wakeUp ‹_›).settle hy (.inr (by simp))
    · cases hs
      exact h.settle hy (.inr ‹_›)
  | casPaused =>
    simp only [finishStep] at hs
    split at hs
    · cases hs
      exact h.pauseDrained ‹_›
    · cases hs
      exact h.drained_off
  | wake =>
    cases hs
    exact h.frame rfl rfl rfl
  | unlock =>
    cases hs
    exact h.unlock

theorem wait_balanced {k : WaitKind} {pc pc' : WaitPc} {c : Choice} {armed : Bool}
    (h : Balanced s (y.add { a with crit := a.crit + pc.crit }))
    (hs : waitStep k s pc c = some (s',pc',armed)) :
    Balanced s' (y.add { a with crit := a.crit + pc'.crit }) := by
  cases pc <;> cases c <;> simp only [waitStep] at hs <;> try cases hs
  case lock.go =>
    split at hs
    · cases hs
    · cases hs
      exact h.lock ‹_›
  case status.go =>
    have hk : (waitOn k s.status).crit = 1 := by cases k <;> cases s.status <;> rfl
    rw [hk]
    exact h
  case pending.flag b => cases b <;> exact h
  case cur.go => split <;> exact h
  case recheck.go => exact h
  case sleep.go => exact h.unlock
  case asleep.go =>
    split at hs
    · cases hs
    · cases hs
      exact h
  case unlock.go => exact h.unlock

theorem pause_balanced {pc pc' : PausePc} (hy : Within y) (h : Balanced s (y.add (pauseWeights pc)))
    (hs : pauseStep s pc = some (s',pc')) : Balanced s' (y.add (pauseWeights pc')) := by
  cases pc <;> simp only [pauseStep] at hs
  case lock =>
    split at hs
    · cases hs
    · cases hs
      exact h.lock ‹_›
  case load =>
    cases hs
    split <;> exact h
  case casIdle =>
    split at hs
    · cases hs
      exact h.pauseIdle hy ‹_›
    · cases hs
      exact h
  case casRunning =>
    split at hs
    · cases hs
      exact h.pauseRunning hy ‹_›
    · cases hs
      exact h
  case curLoad =>
    cases hs
    split
    · exact h.drain hy ‹_›
    · exact h
  case casPaused =>
    split at hs
    · cases hs
      exact h.pauseDrained ‹_›
    · cases hs
      exact h.drained_off
  case wake =>
    cases hs
    exact h.frame rfl rfl rfl
  case err =>
    cases hs
    exact h
  case unlock =>
    cases hs
    exact h.unlock
  case returned => cases hs

theorem resume_balanced {pc pc' : ResumePc} (h : Balanced s (y.add (resumeWeights pc)))
    (hs : resumeStep s pc = some (s',pc')) : Balanced s' (y.add (resumeWeights pc')) := by
  cases pc <;> simp only [resumeStep] at hs
  case cas =>
    split at hs
    · cases hs
      exact h.resume ‹_›
    · cases hs
      exact h
  case lock =>
    split at hs
    · cases hs
    · cases hs
      exact h.lock ‹_›
  case wake =>
    cases hs
    exact h.frame rfl rfl rfl
  case unlock =>
    cases hs
    exact h.unlock
  case notify =>
    cases hs
    exact h.frame rfl rfl rfl
  case active =>
    cases hs
    split <;> exact h
  case err =>
    cases hs
    exact h
  case returned => cases hs

theorem active_of_stopFrom {t : Status} (h : t ∈ stopFrom) : t ≠ .initiated ∧ t ≠ .stopped := by
  simp only [stopFrom,List.mem_cons,List.not_mem_nil,or_false] at h
  rcases h with rfl | rfl | rfl | rfl <;> simp

-- The rest of the ladder is a part of it, and a batch that was sent has a job.
def stopSized : StopPc → Prop
  | .cas _ rest => ∀ t ∈ rest, t ∈ stopFrom
  | _ => True

def Sized : Thread → Prop
  | .loop _ (.send n _) | .loop _ (.finish _ (.send n _)) => 0 < n
  | .loop _ (.emitBusy n) | .loop _ (.emitSend n) => 0 < n
  | .batch (.check n _) | .batch (.exec n _) | .batch (.free n) | .batch (.release n) => 0 < n
  | .batch (.finish (.dec n)) => 0 < n
  | .stop pc | .restart (.stop pc) => stopSized pc
  | _ => True

theorem stop_balanced {pc pc' : StopPc} (hz : stopSized pc) (h : Balanced s (y.add (stopWeights pc)))
    (hs : stopStep s pc = some (s',pc')) : Balanced s' (y.add (stopWeights pc')) ∧ stopSized pc' := by
  cases pc with
  | load =>
    cases hs
    split
    · exact ⟨h,trivial⟩
    · exact ⟨h,fun _ ht => ht⟩
  | cas seen rest =>
    cases rest with
    | nil =>
      cases hs
      exact ⟨h,trivial⟩
    | cons t rest =>
      simp only [stopStep] at hs
      split at hs
      case isTrue he =>
        cases hs
        refine ⟨h.stopping ?_,trivial⟩
        have ht := active_of_stopFrom (hz t (by simp))
        by_contra hl
        rcases h.launching (by omega) with hi | hi
        · exact ht.1 (he.symm.trans hi)
        · exact ht.2 (he.symm.trans hi)
      case isFalse =>
        cases hs
        exact ⟨h,fun u hu => hz u (by simp [hu])⟩
  | lock seen =>
    simp only [stopStep] at hs
    split at hs
    · cases hs
    · cases hs
      exact ⟨h.lock ‹_›,trivial⟩
  | cancel seen =>
    cases hs
    exact ⟨h.frame rfl rfl rfl,trivial⟩
  | unlock seen =>
    cases hs
    exact ⟨h.unlock,trivial⟩
  | returned seen moved r => cases hs

theorem start_balanced {pc pc' : StartPc} {new : List Thread} (hy : Within y)
    (h : Balanced s (y.add (startWeights pc))) (hs : startStep s pc = some (s',pc',new)) :
    Balanced s' ((y.add (sum new)).add (startWeights pc')) ∧ ∀ l ∈ new, Sized l := by
  cases pc <;> simp only [startStep] at hs
  case lock =>
    split at hs
    · cases hs
    · cases hs
      exact ⟨h.lock ‹_›,by simp⟩
  case active =>
    cases hs
    split <;> exact ⟨h,by simp⟩
  case load =>
    cases hs
    refine ⟨?_,by simp⟩
    split
    · exact h.launching_of (.inl ‹_›)
    · split
      · exact h.launching_of (.inr ‹_›)
      · exact h
  case launch =>
    cases hs
    refine ⟨?_,by simp [Sized]⟩
    rw [sum_cons,sum_nil,Weights.add_zero]
    exact h.launch hy
  case store =>
    cases hs
    exact ⟨h.store hy,by simp⟩
  case unlock =>
    cases hs
    exact ⟨h.unlock,by simp⟩
  case returned => cases hs
  all_goals
    cases hs
    exact ⟨h.frame rfl rfl rfl,by simp⟩

theorem broadcast_balanced {pc pc' : BroadcastPc} (h : Balanced s (y.add (broadcastWeights pc)))
    (hs : broadcastStep s pc = some (s',pc')) : Balanced s' (y.add (broadcastWeights pc')) := by
  cases pc <;> simp only [broadcastStep] at hs
  case lock =>
    split at hs
    · cases hs
    · cases hs
      exact h.lock ‹_›
  case wake =>
    cases hs
    exact h.frame rfl rfl rfl
  case unlock =>
    cases hs
    exact h.unlock
  case done => cases hs

theorem restart_balanced {pc pc' : RestartPc} {new : List Thread} (hy : Within y)
    (hz : Sized (.restart pc)) (h : Balanced s (y.add (restartWeights pc)))
    (hs : restartStep s pc = some (s',pc',new)) :
    Balanced s' ((y.add (sum new)).add (restartWeights pc')) ∧
      Sized (.restart pc') ∧ ∀ l ∈ new, Sized l := by
  cases pc with
  | stop pc =>
    rcases restart_stop hs with ⟨seen,moved,r,rfl,rfl,rfl,rfl⟩ | ⟨pc₁,hp,rfl,rfl⟩
    · cases r <;> exact ⟨h,trivial,by simp⟩
    · obtain ⟨hb,hz'⟩ := stop_balanced hz h hp
      exact ⟨hb,hz',by simp⟩
  | start pc =>
    rcases restart_start hs with ⟨r,rfl,rfl,rfl,rfl⟩ | ⟨pc₁,hp,rfl⟩
    · exact ⟨h,trivial,by simp⟩
    · obtain ⟨hb,hz'⟩ := start_balanced hy h hp
      exact ⟨hb,trivial,hz'⟩
  | lock =>
    simp only [restartStep] at hs
    split at hs
    · cases hs
    · cases hs
      exact ⟨h.lock ‹_›,trivial,by simp⟩
  | stopped =>
    cases hs
    split <;> exact ⟨h,trivial,by simp⟩
  | active =>
    cases hs
    split <;> exact ⟨h,trivial,by simp⟩
  | sleep =>
    cases hs
    exact ⟨h.unlock,trivial,by simp⟩
  | asleep n =>
    simp only [restartStep] at hs
    split at hs
    · cases hs
    · cases hs
      exact ⟨h,trivial,by simp⟩
  | check =>
    cases hs
    exact ⟨h,trivial,by simp⟩
  | unlock running =>
    cases hs
    split <;> exact ⟨h.unlock,trivial,by simp⟩
  | returned r => cases hs

theorem finishStep_ne_dec {pc pc' : FinishPc} (hs : finishStep s pc = some (s',some pc')) (m : ℕ) :
    pc' ≠ .dec m := by
  rintro rfl
  cases pc <;> simp only [finishStep] at hs
  case dec => split at hs <;> simp at hs
  case load => split at hs <;> simp at hs
  case recheck => split at hs <;> simp at hs
  all_goals grind

theorem batchWeights_finish {pc : FinishPc} (hd : ∀ m, pc ≠ .dec m) :
    batchWeights (.finish pc) = pc.weights := by
  cases pc <;> first | rfl | exact absurd rfl (hd _)

theorem batch_balanced {pc pc' : BatchPc} {c : Choice} (hy : Within y) (hz : Sized (.batch pc))
    (h : Balanced s (y.add (batchWeights pc))) (hs : batchStep s pc c = some (s',pc')) :
    Balanced s' (y.add (batchWeights pc')) ∧ Sized (.batch pc') := by
  cases pc with
  | check n i =>
    cases c <;> simp only [batchStep] at hs <;> try cases hs
    case start =>
      split at hs
      · cases hs
        exact ⟨h.frame rfl rfl rfl,hz⟩
      · cases hs
    all_goals
      split at hs <;> cases hs
      exact ⟨h,hz⟩
  | exec n i =>
    cases c <;> cases hs
    exact ⟨h,hz⟩
  | free n =>
    cases c <;> cases hs
    exact ⟨h,hz⟩
  | release n =>
    cases c <;> cases hs
    exact ⟨h.frame rfl rfl rfl,hz⟩
  | finish pc =>
    cases c <;> try cases hs
    simp only [batchStep] at hs
    have hb : Balanced s (y.add pc.weights) := by
      cases pc with
      | dec n => exact h.fewer (Nat.zero_le _)
      | _ => exact h
    split at hs
    · cases hs
    · rename_i s₁ pc₁ hf
      cases hs
      have hd := finishStep_ne_dec hf
      refine ⟨?_,by cases pc₁ <;> first | trivial | exact absurd rfl (hd _)⟩
      rw [batchWeights_finish hd]
      exact finish_balanced hy hb hf
    · rename_i s₁ hf
      cases hs
      exact ⟨finish_balanced hy hb hf,trivial⟩
  | notify =>
    cases c <;> cases hs
    exact ⟨h.frame rfl rfl rfl,trivial⟩
  | done => cases c <;> cases hs

theorem ret_weights (r : Ret) : loopWeights r.pc = r.weights := by cases r <;> rfl

theorem loopWeights_wait {pc : WaitPc} (hu : pc ≠ .unlock) : loopWeights (.wait pc) =
    { Weights.zero with live := 1, crit := 0 + pc.crit, waiting := 1 } := by
  cases pc <;> first | rfl | exact absurd rfl hu

theorem wait_unlock {s s' : Shared} {pc : WaitPc} {c : Choice} {armed : Bool}
    (hs : waitStep .wait s pc c = some (s',.unlock,armed)) (hi : s.status ≠ .initiated) :
    pc = .cur ∧ s.curProcessing = 0 ∧ s' = s ∧ armed = false := by
  cases pc <;> cases c <;> simp only [waitStep] at hs <;> try cases hs
  case lock.go => split at hs <;> simp at hs
  case status.go =>
    simp only [Option.some.injEq,Prod.mk.injEq] at hs
    cases hq : s.status <;> simp_all [waitOn]
  case pending.flag b => cases b <;> simp at hs
  case cur.go =>
    simp only [Option.some.injEq,Prod.mk.injEq] at hs
    obtain ⟨rfl,hc,rfl⟩ := hs
    refine ⟨rfl,?_,rfl,rfl⟩
    by_contra hne
    rw [if_neg hne] at hc
    cases hc
  case asleep.go => split at hs <;> simp at hs

theorem wait_done {k : WaitKind} {pc : WaitPc} {c : Choice} {armed : Bool}
    (hs : waitStep k s pc c = some (s',.done,armed)) : pc = .unlock := by
  cases pc <;> cases c <;> simp only [waitStep] at hs <;> try cases hs
  case lock.go => split at hs <;> simp at hs
  case status.go => cases k <;> cases hq : s.status <;> simp [hq,waitOn] at hs
  case pending.flag b => cases b <;> simp at hs
  case cur.go => split at hs <;> simp at hs
  case asleep.go => split at hs <;> simp at hs
  rfl

theorem loopWait_balanced {pc : WaitPc} {pc' : LoopPc} {c : Choice} {k : ℕ} {new : List Thread}
    (h : Balanced s (y.add (loopWeights (.wait pc))))
    (hs : loopStep s k (.wait pc) c = some (s',pc',new)) :
    Balanced s' (y.add (loopWeights pc')) ∧ sum new = Weights.zero ∧ ∀ l ∈ new, Sized l := by
  have hi : s.status ≠ .initiated := h.waiting (by cases pc <;> simp [loopWeights,Weights.add])
  simp only [loopStep] at hs
  split at hs
  · cases hs
  · rename_i s₁ armed hw
    cases hs
    obtain rfl := wait_done hw
    cases c <;> cases hw
    exact ⟨h.unlock,rfl,by simp⟩
  · rename_i s₁ pc₁ armed hd hw
    cases hs
    have hnew : sum (if armed = true then [Thread.broadcast .lock] else []) = Weights.zero := by
      cases armed <;> rfl
    have hsz : ∀ l ∈ (if armed = true then [Thread.broadcast .lock] else []), Sized l := by
      cases armed <;> simp [Sized]
    refine ⟨?_,hnew,hsz⟩
    by_cases hu : pc₁ = .unlock
    · subst hu
      obtain ⟨rfl,hc,rfl,rfl⟩ := wait_unlock hw hi
      exact h.shutting hc
    · rw [loopWeights_wait hu]
      refine wait_balanced (a := { Weights.zero with live := 1, waiting := 1 }) ?_ hw
      by_cases hp : pc = .unlock
      · subst hp
        cases c <;> cases hw
        exact absurd rfl hd
      · rw [loopWeights_wait hp] at h
        exact h

theorem loopFinish_balanced {pc : FinishPc} {r : Ret} {pc' : LoopPc} {c : Choice} {k : ℕ}
    {new : List Thread} (hy : Within y) (h : Balanced s (y.add (loopWeights (.finish pc r))))
    (hs : loopStep s k (.finish pc r) c = some (s',pc',new)) :
    Balanced s' (y.add (loopWeights pc')) ∧ new = [] ∧
      (pc' = r.pc ∨ ∃ q, pc' = .finish q r) := by
  cases c <;> simp only [loopStep] at hs <;> try cases hs
  have hy' : Within (y.add r.weights) := within_add hy (within_ret r)
  rw [loopWeights,← Weights.add_assoc] at h
  split at hs
  · cases hs
  · rename_i s₁ pc₁ hf
    cases hs
    refine ⟨?_,rfl,.inr ⟨pc₁,rfl⟩⟩
    rw [loopWeights,← Weights.add_assoc]
    exact finish_balanced hy' h hf
  · rename_i s₁ hf
    cases hs
    refine ⟨?_,rfl,.inl rfl⟩
    rw [ret_weights]
    exact finish_balanced hy' h hf

theorem finish_rest {k : ℕ} {r : Ret} (hr : r.weights = { Weights.zero with live := 1 }) :
    loopWeights (.finish (.dec k) r) = { Weights.zero with live := 1, reserved := k } := by
  simp [loopWeights,hr,FinishPc.weights,Weights.add,Weights.zero]

theorem finish_short {n k : ℕ} {cont : Bool} (hn : n ≤ k) :
    loopWeights (.finish (.dec (k - n)) (.send n cont)) =
      { Weights.zero with live := 1, reserved := k, passed := n } := by
  simp [loopWeights,Ret.weights,FinishPc.weights,Weights.add,Weights.zero]
  omega

theorem handed {n m : ℕ}
    (h : Balanced s (y.add { Weights.zero with live := 1, reserved := n + m, passed := n + m })) :
    Balanced s ((y.add { Weights.zero with reserved := n, passed := n }).add
      { Weights.zero with live := 1, reserved := m, passed := m }) := by
  have he : y.add { Weights.zero with live := 1, reserved := n + m, passed := n + m } =
      (y.add { Weights.zero with reserved := n, passed := n }).add
        { Weights.zero with live := 1, reserved := m, passed := m } := by
    simp [Weights.add,Weights.zero,Nat.add_assoc]
  rwa [← he]

theorem loop_balanced {pc pc' : LoopPc} {c : Choice} {k : ℕ} {new : List Thread} (hy : Within y)
    (hz : Sized (.loop k pc)) (h : Balanced s (y.add (loopWeights pc)))
    (hs : loopStep s k pc c = some (s',pc',new)) :
    Balanced s' ((y.add (sum new)).add (loopWeights pc')) ∧ Sized (.loop k pc') ∧
      ∀ l ∈ new, Sized l := by
  cases pc with
  | select =>
    cases c <;> simp only [loopStep] at hs <;> try cases hs
    case done =>
      split at hs <;> cases hs
      exact ⟨h.cancelled hy,trivial,by simp⟩
    case signal credit =>
      split at hs <;> cases hs
      cases credit <;> exact ⟨h.frame rfl rfl rfl,trivial,by simp⟩
  | finish pc r =>
    obtain ⟨hb,rfl,rfl | ⟨q,rfl⟩⟩ := loopFinish_balanced hy h hs
    · refine ⟨hb,?_,by simp⟩
      cases r <;> trivial
    · refine ⟨hb,?_,by simp⟩
      cases r <;> trivial
  | wait pc =>
    obtain ⟨hb,hn,hl⟩ := loopWait_balanced h hs
    refine ⟨by rwa [hn],?_,hl⟩
    simp only [loopStep] at hs
    split at hs <;> cases hs <;> trivial
  | take k =>
    cases c <;> cases hs
    exact ⟨h.frame rfl rfl rfl,trivial,by simp⟩
  | count m k =>
    cases c <;> cases hs
    exact ⟨h.count hy,trivial,by simp⟩
  | reserve m k =>
    cases c <;> simp only [loopStep] at hs <;> try cases hs
    split at hs
    · cases hs
      cases m <;> exact ⟨h.pass ‹_›,trivial,by simp⟩
    · split at hs
      · cases hs
        exact ⟨h,trivial,by simp⟩
      · cases hs
        cases m with
        | batch => exact ⟨h,trivial,by simp⟩
        | credit =>
          refine ⟨?_,trivial,by simp⟩
          rw [refused,finish_rest rfl]
          exact h
  | claim m k =>
    cases c <;> simp only [loopStep] at hs <;> try cases hs
    split at hs
    · cases hs
      cases m <;> exact ⟨(h.wakeUp ‹_›).pass rfl,trivial,by simp⟩
    · cases hs
      exact ⟨h,trivial,by simp⟩
  | fill k =>
    cases c <;> simp only [loopStep] at hs <;> try cases hs
    rename_i n cont
    split at hs
    · cases hs
      exact ⟨h.fewer (Nat.zero_le _),trivial,by simp⟩
    · split at hs
      · cases hs
        refine ⟨?_,Nat.pos_of_ne_zero ‹_›,by simp⟩
        rw [finish_short (by omega)]
        exact h.fewer (Nat.le_of_lt ‹_›)
      · split at hs
        · cases hs
          subst n
          exact ⟨h,Nat.pos_of_ne_zero ‹_›,by simp⟩
        · cases hs
  | giveBack k cont =>
    cases c <;> cases hs
    refine ⟨?_,by cases cont <;> trivial,by simp⟩
    rw [finish_rest (by cases cont <;> rfl)]
    exact h.frame rfl rfl rfl
  | send n cont =>
    cases c <;> cases hs
    refine ⟨?_,by cases cont <;> trivial,by simpa [Sized] using hz⟩
    have hr : loopWeights (afterSend cont).pc = { Weights.zero with live := 1 } := by
      cases cont <;> rfl
    rw [hr,sum_cons,sum_nil,Weights.add_zero]
    exact handed h
  | emit left =>
    cases c <;> simp only [loopStep] at hs <;> try cases hs
    rename_i b
    split at hs
    · cases hs
      subst left
      exact ⟨h,trivial,by simp⟩
    · cases hs
      cases b with
      | true => exact ⟨h,Nat.pos_of_ne_zero ‹_›,by simp⟩
      | false =>
        refine ⟨?_,trivial,by simp⟩
        rw [if_neg (by simp),finish_rest rfl]
        exact h.fewer (Nat.zero_le _)
  | emitBusy left =>
    cases c <;> cases hs
    exact ⟨h.frame rfl rfl rfl,hz,by simp⟩
  | emitSend left =>
    cases c <;> cases hs
    refine ⟨?_,trivial,by simp [Sized]⟩
    obtain ⟨m,rfl⟩ : ∃ m, left = 1 + m := ⟨left - 1,by simp only [Sized] at hz; omega⟩
    rw [sum_cons,sum_nil,Weights.add_zero,Nat.add_sub_cancel_left]
    exact handed h
  | creditEnd =>
    cases c <;> cases hs
    exact ⟨h.frame rfl rfl rfl,trivial,by simp⟩
  | stopLock =>
    cases c <;> simp only [loopStep] at hs <;> try cases hs
    split at hs <;> cases hs
    exact ⟨h.lock ‹_›,trivial,by simp⟩
  | stopStore =>
    cases c <;> cases hs
    exact ⟨h.stopped hy,trivial,by simp⟩
  | stopWake =>
    cases c <;> cases hs
    exact ⟨h.frame rfl rfl rfl,trivial,by simp⟩
  | stopUnlock =>
    cases c <;> cases hs
    exact ⟨h.ended.unlock,trivial,by simp⟩
  | exited => cases c <;> cases hs
  | plan =>
    cases c <;> simp only [loopStep] at hs <;> try cases hs
    split at hs <;> cases hs
    split <;> exact ⟨h,trivial,by simp⟩
  | removeAll | slots | creditSlots =>
    cases c <;> cases hs
    exact ⟨h,trivial,by simp⟩
  | _ =>
    cases c <;> cases hs
    split <;> exact ⟨h,trivial,by simp⟩

theorem waiter_balanced {k : WaitKind} {pc pc' : WaitPc} {c : Choice} {armed : Bool}
    (h : Balanced s (y.add { Weights.zero with crit := pc.crit }))
    (hs : waitStep k s pc c = some (s',pc',armed)) :
    Balanced s' (y.add { Weights.zero with crit := pc'.crit }) := by
  have hz : ∀ q : WaitPc, { Weights.zero with crit := q.crit } =
      { Weights.zero with crit := Weights.zero.crit + q.crit } := by simp [Weights.zero]
  rw [hz] at h ⊢
  exact wait_balanced h hs

theorem step_balanced {l l' : Thread} {c : Choice} {new : List Thread} (hy : Within y)
    (hz : Sized l) (h : Balanced s (y.add (weights l))) (hs : step s l c = some (s',l',new)) :
    Balanced s' ((y.add (sum new)).add (weights l')) ∧ Sized l' ∧ ∀ t ∈ new, Sized t := by
  cases step_act hs with
  | loop hp => exact loop_balanced hy hz h hp
  | batch hp =>
    obtain ⟨hb,hz'⟩ := batch_balanced hy hz h hp
    exact ⟨hb,hz',by simp⟩
  | pause hp => exact ⟨pause_balanced hy h hp,trivial,by simp⟩
  | resume hp => exact ⟨resume_balanced h hp,trivial,by simp⟩
  | stop hp =>
    obtain ⟨hb,hz'⟩ := stop_balanced hz h hp
    exact ⟨hb,hz',by simp⟩
  | start hp =>
    obtain ⟨hb,hz'⟩ := start_balanced hy h hp
    exact ⟨hb,trivial,hz'⟩
  | restart hp => exact restart_balanced hy hz h hp
  | @waiter k pc pc' s' armed hp =>
    have hb := waiter_balanced h hp
    cases armed with
    | true => exact ⟨hb,trivial,by simp [waiterThreads,Sized]⟩
    | false => exact ⟨hb,trivial,by simp [waiterThreads]⟩
  | broadcast hp => exact ⟨broadcast_balanced h hp,trivial,by simp⟩
  | cancelParent => exact ⟨h.frame rfl rfl rfl,trivial,by simp⟩
  | notify => exact ⟨h.frame rfl rfl rfl,trivial,by simp⟩
  | tunePool => exact ⟨h.frame rfl rfl rfl,trivial,by simp⟩

structure Inv (s : Shared) (ts : List Thread) : Prop where
  balanced : Balanced s (sum ts)
  sized : ∀ l ∈ ts, Sized l

theorem entry_weights {l : Thread} (h : entry s l = true) : weights l = Weights.zero ∧ Sized l := by
  unfold entry at h
  split at h <;> first | exact ⟨rfl,trivial⟩ | cases h

theorem inv_call {ts : List Thread} {l : Thread} (h : Inv s ts) (he : entry s l = true) :
    Inv s (ts ++ [l]) := by
  obtain ⟨hw,hz⟩ := entry_weights he
  refine ⟨?_,forall_call h.sized hz⟩
  rw [sum_append,sum_cons,hw,sum_nil]
  exact h.balanced

theorem inv_act {xs ys : List Thread} {l l' : Thread} {c : Choice} {new : List Thread}
    (h : Inv s (xs ++ l :: ys)) (hs : step s l c = some (s',l',new)) :
    Inv s' (xs ++ l' :: (ys ++ new)) := by
  have hb := h.balanced
  rw [sum_split] at hb
  obtain ⟨hb',hz,hn⟩ := step_balanced (within_sum _) (h.sized l (by simp)) hb hs
  refine ⟨?_,forall_act (fun t ht => h.sized t (mem_of_other ht)) hz hn⟩
  rw [sum_act,← Weights.add_assoc]
  exact hb'

theorem inv_newWorker (n : ℕ) : Inv (newWorker n).shared (newWorker n).threads :=
  ⟨by constructor <;> simp [newWorker,Weights.zero],by simp [newWorker]⟩

theorem inv_reach {ok : Guard Shared Thread Choice} {n : ℕ} {w : World Shared Thread}
    (h : program.Reach ok (newWorker n) w) : Inv w.shared w.threads :=
  Program.reach_invariant (inv_newWorker n) (fun _ _ _ h _ he => inv_call h he)
    (fun _ _ _ _ _ _ _ _ h _ hs => inv_act h hs) h

end Varmq.Lifecycle
