import Varmq.Lifecycle.Balance

namespace Varmq.Lifecycle

open Interleaving
open Varmq.Worker (Status Error)

variable {s s' : Shared} {done stored : Prop}

-- The compare-and-swaps on the status; `locked` says that the caller holds w.mx.
inductive Flip (locked : Prop) : Status → Status → Prop
  | keep {p : Status} : Flip locked p p
  | claim : Flip locked .idle .running
  | settle (hl : locked) : Flip locked .running .idle
  | pauseIdle (hl : locked) : Flip locked .idle .paused
  | pauseRunning (hl : locked) : Flip locked .running .pausing
  | drained (hl : locked) : Flip locked .pausing .paused
  | resume : Flip locked .paused .idle
  | stop {p : Status} (hp : p ∈ stopFrom) : Flip locked p .stopping

structure Same (a b : Weights) : Prop where
  live : b.live = a.live
  waiting : b.waiting = a.waiting
  launched : b.launched = a.launched
  ending : b.ending ≤ a.ending

-- What one step does to the status and to the loops, by the weights before and after it; `done`
-- says that the step is the ctx.Done branch, `stored` that it is Start's store of idle.
inductive Turn (a b : Weights) (done stored : Prop) : Status → Status → Prop
  | flip {p q : Status} (h : Flip (0 < a.crit) p q) (hs : Same a b) : Turn a b done stored p q
  | cancelled {p : Status} (hd : done) (ha : a = { Weights.zero with live := 1 })
      (hb : b = { Weights.zero with live := 1, waiting := 1 }) : Turn a b done stored p .stopping
  | stopped {p : Status} (ha : a = { Weights.zero with live := 1, shut := 1, crit := 1, waiting := 1 })
      (hb : b = { Weights.zero with crit := 1, ending := 1 }) : Turn a b done stored p .stopped
  | launch {p : Status} (ha : a = { Weights.zero with crit := 1, launching := 1 })
      (hb : b = { Weights.zero with live := 1, crit := 1, launched := 1 }) : Turn a b done stored p p
  | store {p : Status} (hst : stored) (ha : a = { Weights.zero with crit := 1, launched := 1 })
      (hb : b = { Weights.zero with crit := 1 }) : Turn a b done stored p .idle

theorem Turn.keep {a b : Weights} {p : Status} (hs : Same a b) : Turn a b done stored p p :=
  .flip .keep hs

def storing : Thread → Bool
  | .start .store | .restart (.start .store) => true
  | _ => false

theorem Turn.mono {a b : Weights} {stored' : Prop} {p q : Status} (hi : stored → stored')
    (h : Turn a b done stored p q) : Turn a b done stored' p q := by
  cases h with
  | flip h hs => exact .flip h hs
  | cancelled hd ha hb => exact .cancelled hd ha hb
  | stopped ha hb => exact .stopped ha hb
  | launch ha hb => exact .launch ha hb
  | store hst ha hb => exact .store (hi hst) ha hb

theorem Flip.mono {l l' : Prop} {p q : Status} (hl : l → l') (h : Flip l p q) : Flip l' p q := by
  cases h with
  | keep => exact .keep
  | claim => exact .claim
  | settle h => exact .settle (hl h)
  | pauseIdle h => exact .pauseIdle (hl h)
  | pauseRunning h => exact .pauseRunning (hl h)
  | drained h => exact .drained (hl h)
  | resume => exact .resume
  | stop hp => exact .stop hp

theorem finish_flip {pc : FinishPc} {o : Option FinishPc} (hs : finishStep s pc = some (s',o)) :
    Flip (0 < pc.weights.crit) s.status s'.status := by
  cases pc <;> simp only [finishStep] at hs
  case lock =>
    split at hs <;> cases hs
    exact .keep
  case casIdle =>
    split at hs <;> cases hs
    · rename_i he
      rw [he]
      exact .settle Nat.one_pos
    · exact .keep
  case casBack =>
    split at hs <;> cases hs
    · rename_i he
      rw [he]
      exact .claim
    · exact .keep
  case casPaused =>
    split at hs <;> cases hs
    · rename_i he
      rw [he]
      exact .drained Nat.one_pos
    · exact .keep
  all_goals
    cases hs
    exact .keep

theorem finish_same (pc : FinishPc) : Same Weights.zero pc.weights := by
  cases pc <;> exact ⟨rfl,rfl,rfl,Nat.le_refl _⟩

theorem pause_turn {pc pc' : PausePc} (hs : pauseStep s pc = some (s',pc')) :
    Turn (pauseWeights pc) (pauseWeights pc') done stored s.status s'.status := by
  have hz : ∀ q, Same Weights.zero (pauseWeights q) := by
    intro q
    cases q <;> exact ⟨rfl,rfl,rfl,Nat.le_refl _⟩
  refine .flip ?_ ⟨?_,?_,?_,?_⟩
  · cases pc <;> simp only [pauseStep] at hs
    case lock =>
      split at hs <;> cases hs
      exact .keep
    case casIdle =>
      split at hs <;> cases hs
      · rename_i he
        rw [he]
        exact .pauseIdle Nat.one_pos
      · exact .keep
    case casRunning =>
      split at hs <;> cases hs
      · rename_i he
        rw [he]
        exact .pauseRunning Nat.one_pos
      · exact .keep
    case casPaused =>
      split at hs <;> cases hs
      · rename_i he
        rw [he]
        exact .drained Nat.one_pos
      · exact .keep
    case returned => cases hs
    all_goals
      cases hs
      exact .keep
  · rw [(hz pc).live,(hz pc').live]
  · rw [(hz pc).waiting,(hz pc').waiting]
  · rw [(hz pc).launched,(hz pc').launched]
  · exact Nat.le_trans (hz pc').ending (Nat.zero_le _)

theorem resume_turn {pc pc' : ResumePc} (hs : resumeStep s pc = some (s',pc')) :
    Turn (resumeWeights pc) (resumeWeights pc') done stored s.status s'.status := by
  cases pc <;> simp only [resumeStep] at hs
  case cas =>
    split at hs <;> cases hs
    · rename_i he
      rw [he]
      exact .flip .resume ⟨rfl,rfl,rfl,Nat.le_refl _⟩
    · exact .keep ⟨rfl,rfl,rfl,Nat.le_refl _⟩
  case lock =>
    split at hs <;> cases hs
    exact .keep ⟨rfl,rfl,rfl,Nat.le_refl _⟩
  case active =>
    cases hs
    split <;> exact .keep ⟨rfl,rfl,rfl,Nat.le_refl _⟩
  case returned => cases hs
  all_goals
    cases hs
    exact .keep ⟨rfl,rfl,rfl,Nat.le_refl _⟩

theorem stop_turn {pc pc' : StopPc} (hz : stopSized pc) (hs : stopStep s pc = some (s',pc')) :
    Turn (stopWeights pc) (stopWeights pc') done stored s.status s'.status := by
  cases pc with
  | load =>
    cases hs
    split <;> exact .keep ⟨rfl,rfl,rfl,Nat.le_refl _⟩
  | cas seen rest =>
    cases rest with
    | nil =>
      cases hs
      exact .keep ⟨rfl,rfl,rfl,Nat.le_refl _⟩
    | cons t rest =>
      simp only [stopStep] at hs
      split at hs <;> cases hs
      · rename_i he
        exact .flip (.stop (he ▸ hz t (by simp))) ⟨rfl,rfl,rfl,Nat.le_refl _⟩
      · exact .keep ⟨rfl,rfl,rfl,Nat.le_refl _⟩
  | lock seen =>
    simp only [stopStep] at hs
    split at hs <;> cases hs
    exact .keep ⟨rfl,rfl,rfl,Nat.le_refl _⟩
  | cancel seen =>
    cases hs
    exact .keep ⟨rfl,rfl,rfl,Nat.le_refl _⟩
  | unlock seen =>
    cases hs
    exact .keep ⟨rfl,rfl,rfl,Nat.le_refl _⟩
  | returned seen moved r => cases hs

theorem start_turn {pc pc' : StartPc} {new : List Thread} (hs : startStep s pc = some (s',pc',new)) :
    Turn (startWeights pc) ((sum new).add (startWeights pc')) done (pc = .store) s.status s'.status := by
  cases pc <;> simp only [startStep] at hs
  case lock =>
    split at hs <;> cases hs
    exact .keep ⟨rfl,rfl,rfl,Nat.le_refl _⟩
  case active =>
    cases hs
    split <;> exact .keep ⟨rfl,rfl,rfl,Nat.le_refl _⟩
  case load =>
    cases hs
    split
    · exact .keep ⟨rfl,rfl,rfl,Nat.le_refl _⟩
    · split <;> exact .keep ⟨rfl,rfl,rfl,Nat.le_refl _⟩
  case launch =>
    cases hs
    exact .launch rfl rfl
  case store =>
    cases hs
    exact .store rfl rfl rfl
  case returned => cases hs
  all_goals
    cases hs
    exact .keep ⟨rfl,rfl,rfl,Nat.le_refl _⟩

theorem restart_turn {pc pc' : RestartPc} {new : List Thread} (hz : Sized (.restart pc))
    (hs : restartStep s pc = some (s',pc',new)) :
    Turn (restartWeights pc) ((sum new).add (restartWeights pc')) done (pc = .start .store) s.status s'.status := by
  cases pc with
  | stop pc =>
    rcases restart_stop hs with ⟨seen,moved,r,rfl,rfl,rfl,rfl⟩ | ⟨pc₁,hp,rfl,rfl⟩
    · cases r <;> exact .keep ⟨rfl,rfl,rfl,Nat.le_refl _⟩
    · rw [sum_nil,Weights.zero_add]
      exact stop_turn hz hp
  | start pc =>
    rcases restart_start hs with ⟨r,rfl,rfl,rfl,rfl⟩ | ⟨pc₁,hp,rfl⟩
    · exact .keep ⟨rfl,rfl,rfl,Nat.le_refl _⟩
    · exact (start_turn hp).mono (by rintro rfl; rfl)
  | lock =>
    simp only [restartStep] at hs
    split at hs <;> cases hs
    exact .keep ⟨rfl,rfl,rfl,Nat.le_refl _⟩
  | asleep n =>
    simp only [restartStep] at hs
    split at hs <;> cases hs
    exact .keep ⟨rfl,rfl,rfl,Nat.le_refl _⟩
  | stopped | active | unlock _ =>
    cases hs
    split <;> exact .keep ⟨rfl,rfl,rfl,Nat.le_refl _⟩
  | returned r => cases hs
  | sleep | check =>
    cases hs
    exact .keep ⟨rfl,rfl,rfl,Nat.le_refl _⟩

theorem batch_turn {pc pc' : BatchPc} {c : Choice} (hs : batchStep s pc c = some (s',pc')) :
    Turn (batchWeights pc) (batchWeights pc') done stored s.status s'.status := by
  have hz : ∀ q, Same Weights.zero (batchWeights q) := by
    intro q
    cases q with
    | finish pc => cases pc <;> exact ⟨rfl,rfl,rfl,Nat.le_refl _⟩
    | _ => exact ⟨rfl,rfl,rfl,Nat.le_refl _⟩
  refine .flip ?_ ⟨?_,?_,?_,?_⟩
  · cases pc with
    | check n i =>
      cases c <;> simp only [batchStep] at hs <;> try cases hs
      all_goals
        split at hs <;> cases hs
        exact .keep
    | finish pc =>
      cases c <;> simp only [batchStep] at hs <;> try cases hs
      have hw : 0 < pc.weights.crit → 0 < (batchWeights (.finish pc)).crit := by
        cases pc <;> exact fun h => h
      split at hs <;> cases hs
      · exact (finish_flip ‹_›).mono hw
      · exact (finish_flip ‹_›).mono hw
    | done => cases c <;> cases hs
    | _ =>
      cases c <;> cases hs
      exact .keep
  · rw [(hz pc).live,(hz pc').live]
  · rw [(hz pc).waiting,(hz pc').waiting]
  · rw [(hz pc).launched,(hz pc').launched]
  · exact Nat.le_trans (hz pc').ending (Nat.zero_le _)

theorem wait_status {k : WaitKind} {pc pc' : WaitPc} {c : Choice} {armed : Bool}
    (hs : waitStep k s pc c = some (s',pc',armed)) : s'.status = s.status := by
  cases pc <;> cases c <;> simp only [waitStep] at hs <;> try cases hs
  case lock.go =>
    split at hs <;> cases hs
    rfl
  case asleep.go =>
    split at hs <;> cases hs
    rfl
  all_goals rfl

theorem finish_same_add (r : Weights) (pc pc' : FinishPc) :
    Same (r.add pc.weights) (r.add pc'.weights) := by
  have hp := finish_same pc
  have hp' := finish_same pc'
  refine ⟨?_,?_,?_,?_⟩ <;> simp only [Weights.add]
  · rw [hp.live,hp'.live]
  · rw [hp.waiting,hp'.waiting]
  · rw [hp.launched,hp'.launched]
  · exact Nat.add_le_add_left (Nat.le_trans hp'.ending (Nat.zero_le _)) _

theorem waiting_same (pc pc' : WaitPc) : Same (loopWeights (.wait pc)) (loopWeights (.wait pc')) := by
  have hw : ∀ q, Same { Weights.zero with live := 1, waiting := 1 } (loopWeights (.wait q)) := by
    intro q
    cases q <;> exact ⟨rfl,rfl,rfl,Nat.le_refl _⟩
  have hp := hw pc
  have hp' := hw pc'
  exact ⟨by rw [hp.live,hp'.live],by rw [hp.waiting,hp'.waiting],
    by rw [hp.launched,hp'.launched],Nat.le_trans hp'.ending (Nat.zero_le _)⟩

theorem loop_turn {pc pc' : LoopPc} {c : Choice} {k : ℕ} {new : List Thread}
    (hs : loopStep s k pc c = some (s',pc',new)) :
    Turn (loopWeights pc) ((sum new).add (loopWeights pc')) (c = .done) stored s.status s'.status := by
  cases pc with
  | select =>
    cases c <;> simp only [loopStep] at hs <;> try cases hs
    case done =>
      split at hs <;> cases hs
      exact .cancelled rfl rfl rfl
    case signal credit =>
      split at hs <;> cases hs
      cases credit <;> exact .keep ⟨rfl,rfl,rfl,Nat.le_refl _⟩
  | finish pc r =>
    cases c <;> simp only [loopStep] at hs <;> try cases hs
    have hw : 0 < pc.weights.crit → 0 < (loopWeights (.finish pc r)).crit := by
      simp only [loopWeights,Weights.add]
      omega
    split at hs <;> cases hs
    · rw [sum_nil,Weights.zero_add]
      exact .flip ((finish_flip ‹_›).mono hw) (finish_same_add _ _ _)
    · rw [sum_nil,Weights.zero_add,ret_weights]
      exact .flip ((finish_flip ‹_›).mono hw) (finish_same_add _ _ .lock)
  | wait pc =>
    simp only [loopStep] at hs
    split at hs
    · cases hs
    · rename_i hw
      cases hs
      rw [wait_status hw,wait_done hw]
      exact .keep ⟨rfl,rfl,rfl,Nat.le_refl _⟩
    · rename_i armed _ hw
      cases hs
      rw [wait_status hw]
      have hn : sum (if armed = true then [Thread.broadcast .lock] else []) = Weights.zero := by
        cases armed <;> rfl
      rw [hn,Weights.zero_add]
      exact .keep (waiting_same _ _)
  | reserve m k =>
    cases c <;> simp only [loopStep] at hs <;> try cases hs
    split at hs
    · cases hs
      cases m <;> exact .keep ⟨rfl,rfl,rfl,Nat.le_refl _⟩
    · split at hs <;> cases hs
      · exact .keep ⟨rfl,rfl,rfl,Nat.le_refl _⟩
      · cases m <;> exact .keep ⟨rfl,rfl,rfl,Nat.le_refl _⟩
  | claim m k =>
    cases c <;> simp only [loopStep] at hs <;> try cases hs
    split at hs <;> cases hs
    · rename_i he
      rw [he]
      cases m <;> exact .flip .claim ⟨rfl,rfl,rfl,Nat.le_refl _⟩
    · exact .keep ⟨rfl,rfl,rfl,Nat.le_refl _⟩
  | fill k =>
    cases c <;> simp only [loopStep] at hs <;> try cases hs
    split at hs
    · cases hs
      exact .keep ⟨rfl,rfl,rfl,Nat.le_refl _⟩
    · split at hs
      · cases hs
        exact .keep ⟨rfl,rfl,rfl,Nat.le_refl _⟩
      · split at hs <;> cases hs
        exact .keep ⟨rfl,rfl,rfl,Nat.le_refl _⟩
  | giveBack k cont =>
    cases c <;> cases hs
    cases cont <;> exact .keep ⟨rfl,rfl,rfl,Nat.le_refl _⟩
  | send n cont =>
    cases c <;> cases hs
    cases cont <;> exact .keep ⟨rfl,rfl,rfl,Nat.le_refl _⟩
  | emit left =>
    cases c <;> simp only [loopStep] at hs <;> try cases hs
    rename_i b
    split at hs <;> cases hs
    · exact .keep ⟨rfl,rfl,rfl,Nat.le_refl _⟩
    · cases b <;> exact .keep ⟨rfl,rfl,rfl,Nat.le_refl _⟩
  | stopLock =>
    cases c <;> simp only [loopStep] at hs <;> try cases hs
    split at hs <;> cases hs
    exact .keep ⟨rfl,rfl,rfl,Nat.le_refl _⟩
  | stopStore =>
    cases c <;> cases hs
    exact .stopped rfl rfl
  | plan =>
    cases c <;> simp only [loopStep] at hs <;> try cases hs
    split at hs <;> cases hs
    split <;> exact .keep ⟨rfl,rfl,rfl,Nat.le_refl _⟩
  | stopUnlock =>
    cases c <;> cases hs
    exact .keep ⟨rfl,rfl,rfl,Nat.zero_le _⟩
  | exited => cases c <;> cases hs
  | active | limit _ | pending | creditActive | creditReady | creditLimit _ =>
    cases c <;> cases hs
    split <;> exact .keep ⟨rfl,rfl,rfl,Nat.le_refl _⟩
  | _ =>
    cases c <;> cases hs
    exact .keep ⟨rfl,rfl,rfl,Nat.le_refl _⟩

theorem step_turn {l l' : Thread} {c : Choice} {new : List Thread} (hz : Sized l)
    (hs : step s l c = some (s',l',new)) :
    Turn (weights l) ((sum new).add (weights l')) (c = .done) (storing l = true)
      s.status s'.status := by
  have hz₀ : ∀ a : Weights, (sum []).add a = a := Weights.zero_add
  cases step_act hs with
  | loop hp => exact loop_turn hp
  | batch hp => exact hz₀ _ ▸ batch_turn hp
  | pause hp => exact hz₀ _ ▸ pause_turn hp
  | resume hp => exact hz₀ _ ▸ resume_turn hp
  | stop hp => exact hz₀ _ ▸ stop_turn hz hp
  | start hp => exact (start_turn hp).mono (by rintro rfl; rfl)
  | restart hp => exact (restart_turn hz hp).mono (by rintro rfl; rfl)
  | @waiter k pc pc' s' armed hp =>
    rw [wait_status hp]
    cases armed <;> exact .keep ⟨rfl,rfl,rfl,Nat.le_refl _⟩
  | @broadcast pc pc' s' hp =>
    cases pc <;> simp only [broadcastStep] at hp <;> try cases hp
    case lock =>
      split at hp <;> cases hp
      exact .keep ⟨rfl,rfl,rfl,Nat.le_refl _⟩
    all_goals exact .keep ⟨rfl,rfl,rfl,Nat.le_refl _⟩
  | cancelParent => exact .keep ⟨rfl,rfl,rfl,Nat.le_refl _⟩
  | notify => exact .keep ⟨rfl,rfl,rfl,Nat.le_refl _⟩
  | tunePool => exact .keep ⟨rfl,rfl,rfl,Nat.le_refl _⟩

end Varmq.Lifecycle
