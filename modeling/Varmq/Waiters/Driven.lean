import Varmq.Lifecycle.Counters
import Varmq.Lifecycle.Serving
import Varmq.Waiters.Sleep

namespace Varmq.Waiters

open Interleaving
open Varmq.Worker (Status)
open Varmq.Lifecycle (Choice FinishPc WaitPc LoopPc BatchPc PausePc ResumePc StopPc StartPc RestartPc
  BroadcastPc weights)

variable {s s' : Lifecycle.Shared} {l l' : Lifecycle.Thread} {c : Choice}
  {new xs ys ts : List Lifecycle.Thread}

-- The two statuses that only somebody who finds curProcessing at 0 moves on.
def moving : Status → Bool
  | .running | .pausing => true
  | _ => false

def finishSettles (q : Status) : FinishPc → Bool
  | .lock | .load | .casIdle => true
  | .casPaused => q = .pausing
  | _ => false

def settles (q : Status) : Lifecycle.Thread → Bool
  | .loop _ (.finish pc _) | .batch (.finish pc) => finishSettles q pc
  | .pause .curLoad | .pause .casPaused => q = .pausing
  | _ => false

def entering : Lifecycle.Thread → Bool
  | .loop _ (.finish .lock _) | .batch (.finish .lock) => true
  | _ => false

def reverting : Lifecycle.Thread → Bool
  | .loop _ (.finish .casBack _) | .batch (.finish .casBack) => true
  | _ => false

def stopEnds : StopPc → Bool
  | .lock _ | .cancel _ => true
  | _ => false

-- A Stop that has yet to cancel the context, or the loop on its way to stopped.
def ends : Lifecycle.Thread → Bool
  | .stop pc | .restart (.stop pc) => stopEnds pc
  | .loop _ pc => Lifecycle.shuttingDown pc
  | _ => false

def Batched : Lifecycle.Thread → Prop
  | .loop _ (.take k) | .loop _ (.count _ k) | .loop _ (.reserve _ k) | .loop _ (.claim _ k) => 0 < k
  | _ => True

structure FinishDrives (s s' : Lifecycle.Shared) (pc : FinishPc) (o : Option FinishPc) : Prop where
  zero : s'.curProcessing = 0 → s.curProcessing = 0 ∨ o = some .lock
  enters : pc = .lock → s.mx = false
  reverts : o = some .casBack → s'.curProcessing ≠ 0
  moves : ∀ q, moving q = true → s'.status = q → s'.curProcessing = 0 →
    (∃ p, o = some p ∧ finishSettles q p = true) ∨ pc = .casBack ∨
      (s.status = q ∧ finishSettles q pc = false)
  stops : s'.status = .stopping → s.status = .stopping
  ctx : s'.ctx = s.ctx
  done : s'.parentDone = s.parentDone ∧ s'.cancelled = s.cancelled

theorem finish_drives {pc : FinishPc} {o : Option FinishPc} (hs : Lifecycle.finishStep s pc = some (s',o)) :
    FinishDrives s s' pc o := by
  cases pc <;> simp only [Lifecycle.finishStep] at hs
  case dec m =>
    cases hs
    refine ⟨fun hz => .inr ?_,(fun h => by cases h),fun h => ?_,fun q _ hq _ => .inr (.inr ⟨hq,rfl⟩),id,rfl,rfl,rfl⟩
    · simp only at hz
      rw [if_pos hz]
    · split at h <;> cases h
  case lock =>
    split at hs <;> cases hs
    exact ⟨.inl,fun _ => by simpa using ‹¬s.mx = true›,(fun h => by cases h),
      fun q _ _ _ => .inl ⟨_,rfl,rfl⟩,id,rfl,rfl,rfl⟩
  case load =>
    cases hs
    refine ⟨.inl,(fun h => by cases h),fun h => ?_,fun q _ _ hz => .inl ⟨_,by rw [if_pos hz],rfl⟩,id,
      rfl,rfl,rfl⟩
    split at h <;> cases h
  case casIdle =>
    split at hs <;> cases hs
    · refine ⟨.inl,(fun h => by cases h),(fun h => by cases h),fun q hm hq _ => ?_,(fun h => by cases h),rfl,
        rfl,rfl⟩
      subst hq
      cases hm
    · refine ⟨.inl,(fun h => by cases h),(fun h => by cases h),fun q hm hq _ => .inl ⟨_,rfl,?_⟩,id,rfl,
        rfl,rfl⟩
      cases q <;> simp_all [moving,finishSettles]
  case recheck =>
    cases hs
    refine ⟨.inl,(fun h => by cases h),fun h hz => ?_,fun q _ hq _ => .inr (.inr ⟨hq,rfl⟩),id,rfl,rfl,rfl⟩
    rw [if_pos hz] at h
    cases h
  case casBack =>
    split at hs <;> cases hs
    · exact ⟨.inl,(fun h => by cases h),(fun h => by cases h),fun q _ _ _ => .inr (.inl rfl),
        (fun h => by cases h),rfl,rfl,rfl⟩
    · exact ⟨.inl,(fun h => by cases h),(fun h => by cases h),fun q _ _ _ => .inr (.inl rfl),id,rfl,rfl,
        rfl⟩
  case casPaused =>
    split at hs <;> cases hs
    · refine ⟨.inl,(fun h => by cases h),(fun h => by cases h),fun q hm hq _ => ?_,(fun h => by cases h),rfl,
        rfl,rfl⟩
      subst hq
      cases hm
    · refine ⟨.inl,(fun h => by cases h),(fun h => by cases h),fun q hm hq _ => .inr (.inr ⟨hq,?_⟩),id,rfl,
        rfl,rfl⟩
      cases q <;> simp_all [moving,finishSettles]
  all_goals
    cases hs
    exact ⟨.inl,(fun h => by cases h),(fun h => by cases h),fun q _ hq _ => .inr (.inr ⟨hq,rfl⟩),id,rfl,
      rfl,rfl⟩

structure Drives (s s' : Lifecycle.Shared) (l l' : Lifecycle.Thread) : Prop where
  sized : Batched l'
  zero : s'.curProcessing = 0 → s.curProcessing = 0 ∨ entering l' = true
  enters : entering l = true → s.mx = false
  reverts : reverting l' = true → s'.curProcessing ≠ 0
  moves : ∀ q, moving q = true → s'.status = q → s'.curProcessing = 0 →
    settles q l' = true ∨ reverting l = true ∨ (s.status = q ∧ settles q l = false)
  stops : s'.status = .stopping → s'.ctxDone s'.ctx = true ∨ ends l' = true ∨
    (s.status = .stopping ∧ ends l = false ∧ (s.ctxDone s.ctx = true → s'.ctxDone s'.ctx = true))
  ctx : s'.ctx = s.ctx ∨ 0 < (weights l).launching

theorem Drives.calm (hb : Batched l') (hc : s'.curProcessing = s.curProcessing)
    (hq : s'.status = s.status) (hx : s'.ctx = s.ctx) (hd : s.ctxDone s.ctx = true → s'.ctxDone s'.ctx = true)
    (he : entering l = false) (hr : reverting l' = false) (hm : ∀ q, settles q l = false)
    (hn : ends l = true → s'.ctxDone s'.ctx = true ∨ ends l' = true) : Drives s s' l l' := by
  refine ⟨hb,fun hz => .inl (hc ▸ hz),fun h => ?_,fun h => ?_,
    fun q _ hs _ => .inr (.inr ⟨hq ▸ hs,hm q⟩),fun hs => ?_,.inl hx⟩
  · rw [he] at h
    cases h
  · rw [hr] at h
    cases h
  · cases hl : ends l with
    | true => exact (hn hl).imp_right .inl
    | false => exact .inr (.inr ⟨hq ▸ hs,rfl,hd⟩)

-- The status the step stores is none that anybody has to move on.
theorem Drives.rests (hb : Batched l') (hc : s'.curProcessing = s.curProcessing)
    (hx : s'.ctx = s.ctx) (hq : moving s'.status = false) (hn : s'.status = .stopping → ends l' = true)
    (he : entering l = false) (hr : reverting l' = false) : Drives s s' l l' := by
  refine ⟨hb,fun hz => .inl (hc ▸ hz),fun h => ?_,fun h => ?_,fun q hm hs _ => ?_,
    fun hs => .inr (.inl (hn hs)),.inl hx⟩
  · rw [he] at h
    cases h
  · rw [hr] at h
    cases h
  · rw [hs,hm] at hq
    cases hq

theorem finish_drive {pc : FinishPc} {o : Option FinishPc} (f : FinishDrives s s' pc o)
    (hb : Batched l') (he : entering l = true → pc = .lock) (he' : o = some .lock → entering l' = true)
    (hr : pc = .casBack → reverting l = true) (hr' : reverting l' = true → o = some .casBack)
    (hm : ∀ q, settles q l = finishSettles q pc)
    (hm' : ∀ q p, o = some p → settles q l' = finishSettles q p) (hn : ends l = false) :
    Drives s s' l l' := by
  refine ⟨hb,fun hz => (f.zero hz).imp_right he',fun h => f.enters (he h),
    fun h => f.reverts (hr' h),fun q hq hs hz => ?_,fun hs => .inr (.inr ⟨f.stops hs,hn,?_⟩),.inl f.ctx⟩
  · rcases f.moves q hq hs hz with ⟨p,hp,hf⟩ | h | ⟨hs,hf⟩
    · exact .inl (by rw [hm' q p hp,hf])
    · exact .inr (.inl (hr h))
    · exact .inr (.inr ⟨hs,by rw [hm q,hf]⟩)
  · simp only [Lifecycle.Shared.ctxDone,f.ctx,f.done.1,f.done.2]
    exact id

theorem wait_shared {k : Lifecycle.WaitKind} {pc pc' : WaitPc} {armed : Bool}
    (hs : Lifecycle.waitStep k s pc c = some (s',pc',armed)) : ∃ b, s' = { s with mx := b } := by
  cases pc <;> cases c <;> simp only [Lifecycle.waitStep] at hs <;> try cases hs
  case lock.go =>
    split at hs <;> cases hs
    exact ⟨true,rfl⟩
  case asleep.go =>
    split at hs <;> cases hs
    exact ⟨s.mx,rfl⟩
  case sleep.go | unlock.go => exact ⟨false,rfl⟩
  all_goals exact ⟨s.mx,rfl⟩

theorem loop_drives {k : ℕ} {pc pc' : LoopPc} (hb : Batched (.loop k pc))
    (hc : Lifecycle.reservedBy (.loop k pc) ≤ s.curProcessing)
    (hs : Lifecycle.loopStep s k pc c = some (s',pc',new)) :
    Drives s s' (.loop k pc) (.loop k pc') := by
  cases pc with
  | finish pc r =>
    obtain ⟨o,hp,rfl⟩ := loop_finish hs
    refine finish_drive (finish_drives hp) ?_ ?_ ?_ ?_ ?_ (fun _ => rfl) ?_ rfl
    · cases o with
      | none => cases r <;> trivial
      | some q => trivial
    · intro h
      cases pc <;> first | rfl | cases h
    · rintro rfl
      rfl
    · rintro rfl
      rfl
    · intro h
      cases o with
      | none => cases r <;> cases h
      | some q => cases q <;> first | rfl | cases h
    · rintro q p rfl
      rfl
  | wait pc =>
    simp only [Lifecycle.loopStep] at hs
    split at hs <;> cases hs
    · obtain ⟨b,rfl⟩ := wait_shared ‹_›
      exact .calm trivial rfl rfl rfl id rfl rfl (fun _ => rfl) (fun _ => .inr rfl)
    · obtain ⟨b,rfl⟩ := wait_shared ‹_›
      exact .calm trivial rfl rfl rfl id rfl rfl (fun _ => rfl) (fun _ => .inr rfl)
  | select =>
    cases c <;> simp only [Lifecycle.loopStep] at hs <;> try cases hs
    · split at hs <;> cases hs
      exact .rests trivial rfl rfl rfl (fun _ => rfl) rfl rfl
    · split at hs <;> cases hs
      rename_i credit _
      cases credit <;> exact .calm trivial rfl rfl rfl id rfl rfl (fun _ => rfl) (fun h => by cases h)
  | count m n =>
    cases c <;> cases hs
    refine ⟨hb,fun hz => .inl ?_,(fun h => by cases h),(fun h => by cases h),
      fun q _ hq _ => .inr (.inr ⟨hq,rfl⟩),fun hq => .inr (.inr ⟨hq,rfl,id⟩),.inl rfl⟩
    simp only at hz
    omega
  | claim m n =>
    cases c <;> simp only [Lifecycle.loopStep] at hs <;> try cases hs
    split at hs <;> cases hs
    · refine ⟨by cases m <;> trivial,.inl,(fun h => by cases h),(fun h => by cases m <;> cases h),
        fun q _ _ hz => ?_,(fun h => by cases h),.inl rfl⟩
      have h1 : n ≤ s.curProcessing := hc
      have h2 : 0 < n := hb
      simp only at hz
      omega
    · exact .calm hb rfl rfl rfl id rfl rfl (fun _ => rfl) (fun h => by cases h)
  | reserve m n =>
    cases c <;> simp only [Lifecycle.loopStep] at hs <;> try cases hs
    split at hs
    · cases hs
      cases m <;> exact .calm trivial rfl rfl rfl id rfl rfl (fun _ => rfl) (fun h => by cases h)
    · split at hs <;> cases hs
      · exact .calm hb rfl rfl rfl id rfl rfl (fun _ => rfl) (fun h => by cases h)
      · cases m <;> exact .calm trivial rfl rfl rfl id rfl rfl (fun _ => rfl) (fun h => by cases h)
  | stopStore =>
    cases c <;> cases hs
    exact .rests trivial rfl rfl rfl (fun h => by cases h) rfl rfl
  | plan =>
    cases c <;> simp only [Lifecycle.loopStep] at hs <;> try cases hs
    split at hs <;> cases hs
    split
    · exact .calm trivial rfl rfl rfl id rfl rfl (fun _ => rfl) (fun h => by cases h)
    · exact .calm (Nat.pos_of_ne_zero ‹_›) rfl rfl rfl id rfl rfl (fun _ => rfl) (fun h => by cases h)
  | take n =>
    cases c <;> cases hs
    exact .calm hb rfl rfl rfl id rfl rfl (fun _ => rfl) (fun h => by cases h)
  | creditLimit busy =>
    cases c <;> cases hs
    split
    · exact .calm trivial rfl rfl rfl id rfl rfl (fun _ => rfl) (fun h => by cases h)
    · refine .calm ?_ rfl rfl rfl id rfl rfl (fun _ => rfl) (fun h => by cases h)
      simp only [Batched,Lifecycle.maxCredit]
      omega
  | fill n =>
    cases c <;> simp only [Lifecycle.loopStep] at hs <;> try cases hs
    split at hs
    · cases hs
      exact .calm trivial rfl rfl rfl id rfl rfl (fun _ => rfl) (fun h => by cases h)
    · split at hs
      · cases hs
        exact .calm trivial rfl rfl rfl id rfl rfl (fun _ => rfl) (fun h => by cases h)
      · split at hs <;> cases hs
        exact .calm trivial rfl rfl rfl id rfl rfl (fun _ => rfl) (fun h => by cases h)
  | emit left =>
    cases c <;> simp only [Lifecycle.loopStep] at hs <;> try cases hs
    split at hs
    · cases hs
      exact .calm trivial rfl rfl rfl id rfl rfl (fun _ => rfl) (fun h => by cases h)
    · cases hs
      split <;> exact .calm trivial rfl rfl rfl id rfl rfl (fun _ => rfl) (fun h => by cases h)
  | giveBack n cont | send n cont =>
    cases c <;> cases hs
    cases cont <;> exact .calm trivial rfl rfl rfl id rfl rfl (fun _ => rfl) (fun h => by cases h)
  | active | limit | pending | creditActive | creditReady =>
    cases c <;> cases hs
    split <;> exact .calm trivial rfl rfl rfl id rfl rfl (fun _ => rfl) (fun h => by cases h)
  | stopLock =>
    cases c <;> simp only [Lifecycle.loopStep] at hs <;> try cases hs
    split at hs <;> cases hs
    exact .calm trivial rfl rfl rfl id rfl rfl (fun _ => rfl) (fun _ => .inr rfl)
  | removeAll =>
    cases c <;> cases hs
    exact .calm trivial rfl rfl rfl id rfl rfl (fun _ => rfl) (fun _ => .inr rfl)
  | exited => cases c <;> cases hs
  | _ =>
    cases c <;> cases hs
    exact .calm trivial rfl rfl rfl id rfl rfl (fun _ => rfl) (fun h => by cases h)

theorem batch_drives {pc pc' : BatchPc} (hs : Lifecycle.batchStep s pc c = some (s',pc')) :
    Drives s s' (.batch pc) (.batch pc') := by
  cases pc with
  | finish pc =>
    obtain ⟨o,hp,rfl⟩ := batch_finish hs
    refine finish_drive (finish_drives hp) trivial ?_ ?_ ?_ ?_ (fun _ => rfl) ?_ rfl
    · intro h
      cases pc <;> first | rfl | cases h
    · rintro rfl
      rfl
    · rintro rfl
      rfl
    · intro h
      cases o with
      | none => cases h
      | some q => cases q <;> first | rfl | cases h
    · rintro q p rfl
      rfl
  | check n i =>
    cases c <;> simp only [Lifecycle.batchStep] at hs <;> try cases hs
    all_goals
      split at hs <;> cases hs
      exact .calm trivial rfl rfl rfl id rfl rfl (fun _ => rfl) (fun h => by cases h)
  | done => cases c <;> cases hs
  | _ =>
    cases c <;> cases hs
    exact .calm trivial rfl rfl rfl id rfl rfl (fun _ => rfl) (fun h => by cases h)

theorem pause_drives {pc pc' : PausePc} (hs : Lifecycle.pauseStep s pc = some (s',pc')) :
    Drives s s' (.pause pc) (.pause pc') := by
  cases pc with
  | casIdle =>
    simp only [Lifecycle.pauseStep] at hs
    split at hs <;> cases hs
    · exact .rests trivial rfl rfl rfl (fun h => by cases h) rfl rfl
    · exact .calm trivial rfl rfl rfl id rfl rfl (fun _ => rfl) (fun h => by cases h)
  | casRunning =>
    simp only [Lifecycle.pauseStep] at hs
    split at hs <;> cases hs
    · refine ⟨trivial,.inl,(fun h => by cases h),(fun h => by cases h),fun q _ hq _ => .inl ?_,
        (fun h => by cases h),.inl rfl⟩
      simp only at hq
      rw [← hq]
      rfl
    · exact .calm trivial rfl rfl rfl id rfl rfl (fun _ => rfl) (fun h => by cases h)
  | curLoad =>
    cases hs
    refine ⟨trivial,.inl,(fun h => by cases h),(fun h => by split at h <;> cases h),
      fun q hm hq hz => ?_,fun h => .inr (.inr ⟨h,rfl,id⟩),.inl rfl⟩
    rw [if_pos hz]
    by_cases hp : q = .pausing
    · exact .inl (by simp [settles,hp])
    · exact .inr (.inr ⟨hq,by simp [settles,hp]⟩)
  | casPaused =>
    simp only [Lifecycle.pauseStep] at hs
    split at hs <;> cases hs
    · exact .rests trivial rfl rfl rfl (fun h => by cases h) rfl rfl
    · refine ⟨trivial,.inl,(fun h => by cases h),(fun h => by cases h),
        fun q _ hq _ => .inr (.inr ⟨hq,?_⟩),fun h => .inr (.inr ⟨h,rfl,id⟩),.inl rfl⟩
      subst hq
      simpa [settles] using ‹¬_›
  | lock =>
    simp only [Lifecycle.pauseStep] at hs
    split at hs <;> cases hs
    exact .calm trivial rfl rfl rfl id rfl rfl (fun _ => rfl) (fun h => by cases h)
  | load =>
    cases hs
    split <;> exact .calm trivial rfl rfl rfl id rfl rfl (fun _ => rfl) (fun h => by cases h)
  | returned r => cases hs
  | _ =>
    cases hs
    exact .calm trivial rfl rfl rfl id rfl rfl (fun _ => rfl) (fun h => by cases h)

theorem resume_drives {pc pc' : ResumePc} (hs : Lifecycle.resumeStep s pc = some (s',pc')) :
    Drives s s' (.resume pc) (.resume pc') := by
  cases pc with
  | cas =>
    simp only [Lifecycle.resumeStep] at hs
    split at hs <;> cases hs
    · exact .rests trivial rfl rfl rfl (fun h => by cases h) rfl rfl
    · exact .calm trivial rfl rfl rfl id rfl rfl (fun _ => rfl) (fun h => by cases h)
  | lock =>
    simp only [Lifecycle.resumeStep] at hs
    split at hs <;> cases hs
    exact .calm trivial rfl rfl rfl id rfl rfl (fun _ => rfl) (fun h => by cases h)
  | returned r => cases hs
  | _ =>
    cases hs
    exact .calm trivial rfl rfl rfl id rfl rfl (fun _ => rfl) (fun h => by cases h)

theorem broadcast_drives {pc pc' : BroadcastPc} (hs : Lifecycle.broadcastStep s pc = some (s',pc')) :
    Drives s s' (.broadcast pc) (.broadcast pc') := by
  cases pc with
  | lock =>
    simp only [Lifecycle.broadcastStep] at hs
    split at hs <;> cases hs
    exact .calm trivial rfl rfl rfl id rfl rfl (fun _ => rfl) (fun h => by cases h)
  | done => cases hs
  | _ =>
    cases hs
    exact .calm trivial rfl rfl rfl id rfl rfl (fun _ => rfl) (fun h => by cases h)

-- What a Stop does, whoever makes the call.
theorem stop_drives {pc pc' : StopPc} (hs : Lifecycle.stopStep s pc = some (s',pc'))
    (hb : Batched l') (he : entering l = false) (hr : reverting l' = false)
    (hm : ∀ q, settles q l = false) (hn : ends l = stopEnds pc) (hn' : ends l' = stopEnds pc') :
    Drives s s' l l' := by
  cases pc with
  | cas seen rest =>
    cases rest with
    | nil =>
      cases hs
      exact .calm hb rfl rfl rfl id he hr hm (fun h => by rw [hn] at h; cases h)
    | cons t rest =>
      simp only [Lifecycle.stopStep] at hs
      split at hs <;> cases hs
      · exact .rests hb rfl rfl rfl (fun _ => hn') he hr
      · exact .calm hb rfl rfl rfl id he hr hm (fun h => by rw [hn] at h; cases h)
  | lock seen =>
    simp only [Lifecycle.stopStep] at hs
    split at hs <;> cases hs
    exact .calm hb rfl rfl rfl id he hr hm (fun _ => .inr hn')
  | cancel seen =>
    cases hs
    refine .calm hb rfl rfl rfl (fun _ => ?_) he hr hm (fun _ => .inl ?_) <;>
      simp [Lifecycle.Shared.ctxDone]
  | returned seen moved r => cases hs
  | _ =>
    cases hs
    exact .calm hb rfl rfl rfl id he hr hm (fun h => by rw [hn] at h; cases h)

-- What a Start does, whoever makes the call.
theorem start_drives {pc pc' : StartPc} (hs : Lifecycle.startStep s pc = some (s',pc',new))
    (hq : 0 < (weights l).launching → s.status ≠ .stopping)
    (hl : (weights l).launching = (Lifecycle.startWeights pc).launching) (hb : Batched l') (he : entering l = false) (hr : reverting l' = false)
    (hm : ∀ q, settles q l = false) (hn : ends l = false) : Drives s s' l l' := by
  have hf : ends l = true → s'.ctxDone s'.ctx = true ∨ ends l' = true := by
    intro h
    rw [hn] at h
    cases h
  cases pc with
  | lock =>
    simp only [Lifecycle.startStep] at hs
    split at hs <;> cases hs
    exact .calm hb rfl rfl rfl id he hr hm hf
  | init =>
    cases hs
    have h1 : 0 < (weights l).launching := by
      rw [hl]
      exact Nat.one_pos
    refine ⟨hb,.inl,fun h => ?_,fun h => ?_,fun q _ h2 _ => .inr (.inr ⟨h2,hm q⟩),
      fun h => absurd h (hq h1),.inr h1⟩
    · rw [he] at h
      cases h
    · rw [hr] at h
      cases h
  | store =>
    cases hs
    exact .rests hb rfl rfl rfl (fun h => by cases h) he hr
  | returned r => cases hs
  | _ =>
    cases hs
    exact .calm hb rfl rfl rfl id he hr hm hf

theorem restart_drives {pc pc' : RestartPc} (hs : Lifecycle.restartStep s pc = some (s',pc',new))
    (hq : 0 < (weights (.restart pc)).launching → s.status ≠ .stopping) :
    Drives s s' (.restart pc) (.restart pc') := by
  cases pc with
  | stop pc =>
    rcases Lifecycle.restart_stop hs with ⟨seen,moved,r,rfl,rfl,rfl,rfl⟩ | ⟨pc₁,hp,rfl,rfl⟩
    · cases r <;> exact .calm trivial rfl rfl rfl id rfl rfl (fun _ => rfl) (fun h => by cases h)
    · exact stop_drives hp trivial rfl rfl (fun _ => rfl) rfl rfl
  | start pc =>
    rcases Lifecycle.restart_start hs with ⟨r,rfl,rfl,rfl,rfl⟩ | ⟨pc₁,hp,rfl⟩
    · exact .calm trivial rfl rfl rfl id rfl rfl (fun _ => rfl) (fun h => by cases h)
    · exact start_drives hp hq rfl trivial rfl rfl (fun _ => rfl) rfl
  | lock | asleep =>
    simp only [Lifecycle.restartStep] at hs
    split at hs <;> cases hs
    exact .calm trivial rfl rfl rfl id rfl rfl (fun _ => rfl) (fun h => by cases h)
  | stopped | active | unlock =>
    cases hs
    split <;> exact .calm trivial rfl rfl rfl id rfl rfl (fun _ => rfl) (fun h => by cases h)
  | returned r => cases hs
  | _ =>
    cases hs
    exact .calm trivial rfl rfl rfl id rfl rfl (fun _ => rfl) (fun h => by cases h)

theorem step_drives (hb : Batched l) (hc : Lifecycle.reservedBy l ≤ s.curProcessing)
    (hq : 0 < (weights l).launching → s.status ≠ .stopping)
    (hs : Lifecycle.step s l c = some (s',l',new)) : Drives s s' l l' := by
  cases Lifecycle.step_act hs with
  | loop hp => exact loop_drives hb hc hp
  | batch hp => exact batch_drives hp
  | pause hp => exact pause_drives hp
  | resume hp => exact resume_drives hp
  | stop hp => exact stop_drives hp trivial rfl rfl (fun _ => rfl) rfl rfl
  | start hp => exact start_drives hp hq rfl trivial rfl rfl (fun _ => rfl) rfl
  | restart hp => exact restart_drives hp hq
  | waiter hp =>
    obtain ⟨b,rfl⟩ := wait_shared hp
    exact .calm trivial rfl rfl rfl id rfl rfl (fun _ => rfl) (fun h => by cases h)
  | broadcast hp => exact broadcast_drives hp
  | cancelParent =>
    exact .calm trivial rfl rfl rfl (fun _ => rfl) rfl rfl (fun _ => rfl) (fun h => by cases h)
  | notify => exact .calm trivial rfl rfl rfl id rfl rfl (fun _ => rfl) (fun h => by cases h)
  | tunePool => exact .calm trivial rfl rfl rfl id rfl rfl (fun _ => rfl) (fun h => by cases h)

end Varmq.Waiters
