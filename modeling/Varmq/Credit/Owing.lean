import Varmq.Credit.Step

namespace Varmq.Credit

open Interleaving
open Varmq.Worker (Status)
open Varmq.Lifecycle (FinishPc LoopPc BatchPc PausePc ResumePc StopPc StartPc RestartPc WaitPc)

-- The goroutine of the worker has made room, or the worker active, and has its signal still to send.
def owesCore : Lifecycle.Thread → Bool
  | .batch (.finish _) | .batch .notify => true
  | .resume .lock | .resume .wake | .resume .unlock | .resume .notify => true
  | .start .wake | .start .notify | .restart (.start .wake) | .restart (.start .notify) => true
  | _ => false

section Core

variable {s s' : Lifecycle.Shared} {c : Lifecycle.Choice} {l l' : Lifecycle.Thread}
  {new : List Lifecycle.Thread}

-- What a goroutine other than the event loop does to what the loop relies on.
structure Bystand (s s' : Lifecycle.Shared) (l l' : Lifecycle.Thread) : Prop where
  signal : s.signal = true → s'.signal = true
  kept : owesCore l = true → owesCore l' = true ∨ s'.signal = true
  active : s'.status.isActive = true → s.status.isActive = true ∨ owesCore l' = true
  busy : s.busyWorkers ≤ s'.busyWorkers ∨ owesCore l' = true
  limit : s'.concurrency = s.concurrency

theorem Bystand.frame (h1 : s'.signal = s.signal) (h2 : s'.busyWorkers = s.busyWorkers)
    (h3 : s'.concurrency = s.concurrency)
    (h4 : s'.status.isActive = true → s.status.isActive = true)
    (hl : owesCore l = true → owesCore l' = true) : Bystand s s' l l' :=
  ⟨fun h => h1.trans h,fun h => .inl (hl h),fun h => .inl (h4 h),.inl (Nat.le_of_eq h2.symm),h3⟩

structure Plain (s s' : Lifecycle.Shared) : Prop where
  signal : s'.signal = s.signal
  busy : s'.busyWorkers = s.busyWorkers
  limit : s'.concurrency = s.concurrency
  active : s'.status.isActive = true → s.status.isActive = true

theorem Plain.bystand (h : Plain s s') (hl : owesCore l = true → owesCore l' = true) :
    Bystand s s' l l' :=
  .frame h.signal h.busy h.limit h.active hl

theorem finish_plain {pc : FinishPc} {o : Option FinishPc}
    (hs : Lifecycle.finishStep s pc = some (s',o)) : Plain s s' := by
  cases pc <;> simp only [Lifecycle.finishStep] at hs <;> constructor <;> grind [Status.isActive]

theorem pause_plain {pc pc' : PausePc} (hs : Lifecycle.pauseStep s pc = some (s',pc')) :
    Plain s s' := by
  cases pc <;> simp only [Lifecycle.pauseStep] at hs <;> constructor <;> grind [Status.isActive]

theorem stop_plain {pc pc' : StopPc} (hs : Lifecycle.stopStep s pc = some (s',pc')) :
    Plain s s' := by
  cases pc with
  | cas seen rest =>
    cases rest <;> simp only [Lifecycle.stopStep] at hs <;> constructor <;> grind [Status.isActive]
  | _ => simp only [Lifecycle.stopStep] at hs; constructor <;> grind [Status.isActive]

theorem wait_plain {k : Lifecycle.WaitKind} {pc pc' : WaitPc} {armed : Bool}
    (hs : Lifecycle.waitStep k s pc c = some (s',pc',armed)) : Plain s s' := by
  cases pc <;> cases c <;> simp only [Lifecycle.waitStep] at hs <;> constructor <;> grind

theorem resume_bystand {pc pc' : ResumePc} (hs : Lifecycle.resumeStep s pc = some (s',pc')) :
    Bystand s s' (.resume pc) (.resume pc') := by
  cases pc <;> simp only [Lifecycle.resumeStep] at hs <;> constructor <;>
    grind [owesCore,Status.isActive]

theorem start_bystand {pc pc' : StartPc} (hs : Lifecycle.startStep s pc = some (s',pc',new)) :
    Bystand s s' (.start pc) (.start pc') := by
  cases pc <;> simp only [Lifecycle.startStep] at hs <;> constructor <;>
    grind [owesCore,Status.isActive]

theorem restart_bystand {pc pc' : RestartPc} (hs : Lifecycle.restartStep s pc = some (s',pc',new)) :
    Bystand s s' (.restart pc) (.restart pc') := by
  cases pc with
  | stop pc =>
    rcases Lifecycle.restart_stop hs with ⟨seen,moved,r,rfl,rfl,rfl,rfl⟩ | ⟨pc₁,hp,rfl,rfl⟩
    · exact .frame rfl rfl rfl id fun h => by cases h
    · exact (stop_plain hp).bystand fun h => by cases h
  | start pc =>
    have ho : ∀ q, owesCore (.restart (.start q)) = owesCore (.start q) := fun q => by
      cases q <;> rfl
    rcases Lifecycle.restart_start hs with ⟨r,rfl,rfl,rfl,rfl⟩ | ⟨pc₁,hp,rfl⟩
    · exact .frame rfl rfl rfl id fun h => by cases h
    · have h := start_bystand hp
      refine ⟨h.signal,?_,?_,?_,h.limit⟩
      · rw [ho,ho]
        exact h.kept
      · rw [ho]
        exact h.active
      · rw [ho]
        exact h.busy
  | _ =>
    have he : Plain s s' := by
      simp only [Lifecycle.restartStep] at hs
      constructor <;> grind
    exact he.bystand fun h => by cases h

theorem batch_bystand {pc pc' : BatchPc} (hs : Lifecycle.batchStep s pc c = some (s',pc')) :
    Bystand s s' (.batch pc) (.batch pc') := by
  cases pc with
  | finish pc =>
    cases c <;> simp only [Lifecycle.batchStep] at hs <;> try cases hs
    split at hs <;> cases hs
    · exact (finish_plain ‹_›).bystand fun _ => rfl
    · exact (finish_plain ‹_›).bystand fun _ => rfl
  | release n =>
    cases c <;> cases hs
    exact ⟨id,(fun h => by cases h),.inl,.inr rfl,rfl⟩
  | notify =>
    cases c <;> cases hs
    exact ⟨fun _ => rfl,fun _ => .inr rfl,.inl,.inl (Nat.le_refl _),rfl⟩
  | _ =>
    have he : Plain s s' := by
      cases c <;> simp only [Lifecycle.batchStep] at hs <;> constructor <;> grind
    exact he.bystand fun h => by cases h

-- The event loop has left its select for good.
def loopOver : LoopPc → Bool
  | .wait _ | .removeAll | .stopLock | .stopStore | .stopWake | .stopUnlock | .exited => true
  | _ => false

theorem over_plain {k : ℕ} {pc pc' : LoopPc} (ho : loopOver pc = true)
    (hs : Lifecycle.loopStep s k pc c = some (s',pc',new)) :
    Plain s s' ∧ loopOver pc' = true := by
  cases pc with
  | wait pc =>
    simp only [Lifecycle.loopStep] at hs
    split at hs <;> cases hs <;> exact ⟨wait_plain ‹_›,rfl⟩
  | removeAll | stopLock | stopStore | stopWake | stopUnlock | exited =>
    cases c <;> simp only [Lifecycle.loopStep] at hs <;> try cases hs
    all_goals
      refine ⟨?_,?_⟩
      · constructor <;> grind [Status.isActive]
      · grind [loopOver]
  | _ => cases ho

-- Inside a pass the event loop receives no signal.
structure Passes (s s' : Lifecycle.Shared) : Prop where
  signal : s.signal = true → s'.signal = true
  active : s'.status.isActive = true → s.status.isActive = true
  limit : s'.concurrency = s.concurrency

theorem Plain.passes (h : Plain s s') : Passes s s' :=
  ⟨fun hs => h.signal.trans hs,h.active,h.limit⟩

theorem loop_passes {k : ℕ} {pc pc' : LoopPc} (hp : pc ≠ .select)
    (hs : Lifecycle.loopStep s k pc c = some (s',pc',new)) : Passes s s' := by
  cases pc with
  | select => exact absurd rfl hp
  | finish pc r =>
    cases c <;> simp only [Lifecycle.loopStep] at hs <;> try cases hs
    split at hs <;> cases hs <;> exact (finish_plain ‹_›).passes
  | wait pc =>
    simp only [Lifecycle.loopStep] at hs
    split at hs <;> cases hs <;> exact (wait_plain ‹_›).passes
  | _ =>
    cases c <;> simp only [Lifecycle.loopStep] at hs <;> constructor <;> grind [Status.isActive]

end Core

variable {s s' : Shared} {c : Choice} {l l' t : Thread} {new : List Thread} {xs ys ts : List Thread}

def owes : Thread → Bool
  | .worker t _ => owesCore t
  | .add .poke | .add .signal | .announce .poke | .announce .signal => true
  | .resync .poke | .resync .signal => true
  | .other .bindNotify | .other .removeStore | .other .removeNotify => true
  | .distributed .unlock | .distributed .notify => true
  | _ => false

def Covered (s : Shared) (ts : List Thread) : Prop :=
  s.core.signal = true ∨ ∃ t ∈ ts, owes t = true

-- Not an event loop that still serves, and no TunePool.
def bystander : Thread → Bool
  | .worker (.loop _ pc) _ => loopOver pc
  | .worker (.tunePool _ _) _ => false
  | _ => true

structure Calm (s s' : Shared) (l l' : Thread) : Prop where
  signal : s.core.signal = true → s'.core.signal = true
  kept : owes l = true → owes l' = true ∨ s'.core.signal = true
  active : s'.core.status.isActive = true → s.core.status.isActive = true ∨ owes l' = true
  busy : s.core.busyWorkers ≤ s'.core.busyWorkers ∨ owes l' = true
  limit : s'.core.concurrency = s.core.concurrency
  batch : s'.src.batch = s.src.batch
  remaining : s'.src.remaining = s.src.remaining
  pokes : s'.src.pokes = s.src.pokes ∨ s'.src.pokes = s.src.pokes + 1 ∧ owes l' = true
  dryAt : s'.src.dryAt = s.src.dryAt ∨ s'.src.dryAt = none ∧ owes l' = true
  sole : s'.src.sole = true → s.src.sole = true ∨ owes l' = true

theorem Calm.core {core : Lifecycle.Shared} {t t' : Lifecycle.Thread} {h h' : Look}
    (hb : Bystand s.core core t t') : Calm s { s with core } (.worker t h) (.worker t' h') :=
  ⟨hb.signal,hb.kept,hb.active,hb.busy,hb.limit,rfl,rfl,.inl rfl,.inl rfl,.inl⟩

-- A step that touches neither the worker nor the hint.
theorem Calm.keep (h1 : s'.core = s.core) (h2 : s'.src.batch = s.src.batch)
    (h3 : s'.src.remaining = s.src.remaining) (h4 : s'.src.pokes = s.src.pokes)
    (h5 : s'.src.dryAt = s.src.dryAt) (h6 : s'.src.sole = true → s.src.sole = true)
    (hl : owes l = true → owes l' = true) : Calm s s' l l' :=
  ⟨fun h => by rw [h1]; exact h,fun h => .inl (hl h),fun h => .inl (by rw [h1] at h; exact h),
    .inl (Nat.le_of_eq (by rw [h1])),by rw [h1],h2,h3,.inl h4,.inl h5,fun h => .inl (h6 h)⟩

theorem Calm.fired {l' : Thread} : Calm s { s with core.signal := true } l l' :=
  ⟨fun _ => rfl,fun _ => .inr rfl,.inl,.inl (Nat.le_refl _),rfl,rfl,rfl,.inl rfl,.inl rfl,.inl⟩

theorem Calm.poked (hl : owes l' = true) : Calm s { s with src.pokes := s.src.pokes + 1 } l l' :=
  ⟨id,fun _ => .inl hl,.inl,.inl (Nat.le_refl _),rfl,rfl,rfl,.inr ⟨rfl,hl⟩,.inl rfl,.inl⟩

theorem armStep_src (s : Source) (pc : ArmPc) : (armStep s pc).1 = s ∨
    (armStep s pc).1 = { s with resyncing := true } := by
  cases pc with
  | load => exact .inl rfl
  | cas =>
    simp only [armStep]
    split
    · exact .inl rfl
    · exact .inr rfl

theorem Calm.arm (pc : ArmPc) (hl : owes l = false) :
    Calm s { s with src := (armStep s.src pc).1 } l l' := by
  have ho : owes l = true → owes l' = true := fun h => by rw [hl] at h; cases h
  rcases armStep_src s.src pc with he | he
  · rw [he]
    exact .keep rfl rfl rfl rfl rfl id ho
  · rw [he]
    exact .keep rfl rfl rfl rfl rfl id ho

theorem step_calm {t t' : Lifecycle.Thread} {h h' : Look} {d : Lifecycle.Choice}
    {core : Lifecycle.Shared} {new : List Lifecycle.Thread}
    (hb : bystander (.worker t h) = true) (hs : Lifecycle.step s.core t d = some (core,t',new)) :
    Calm s { s with core } (.worker t h) (.worker t' h') := by
  refine .core ?_
  cases Lifecycle.step_act hs with
  | loop hp => exact (over_plain hb hp).1.bystand fun h => by cases h
  | batch hp => exact batch_bystand hp
  | pause hp => exact (pause_plain hp).bystand fun h => by cases h
  | resume hp => exact resume_bystand hp
  | stop hp => exact (stop_plain hp).bystand fun h => by cases h
  | start hp => exact start_bystand hp
  | restart hp => exact restart_bystand hp
  | waiter hp => exact (wait_plain hp).bystand fun h => by cases h
  | @broadcast pc pc' s' hp =>
    have he : Plain s.core core := by
      cases pc <;> simp only [Lifecycle.broadcastStep] at hp <;> constructor <;> grind
    exact he.bystand fun h => by cases h
  | cancelParent => exact .frame rfl rfl rfl id fun h => by cases h
  | notify => exact ⟨fun _ => rfl,(fun h => by cases h),.inl,.inl (Nat.le_refl _),rfl⟩
  | tunePool => cases hb

theorem add_calm {pc pc' : AddPc} (hs : addStep s pc = some (s',pc')) :
    Calm s s' (.add pc) (.add pc') := by
  cases pc with
  | store =>
    cases hs
    exact .keep rfl rfl rfl rfl rfl id fun h => by cases h
  | poke =>
    cases hs
    exact .poked rfl
  | signal =>
    cases hs
    exact .fired
  | returned => cases hs

theorem announce_calm {pc pc' : AddPc} (hs : announceStep s pc = some (s',pc')) :
    Calm s s' (.announce pc) (.announce pc') := by
  cases pc with
  | store => cases hs
  | poke =>
    cases hs
    exact .poked rfl
  | signal =>
    cases hs
    exact .fired
  | returned => cases hs

theorem resync_calm {pc pc' : ResyncPc} (hs : resyncStep s pc = some (s',pc',new)) :
    Calm s s' (.resync pc) (.resync pc') := by
  cases pc with
  | ready pc =>
    obtain ⟨pc',-,heq⟩ := Option.map_eq_some_iff.mp hs
    cases heq
    exact .keep rfl rfl rfl rfl rfl id fun h => by cases h
  | arm pc =>
    cases hs
    exact .arm pc rfl
  | poke =>
    cases hs
    exact .poked rfl
  | signal =>
    cases hs
    exact .fired
  | _ =>
    cases hs <;> exact .keep rfl rfl rfl rfl rfl id fun h => by cases h

theorem len_calm {pc pc' : LenPc} (hs : lenStep s pc = some (s',pc',new)) :
    Calm s s' (.len pc) (.len pc') := by
  unfold lenStep at hs
  split at hs
  · cases hs
    exact .keep rfl rfl rfl rfl rfl id fun h => by cases h
  · obtain ⟨pc',-,heq⟩ := Option.map_eq_some_iff.mp hs
    cases heq
    exact .keep rfl rfl rfl rfl rfl id fun h => by cases h
  · cases hs
    exact .arm _ rfl
  · cases hs

theorem other_calm {pc pc' : OtherPc} (hs : otherStep s pc = some (s',pc')) :
    Calm s s' (.other pc) (.other pc') := by
  cases pc <;> simp only [otherStep] at hs
  case bindLock =>
    split at hs <;> cases hs
    exact .keep rfl rfl rfl rfl rfl id fun h => by cases h
  case bindStore =>
    cases hs
    exact .keep rfl rfl rfl rfl rfl (fun h => by cases h) fun h => by cases h
  case removeLock =>
    split at hs <;> cases hs
    exact .keep rfl rfl rfl rfl rfl id fun h => by cases h
  case remove =>
    split at hs
    · cases hs
      exact .keep rfl rfl rfl rfl rfl id fun _ => rfl
    · split at hs <;> cases hs
      · exact ⟨id,fun _ => .inl rfl,.inl,.inl (Nat.le_refl _),rfl,rfl,rfl,.inl rfl,.inr ⟨rfl,rfl⟩,.inl⟩
      · exact .keep rfl rfl rfl rfl rfl id fun h => by cases h
  case removeStore =>
    cases hs
    exact ⟨id,fun _ => .inl rfl,.inl,.inl (Nat.le_refl _),rfl,rfl,rfl,.inl rfl,.inl rfl,fun _ => .inr rfl⟩
  case bindNotify =>
    cases hs
    exact .fired
  case removeNotify =>
    cases hs
    exact .fired
  all_goals
    cases hs <;> exact .keep rfl rfl rfl rfl rfl id fun h => by cases h

theorem distributed_calm {pc pc' : DistributedPc} (hs : distributedStep s pc = some (s',pc')) :
    Calm s s' (.distributed pc) (.distributed pc') := by
  cases pc <;> simp only [distributedStep] at hs
  case lock =>
    split at hs <;> cases hs
    exact .keep rfl rfl rfl rfl rfl id fun h => by cases h
  case store =>
    cases hs
    exact ⟨id,fun _ => .inl rfl,.inl,.inl (Nat.le_refl _),rfl,rfl,rfl,.inl rfl,.inr ⟨rfl,rfl⟩,
      fun _ => .inr rfl⟩
  case unlock =>
    cases hs
    exact .keep rfl rfl rfl rfl rfl id fun _ => rfl
  case notify =>
    cases hs
    exact .fired
  all_goals
    cases hs <;> exact .keep rfl rfl rfl rfl rfl id fun h => by cases h

theorem act_calm (hb : bystander l = true) (hs : Act s c l s' l' new) : Calm s s' l l' := by
  cases hs with
  | core hc ha hp => exact step_calm hb hp
  | @look t h h' src new hp =>
    unfold lookStep at hp
    split at hp <;> first | cases hb | cases hp
  | add hp => exact add_calm hp
  | enqueue => exact .keep rfl rfl rfl rfl rfl id fun h => by cases h
  | announce hp => exact announce_calm hp
  | resync hp => exact resync_calm hp
  | len hp => exact len_calm hp
  | other hp => exact other_calm hp
  | distributed hp => exact distributed_calm hp

theorem covered_own (ho : owes l' = true) : Covered s' (xs ++ l' :: (ys ++ new)) :=
  .inr ⟨l',by simp,ho⟩

theorem covered_split (h : Covered s (xs ++ l :: ys)) :
    s.core.signal = true ∨ owes l = true ∨ ∃ t ∈ xs ++ ys, owes t = true := by
  rcases h with h | ⟨t,ht,ho⟩
  · exact .inl h
  · rcases mem_split ht with ht | rfl
    · exact .inr (.inr ⟨t,ht,ho⟩)
    · exact .inr (.inl ho)

theorem covered_act (hsig : s.core.signal = true → s'.core.signal = true)
    (hkept : owes l = true → owes l' = true ∨ s'.core.signal = true)
    (h : Covered s (xs ++ l :: ys)) : Covered s' (xs ++ l' :: (ys ++ new)) := by
  rcases covered_split h with h | h | ⟨t,ht,ho⟩
  · exact .inl (hsig h)
  · rcases hkept h with ho | h
    · exact covered_own ho
    · exact .inl h
  · exact .inr ⟨t,mem_of_act ht,ho⟩

theorem Calm.covered (hc : Calm s s' l l') (h : Covered s (xs ++ l :: ys)) :
    Covered s' (xs ++ l' :: (ys ++ new)) :=
  covered_act hc.signal hc.kept h

end Varmq.Credit
