import Varmq.Interleaving.World
import Varmq.Interleaving.Total
import Varmq.Worker.Status

namespace Varmq.Lifecycle

open Interleaving
open Varmq.Worker (Status Error)

-- `wakes` counts the broadcasts on w.waiters; `started` is a ghost count of workerFunc starts.
structure Shared where
  status : Status
  curProcessing : ℕ
  busyWorkers : ℕ
  concurrency : ℕ
  mx : Bool
  ctx : ℕ
  cancelled : List ℕ
  parentDone : Bool
  signal : Bool
  wakes : ℕ
  started : ℕ
  deriving DecidableEq, Repr

def Shared.ctxDone (s : Shared) (k : ℕ) : Bool := s.parentDone || s.cancelled.contains k

inductive Choice where
  | go
  | done
  | signal (credit : Bool)
  | flag (b : Bool)
  | pick (n : ℕ)
  | fill (n : ℕ) (cont : Bool)
  | start
  | skip
  | park (held : Bool)
  deriving DecidableEq, Repr

inductive FinishPc where
  | dec (m : ℕ)
  | lock
  | load
  | casIdle
  | recheck
  | casBack
  | casPaused
  | wake
  | unlock
  deriving DecidableEq, Repr

def finishStep (s : Shared) : FinishPc → Option (Shared × Option FinishPc)
  | .dec m => some ({ s with curProcessing := s.curProcessing - m },
      if s.curProcessing - m = 0 then some .lock else none)
  | .lock => if s.mx then none else some ({ s with mx := true },some .load)
  | .load => some (s,some (if s.curProcessing = 0 then .casIdle else .unlock))
  | .casIdle =>
      if s.status = .running then some ({ s with status := .idle },some .recheck)
      else some (s,some .casPaused)
  | .recheck => some (s,some (if s.curProcessing = 0 then .wake else .casBack))
  | .casBack =>
      if s.status = .idle then some ({ s with status := .running },some .wake)
      else some (s,some .wake)
  | .casPaused =>
      if s.status = .pausing then some ({ s with status := .paused },some .wake)
      else some (s,some .wake)
  | .wake => some ({ s with wakes := s.wakes + 1 },some .unlock)
  | .unlock => some ({ s with mx := false },none)

inductive WaitKind where
  | wait
  | untilIdle
  | untilPaused
  | untilStopped
  deriving DecidableEq, Repr

inductive WaitPc where
  | lock
  | status
  | pending
  | cur
  | recheck
  | sleep (armed : Bool)
  | asleep (n : ℕ)
  | unlock
  | done
  deriving DecidableEq, Repr

def waitOn : WaitKind → Status → WaitPc
  | .wait, .running | .wait, .idle => .pending
  | .wait, .initiated => .unlock
  | .wait, _ => .cur
  | .untilIdle, .idle => .pending
  | .untilIdle, _ => .recheck
  | .untilPaused, .paused => .unlock
  | .untilPaused, _ => .sleep false
  | .untilStopped, .stopped => .unlock
  | .untilStopped, _ => .sleep false

-- The last component says whether waitForChange armed its timer.
def waitStep (k : WaitKind) (s : Shared) : WaitPc → Choice → Option (Shared × WaitPc × Bool)
  | .lock, .go => if s.mx then none else some ({ s with mx := true },.status,false)
  | .status, .go => some (s,waitOn k s.status,false)
  | .pending, .flag b => some (s,if b then .cur else .recheck,false)
  | .cur, .go => some (s,if s.curProcessing = 0 then .unlock else .recheck,false)
  | .recheck, .go => some (s,.sleep (s.curProcessing = 0),false)
  | .sleep armed, .go => some ({ s with mx := false },.asleep s.wakes,armed)
  | .asleep n, .go => if s.wakes = n then none else some (s,.lock,false)
  | .unlock, .go => some ({ s with mx := false },.done,false)
  | _, _ => none

inductive Mode where
  | batch
  | credit
  deriving DecidableEq, Repr

inductive Ret where
  | again
  | select
  | send (n : ℕ) (cont : Bool)
  | creditEnd
  deriving DecidableEq, Repr

inductive LoopPc where
  | select
  | active
  | slots
  | limit (busy : ℕ)
  | pending
  | plan
  | take (k : ℕ)
  | count (m : Mode) (k : ℕ)
  | reserve (m : Mode) (k : ℕ)
  | claim (m : Mode) (k : ℕ)
  | fill (k : ℕ)
  | giveBack (k : ℕ) (cont : Bool)
  | send (n : ℕ) (cont : Bool)
  | finish (pc : FinishPc) (r : Ret)
  | creditActive
  | creditReady
  | creditSlots
  | creditLimit (busy : ℕ)
  | emit (left : ℕ)
  | emitBusy (left : ℕ)
  | emitSend (left : ℕ)
  | creditEnd
  | wait (pc : WaitPc)
  | removeAll
  | stopLock
  | stopStore
  | stopWake
  | stopUnlock
  | exited
  deriving DecidableEq, Repr

def Ret.pc : Ret → LoopPc
  | .again => .active
  | .select => .select
  | .send n cont => .send n cont
  | .creditEnd => .creditEnd

def afterSend (cont : Bool) : Ret := if cont then .again else .select

def reserved (m : Mode) (k : ℕ) : LoopPc :=
  match m with
  | .batch => .fill k
  | .credit => .emit k

def refused (m : Mode) (k : ℕ) : LoopPc :=
  match m with
  | .batch => .giveBack k false
  | .credit => .finish (.dec k) .select

inductive BatchPc where
  | check (n i : ℕ)
  | exec (n i : ℕ)
  | free (n : ℕ)
  | release (n : ℕ)
  | finish (pc : FinishPc)
  | notify
  | done
  deriving DecidableEq, Repr

inductive PausePc where
  | lock
  | load
  | casIdle
  | casRunning
  | curLoad
  | casPaused
  | wake
  | err
  | unlock (r : Option Error)
  | returned (r : Option Error)
  deriving DecidableEq, Repr

inductive ResumePc where
  | cas
  | lock
  | wake
  | unlock
  | notify
  | active
  | err
  | returned (r : Option Error)
  deriving DecidableEq, Repr

-- `seen` is the status Stop loaded first; `moved` says that its own CAS stored stopping.
inductive StopPc where
  | load
  | cas (seen : Status) (rest : List Status)
  | lock (seen : Status)
  | cancel (seen : Status)
  | unlock (seen : Status)
  | returned (seen : Status) (moved : Bool) (r : Option Error)
  deriving DecidableEq, Repr

inductive StartPc where
  | lock
  | active
  | load
  | err
  | init
  | launch
  | push
  | store
  | wake
  | notify
  | unlock (r : Option Error)
  | returned (r : Option Error)
  deriving DecidableEq, Repr

inductive RestartPc where
  | stop (pc : StopPc)
  | lock
  | stopped
  | active
  | sleep
  | asleep (n : ℕ)
  | check
  | unlock (running : Bool)
  | start (pc : StartPc)
  | returned (r : Option Error)
  deriving DecidableEq, Repr

inductive BroadcastPc where
  | lock
  | wake
  | unlock
  | done
  deriving DecidableEq, Repr

inductive Thread where
  | loop (ctx : ℕ) (pc : LoopPc)
  | batch (pc : BatchPc)
  | pause (pc : PausePc)
  | resume (pc : ResumePc)
  | stop (pc : StopPc)
  | start (pc : StartPc)
  | restart (pc : RestartPc)
  | waiter (k : WaitKind) (pc : WaitPc)
  | broadcast (pc : BroadcastPc)
  | cancelParent (fired : Bool)
  | notify (fired : Bool)
  | tunePool (n : ℕ) (fired : Bool)
  deriving DecidableEq, Repr

def maxBatch : ℕ := 32

def maxCredit : ℕ := 64

def loopStep (s : Shared) (k : ℕ) : LoopPc → Choice → Option (Shared × LoopPc × List Thread)
  | .select, .done =>
      if s.ctxDone k then some ({ s with status := .stopping },.wait .lock,[]) else none
  | .select, .signal credit =>
      if s.signal then
        some ({ s with signal := false },if credit then .creditActive else .active,[])
      else none
  | .active, .go => some (s,if s.status.isActive then .slots else .select,[])
  | .slots, .go => some (s,.limit s.busyWorkers,[])
  | .limit busy, .go => some (s,if busy < s.concurrency then .pending else .select,[])
  | .pending, .flag b => some (s,if b then .plan else .select,[])
  | .plan, .pick k =>
      if k ≤ maxBatch then some (s,if k = 0 then .select else .take k,[]) else none
  | .take k, .go => some ({ s with busyWorkers := s.busyWorkers + 1 },.count .batch k,[])
  | .count m k, .go => some ({ s with curProcessing := s.curProcessing + k },.reserve m k,[])
  | .reserve m k, .go =>
      if s.status = .running then some (s,reserved m k,[])
      else if s.status = .idle then some (s,.claim m k,[])
      else some (s,refused m k,[])
  | .claim m k, .go =>
      if s.status = .idle then some ({ s with status := .running },reserved m k,[])
      else some (s,.reserve m k,[])
  | .fill k, .fill n cont =>
      if n = 0 then some (s,.giveBack k cont,[])
      else if n < k then some (s,.finish (.dec (k - n)) (.send n cont),[])
      else if n = k then some (s,.send n cont,[])
      else none
  | .giveBack k cont, .go =>
      some ({ s with busyWorkers := s.busyWorkers - 1 },.finish (.dec k) (afterSend cont),[])
  | .send n cont, .go => some (s,(afterSend cont).pc,[.batch (.check n 0)])
  | .finish pc r, .go =>
      match finishStep s pc with
      | none => none
      | some (s',some pc') => some (s',.finish pc' r,[])
      | some (s',none) => some (s',r.pc,[])
  | .creditActive, .go => some (s,if s.status.isActive then .creditReady else .select,[])
  | .creditReady, .flag b => some (s,if b then .creditSlots else .select,[])
  | .creditSlots, .go => some (s,.creditLimit s.busyWorkers,[])
  | .creditLimit busy, .go =>
      some (s,if s.concurrency ≤ busy then .select
        else .count .credit (min (s.concurrency - busy) maxCredit),[])
  | .emit left, .flag b =>
      if left = 0 then some (s,.creditEnd,[])
      else some (s,if b then .emitBusy left else .finish (.dec left) .creditEnd,[])
  | .emitBusy left, .go => some ({ s with busyWorkers := s.busyWorkers + 1 },.emitSend left,[])
  | .emitSend left, .go => some (s,.emit (left - 1),[.batch (.check 1 0)])
  | .creditEnd, .flag ready => some ({ s with signal := s.signal || ready },.select,[])
  | .wait pc, c =>
      match waitStep .wait s pc c with
      | none => none
      | some (s',.done,_) => some (s',.removeAll,[])
      | some (s',pc',armed) => some (s',.wait pc',if armed then [.broadcast .lock] else [])
  | .removeAll, .go => some (s,.stopLock,[])
  | .stopLock, .go => if s.mx then none else some ({ s with mx := true },.stopStore,[])
  | .stopStore, .go => some ({ s with status := .stopped },.stopWake,[])
  | .stopWake, .go => some ({ s with wakes := s.wakes + 1 },.stopUnlock,[])
  | .stopUnlock, .go => some ({ s with mx := false },.exited,[])
  | _, _ => none

def batchStep (s : Shared) : BatchPc → Choice → Option (Shared × BatchPc)
  | .check n i, .start =>
      if i < n then some ({ s with started := s.started + 1 },.exec n i) else none
  | .check n i, .skip => if i < n then some (s,.check n (i + 1)) else none
  | .check n i, .park held =>
      if 0 < i ∧ i < n ∧ (s.status.halting || held) then some (s,.free n) else none
  | .check n i, .go => if i < n then none else some (s,.free n)
  | .exec n i, .go => some (s,.check n (i + 1))
  | .free n, .go => some (s,.release n)
  | .release n, .go => some ({ s with busyWorkers := s.busyWorkers - 1 },.finish (.dec n))
  | .finish pc, .go =>
      match finishStep s pc with
      | none => none
      | some (s',some pc') => some (s',.finish pc')
      | some (s',none) => some (s',.notify)
  | .notify, .go => some ({ s with signal := true },.done)
  | _, _ => none

def pauseStep (s : Shared) : PausePc → Option (Shared × PausePc)
  | .lock => if s.mx then none else some ({ s with mx := true },.load)
  | .load => some (s,if s.status = .paused ∨ s.status = .pausing then .unlock none else .casIdle)
  | .casIdle =>
      if s.status = .idle then some ({ s with status := .paused },.wake) else some (s,.casRunning)
  | .casRunning =>
      if s.status = .running then some ({ s with status := .pausing },.curLoad) else some (s,.err)
  | .curLoad => some (s,if s.curProcessing = 0 then .casPaused else .unlock none)
  | .casPaused =>
      if s.status = .pausing then some ({ s with status := .paused },.wake)
      else some (s,.unlock none)
  | .wake => some ({ s with wakes := s.wakes + 1 },.unlock none)
  | .err => some (s,.unlock (some s.status.getStatusError))
  | .unlock r => some ({ s with mx := false },.returned r)
  | .returned _ => none

def resumeStep (s : Shared) : ResumePc → Option (Shared × ResumePc)
  | .cas =>
      if s.status = .paused then some ({ s with status := .idle },.lock) else some (s,.active)
  | .lock => if s.mx then none else some ({ s with mx := true },.wake)
  | .wake => some ({ s with wakes := s.wakes + 1 },.unlock)
  | .unlock => some ({ s with mx := false },.notify)
  | .notify => some ({ s with signal := true },.returned none)
  | .active => some (s,if s.status.isActive then .returned none else .err)
  | .err => some (s,.returned (some s.status.getStatusError))
  | .returned _ => none

def stopFrom : List Status := [.running,.idle,.pausing,.paused]

def stopStep (s : Shared) : StopPc → Option (Shared × StopPc)
  | .load =>
      some (s,if s.status = .stopped ∨ s.status = .stopping then .returned s.status false none
        else .cas s.status stopFrom)
  | .cas seen (t :: rest) =>
      if s.status = t then some ({ s with status := .stopping },.lock seen)
      else some (s,.cas seen rest)
  | .cas seen [] => some (s,.returned seen false (some s.status.getStatusError))
  | .lock seen => if s.mx then none else some ({ s with mx := true },.cancel seen)
  | .cancel seen => some ({ s with cancelled := s.ctx :: s.cancelled },.unlock seen)
  | .unlock seen => some ({ s with mx := false },.returned seen true none)
  | .returned _ _ _ => none

def startStep (s : Shared) : StartPc → Option (Shared × StartPc × List Thread)
  | .lock => if s.mx then none else some ({ s with mx := true },.active,[])
  | .active => some (s,if s.status.isActive then .unlock (some .runningWorker) else .load,[])
  | .load =>
      some (s,if s.status = .initiated then .launch
        else if s.status = .stopped then .init else .err,[])
  | .err => some (s,.unlock (some s.status.getStatusError),[])
  | .init => some ({ s with ctx := s.ctx + 1 },.launch,[])
  | .launch => some (s,.push,[.loop s.ctx .select])
  | .push => some (s,.store,[])
  | .store => some ({ s with status := .idle },.wake,[])
  | .wake => some ({ s with wakes := s.wakes + 1 },.notify,[])
  | .notify => some ({ s with signal := true },.unlock none,[])
  | .unlock r => some ({ s with mx := false },.returned r,[])
  | .returned _ => none

def restartStep (s : Shared) : RestartPc → Option (Shared × RestartPc × List Thread)
  | .stop (.returned _ _ (some e)) => some (s,.returned (some e),[])
  | .stop (.returned _ _ none) => some (s,.lock,[])
  | .stop pc =>
      match stopStep s pc with
      | none => none
      | some (s',pc') => some (s',.stop pc',[])
  | .lock => if s.mx then none else some ({ s with mx := true },.stopped,[])
  | .stopped => some (s,if s.status = .stopped then .check else .active,[])
  | .active => some (s,if s.status.isActive then .check else .sleep,[])
  | .sleep => some ({ s with mx := false },.asleep s.wakes,[])
  | .asleep n => if s.wakes = n then none else some (s,.lock,[])
  | .check => some (s,.unlock s.status.isActive,[])
  | .unlock running =>
      some ({ s with mx := false },
        if running then .returned (some .runningWorker) else .start .lock,[])
  | .start (.returned r) => some (s,.returned r,[])
  | .start pc =>
      match startStep s pc with
      | none => none
      | some (s',pc',new) => some (s',.start pc',new)
  | .returned _ => none

def afterStop : Option Error → RestartPc
  | some e => .returned (some e)
  | none => .lock

theorem restart_stop {s s' : Shared} {pc : StopPc} {pc' : RestartPc} {new : List Thread}
    (hs : restartStep s (.stop pc) = some (s',pc',new)) :
    (∃ seen moved r, pc = .returned seen moved r ∧ s' = s ∧ pc' = afterStop r ∧ new = []) ∨
    (∃ pc₁, stopStep s pc = some (s',pc₁) ∧ pc' = .stop pc₁ ∧ new = []) := by
  by_cases hr : ∃ seen moved r, pc = .returned seen moved r
  · obtain ⟨seen,moved,r,rfl⟩ := hr
    left
    cases r <;> cases hs <;> exact ⟨_,_,_,rfl,rfl,rfl,rfl⟩
  · right
    have hp : restartStep s (.stop pc) = match stopStep s pc with
        | none => none
        | some (s',pc') => some (s',.stop pc',[]) := by
      cases pc <;> first | rfl | exact absurd ⟨_,_,_,rfl⟩ hr
    rw [hp] at hs
    split at hs
    · cases hs
    · cases hs
      exact ⟨_,‹_›,rfl,rfl⟩

theorem restart_start {s s' : Shared} {pc : StartPc} {pc' : RestartPc} {new : List Thread}
    (hs : restartStep s (.start pc) = some (s',pc',new)) :
    (∃ r, pc = .returned r ∧ s' = s ∧ pc' = .returned r ∧ new = []) ∨
    (∃ pc₁, startStep s pc = some (s',pc₁,new) ∧ pc' = .start pc₁) := by
  by_cases hr : ∃ r, pc = .returned r
  · obtain ⟨r,rfl⟩ := hr
    left
    cases hs
    exact ⟨_,rfl,rfl,rfl,rfl⟩
  · right
    have hp : restartStep s (.start pc) = match startStep s pc with
        | none => none
        | some (s',pc',new) => some (s',.start pc',new) := by
      cases pc <;> first | rfl | exact absurd ⟨_,rfl⟩ hr
    rw [hp] at hs
    split at hs
    · cases hs
    · cases hs
      exact ⟨_,‹_›,rfl⟩

def broadcastStep (s : Shared) : BroadcastPc → Option (Shared × BroadcastPc)
  | .lock => if s.mx then none else some ({ s with mx := true },.wake)
  | .wake => some ({ s with wakes := s.wakes + 1 },.unlock)
  | .unlock => some ({ s with mx := false },.done)
  | .done => none

def waiterThreads (k : WaitKind) (pc : WaitPc) (armed : Bool) : Thread × List Thread :=
  (.waiter k pc,if armed then [.broadcast .lock] else [])

def step (s : Shared) : Thread → Choice → Option (Shared × Thread × List Thread)
  | .loop k pc, c => (loopStep s k pc c).map fun (s',pc',new) => (s',.loop k pc',new)
  | .batch pc, c => (batchStep s pc c).map fun (s',pc') => (s',.batch pc',[])
  | .pause pc, .go => (pauseStep s pc).map fun (s',pc') => (s',.pause pc',[])
  | .resume pc, .go => (resumeStep s pc).map fun (s',pc') => (s',.resume pc',[])
  | .stop pc, .go => (stopStep s pc).map fun (s',pc') => (s',.stop pc',[])
  | .start pc, .go => (startStep s pc).map fun (s',pc',new) => (s',.start pc',new)
  | .restart pc, .go => (restartStep s pc).map fun (s',pc',new) => (s',.restart pc',new)
  | .waiter k pc, c => (waitStep k s pc c).map fun (s',pc',armed) =>
      (s',waiterThreads k pc' armed)
  | .broadcast pc, .go => (broadcastStep s pc).map fun (s',pc') => (s',.broadcast pc',[])
  | .cancelParent false, .go => some ({ s with parentDone := true },.cancelParent true,[])
  | .notify false, .go => some ({ s with signal := true },.notify true,[])
  | .tunePool n false, .go => some ({ s with concurrency := n },.tunePool n true,[])
  | _, _ => none

inductive Act (s : Shared) (c : Choice) : Thread → Shared → Thread → List Thread → Prop
  | loop {k : ℕ} {pc pc' : LoopPc} {s' : Shared} {new : List Thread}
      (hp : loopStep s k pc c = some (s',pc',new)) : Act s c (.loop k pc) s' (.loop k pc') new
  | batch {pc pc' : BatchPc} {s' : Shared} (hp : batchStep s pc c = some (s',pc')) :
      Act s c (.batch pc) s' (.batch pc') []
  | pause {pc pc' : PausePc} {s' : Shared} (hp : pauseStep s pc = some (s',pc')) :
      Act s c (.pause pc) s' (.pause pc') []
  | resume {pc pc' : ResumePc} {s' : Shared} (hp : resumeStep s pc = some (s',pc')) :
      Act s c (.resume pc) s' (.resume pc') []
  | stop {pc pc' : StopPc} {s' : Shared} (hp : stopStep s pc = some (s',pc')) :
      Act s c (.stop pc) s' (.stop pc') []
  | start {pc pc' : StartPc} {s' : Shared} {new : List Thread}
      (hp : startStep s pc = some (s',pc',new)) : Act s c (.start pc) s' (.start pc') new
  | restart {pc pc' : RestartPc} {s' : Shared} {new : List Thread}
      (hp : restartStep s pc = some (s',pc',new)) : Act s c (.restart pc) s' (.restart pc') new
  | waiter {k : WaitKind} {pc pc' : WaitPc} {s' : Shared} {armed : Bool}
      (hp : waitStep k s pc c = some (s',pc',armed)) :
      Act s c (.waiter k pc) s' (.waiter k pc') (waiterThreads k pc' armed).2
  | broadcast {pc pc' : BroadcastPc} {s' : Shared} (hp : broadcastStep s pc = some (s',pc')) :
      Act s c (.broadcast pc) s' (.broadcast pc') []
  | cancelParent : Act s c (.cancelParent false) { s with parentDone := true } (.cancelParent true) []
  | notify : Act s c (.notify false) { s with signal := true } (.notify true) []
  | tunePool {n : ℕ} : Act s c (.tunePool n false) { s with concurrency := n } (.tunePool n true) []

theorem step_act {s s' : Shared} {l l' : Thread} {c : Choice} {new : List Thread}
    (hs : step s l c = some (s',l',new)) : Act s c l s' l' new := by
  unfold step at hs
  split at hs <;> try cases hs
  case h_10 => exact .cancelParent
  case h_11 => exact .notify
  case h_12 => exact .tunePool
  all_goals
    obtain ⟨_,hp,heq⟩ := Option.map_eq_some_iff.mp hs
    cases heq
  · exact .loop hp
  · exact .batch hp
  · exact .pause hp
  · exact .resume hp
  · exact .stop hp
  · exact .start hp
  · exact .restart hp
  · exact .waiter hp
  · exact .broadcast hp

def spawned : Thread → Bool
  | .loop _ _ | .batch _ | .broadcast _ => true
  | _ => false

theorem loop_spawned {s s' : Shared} {k : ℕ} {pc pc' : LoopPc} {c : Choice} {new : List Thread}
    (hs : loopStep s k pc c = some (s',pc',new)) : ∀ t ∈ new, spawned t = true := by
  cases pc with
  | finish pc r =>
    cases c <;> simp only [loopStep] at hs <;> try cases hs
    split at hs <;> cases hs <;> simp
  | wait pc =>
    simp only [loopStep] at hs
    split at hs <;> cases hs
    · simp
    · split <;> simp [spawned]
  | _ => cases c <;> simp only [loopStep] at hs <;> grind [spawned]

theorem start_spawned {s s' : Shared} {pc pc' : StartPc} {new : List Thread}
    (hs : startStep s pc = some (s',pc',new)) : ∀ t ∈ new, spawned t = true := by
  cases pc <;> simp only [startStep] at hs <;> grind [spawned]

theorem restart_spawned {s s' : Shared} {pc pc' : RestartPc} {new : List Thread}
    (hs : restartStep s pc = some (s',pc',new)) : ∀ t ∈ new, spawned t = true := by
  cases pc with
  | stop pc =>
    rcases restart_stop hs with ⟨seen,moved,r,rfl,rfl,rfl,rfl⟩ | ⟨pc₁,hp,rfl,rfl⟩ <;> simp
  | start pc =>
    rcases restart_start hs with ⟨r,rfl,rfl,rfl,rfl⟩ | ⟨pc₁,hp,rfl⟩
    · simp
    · exact start_spawned hp
  | _ => simp only [restartStep] at hs; grind [spawned]

theorem step_spawned {s s' : Shared} {l l' : Thread} {c : Choice} {new : List Thread}
    (hs : step s l c = some (s',l',new)) : ∀ t ∈ new, spawned t = true := by
  cases step_act hs with
  | loop hp => exact loop_spawned hp
  | start hp => exact start_spawned hp
  | restart hp => exact restart_spawned hp
  | @waiter k pc pc' s' armed hp => cases armed <;> simp [waiterThreads,spawned]
  | _ => simp

theorem start_select {s s' : Shared} {pc pc' : StartPc} {new : List Thread}
    (hs : startStep s pc = some (s',pc',new)) : ∀ t ∈ new, t = .loop s.ctx .select := by
  cases pc <;> simp only [startStep] at hs <;> grind

-- A loop that a step starts is at its select.
theorem step_new_loop {s s' : Shared} {l l' : Thread} {c : Choice} {new : List Thread} {k : ℕ}
    {pc : LoopPc} (hs : step s l c = some (s',l',new)) (ht : .loop k pc ∈ new) : pc = .select := by
  cases step_act hs with
  | @loop k₁ pc₁ pc' s' new hp =>
    cases pc₁ with
    | finish pc r =>
      cases c <;> simp only [loopStep] at hp <;> try cases hp
      split at hp <;> cases hp <;> cases ht
    | wait pc =>
      simp only [loopStep] at hp
      split at hp <;> cases hp
      · cases ht
      · split at ht <;> simp at ht
    | _ => cases c <;> simp only [loopStep] at hp <;> grind
  | start hp =>
    cases start_select hp _ ht
    rfl
  | @restart pc₁ pc' s' new hp =>
    cases pc₁ with
    | stop pc =>
      rcases restart_stop hp with ⟨seen,moved,r,rfl,rfl,rfl,rfl⟩ | ⟨pc₁,hp,rfl,rfl⟩ <;> cases ht
    | start pc =>
      rcases restart_start hp with ⟨r,rfl,rfl,rfl,rfl⟩ | ⟨pc₁,hp₁,rfl⟩
      · cases ht
      · cases start_select hp₁ _ ht
        rfl
    | _ => simp only [restartStep] at hp; grind
  | @waiter k pc pc' s' armed hp => cases armed <;> simp [waiterThreads] at ht
  | _ => cases ht

def entry (_ : Shared) : Thread → Bool
  | .pause .lock | .resume .cas | .stop .load | .start .lock | .restart (.stop .load) => true
  | .waiter _ .lock | .broadcast .lock | .cancelParent false | .notify false => true
  | .tunePool n false => decide (0 < n)
  | _ => false

def program : Program Shared Thread Choice := ⟨entry,step⟩

def newWorker (concurrency : ℕ) : World Shared Thread :=
  ⟨{ status := .initiated, curProcessing := 0, busyWorkers := 0, concurrency := concurrency,
     mx := false, ctx := 0, cancelled := [], parentDone := false, signal := false, wakes := 0,
     started := 0 },[]⟩

end Varmq.Lifecycle
