import Mathlib.Algebra.Group.Nat.Defs
import Varmq.Dispatch.Basic

namespace Varmq.Wakeup

open Interleaving
open Varmq.Worker (Status Error)
open Varmq.Dispatch (Batch PendingPc AddPc QueuePc PurgePc Choice maxBatch)

-- `expires` says that idleWorkerExpiryDuration is not zero.
structure Config where
  minIdleWorkerRatio : ℕ
  expires : Bool
  cpus : ℕ
  cpus_pos : 0 < cpus

def withSafeConcurrency (cfg : Config) (concurrency : ℤ) : ℕ :=
  if concurrency < 1 then cfg.cpus else min concurrency.toNat (2 ^ 32 - 1)

def numMinIdleWorkers (cfg : Config) (concurrency : ℕ) : ℕ :=
  max (concurrency * cfg.minIdleWorkerRatio / 100) 1

def spawnNanos : ℕ := 2000

def int64 (n : ℕ) : ℤ := Int.bmod n (2 ^ 64)

def worthSpawning (pending jobNanos alive : ℕ) : Bool :=
  alive = 0 || jobNanos = 0 || int64 (spawnNanos * alive * alive) < int64 (pending * jobNanos)

def batchSize (pending shares : ℕ) : ℕ := max 1 (min (pending / max shares 1) maxBatch)

def handoffGap : ℕ := 32000

def batchBudget (jobNanos alive : ℕ) : ℕ :=
  if jobNanos = 0 then 1
  else max 1 (min ((max alive 1 * handoffGap + jobNanos - 1) / jobNanos) maxBatch)

-- `nodes` are the idle nodes linked in the pool, `len` its counter; `signal` is the one slot of
-- eventLoopSignal.
structure Shared where
  core : Dispatch.Shared
  signal : Bool
  nodes : ℕ
  len : ℕ
  popMx : Bool
  jobNanos : ℕ

inductive LoopPc where
  | on (pc : Dispatch.LoopPc)
  | limit (busy : ℕ)
  | planBusy (pending : ℕ)
  | planLen (pending busy : ℕ)
  | planShares (pending busy alive : ℕ)
  | planGrow (pending busy alive shares : ℕ)
  | popBack (pending busy alive shares : ℕ) (grow : Bool)
  | popLen (pending alive shares : ℕ)
  | initPoolNode (pending alive shares : ℕ)
  | budget (pending alive shares : ℕ)
  | budgetNanos (pending alive shares : ℕ)
  | pushLen (k : ℕ) (cont : Bool)
  | pushNode (k : ℕ) (cont : Bool)
  | releaseWaiters (next : Dispatch.LoopPc)
  deriving DecidableEq, Repr

inductive BatchPc where
  | on (pc : Dispatch.BatchPc)
  | jobNanos
  | pending (pc : PendingPc)
  | len (n : ℕ)
  | idleLen
  | minIdle (len : ℕ)
  | pushLen
  | pushNode
  | releaseWaiters
  deriving DecidableEq, Repr

inductive PausePc where
  | call
  | returned (r : Option Error)
  deriving DecidableEq, Repr

inductive ResumePc where
  | cas
  | broadcast
  | notify
  | active
  | err
  | returned (r : Option Error)
  deriving DecidableEq, Repr

inductive TuneError where
  | status (e : Error)
  | sameConcurrency
  deriving DecidableEq, Repr

inductive TunePc where
  | active (concurrency : ℤ)
  | err
  | load (concurrency : ℤ)
  | store (old safe : ℕ)
  | notify
  | minIdle (shrink : ℕ)
  | len (shrink min : ℕ)
  | popBack (shrink min : ℕ)
  | popLen (shrink min : ℕ)
  | returned (r : Option TuneError)
  deriving DecidableEq, Repr

-- One tick of goRemoveIdleWorkers; Prune holds popMx from `scan` on.
inductive PrunePc where
  | target
  | len (target : ℕ)
  | prune (keep : ℕ)
  | scan (keep left : ℕ)
  | scanLen (keep left : ℕ)
  | done
  deriving DecidableEq, Repr

inductive StartPc where
  | store
  | notify
  | done
  deriving DecidableEq, Repr

inductive Thread where
  | loop (pc : LoopPc)
  | batch (b : Batch) (ran : ℕ) (pc : BatchPc)
  | add (pc : AddPc)
  | close (j : ℕ) (fired : Bool)
  | purge (pc : PurgePc)
  | queue (pc : QueuePc)
  | pause (pc : PausePc)
  | resume (pc : ResumePc)
  | tunePool (pc : TunePc)
  | prune (pc : PrunePc)
  | start (pc : StartPc)
  deriving DecidableEq, Repr

-- releaseWaiters under w.mx, after finishJobs has brought the count to 0.
def releaseWaiters (d : Dispatch.Shared) : Dispatch.Shared :=
  if d.curProcessing = 0 then
    if d.status = .running then { d with status := .idle }
    else if d.status = .pausing then { d with status := .paused }
    else d
  else d

def enter : Dispatch.LoopPc → LoopPc
  | .pick n => .planBusy n
  | .release k cont => .pushLen k cont
  | pc => .on pc

-- Where the loop stands after a step of the dispatch from pc to pc'.
def next (d : Dispatch.Shared) (pc pc' : Dispatch.LoopPc) : LoopPc :=
  match pc with
  | .giveBack _ _ | .shorten _ _ _ _ =>
      if d.curProcessing = 0 then .releaseWaiters pc' else .on pc'
  | _ => enter pc'

def spawned : Dispatch.Thread → List Thread
  | .batch b pc => [.batch b 0 (.on pc)]
  | _ => []

def loopStep (s : Shared) : LoopPc → Choice → Option (Shared × LoopPc × List Thread)
  | .on .select, .go =>
      if s.signal then some ({ s with signal := false },.on .active,[]) else none
  | .on .limit, .go => some (s,.limit s.core.busyWorkers,[])
  | .on (.pick _), _ => none
  | .on pc, c => (Dispatch.loopStep s.core pc c).map fun (d,pc',new) =>
      ({ s with core := d },next d pc pc',new.flatMap spawned)
  | .limit busy, .go =>
      some (s,.on (if busy < s.core.concurrency then .pending .parked else .select),[])
  | .planBusy n, .go => some (s,.planLen n s.core.busyWorkers,[])
  | .planLen n busy, .go => some (s,.planShares n busy (busy + s.len),[])
  | .planShares n busy alive, .go =>
      some (s,.planGrow n busy alive (min s.core.concurrency n),[])
  | .planGrow n busy alive shares, .go =>
      let grow := worthSpawning n s.jobNanos alive
      some (s,.popBack n busy alive (if grow then shares else alive) grow,[])
  | .popBack n _ alive shares grow, .go =>
      if s.popMx then none
      else if s.nodes = 0 then
        some (s,if grow then .initPoolNode n alive shares else .on .select,[])
      else some ({ s with nodes := s.nodes - 1, popMx := true },.popLen n alive shares,[])
  | .popLen n alive shares, .go =>
      some ({ s with len := s.len - 1, popMx := false },.budget n alive shares,[])
  | .initPoolNode n alive shares, .go => some (s,.budget n alive shares,[])
  | .budget n alive shares, .go =>
      some (s,if 1 < s.core.concurrency then .budgetNanos n alive shares
        else .on (.take (min (batchSize n shares) (min maxBatch maxBatch))),[])
  | .budgetNanos n alive shares, .go =>
      some (s,.on (.take (min (batchSize n shares) (min (batchBudget s.jobNanos alive) maxBatch))),[])
  | .pushLen k cont, .go => some ({ s with len := s.len + 1 },.pushNode k cont,[])
  | .pushNode k cont, .go => some ({ s with nodes := s.nodes + 1 },.on (.release k cont),[])
  | .releaseWaiters pc, .go => some ({ s with core := releaseWaiters s.core },.on pc,[])
  | _, _ => none

def leave : Dispatch.BatchPc → BatchPc
  | .free => .jobNanos
  | pc => .on pc

def batchStep (cfg : Config) (s : Shared) (b : Batch) (ran : ℕ) :
    BatchPc → Choice → Option (Shared × Batch × ℕ × BatchPc)
  | .on .finish, .go =>
      let d := { s.core with curProcessing := s.core.curProcessing - b.n }
      some ({ s with core := d },b,ran,if d.curProcessing = 0 then .releaseWaiters else .on .notify)
  | .on .notify, .go => some ({ s with signal := true },b,ran,.on .done)
  | .on pc, .go => (Dispatch.batchStep s.core b pc).map fun (d,b',pc') =>
      ({ s with core := d },b',if pc = .close then ran + 1 else ran,leave pc')
  -- The choice is the time the batch took.
  | .jobNanos, .pick nanos =>
      some ({ s with jobNanos := if 0 < ran then max 1 (nanos / ran) else s.jobNanos },b,ran,
        .pending .parked)
  | .pending (.done n), .go => some (s,b,ran,.len n)
  | .pending pc, .go => (Dispatch.pendingStep s.core pc).map fun (d,pc') =>
      ({ s with core := d },b,ran,.pending pc')
  | .len n, .go => some (s,b,ran,if s.len < n ∨ cfg.expires then .pushLen else .idleLen)
  | .idleLen, .go => some (s,b,ran,.minIdle s.len)
  | .minIdle len, .go =>
      some (s,b,ran,if len < numMinIdleWorkers cfg s.core.concurrency then .pushLen else .on .release)
  | .pushLen, .go => some ({ s with len := s.len + 1 },b,ran,.pushNode)
  | .pushNode, .go => some ({ s with nodes := s.nodes + 1 },b,ran,.on .release)
  | .releaseWaiters, .go => some ({ s with core := releaseWaiters s.core },b,ran,.on .notify)
  | _, _ => none

def addStep (s : Shared) (pc : AddPc) (c : Choice) : Option (Shared × AddPc) :=
  (Dispatch.addStep s.core pc c).map fun (d,pc') =>
    ({ s with core := d, signal := s.signal || (match pc with | .notify _ => true | _ => false) },pc')

-- The hook of a Resume signals, the hook of a Pause marks the parked batches.
def queueStep (s : Shared) (pc : QueuePc) : Option (Shared × QueuePc) :=
  (Dispatch.queueStep s.core pc).map fun (d,pc') =>
    ({ s with core := d, signal := s.signal || (pc = .hook && !s.core.paused) },pc')

-- Pause under w.mx.
def pauseStep (s : Shared) : PausePc → Option (Shared × PausePc)
  | .call =>
      match s.core.status with
      | .paused | .pausing => some (s,.returned none)
      | .idle => some ({ s with core := { s.core with status := .paused } },.returned none)
      | .running =>
          some ({ s with core := { s.core with
            status := if s.core.curProcessing = 0 then .paused else .pausing } },.returned none)
      | q => some (s,.returned (some q.getStatusError))
  | .returned _ => none

def resumeStep (s : Shared) : ResumePc → Option (Shared × ResumePc)
  | .cas =>
      if s.core.status = .paused then
        some ({ s with core := { s.core with status := .idle } },.broadcast)
      else some (s,.active)
  | .broadcast => some (s,.notify)
  | .notify => some ({ s with signal := true },.returned none)
  | .active => some (s,if s.core.status.isActive then .returned none else .err)
  | .err => some (s,.returned (some s.core.status.getStatusError))
  | .returned _ => none

def tunePoolStep (cfg : Config) (s : Shared) : TunePc → Option (Shared × TunePc)
  | .active n => some (s,if s.core.status.isActive then .load n else .err)
  | .err => some (s,.returned (some (.status s.core.status.getStatusError)))
  | .load n =>
      let safe := withSafeConcurrency cfg n
      some (s,if s.core.concurrency = safe then .returned (some .sameConcurrency)
        else .store s.core.concurrency safe)
  | .store old safe =>
      some ({ s with core := { s.core with concurrency := safe } },
        if old < safe then .notify else if cfg.expires then .returned none
        else .minIdle (old - safe))
  | .notify => some ({ s with signal := true },.returned none)
  | .minIdle shrink => some (s,.len shrink (numMinIdleWorkers cfg s.core.concurrency))
  | .len shrink m => some (s,if 0 < shrink ∧ s.len ≠ m then .popBack shrink m else .returned none)
  | .popBack shrink m =>
      if s.popMx then none
      else if s.nodes = 0 then some (s,.returned none)
      else some ({ s with nodes := s.nodes - 1, popMx := true },.popLen shrink m)
  | .popLen shrink m =>
      some ({ s with len := s.len - 1, popMx := false },.len (shrink - 1) m)
  | .returned _ => none

-- The flag says whether the node is expired.
def pruneStep (cfg : Config) (s : Shared) : PrunePc → Choice → Option (Shared × PrunePc)
  | .target, .go => some (s,.len (numMinIdleWorkers cfg s.core.concurrency))
  | .len target, .go => some (s,if s.len ≤ target then .done else .prune target)
  | .prune keep, .go =>
      if s.popMx then none else some ({ s with popMx := true },.scan keep (s.nodes - keep))
  | .scan keep (left + 1), .flag true =>
      some ({ s with nodes := s.nodes - 1 },.scanLen keep left)
  | .scan keep (left + 1), .flag false => some (s,.scan keep left)
  | .scan _ 0, .go => some ({ s with popMx := false },.done)
  | .scanLen keep left, .go => some ({ s with len := s.len - 1 },.scan keep left)
  | _, _ => none

def startStep (s : Shared) : StartPc → Option (Shared × StartPc)
  | .store => some ({ s with core := { s.core with status := .idle } },.notify)
  | .notify => some ({ s with signal := true },.done)
  | .done => none

def step (cfg : Config) (s : Shared) : Thread → Choice → Option (Shared × Thread × List Thread)
  | .loop pc, c => (loopStep s pc c).map fun (s',pc',new) => (s',.loop pc',new)
  | .batch b ran pc, c =>
      (batchStep cfg s b ran pc c).map fun (s',b',ran',pc') => (s',.batch b' ran' pc',[])
  | .add pc, c => (addStep s pc c).map fun (s',pc') => (s',.add pc',[])
  | .close j false, .go => some ({ s with core := s.core.closeJob j },.close j true,[])
  | .purge pc, .go => (Dispatch.purgeStep s.core pc).map fun (d,pc') =>
      ({ s with core := d },.purge pc',[])
  | .queue pc, .go => (queueStep s pc).map fun (s',pc') => (s',.queue pc',[])
  | .pause pc, .go => (pauseStep s pc).map fun (s',pc') => (s',.pause pc',[])
  | .resume pc, .go => (resumeStep s pc).map fun (s',pc') => (s',.resume pc',[])
  | .tunePool pc, .go => (tunePoolStep cfg s pc).map fun (s',pc') => (s',.tunePool pc',[])
  | .prune pc, c => (pruneStep cfg s pc c).map fun (s',pc') => (s',.prune pc',[])
  | .start pc, .go => (startStep s pc).map fun (s',pc') => (s',.start pc',[])
  | _, _ => none

def entry (cfg : Config) (s : Shared) : Thread → Bool
  | .add .new | .purge .bump | .queue (.flag _) => true
  | .close j false => s.core.accepted.contains j
  | .pause .call | .resume .cas | .tunePool (.active _) => true
  | .prune .target => cfg.expires
  | _ => false

def program (cfg : Config) : Program Shared Thread Choice := ⟨entry cfg,step cfg⟩

-- Start has launched the event loop and pushed the first node, and is about to store idle.
def newWorker (cfg : Config) (concurrency : ℤ) : World Shared Thread :=
  ⟨{ core := (Dispatch.newWorker (withSafeConcurrency cfg concurrency)).shared, signal := false,
     nodes := 1, len := 1, popMx := false, jobNanos := 0 },[.loop (.on .select),.start .store]⟩

end Varmq.Wakeup
