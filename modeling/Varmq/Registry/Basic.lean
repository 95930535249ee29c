import Mathlib.Data.Int.Notation
import Mathlib.Logic.Function.Basic
import Varmq.Interleaving.World
import Varmq.Worker.Status

namespace Varmq.Registry

open Interleaving
open Varmq.Worker (Status Error)

structure Config where
  name : String
  stoppedRetention : ℤ
  deriving DecidableEq, Repr

-- A memory queue is its number in memQueueSeq, which its ID ends in: no two share a key of
-- queueRegistry, so what the registry says of one is whether it is there.
structure Shared (W : Type) where
  mx : W → Bool
  status : W → Status
  registryTimer : W → Option ℕ
  timers : ℕ
  halted : List ℕ
  memMx : W → Bool
  memQueues : W → List ℕ
  workerRegistry : String → Option W
  queueRegistry : ℕ → Bool
  memQueueSeq : ℕ

inductive DropPc where
  | lock
  | load
  | range (todo : List ℕ)
  | unlock
  deriving DecidableEq, Repr

inductive ListPc where
  | lock
  | load
  | range (todo : List ℕ)
  | unlock
  deriving DecidableEq, Repr

inductive StartPc (W : Type) where
  | lock
  | active
  | load
  | stopTimer
  | swap
  | drop (old : W) (pc : DropPc)
  | list (pc : ListPc)
  | goEventLoop
  | store
  | unlock (r : Option Error)
  | returned (r : Option Error)
  deriving DecidableEq, Repr

inductive AddPc where
  | seq
  | lock (m : ℕ)
  | store (m : ℕ)
  | load (m : ℕ)
  | register (m : ℕ)
  | unlock
  | done
  deriving DecidableEq, Repr

-- `armed` is a timer that has not fired yet.
inductive RetentionPc where
  | armed (timer : ℕ)
  | lock
  | isStopped
  | compareAndDelete
  | drop (pc : DropPc)
  | unlock
  | done
  deriving DecidableEq, Repr

-- The event loop from its select on: its context is cancelled by a Stop or by a parent of it.
inductive LoopPc where
  | select
  | lock
  | stopped
  | scheduleRetentionCleanup
  | unlock
  | done
  deriving DecidableEq, Repr

-- `change` is a compare-and-swap of the status in a Stop, a Pause, a Resume or a dispatch.
inductive Thread (W : Type) where
  | start (w : W) (pc : StartPc W)
  | addMemQueue (w : W) (pc : AddPc)
  | retention (w : W) (pc : RetentionPc)
  | dropMemQueues (w : W) (pc : Option DropPc)
  | loop (w : W) (pc : LoopPc)
  | change (w : W) (status : Option (Status × Status))
  deriving DecidableEq, Repr

-- A Range visits what the map holds in any order.
inductive Choice where
  | go
  | visit (m : ℕ)
  deriving DecidableEq, Repr

variable {W : Type} [DecidableEq W] (cfg : W → Config)

def lockMem (s : Shared W) (w : W) : Shared W :=
  { s with memMx := Function.update s.memMx w true }

def unlockMem (s : Shared W) (w : W) : Shared W :=
  { s with memMx := Function.update s.memMx w false }

def lockMx (s : Shared W) (w : W) : Shared W := { s with mx := Function.update s.mx w true }

def unlockMx (s : Shared W) (w : W) : Shared W := { s with mx := Function.update s.mx w false }

def setStatus (s : Shared W) (w : W) (status : Status) : Shared W :=
  { s with status := Function.update s.status w status }

def registerQueue (s : Shared W) (m : ℕ) : Shared W :=
  { s with queueRegistry := Function.update s.queueRegistry m true }

def unregisterQueue (s : Shared W) (m : ℕ) : Shared W :=
  { s with queueRegistry := Function.update s.queueRegistry m false }

def dropStep (s : Shared W) (w : W) : DropPc → Choice → Option (Shared W × Option DropPc)
  | .lock, .go => if s.memMx w then none else some (lockMem s w,some .load)
  | .load, .go =>
      some (s,some (if s.workerRegistry (cfg w).name = some w then .unlock
        else .range (s.memQueues w)))
  | .range todo, .visit m =>
      if m ∈ todo then some (unregisterQueue s m,some (.range (todo.erase m))) else none
  | .range [], .go => some (s,some .unlock)
  | .unlock, .go => some (unlockMem s w,none)
  | _, _ => none

def listStep (s : Shared W) (w : W) : ListPc → Choice → Option (Shared W × Option ListPc)
  | .lock, .go => if s.memMx w then none else some (lockMem s w,some .load)
  | .load, .go =>
      some (s,some (if s.workerRegistry (cfg w).name = some w then .range (s.memQueues w)
        else .unlock))
  | .range todo, .visit m =>
      if m ∈ todo then some (registerQueue s m,some (.range (todo.erase m))) else none
  | .range [], .go => some (s,some .unlock)
  | .unlock, .go => some (unlockMem s w,none)
  | _, _ => none

-- A Stop of a timer that has fired comes too late.
def stopTimer (s : Shared W) (w : W) : Shared W :=
  { s with
    registryTimer := Function.update s.registryTimer w none
    halted := (s.registryTimer w).toList ++ s.halted }

def swapName (s : Shared W) (w : W) : Shared W :=
  { s with workerRegistry := Function.update s.workerRegistry (cfg w).name (some w) }

def startStep (s : Shared W) (w : W) :
    StartPc W → Choice → Option (Shared W × StartPc W × List (Thread W))
  | .lock, .go => if s.mx w then none else some (lockMx s w,.active,[])
  | .active, .go =>
      some (s,if (s.status w).isActive then .unlock (some .runningWorker) else .load,[])
  | .load, .go =>
      some (s,if s.status w = .initiated ∨ s.status w = .stopped then .stopTimer
        else .unlock (some (s.status w).getStatusError),[])
  | .stopTimer, .go =>
      some (stopTimer s w,if (cfg w).name = "" then .goEventLoop else .swap,[])
  | .swap, .go =>
      some (swapName cfg s w,match s.workerRegistry (cfg w).name with
        | none => .list .lock
        | some old => if old = w then .list .lock else .drop old .lock,[])
  | .drop old pc, c =>
      (dropStep cfg s old pc c).map fun (s',pc') => (s',pc'.elim (.list .lock) (.drop old),[])
  | .list pc, c =>
      (listStep cfg s w pc c).map fun (s',pc') => (s',pc'.elim .goEventLoop .list,[])
  | .goEventLoop, .go => some (s,.store,[.loop w .select])
  | .store, .go => some (setStatus s w .idle,.unlock none,[])
  | .unlock r, .go => some (unlockMx s w,.returned r,[])
  | _, _ => none

def addStep (s : Shared W) (w : W) : AddPc → Option (Shared W × AddPc)
  | .seq => some ({ s with memQueueSeq := s.memQueueSeq + 1 },.lock (s.memQueueSeq + 1))
  | .lock m => if s.memMx w then none else some (lockMem s w,.store m)
  | .store m =>
      some ({ s with memQueues := Function.update s.memQueues w (m :: s.memQueues w) },.load m)
  | .load m =>
      some (s,if s.workerRegistry (cfg w).name = some w then .register m else .unlock)
  | .register m => some (registerQueue s m,.unlock)
  | .unlock => some (unlockMem s w,.done)
  | .done => none

def retentionStep (s : Shared W) (w : W) : RetentionPc → Choice → Option (Shared W × RetentionPc)
  | .armed k, .go => some (s,if k ∈ s.halted then .done else .lock)
  | .lock, .go => if s.mx w then none else some (lockMx s w,.isStopped)
  | .isStopped, .go => some (s,if s.status w = .stopped then .compareAndDelete else .unlock)
  | .compareAndDelete, .go =>
      if s.workerRegistry (cfg w).name = some w then
        some ({ s with
          workerRegistry := Function.update s.workerRegistry (cfg w).name none },.drop .lock)
      else some (s,.unlock)
  | .drop pc, c => (dropStep cfg s w pc c).map fun (s',pc') => (s',pc'.elim .unlock .drop)
  | .unlock, .go => some (unlockMx s w,.done)
  | _, _ => none

def loopStep (s : Shared W) (w : W) : LoopPc → Option (Shared W × LoopPc × List (Thread W))
  | .select => some (setStatus s w .stopping,.lock,[])
  | .lock => if s.mx w then none else some (lockMx s w,.stopped,[])
  | .stopped => some (setStatus s w .stopped,.scheduleRetentionCleanup,[])
  | .scheduleRetentionCleanup =>
      if (cfg w).stoppedRetention ≤ 0 ∨ (cfg w).name = "" then some (s,.unlock,[])
      else
        some ({ s with
          registryTimer := Function.update s.registryTimer w (some s.timers)
          timers := s.timers + 1 },.unlock,[.retention w (.armed s.timers)])
  | .unlock => some (unlockMx s w,.done,[])
  | .done => none

def changeStep (s : Shared W) (w : W) (from_ to_ : Status) : Shared W :=
  if s.status w = from_ then setStatus s w to_ else s

def step (s : Shared W) : Thread W → Choice → Option (Shared W × Thread W × List (Thread W))
  | .start w pc, c => (startStep cfg s w pc c).map fun (s',pc',new) => (s',.start w pc',new)
  | .addMemQueue w pc, .go => (addStep cfg s w pc).map fun (s',pc') => (s',.addMemQueue w pc',[])
  | .retention w pc, c => (retentionStep cfg s w pc c).map fun (s',pc') => (s',.retention w pc',[])
  | .dropMemQueues w (some pc), c =>
      (dropStep cfg s w pc c).map fun (s',pc') => (s',.dropMemQueues w pc',[])
  | .loop w pc, .go => (loopStep cfg s w pc).map fun (s',pc',new) => (s',.loop w pc',new)
  | .change w (some (a,b)), .go => some (changeStep s w a b,.change w none,[])
  | _, _ => none

def swappable : Status → Bool
  | .initiated | .stopped => false
  | _ => true

def entry (_ : Shared W) : Thread W → Bool
  | .start _ .lock | .addMemQueue _ .seq | .dropMemQueues _ (some .lock) => true
  | .change _ (some (a,b)) => swappable a && swappable b
  | _ => false

def program : Program (Shared W) (Thread W) Choice := ⟨entry,step cfg⟩

def newWorkers : World (Shared W) (Thread W) :=
  ⟨{ mx := fun _ => false, status := fun _ => .initiated, registryTimer := fun _ => none,
     timers := 0, halted := [], memMx := fun _ => false, memQueues := fun _ => [],
     workerRegistry := fun _ => none, queueRegistry := fun _ => false, memQueueSeq := 0 },[]⟩

-- A timer that has not fired is no call yet.
def inProgress : Thread W → Bool
  | .start _ (.returned _) | .addMemQueue _ .done | .dropMemQueues _ none => false
  | .retention _ (.armed _) | .retention _ .done => false
  | .loop _ _ | .change _ _ => false
  | _ => true

end Varmq.Registry
