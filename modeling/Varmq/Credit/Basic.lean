import Varmq.Lifecycle.Balance

namespace Varmq.Credit

open Interleaving
open Varmq.Worker (Status)

-- The storage as its length; `batch` tells a batchAckSource from an ackSource, and dryAt is none for
-- neverDry. `sole` says that the worker's manager is the one of this source alone, `others` counts the
-- other bound sources, `mx` is w.sourcesMx, and `registered` says that Subscribe was called.
structure Source where
  batch : Bool
  storage : ℕ
  remaining : ℕ
  pokes : ℕ
  dryAt : Option ℕ
  resyncing : Bool
  subscribed : Bool
  registered : Bool
  sole : Bool
  others : ℕ
  mx : Bool
  deriving DecidableEq, Repr

structure Shared where
  core : Lifecycle.Shared
  src : Source
  deriving DecidableEq, Repr

inductive ReadyPc where
  | remaining
  | pokes
  | dryAt (p : ℕ)
  | done (r : Bool)
  deriving DecidableEq, Repr

-- done true stands for a positive count.
def readyStep (s : Source) : ReadyPc → Option ReadyPc
  | .remaining => some (if 0 < s.remaining then .done true else .pokes)
  | .pokes => some (.dryAt s.pokes)
  | .dryAt p => some (.done (s.dryAt ≠ some p))
  | .done _ => none

inductive ArmPc where
  | load
  | cas
  deriving DecidableEq, Repr

inductive ResyncPc where
  | timer
  | active
  | ready (pc : ReadyPc)
  | sole
  | len
  | poke
  | signal
  | arm (pc : ArmPc)
  | done
  deriving DecidableEq, Repr

-- The result of one storage call: n items, r left, `short` for n below want.
structure Pop where
  g : ℕ
  n : ℕ
  r : ℕ
  short : Bool
  err : Bool
  deriving DecidableEq, Repr

-- What the event loop is doing with the source at the point it has reached.
inductive Look where
  | idle
  | manager
  | ready (pc : ReadyPc)
  | arm (pc : ArmPc)
  | armed
  | pop (g : ℕ)
  | popped (p : Pop)
  | check (p : Pop)
  | mark (p : Pop)
  | markArm (pc : ArmPc) (p : Pop)
  | wet (p : Pop)
  | emit (n : ℕ)
  | erred
  | take
  | taken (n : ℕ) (cont : Bool)
  deriving DecidableEq, Repr

inductive AddPc where
  | store
  | poke
  | signal
  | returned
  deriving DecidableEq, Repr

-- creditManager.Len, for whoever asks.
inductive LenPc where
  | ready (pc : ReadyPc)
  | arm (pc : ArmPc)
  | done
  deriving DecidableEq, Repr

-- Binding and unbinding of another source; a topic's bind does not signal.
inductive OtherPc where
  | bindLock (notifies : Bool)
  | bindStore (notifies : Bool)
  | bindUnlock (notifies : Bool)
  | bindNotify
  | removeLock
  | remove
  | removeStore
  | removeNotify
  | removeUnlock
  | done
  deriving DecidableEq, Repr

inductive DistributedPc where
  | lock
  | store
  | unlock
  | notify
  | subscribed
  | subscribe
  | returned
  deriving DecidableEq, Repr

-- `enqueue` is an item landing in the storage that no Add of this handle stored, `announce` a call of
-- the subscribed function.
inductive Thread where
  | worker (t : Lifecycle.Thread) (h : Look)
  | add (pc : AddPc)
  | enqueue (landed : Bool)
  | announce (pc : AddPc)
  | resync (pc : ResyncPc)
  | len (pc : LenPc)
  | other (pc : OtherPc)
  | distributed (pc : DistributedPc)
  deriving DecidableEq, Repr

inductive Choice where
  | core (c : Lifecycle.Choice)
  | go
  | pop (r : ℕ)
  | skip
  | fail
  deriving DecidableEq, Repr

-- The timer runs from the CompareAndSwap on.
def armStep (s : Source) : ArmPc → Source × Option ArmPc × List Thread
  | .load => (s,if s.subscribed then none else some .cas,[])
  | .cas => if s.resyncing then (s,none,[]) else ({ s with resyncing := true },none,[.resync .timer])

def afterArm (p : Pop) : Option ArmPc → Look
  | some pc => .markArm pc p
  | none => if p.err then .erred else .emit p.n

-- IBatchAcknowledgeable: up to want items, fewer only if no more are there; r is at most the length
-- left and above 0 while items remain.
def popStep (s : Source) (want g r : ℕ) : Option (Source × Look) :=
  let n := min want s.storage
  let rest := s.storage - n
  if r ≤ rest ∧ (0 < rest → 0 < r) then
    some ({ s with storage := rest },.popped ⟨g,n,if n = 0 then 0 else r,n < want,false⟩)
  else none

def fetchStep (s : Source) (want : ℕ) : Look → Choice → Option (Source × Look × List Thread)
  | .idle, .go => some (s,.pop s.pokes,[])
  | .pop g, .pop r => (popStep s want g r).map fun (s',h) => (s',h,[])
  | .pop g, .fail => some (s,.popped ⟨g,0,0,true,true⟩,[])
  | .popped p, .go => some ({ s with remaining := p.r },.check p,[])
  | .check p, .go =>
      some (s,if p.err ∨ p.short ∨ (s.subscribed = false ∧ p.r = 0) then .mark p else .wet p,[])
  | .mark p, .go => some ({ s with dryAt := some p.g },.markArm .load p,[])
  | .markArm pc p, .go =>
      let (s',pc',new) := armStep s pc
      some (s',afterArm p pc',new)
  | .wet p, .go => some ({ s with dryAt := none },.emit p.n,[])
  | .emit (n + 1), .skip => some (s,.emit n,[])
  | _, _ => none

-- directManager.Next over this source, which the classic loop calls for a batch of one. A strategy
-- that picked this source calls its Next, one that picked another leaves it alone.
def nextStep (s : Source) : Look → Choice → Option (Source × Look × List Thread)
  | .idle, .go => some (s,if s.storage = 0 then .taken 0 false else .take,[])
  | .take, .go =>
      if s.storage = 0 then some (s,.taken 0 true,[])
      else some ({ s with storage := s.storage - 1 },.taken 1 true,[])
  | .take, .skip =>
      if s.storage = 0 then none else some ({ s with storage := s.storage - 1 },.idle,[])
  | .take, .fail =>
      if s.storage = 0 then none else some ({ s with storage := s.storage - 1 },.taken 0 true,[])
  | _, _ => none

def afterCheck : Option ArmPc → Look
  | some pc => .arm pc
  | none => .armed

def checkStep (s : Source) (arms : Bool) : Look → Choice → Option (Source × Look × List Thread)
  | .idle, .go => (readyStep s .remaining).map fun pc => (s,.ready pc,[])
  | .ready (.done false), .go => if arms then some (s,.arm .load,[]) else none
  | .ready pc, .go => (readyStep s pc).map fun pc' => (s,.ready pc',[])
  | .arm pc, .go =>
      let (s',pc',new) := armStep s pc
      some (s',afterCheck pc',new)
  | _, _ => none

-- The manager is loaded after the signal is received: a pass that is not its kind goes no further.
def lookStep (s : Source) : Lifecycle.Thread → Look → Choice → Option (Source × Look × List Thread)
  | .loop _ .active, .manager, .go => if s.sole && s.batch then none else some (s,.idle,[])
  | .loop _ .creditActive, .manager, .go => if s.sole && s.batch then some (s,.idle,[]) else none
  | .loop _ .creditReady, h, c => checkStep s true h c
  | .loop _ .creditEnd, h, c => checkStep s false h c
  | .loop _ (.emit want), h, c => fetchStep s want h c
  | .loop _ (.fill _), h, c => nextStep s h c
  | _, _, _ => none

-- What w.pending may report to the classic loop: a lone ackSource its exact length.
def mayReport (s : Source) (b : Bool) : Bool :=
  if s.sole then s.batch || b = decide (0 < s.storage) else !b || 0 < s.others

-- The next step of the worker, as far as it depends on the source. A batch holds one job: only a lone
-- in-memory source hands out more. planBatch returns no node only if all of them are busy.
def advance (s : Shared) : Lifecycle.Thread → Look → Lifecycle.Choice → Option Look
  | .loop _ .select, _, .signal _ => some .manager
  | .loop _ .active, h, _ | .loop _ .creditActive, h, _ => if h = .idle then some .idle else none
  | .loop _ .plan, .idle, .pick k =>
      if k = 1 ∨ (k = 0 ∧ 0 < s.core.busyWorkers) then some .idle else none
  | .loop _ .creditReady, .ready (.done true), .flag true => some .idle
  | .loop _ .creditReady, .armed, .flag false => some .idle
  | .loop _ .creditReady, _, _ => none
  | .loop _ (.emit _), .emit 0, .flag false => some .idle
  | .loop _ (.emit _), .emit (n + 1), .flag true => some (.emit n)
  | .loop _ (.emit _), .erred, .flag false => some .erred
  | .loop _ (.emit _), _, _ => none
  | .loop _ .creditEnd, .ready (.done r), .flag b => if r = b then some .idle else none
  | .loop _ .creditEnd, .erred, .flag false => some .idle
  | .loop _ .creditEnd, _, _ => none
  | .loop _ .pending, .idle, .flag b => if mayReport s.src b then some .idle else none
  | .loop _ (.fill _), h, .fill n cont =>
      if h = .taken n cont ∨ h = .idle ∧ (s.src.sole && !s.src.batch) = false then some .idle else none
  | _, h, _ => some h

-- A goroutine of the worker that a step of it starts.
def lift (t : Lifecycle.Thread) : Thread := .worker t .idle

def addStep (s : Shared) : AddPc → Option (Shared × AddPc)
  | .store => some ({ s with src.storage := s.src.storage + 1 },
      if s.src.batch then .poke else .signal)
  | .poke => some ({ s with src.pokes := s.src.pokes + 1 },.signal)
  | .signal => some ({ s with core.signal := true },.returned)
  | .returned => none

def announceStep (s : Shared) : AddPc → Option (Shared × AddPc)
  | .store => none
  | pc => addStep s pc

def afterReady : ReadyPc → ResyncPc
  | .done true => .done
  | .done false => .sole
  | pc => .ready pc

def resyncStep (s : Shared) : ResyncPc → Option (Shared × ResyncPc × List Thread)
  | .timer => some ({ s with src.resyncing := false },.active,[])
  | .active => some (s,if s.core.status.isActive then .ready .remaining else .done,[])
  | .ready pc => (readyStep s.src pc).map fun pc' => (s,afterReady pc',[])
  | .sole => some (s,if s.src.sole && s.src.batch then .len else .done,[])
  | .len => some (s,if 0 < s.src.storage then .poke else .arm .load,[])
  | .poke => some ({ s with src.pokes := s.src.pokes + 1 },.signal,[])
  | .signal => some ({ s with core.signal := true },.done,[])
  | .arm pc =>
      let (src,pc',new) := armStep s.src pc
      some ({ s with src },match pc' with | some pc' => .arm pc' | none => .done,new)
  | .done => none

def lenStep (s : Shared) : LenPc → Option (Shared × LenPc × List Thread)
  | .ready (.done r) => some (s,if r then .done else .arm .load,[])
  | .ready pc => (readyStep s.src pc).map fun pc' => (s,.ready pc',[])
  | .arm pc =>
      let (src,pc',new) := armStep s.src pc
      some ({ s with src },match pc' with | some pc' => .arm pc' | none => .done,new)
  | .done => none

-- removeSource leaves the manager of this source alone if no other one is left, its hint reset.
def otherStep (s : Shared) : OtherPc → Option (Shared × OtherPc)
  | .bindLock b => if s.src.mx then none else some ({ s with src.mx := true },.bindStore b)
  | .bindStore b => some ({ s with src.others := s.src.others + 1, src.sole := false },.bindUnlock b)
  | .bindUnlock b => some ({ s with src.mx := false },if b then .bindNotify else .done)
  | .bindNotify => some ({ s with core.signal := true },.done)
  | .removeLock => if s.src.mx then none else some ({ s with src.mx := true },.remove)
  | .remove =>
      if s.src.others = 0 then some (s,.removeStore)
      else if s.src.others = 1 then
        some ({ s with src.others := 0, src.dryAt := none },.removeStore)
      else some ({ s with src.others := s.src.others - 1 },.removeUnlock)
  | .removeStore => some ({ s with src.sole := true },.removeNotify)
  | .removeNotify => some ({ s with core.signal := true },.removeUnlock)
  | .removeUnlock => some ({ s with src.mx := false },.done)
  | .done => none

-- WithDistributedQueue on a worker that has no other source.
def distributedStep (s : Shared) : DistributedPc → Option (Shared × DistributedPc)
  | .lock => if s.src.mx then none else some ({ s with src.mx := true },.store)
  | .store => some ({ s with src.dryAt := none, src.sole := true },.unlock)
  | .unlock => some ({ s with src.mx := false },.notify)
  | .notify => some ({ s with core.signal := true },if s.src.batch then .subscribed else .subscribe)
  | .subscribed => some ({ s with src.subscribed := true },.subscribe)
  | .subscribe => some ({ s with src.registered := true },.returned)
  | .returned => none

def announcements (s : Source) : List Thread :=
  if s.registered then [.announce (if s.batch then .poke else .signal)] else []

def step (s : Shared) : Thread → Choice → Option (Shared × Thread × List Thread)
  | .worker t h, .core c =>
      match advance s t h c, Lifecycle.step s.core t c with
      | some h', some (core,t',new) => some ({ s with core },.worker t' h',new.map lift)
      | _, _ => none
  | .worker t h, c => (lookStep s.src t h c).map fun (src,h',new) => ({ s with src },.worker t h',new)
  | .add pc, .go => (addStep s pc).map fun (s',pc') => (s',.add pc',[])
  | .enqueue false, .go => some ({ s with src.storage := s.src.storage + 1 },.enqueue true,
      announcements s.src)
  | .announce pc, .go => (announceStep s pc).map fun (s',pc') => (s',.announce pc',[])
  | .resync pc, .go => (resyncStep s pc).map fun (s',pc',new) => (s',.resync pc',new)
  | .len pc, .go => (lenStep s pc).map fun (s',pc',new) => (s',.len pc',new)
  | .other pc, .go => (otherStep s pc).map fun (s',pc') => (s',.other pc',[])
  | .distributed pc, .go => (distributedStep s pc).map fun (s',pc') => (s',.distributed pc',[])
  | _, _ => none

-- The lifecycle calls of the worker.
def isCall : Lifecycle.Thread → Bool
  | .pause .lock | .resume .cas | .stop .load | .start .lock | .restart (.stop .load) => true
  | _ => false

def entry (_ : Shared) : Thread → Bool
  | .worker t .idle => isCall t
  | .add .store | .enqueue false | .len (.ready .remaining) => true
  | .other (.bindLock _) | .other .removeLock => true
  | _ => false

def program : Program Shared Thread Choice := ⟨entry,step⟩

def newCore (concurrency : ℕ) (signal : Bool) : Lifecycle.Shared where
  status := .idle
  curProcessing := 0
  busyWorkers := 0
  concurrency
  mx := false
  ctx := 0
  cancelled := []
  parentDone := false
  signal
  wakes := 0
  started := 0

def newSource (batch : Bool) (storage : ℕ) (sole : Bool) : Source where
  batch
  storage
  remaining := 0
  pokes := 0
  dryAt := none
  resyncing := false
  subscribed := false
  registered := false
  sole
  others := 0
  mx := false

def eventLoop : Thread := .worker (.loop 0 .select) .idle

-- A started worker right after WithPersistentQueue, whose storage may hold items already.
def persistent (concurrency storage : ℕ) : World Shared Thread :=
  ⟨⟨newCore concurrency true,newSource true storage true⟩,[eventLoop]⟩

-- A started worker that is about to bind a distributed queue.
def distributed (batch : Bool) (concurrency storage : ℕ) : World Shared Thread :=
  ⟨⟨newCore concurrency false,newSource batch storage false⟩,[eventLoop,.distributed .lock]⟩

end Varmq.Credit
