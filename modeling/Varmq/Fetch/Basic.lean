import Mathlib.Logic.Function.Basic
import Varmq.Interleaving.World
import Varmq.Queues.Storage
import Varmq.Sources.Manager

namespace Varmq.Fetch

open Interleaving
open Varmq.Queues (Queue PriorityQueue Stored idShards)
open Varmq.Sources (Source Manager SourceManager Strategy)

variable {T : Type} (idOf : T → Option String) (hash : String → Fin idShards)

inductive Memory (T : Type) where
  | fifo (q : Queue T)
  | priority (q : PriorityQueue T)

namespace Memory

def len : Memory T → ℕ
  | .fifo q => q.items.length
  | .priority q => q.items.length

def paused : Memory T → Bool
  | .fifo q => q.paused
  | .priority q => q.paused

def refusals : Memory T → ℕ
  | .fifo q => q.refusals
  | .priority q => q.refusals

def setPaused (b : Bool) : Memory T → Memory T
  | .fifo q => .fifo { q with paused := b }
  | .priority q => .priority { q with paused := b }

def countRefusal : Memory T → Memory T
  | .fifo q => .fifo { q with refusals := q.refusals + 1 }
  | .priority q => .priority { q with refusals := q.refusals + 1 }

-- A Dequeue past its check of the pause.
def take : Memory T → Memory T × Option (Stored T)
  | .fifo q =>
      let (q',x) := { q with paused := false }.dequeue idOf hash
      (.fifo { q' with paused := q.paused },x)
  | .priority q =>
      let (q',x) := { q with paused := false }.dequeue idOf
      (.priority { q' with paused := q.paused },x)

def enqueue (item : Option T) (p : ℤ) : Memory T → Memory T
  | .fifo q => .fifo (q.enqueue item).1
  | .priority q => .priority (q.enqueue item p "").1

def enqueueOnce (item : Option T) (p : ℤ) (id : String) : Memory T → Memory T
  | .fifo q => .fifo (q.enqueueOnce hash item id).1
  | .priority q => .priority (q.enqueue item p id).1

def purgeValues : Memory T → Memory T
  | .fifo q => .fifo q.purgeValues.1
  | .priority q => .priority q.purgeValues.1

def close : Memory T → Memory T
  | .fifo q => .fifo { q with closed := true }
  | .priority q => .priority { q with closed := true }

end Memory

inductive FetchError where
  | noReadySource
  | failedToDequeue
  | failedToCastJob
  deriving DecidableEq, Repr

-- `errors` is what sendError gave the error handler and Errs, each with its worker.
structure Shared (T J : Type) where
  queues : ℕ → Memory T
  managers : ℕ → SourceManager
  handed : List (ℕ × List J)
  errors : List (ℕ × FetchError)

-- What a Len is read for, with the sources still to be read.
inductive Use where
  | direct
  | roundRobin (rest : List Source)
  | priority (rest : List Source)
  | minLen (rest : List Source) (best : Option (Source × ℕ))
  | maxLeft (best : Source) (rest : List Source)
  | maxRight (a : Source) (n : ℕ) (rest : List Source)
  | maxLast
  deriving DecidableEq, Repr

inductive NextPc (T : Type) where
  | next
  | paused (src : Source) (use : Use)
  | len (src : Source) (use : Use)
  | epoch (src : Source)
  | refuse (src : Source) (epoch : ℕ)
  | refused (src : Source) (epoch : ℕ)
  | dequeue (src : Source) (epoch : ℕ)
  | emptyErr (src : Source) (epoch : ℕ)
  | refusals (src : Source) (epoch : ℕ)
  | item (x : T)
  | failed (err : FetchError)
  deriving DecidableEq, Repr

-- The manager a dispatch loads: a directManager keeps its source, a strategyManager is shared.
inductive Loaded where
  | empty
  | direct (src : Source)
  | strategy
  deriving DecidableEq, Repr

def load : SourceManager → Loaded
  | .empty => .empty
  | .direct src _ | .credit src _ => .direct src
  | .strategy _ _ => .strategy

-- The event loop of a worker between two dispatches, in a fillBatch and in a sendError.
inductive LoopPc (T J : Type) where
  | idle
  | fill (k : ℕ) (m : Loaded) (buf : List J) (pc : NextPc T)
  | report (err : FetchError)
  deriving DecidableEq, Repr

inductive QueueCall (T : Type) where
  | add (item : Option T) (priority : ℤ)
  | addOnce (item : Option T) (priority : ℤ) (id : String)
  | pause
  | resume
  | purge
  | close
  deriving DecidableEq, Repr

inductive Thread (T J : Type) where
  | loop (w : ℕ) (pc : LoopPc T J)
  | call (q : ℕ) (c : Option (QueueCall T))
  | bind (w : ℕ) (src : Option (Source × ℤ))
  deriving DecidableEq, Repr

-- `batch` is the size planBatch chose, `closed` whether the job was closed while it waited.
inductive Choice where
  | go
  | batch (k : ℕ)
  | closed (b : Bool)
  deriving DecidableEq, Repr

def first (use : List Source → Use) : List Source → NextPc T
  | [] => .failed .noReadySource
  | src :: rest => .paused src (use rest)

def maxNext (best : Source) : List Source → NextPc T
  | [] => .paused best .maxLast
  | a :: rest => .paused a (.maxLeft best rest)

def Sources (m : Manager Source) : List Source := m.items.map fun r => r.item

def pick (m : Manager Source) : Strategy → NextPc T
  | .roundRobin => first .roundRobin ((Sources m).rotate m.roundRobinIndex)
  | .priority => first .priority (Sources m)
  | .minLen => first (fun rest => .minLen rest none) (Sources m)
  | .maxLen => match Sources m with
      | [] => .failed .noReadySource
      | src :: rest => maxNext src rest

def startNext (m : SourceManager) : Loaded → NextPc T
  | .empty => .failed .noReadySource
  | .direct src => .paused src .direct
  | .strategy => match m with
      | .strategy m s => pick m s
      | _ => .failed .noReadySource

def minOf (src : Source) (n : ℕ) (best : Option (Source × ℕ)) : Option (Source × ℕ) :=
  if 0 < n ∧ best.all (fun b => n < b.2) then some (src,n) else best

-- What follows a Len that read n.
def scanned (src : Source) (n : ℕ) : Use → NextPc T
  | .direct | .maxLast => if n = 0 then .failed .noReadySource else .epoch src
  | .roundRobin rest => if 0 < n then .epoch src else first .roundRobin rest
  | .priority rest => if 0 < n then .epoch src else first .priority rest
  | .minLen [] best => match minOf src n best with
      | none => .failed .noReadySource
      | some (b,_) => .epoch b
  | .minLen (a :: rest) best => .paused a (.minLen rest (minOf src n best))
  | .maxLeft best rest => .paused best (.maxRight src n rest)
  | .maxRight a na rest => maxNext (if n < na then a else src) rest

-- GetRoundRobinItem moves the index past a source before it reads its Len.
def advance (use : Use) : SourceManager → SourceManager
  | .strategy m s => match use with
      | .roundRobin _ =>
          .strategy { m with roundRobinIndex := (m.roundRobinIndex + 1) % m.items.length } s
      | _ => .strategy m s
  | m => m

-- `storage` is the queue behind a source.
variable {J : Type} (storage : ℕ → ℕ) (toJob : T → Option J)

def queue (s : Shared T J) (src : Source) : Memory T := s.queues (storage src.id)

def setQueue (s : Shared T J) (q : ℕ) (m : Memory T) : Shared T J :=
  { s with queues := Function.update s.queues q m }

def nextStep (s : Shared T J) (w : ℕ) (m : Loaded) :
    NextPc T → Option (Shared T J × NextPc T)
  | .next => some (s,startNext (s.managers w) m)
  | .paused src use =>
      let s := { s with managers := Function.update s.managers w (advance use (s.managers w)) }
      some (s,if (queue storage s src).paused then scanned src 0 use else .len src use)
  | .len src use => some (s,scanned src (queue storage s src).len use)
  | .epoch src => some (s,.refuse src (queue storage s src).refusals)
  | .refuse src e => some (s,if (queue storage s src).paused then .refused src e else .dequeue src e)
  | .refused src e =>
      some (setQueue s (storage src.id) (queue storage s src).countRefusal,.emptyErr src e)
  | .dequeue src e =>
      let (q,x) := (queue storage s src).take idOf hash
      some (setQueue s (storage src.id) q,match x with
        | none => .emptyErr src e
        | some x => .item x.value)
  | .emptyErr src e =>
      some (s,if (queue storage s src).paused then .failed .noReadySource else .refusals src e)
  | .refusals src e =>
      some (s,.failed (if (queue storage s src).refusals ≠ e then .noReadySource
        else .failedToDequeue))
  | .item _ | .failed _ => none

-- SendBatch comes before sendError.
def handOff (s : Shared T J) (w : ℕ) (buf : List J) : Shared T J :=
  if buf = [] then s else { s with handed := s.handed ++ [(w,buf)] }

def loopStep (s : Shared T J) (w : ℕ) : LoopPc T J → Choice → Option (Shared T J × LoopPc T J)
  | .idle, .batch k => if k = 0 then none else some (s,.fill k (load (s.managers w)) [] .next)
  | .fill k m buf (.item x), .closed b => match toJob x with
      | none => some (s,.fill k m buf (.failed .failedToCastJob))
      | some j =>
          if b then some (s,.fill k m buf .next)
          else if buf.length + 1 < k then some (s,.fill k m (buf ++ [j]) .next)
          else some (handOff s w (buf ++ [j]),.idle)
  | .fill _ _ buf (.failed err), .go =>
      some (handOff s w buf,if err = .noReadySource then .idle else .report err)
  | .fill k m buf pc, .go =>
      (nextStep idOf hash storage s w m pc).map fun (s',pc') => (s',.fill k m buf pc')
  | .report err, .go => some ({ s with errors := s.errors ++ [(w,err)] },.idle)
  | _, _ => none

def QueueCall.run : QueueCall T → Memory T → Memory T
  | .add item p => .enqueue item p
  | .addOnce item p id => .enqueueOnce hash item p id
  | .pause => .setPaused true
  | .resume => .setPaused false
  | .purge => .purgeValues
  | .close => .close

def addSource (strategy : Strategy) (s : Shared T J) (w : ℕ) (src : Source) (p : ℤ) : Shared T J :=
  { s with managers := Function.update s.managers w ((s.managers w).add src p strategy).1 }

def step (strategy : ℕ → Strategy) (s : Shared T J) :
    Thread T J → Choice → Option (Shared T J × Thread T J × List (Thread T J))
  | .loop w pc, c =>
      (loopStep idOf hash storage toJob s w pc c).map fun (s',pc') => (s',.loop w pc',[])
  | .call q (some c), .go => some (setQueue s q (c.run hash (s.queues q)),.call q none,[])
  | .bind w (some (src,p)), .go => some (addSource (strategy w) s w src p,.bind w none,[])
  | _, _ => none

-- In-memory queues are no creditSource.
def entry (_ : Shared T J) : Thread T J → Bool
  | .loop _ .idle | .call _ (some _) => true
  | .bind _ (some (src,_)) => !src.credit
  | _ => false

def program (strategy : ℕ → Strategy) : Program (Shared T J) (Thread T J) Choice :=
  ⟨entry,step idOf hash storage toJob strategy⟩

-- The queues as they are made: `fifo` tells which ones are, `capacity` their bound.
def newWorkers (fifo : ℕ → Bool) (capacity : ℕ → ℕ) : World (Shared T J) (Thread T J) :=
  ⟨{ queues := fun q =>
       if fifo q then .fifo (Queue.new (capacity q)) else .priority (PriorityQueue.new (capacity q))
     managers := fun _ => .empty, handed := [], errors := [] },[]⟩

end Varmq.Fetch
