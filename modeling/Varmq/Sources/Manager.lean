import Mathlib.Data.Prod.Lex
import Mathlib.Data.List.InsertIdx
import Mathlib.Data.List.Sort
import Mathlib.Tactic.Common

namespace Varmq.Sources

structure Registered (T : Type) where
  item : T
  priority : ℤ
  deriving DecidableEq, Repr

structure Manager (T : Type) where
  items : List (Registered T)
  roundRobinIndex : ℕ
  deriving DecidableEq, Repr

namespace Manager

variable {T : Type}

def new : Manager T := ⟨[],0⟩

def insertIdx (priority : ℤ) (items : List (Registered T)) : ℕ :=
  items.findIdx fun existing => priority < existing.priority

def register (m : Manager T) (item : T) (priority : ℤ) : Manager T :=
  { m with items := m.items.insertIdx (insertIdx priority m.items) ⟨item,priority⟩ }

def unregisterItem [DecidableEq T] (m : Manager T) (itemToRemove : T) : Manager T :=
  match m.items.findIdx? fun r => r.item = itemToRemove with
  | none => m
  | some i => ⟨m.items.eraseIdx i,if i ≤ m.roundRobinIndex then 0 else m.roundRobinIndex⟩

def only (m : Manager T) : Option (T × ℤ) :=
  match m.items with
  | [r] => some (r.item,r.priority)
  | _ => none

def count (m : Manager T) : ℕ := m.items.length

end Manager

-- A source by its address; `credit` tells a creditSource.
structure Source where
  id : ℕ
  credit : Bool
  deriving DecidableEq, Repr

inductive Strategy where
  | roundRobin
  | maxLen
  | minLen
  | priority
  deriving DecidableEq, Repr

inductive SourceManager where
  | empty
  | direct (src : Source) (priority : ℤ)
  | credit (src : Source) (priority : ℤ)
  | strategy (m : Manager Source) (s : Strategy)
  deriving DecidableEq, Repr

-- The second component is the source whose hint is reset.
def singleManager (src : Source) (priority : ℤ) : SourceManager × Option Source :=
  if src.credit then (.credit src priority,some src) else (.direct src priority,none)

namespace SourceManager

def add (src : Source) (priority : ℤ) (s : Strategy) :
    SourceManager → SourceManager × Option Source
  | .empty => singleManager src priority
  | .direct first p | .credit first p =>
      (.strategy ((Manager.new.register first p).register src priority) s,none)
  | .strategy m s' => (.strategy (m.register src priority) s',none)

def remove (src : Source) : SourceManager → SourceManager × Option Source
  | .empty => (.empty,none)
  | .direct only p => (if src ≠ only then .direct only p else .empty,none)
  | .credit only p => (if src ≠ only then .credit only p else .empty,none)
  | .strategy m s =>
      match (m.unregisterItem src).only with
      | some (only,p) => singleManager only p
      | none => (.strategy (m.unregisterItem src) s,none)

def count : SourceManager → ℕ
  | .empty => 0
  | .direct _ _ | .credit _ _ => 1
  | .strategy m _ => m.count

end SourceManager

-- `resets` are the reset calls on sources, `signals` the sends on eventLoopSignal.
structure Worker where
  sources : SourceManager
  resets : List Source
  signals : ℕ
  deriving DecidableEq, Repr

inductive Call where
  | addSource (src : Source) (priority : ℤ)
  | removeSource (src : Source)
  deriving DecidableEq, Repr

def newWorker : Worker := ⟨.empty,[],0⟩

def isCredit : SourceManager → Bool
  | .credit _ _ => true
  | _ => false

def addSource (s : Strategy) (w : Worker) (src : Source) (priority : ℤ) : Worker :=
  let (m,reset) := w.sources.add src priority s
  { w with sources := m, resets := w.resets ++ reset.toList }

def removeSource (w : Worker) (src : Source) : Worker :=
  let (m,reset) := w.sources.remove src
  ⟨m,w.resets ++ reset.toList,if isCredit m then w.signals + 1 else w.signals⟩

def call (s : Strategy) (w : Worker) : Call → Worker
  | .addSource src priority => addSource s w src priority
  | .removeSource src => removeSource w src

def run (s : Strategy) (calls : List Call) : Worker := calls.foldl (call s) newWorker

-- What is bound, whichever manager holds it: a source, its priority and the time it was bound.
structure Binding where
  src : Source
  priority : ℤ
  time : ℕ
  deriving DecidableEq, Repr

def Binding.rank (b : Binding) : ℤ ×ₗ ℕ := toLex (b.priority,b.time)

def inOrder (bs : List Binding) : List Binding := bs.insertionSort fun a b => a.rank ≤ b.rank

-- A source bound twice loses the binding that comes first in the order.
def unbind (src : Source) (bs : List Binding) : List Binding :=
  match (inOrder bs).find? fun b => b.src = src with
  | none => bs
  | some b => bs.erase b

def bind (bs : List Binding) : Call × ℕ → List Binding
  | (.addSource src priority,time) => bs ++ [⟨src,priority,time⟩]
  | (.removeSource src,_) => unbind src bs

def bound (calls : List Call) : List Binding := calls.zipIdx.foldl bind []

def Binding.registered (b : Binding) : Registered Source := ⟨b.src,b.priority⟩

-- The manager a set of bindings calls for.
structure Serves (s : Strategy) (bs : List Binding) (m : SourceManager) : Prop where
  count : m.count = bs.length
  none : bs.length = 0 → m = .empty
  single : ∀ b, bs = [b] → m = if b.src.credit then .credit b.src b.priority
    else .direct b.src b.priority
  several : 2 ≤ bs.length → ∃ i, m = .strategy ⟨(inOrder bs).map Binding.registered,i⟩ s

end Varmq.Sources
