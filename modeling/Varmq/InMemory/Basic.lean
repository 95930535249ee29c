import Varmq.Topics.Frame
import Varmq.Queues.Ids

namespace Varmq.InMemory

open Interleaving Topics Queues

structure IdShard where
  mu : Bool
  ids : IdMap
  deriving DecidableEq, Repr

abbrev IdSet := Fin idShards → IdShard

def newIdSet : IdSet := fun _ => ⟨false,.empty⟩

-- The queue's cursor is the log's cursor 0; `ids` is nil until the one CompareAndSwap that finds
-- it so.
structure Queue (T : Type) where
  log : Log T
  paused : Bool
  refusals : ℕ
  ids : Option IdSet
  idsOn : Bool

variable {T : Type}

-- NewQueue and then SetCapacity.
def newQueue (capacity : ℕ) : Queue T :=
  ⟨(newBoundedLog capacity).firstChunk.register true 0 0,false,0,none,false⟩

namespace Queue

def shard (s : Queue T) (i : Fin idShards) : IdShard := s.ids.getD newIdSet i

def setShard (s : Queue T) (i : Fin idShards) (sh : IdShard) : Queue T :=
  { s with ids := s.ids.map fun ids j => if j = i then sh else ids j }

def setMu (s : Queue T) (i : Fin idShards) (mu : Bool) : Queue T :=
  s.setShard i { s.shard i with mu }

def setIds (s : Queue T) (i : Fin idShards) (ids : IdMap) : Queue T :=
  s.setShard i { s.shard i with ids }

-- A nil id set would be a nil dereference: no step.
def lock (s : Queue T) (i : Fin idShards) : Option (Queue T) :=
  if s.ids.isNone || (s.shard i).mu then none else some (s.setMu i true)

end Queue

inductive IdSetPc where
  | load
  | cas
  | reload
  deriving DecidableEq, Repr

-- The method idSet; without a next control point it returns the pointer it loaded.
def idSetStep (s : Queue T) : IdSetPc → Queue T × Option IdSetPc
  | .load => (s,if s.ids.isSome then none else some .cas)
  | .cas => (if s.ids.isSome then s else { s with ids := some newIdSet },some .reload)
  | .reload => (s,none)

inductive OncePc where
  | idSet (pc : IdSetPc)
  | loadOn
  | storeOn
  | lock
  | add
  | append (pc : AppendPc)
  | remove
  | unlock (r : Bool)
  | returned (r : Bool)
  deriving DecidableEq, Repr

inductive DequeuePc (T : Type) where
  | refuse
  | cursor (pc : CursorPc T)
  | loadOn (v : Option T)
  | lock (v : Option T) (id : String)
  | remove (v : Option T) (id : String)
  | unlock (v : Option T) (id : String)
  | returned (v : Option (Option T))

inductive PurgePc (T : Type) where
  | idSet (pc : IdSetPc)
  | lock (i : ℕ)
  | cursor (pc : CursorPc T)
  | reset (i : ℕ) (vals : List (Option T))
  | unlock (i : Fin idShards) (vals : List (Option T))
  | returned (vals : List (Option T))

inductive Thread (T : Type) where
  | enqueue (x : T) (pc : AppendPc)
  | enqueueOnce (x : T) (id : String) (pc : OncePc)
  | dequeue (pc : DequeuePc T)
  | values (pc : CursorPc T)
  | purgeValues (pc : PurgePc T)
  | close (done : Bool)
  | setPaused (on done : Bool)

-- The id an item of an identified type gives, and the shard its hash picks.
variable (idOf : T → Option String) (hash : String → Fin idShards)

def onceStep (s : Queue T) (x : T) (id : String) : OncePc → Option (Queue T × OncePc)
  | .idSet pc => some ((idSetStep s pc).1,((idSetStep s pc).2.map .idSet).getD .loadOn)
  | .loadOn => some (s,if s.idsOn then .lock else .storeOn)
  | .storeOn => some ({ s with idsOn := true },.lock)
  | .lock => (s.lock (hash id)).map fun s' => (s',.add)
  | .add =>
      let (ids,new) := (s.shard (hash id)).ids.add id
      some (s.setIds (hash id) ids,if new then .append .loadLimit else .unlock false)
  | .append (.returned n) => some (s,if n = 0 then .remove else .unlock true)
  | .append pc => (appendStep s.log x pc).map fun (log,pc') => ({ s with log },.append pc')
  | .remove => some (s.setIds (hash id) ((s.shard (hash id)).ids.remove id),.unlock false)
  | .unlock r => some (s.setMu (hash id) false,.returned r)
  | .returned _ => none

def dequeueStep (s : Queue T) : DequeuePc T → Option (Queue T × DequeuePc T)
  | .refuse =>
      some (if s.paused then ({ s with refusals := s.refusals + 1 },.returned none)
        else (s,.cursor (.lock .dequeue)))
  | .cursor (.returned []) => some (s,.returned none)
  | .cursor (.returned (v :: _)) => some (s,.loadOn v)
  | .cursor pc => (cursorStep s.log 0 pc).map fun (log,pc') => ({ s with log },.cursor pc')
  | .loadOn v =>
      some (s,if s.idsOn then
        match (v.bind idOf).filter (· ≠ "") with
        | none => .returned (some v)
        | some id => .lock v id
      else .returned (some v))
  | .lock v id => (s.lock (hash id)).map fun s' => (s',.remove v id)
  | .remove v id =>
      some (s.setIds (hash id) ((s.shard (hash id)).ids.remove id),.unlock v id)
  | .unlock v id => some (s.setMu (hash id) false,.returned (some v))
  | .returned _ => none

def purgeStep (s : Queue T) : PurgePc T → Option (Queue T × PurgePc T)
  | .idSet pc => some ((idSetStep s pc).1,((idSetStep s pc).2.map .idSet).getD (.lock 0))
  | .lock i =>
      if h : i < idShards then (s.lock ⟨i,h⟩).map fun s' => (s',.lock (i + 1))
      else some (s,.cursor (.lock .purge))
  | .cursor (.returned vals) => some (s,.reset 0 vals)
  | .cursor pc => (cursorStep s.log 0 pc).map fun (log,pc') => ({ s with log },.cursor pc')
  | .reset i vals =>
      some (if h : i < idShards then (s.setIds ⟨i,h⟩ .empty,.unlock ⟨i,h⟩ vals)
        else (s,.returned vals))
  | .unlock i vals => some (s.setMu i false,.reset (i + 1) vals)
  | .returned _ => none

def step (s : Queue T) : Thread T → Unit → Option (Queue T × Thread T × List (Thread T))
  | .enqueue x pc, _ =>
      (appendStep s.log x pc).map fun (log,pc') => ({ s with log },.enqueue x pc',[])
  | .enqueueOnce x id pc, _ =>
      (onceStep hash s x id pc).map fun (s',pc') => (s',.enqueueOnce x id pc',[])
  | .dequeue pc, _ => (dequeueStep idOf hash s pc).map fun (s',pc') => (s',.dequeue pc',[])
  | .values pc, _ => (cursorStep s.log 0 pc).map fun (log,pc') => ({ s with log },.values pc',[])
  | .purgeValues pc, _ => (purgeStep s pc).map fun (s',pc') => (s',.purgeValues pc',[])
  | .close false, _ => some ({ s with log := { s.log with closed := true } },.close true,[])
  | .close true, _ => none
  | .setPaused on false, _ => some ({ s with paused := on },.setPaused on true,[])
  | .setPaused _ true, _ => none

def entry (_ : Queue T) : Thread T → Bool
  | .enqueue _ .loadLimit | .enqueueOnce _ _ (.idSet .load) | .dequeue .refuse
  | .values (.lock .values) | .purgeValues (.idSet .load) | .close false | .setPaused _ false => true
  | _ => false

def program : Program (Queue T) (Thread T) Unit := ⟨entry,step idOf hash⟩

def start (capacity : ℕ) : World (Queue T) (Thread T) := ⟨newQueue capacity,[]⟩

end Varmq.InMemory
