import Varmq.Queues.Heap
import Varmq.Queues.Ids
import Mathlib.Data.Int.Notation

namespace Varmq.Queues

variable {T Q : Type}

-- `once` is ghost state: the id EnqueueOnce stored the item under.
structure Stored (T : Type) where
  value : T
  once : Option String
  deriving DecidableEq, Repr

def onceIds (items : List (Stored T)) : List String := items.filterMap Stored.once

-- An item that is not a T is none; a FIFO queue takes no priority.
structure Storage (T Q : Type) where
  new : ℕ → Q
  enqueue : Q → Option T → ℤ → Q × Bool
  enqueueOnce : Q → Option T → ℤ → String → Q × Bool
  dequeue : Q → Q × Option (Stored T)
  purgeValues : Q → Q × List (Stored T)
  items : Q → List (Stored T)
  front : Q → Option (Stored T)
  full : Q → Bool
  closed : Q → Bool

inductive Call (T : Type) where
  | enqueue (item : Option T) (priority : ℤ)
  | enqueueOnce (item : Option T) (priority : ℤ) (id : String)
  | dequeue
  | purgeValues
  deriving DecidableEq, Repr

def Storage.call (st : Storage T Q) (q : Q) : Call T → Q
  | .enqueue item priority => (st.enqueue q item priority).1
  | .enqueueOnce item priority id => (st.enqueueOnce q item priority id).1
  | .dequeue => (st.dequeue q).1
  | .purgeValues => (st.purgeValues q).1

def Storage.run (st : Storage T Q) (q : Q) (calls : List (Call T)) : Q := calls.foldl st.call q

-- The id of an item that has an ID method.
variable (idOf : T → Option String)

def freedId (v : T) : Option String := (idOf v).filter (· ≠ "")

abbrev IdSet := Fin idShards → IdMap

def newIdSet : IdSet := fun _ => .empty

def IdSet.set (s : IdSet) (i : Fin idShards) (m : IdMap) : IdSet := fun j => if j = i then m else s j

-- The log as the list of its unread items; `ids` is nil until the first EnqueueOnce or Purge.
structure Queue (T : Type) where
  items : List (Stored T)
  limit : ℕ
  closed : Bool
  paused : Bool
  refusals : ℕ
  ids : Option IdSet
  idsOn : Bool

namespace Queue

-- The shard an id falls into, by the seed of the set.
variable (hash : String → Fin idShards)

def new (capacity : ℕ) : Queue T := ⟨[],capacity,false,false,0,none,false⟩

def full (q : Queue T) : Bool := q.limit ≠ 0 && q.limit ≤ q.items.length

def append (q : Queue T) (x : Stored T) : Option (Queue T) :=
  if q.closed || q.full then none else some { q with items := q.items ++ [x] }

def enqueue (q : Queue T) : Option T → Queue T × Bool
  | none => (q,false)
  | some v =>
      match q.append ⟨v,none⟩ with
      | none => (q,false)
      | some q' => (q',true)

def idSet (q : Queue T) : IdSet := q.ids.getD newIdSet

def enqueueOnce (q : Queue T) (item : Option T) (id : String) : Queue T × Bool :=
  match item with
  | none => (q,false)
  | some v =>
      let s := q.idSet
      let (m,new) := (s (hash id)).add id
      let q := { q with ids := some (s.set (hash id) m), idsOn := true }
      if new then
        match q.append ⟨v,some id⟩ with
        | none => ({ q with ids := some (s.set (hash id) (m.remove id)) },false)
        | some q' => (q',true)
      else (q,false)

def remove (q : Queue T) (id : String) : Queue T :=
  { q with ids := q.ids.map fun s => s.set (hash id) ((s (hash id)).remove id) }

def dequeue (q : Queue T) : Queue T × Option (Stored T) :=
  if q.paused then ({ q with refusals := q.refusals + 1 },none)
  else
    match q.items with
    | [] => (q,none)
    | x :: items =>
        let q := { q with items := items }
        if q.idsOn then
          match freedId idOf x.value with
          | none => (q,some x)
          | some id => (q.remove hash id,some x)
        else (q,some x)

def purgeValues (q : Queue T) : Queue T × List (Stored T) :=
  ({ q with items := [], ids := some newIdSet },q.items)

def storage : Storage T (Queue T) where
  new
  enqueue q item _ := q.enqueue item
  enqueueOnce q item _ id := q.enqueueOnce hash item id
  dequeue q := q.dequeue idOf hash
  purgeValues
  items := Queue.items
  front q := q.items.head?
  full
  closed := Queue.closed

end Queue

structure EnqItem (T : Type) where
  value : Stored T
  priority : ℤ
  index : ℕ
  deriving DecidableEq, Repr

def less (a b : EnqItem T) : Bool :=
  if a.priority = b.priority then a.index < b.index else a.priority < b.priority

structure PriorityQueue (T : Type) where
  items : List (EnqItem T)
  insertionCount : ℕ
  capacity : ℕ
  ids : IdMap
  closed : Bool
  paused : Bool
  refusals : ℕ
  deriving DecidableEq, Repr

namespace PriorityQueue

def new (capacity : ℕ) : PriorityQueue T := ⟨[],0,capacity,.empty,false,false,0⟩

def full (q : PriorityQueue T) : Bool := 0 < q.capacity && q.items.length = q.capacity

-- idsPeak is a uint32.
def addId (q : PriorityQueue T) (id : String) : PriorityQueue T :=
  if id = "" then q
  else { q with ids := ⟨id :: q.ids.m,max q.ids.peak ((q.ids.m.length + 1) % 2 ^ 32)⟩ }

def pushItem (q : PriorityQueue T) (v : Stored T) (priority : ℤ) : PriorityQueue T :=
  { q with items := push less q.items ⟨v,priority,q.insertionCount⟩,
           insertionCount := q.insertionCount + 1 }

def enqueue (q : PriorityQueue T) (item : Option T) (priority : ℤ) (id : String) :
    PriorityQueue T × Bool :=
  match item with
  | none => (q,false)
  | some v =>
      if q.closed then (q,false)
      else if q.full then (q,false)
      else if id ≠ "" ∧ id ∈ q.ids.m then (q,false)
      else ((q.addId id).pushItem ⟨v,if id = "" then none else some id⟩ priority,true)

def removeId (q : PriorityQueue T) (id : String) : PriorityQueue T :=
  { q with ids := q.ids.removeAbove idsShrinkPeak id }

def dequeue (q : PriorityQueue T) : PriorityQueue T × Option (Stored T) :=
  if q.paused then ({ q with refusals := q.refusals + 1 },none)
  else
    match pop less q.items with
    | none => (q,none)
    | some (x,items) =>
        let q := { q with items := items }
        if q.ids.m = [] then (q,some x.value)
        else
          match freedId idOf x.value.value with
          | none => (q,some x.value)
          | some id => (q.removeId id,some x.value)

def values (q : PriorityQueue T) : List (Stored T) := q.items.map EnqItem.value

def purgeValues (q : PriorityQueue T) : PriorityQueue T × List (Stored T) :=
  ({ q with items := [], ids := .empty },q.values)

def storage : Storage T (PriorityQueue T) where
  new
  enqueue q item priority := q.enqueue item priority ""
  enqueueOnce q item priority id := q.enqueue item priority id
  dequeue q := q.dequeue idOf
  purgeValues
  items := values
  front q := q.values.head?
  full
  closed := PriorityQueue.closed

end PriorityQueue

end Varmq.Queues
