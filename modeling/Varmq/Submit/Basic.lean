import Varmq.Group.Basic
import Varmq.Queues.Calls

namespace Varmq.Submit

open Varmq.Queues (Op Ret)
open Varmq.Jobs (Job Error closeable)

variable {T Q R : Type}

-- The handle on an in-memory queue: its storage and the uint64 of its memQueue.
structure Handle (Q : Type) where
  internalQueue : Q
  submitted : BitVec 64

def Handle.added (h : Handle Q) (n : ℤ) : Handle Q :=
  { h with submitted := h.submitted + BitVec.ofInt 64 n }

structure JobConfigs where
  id : String
  given : Bool
  deriving DecidableEq, Repr

def JobConfigs.onceId (c : JobConfigs) (id : String) : String := if c.given then id else ""

-- `generated` is what the id generator answers.
def jobConfigsFor (generated id : String) : JobConfigs :=
  if id = "" then ⟨generated,false⟩ else ⟨id,true⟩

-- enqueue and enqueuePriority
def enqueueOp (x : T) (priority : ℤ) (id : String) : Op T :=
  if id ≠ "" then .enqueueOnce (some x) priority id else .enqueue (some x) priority

def Handle.enqueue (call : Q → Op T → Q × Ret T) (h : Handle Q) (x : T) (priority : ℤ)
    (id : String) : Handle Q × Bool :=
  let (q,r) := call h.internalQueue (enqueueOp x priority id)
  ({ h with internalQueue := q },match r with | .accepted ok => ok | _ => false)

def countedBy (j : Job R) : Job R := { j with ackRef := some .totals }

def markQueued (j : Job R) : Job R := if j.status = .created then { j with status := .queued } else j

-- closeOnce of a job without storage to acknowledge: only the claim.
def closeOnce (j : Job R) : Job R × Option Error :=
  match closeable j.status with
  | some e => (j,some e)
  | none => ({ j with status := .closed },none)

def close (j : Job R) : Job R × Option Error :=
  match closeOnce j with
  | (j,some e) => (j,some e)
  | (j,none) => ({ j with wg := j.wg - 1 },none)

structure WgCounter where
  count : ℕ
  wg : ℤ
  deriving DecidableEq, Repr

def WgCounter.done (c : WgCounter) : WgCounter × Bool :=
  if c.count = 0 then (c,false) else (⟨c.count - 1,c.wg - 1⟩,c.count = 1)

def newGroupJob (bufferSize : ℕ) : Option WgCounter :=
  (Group.newWgCounter bufferSize).map fun (count,wg) => ⟨count,wg⟩

def closeMember (c : WgCounter) (j : Job R) : WgCounter × Job R × Option Error :=
  match closeOnce j with
  | (j,some e) => (c,j,some e)
  | (j,none) => (c.done.1,j,none)

variable [Inhabited R] (call : Q → Op T → Q × Ret T)

def newJob (k : Jobs.Kind) (c : JobConfigs) : Job R := Jobs.newJob c.id k .created none

def add (k : Jobs.Kind) (h : Handle Q) (x : T) (priority : ℤ) (c : JobConfigs) :
    Handle Q × Job R × Bool :=
  let j : Job R := countedBy (newJob k c)
  match (h.added 1).enqueue call x priority (c.onceId j.id) with
  | (h,false) => (h.added (-1),(close j).1,false)
  | (h,true) => (h,markQueued j,true)

structure Item (T : Type) where
  id : String
  data : T
  priority : ℤ
  generated : String
  deriving DecidableEq, Inhabited, Repr

-- A member has no wait group of its own.
def newMember (k : Jobs.Kind) (c : JobConfigs) : Job R :=
  { Jobs.newJob (Group.generateGroupId c.id) k .created none with wg := 0 }

def addMember (k : Jobs.Kind) (h : Handle Q) (group : WgCounter) (item : Item T) :
    Handle Q × WgCounter × Job R × Bool :=
  let c := jobConfigsFor item.generated item.id
  let j : Job R := countedBy (newMember k c)
  match (h.added 1).enqueue call item.data item.priority (c.onceId j.id) with
  | (h,false) => (h.added (-1),(closeMember group j).1,(closeMember group j).2.1,false)
  | (h,true) => (h,group,markQueued j,true)

-- The loop of AddAll; the jobs are the storage's and the caller's.
def addAll (R : Type) [Inhabited R] (k : Jobs.Kind) (h : Handle Q) (group : WgCounter) :
    List (Item T) → Handle Q × WgCounter
  | [] => (h,group)
  | item :: items =>
      let (h,group,_,_) := addMember (R := R) call k h group item
      addAll R k h group items

end Varmq.Submit
