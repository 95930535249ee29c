import Varmq.Interleaving.World
import Varmq.Leases.Envelope

namespace Varmq.Leases

open Interleaving
open Varmq.Jobs (Job RunPc Outcome)

structure Message (B : Type) where
  key : ℕ
  body : Body B
  deriving DecidableEq, Repr

-- What sendError is given, with the key of the item it is about.
inductive Failure where
  | dequeue
  | parse (key : ℕ) (e : ParseError)
  | run (key : ℕ) (e : String)
  | close (key : ℕ) (e : Jobs.Error)
  deriving DecidableEq, Repr

structure Ran (T : Type) where
  key : ℕ
  id : String
  data : T
  outcome : Outcome Unit
  deriving DecidableEq, Repr

-- Acknowledging storage, and what its workers reported. The keys, `issued` and the last five fields
-- are ghost: every key and ack id handed out, what Add stored, what was requeued, started and run.
structure Shared (T B : Type) where
  pending : List (Message B)
  nacked : List (String × Message B)
  paused : Bool
  completed : List ℕ
  failed : List (ℕ × String)
  errors : List Failure
  issued : List (String × Message B)
  next : ℕ
  added : List (ℕ × String × T)
  requeued : List ℕ
  invoked : List ℕ
  ran : List (Ran T)

inductive Choice where
  | go
  | now (ms : ℤ)
  | place (n : ℕ)
  | repeated
  | refused
  | credit (n : ℕ)
  | pop (ackIds : List String)
  | ran (o : Outcome Unit)
  | answered (ok recorded : Bool)
  deriving DecidableEq, Repr

inductive AddPc (B : Type) where
  | json
  | enqueue (b : B)
  | returned (ok : Bool)
  deriving DecidableEq, Repr

inductive LoopPc (B : Type) where
  | idle
  | dequeue (want : ℕ)
  | emit (rest : List (String × Message B))
  deriving DecidableEq, Repr

inductive Thread (T B : Type) where
  | add (id : String) (data : T) (pc : AddPc B)
  | foreign (body : Body B) (done : Bool)
  | loop (pc : LoopPc B)
  | run (ackId : String) (m : Message B) (data : T) (j : Job Unit) (pc : RunPc Unit)
  | requeue (ackId : String) (done : Bool)
  | purge (done : Bool)
  | setPaused (on done : Bool)

def maxCredit : ℕ := 64

variable {T B : Type}

namespace Shared

-- Storage keeps the items in an order of its own: arrival, priority, requeues first.
def enqueue (s : Shared T B) (n : ℕ) (body : Body B) : Shared T B :=
  { s with pending := s.pending.insertIdx (min n s.pending.length) ⟨s.next,body⟩, next := s.next + 1 }

def report (s : Shared T B) (e : Failure) : Shared T B := { s with errors := s.errors ++ [e] }

def release (s : Shared T B) (ackId : String) : Shared T B :=
  { s with nacked := s.nacked.filter fun e => e.1 ≠ ackId }

-- Acknowledge and Reject record nothing for an ack id that is gone.
def record (s : Shared T B) (ackId : String) (reason : Option String) : Shared T B :=
  match s.nacked.find? fun e => e.1 == ackId with
  | none => s
  | some (_,m) => match reason with
      | none => { s.release ackId with completed := s.completed ++ [m.key] }
      | some r => { s.release ackId with failed := s.failed ++ [(m.key,r)] }

-- A visibility timeout, a dead owner or a close puts the item back.
def requeue (s : Shared T B) (ackId : String) (n : ℕ) : Option (Shared T B) :=
  match s.nacked.find? fun e => e.1 == ackId with
  | none => none
  | some (_,m) => some { s.release ackId with
      pending := s.pending.insertIdx (min n s.pending.length) m, requeued := s.requeued ++ [m.key] }

def dequeue (s : Shared T B) (ackIds : List String) : Shared T B :=
  let taken := ackIds.zip s.pending
  { s with pending := s.pending.drop ackIds.length, nacked := s.nacked ++ taken,
           issued := s.issued ++ taken }

-- What a pop may answer: new ack ids, no more than it was asked for or has, none while paused.
def answers (s : Shared T B) (want : ℕ) (ackIds : List String) : Bool :=
  ackIds.length ≤ want && ackIds.length ≤ s.pending.length && ackIds.Nodup &&
    (!s.paused || ackIds.isEmpty) && ackIds.all fun id => !(s.issued.map Prod.fst).contains id

end Shared

variable (marshal : JobView T → Option B) (unmarshal : B → Except String (JobView T))

def addStep (s : Shared T B) (id : String) (data : T) :
    AddPc B → Choice → Option (Shared T B × AddPc B)
  | .json,.now ms => match json marshal id .created data ms with
      | none => some (s,.returned false)
      | some b => some (s,.enqueue b)
  | .enqueue b,.place n =>
      some ({ s.enqueue n (.bytes b) with added := s.added ++ [(s.next,id,data)] },.returned true)
  -- EnqueueOnce of an id it keeps
  | .enqueue _,.repeated => if id = "" then none else some (s,.returned true)
  | .enqueue _,.refused => some (s,.returned false)
  | _,_ => none

def newJob (p : Parsed T) : Job Unit := Jobs.newJob p.id .plain p.status none

-- dispatchCredit and fetch; Next is a fetch of one. Which credit the worker has is free.
def loopStep (s : Shared T B) :
    LoopPc B → Choice → Option (Shared T B × LoopPc B × List (Thread T B))
  | .idle,.credit n => if 0 < n ∧ n ≤ maxCredit then some (s,.dequeue n,[]) else none
  | .dequeue _,.refused => some (s.report .dequeue,.idle,[])
  | .dequeue want,.pop ackIds =>
      if s.answers want ackIds then some (s.dequeue ackIds,.emit (ackIds.zip s.pending),[]) else none
  | .emit [],.go => some (s,.idle,[])
  | .emit ((ackId,m) :: rest),.go => match toJob unmarshal m.body with
      | .error e => some (s.report (.parse m.key e),.emit rest,[])
      | .ok p =>
          if p.status = .closed then some (s,.emit rest,[])
          else some (s,.emit rest,[.run ackId m p.data (setAck (newJob p) ackId) .startLoad])
  | _,_ => none

def jobChoice : Choice → Jobs.Choice Unit
  | .ran o => .ran o
  | .answered ok _ => .answered ok
  | _ => .go

-- Storage that answers true has recorded the outcome; false may also be a lost reply.
def possible : Choice → Bool
  | .answered ok recorded => !ok || recorded
  | _ => true

-- What the run of a job does outside the job.
def effect (s : Shared T B) (m : Message B) (data : T) (j : Job Unit) :
    RunPc Unit → Choice → Shared T B
  | .invoke,_ => { s with invoked := s.invoked ++ [m.key] }
  | .running,.ran o => { s with ran := s.ran ++ [⟨m.key,j.id,data,o⟩] }
  | .finish,_ => match j.outcome.bind Outcome.failure with
      | none => s
      | some e => s.report (.run m.key e)
  | .close (.answer ackId reason),.answered _ true => s.record ackId reason
  | .close (.returned (some e)),_ => if e = .jobAlreadyClosed then s else s.report (.close m.key e)
  | _,_ => s

def step (s : Shared T B) : Thread T B → Choice → Option (Shared T B × Thread T B × List (Thread T B))
  | .add id data pc,c => (addStep marshal s id data pc c).map fun (s',pc') => (s',.add id data pc',[])
  | .foreign body false,.place n => some (s.enqueue n body,.foreign body true,[])
  | .loop pc,c => (loopStep unmarshal s pc c).map fun (s',pc',new) => (s',.loop pc',new)
  | .run ackId m data j pc,c =>
      if possible c then
        (Jobs.runStep j pc (jobChoice c)).map fun (j',pc') =>
          (effect s m data j pc c,.run ackId m data j' pc',[])
      else none
  | .requeue ackId false,.place n => (s.requeue ackId n).map fun s' => (s',.requeue ackId true,[])
  | .purge false,.go => some ({ s with pending := [], nacked := [] },.purge true,[])
  | .setPaused on false,.go => some ({ s with paused := on },.setPaused on true,[])
  | _,_ => none

def entry (_ : Shared T B) : Thread T B → Bool
  | .add _ _ .json => true
  | .foreign _ false => true
  | .loop .idle => true
  | .requeue _ false => true
  | .purge false => true
  | .setPaused _ false => true
  | _ => false

def program : Program (Shared T B) (Thread T B) Choice := ⟨entry,step marshal unmarshal⟩

def init : World (Shared T B) (Thread T B) :=
  ⟨⟨[],[],false,[],[],[],[],0,[],[],[],[]⟩,[]⟩

end Varmq.Leases
