import Mathlib.Data.Int.Order.Basic
import Varmq.Interleaving.World
import Varmq.Interleaving.Total

namespace Varmq.Jobs

open Interleaving

inductive Status where
  | created
  | queued
  | processing
  | finished
  | closed
  deriving DecidableEq, Repr

inductive Error where
  | jobProcessing
  | jobAlreadyClosed
  | acknowledgeJob (jobId ackId : String)
  deriving DecidableEq, Repr

def Error.text : Error → String
  | .jobProcessing => "job is processing, you can't close processing job"
  | .jobAlreadyClosed => "job is already closed"
  | .acknowledgeJob jobId ackId =>
      "queue failed to acknowledge job" ++ ": jobId=" ++ jobId ++ ", ackId=" ++ ackId

def closeable : Status → Option Error
  | .processing => some .jobProcessing
  | .closed => some .jobAlreadyClosed
  | _ => none

def notClosed : Status → Option Error
  | .closed => some .jobAlreadyClosed
  | _ => none

-- `totals` is the ack-less reference an in-memory queue shares between its jobs (q is nil).
inductive JobAck where
  | totals
  | storage (id : String) (reason : Option String)
  deriving DecidableEq, Repr

inductive Kind where
  | plain
  | error
  | result
  deriving DecidableEq, Repr

inductive Outcome (R : Type) where
  | ok (r : R)
  | error (e : String)
  | panic (e : String)
  deriving DecidableEq, Repr

variable {R : Type}

-- utils.SelectError(panicErr, err)
def Outcome.failure : Outcome R → Option String
  | .ok _ => none
  | .error e => some e
  | .panic e => some e

-- A plain worker function has no error to return.
def Outcome.fits : Kind → Outcome R → Bool
  | .plain, .error _ => false
  | _, _ => true

inductive Report where
  | acknowledge (id : String)
  | reject (id reason : String)
  | answered (ok : Bool)
  | failed
  deriving DecidableEq, Repr

-- The last three fields are ghost state; `history` is newest first.
structure Job (R : Type) where
  id : String
  kind : Kind
  status : Status
  wg : ℤ
  ackRef : Option JobAck
  data : R
  err : Option String
  completed : ℕ
  failed : ℕ
  invoked : ℕ
  outcome : Option (Outcome R)
  history : List Report
  deriving Repr

inductive ClosePc where
  | load
  | check
  | swap
  | call (id : String) (reason : Option String)
  | answer (id : String) (reason : Option String)
  | putBack (id : String) (reason : Option String)
  | claimLoad
  | claimCas (s : Status)
  | done
  | returned (r : Option Error)
  deriving DecidableEq, Repr

inductive Choice (R : Type) where
  | go
  | answered (ok : Bool)
  | ran (o : Outcome R)
  deriving DecidableEq, Repr

def report (id : String) : Option String → Report
  | some reason => .reject id reason
  | none => .acknowledge id

def closeStep (j : Job R) : ClosePc → Choice R → Option (Job R × ClosePc)
  | .load, .go =>
      match j.ackRef with
      | some (.storage _ _) => some (j,.check)
      | _ => some (j,.claimLoad)
  | .check, .go =>
      match closeable j.status with
      | some e => some (j,.returned (some e))
      | none => some (j,.swap)
  | .swap, .go =>
      match j.ackRef with
      | none => some (j,.claimLoad)
      | some (.storage id reason) => some ({ j with ackRef := none },.call id reason)
      | some .totals => none
  | .call id reason, .go =>
      some ({ j with history := report id reason :: j.history },.answer id reason)
  | .answer id reason, .answered ok =>
      some ({ j with history := .answered ok :: j.history },
        if ok then .claimLoad else .putBack id reason)
  | .putBack id reason, .go =>
      some ({ j with ackRef := some (.storage id reason) },
        .returned (some (.acknowledgeJob j.id id)))
  | .claimLoad, .go =>
      match closeable j.status with
      | some e => some (j,.returned (some e))
      | none => some (j,.claimCas j.status)
  | .claimCas s, .go =>
      if j.status = s then some ({ j with status := .closed },.done) else some (j,.claimLoad)
  | .done, .go => some ({ j with wg := j.wg - 1 },.returned none)
  | _, _ => none

inductive RunPc (R : Type) where
  | startLoad
  | startCas (s : Status)
  | invoke
  | running
  | sendResult (r : R)
  | succeed
  | failLoad (e : String)
  | failStore (id e : String)
  | sendError (e : String)
  | finish
  | close (pc : ClosePc)
  | skipped
  | ended (r : Option Error)
  deriving DecidableEq, Repr

def afterFail (k : Kind) (e : String) : RunPc R :=
  if k = .plain then .finish else .sendError e

def runStep (j : Job R) : RunPc R → Choice R → Option (Job R × RunPc R)
  | .startLoad, .go =>
      match notClosed j.status with
      | some _ => some (j,.skipped)
      | none => some (j,.startCas j.status)
  | .startCas s, .go =>
      if j.status = s then some ({ j with status := .processing },.invoke)
      else some (j,.startLoad)
  | .invoke, .go => some ({ j with invoked := j.invoked + 1 },.running)
  | .running, .ran o =>
      if o.fits j.kind then
        match o with
        | .ok r => some ({ j with outcome := some o },
            if j.kind = .result then .sendResult r else .succeed)
        | .error e | .panic e => some ({ j with outcome := some o },.failLoad e)
      else none
  | .sendResult r, .go => some ({ j with data := r },.succeed)
  | .succeed, .go =>
      match j.ackRef with
      | some .totals => some ({ j with completed := j.completed + 1 },.finish)
      | _ => some (j,.finish)
  | .failLoad e, .go =>
      match j.ackRef with
      | some .totals => some ({ j with failed := j.failed + 1,
                                       history := .failed :: j.history },afterFail j.kind e)
      | some (.storage id _) => some (j,.failStore id e)
      | none => some ({ j with history := .failed :: j.history },afterFail j.kind e)
  | .failStore id e, .go =>
      some ({ j with ackRef := some (.storage id (some e)),
                     history := .failed :: j.history },afterFail j.kind e)
  | .sendError e, .go => some ({ j with err := some e },.finish)
  | .finish, .go => some ({ j with status := .finished },.close .load)
  | .close (.returned r), .go => some (j,.ended r)
  | .close pc, c =>
      match closeStep j pc c with
      | some (j',pc') => some (j',.close pc')
      | none => none
  | _, _ => none

theorem runStep_close {j j' : Job R} {pc : ClosePc} {pc' : RunPc R} {c : Choice R}
    (hr : ∀ r, pc ≠ .returned r) (h : runStep j (.close pc) c = some (j',pc')) :
    ∃ k q, closeStep j pc c = some (k,q) ∧ j' = k ∧ pc' = .close q := by
  have hs : runStep j (.close pc) c =
      match closeStep j pc c with
      | some (j',pc') => some (j',.close pc')
      | none => none := by
    cases pc <;> first | rfl | exact absurd rfl (hr _)
  rw [hs] at h
  split at h
  · rename_i k q hq
    cases h
    exact ⟨_,_,hq,rfl,rfl⟩
  · cases h

inductive AddPc where
  | markQueued
  | returned
  deriving DecidableEq, Repr

def addStep (j : Job R) : AddPc → Choice R → Option (Job R × AddPc)
  | .markQueued, .go =>
      some (if j.status = .created then { j with status := .queued } else j,.returned)
  | _, _ => none

inductive Thread (R : Type) where
  | close (pc : ClosePc)
  | run (pc : RunPc R)
  | add (pc : AddPc)
  deriving DecidableEq, Repr

def step (j : Job R) : Thread R → Choice R → Option (Job R × Thread R × List (Thread R))
  | .close pc, c => (closeStep j pc c).map fun (j',pc') => (j',.close pc',[])
  | .run pc, c => (runStep j pc c).map fun (j',pc') => (j',.run pc',[])
  | .add pc, c => (addStep j pc c).map fun (j',pc') => (j',.add pc',[])

theorem step_cases {j j' : Job R} {l l' : Thread R} {c : Choice R} {new : List (Thread R)}
    (h : step j l c = some (j',l',new)) : new = [] ∧
    ((∃ pc pc', l = .close pc ∧ l' = .close pc' ∧ closeStep j pc c = some (j',pc')) ∨
     (∃ pc pc', l = .run pc ∧ l' = .run pc' ∧ runStep j pc c = some (j',pc')) ∨
     (∃ pc pc', l = .add pc ∧ l' = .add pc' ∧ addStep j pc c = some (j',pc'))) := by
  cases l <;> simp only [step,Option.map_eq_some_iff,Prod.exists,Prod.mk.injEq] at h <;>
    obtain ⟨k,pc',hs,rfl,rfl,rfl⟩ := h <;> simp [hs]

def entry (_ : Job R) : Thread R → Bool
  | .close .load => true
  | _ => false

theorem entry_eq {j : Job R} {l : Thread R} (h : entry j l = true) : l = .close .load := by
  unfold entry at h
  split at h
  · rfl
  · cases h

def program (R : Type) : Program (Job R) (Thread R) (Choice R) := ⟨entry,step⟩

def newJob [Inhabited R] (id : String) (k : Kind) (s : Status) (ref : Option JobAck) : Job R where
  id := id
  kind := k
  status := s
  wg := 1
  ackRef := ref
  data := default
  err := none
  completed := 0
  failed := 0
  invoked := 0
  outcome := none
  history := []

def start [Inhabited R] (id : String) (k : Kind) (s : Status) (ref : Option JobAck) :
    World (Job R) (Thread R) :=
  ⟨newJob id k s ref,[.run .startLoad,.add .markQueued]⟩

def errValue (j : Job R) : Option (Option String) := if j.wg = 0 then some j.err else none

def resultValue (j : Job R) : Option (R × Option String) :=
  if j.wg = 0 then some (j.data,j.err) else none

end Varmq.Jobs
