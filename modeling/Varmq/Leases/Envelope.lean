import Varmq.Job.Basic

namespace Varmq.Leases

open Varmq.Jobs (Status Job JobAck)

structure JobView (T : Type) where
  id : String
  status : String
  payload : T
  enqueuedAt : ℤ
  deriving DecidableEq, Repr

def statusText : Status → String
  | .created => "Created"
  | .queued => "Queued"
  | .processing => "Processing"
  | .finished => "Finished"
  | .closed => "Closed"

def statusOf (text : String) : Option Status :=
  if text = "Created" then some .created
  else if text = "Queued" then some .queued
  else if text = "Processing" then some .processing
  else if text = "Finished" then some .finished
  else if text = "Closed" then some .closed
  else none

theorem statusOf_text (s : Status) : statusOf (statusText s) = some s := by
  cases s <;> decide

inductive ParseError where
  | parseJob (e : String)
  | invalidStatus (status : String)
  | failedToCastJob
  deriving DecidableEq, Repr

def ParseError.text : ParseError → String
  | .parseJob e => "failed to parse job" ++ ": " ++ e
  | .invalidStatus status => "invalid status: " ++ status
  | .failedToCastJob => "failed to cast job"

-- What newJob is given, and the status stored after it.
structure Parsed (T : Type) where
  id : String
  data : T
  status : Status
  deriving DecidableEq, Repr

-- Storage holds JSON bytes, or what no Add put there.
inductive Body (B : Type) where
  | bytes (b : B)
  | other
  deriving DecidableEq, Repr

variable {T B : Type} (marshal : JobView T → Option B) (unmarshal : B → Except String (JobView T))

def json (id : String) (status : Status) (data : T) (now : ℤ) : Option B :=
  marshal ⟨id,statusText status,data,now⟩

def parseToJob (b : B) : Except ParseError (Parsed T) :=
  match unmarshal b with
  | .error e => .error (.parseJob e)
  | .ok view => match statusOf view.status with
      | none => .error (.invalidStatus view.status)
      | some status => .ok ⟨view.id,view.payload,status⟩

def toJob : Body B → Except ParseError (Parsed T)
  | .bytes b => parseToJob unmarshal b
  | .other => .error .failedToCastJob

-- encoding/json reads back what it wrote of the payload.
def Faithful : Prop := ∀ view b, marshal view = some b → unmarshal b = .ok view

variable {marshal unmarshal}

theorem toJob_json {id : String} {status : Status} {data : T} {now : ℤ} {b : B}
    (hf : Faithful marshal unmarshal) (hb : json marshal id status data now = some b) :
    toJob unmarshal (.bytes b) = .ok ⟨id,data,status⟩ := by
  simp only [toJob,parseToJob,hf _ _ hb,statusOf_text]

-- JSON of a number's envelope, and the empty input, which is none.
def marshalView (view : JobView ℕ) : Option (Option (JobView ℕ)) := some (some view)

def unmarshalView : Option (JobView ℕ) → Except String (JobView ℕ)
  | some view => .ok view
  | none => .error "unexpected end of JSON input"

theorem view_faithful : Faithful marshalView unmarshalView := by
  intro view b h
  cases h
  rfl

-- An empty ack id leaves nothing to acknowledge.
def setAck (j : Job Unit) (id : String) : Job Unit :=
  if id = "" then j else { j with ackRef := some (.storage id none) }

def ref (id : String) (reason : Option String) : Option JobAck :=
  if id = "" then none else some (.storage id reason)

theorem setAck_ref {j : Job Unit} {id : String} (h : j.ackRef = none) :
    setAck j id = { j with ackRef := ref id none } := by
  unfold setAck ref
  split
  · rw [← h]
  · rfl

end Varmq.Leases
