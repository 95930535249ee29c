import Mathlib.Tactic.Common

namespace Varmq.Worker

inductive Status where
  | initiated
  | idle
  | running
  | pausing
  | paused
  | stopping
  | stopped
  deriving DecidableEq, Repr

inductive Error where
  | runningWorker
  | notRunningWorker
  | workerPaused
  | workerStopped
  | workerPausing
  | workerStopping
  deriving DecidableEq, Repr

def Error.text : Error → String
  | .runningWorker => "worker is already running"
  | .notRunningWorker => "worker is not running"
  | .workerPaused => "worker is paused"
  | .workerStopped => "worker is stopped"
  | .workerPausing => "worker is pausing"
  | .workerStopping => "worker is stopping"

namespace Status

def getStatusError : Status → Error
  | .paused => .workerPaused
  | .stopped => .workerStopped
  | .pausing => .workerPausing
  | .stopping => .workerStopping
  | .running | .idle => .runningWorker
  | .initiated => .notRunningWorker

def isActive : Status → Bool
  | .running | .idle => true
  | _ => false

def halting : Status → Bool
  | .pausing | .paused | .stopping | .stopped => true
  | _ => false

theorem getStatusError_paused (s : Status) : s.getStatusError = .workerPaused ↔ s = .paused := by
  cases s <;> simp [getStatusError]

end Status

end Varmq.Worker
