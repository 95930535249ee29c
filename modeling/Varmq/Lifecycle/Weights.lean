import Varmq.Lifecycle.Basic

namespace Varmq.Lifecycle

open Interleaving
open Varmq.Worker (Status Error)

structure Weights where
  crit : ℕ
  reserved : ℕ
  passed : ℕ
  bouncing : ℕ
  drained : ℕ
  live : ℕ
  launching : ℕ
  launched : ℕ
  shut : ℕ
  waiting : ℕ
  ending : ℕ
  deriving DecidableEq, Repr

namespace Weights

def zero : Weights := ⟨0,0,0,0,0,0,0,0,0,0,0⟩

def add (a b : Weights) : Weights where
  crit := a.crit + b.crit
  reserved := a.reserved + b.reserved
  passed := a.passed + b.passed
  bouncing := a.bouncing + b.bouncing
  drained := a.drained + b.drained
  live := a.live + b.live
  launching := a.launching + b.launching
  launched := a.launched + b.launched
  shut := a.shut + b.shut
  waiting := a.waiting + b.waiting
  ending := a.ending + b.ending

theorem add_assoc (a b c : Weights) : (a.add b).add c = a.add (b.add c) := by
  simp [add,Nat.add_assoc]

theorem add_comm (a b : Weights) : a.add b = b.add a := by simp [add,Nat.add_comm]

@[simp] theorem add_zero (a : Weights) : a.add zero = a := rfl

@[simp] theorem zero_add (a : Weights) : zero.add a = a := by simp [add,zero]

end Weights

def FinishPc.crit : FinishPc → ℕ
  | .dec _ | .lock => 0
  | _ => 1

def FinishPc.bouncing : FinishPc → ℕ
  | .recheck | .casBack => 1
  | _ => 0

def FinishPc.drained : FinishPc → ℕ
  | .casIdle | .casPaused => 1
  | _ => 0

def FinishPc.weights : FinishPc → Weights
  | .dec m => { Weights.zero with reserved := m }
  | pc => { Weights.zero with crit := pc.crit, bouncing := pc.bouncing, drained := pc.drained }

def finishWeights : Option FinishPc → Weights
  | some pc => pc.weights
  | none => Weights.zero

def WaitPc.crit : WaitPc → ℕ
  | .lock | .asleep _ | .done => 0
  | _ => 1

def Ret.weights : Ret → Weights
  | .send n _ => { Weights.zero with live := 1, reserved := n, passed := n }
  | _ => { Weights.zero with live := 1 }

def loopWeights : LoopPc → Weights
  | .select | .active | .slots | .limit _ | .pending | .plan | .take _ | .count _ _ =>
      { Weights.zero with live := 1 }
  | .reserve _ k | .claim _ k | .giveBack k _ => { Weights.zero with live := 1, reserved := k }
  | .fill k => { Weights.zero with live := 1, reserved := k, passed := k }
  | .send n _ => { Weights.zero with live := 1, reserved := n, passed := n }
  | .finish pc r => r.weights.add pc.weights
  | .creditActive | .creditReady | .creditSlots | .creditLimit _ | .creditEnd =>
      { Weights.zero with live := 1 }
  | .emit left | .emitBusy left | .emitSend left =>
      { Weights.zero with live := 1, reserved := left, passed := left }
  | .wait .unlock => { Weights.zero with live := 1, crit := 1, shut := 1, waiting := 1 }
  | .wait pc => { Weights.zero with live := 1, crit := pc.crit, waiting := 1 }
  | .removeAll | .stopLock => { Weights.zero with live := 1, shut := 1, waiting := 1 }
  | .stopStore => { Weights.zero with live := 1, shut := 1, crit := 1, waiting := 1 }
  | .stopWake | .stopUnlock => { Weights.zero with crit := 1, ending := 1 }
  | .exited => Weights.zero

def batchWeights : BatchPc → Weights
  | .check n _ | .exec n _ | .free n | .release n =>
      { Weights.zero with reserved := n, passed := n }
  | .finish (.dec n) => { Weights.zero with reserved := n, passed := n }
  | .finish pc => pc.weights
  | .notify | .done => Weights.zero

def pauseWeights : PausePc → Weights
  | .lock | .returned _ => Weights.zero
  | .casPaused => { Weights.zero with crit := 1, drained := 1 }
  | _ => { Weights.zero with crit := 1 }

def resumeWeights : ResumePc → Weights
  | .wake | .unlock => { Weights.zero with crit := 1 }
  | _ => Weights.zero

def stopWeights : StopPc → Weights
  | .cancel _ | .unlock _ => { Weights.zero with crit := 1 }
  | _ => Weights.zero

def startWeights : StartPc → Weights
  | .lock | .returned _ => Weights.zero
  | .init | .launch => { Weights.zero with crit := 1, launching := 1 }
  | .push | .store => { Weights.zero with crit := 1, launched := 1 }
  | _ => { Weights.zero with crit := 1 }

def restartWeights : RestartPc → Weights
  | .stop pc => stopWeights pc
  | .start pc => startWeights pc
  | .lock | .asleep _ | .returned _ => Weights.zero
  | _ => { Weights.zero with crit := 1 }

def broadcastWeights : BroadcastPc → Weights
  | .wake | .unlock => { Weights.zero with crit := 1 }
  | _ => Weights.zero

def weights : Thread → Weights
  | .loop _ pc => loopWeights pc
  | .batch pc => batchWeights pc
  | .pause pc => pauseWeights pc
  | .resume pc => resumeWeights pc
  | .stop pc => stopWeights pc
  | .start pc => startWeights pc
  | .restart pc => restartWeights pc
  | .waiter _ pc => { Weights.zero with crit := pc.crit }
  | .broadcast pc => broadcastWeights pc
  | .cancelParent _ | .notify _ | .tunePool _ _ => Weights.zero

def sum (ts : List Thread) : Weights := ts.foldr (fun l w => (weights l).add w) Weights.zero

@[simp] theorem sum_nil : sum [] = Weights.zero := rfl

@[simp] theorem sum_cons (l : Thread) (ts : List Thread) :
    sum (l :: ts) = (weights l).add (sum ts) := rfl

@[simp] theorem sum_append (xs ys : List Thread) : sum (xs ++ ys) = (sum xs).add (sum ys) := by
  induction xs with
  | nil => simp
  | cons l xs ih => simp [ih,Weights.add_assoc]

theorem sum_split (xs ys : List Thread) (l : Thread) :
    sum (xs ++ l :: ys) = (sum (xs ++ ys)).add (weights l) := by
  rw [sum_append,sum_append,sum_cons,Weights.add_assoc,Weights.add_comm (sum ys)]

theorem sum_act (xs ys new : List Thread) (l : Thread) :
    sum (xs ++ l :: (ys ++ new)) = (sum (xs ++ ys)).add ((sum new).add (weights l)) := by
  rw [sum_split,← List.append_assoc,sum_append,Weights.add_assoc]

theorem sum_total (f : Weights → ℕ) (hz : f Weights.zero = 0)
    (ha : ∀ a b, f (a.add b) = f a + f b) (ts : List Thread) :
    f (sum ts) = total (fun l => f (weights l)) ts := by
  induction ts with
  | nil => exact hz
  | cons l ts ih => rw [sum_cons,ha,total_cons,ih]

theorem le_sum (f : Weights → ℕ) (hz : f Weights.zero = 0) (ha : ∀ a b, f (a.add b) = f a + f b)
    {ts : List Thread} {l : Thread} (h : l ∈ ts) : f (weights l) ≤ f (sum ts) := by
  rw [sum_total f hz ha]
  exact le_total (f := fun l => f (weights l)) h

theorem loop_of_alive {l : Thread} (hl : (weights l).live ≠ 0) : ∃ k pc, l = .loop k pc := by
  cases l with
  | loop k pc => exact ⟨k,pc,rfl⟩
  | batch pc =>
    cases pc with
    | finish pc => cases pc <;> exact absurd rfl hl
    | _ => exact absurd rfl hl
  | start pc => cases pc <;> exact absurd rfl hl
  | restart pc =>
    cases pc with
    | start pc => cases pc <;> exact absurd rfl hl
    | stop pc => cases pc <;> exact absurd rfl hl
    | _ => exact absurd rfl hl
  | pause pc => cases pc <;> exact absurd rfl hl
  | resume pc => cases pc <;> exact absurd rfl hl
  | stop pc => cases pc <;> exact absurd rfl hl
  | broadcast pc => cases pc <;> exact absurd rfl hl
  | _ => exact absurd rfl hl

theorem sum_crit (ts : List Thread) : (sum ts).crit = total (fun l => (weights l).crit) ts :=
  sum_total Weights.crit rfl (fun _ _ => rfl) ts

-- The counters a state must satisfy, over the weights of all its threads together.
structure Balanced (s : Shared) (w : Weights) : Prop where
  mutex : w.crit = if s.mx then 1 else 0
  counted : s.curProcessing = w.reserved
  quiet : s.status = .initiated ∨ s.status = .paused ∨ s.status = .stopped → w.passed = 0
  idle : s.status = .idle → 0 < w.passed → 0 < w.bouncing
  pausing : s.status = .pausing → 0 < w.drained → w.passed = 0
  oneLoop : w.live ≤ 1
  unlaunched : s.status = .initiated ∨ s.status = .stopped → w.live = w.launched
  launching : 0 < w.launching → s.status = .initiated ∨ s.status = .stopped
  launched : 0 < w.launched →
    (s.status = .initiated ∨ s.status = .stopped ∨ s.status = .stopping) ∧ w.passed = 0
  shut : 0 < w.shut → w.reserved = 0
  waiting : 0 < w.waiting → s.status ≠ .initiated

structure Within (w : Weights) : Prop where
  passed : w.passed ≤ w.reserved
  held : w.bouncing + w.drained + w.launching + w.launched + w.ending ≤ w.crit
  shut : w.shut ≤ w.waiting
  waiting : w.waiting ≤ w.live

theorem within_add {a b : Weights} (ha : Within a) (hb : Within b) : Within (a.add b) := by
  obtain ⟨a1,a2,a3,a4⟩ := ha
  obtain ⟨b1,b2,b3,b4⟩ := hb
  constructor <;> simp only [Weights.add] <;> omega

theorem within_finish (pc : FinishPc) : Within pc.weights := by
  cases pc <;> constructor <;> simp [FinishPc.weights,Weights.zero,FinishPc.bouncing,
    FinishPc.drained,FinishPc.crit]

theorem within_ret (r : Ret) : Within r.weights := by
  cases r <;> constructor <;> simp [Ret.weights,Weights.zero]

theorem within_weights (l : Thread) : Within (weights l) := by
  cases l with
  | loop k pc =>
    cases pc with
    | finish pc r => exact within_add (within_ret r) (within_finish pc)
    | wait pc => cases pc <;> constructor <;> simp [weights,loopWeights,Weights.zero]
    | _ => constructor <;> simp [weights,loopWeights,Weights.zero]
  | batch pc =>
    cases pc with
    | finish pc =>
      cases pc <;> constructor <;> simp [weights,batchWeights,Weights.zero,FinishPc.weights,
        FinishPc.bouncing,FinishPc.drained,FinishPc.crit]
    | _ => constructor <;> simp [weights,batchWeights,Weights.zero]
  | pause pc => cases pc <;> constructor <;> simp [weights,pauseWeights,Weights.zero]
  | resume pc => cases pc <;> constructor <;> simp [weights,resumeWeights,Weights.zero]
  | stop pc => cases pc <;> constructor <;> simp [weights,stopWeights,Weights.zero]
  | start pc => cases pc <;> constructor <;> simp [weights,startWeights,Weights.zero]
  | restart pc =>
    cases pc with
    | stop pc => cases pc <;> constructor <;> simp [weights,restartWeights,stopWeights,Weights.zero]
    | start pc =>
      cases pc <;> constructor <;> simp [weights,restartWeights,startWeights,Weights.zero]
    | _ => constructor <;> simp [weights,restartWeights,Weights.zero]
  | waiter k pc => constructor <;> simp [weights,Weights.zero]
  | broadcast pc => cases pc <;> constructor <;> simp [weights,broadcastWeights,Weights.zero]
  | _ => constructor <;> simp [weights,Weights.zero]

theorem within_sum (ts : List Thread) : Within (sum ts) := by
  induction ts with
  | nil => constructor <;> simp [Weights.zero]
  | cons l ts ih => exact within_add (within_weights l) ih

end Varmq.Lifecycle
