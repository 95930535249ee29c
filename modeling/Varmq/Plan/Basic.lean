import Varmq.Plan.Wrapped
import Varmq.Wakeup.Refine
import Mathlib.Algebra.Order.Floor.Div

namespace Varmq.Plan

open Wrapped
open Varmq.Wakeup (worthSpawning batchSize handoffGap spawnNanos batchSize_pos)
open Varmq.Dispatch (maxBatch)

-- need as the code computes it, each operation in 64 bits.
def need (jobNanos alive : ℕ) : ℤ :=
  (wrap (wrap (wrap ((max alive 1 : ℕ) * (handoffGap : ℤ)) + jobNanos) - 1)).tdiv jobNanos

def batchBudget (jobNanos alive : ℕ) : ℕ :=
  if jobNanos = 0 then 1 else (max 1 (min (need jobNanos alive) maxBatch)).toNat

-- What planBatch reads, in its order: concurrency and jobNanos are loaded twice.
structure Loads where
  pending : ℕ
  busyWorkers : ℕ
  len : ℕ
  concurrency : ℕ
  jobNanos : ℕ
  popped : Bool
  concurrency' : ℕ
  jobNanos' : ℕ
  batches : Bool

namespace Loads

variable (l : Loads)

def alive : ℕ := l.busyWorkers + l.len

def grow : Bool := worthSpawning l.pending l.jobNanos l.alive

def shares : ℕ := if l.grow then min l.concurrency l.pending else l.alive

def maxBatch : ℕ := if l.batches then Dispatch.maxBatch else 1

def budget : ℕ :=
  if 1 < l.concurrency' then batchBudget l.jobNanos' l.alive else Dispatch.maxBatch

-- The size of the batch, or none if there is no node.
def planBatch : Option ℕ :=
  if !l.popped && !l.grow then none
  else some (min (batchSize l.pending l.shares) (min l.budget l.maxBatch))

end Loads

variable {jobNanos alive : ℕ}

theorem need_eq (jobNanos alive : ℕ) : need jobNanos alive =
    (wrap ((max alive 1 : ℕ) * (handoffGap : ℤ) + jobNanos - 1)).tdiv jobNanos := by
  rw [need,wrap_add,wrap_sub]

theorem gap_pos (alive : ℕ) : 0 < max alive 1 * handoffGap :=
  Nat.mul_pos (Nat.lt_of_lt_of_le Nat.one_pos (Nat.le_max_right alive 1)) (by decide)

-- Rounding up as the code does it, over the integers.
theorem ceilDiv_eq (jobNanos alive : ℕ) :
    (((max alive 1 * handoffGap) ⌈/⌉ jobNanos : ℕ) : ℤ) =
      ((max alive 1 : ℕ) * (handoffGap : ℤ) + jobNanos - 1).tdiv jobNanos := by
  have hpos := gap_pos alive
  have hnat : ((max alive 1 : ℕ) * (handoffGap : ℤ) + jobNanos - 1) =
      ((max alive 1 * handoffGap + jobNanos - 1 : ℕ) : ℤ) := by
    rw [Nat.cast_sub (by omega),Nat.cast_add,Nat.cast_mul,Nat.cast_one]
  rw [hnat,Nat.ceilDiv_eq_add_pred_div,← Int.ofNat_tdiv]

theorem need_le (hj : 0 < jobNanos) :
    need jobNanos alive ≤ ((max alive 1 * handoffGap) ⌈/⌉ jobNanos : ℕ) := by
  have hpos := gap_pos alive
  rw [ceilDiv_eq,need_eq]
  refine Int.tdiv_le_tdiv (by omega) (wrap_le ?_)
  rw [← Nat.cast_mul]
  omega

theorem batchBudget_le (hj : 0 < jobNanos) :
    batchBudget jobNanos alive ≤ min maxBatch (max 1 ((max alive 1 * handoffGap) ⌈/⌉ jobNanos)) := by
  have hle := @need_le jobNanos alive hj
  rw [batchBudget,if_neg (Nat.ne_of_gt hj)]
  simp only [maxBatch]
  omega

theorem batchBudget_pos (jobNanos alive : ℕ) : 1 ≤ batchBudget jobNanos alive := by
  rw [batchBudget]
  split
  · exact Nat.le_refl 1
  · simp only [maxBatch]
    omega

-- A job time so long that the sum wraps asks for one job either way.
theorem need_wrapped (ha : max alive 1 * handoffGap ≤ 2 ^ 62) (hj : jobNanos < 2 ^ 63)
    (hn : 2 ^ 63 ≤ max alive 1 * handoffGap + jobNanos - 1) :
    need jobNanos alive ≤ 0 ∧ (max alive 1 * handoffGap) ⌈/⌉ jobNanos ≤ 1 := by
  have hj0 : 0 < jobNanos := by omega
  constructor
  · have hneg : wrap ((max alive 1 : ℕ) * (handoffGap : ℤ) + jobNanos - 1) < 0 := by
      rw [← Nat.cast_mul]
      exact wrap_neg (by omega) (by omega)
    have hle := Int.tdiv_le_tdiv (Int.natCast_pos.mpr hj0) (Int.le_of_lt hneg)
    rwa [Int.zero_tdiv,← need_eq] at hle
  · rw [ceilDiv_le_iff_le_mul hj0]
    omega

theorem need_small (hn : max alive 1 * handoffGap + jobNanos - 1 < 2 ^ 63) :
    need jobNanos alive = ((max alive 1 * handoffGap) ⌈/⌉ jobNanos : ℕ) := by
  have hpos := gap_pos alive
  rw [need_eq,ceilDiv_eq,wrap_of_lt]
  · rw [← Nat.cast_mul]
    omega
  · rw [← Nat.cast_mul]
    omega

-- The budget over the integers is the code's for every pool of up to 2^62 / handoffGap workers.
theorem batchBudget_exact (ha : max alive 1 * handoffGap ≤ 2 ^ 62) (hj : jobNanos < 2 ^ 63) :
    batchBudget jobNanos alive = Wakeup.batchBudget jobNanos alive := by
  rw [batchBudget,Wakeup.batchBudget,← Nat.ceilDiv_eq_add_pred_div]
  split
  · rfl
  · by_cases hn : max alive 1 * handoffGap + jobNanos - 1 < 2 ^ 63
    · rw [need_small hn]
      omega
    · obtain ⟨h1,h2⟩ := need_wrapped ha hj (Nat.le_of_not_lt hn)
      simp only [maxBatch]
      omega

namespace Loads

variable {l : Loads} {k : ℕ}

-- A batch takes no job from a worker that could run it at the same time.
structure Fair (l : Loads) (k : ℕ) : Prop where
  size : 1 ≤ k ∧ k ≤ Dispatch.maxBatch
  single : l.maxBatch = 1 → k = 1
  share : 1 ≤ l.shares → l.shares ≤ l.pending → k * l.shares ≤ l.pending
  budget : 1 < l.concurrency' → 0 < l.jobNanos' →
    k ≤ min Dispatch.maxBatch (max 1 ((max l.alive 1 * handoffGap) ⌈/⌉ l.jobNanos'))
  unmeasured : 1 < l.concurrency' → l.jobNanos' = 0 → k = 1

theorem maxBatch_bounds (l : Loads) : 1 ≤ l.maxBatch ∧ l.maxBatch ≤ Dispatch.maxBatch := by
  rw [maxBatch]
  split <;> decide

theorem budget_pos (l : Loads) : 1 ≤ l.budget := by
  rw [budget]
  split
  · exact batchBudget_pos _ _
  · decide

theorem batchSize_share {pending shares : ℕ} (h1 : 1 ≤ shares) (h2 : shares ≤ pending) :
    batchSize pending shares * shares ≤ pending := by
  have hdiv : 1 ≤ pending / shares := (Nat.one_le_div_iff h1).mpr h2
  have hle : batchSize pending shares ≤ pending / shares := by
    rw [batchSize,Nat.max_eq_left h1]
    exact Nat.max_le.mpr ⟨hdiv,Nat.min_le_left _ _⟩
  exact Nat.le_trans (Nat.mul_le_mul_right shares hle) (Nat.div_mul_le_self pending shares)

theorem fair_of_plan (h : l.planBatch = some k) : Fair l k := by
  rw [planBatch] at h
  split at h
  · cases h
  · cases h
    have hsize := batchSize_pos l.pending l.shares
    obtain ⟨hmax,hmax'⟩ := l.maxBatch_bounds
    have hbudget := l.budget_pos
    refine ⟨⟨by omega,by omega⟩,fun h1 => by omega,fun h1 h2 => ?_,fun h1 h2 => ?_,fun h1 h2 => ?_⟩
    · exact Nat.le_trans (Nat.mul_le_mul_right l.shares (Nat.min_le_left _ _)) (batchSize_share h1 h2)
    · have hle := @batchBudget_le l.jobNanos' l.alive h2
      rw [budget,if_pos h1]
      omega
    · have hone : l.budget = 1 := by rw [budget,if_pos h1,batchBudget,if_pos h2]
      omega

theorem no_node : l.planBatch = none ↔ l.popped = false ∧ l.grow = false := by
  rw [planBatch]
  cases l.popped <;> cases l.grow <;> simp

theorem alive_of_not_grow (h : l.grow = false) : 0 < l.alive := by
  by_contra hz
  rw [grow,worthSpawning,Nat.eq_zero_of_not_pos hz] at h
  simp at h

theorem batching_keeps_parallelism (l : Loads) : (∀ k, l.planBatch = some k → Fair l k) ∧
    (l.planBatch = none → l.popped = false ∧ l.grow = false) ∧ (l.grow = false → 0 < l.alive) :=
  ⟨fun _ h => fair_of_plan h,no_node.mp,alive_of_not_grow⟩

end Loads

end Varmq.Plan
