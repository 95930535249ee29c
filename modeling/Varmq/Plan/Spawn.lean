import Varmq.Plan.Basic

namespace Varmq.Plan

open Wrapped
open Varmq.Wakeup (worthSpawning spawnNanos int64)

variable {pending pending' jobNanos jobNanos' alive : ℕ}

-- The formula of worthSpawning over the integers.
def Worth (pending jobNanos alive : ℕ) : Prop :=
  alive = 0 ∨ jobNanos = 0 ∨ spawnNanos * alive * alive < pending * jobNanos

-- The two products keep their order in 64 bits.
def Ordered (pending jobNanos alive : ℕ) : Prop :=
  alive = 0 ∨ jobNanos = 0 ∨
    InOrder (spawnNanos * alive * alive : ℕ) (pending * jobNanos : ℕ)

-- jobNanos of 0 means that nothing has been measured, so it is no job time.
theorem Worth.mono (h : Worth pending jobNanos alive) (hp : pending ≤ pending')
    (hj : jobNanos ≤ jobNanos') (h0 : jobNanos = 0 → jobNanos' = 0) :
    Worth pending' jobNanos' alive := by
  rcases h with ha | hz | hlt
  · exact .inl ha
  · exact .inr (.inl (h0 hz))
  · exact .inr (.inr (Nat.lt_of_lt_of_le hlt (Nat.mul_le_mul hp hj)))

end Varmq.Plan
