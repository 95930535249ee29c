import Varmq.Dispatch.Growth

namespace Varmq.Dispatch

open Interleaving

variable {s s' : Shared} {xs ys new ts : List Thread} {l l' : Thread} {c : Choice}

def isLoop : Thread → ℕ
  | .loop _ => 1
  | _ => 0

-- One from the check of the limit on, for the goroutine the free slot is meant for.
def claimOf : Thread → ℕ
  | .loop (.pending _) | .loop (.plan _) | .loop (.pick _) | .loop (.take _) => 1
  | l => busyOf l

structure Single (s : Shared) (ts : List Thread) : Prop where
  limit : s.concurrency = 1
  loops : total isLoop ts ≤ 1
  claims : total claimOf ts ≤ 1
  unpurged : ∀ pc, .purge pc ∉ ts

theorem claimOf_loop_le (pc : LoopPc) : claimOf (.loop pc) ≤ 1 := by
  cases pc <;> simp [claimOf,busyOf,loopBusy]

-- Only the check of the limit makes a claim.
structure Claims (s s' : Shared) (l l' : Thread) (new : List Thread) : Prop where
  claims : claimOf l' + total claimOf new ≤ claimOf l ∨
    (isLoop l = 1 ∧ claimOf l' + total claimOf new ≤ 1 ∧ s.busyWorkers < s.concurrency)
  loops : isLoop l' + total isLoop new = isLoop l
  limit : s'.concurrency = s.concurrency

theorem claimOf_again (cont : Bool) : claimOf (.loop (again cont)) = 0 := by cases cont <;> rfl

theorem loop_claims {pc pc' : LoopPc} (hs : loopStep s pc c = some (s',pc',new)) :
    Claims s s' (.loop pc) (.loop pc') new := by
  have hkeep : claimOf (.loop pc) = 1 → s'.concurrency = s.concurrency → new = [] →
      Claims s s' (.loop pc) (.loop pc') new := by
    rintro h1 h2 rfl
    exact ⟨.inl (by rw [total_nil,h1]; exact claimOf_loop_le pc'),rfl,h2⟩
  cases pc with
  | pending pc =>
    obtain ⟨rfl,b,rfl⟩ := loop_pending_frame hs
    exact hkeep rfl rfl rfl
  | plan pc =>
    obtain ⟨rfl,b,rfl⟩ := loop_plan_frame hs
    exact hkeep rfl rfl rfl
  | limit =>
    cases c <;> cases hs
    refine ⟨?_,rfl,rfl⟩
    split
    case isTrue hb => exact .inr ⟨rfl,Nat.le_refl _,hb⟩
    case isFalse => exact .inl (Nat.le_refl _)
  | select =>
    cases c <;> cases hs
    exact ⟨.inl (Nat.le_refl _),rfl,rfl⟩
  | active =>
    cases c <;> cases hs
    refine ⟨.inl ?_,rfl,rfl⟩
    split <;> exact Nat.le_refl _
  | giveBack k cont =>
    cases c <;> cases hs
    exact ⟨.inl (by rw [claimOf_again]; exact Nat.le_refl _),rfl,rfl⟩
  | send buf st cont =>
    cases c <;> cases hs
    exact ⟨.inl (by rw [claimOf_again]; exact Nat.le_refl _),rfl,rfl⟩
  | _ =>
    refine hkeep rfl ?_ ?_ <;> cases c <;> simp only [loopStep] at hs <;> grind

theorem batch_claims {b b' : Batch} {pc pc' : BatchPc} (hs : batchStep s b pc = some (s',b',pc')) :
    Claims s s' (.batch b pc) (.batch b' pc') [] := by
  have hc : s'.concurrency = s.concurrency := by
    cases pc <;> simp only [batchStep] at hs <;>
      grind [Shared.closeJob,Shared.closeJobs,Shared.setJob]
  have hb : busyOf (.batch b' pc') ≤ busyOf (.batch b pc) := by
    cases pc <;> simp only [batchStep] at hs <;> grind [busyOf]
  exact ⟨.inl hb,rfl,hc⟩

theorem step_claims (hs : step s l c = some (s',l',new)) : Claims s s' l l' new := by
  cases step_act hs with
  | loop hp => exact loop_claims hp
  | batch hp => exact batch_claims hp
  | @add pc pc' s' hp =>
    refine ⟨.inl (Nat.le_refl _),rfl,?_⟩
    cases pc <;> cases c <;> simp only [addStep] at hp <;>
      grind [Shared.closeJob,Shared.closeJobs,Shared.setJob]
  | close => exact ⟨.inl (Nat.le_refl _),rfl,rfl⟩
  | @purge pc pc' s' hp =>
    refine ⟨.inl (Nat.le_refl _),rfl,?_⟩
    cases pc with
    | closing js =>
      cases js <;> cases hp
      rfl
    | _ =>
      simp only [purgeStep] at hp
      grind [Shared.closeJobs]
  | @queue pc pc' s' hp => cases pc <;> cases hp <;> exact ⟨.inl (Nat.le_refl _),rfl,rfl⟩
  | @wait js pc pc' s' hp =>
    obtain ⟨b,rfl⟩ := wait_frame hp
    exact ⟨.inl (Nat.le_refl _),rfl,rfl⟩
  | lifecycle => exact ⟨.inl (Nat.le_refl _),rfl,rfl⟩

end Varmq.Dispatch
