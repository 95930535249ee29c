import Varmq.Lifecycle.Counters
import Varmq.Lifecycle.Quiet

namespace Varmq.Lifecycle

open Interleaving
open Varmq.Worker (Status Error)

variable {s s' : Shared} {l l' : Thread} {c : Choice} {new xs ys ts : List Thread}

-- Where a loop can be before the Start that launched it has stored idle.
def freshLoop : LoopPc → Bool
  | .select | .active | .creditActive | .wait .lock => true
  | _ => false

def Fresh (ts : List Thread) : Prop :=
  0 < (sum ts).launched → ∀ k pc, .loop k pc ∈ ts → 0 < (loopWeights pc).live → freshLoop pc = true

theorem not_live {k : ℕ} {pc : LoopPc} (h : (sum ts).live = 0) (hm : .loop k pc ∈ ts) :
    ¬0 < (loopWeights pc).live := by
  rw [sum_live,total_eq_zero] at h
  have h1 : (loopWeights pc).live = 0 := h _ hm
  omega

theorem locked_of_launched (hi : Inv s ts) (h : 0 < (sum ts).launched) : s.mx = true := by
  have h1 := (within_sum ts).held
  have h2 := hi.balanced.mutex
  split at h2
  · assumption
  · omega

theorem loop_launching (pc : LoopPc) : (loopWeights pc).launching = 0 := by
  cases pc with
  | finish pc r =>
    cases r <;> cases pc <;> rfl
  | wait pc => cases pc <;> rfl
  | _ => rfl

theorem live_or_ended (pc : LoopPc) :
    0 < (loopWeights pc).live ∨ pc = .stopWake ∨ pc = .stopUnlock ∨ pc = .exited := by
  cases pc with
  | finish pc r =>
    left
    cases r <;> exact Nat.lt_of_lt_of_le Nat.one_pos (Nat.le_add_right _ _)
  | wait pc => cases pc <;> exact .inl Nat.one_pos
  | stopWake => exact .inr (.inl rfl)
  | stopUnlock => exact .inr (.inr (.inl rfl))
  | exited => exact .inr (.inr (.inr rfl))
  | _ => exact .inl Nat.one_pos

theorem live_lost {k : ℕ} {pc pc' : LoopPc} (hs : loopStep s k pc c = some (s',pc',new))
    (hl : (loopWeights pc).live ≠ 0) (hl' : (loopWeights pc').live = 0) : pc = .stopStore := by
  have he : pc' = .stopWake ∨ pc' = .stopUnlock ∨ pc' = .exited := by
    rcases live_or_ended pc' with h | h
    · omega
    · exact h
  cases pc with
  | stopStore => rfl
  | stopWake | stopUnlock | exited => exact absurd rfl hl
  | wait q =>
    simp only [loopStep] at hs
    split at hs <;> cases hs <;> rcases he with h | h | h <;> cases h
  | finish pc r =>
    cases c <;> simp only [loopStep] at hs <;> try cases hs
    split at hs <;> cases hs
    · rcases he with h | h | h <;> cases h
    · cases r <;> rcases he with h | h | h <;> cases h
  | reserve m n | claim m n =>
    cases m <;> cases c <;> simp only [loopStep] at hs <;> grind [reserved,refused]
  | send n cont =>
    cases cont <;> cases c <;> simp only [loopStep] at hs <;> grind [afterSend,Ret.pc]
  | _ => cases c <;> simp only [loopStep] at hs <;> grind

theorem freshLoop_step {k : ℕ} {pc pc' : LoopPc} (hs : loopStep s k pc c = some (s',pc',new))
    (hf : freshLoop pc = true) (hm : s.mx = true) (ha : s.status.isActive = false) :
    freshLoop pc' = true := by
  unfold freshLoop at hf
  split at hf
  · cases c <;> simp only [loopStep] at hs <;> try cases hs
    · split at hs <;> cases hs
      rfl
    · split at hs <;> cases hs
      split <;> rfl
  · cases c <;> cases hs
    rw [ha]
    rfl
  · cases c <;> cases hs
    rw [ha]
    rfl
  · cases c <;> simp [loopStep,waitStep,hm] at hs
  · cases hf

theorem fresh_act (hi : Inv s (xs ++ l :: ys)) (h : Fresh (xs ++ l :: ys))
    (hs : step s l c = some (s',l',new)) : Fresh (xs ++ l' :: (ys ++ new)) := by
  intro hl k pc hm hlive
  have hb := hi.balanced
  rw [sum_act] at hl
  rw [Fresh,sum_split] at h
  rw [sum_split] at hb
  have ht := step_turn (hi.sized l (by simp)) hs
  by_cases h0 : 0 < ((sum (xs ++ ys)).add (weights l)).launched
  · obtain ⟨hq,-⟩ := hb.launched h0
    have ha : s.status.isActive = false := by rcases hq with hq | hq | hq <;> rw [hq] <;> rfl
    rcases mem_act hm with ho | rfl | hn
    · exact h h0 k pc (mem_of_other ho) hlive
    · cases step_act hs with
      | @loop k pc₀ pc s' new hp =>
        have hmx : s.mx = true := locked_of_launched hi (by rwa [sum_split])
        rcases live_or_ended pc₀ with hl₀ | rfl | rfl | rfl
        · exact freshLoop_step hp (h h0 k pc₀ (by simp) hl₀) hmx ha
        all_goals cases c <;> cases hp <;> cases hlive
    · rw [step_new_loop hs hn]
      rfl
  · -- Only a Start that launches a loop raises the count, and then no other loop is live.
    have hlaunch : weights l = { Weights.zero with crit := 1, launching := 1 } := by
      generalize (sum new).add (weights l') = b at ht hl
      generalize s.status = p, s'.status = q at ht
      cases ht with
      | flip _ hs => have := hs.launched; simp only [Weights.add] at h0 hl; omega
      | cancelled _ ha hb₁ => simp only [Weights.add,Weights.zero,hb₁] at h0 hl; omega
      | stopped ha hb₁ => simp only [Weights.add,Weights.zero,hb₁] at h0 hl; omega
      | launch ha _ => exact ha
      | store _ ha hb₁ => simp only [Weights.add,Weights.zero,hb₁] at h0 hl; omega
    have hnone : (sum (xs ++ l :: ys)).live = 0 := by
      have hq := hb.launching (by simp [Weights.add,hlaunch])
      have := hb.unlaunched hq
      rw [sum_split]
      omega
    rcases mem_act hm with ho | rfl | hn
    · exact absurd hlive (not_live hnone (mem_of_other ho))
    · cases step_act hs with
      | @loop k pc₀ pc s' new hp =>
        have h1 := loop_launching pc₀
        have h2 : (loopWeights pc₀).launching = 1 := congrArg Weights.launching hlaunch
        omega
    · rw [step_new_loop hs hn]
      rfl

theorem fresh_call (h : Fresh ts) (he : entry s l = true) : Fresh (ts ++ [l]) := by
  intro hl k pc hm hlive
  rw [sum_append,sum_cons,(entry_weights he).1] at hl
  rcases List.mem_append.mp hm with hm | hm
  · exact h hl k pc hm hlive
  · rw [← List.mem_singleton.mp hm] at he
    cases he

-- The goroutine has nothing counted and no node.
def resting : Thread → Bool
  | .loop _ pc => freshLoop pc || pc = .stopWake || pc = .stopUnlock || pc = .exited
  | l => !holdsBatch l

theorem resting_when_stopped (hi : Inv s ts) (hf : Fresh ts) (hq : s.status = .stopped) :
    ∀ t ∈ ts, resting t = true := by
  intro t ht
  cases t with
  | loop k pc =>
    simp only [resting,Bool.or_eq_true,decide_eq_true_eq]
    rcases live_or_ended pc with hl | rfl | rfl | rfl
    · have hlive := le_sum Weights.live rfl (fun _ _ => rfl) ht
      rw [hi.balanced.unlaunched (.inr hq)] at hlive
      exact .inl (.inl (.inl (hf (Nat.lt_of_lt_of_le hl hlive) k pc ht hl)))
    · exact .inl (.inl (.inr rfl))
    · exact .inl (.inr rfl)
    · exact .inr rfl
  | _ =>
    have hb := quiet_of_halted hi (by simp [halted,hq]) _ ht
    simp [resting,hb]

theorem resting_loop {k : ℕ} {pc : LoopPc} (h : resting (.loop k pc) = true) :
    freshLoop pc = true ∨ pc = .stopWake ∨ pc = .stopUnlock ∨ pc = .exited := by
  simpa only [resting,Bool.or_eq_true,decide_eq_true_eq,or_assoc] using h

theorem resting_idle {t : Thread} (h : resting t = true) : reservedBy t = 0 ∧ busyOf t = 0 := by
  cases t with
  | loop k pc =>
    rcases resting_loop h with hf | rfl | rfl | rfl
    · unfold freshLoop at hf
      split at hf
      case h_5 => cases hf
      all_goals exact ⟨rfl,rfl⟩
    all_goals exact ⟨rfl,rfl⟩
  | batch pc =>
    cases pc with
    | finish pc =>
      cases pc with
      | dec n => cases h
      | _ => exact ⟨rfl,rfl⟩
    | notify => exact ⟨rfl,rfl⟩
    | done => exact ⟨rfl,rfl⟩
    | _ => cases h
  | pause pc => cases pc <;> exact ⟨rfl,rfl⟩
  | resume pc => cases pc <;> exact ⟨rfl,rfl⟩
  | stop pc => cases pc <;> exact ⟨rfl,rfl⟩
  | start pc => cases pc <;> exact ⟨rfl,rfl⟩
  | restart pc =>
    cases pc with
    | stop pc => cases pc <;> exact ⟨rfl,rfl⟩
    | start pc => cases pc <;> exact ⟨rfl,rfl⟩
    | _ => exact ⟨rfl,rfl⟩
  | broadcast pc => cases pc <;> exact ⟨rfl,rfl⟩
  | _ => exact ⟨rfl,rfl⟩

end Varmq.Lifecycle
