import Varmq.Wakeup.Refine

namespace Varmq.Wakeup

open Interleaving
open Varmq.Dispatch (Batch PendingPc AddPc QueuePc PurgePc Choice)

variable {cfg : Config} {s s' : Shared} {c : Choice} {l l' : Thread} {new ts xs ys : List Thread}

-- Between the counter and the link of a push, or the other way round in a pop.
def inFlight : Thread → ℕ
  | .loop (.popLen _ _ _) | .loop (.pushNode _ _) => 1
  | .batch _ _ .pushNode => 1
  | .tunePool (.popLen _ _) => 1
  | .prune (.scanLen _ _) => 1
  | _ => 0

def holdsPop : Thread → ℕ
  | .loop (.popLen _ _ _) => 1
  | .tunePool (.popLen _ _) => 1
  | .prune (.scan _ _) | .prune (.scanLen _ _) => 1
  | _ => 0

-- What Prune may still take leaves `keep` nodes.
def Spares (s : Shared) : Thread → Prop
  | .prune (.len keep) | .prune (.prune keep) => 0 < keep
  | .prune (.scan keep left) => 0 < keep ∧ (0 < left → keep + left ≤ s.nodes)
  | .prune (.scanLen keep left) => 0 < keep ∧ keep + left ≤ s.nodes
  | _ => True

structure PoolStep (s s' : Shared) (l l' : Thread) : Prop where
  count : ∀ y, s.len = s.nodes + (y + inFlight l) → s'.len = s'.nodes + (y + inFlight l')
  mutex : ∀ y, s.popMx.toNat = y + holdsPop l → s'.popMx.toNat = y + holdsPop l'
  taken : s.nodes ≤ s'.nodes ∨ s.popMx = false ∨ holdsPop l = 1

theorem PoolStep.frame (h1 : s'.len = s.len) (h2 : s'.nodes = s.nodes) (h3 : s'.popMx = s.popMx)
    (h4 : inFlight l' = inFlight l) (h5 : holdsPop l' = holdsPop l) : PoolStep s s' l l' :=
  ⟨fun y hy => by omega,fun y hy => by rw [h3]; omega,.inl (by omega)⟩

theorem frame_next (d : Dispatch.Shared) (pc pc' : Dispatch.LoopPc) :
    inFlight (.loop (next d pc pc')) = 0 ∧ holdsPop (.loop (next d pc pc')) = 0 := by
  have he : inFlight (.loop (enter pc')) = 0 ∧ holdsPop (.loop (enter pc')) = 0 := by
    cases pc' <;> exact ⟨rfl,rfl⟩
  unfold next
  split
  · split <;> exact ⟨rfl,rfl⟩
  · split <;> exact ⟨rfl,rfl⟩
  · exact he

theorem loop_pool {pc pc' : LoopPc} (hs : loopStep s pc c = some (s',pc',new)) :
    PoolStep s s' (.loop pc) (.loop pc') := by
  cases pc with
  | on pc =>
    rcases loop_on hs with ⟨rfl,-,rfl,rfl,rfl⟩ | ⟨rfl,rfl,rfl,rfl⟩ | ⟨-,-,-,d,pc₁,new₁,hp,rfl,rfl,rfl⟩
    · exact .frame rfl rfl rfl rfl rfl
    · exact .frame rfl rfl rfl rfl rfl
    · obtain ⟨h1,h2⟩ := frame_next d pc pc₁
      exact .frame rfl rfl rfl h1 h2
  | popBack n busy alive shares grow =>
    cases c <;> simp only [loopStep] at hs <;> try cases hs
    split at hs
    · cases hs
    · rename_i hmx
      split at hs <;> cases hs
      · cases grow <;> exact .frame rfl rfl rfl rfl rfl
      · refine ⟨fun y hy => ?_,fun y hy => ?_,.inr (.inl (by simpa using hmx))⟩
        · simp only [inFlight] at hy ⊢
          omega
        · simp only [Bool.eq_false_iff.mpr hmx,holdsPop,Bool.toNat_false,Bool.toNat_true] at hy ⊢
          omega
  | popLen n alive shares =>
    cases c <;> cases hs
    refine ⟨fun y hy => ?_,fun y hy => ?_,.inl (Nat.le_refl _)⟩
    · simp only [inFlight] at hy ⊢
      omega
    · have hle := Bool.toNat_le s.popMx
      simp only [holdsPop,Bool.toNat_false] at hy ⊢
      omega
  | pushLen k cont =>
    cases c <;> cases hs
    refine ⟨fun y hy => ?_,fun y hy => hy,.inl (Nat.le_refl _)⟩
    simp only [inFlight] at hy ⊢
    omega
  | pushNode k cont =>
    cases c <;> cases hs
    refine ⟨fun y hy => ?_,fun y hy => hy,.inl (by simp)⟩
    simp only [inFlight] at hy ⊢
    omega
  | budget n alive shares =>
    cases c <;> cases hs
    split <;> exact .frame rfl rfl rfl rfl rfl
  | _ =>
    cases c <;> cases hs
    exact .frame rfl rfl rfl rfl rfl

theorem batch_pool {b b' : Batch} {ran ran' : ℕ} {pc pc' : BatchPc}
    (hs : batchStep cfg s b ran pc c = some (s',b',ran',pc')) :
    PoolStep s s' (.batch b ran pc) (.batch b' ran' pc') := by
  cases pc with
  | on pc =>
    rcases batch_on hs with ⟨rfl,rfl,rfl,rfl | rfl⟩ | ⟨rfl,rfl,rfl,rfl⟩ | ⟨-,-,d,pc₁,hp,rfl,rfl⟩
    · exact .frame rfl rfl rfl rfl rfl
    · exact .frame rfl rfl rfl rfl rfl
    · exact .frame rfl rfl rfl rfl rfl
    · cases pc₁ <;> exact .frame rfl rfl rfl rfl rfl
  | pending pc =>
    obtain ⟨rfl,⟨n,rfl,rfl⟩ | ⟨d,pc₁,hp,rfl,rfl⟩⟩ := batch_pending hs <;>
      exact .frame rfl rfl rfl rfl rfl
  | pushLen =>
    cases c <;> cases hs
    refine ⟨fun y hy => ?_,fun y hy => hy,.inl (Nat.le_refl _)⟩
    simp only [inFlight] at hy ⊢
    omega
  | pushNode =>
    cases c <;> cases hs
    refine ⟨fun y hy => ?_,fun y hy => hy,.inl (by simp)⟩
    simp only [inFlight] at hy ⊢
    omega
  | len n | minIdle n =>
    cases c <;> cases hs
    split <;> exact .frame rfl rfl rfl rfl rfl
  | _ =>
    cases c <;> cases hs
    exact .frame rfl rfl rfl rfl rfl

theorem tunePool_pool {pc pc' : TunePc} (hs : tunePoolStep cfg s pc = some (s',pc')) :
    PoolStep s s' (.tunePool pc) (.tunePool pc') := by
  cases pc with
  | popBack shrink m =>
    simp only [tunePoolStep] at hs
    split at hs
    · cases hs
    · rename_i hmx
      split at hs <;> cases hs
      · exact .frame rfl rfl rfl rfl rfl
      · refine ⟨fun y hy => ?_,fun y hy => ?_,.inr (.inl (by simpa using hmx))⟩
        · simp only [inFlight] at hy ⊢
          omega
        · simp only [Bool.eq_false_iff.mpr hmx,holdsPop,Bool.toNat_false,Bool.toNat_true] at hy ⊢
          omega
  | popLen shrink m =>
    cases hs
    refine ⟨fun y hy => ?_,fun y hy => ?_,.inl (Nat.le_refl _)⟩
    · simp only [inFlight] at hy ⊢
      omega
    · have hle := Bool.toNat_le s.popMx
      simp only [holdsPop,Bool.toNat_false] at hy ⊢
      omega
  | store old safe =>
    cases hs
    split
    · exact .frame rfl rfl rfl rfl rfl
    · split <;> exact .frame rfl rfl rfl rfl rfl
  | active n | load n | len shrink m =>
    cases hs
    split <;> exact .frame rfl rfl rfl rfl rfl
  | returned r => cases hs
  | _ =>
    cases hs
    exact .frame rfl rfl rfl rfl rfl

theorem prune_pool {pc pc' : PrunePc} (hsp : Spares s (.prune pc))
    (hs : pruneStep cfg s pc c = some (s',pc')) :
    PoolStep s s' (.prune pc) (.prune pc') ∧ Spares s' (.prune pc') := by
  cases pc with
  | target =>
    cases c <;> cases hs
    refine ⟨.frame rfl rfl rfl rfl rfl,?_⟩
    simp only [Spares,numMinIdleWorkers]
    omega
  | len keep =>
    cases c <;> cases hs
    split
    · exact ⟨.frame rfl rfl rfl rfl rfl,trivial⟩
    · exact ⟨.frame rfl rfl rfl rfl rfl,hsp⟩
  | prune keep =>
    cases c <;> simp only [pruneStep] at hs <;> try cases hs
    split at hs
    · cases hs
    · rename_i hmx
      cases hs
      refine ⟨⟨fun y hy => hy,fun y hy => ?_,.inl (Nat.le_refl _)⟩,hsp,?_⟩
      · simp only [Bool.eq_false_iff.mpr hmx,holdsPop,Bool.toNat_false,Bool.toNat_true] at hy ⊢
        omega
      · intro hl
        simp only
        omega
  | scan keep left =>
    cases left with
    | zero =>
      cases c <;> cases hs
      refine ⟨⟨fun y hy => hy,fun y hy => ?_,.inl (Nat.le_refl _)⟩,trivial⟩
      have hle := Bool.toNat_le s.popMx
      simp only [holdsPop,Bool.toNat_false] at hy ⊢
      omega
    | succ left =>
      obtain ⟨hk,hn⟩ := hsp
      have hn := hn (Nat.succ_pos _)
      cases c with
      | flag drop =>
        cases drop <;> cases hs
        · exact ⟨.frame rfl rfl rfl rfl rfl,hk,fun _ => by omega⟩
        · refine ⟨⟨fun y hy => ?_,fun y hy => hy,.inr (.inr rfl)⟩,hk,?_⟩
          · simp only [inFlight] at hy ⊢
            omega
          · simp only
            omega
      | _ => cases hs
  | scanLen keep left =>
    cases c <;> cases hs
    refine ⟨⟨fun y hy => ?_,fun y hy => hy,.inl (Nat.le_refl _)⟩,hsp.1,fun _ => hsp.2⟩
    simp only [inFlight] at hy ⊢
    omega
  | done => cases c <;> cases hs

theorem step_pool (hsp : Spares s l) (hs : step cfg s l c = some (s',l',new)) :
    PoolStep s s' l l' ∧ Spares s' l' := by
  cases step_act hs with
  | loop hp => exact ⟨loop_pool hp,trivial⟩
  | batch hp => exact ⟨batch_pool hp,trivial⟩
  | add hp =>
    obtain ⟨⟨d,pc₁⟩,hd,heq⟩ := Option.map_eq_some_iff.mp hp
    cases heq
    exact ⟨.frame rfl rfl rfl rfl rfl,trivial⟩
  | close => exact ⟨.frame rfl rfl rfl rfl rfl,trivial⟩
  | purge hp => exact ⟨.frame rfl rfl rfl rfl rfl,trivial⟩
  | queue hp =>
    obtain ⟨⟨d,pc₁⟩,hd,heq⟩ := Option.map_eq_some_iff.mp hp
    cases heq
    exact ⟨.frame rfl rfl rfl rfl rfl,trivial⟩
  | @pause pc pc' s' hp =>
    cases pc with
    | call =>
      simp only [pauseStep] at hp
      split at hp <;> cases hp <;> exact ⟨.frame rfl rfl rfl rfl rfl,trivial⟩
    | returned r => cases hp
  | @resume pc pc' s' hp =>
    cases pc with
    | cas =>
      simp only [resumeStep] at hp
      split at hp <;> cases hp <;> exact ⟨.frame rfl rfl rfl rfl rfl,trivial⟩
    | returned r => cases hp
    | _ =>
      cases hp
      exact ⟨.frame rfl rfl rfl rfl rfl,trivial⟩
  | tunePool hp => exact ⟨tunePool_pool hp,trivial⟩
  | prune hp => exact prune_pool hsp hp
  | @start pc pc' s' hp =>
    cases pc <;> cases hp <;> exact ⟨.frame rfl rfl rfl rfl rfl,trivial⟩

theorem step_new (hs : step cfg s l c = some (s',l',new)) :
    ∀ t ∈ new, ∃ b ran pc, t = .batch b ran (.on pc) := by
  cases step_act hs with
  | @loop pc pc' s' new hp =>
    cases pc with
    | on pc =>
      rcases loop_on hp with ⟨rfl,-,rfl,rfl,rfl⟩ | ⟨rfl,rfl,rfl,rfl⟩ | ⟨-,-,-,d,pc₁,new₁,-,rfl,rfl,rfl⟩
      · simp
      · simp
      · intro t ht
        obtain ⟨u,-,hu⟩ := List.mem_flatMap.mp ht
        cases u with
        | batch b pc => exact ⟨b,0,pc,List.mem_singleton.mp hu⟩
        | _ => cases hu
    | _ =>
      have hn : new = [] := by cases c <;> simp only [loopStep] at hp <;> grind
      simp [hn]
  | _ => simp

structure Pooled (s : Shared) (ts : List Thread) : Prop where
  count : s.len = s.nodes + total inFlight ts
  mutex : s.popMx.toNat = total holdsPop ts
  spares : ∀ t ∈ ts, Spares s t

theorem total_new {f : Thread → ℕ} (hf : ∀ b ran pc, f (.batch b ran (.on pc)) = 0)
    (hs : step cfg s l c = some (s',l',new)) : total f new = 0 := by
  refine total_eq_zero.mpr fun t ht => ?_
  obtain ⟨b,ran,pc,rfl⟩ := step_new hs t ht
  exact hf b ran pc

-- Who holds popMx is the only one to take nodes away.
theorem spares_other {t : Thread} (hm : s.popMx.toNat = total holdsPop (xs ++ l :: ys))
    (ht : t ∈ xs ++ ys) (hsp : Spares s t) (hp : PoolStep s s' l l') : Spares s' t := by
  rw [total_split] at hm
  have hle := le_total (f := holdsPop) ht
  have hkeep : holdsPop t = 1 → s.nodes ≤ s'.nodes := by
    intro h1
    rcases hp.taken with h | h | h
    · exact h
    · rw [h,Bool.toNat_false] at hm
      omega
    · have := Bool.toNat_le s.popMx
      omega
  cases t with
  | prune pc =>
    cases pc with
    | scan keep left => exact ⟨hsp.1,fun hl => (hsp.2 hl).trans (hkeep rfl)⟩
    | scanLen keep left => exact ⟨hsp.1,hsp.2.trans (hkeep rfl)⟩
    | len keep => exact hsp
    | prune keep => exact hsp
    | _ => trivial
  | _ => trivial

theorem pooled_act (h : Pooled s (xs ++ l :: ys)) (hs : step cfg s l c = some (s',l',new)) :
    Pooled s' (xs ++ l' :: (ys ++ new)) := by
  obtain ⟨hp,hsp⟩ := step_pool (h.spares l (by simp)) hs
  have hc := h.count
  have hm := h.mutex
  have hn1 : total inFlight new = 0 := total_new (fun _ _ _ => rfl) hs
  have hn2 : total holdsPop new = 0 := total_new (fun _ _ _ => rfl) hs
  refine ⟨?_,?_,fun t ht => ?_⟩
  · rw [total_split] at hc
    have := hp.count _ hc
    rw [total_act]
    omega
  · rw [total_split] at hm
    have := hp.mutex _ hm
    rw [total_act]
    omega
  · rcases mem_act ht with ht | rfl | ht
    · exact spares_other hm ht (h.spares t (mem_of_other ht)) hp
    · exact hsp
    · obtain ⟨b,ran,pc,rfl⟩ := step_new hs t ht
      trivial

theorem pooled_call (h : Pooled s ts) (he : entry cfg s l = true) : Pooled s (ts ++ [l]) := by
  have hl : inFlight l = 0 ∧ holdsPop l = 0 ∧ Spares s l := by
    unfold entry at he
    split at he <;> first | exact ⟨rfl,rfl,trivial⟩ | cases he
  refine ⟨?_,?_,forall_call h.spares hl.2.2⟩
  · rw [total_call,hl.1]
    exact h.count
  · rw [total_call,hl.2.1]
    exact h.mutex

end Varmq.Wakeup
