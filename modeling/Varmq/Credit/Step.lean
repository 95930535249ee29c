import Varmq.Credit.Basic

namespace Varmq.Credit

open Interleaving
open Varmq.Worker (Status)

variable {s s' : Shared} {c : Choice} {l l' : Thread} {new : List Thread} {xs ys ts : List Thread}

inductive Act (s : Shared) (c : Choice) : Thread → Shared → Thread → List Thread → Prop
  | core {t t' : Lifecycle.Thread} {h h' : Look} {d : Lifecycle.Choice} {core : Lifecycle.Shared}
      {new : List Lifecycle.Thread} (hc : c = .core d) (ha : advance s t h d = some h')
      (hp : Lifecycle.step s.core t d = some (core,t',new)) :
      Act s c (.worker t h) { s with core } (.worker t' h') (new.map lift)
  | look {t : Lifecycle.Thread} {h h' : Look} {src : Source} {new : List Thread}
      (hp : lookStep s.src t h c = some (src,h',new)) :
      Act s c (.worker t h) { s with src } (.worker t h') new
  | add {pc pc' : AddPc} {s' : Shared} (hp : addStep s pc = some (s',pc')) :
      Act s c (.add pc) s' (.add pc') []
  | enqueue : Act s c (.enqueue false) { s with src.storage := s.src.storage + 1 } (.enqueue true)
      (announcements s.src)
  | announce {pc pc' : AddPc} {s' : Shared} (hp : announceStep s pc = some (s',pc')) :
      Act s c (.announce pc) s' (.announce pc') []
  | resync {pc pc' : ResyncPc} {s' : Shared} {new : List Thread}
      (hp : resyncStep s pc = some (s',pc',new)) : Act s c (.resync pc) s' (.resync pc') new
  | len {pc pc' : LenPc} {s' : Shared} {new : List Thread}
      (hp : lenStep s pc = some (s',pc',new)) : Act s c (.len pc) s' (.len pc') new
  | other {pc pc' : OtherPc} {s' : Shared} (hp : otherStep s pc = some (s',pc')) :
      Act s c (.other pc) s' (.other pc') []
  | distributed {pc pc' : DistributedPc} {s' : Shared} (hp : distributedStep s pc = some (s',pc')) :
      Act s c (.distributed pc) s' (.distributed pc') []

theorem step_act (hs : step s l c = some (s',l',new)) : Act s c l s' l' new := by
  unfold step at hs
  split at hs
  · split at hs <;> cases hs
    exact .core rfl ‹_› ‹_›
  · obtain ⟨⟨src,h',new⟩,hp,heq⟩ := Option.map_eq_some_iff.mp hs
    cases heq
    exact .look hp
  · obtain ⟨⟨s₁,pc'⟩,hp,heq⟩ := Option.map_eq_some_iff.mp hs
    cases heq
    exact .add hp
  · cases hs
    exact .enqueue
  · obtain ⟨⟨s₁,pc'⟩,hp,heq⟩ := Option.map_eq_some_iff.mp hs
    cases heq
    exact .announce hp
  · obtain ⟨⟨s₁,pc',new⟩,hp,heq⟩ := Option.map_eq_some_iff.mp hs
    cases heq
    exact .resync hp
  · obtain ⟨⟨s₁,pc',new⟩,hp,heq⟩ := Option.map_eq_some_iff.mp hs
    cases heq
    exact .len hp
  · obtain ⟨⟨s₁,pc'⟩,hp,heq⟩ := Option.map_eq_some_iff.mp hs
    cases heq
    exact .other hp
  · obtain ⟨⟨s₁,pc'⟩,hp,heq⟩ := Option.map_eq_some_iff.mp hs
    cases heq
    exact .distributed hp
  · cases hs

-- The goroutine as the worker's lifecycle sees it.
def coreOf : Thread → Lifecycle.Thread
  | .worker t _ => t
  | _ => .notify true

theorem core_lift (ts : List Lifecycle.Thread) : (ts.map lift).map coreOf = ts := by
  rw [List.map_map]
  exact List.map_id ts

-- A step either is one of the lifecycle or leaves it alone but for the signal.
def Cored (s s' : Shared) (l l' : Thread) (new : List Thread) : Prop :=
  (∃ d, Lifecycle.step s.core (coreOf l) d = some (s'.core,coreOf l',new.map coreOf)) ∨
    (s'.core = s.core ∨ s'.core = { s.core with signal := true }) ∧ coreOf l' = coreOf l ∧
      ∀ t ∈ new, coreOf t = .notify true

theorem armStep_new (s : Source) (pc : ArmPc) : ∀ t ∈ (armStep s pc).2.2, t = .resync .timer := by
  intro t ht
  cases pc with
  | load => cases ht
  | cas =>
    simp only [armStep] at ht
    split at ht
    · cases ht
    · exact List.mem_singleton.mp ht

theorem checkStep_new {h h' : Look} {src src' : Source} {b : Bool}
    (hs : checkStep src b h c = some (src',h',new)) : ∀ t ∈ new, t = .resync .timer := by
  unfold checkStep at hs
  split at hs
  · obtain ⟨pc,-,heq⟩ := Option.map_eq_some_iff.mp hs
    cases heq
    exact fun t ht => by cases ht
  · split at hs <;> cases hs
    exact fun t ht => by cases ht
  · obtain ⟨pc,-,heq⟩ := Option.map_eq_some_iff.mp hs
    cases heq
    exact fun t ht => by cases ht
  · cases hs
    exact armStep_new _ _
  · cases hs

theorem fetchStep_new {h h' : Look} {src src' : Source} {want : ℕ}
    (hs : fetchStep src want h c = some (src',h',new)) : ∀ t ∈ new, t = .resync .timer := by
  unfold fetchStep at hs
  split at hs
  case h_2 =>
    obtain ⟨pc,-,heq⟩ := Option.map_eq_some_iff.mp hs
    cases heq
    exact fun t ht => by cases ht
  case h_7 =>
    cases hs
    exact armStep_new _ _
  all_goals
    cases hs <;> exact fun t ht => by cases ht

theorem nextStep_new {h h' : Look} {src src' : Source}
    (hs : nextStep src h c = some (src',h',new)) : new = [] := by
  unfold nextStep at hs
  split at hs
  · cases hs
    rfl
  · split at hs <;> cases hs <;> rfl
  · split at hs <;> cases hs
    rfl
  · split at hs <;> cases hs
    rfl
  · cases hs

theorem lookStep_new {t : Lifecycle.Thread} {h h' : Look} {src src' : Source}
    (hs : lookStep src t h c = some (src',h',new)) : ∀ t ∈ new, t = .resync .timer := by
  unfold lookStep at hs
  split at hs
  · split at hs <;> cases hs
    exact fun t ht => by cases ht
  · split at hs <;> cases hs
    exact fun t ht => by cases ht
  · exact checkStep_new hs
  · exact checkStep_new hs
  · exact fetchStep_new hs
  · rw [nextStep_new hs]
    exact fun t ht => by cases ht
  · cases hs

theorem announce_add {pc pc' : AddPc} (hs : announceStep s pc = some (s',pc')) :
    addStep s pc = some (s',pc') ∧ pc ≠ .store := by
  cases pc with
  | store => cases hs
  | _ => exact ⟨hs,fun h => by cases h⟩

theorem add_core {pc pc' : AddPc} (hs : addStep s pc = some (s',pc')) :
    s'.core = s.core ∨ s'.core = { s.core with signal := true } := by
  cases pc <;> cases hs <;> first | exact .inl rfl | exact .inr rfl

theorem resync_new {pc pc' : ResyncPc} (hs : resyncStep s pc = some (s',pc',new)) :
    (s'.core = s.core ∨ s'.core = { s.core with signal := true }) ∧
      ∀ t ∈ new, t = .resync .timer := by
  cases pc with
  | ready pc =>
    obtain ⟨pc',-,heq⟩ := Option.map_eq_some_iff.mp hs
    cases heq
    exact ⟨.inl rfl,fun t ht => by cases ht⟩
  | arm pc =>
    cases hs
    exact ⟨.inl rfl,armStep_new _ _⟩
  | signal =>
    cases hs
    exact ⟨.inr rfl,fun t ht => by cases ht⟩
  | _ => cases hs <;> exact ⟨.inl rfl,fun t ht => by cases ht⟩

theorem len_new {pc pc' : LenPc} (hs : lenStep s pc = some (s',pc',new)) :
    s'.core = s.core ∧ ∀ t ∈ new, t = .resync .timer := by
  unfold lenStep at hs
  split at hs
  · cases hs
    exact ⟨rfl,fun t ht => by cases ht⟩
  · obtain ⟨pc',-,heq⟩ := Option.map_eq_some_iff.mp hs
    cases heq
    exact ⟨rfl,fun t ht => by cases ht⟩
  · cases hs
    exact ⟨rfl,armStep_new _ _⟩
  · cases hs

theorem other_core {pc pc' : OtherPc} (hs : otherStep s pc = some (s',pc')) :
    s'.core = s.core ∨ s'.core = { s.core with signal := true } := by
  cases pc <;> simp only [otherStep] at hs
  case bindLock =>
    split at hs <;> cases hs
    exact .inl rfl
  case removeLock =>
    split at hs <;> cases hs
    exact .inl rfl
  case remove =>
    split at hs
    · cases hs
      exact .inl rfl
    · split at hs <;> cases hs <;> exact .inl rfl
  all_goals
    cases hs <;> first | exact .inl rfl | exact .inr rfl

theorem distributed_core {pc pc' : DistributedPc} (hs : distributedStep s pc = some (s',pc')) :
    s'.core = s.core ∨ s'.core = { s.core with signal := true } := by
  cases pc <;> simp only [distributedStep] at hs
  case lock =>
    split at hs <;> cases hs
    exact .inl rfl
  all_goals
    cases hs <;> first | exact .inl rfl | exact .inr rfl

theorem timer_core (h : ∀ t ∈ new, t = .resync .timer) : ∀ t ∈ new, coreOf t = .notify true := by
  intro t ht
  rw [h t ht]
  rfl

theorem act_cored (hs : Act s c l s' l' new) : Cored s s' l l' new := by
  cases hs with
  | @core t t' h h' d core new hc ha hp =>
    refine .inl ⟨d,?_⟩
    rw [core_lift]
    exact hp
  | look hp => exact .inr ⟨.inl rfl,rfl,timer_core (lookStep_new hp)⟩
  | add hp => exact .inr ⟨add_core hp,rfl,fun t ht => by cases ht⟩
  | enqueue =>
    refine .inr ⟨.inl rfl,rfl,fun t ht => ?_⟩
    unfold announcements at ht
    split at ht
    · rw [List.mem_singleton.mp ht]
      rfl
    · cases ht
  | announce hp => exact .inr ⟨add_core (announce_add hp).1,rfl,fun t ht => by cases ht⟩
  | resync hp => exact .inr ⟨(resync_new hp).1,rfl,timer_core (resync_new hp).2⟩
  | len hp => exact .inr ⟨.inl (len_new hp).1,rfl,timer_core (len_new hp).2⟩
  | other hp => exact .inr ⟨other_core hp,rfl,fun t ht => by cases ht⟩
  | distributed hp => exact .inr ⟨distributed_core hp,rfl,fun t ht => by cases ht⟩

theorem sum_notify {ts : List Lifecycle.Thread} (h : ∀ t ∈ ts, t = .notify true) :
    Lifecycle.sum ts = .zero := by
  induction ts with
  | nil => rfl
  | cons t ts ih =>
    rw [Lifecycle.sum_cons,h t List.mem_cons_self,ih fun u hu => h u (List.mem_cons_of_mem _ hu)]
    rfl

theorem core_act (h : Lifecycle.Inv s.core ((xs ++ l :: ys).map coreOf)) (hs : Act s c l s' l' new) :
    Lifecycle.Inv s'.core ((xs ++ l' :: (ys ++ new)).map coreOf) := by
  rw [List.map_append,List.map_cons] at h
  rw [List.map_append,List.map_cons,List.map_append]
  rcases act_cored hs with ⟨d,hp⟩ | ⟨hc,hl,hn⟩
  · exact Lifecycle.inv_act h hp
  · have hnew : ∀ t ∈ new.map coreOf, t = .notify true := by
      intro t ht
      obtain ⟨u,hu,rfl⟩ := List.mem_map.mp ht
      exact hn u hu
    refine ⟨?_,fun t ht => ?_⟩
    · have hb := h.balanced
      have hsum : Lifecycle.sum (xs.map coreOf ++ coreOf l' :: (ys.map coreOf ++ new.map coreOf)) =
          Lifecycle.sum (xs.map coreOf ++ coreOf l :: ys.map coreOf) := by
        simp only [Lifecycle.sum_append,Lifecycle.sum_cons,hl,sum_notify hnew,
          Lifecycle.Weights.add_zero]
      rw [hsum]
      rcases hc with hc | hc
      · rw [hc]
        exact hb
      · exact hb.frame (by rw [hc]) (by rw [hc]) (by rw [hc])
    · rcases mem_act ht with ht | rfl | ht
      · exact h.sized t (mem_of_other ht)
      · rw [hl]
        exact h.sized _ (by simp)
      · rw [hnew t ht]
        trivial

theorem entry_core {t : Lifecycle.Thread} (h : isCall t = true) : Lifecycle.entry s.core t = true := by
  unfold isCall at h
  split at h <;> first | rfl | cases h

theorem core_call (h : Lifecycle.Inv s.core (ts.map coreOf)) (he : entry s l = true) :
    Lifecycle.Inv s.core ((ts ++ [l]).map coreOf) := by
  rw [List.map_append]
  have hother : Lifecycle.Inv s.core (ts.map coreOf ++ [.notify true]) := by
    refine ⟨?_,forall_call h.sized trivial⟩
    have hb := h.balanced
    rw [Lifecycle.sum_append]
    exact hb
  unfold entry at he
  split at he
  · exact Lifecycle.inv_call h (entry_core he)
  · exact hother
  · exact hother
  · exact hother
  · exact hother
  · exact hother
  · cases he

end Varmq.Credit
