import Varmq.Lifecycle.Launch
import Varmq.Waiters.Driven

namespace Varmq.Waiters

open Interleaving
open Varmq.Worker (Status)
open Varmq.Lifecycle (Choice FinishPc WaitKind WaitPc LoopPc BatchPc PausePc ResumePc StopPc StartPc
  RestartPc BroadcastPc weights Served)

section Worker

variable {s s' : Lifecycle.Shared} {l l' : Lifecycle.Thread} {c : Choice}
  {new xs ys ts : List Lifecycle.Thread}

-- Who will move the status on, as long as it is one that somebody has to move on.
structure Driven (s : Lifecycle.Shared) (ts : List Lifecycle.Thread) : Prop where
  sized : ∀ t ∈ ts, Batched t
  reverts : s.curProcessing = 0 → (∃ t ∈ ts, reverting t = true) → ∃ t ∈ ts, entering t = true
  moves : ∀ q, moving q = true → s.status = q → s.curProcessing = 0 →
    ∃ t ∈ ts, settles q t = true
  stops : s.status = .stopping → s.ctxDone s.ctx = true ∨ ∃ t ∈ ts, ends t = true
  current : ∀ k pc, .loop k pc ∈ ts → 0 < (Lifecycle.loopWeights pc).live → k = s.ctx

theorem driven_newWorker (n : ℕ) :
    Driven (Lifecycle.newWorker n).shared (Lifecycle.newWorker n).threads :=
  ⟨(fun t h => by cases h),(fun _ h => by obtain ⟨t,ht,-⟩ := h; cases ht),
    (fun q hq hs _ => by subst hs; cases hq),(fun h => by cases h),(fun k pc h => by cases h)⟩

theorem entry_driven (he : Lifecycle.entry s l = true) :
    Batched l ∧ reverting l = false ∧ ∀ k pc, l ≠ .loop k pc := by
  unfold Lifecycle.entry at he
  split at he <;> first
    | exact ⟨trivial,rfl,fun _ _ h => by cases h⟩
    | cases he

theorem exists_call {p : Lifecycle.Thread → Prop} (h : ∃ t ∈ ts, p t) : ∃ t ∈ ts ++ [l], p t := by
  obtain ⟨t,ht,hp⟩ := h
  exact ⟨t,List.mem_append_left _ ht,hp⟩

theorem driven_call (h : Driven s ts) (he : Lifecycle.entry s l = true) : Driven s (ts ++ [l]) := by
  obtain ⟨hb,hr,hn⟩ := entry_driven he
  refine ⟨forall_call h.sized hb,fun hz hx => ?_,fun q hm hq hz => exists_call (h.moves q hm hq hz),
    fun hq => (h.stops hq).imp_right exists_call,fun k pc hm hl => ?_⟩
  · obtain ⟨t,ht,htr⟩ := hx
    rcases List.mem_append.mp ht with ht | ht
    · exact exists_call (h.reverts hz ⟨t,ht,htr⟩)
    · rw [List.mem_singleton.mp ht,hr] at htr
      cases htr
  · rcases List.mem_append.mp hm with hm | hm
    · exact h.current k pc hm hl
    · exact absurd (List.mem_singleton.mp hm).symm (hn k pc)

theorem reverting_crit (h : reverting l = true) : 0 < (weights l).crit := by
  unfold reverting at h
  split at h
  · rename_i r
    cases r <;> exact Nat.one_pos
  · exact Nat.one_pos
  · cases h

theorem settles_entering {q : Status} (h : entering l = true) : settles q l = true := by
  unfold entering at h
  split at h <;> first | rfl | cases h

theorem not_both (h : entering l = true) : reverting l = false := by
  unfold entering at h
  split at h <;> first | rfl | cases h

theorem locked_of_crit (hi : Lifecycle.Inv s ts) {t : Lifecycle.Thread} (ht : t ∈ ts)
    (hc : 0 < (weights t).crit) : s.mx = true := by
  have h1 := Lifecycle.le_sum Lifecycle.Weights.crit rfl (fun _ _ => rfl) ht
  have h2 := hi.balanced.mutex
  split at h2
  · assumption
  · omega

-- Whoever goes back to running leaves a goroutine that waits for w.mx behind.
theorem entering_other (hi : Lifecycle.Inv s (xs ++ l :: ys)) (h : Driven s (xs ++ l :: ys))
    (hd : Drives s s' l l') (hz : s.curProcessing = 0)
    (hr : ∃ t ∈ xs ++ l :: ys, reverting t = true) : ∃ u ∈ xs ++ ys, entering u = true := by
  obtain ⟨u,hu,hue⟩ := h.reverts hz hr
  obtain ⟨t,ht,htr⟩ := hr
  rcases mem_split hu with hu | rfl
  · exact ⟨u,hu,hue⟩
  · have h1 := locked_of_crit hi ht (reverting_crit htr)
    rw [hd.enters hue] at h1
    cases h1

theorem no_live_of_launching (hi : Lifecycle.Inv s ts) {t : Lifecycle.Thread} (ht : t ∈ ts)
    (hl : 0 < (weights t).launching) : (Lifecycle.sum ts).live = 0 := by
  have h1 := Lifecycle.le_sum Lifecycle.Weights.launching rfl (fun _ _ => rfl) ht
  have h2 := (Lifecycle.within_sum ts).held
  have h3 := hi.balanced.mutex
  have h4 := hi.balanced.unlaunched (hi.balanced.launching (by omega))
  split at h3 <;> omega

theorem loop_new {k : ℕ} {pc pc' : LoopPc} (hs : Lifecycle.loopStep s k pc c = some (s',pc',new)) :
    ∀ t ∈ new, (∃ n, t = .batch (.check n 0)) ∨ t = .broadcast .lock := by
  cases pc with
  | finish pc r =>
    cases c <;> simp only [Lifecycle.loopStep] at hs <;> try cases hs
    split at hs <;> cases hs <;> simp
  | wait pc =>
    simp only [Lifecycle.loopStep] at hs
    split at hs <;> cases hs
    · simp
    · split <;> simp
  | _ => cases c <;> simp only [Lifecycle.loopStep] at hs <;> grind

theorem start_new {pc pc' : StartPc} (hs : Lifecycle.startStep s pc = some (s',pc',new)) :
    ∀ t ∈ new, t = .loop s'.ctx .select := by
  cases pc <;> simp only [Lifecycle.startStep] at hs <;> grind

theorem new_spawned (hs : Lifecycle.step s l c = some (s',l',new)) :
    ∀ t ∈ new, t = .loop s'.ctx .select ∨ (∃ n, t = .batch (.check n 0)) ∨ t = .broadcast .lock := by
  cases Lifecycle.step_act hs with
  | loop hp => exact fun t ht => .inr (loop_new hp t ht)
  | start hp => exact fun t ht => .inl (start_new hp t ht)
  | @restart pc pc' s' new hp =>
    cases pc with
    | stop pc =>
      rcases Lifecycle.restart_stop hp with ⟨seen,moved,r,rfl,rfl,rfl,rfl⟩ | ⟨pc₁,hp,rfl,rfl⟩ <;> simp
    | start pc =>
      rcases Lifecycle.restart_start hp with ⟨r,rfl,rfl,rfl,rfl⟩ | ⟨pc₁,hp₁,rfl⟩
      · simp
      · exact fun t ht => .inl (start_new hp₁ t ht)
    | _ => simp only [Lifecycle.restartStep] at hp; grind
  | @waiter k pc pc' s' armed hp => cases armed <;> simp [Lifecycle.waiterThreads]
  | _ => simp

theorem new_batched (hs : Lifecycle.step s l c = some (s',l',new)) :
    ∀ t ∈ new, Batched t ∧ reverting t = false := by
  intro t ht
  rcases new_spawned hs t ht with rfl | ⟨n,rfl⟩ | rfl <;> exact ⟨trivial,rfl⟩

theorem new_loop (hs : Lifecycle.step s l c = some (s',l',new)) {k : ℕ} {pc : LoopPc}
    (hm : .loop k pc ∈ new) : k = s'.ctx := by
  rcases new_spawned hs _ hm with h | ⟨n,h⟩ | h <;> cases h
  rfl

theorem live_before {k : ℕ} {pc pc' : LoopPc} (hs : Lifecycle.loopStep s k pc c = some (s',pc',new))
    (hl : 0 < (Lifecycle.loopWeights pc').live) : 0 < (Lifecycle.loopWeights pc).live := by
  rcases Lifecycle.live_or_ended pc with h | rfl | rfl | rfl
  · exact h
  all_goals cases c <;> cases hs <;> cases hl

theorem driven_act (hi : Lifecycle.Inv s (xs ++ l :: ys)) (h : Driven s (xs ++ l :: ys))
    (hs : Lifecycle.step s l c = some (s',l',new)) : Driven s' (xs ++ l' :: (ys ++ new)) := by
  have hl : l ∈ xs ++ l :: ys := by simp
  have hn := new_batched hs
  have hc : Lifecycle.reservedBy l ≤ s.curProcessing := by
    rw [hi.balanced.counted]
    exact Lifecycle.le_sum Lifecycle.Weights.reserved rfl (fun _ _ => rfl) hl
  have hq : 0 < (weights l).launching → s.status ≠ .stopping := by
    intro h1 h2
    have h3 := Lifecycle.le_sum Lifecycle.Weights.launching rfl (fun _ _ => rfl) hl
    rcases hi.balanced.launching (by omega) with h4 | h4 <;> rw [h2] at h4 <;> cases h4
  have hd := step_drives (h.sized l hl) hc hq hs
  have hl' : l' ∈ xs ++ l' :: (ys ++ new) := by simp
  refine ⟨forall_act (fun t ht => h.sized t (mem_of_other ht)) hd.sized fun t ht => (hn t ht).1,
    fun hz hx => ?_,fun q hm hs' hz => ?_,fun hs' => ?_,fun k pc hm hlive => ?_⟩
  · rcases hd.zero hz with hz | he
    · obtain ⟨t,ht,htr⟩ := hx
      rcases mem_act ht with ht | rfl | ht
      · obtain ⟨u,hu,hue⟩ := entering_other hi h hd hz ⟨t,mem_of_other ht,htr⟩
        exact ⟨u,mem_of_act hu,hue⟩
      · exact absurd ‹s'.curProcessing = 0› (hd.reverts htr)
      · rw [(hn t ht).2] at htr
        cases htr
    · exact ⟨l',hl',he⟩
  · rcases hd.zero hz with hz₀ | he
    · rcases hd.moves q hm hs' hz with hst | hr | ⟨hq₀,hst⟩
      · exact ⟨l',hl',hst⟩
      · obtain ⟨u,hu,hue⟩ := entering_other hi h hd hz₀ ⟨l,hl,hr⟩
        exact ⟨u,mem_of_act hu,settles_entering hue⟩
      · obtain ⟨u,hu,hus⟩ := h.moves q hm hq₀ hz₀
        rcases mem_split hu with hu | rfl
        · exact ⟨u,mem_of_act hu,hus⟩
        · rw [hst] at hus
          cases hus
    · exact ⟨l',hl',settles_entering he⟩
  · rcases hd.stops hs' with hdone | he | ⟨hq₀,he,hdone⟩
    · exact .inl hdone
    · exact .inr ⟨l',hl',he⟩
    · rcases h.stops hq₀ with h1 | ⟨u,hu,hue⟩
      · exact .inl (hdone h1)
      · rcases mem_split hu with hu | rfl
        · exact .inr ⟨u,mem_of_act hu,hue⟩
        · rw [he] at hue
          cases hue
  · rcases mem_act hm with ho | rfl | hnew
    · have h1 := h.current k pc (mem_of_other ho) hlive
      rcases hd.ctx with h2 | h2
      · rw [h2,h1]
      · exact absurd hlive (Lifecycle.not_live (no_live_of_launching hi hl h2) (mem_of_other ho))
    · cases Lifecycle.step_act hs with
      | @loop k pc₀ pc s' new hp =>
        rcases hd.ctx with h1 | h1
        · rw [h1]
          exact h.current k pc₀ hl (live_before hp hlive)
        · exact absurd h1 (by rw [weights,Lifecycle.loop_launching]; exact Nat.lt_irrefl 0)
    · exact new_loop hs hnew

end Worker

end Varmq.Waiters
