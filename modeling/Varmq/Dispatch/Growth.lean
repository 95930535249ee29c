import Varmq.Dispatch.Places
import Varmq.Dispatch.Charge

namespace Varmq.Dispatch

open Interleaving
open Varmq.Park (Stamp Parked)

variable {s s' : Shared}

structure Stocked (s : Shared) : Prop where
  suffix : s.slots.map Prod.fst <:+ s.claimed
  parked : s.park.Counted

-- The histories only grow, and only an Add puts a job into storage.
structure Grown (s s' : Shared) (l : Thread) : Prop where
  claimed : s.claimed <+: s'.claimed
  ran : s.ran <+: s'.ran
  dropped : s.dropped <+: s'.dropped
  slots : ∀ j ∈ s'.slots.map Prod.fst, j ∈ s.slots.map Prod.fst ∨ 0 < (hands j l).newborn

theorem Grown.refl (s : Shared) (l : Thread) : Grown s s l :=
  ⟨List.prefix_rfl,List.prefix_rfl,List.prefix_rfl,fun _ h => .inl h⟩

theorem Grown.frame {l : Thread} (h1 : s'.claimed = s.claimed) (h2 : s'.ran = s.ran)
    (h3 : s.dropped <+: s'.dropped)
    (h4 : ∀ j ∈ s'.slots.map Prod.fst, j ∈ s.slots.map Prod.fst) : Grown s s' l :=
  ⟨⟨[],by rw [h1,List.append_nil]⟩,⟨[],by rw [h2,List.append_nil]⟩,h3,
    fun j hj => .inl (h4 j hj)⟩

theorem Stocked.frame (h : Stocked s) (h1 : s'.slots = s.slots) (h2 : s'.claimed = s.claimed)
    (h3 : s'.park.Counted) : Stocked s' := ⟨by rw [h1,h2]; exact h.suffix,h3⟩

theorem held_growth {l : Thread} (h : Stocked s) (b : Bool) :
    Stocked { s with park := { s.park with parkHeld := b } } ∧
    Grown s { s with park := { s.park with parkHeld := b } } l :=
  ⟨⟨h.suffix,h.parked⟩,.frame rfl rfl List.prefix_rfl fun _ h => h⟩

theorem loop_growth {pc pc' : LoopPc} {c : Choice} {new : List Thread} (h : Stocked s)
    (hs : loopStep s pc c = some (s',pc',new)) : Stocked s' ∧ Grown s s' (.loop pc) := by
  cases pc with
  | pending pc =>
    obtain ⟨-,b,rfl⟩ := loop_pending_frame hs
    exact held_growth h b
  | plan pc =>
    obtain ⟨-,b,rfl⟩ := loop_plan_frame hs
    exact held_growth h b
  | unpark k =>
    cases c with
    | go =>
      simp only [loopStep,Option.some.injEq,Prod.mk.injEq] at hs
      obtain ⟨rfl,-,-⟩ := hs
      exact ⟨⟨h.suffix,Park.unpark_counted h.parked⟩,.frame rfl rfl List.prefix_rfl fun _ h => h⟩
    | flag b => cases hs
    | pick n => cases hs
  | dequeue k buf e =>
    cases c <;> simp only [loopStep] at hs <;> try cases hs
    split at hs
    · cases hs
    · split at hs <;> cases hs
      · exact ⟨h,.refl _ _⟩
      · rename_i i slots he
        have hsuf := h.suffix
        rw [he] at hsuf
        refine ⟨⟨(List.suffix_cons _ _).trans hsuf,h.parked⟩,.frame rfl rfl List.prefix_rfl ?_⟩
        intro j hj
        rw [he]
        exact List.mem_cons_of_mem _ hj
  | isClosed k buf i =>
    cases c <;> simp only [loopStep] at hs <;> try cases hs
    split at hs <;> cases hs
    · exact ⟨⟨h.suffix,h.parked⟩,.frame rfl rfl (List.prefix_append _ _) fun _ h => h⟩
    · exact ⟨h,.refl _ _⟩
  | _ =>
    have he : s'.slots = s.slots ∧ s'.claimed = s.claimed ∧ s'.park = s.park ∧ s'.ran = s.ran ∧
        s'.dropped = s.dropped := by
      cases c <;> simp only [loopStep] at hs <;> grind
    obtain ⟨h1,h2,h3,h4,h5⟩ := he
    exact ⟨h.frame h1 h2 (h3 ▸ h.parked),.frame h2 h4 (h5 ▸ List.prefix_rfl)
      (by rw [h1]; exact fun _ h => h)⟩

theorem batch_growth {b b' : Batch} {pc pc' : BatchPc} (h : Stocked s)
    (hs : batchStep s b pc = some (s',b',pc')) : Stocked s' ∧ Grown s s' (.batch b pc) := by
  cases pc with
  | park =>
    simp only [batchStep,Option.some.injEq,Prod.mk.injEq] at hs
    obtain ⟨rfl,-,-⟩ := hs
    exact ⟨⟨h.suffix,Park.park_counted h.parked⟩,.frame rfl rfl (List.prefix_append _ _) fun _ h => h⟩
  | closeStale =>
    simp only [batchStep] at hs
    split at hs <;> cases hs
    exact ⟨⟨h.suffix,h.parked⟩,.frame rfl rfl (List.prefix_append _ _) fun _ h => h⟩
  | start =>
    simp only [batchStep] at hs
    split at hs
    · cases hs
    · split at hs <;> cases hs
      · exact ⟨⟨h.suffix,h.parked⟩,.frame rfl rfl List.prefix_rfl fun _ h => h⟩
      · exact ⟨⟨h.suffix,h.parked⟩,.frame rfl rfl (List.prefix_append _ _) fun _ h => h⟩
  | run =>
    simp only [batchStep] at hs
    split at hs <;> cases hs
    exact ⟨⟨h.suffix,h.parked⟩,.frame rfl rfl List.prefix_rfl fun _ h => h⟩
  | close =>
    simp only [batchStep] at hs
    split at hs <;> cases hs
    exact ⟨⟨h.suffix,h.parked⟩,⟨List.prefix_rfl,List.prefix_append _ _,List.prefix_rfl,
      fun _ h => .inl h⟩⟩
  | _ =>
    have he : s'.slots = s.slots ∧ s'.claimed = s.claimed ∧ s'.park = s.park ∧ s'.ran = s.ran ∧
        s'.dropped = s.dropped := by
      simp only [batchStep] at hs
      grind
    obtain ⟨h1,h2,h3,h4,h5⟩ := he
    exact ⟨h.frame h1 h2 (h3 ▸ h.parked),.frame h2 h4 (h5 ▸ List.prefix_rfl)
      (by rw [h1]; exact fun _ h => h)⟩

theorem add_growth {pc pc' : AddPc} {c : Choice} (h : Stocked s)
    (hs : addStep s pc c = some (s',pc')) : Stocked s' ∧ Grown s s' (.add pc) := by
  cases pc with
  | append i =>
    cases c with
    | flag ok =>
      cases ok <;> cases hs
      · exact ⟨⟨h.suffix,h.parked⟩,.frame rfl rfl List.prefix_rfl fun _ h => h⟩
      · refine ⟨⟨?_,h.parked⟩,⟨List.prefix_append _ _,List.prefix_rfl,List.prefix_rfl,?_⟩⟩
        · obtain ⟨pre,hp⟩ := h.suffix
          refine ⟨pre,?_⟩
          simp [← hp]
        · intro j hj
          simp only [List.map_append,List.map_cons,List.map_nil,List.mem_append,
            List.mem_singleton] at hj
          rcases hj with hj | rfl
          · exact .inl hj
          · exact .inr (by simp [hands])
    | _ => cases hs
  | publish i =>
    cases c <;> cases hs
    refine ⟨⟨by simpa only [publish_jobs] using h.suffix,h.parked⟩,
      .frame rfl rfl List.prefix_rfl fun j hj => ?_⟩
    simpa only [publish_jobs] using hj
  | mark i =>
    cases c <;> cases hs
    split
    · exact ⟨⟨h.suffix,h.parked⟩,.frame rfl rfl List.prefix_rfl fun _ h => h⟩
    · exact ⟨h,.refl _ _⟩
  | new =>
    cases c <;> cases hs
    exact ⟨⟨h.suffix,h.parked⟩,.frame rfl rfl List.prefix_rfl fun _ h => h⟩
  | notify i =>
    cases c <;> cases hs
    exact ⟨⟨h.suffix,h.parked⟩,.frame rfl rfl List.prefix_rfl fun _ h => h⟩
  | returned i ok => cases c <;> cases hs

theorem purge_growth {pc pc' : PurgePc} (h : Stocked s) (hs : purgeStep s pc = some (s',pc')) :
    Stocked s' ∧ Grown s s' (.purge pc) := by
  cases pc with
  | bump =>
    cases hs
    exact ⟨⟨h.suffix,h.parked⟩,.frame rfl rfl List.prefix_rfl fun _ h => h⟩
  | drop =>
    simp only [purgeStep,Option.some.injEq,Prod.mk.injEq] at hs
    obtain ⟨rfl,-⟩ := hs
    exact ⟨⟨h.suffix,Park.dropParked_counted h.parked⟩,
      .frame rfl rfl (List.prefix_append _ _) fun _ h => h⟩
  | readEnd =>
    simp only [purgeStep] at hs
    split at hs <;> cases hs
    exact ⟨⟨h.suffix,h.parked⟩,.frame rfl rfl List.prefix_rfl fun _ h => h⟩
  | take n =>
    simp only [purgeStep] at hs
    split at hs <;> cases hs
    refine ⟨⟨?_,h.parked⟩,.frame rfl rfl List.prefix_rfl ?_⟩
    · simp only [List.map_drop]
      exact (List.drop_suffix _ _).trans h.suffix
    · intro j hj
      simp only [List.map_drop] at hj
      exact List.mem_of_mem_drop hj
  | closing js =>
    cases js <;> cases hs
    exact ⟨⟨h.suffix,h.parked⟩,.frame rfl rfl (List.prefix_append _ _) fun _ h => h⟩

theorem step_growth {l l' : Thread} {c : Choice} {new : List Thread} (h : Stocked s)
    (hs : step s l c = some (s',l',new)) : Stocked s' ∧ Grown s s' l := by
  cases step_act hs with
  | loop hp => exact loop_growth h hp
  | batch hp => exact batch_growth h hp
  | add hp => exact add_growth h hp
  | close => exact ⟨⟨h.suffix,h.parked⟩,.frame rfl rfl List.prefix_rfl fun _ h => h⟩
  | purge hp => exact purge_growth h hp
  | @queue pc pc' s' hp =>
    cases pc <;> cases hp <;>
      exact ⟨⟨h.suffix,h.parked⟩,.frame rfl rfl List.prefix_rfl fun _ h => h⟩
  | @wait js pc pc' s' hp =>
    obtain ⟨b,rfl⟩ := wait_frame hp
    exact held_growth h b
  | lifecycle => exact ⟨⟨h.suffix,h.parked⟩,.frame rfl rfl List.prefix_rfl fun _ h => h⟩

theorem step_new {l l' : Thread} {c : Choice} {new : List Thread}
    (hs : step s l c = some (s',l',new)) : ∀ t ∈ new, ∃ b pc, t = .batch b pc := by
  cases step_act hs with
  | @loop pc pc' s' new hl =>
    cases pc with
    | pending pc =>
      obtain ⟨rfl,-⟩ := loop_pending hl
      simp
    | plan pc =>
      obtain ⟨rfl,-⟩ := loop_plan hl
      simp
    | send buf st cont =>
      cases c <;> cases hl
      intro t ht
      exact ⟨_,_,List.mem_singleton.mp ht⟩
    | _ =>
      have hn : new = [] := by cases c <;> simp only [loopStep] at hl <;> grind
      simp [hn]
  | _ => simp

-- What holds in every state of every run, whatever the guard.
structure Base (s : Shared) (ts : List Thread) : Prop where
  kept : ∀ j, Kept (view s j) (sum j ts)
  charged : Charged s ts
  stocked : Stocked s

theorem base_newWorker (n : ℕ) : Base (newWorker n).shared (newWorker n).threads :=
  ⟨kept_newWorker n,charged_newWorker n,⟨List.suffix_rfl,rfl⟩⟩

theorem base_call {ts : List Thread} {l : Thread} (h : Base s ts) (he : entry s l = true) :
    Base s (ts ++ [l]) :=
  ⟨fun j => kept_call (h.kept j) he,charged_call h.charged he,h.stocked⟩

theorem base_act {xs ys new : List Thread} {l l' : Thread} {c : Choice}
    (h : Base s (xs ++ l :: ys)) (hs : step s l c = some (s',l',new)) :
    Base s' (xs ++ l' :: (ys ++ new)) :=
  ⟨fun j => kept_act (h.kept j) hs,charged_act h.charged hs,(step_growth h.stocked hs).1⟩

end Varmq.Dispatch
