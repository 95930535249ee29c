import Varmq.Dispatch.Stamps
import Varmq.Wakeup.Basic

namespace Varmq.Wakeup

open Interleaving
open Varmq.Dispatch (Batch PendingPc AddPc QueuePc PurgePc Choice Base Stamped maxBatch)

variable {cfg : Config} {s s' : Shared} {c : Choice} {l l' : Thread} {new ts xs ys : List Thread}

inductive Act (cfg : Config) (s : Shared) (c : Choice) :
    Thread → Shared → Thread → List Thread → Prop
  | loop {pc pc' : LoopPc} {s' : Shared} {new : List Thread}
      (hp : loopStep s pc c = some (s',pc',new)) : Act cfg s c (.loop pc) s' (.loop pc') new
  | batch {b b' : Batch} {ran ran' : ℕ} {pc pc' : BatchPc} {s' : Shared}
      (hp : batchStep cfg s b ran pc c = some (s',b',ran',pc')) :
      Act cfg s c (.batch b ran pc) s' (.batch b' ran' pc') []
  | add {pc pc' : AddPc} {s' : Shared} (hp : addStep s pc c = some (s',pc')) :
      Act cfg s c (.add pc) s' (.add pc') []
  | close {j : ℕ} :
      Act cfg s c (.close j false) { s with core := s.core.closeJob j } (.close j true) []
  | purge {pc pc' : PurgePc} {d : Dispatch.Shared}
      (hp : Dispatch.purgeStep s.core pc = some (d,pc')) :
      Act cfg s c (.purge pc) { s with core := d } (.purge pc') []
  | queue {pc pc' : QueuePc} {s' : Shared} (hp : queueStep s pc = some (s',pc')) :
      Act cfg s c (.queue pc) s' (.queue pc') []
  | pause {pc pc' : PausePc} {s' : Shared} (hp : pauseStep s pc = some (s',pc')) :
      Act cfg s c (.pause pc) s' (.pause pc') []
  | resume {pc pc' : ResumePc} {s' : Shared} (hp : resumeStep s pc = some (s',pc')) :
      Act cfg s c (.resume pc) s' (.resume pc') []
  | tunePool {pc pc' : TunePc} {s' : Shared} (hp : tunePoolStep cfg s pc = some (s',pc')) :
      Act cfg s c (.tunePool pc) s' (.tunePool pc') []
  | prune {pc pc' : PrunePc} {s' : Shared} (hp : pruneStep cfg s pc c = some (s',pc')) :
      Act cfg s c (.prune pc) s' (.prune pc') []
  | start {pc pc' : StartPc} {s' : Shared} (hp : startStep s pc = some (s',pc')) :
      Act cfg s c (.start pc) s' (.start pc') []

theorem step_act (hs : step cfg s l c = some (s',l',new)) : Act cfg s c l s' l' new := by
  unfold step at hs
  split at hs <;> try cases hs
  case h_4 => exact .close
  all_goals
    obtain ⟨_,hp,heq⟩ := Option.map_eq_some_iff.mp hs
    cases heq
  · exact .loop hp
  · exact .batch hp
  · exact .add hp
  · exact .purge hp
  · exact .queue hp
  · exact .pause hp
  · exact .resume hp
  · exact .tunePool hp
  · exact .prune hp
  · exact .start hp

-- The thread of the dispatch that a goroutine is; those that only touch the status, the limit,
-- the pool or the signal are one that never moves.
def proj : Thread → Dispatch.Thread
  | .loop (.on pc) => .loop pc
  | .loop (.limit _) => .loop .limit
  | .loop (.planBusy n) | .loop (.planLen n _) | .loop (.planShares n _ _) => .loop (.pick n)
  | .loop (.planGrow n _ _ _) | .loop (.popBack n _ _ _ _) => .loop (.pick n)
  | .loop (.popLen n _ _) | .loop (.initPoolNode n _ _) => .loop (.pick n)
  | .loop (.budget n _ _) | .loop (.budgetNanos n _ _) => .loop (.pick n)
  | .loop (.pushLen k cont) | .loop (.pushNode k cont) => .loop (.release k cont)
  | .loop (.releaseWaiters pc) => .loop pc
  | .batch b _ (.on pc) => .batch b pc
  | .batch b _ .releaseWaiters => .batch b .notify
  | .batch b _ _ => .batch b .free
  | .add pc => .add pc
  | .close j fired => .close j fired
  | .purge pc => .purge pc
  | .queue pc => .queue pc
  | .pause _ | .resume _ | .tunePool _ | .prune _ | .start _ => .lifecycle .idle false

-- Equal but for the status, the limit and the mark that a parked batch may be held.
def Alike (d d' : Dispatch.Shared) : Prop :=
  ∃ q n b, d' = { d with status := q, concurrency := n, park := { d.park with parkHeld := b } }

theorem Alike.refl (d : Dispatch.Shared) : Alike d d := ⟨d.status,d.concurrency,d.park.parkHeld,rfl⟩

theorem alike_releaseWaiters (d : Dispatch.Shared) : Alike d (releaseWaiters d) := by
  unfold releaseWaiters
  split
  · split
    · exact ⟨.idle,d.concurrency,d.park.parkHeld,rfl⟩
    · split
      · exact ⟨.paused,d.concurrency,d.park.parkHeld,rfl⟩
      · exact .refl d
  · exact .refl d

-- A step is one of the dispatch, or none of its business.
inductive Sim (s s' : Shared) (l l' : Thread) (new : List Thread) : Prop
  | act (c : Choice)
      (h : Dispatch.step s.core (proj l) c = some (s'.core,proj l',new.map proj))
  | move (hd : Alike s.core s'.core) (hl : proj l' = proj l) (hn : new = [])
  | limit (hd : s'.core = s.core) (hl : proj l = .loop .limit)
      (hl' : proj l' = .loop (.pending .parked) ∨ proj l' = .loop .select) (hn : new = [])

theorem loop_on {pc : Dispatch.LoopPc} {pc' : LoopPc}
    (hs : loopStep s (.on pc) c = some (s',pc',new)) :
    (pc = .select ∧ s.signal = true ∧ s' = { s with signal := false } ∧ pc' = .on .active ∧ new = []) ∨
    (pc = .limit ∧ s' = s ∧ pc' = .limit s.core.busyWorkers ∧ new = []) ∨
    (pc ≠ .select ∧ pc ≠ .limit ∧ (∀ n, pc ≠ .pick n) ∧ ∃ d pc₁ new₁, Dispatch.loopStep s.core pc c = some (d,pc₁,new₁) ∧
      s' = { s with core := d } ∧ pc' = next d pc pc₁ ∧ new = new₁.flatMap spawned) := by
  cases pc with
  | select =>
    cases c <;> simp only [loopStep] at hs
    · split at hs <;> cases hs
      exact .inl ⟨rfl,‹_›,rfl,rfl,rfl⟩
    · cases hs
    · cases hs
  | limit =>
    cases c <;> cases hs
    exact .inr (.inl ⟨rfl,rfl,rfl,rfl⟩)
  | pick n => cases hs
  | _ =>
    obtain ⟨⟨d,pc₁,new₁⟩,hp,heq⟩ := Option.map_eq_some_iff.mp hs
    cases heq
    exact .inr (.inr ⟨by simp,by simp,by simp,d,pc₁,new₁,hp,rfl,rfl,rfl⟩)

theorem proj_enter (pc : Dispatch.LoopPc) : proj (.loop (enter pc)) = .loop pc := by
  cases pc <;> rfl

theorem proj_next (d : Dispatch.Shared) (pc pc' : Dispatch.LoopPc) :
    proj (.loop (next d pc pc')) = .loop pc' := by
  unfold next
  split
  · split <;> rfl
  · split <;> rfl
  · exact proj_enter pc'

theorem proj_spawned {new : List Dispatch.Thread} (h : ∀ t ∈ new, ∃ b pc, t = .batch b pc) :
    (new.flatMap spawned).map proj = new := by
  induction new with
  | nil => rfl
  | cons t new ih =>
    obtain ⟨b,pc,rfl⟩ := h t (by simp)
    simp only [List.flatMap_cons,spawned,List.cons_append,List.nil_append,List.map_cons,proj]
    rw [ih fun u hu => h u (by simp [hu])]

theorem batchSize_pos (n shares : ℕ) : 0 < batchSize n shares := by
  simp only [batchSize]
  omega

theorem batchSize_le (n shares : ℕ) : batchSize n shares ≤ min (max 1 n) maxBatch := by
  have hd : n / max shares 1 ≤ n := Nat.div_le_self _ _
  simp only [batchSize,Dispatch.maxBatch] at *
  omega

theorem budget_pos (jobNanos alive : ℕ) : 0 < batchBudget jobNanos alive := by
  unfold batchBudget
  split <;> omega

theorem take_step {d : Dispatch.Shared} {n shares m : ℕ} (hm : 0 < m) :
    Dispatch.step d (.loop (.pick n)) (.pick (min (batchSize n shares) (min m maxBatch))) =
      some (d,.loop (.take (min (batchSize n shares) (min m maxBatch))),[]) := by
  have h1 := batchSize_pos n shares
  have h2 := batchSize_le n shares
  have h3 : 0 < maxBatch := by decide
  simp only [Dispatch.step,Dispatch.loopStep]
  rw [if_neg (by omega),if_pos (by omega)]
  rfl

theorem loop_sim {pc pc' : LoopPc} (hs : loopStep s pc c = some (s',pc',new)) :
    Sim s s' (.loop pc) (.loop pc') new := by
  cases pc with
  | on pc =>
    rcases loop_on hs with ⟨rfl,-,rfl,rfl,rfl⟩ | ⟨rfl,rfl,rfl,rfl⟩ | ⟨-,-,-,d,pc₁,new₁,hp,rfl,rfl,rfl⟩
    · exact .act .go rfl
    · exact .move (.refl _) rfl rfl
    · have hd : Dispatch.step s.core (.loop pc) c = some (d,.loop pc₁,new₁) := by
        simp only [Dispatch.step,hp,Option.map_some]
      refine .act c ?_
      rw [proj_next,proj_spawned (Dispatch.step_new hd)]
      exact hd
  | limit busy =>
    cases c <;> cases hs
    refine .limit rfl rfl ?_ rfl
    split
    · exact .inl rfl
    · exact .inr rfl
  | planBusy n | planLen n busy | planShares n busy alive | planGrow n busy alive shares =>
    cases c <;> cases hs
    exact .move (.refl _) rfl rfl
  | popBack n busy alive shares grow =>
    cases c <;> simp only [loopStep] at hs <;> try cases hs
    split at hs
    · cases hs
    · split at hs <;> cases hs
      · cases grow
        · exact .act (.pick 0) rfl
        · exact .move (.refl _) rfl rfl
      · exact .move (.refl _) rfl rfl
  | popLen n alive shares | initPoolNode n alive shares =>
    cases c <;> cases hs
    exact .move (.refl _) rfl rfl
  | budget n alive shares =>
    cases c <;> cases hs
    split
    · exact .move (.refl _) rfl rfl
    · exact .act _ (take_step (by decide))
  | budgetNanos n alive shares =>
    cases c <;> cases hs
    exact .act _ (take_step (budget_pos _ _))
  | pushLen k cont | pushNode k cont =>
    cases c <;> cases hs
    exact .move (.refl _) rfl rfl
  | releaseWaiters pc =>
    cases c <;> cases hs
    exact .move (alike_releaseWaiters _) rfl rfl

theorem batch_on {b b' : Batch} {ran ran' : ℕ} {pc : Dispatch.BatchPc} {pc' : BatchPc}
    (hs : batchStep cfg s b ran (.on pc) c = some (s',b',ran',pc')) :
    (pc = .finish ∧ b' = b ∧
      s' = { s with core := { s.core with curProcessing := s.core.curProcessing - b.n } } ∧
      (pc' = .releaseWaiters ∨ pc' = .on .notify)) ∨
    (pc = .notify ∧ b' = b ∧ s' = { s with signal := true } ∧ pc' = .on .done) ∨
    (pc ≠ .finish ∧ pc ≠ .notify ∧ ∃ d pc₁, Dispatch.batchStep s.core b pc = some (d,b',pc₁) ∧
      s' = { s with core := d } ∧ pc' = leave pc₁) := by
  cases pc with
  | finish =>
    cases c <;> cases hs
    refine .inl ⟨rfl,rfl,rfl,?_⟩
    split
    · exact .inl rfl
    · exact .inr rfl
  | notify =>
    cases c <;> cases hs
    exact .inr (.inl ⟨rfl,rfl,rfl,rfl⟩)
  | _ =>
    cases c with
    | go =>
      simp only [batchStep,Option.map_eq_some_iff] at hs
      obtain ⟨⟨d,b₁,pc₁⟩,hp,heq⟩ := hs
      cases heq
      exact .inr (.inr ⟨by simp,by simp,d,pc₁,hp,rfl,rfl⟩)
    | flag b => cases hs
    | pick n => cases hs

theorem batch_pending {b b' : Batch} {ran ran' : ℕ} {pc : PendingPc} {pc' : BatchPc}
    (hs : batchStep cfg s b ran (.pending pc) c = some (s',b',ran',pc')) :
    b' = b ∧ ((∃ n, s' = s ∧ pc' = .len n) ∨
      ∃ d pc₁, Dispatch.pendingStep s.core pc = some (d,pc₁) ∧ s' = { s with core := d } ∧
        pc' = .pending pc₁) := by
  cases c <;> cases pc <;> cases hs
  case go.done n => exact ⟨rfl,.inl ⟨n,rfl,rfl⟩⟩
  all_goals exact ⟨rfl,.inr ⟨_,_,rfl,rfl,rfl⟩⟩

theorem proj_leave (b : Batch) (ran : ℕ) (pc : Dispatch.BatchPc) :
    proj (.batch b ran (leave pc)) = .batch b pc := by
  cases pc <;> rfl

theorem alike_pending {d d' : Dispatch.Shared} {pc pc' : PendingPc}
    (hs : Dispatch.pendingStep d pc = some (d',pc')) : Alike d d' := by
  obtain ⟨b,rfl⟩ := Dispatch.pending_frame hs
  exact ⟨d.status,d.concurrency,b,rfl⟩

theorem batch_sim {b b' : Batch} {ran ran' : ℕ} {pc pc' : BatchPc}
    (hs : batchStep cfg s b ran pc c = some (s',b',ran',pc')) :
    Sim s s' (.batch b ran pc) (.batch b' ran' pc') [] := by
  cases pc with
  | on pc =>
    rcases batch_on hs with ⟨rfl,rfl,rfl,rfl | rfl⟩ | ⟨rfl,rfl,rfl,rfl⟩ | ⟨-,-,d,pc₁,hp,rfl,rfl⟩
    · exact .act .go rfl
    · exact .act .go rfl
    · exact .act .go rfl
    · refine .act .go ?_
      rw [proj_leave]
      simp only [proj,Dispatch.step,hp,Option.map_some,List.map_nil]
  | pending pc =>
    obtain ⟨rfl,⟨n,rfl,rfl⟩ | ⟨d,pc₁,hp,rfl,rfl⟩⟩ := batch_pending hs
    · exact .move (.refl _) rfl rfl
    · exact .move (alike_pending hp) rfl rfl
  | jobNanos | idleLen | pushLen =>
    cases c <;> cases hs
    exact .move (.refl _) rfl rfl
  | len n =>
    cases c <;> cases hs
    split <;> exact .move (.refl _) rfl rfl
  | minIdle n =>
    cases c <;> cases hs
    split
    · exact .move (.refl _) rfl rfl
    · exact .act .go rfl
  | pushNode =>
    cases c <;> cases hs
    exact .act .go rfl
  | releaseWaiters =>
    cases c <;> cases hs
    exact .move (alike_releaseWaiters _) rfl rfl

theorem pause_sim {pc pc' : PausePc} (hs : pauseStep s pc = some (s',pc')) :
    Alike s.core s'.core ∧ s'.signal = s.signal := by
  cases pc with
  | call =>
    simp only [pauseStep] at hs
    split at hs <;> cases hs
    · exact ⟨.refl _,rfl⟩
    · exact ⟨.refl _,rfl⟩
    · exact ⟨⟨.paused,s.core.concurrency,s.core.park.parkHeld,rfl⟩,rfl⟩
    · exact ⟨⟨_,s.core.concurrency,s.core.park.parkHeld,rfl⟩,rfl⟩
    · exact ⟨.refl _,rfl⟩
  | returned r => cases hs

theorem step_sim (hs : step cfg s l c = some (s',l',new)) : Sim s s' l l' new := by
  cases step_act hs with
  | loop hp => exact loop_sim hp
  | batch hp => exact batch_sim hp
  | add hp =>
    obtain ⟨⟨d,pc₁⟩,hd,heq⟩ := Option.map_eq_some_iff.mp hp
    cases heq
    exact .act c (by simp only [proj,Dispatch.step,hd,Option.map_some,List.map_nil])
  | close => exact .act .go rfl
  | purge hp => exact .act .go (by simp only [proj,Dispatch.step,hp,Option.map_some,List.map_nil])
  | queue hp =>
    obtain ⟨⟨d,pc₁⟩,hd,heq⟩ := Option.map_eq_some_iff.mp hp
    cases heq
    exact .act .go (by simp only [proj,Dispatch.step,hd,Option.map_some,List.map_nil])
  | pause hp => exact .move (pause_sim hp).1 rfl rfl
  | @resume pc pc' s' hp =>
    cases pc with
    | cas =>
      simp only [resumeStep] at hp
      split at hp <;> cases hp
      · exact .move ⟨.idle,s.core.concurrency,s.core.park.parkHeld,rfl⟩ rfl rfl
      · exact .move (.refl _) rfl rfl
    | returned r => cases hp
    | _ =>
      cases hp
      exact .move (.refl _) rfl rfl
  | @tunePool pc pc' s' hp =>
    cases pc with
    | store old safe =>
      cases hp
      exact .move ⟨s.core.status,safe,s.core.park.parkHeld,rfl⟩ rfl rfl
    | popBack shrink m =>
      simp only [tunePoolStep] at hp
      split at hp
      · cases hp
      · split at hp <;> cases hp <;> exact .move (.refl _) rfl rfl
    | returned r => cases hp
    | _ =>
      cases hp
      exact .move (.refl _) rfl rfl
  | @prune pc pc' s' hp =>
    have he : s'.core = s.core := by
      unfold pruneStep at hp
      grind
    exact .move (he ▸ .refl _) rfl rfl
  | @start pc pc' s' hp =>
    cases pc <;> cases hp
    · exact .move ⟨.idle,s.core.concurrency,s.core.park.parkHeld,rfl⟩ rfl rfl
    · exact .move (.refl _) rfl rfl

structure Core (s : Shared) (ts : List Thread) : Prop where
  base : Base s.core (ts.map proj)
  stamped : Stamped s.core (ts.map proj)

theorem core_alike {d d' : Dispatch.Shared} {us : List Dispatch.Thread} (hd : Alike d d')
    (hb : Base d us) (hs : Stamped d us) : Base d' us ∧ Stamped d' us := by
  obtain ⟨q,n,b,rfl⟩ := hd
  exact ⟨⟨hb.kept,⟨hb.charged.cur,hb.charged.busy,hb.charged.fits⟩,
    ⟨hb.stocked.suffix,hb.stocked.parked⟩⟩,⟨hs.parked,hs.threads⟩⟩

-- Under some limit the dispatch takes the same branch.
theorem limit_step {d : Dispatch.Shared} {t : Dispatch.Thread}
    (ht : t = .loop (.pending .parked) ∨ t = .loop .select) :
    ∃ n, Dispatch.step { d with concurrency := n } (.loop .limit) .go =
      some ({ d with concurrency := n },t,[]) := by
  rcases ht with rfl | rfl
  · exact ⟨d.busyWorkers + 1,by simp [Dispatch.step,Dispatch.loopStep]⟩
  · exact ⟨0,by simp [Dispatch.step,Dispatch.loopStep]⟩

theorem sim_core {us vs : List Dispatch.Thread} (h : Sim s s' l l' new)
    (hb : Base s.core (us ++ proj l :: vs)) (hst : Stamped s.core (us ++ proj l :: vs)) :
    Base s'.core (us ++ proj l' :: (vs ++ new.map proj)) ∧
    Stamped s'.core (us ++ proj l' :: (vs ++ new.map proj)) := by
  have hf := hb.charged.fits (proj l) (by simp)
  cases h with
  | act c hd => exact ⟨Dispatch.base_act hb hd,Dispatch.stamped_act hst hf hd⟩
  | move hd hl hn =>
    subst hn
    rw [hl,List.map_nil,List.append_nil]
    exact core_alike hd hb hst
  | limit hd hl hl' hn =>
    subst hn
    rw [hl] at hb hst hf
    rw [hd]
    obtain ⟨n,hn⟩ := limit_step (d := s.core) hl'
    have hto : Alike s.core { s.core with concurrency := n } :=
      ⟨s.core.status,n,s.core.park.parkHeld,rfl⟩
    have hback : Alike { s.core with concurrency := n } s.core :=
      ⟨s.core.status,s.core.concurrency,s.core.park.parkHeld,rfl⟩
    obtain ⟨hb',hst'⟩ := core_alike hto hb hst
    exact core_alike hback (Dispatch.base_act hb' hn) (Dispatch.stamped_act hst' hf hn)

theorem core_act (h : Core s (xs ++ l :: ys)) (hs : step cfg s l c = some (s',l',new)) :
    Core s' (xs ++ l' :: (ys ++ new)) := by
  obtain ⟨hb,hst⟩ := h
  rw [List.map_append,List.map_cons] at hb hst
  obtain ⟨hb',hst'⟩ := sim_core (step_sim hs) hb hst
  constructor <;> rw [List.map_append,List.map_cons,List.map_append]
  · exact hb'
  · exact hst'

theorem core_call (h : Core s ts) (he : entry cfg s l = true) : Core s (ts ++ [l]) := by
  have hp : Dispatch.entry s.core (proj l) = true ∧ Dispatch.Bound (proj l) := by
    unfold entry at he
    split at he <;> first | exact ⟨rfl,trivial⟩ | exact ⟨he,trivial⟩ | cases he
  obtain ⟨hb,hst⟩ := h
  refine ⟨?_,?_,fun t ht => ?_⟩
  · rw [List.map_append]
    exact Dispatch.base_call hb hp.1
  · exact hst.parked
  · rw [List.map_append] at ht
    rcases List.mem_append.mp ht with ht | ht
    · exact hst.threads t ht
    · rw [List.mem_singleton.mp ht]
      exact hp.2

theorem core_newWorker (cfg : Config) (n : ℤ) :
    Core (newWorker cfg n).shared (newWorker cfg n).threads := by
  have hb := Dispatch.base_newWorker (withSafeConcurrency cfg n)
  refine ⟨Dispatch.base_call (l := .lifecycle .idle false) hb rfl,?_,?_⟩
  · simp [newWorker,Dispatch.newWorker,Park.Parked.empty]
  · simp [newWorker,proj,Dispatch.Bound]

end Varmq.Wakeup
