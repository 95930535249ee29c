import Varmq.Lifecycle.Turn

namespace Varmq.Lifecycle

open Interleaving
open Varmq.Worker (Status Error)

variable {s s' : Shared} {l l' : Thread} {c : Choice} {new : List Thread}

-- What a goroutine has counted into curProcessing and not taken off yet.
def reservedBy (l : Thread) : ℕ := (weights l).reserved

def Ret.busy : Ret → ℕ
  | .send _ _ => 1
  | _ => 0

def loopBusy : LoopPc → ℕ
  | .count .batch _ | .reserve .batch _ | .claim .batch _ => 1
  | .fill _ | .giveBack _ _ | .send _ _ | .emitSend _ => 1
  | .finish _ r => r.busy
  | _ => 0

-- The nodes a goroutine has counted into busyWorkers and not given back yet.
def busyOf : Thread → ℕ
  | .loop _ pc => loopBusy pc
  | .batch (.check _ _) | .batch (.exec _ _) | .batch (.free _) | .batch (.release _) => 1
  | _ => 0

-- What the next step of a goroutine takes off curProcessing and off busyWorkers.
def releases : Thread → ℕ
  | .loop _ (.finish (.dec m) _) | .batch (.finish (.dec m)) => m
  | _ => 0

def returnsNode : Thread → ℕ
  | .loop _ (.giveBack _ _) | .batch (.release _) => 1
  | _ => 0

def executes : Thread → ℕ
  | .batch (.exec _ _) => 1
  | _ => 0

def inFlight : Thread → Bool
  | .loop _ .select | .loop _ (.wait _) | .loop _ .removeAll | .loop _ .stopLock => false
  | .loop _ .stopStore | .loop _ .stopWake | .loop _ .stopUnlock | .loop _ .exited => false
  | .loop _ _ => true
  | .batch pc => pc ≠ .done
  | _ => false

-- The part of the limit that the event loop has seen free and may still use up.
def Room (s : Shared) : Thread → Prop
  | .loop _ (.limit busy) | .loop _ (.creditLimit busy) => s.busyWorkers ≤ busy
  | .loop _ .pending | .loop _ .plan | .loop _ (.take _) => s.busyWorkers < s.concurrency
  | .loop _ (.count .credit k) | .loop _ (.reserve .credit k) | .loop _ (.claim .credit k) =>
      s.busyWorkers + k ≤ s.concurrency
  | .loop _ (.emit left) => s.busyWorkers + left ≤ s.concurrency
  | .loop _ (.emitBusy left) => 0 < left ∧ s.busyWorkers + left ≤ s.concurrency
  | .loop _ (.emitSend left) => s.busyWorkers + (left - 1) ≤ s.concurrency
  | _ => True

structure Counts (s s' : Shared) (l l' : Thread) (new : List Thread) : Prop where
  busy : ∀ y, s.busyWorkers = y + busyOf l → s'.busyWorkers = y + busyOf l' + total busyOf new
  raised : s'.busyWorkers ≤ s.busyWorkers ∨ 0 < (weights l).live
  limit : s'.concurrency = s.concurrency ∨ ∃ n, l = .tunePool n false
  room : Room s l → s.busyWorkers ≤ s.concurrency → s'.concurrency = s.concurrency →
    s'.busyWorkers ≤ s'.concurrency ∧ Room s' l'

theorem Counts.frame (hb : s'.busyWorkers = s.busyWorkers) (hc : s'.concurrency = s.concurrency)
    (h : busyOf l' = busyOf l) (hn : total busyOf new = 0) (hr : Room s l → Room s l') :
    Counts s s' l l' new := by
  refine ⟨fun y hy => by omega,.inl (by omega),.inl hc,fun hl hle _ => ⟨by omega,?_⟩⟩
  have hroom : Room s' l' = Room s l' := by
    unfold Room
    rw [hb,hc]
  rw [hroom]
  exact hr hl

theorem finish_counters {pc : FinishPc} {o : Option FinishPc} (hs : finishStep s pc = some (s',o)) :
    s'.busyWorkers = s.busyWorkers ∧ s'.concurrency = s.concurrency := by
  cases pc <;> simp only [finishStep] at hs <;> grind

theorem wait_counters {k : WaitKind} {pc pc' : WaitPc} {armed : Bool}
    (hs : waitStep k s pc c = some (s',pc',armed)) :
    s'.busyWorkers = s.busyWorkers ∧ s'.concurrency = s.concurrency := by
  cases pc <;> cases c <;> simp only [waitStep] at hs <;> grind

theorem stop_counters {pc pc' : StopPc} (hs : stopStep s pc = some (s',pc')) :
    s'.busyWorkers = s.busyWorkers ∧ s'.concurrency = s.concurrency := by
  cases pc with
  | cas seen rest => cases rest <;> simp only [stopStep] at hs <;> grind
  | _ => simp only [stopStep] at hs; grind

theorem start_counters {pc pc' : StartPc} (hs : startStep s pc = some (s',pc',new)) :
    s'.busyWorkers = s.busyWorkers ∧ s'.concurrency = s.concurrency ∧ total busyOf new = 0 := by
  cases pc <;> simp only [startStep] at hs <;> grind [total_nil,total_cons,busyOf,loopBusy]

theorem restart_counters {pc pc' : RestartPc} (hs : restartStep s pc = some (s',pc',new)) :
    s'.busyWorkers = s.busyWorkers ∧ s'.concurrency = s.concurrency ∧ total busyOf new = 0 := by
  cases pc with
  | stop pc =>
    rcases restart_stop hs with ⟨seen,moved,r,rfl,rfl,rfl,rfl⟩ | ⟨pc₁,hp,rfl,rfl⟩
    · exact ⟨rfl,rfl,rfl⟩
    · exact ⟨(stop_counters hp).1,(stop_counters hp).2,rfl⟩
  | start pc =>
    rcases restart_start hs with ⟨r,rfl,rfl,rfl,rfl⟩ | ⟨pc₁,hp,rfl⟩
    · exact ⟨rfl,rfl,rfl⟩
    · exact start_counters hp
  | _ => simp only [restartStep] at hs; grind [total_nil]

theorem ret_busy (r : Ret) : loopBusy r.pc = r.busy := by cases r <;> rfl

theorem room_ret (k : ℕ) (r : Ret) : Room s (.loop k r.pc) := by cases r <;> trivial

theorem afterSend_busy (cont : Bool) : (afterSend cont).busy = 0 := by cases cont <;> rfl

theorem loop_counts {k : ℕ} {pc pc' : LoopPc} (hs : loopStep s k pc c = some (s',pc',new)) :
    Counts s s' (.loop k pc) (.loop k pc') new := by
  cases pc with
  | take m =>
    cases c <;> cases hs
    refine ⟨fun y hy => ?_,.inr Nat.one_pos,.inl rfl,fun hr _ _ => ⟨hr,trivial⟩⟩
    simp only [busyOf,loopBusy,total_nil] at hy ⊢
    omega
  | limit busy =>
    cases c <;> cases hs
    refine ⟨fun y hy => ?_,.inl (Nat.le_refl _),.inl rfl,fun hr hle _ => ⟨hle,?_⟩⟩
    · split <;> exact hy
    · split
      · exact Nat.lt_of_le_of_lt hr ‹_›
      · trivial
  | creditLimit busy =>
    cases c <;> cases hs
    refine ⟨fun y hy => ?_,.inl (Nat.le_refl _),.inl rfl,fun hr hle _ => ⟨hle,?_⟩⟩
    · split <;> exact hy
    · split
      · trivial
      · simp only [Room] at hr ⊢
        omega
  | count m n =>
    cases c <;> cases hs
    cases m with
    | batch => exact .frame rfl rfl rfl rfl fun _ => trivial
    | credit => exact .frame rfl rfl rfl rfl fun hr => hr
  | reserve m n =>
    cases c <;> simp only [loopStep] at hs <;> try cases hs
    cases m with
    | batch =>
      split at hs
      · cases hs
        exact .frame rfl rfl rfl rfl fun _ => trivial
      · split at hs <;> cases hs <;> exact .frame rfl rfl rfl rfl fun _ => trivial
    | credit =>
      split at hs
      · cases hs
        exact .frame rfl rfl rfl rfl fun hr => hr
      · split at hs <;> cases hs
        · exact .frame rfl rfl rfl rfl fun hr => hr
        · exact .frame rfl rfl rfl rfl fun _ => trivial
  | claim m n =>
    cases c <;> simp only [loopStep] at hs <;> try cases hs
    cases m with
    | batch => split at hs <;> cases hs <;> exact .frame rfl rfl rfl rfl fun _ => trivial
    | credit => split at hs <;> cases hs <;> exact .frame rfl rfl rfl rfl fun hr => hr
  | fill m =>
    cases c <;> simp only [loopStep] at hs <;> try cases hs
    split at hs
    · cases hs
      exact .frame rfl rfl rfl rfl fun _ => trivial
    · split at hs
      · cases hs
        exact .frame rfl rfl rfl rfl fun _ => trivial
      · split at hs <;> cases hs
        exact .frame rfl rfl rfl rfl fun _ => trivial
  | giveBack m cont =>
    cases c <;> cases hs
    refine ⟨fun y hy => ?_,.inl (Nat.sub_le _ _),.inl rfl,fun _ hle _ => ⟨?_,trivial⟩⟩
    · simp only [busyOf,loopBusy,afterSend_busy,total_nil] at hy ⊢
      omega
    · simp only
      omega
  | send m cont =>
    cases c <;> cases hs
    refine ⟨fun y hy => ?_,.inl (Nat.le_refl _),.inl rfl,fun _ hle _ => ⟨hle,room_ret _ _⟩⟩
    have hb : busyOf (.loop k (afterSend cont).pc) = 0 := by cases cont <;> rfl
    rw [hb]
    exact hy
  | finish pc r =>
    cases c <;> simp only [loopStep] at hs <;> try cases hs
    split at hs <;> cases hs
    · obtain ⟨hb,hc⟩ := finish_counters ‹_›
      exact .frame hb hc rfl rfl fun _ => trivial
    · obtain ⟨hb,hc⟩ := finish_counters ‹_›
      exact .frame hb hc (ret_busy r) rfl fun _ => room_ret _ _
  | emit left =>
    cases c <;> simp only [loopStep] at hs <;> try cases hs
    rename_i b
    split at hs
    · cases hs
      exact .frame rfl rfl rfl rfl fun _ => trivial
    · cases hs
      cases b with
      | true => exact .frame rfl rfl rfl rfl fun hr => ⟨Nat.pos_of_ne_zero ‹_›,hr⟩
      | false => exact .frame rfl rfl rfl rfl fun _ => trivial
  | emitBusy left =>
    cases c <;> cases hs
    refine ⟨fun y hy => ?_,.inr Nat.one_pos,.inl rfl,fun hr _ _ => ?_⟩
    · simp only [busyOf,loopBusy,total_nil] at hy ⊢
      omega
    · simp only [Room] at hr ⊢
      omega
  | emitSend left =>
    cases c <;> cases hs
    refine ⟨fun y hy => ?_,.inl (Nat.le_refl _),.inl rfl,fun hr hle _ => ⟨hle,hr⟩⟩
    simp only [busyOf,loopBusy,total_cons,total_nil] at hy ⊢
    omega
  | wait pc =>
    simp only [loopStep] at hs
    split at hs <;> cases hs
    · obtain ⟨hb,hc⟩ := wait_counters ‹_›
      exact .frame hb hc rfl rfl fun _ => trivial
    · obtain ⟨hb,hc⟩ := wait_counters ‹_›
      refine .frame hb hc rfl ?_ fun _ => trivial
      split <;> rfl
  | select =>
    cases c <;> simp only [loopStep] at hs <;> try cases hs
    · split at hs <;> cases hs
      exact .frame rfl rfl rfl rfl fun _ => trivial
    · rename_i credit
      split at hs <;> cases hs
      cases credit <;> exact .frame rfl rfl rfl rfl fun _ => trivial
  | slots | creditSlots =>
    cases c <;> cases hs
    exact .frame rfl rfl rfl rfl fun _ => Nat.le_refl _
  | active | creditActive =>
    cases c <;> cases hs
    split <;> exact .frame rfl rfl rfl rfl fun _ => trivial
  | pending =>
    cases c <;> cases hs
    split
    · exact .frame rfl rfl rfl rfl fun hr => hr
    · exact .frame rfl rfl rfl rfl fun _ => trivial
  | creditReady =>
    cases c <;> cases hs
    split <;> exact .frame rfl rfl rfl rfl fun _ => trivial
  | plan =>
    cases c <;> simp only [loopStep] at hs <;> try cases hs
    split at hs <;> cases hs
    split
    · exact .frame rfl rfl rfl rfl fun _ => trivial
    · exact .frame rfl rfl rfl rfl fun hr => hr
  | stopLock =>
    cases c <;> simp only [loopStep] at hs <;> try cases hs
    split at hs <;> cases hs
    exact .frame rfl rfl rfl rfl fun _ => trivial
  | creditEnd | removeAll | stopStore | stopWake | stopUnlock =>
    cases c <;> cases hs
    exact .frame rfl rfl rfl rfl fun _ => trivial
  | exited => cases c <;> cases hs

theorem batch_counts {pc pc' : BatchPc} (hs : batchStep s pc c = some (s',pc')) :
    Counts s s' (.batch pc) (.batch pc') [] := by
  cases pc with
  | release n =>
    cases c <;> cases hs
    refine ⟨fun y hy => ?_,.inl (Nat.sub_le _ _),.inl rfl,fun _ hle _ => ⟨?_,trivial⟩⟩
    · simp only [busyOf,total_nil] at hy ⊢
      omega
    · simp only
      omega
  | finish pc =>
    cases c <;> simp only [batchStep] at hs <;> try cases hs
    split at hs <;> cases hs <;>
      exact .frame (finish_counters ‹_›).1 (finish_counters ‹_›).2 rfl rfl fun _ => trivial
  | check n i =>
    cases c <;> simp only [batchStep] at hs <;> try cases hs
    all_goals
      split at hs <;> cases hs
      exact .frame rfl rfl rfl rfl fun _ => trivial
  | exec n i | free n | notify =>
    cases c <;> cases hs
    exact .frame rfl rfl rfl rfl fun _ => trivial
  | done => cases c <;> cases hs

theorem step_counts (hs : step s l c = some (s',l',new)) : Counts s s' l l' new := by
  cases step_act hs with
  | loop hp => exact loop_counts hp
  | batch hp => exact batch_counts hp
  | @pause pc pc' s' hp =>
    have he : s'.busyWorkers = s.busyWorkers ∧ s'.concurrency = s.concurrency := by
      cases pc <;> simp only [pauseStep] at hp <;> grind
    exact .frame he.1 he.2 rfl rfl fun _ => trivial
  | @resume pc pc' s' hp =>
    have he : s'.busyWorkers = s.busyWorkers ∧ s'.concurrency = s.concurrency := by
      cases pc <;> simp only [resumeStep] at hp <;> grind
    exact .frame he.1 he.2 rfl rfl fun _ => trivial
  | stop hp => exact .frame (stop_counters hp).1 (stop_counters hp).2 rfl rfl fun _ => trivial
  | start hp =>
    obtain ⟨hb,hc,hn⟩ := start_counters hp
    exact .frame hb hc rfl hn fun _ => trivial
  | restart hp =>
    obtain ⟨hb,hc,hn⟩ := restart_counters hp
    exact .frame hb hc rfl hn fun _ => trivial
  | @waiter k pc pc' s' armed hp =>
    refine .frame (wait_counters hp).1 (wait_counters hp).2 rfl ?_ fun _ => trivial
    cases armed <;> rfl
  | @broadcast pc pc' s' hp =>
    have he : s'.busyWorkers = s.busyWorkers ∧ s'.concurrency = s.concurrency := by
      cases pc <;> simp only [broadcastStep] at hp <;> grind
    exact .frame he.1 he.2 rfl rfl fun _ => trivial
  | cancelParent => exact .frame rfl rfl rfl rfl fun _ => trivial
  | notify => exact .frame rfl rfl rfl rfl fun _ => trivial
  | @tunePool n =>
    exact ⟨fun y hy => hy,.inl (Nat.le_refl _),.inr ⟨n,rfl⟩,fun _ hle hc => ⟨by rw [hc]; exact hle,trivial⟩⟩

theorem room_mono {t : Thread} (hb : s'.busyWorkers ≤ s.busyWorkers)
    (hc : s'.concurrency = s.concurrency) (h : Room s t) : Room s' t := by
  unfold Room at h ⊢
  split <;> simp only at h ⊢ <;> omega

theorem room_of_not_live {t : Thread} (h : (weights t).live = 0) : Room s t := by
  cases t with
  | loop k pc => cases pc <;> trivial
  | _ => trivial

theorem room_new (hs : step s l c = some (s',l',new)) : ∀ t ∈ new, Room s' t := by
  intro t ht
  have hn := step_spawned hs t ht
  cases t with
  | loop k pc =>
    rw [step_new_loop hs ht]
    trivial
  | batch pc => trivial
  | broadcast pc => trivial
  | _ => cases hn

theorem sum_reserved (ts : List Thread) : (sum ts).reserved = total reservedBy ts :=
  sum_total Weights.reserved rfl (fun _ _ => rfl) ts

theorem sum_live (ts : List Thread) : (sum ts).live = total (fun l => (weights l).live) ts :=
  sum_total Weights.live rfl (fun _ _ => rfl) ts

def tunes : Thread → Bool
  | .tunePool _ _ => true
  | _ => false

theorem tunes_step (hs : step s l c = some (s',l',new)) :
    tunes l' = tunes l ∧ ∀ t ∈ new, tunes t = false := by
  refine ⟨?_,fun t ht => ?_⟩
  · cases step_act hs <;> rfl
  · have := step_spawned hs t ht
    cases t <;> first | rfl | cases this

structure Counted (n : ℕ) (s : Shared) (ts : List Thread) : Prop where
  inv : Inv s ts
  busy : s.busyWorkers = total busyOf ts
  limit : (∀ t ∈ ts, tunes t = false) →
    s.concurrency = n ∧ s.busyWorkers ≤ n ∧ ∀ t ∈ ts, Room s t

theorem counted_newWorker (n : ℕ) : Counted n (newWorker n).shared (newWorker n).threads :=
  ⟨inv_newWorker n,rfl,fun _ => ⟨rfl,Nat.zero_le _,by simp [newWorker]⟩⟩

theorem counted_call {n : ℕ} {ts : List Thread} (h : Counted n s ts) (he : entry s l = true) :
    Counted n s (ts ++ [l]) := by
  have hl : busyOf l = 0 ∧ Room s l := by
    unfold entry at he
    split at he <;> first | exact ⟨rfl,trivial⟩ | cases he
  refine ⟨inv_call h.inv he,?_,fun ht => ?_⟩
  · rw [total_call,hl.1]
    exact h.busy
  · obtain ⟨hc,hb,hr⟩ := h.limit fun t hm => ht t (List.mem_append_left _ hm)
    exact ⟨hc,hb,forall_call hr hl.2⟩

theorem counted_act {n : ℕ} {xs ys : List Thread} (h : Counted n s (xs ++ l :: ys))
    (hs : step s l c = some (s',l',new)) : Counted n s' (xs ++ l' :: (ys ++ new)) := by
  have hk := step_counts hs
  refine ⟨inv_act h.inv hs,?_,fun ht => ?_⟩
  · have hb := h.busy
    rw [total_split] at hb
    rw [total_act]
    have := hk.busy _ hb
    omega
  · obtain ⟨htl,htn⟩ := tunes_step hs
    have hold : ∀ t ∈ xs ++ l :: ys, tunes t = false := by
      intro t hm
      rcases mem_split hm with hm | rfl
      · exact ht t (mem_of_act hm)
      · rw [← htl]
        exact ht l' (by simp)
    obtain ⟨hc,hb,hr⟩ := h.limit hold
    have hc' : s'.concurrency = s.concurrency := by
      rcases hk.limit with hc' | ⟨m,rfl⟩
      · exact hc'
      · cases hold _ (List.mem_append_right _ List.mem_cons_self)
    obtain ⟨hle,hroom⟩ := hk.room (hr l (by simp)) (by omega) hc'
    refine ⟨by omega,by omega,forall_act (fun t hm => ?_) hroom (room_new hs)⟩
    rcases hk.raised with hlow | hlive
    · exact room_mono hlow hc' (hr t (mem_of_other hm))
    · have hone := h.inv.balanced.oneLoop
      rw [sum_live,total_split] at hone
      have hle' := le_total (f := fun l => (weights l).live) hm
      exact room_of_not_live (by omega)

theorem counted_reach {ok : Guard Shared Thread Choice} {n : ℕ} {w : World Shared Thread}
    (h : program.Reach ok (newWorker n) w) : Counted n w.shared w.threads :=
  Program.reach_invariant (counted_newWorker n) (fun _ _ _ h _ he => counted_call h he)
    (fun _ _ _ _ _ _ _ _ h _ hs => counted_act h hs) h

theorem releases_le (l : Thread) : releases l ≤ reservedBy l := by
  cases l with
  | loop k pc =>
    cases pc with
    | finish pc r =>
      cases pc with
      | dec m =>
        simp only [releases,reservedBy,weights,loopWeights,Weights.add,FinishPc.weights]
        omega
      | _ => exact Nat.zero_le _
    | _ => exact Nat.zero_le _
  | batch pc =>
    cases pc with
    | finish pc => cases pc <;> exact Nat.le_refl _
    | _ => exact Nat.zero_le _
  | _ => exact Nat.zero_le _

theorem returnsNode_le (l : Thread) : returnsNode l ≤ busyOf l := by
  cases l with
  | loop k pc => cases pc <;> first | exact Nat.le_refl _ | exact Nat.zero_le _
  | batch pc => cases pc <;> first | exact Nat.le_refl _ | exact Nat.zero_le _
  | _ => exact Nat.zero_le _

theorem executes_le (l : Thread) : executes l ≤ busyOf l := by
  cases l with
  | batch pc => cases pc <;> first | exact Nat.le_refl _ | exact Nat.zero_le _
  | _ => exact Nat.zero_le _

theorem idle_of_not_inFlight (h : inFlight l = false) : reservedBy l = 0 ∧ busyOf l = 0 := by
  cases l with
  | loop k pc =>
    cases pc with
    | wait pc => cases pc <;> exact ⟨rfl,rfl⟩
    | _ => first | exact ⟨rfl,rfl⟩ | cases h
  | batch pc => cases pc <;> first | exact ⟨rfl,rfl⟩ | simp [inFlight] at h
  | pause pc => cases pc <;> exact ⟨rfl,rfl⟩
  | resume pc => cases pc <;> exact ⟨rfl,rfl⟩
  | stop pc => cases pc <;> exact ⟨rfl,rfl⟩
  | start pc => cases pc <;> exact ⟨rfl,rfl⟩
  | restart pc =>
    cases pc with
    | stop pc => cases pc <;> exact ⟨rfl,rfl⟩
    | start pc => cases pc <;> exact ⟨rfl,rfl⟩
    | _ => exact ⟨rfl,rfl⟩
  | waiter k pc => exact ⟨rfl,rfl⟩
  | broadcast pc => cases pc <;> exact ⟨rfl,rfl⟩
  | _ => exact ⟨rfl,rfl⟩

theorem processing_counters_exact {n : ℕ} {w : World Shared Thread}
    (h : program.Reach always (newWorker n) w) :
    w.shared.curProcessing = total reservedBy w.threads ∧
    w.shared.busyWorkers = total busyOf w.threads ∧
    (∀ l ∈ w.threads, releases l ≤ reservedBy l ∧ releases l ≤ w.shared.curProcessing ∧
      returnsNode l ≤ busyOf l ∧ returnsNode l ≤ w.shared.busyWorkers) ∧
    ((∀ l ∈ w.threads, inFlight l = false) →
      w.shared.curProcessing = 0 ∧ w.shared.busyWorkers = 0) ∧
    ((∀ l ∈ w.threads, tunes l = false) →
      w.shared.busyWorkers ≤ n ∧ total executes w.threads ≤ n) := by
  have hk := counted_reach h
  have hcur : w.shared.curProcessing = total reservedBy w.threads := by
    rw [hk.inv.balanced.counted,sum_reserved]
  refine ⟨hcur,hk.busy,fun l hl => ?_,fun hf => ?_,fun ht => ?_⟩
  · have h1 := releases_le l
    have h2 := returnsNode_le l
    have h3 := le_total (f := reservedBy) hl
    have h4 := le_total (f := busyOf) hl
    have h5 := hk.busy
    exact ⟨h1,by omega,h2,by omega⟩
  · have h1 := total_eq_zero.mpr fun l hl => (idle_of_not_inFlight (hf l hl)).1
    have h2 := total_eq_zero.mpr fun l hl => (idle_of_not_inFlight (hf l hl)).2
    exact ⟨hcur.trans h1,hk.busy.trans h2⟩
  · obtain ⟨-,hb,-⟩ := hk.limit ht
    have hx := total_le fun l (_ : l ∈ w.threads) => executes_le l
    have h5 := hk.busy
    exact ⟨hb,by omega⟩

-- A batch of two is handed out and its first job runs while the loop reserves a credit.
def countedRun : List (Event Thread Choice) :=
  .call (.start .lock) :: (List.replicate 9 (.act 0 .go) : Events Thread Choice) ++
  ([.act 1 (.signal false)] : Events Thread Choice) ++
  (List.replicate 3 (.act 1 .go) : Events Thread Choice) ++
  ([.act 1 (.flag true),.act 1 (.pick 2)] : Events Thread Choice) ++
  (List.replicate 4 (.act 1 .go) : Events Thread Choice) ++
  ([.act 1 (.fill 2 false),.act 1 .go,.act 2 .start,.call (.notify false),.act 3 .go,
    .act 1 (.signal true),.act 1 .go,.act 1 (.flag true)] : Events Thread Choice) ++
  (List.replicate 3 (.act 1 .go) : Events Thread Choice)

theorem processing_counters_exact_running : ∃ w, program.Reach always (newWorker 2) w ∧
    w.shared.curProcessing = 3 ∧ total reservedBy w.threads = 3 ∧ w.shared.busyWorkers = 1 ∧
    total busyOf w.threads = 1 ∧ total executes w.threads ≤ 2 := by
  obtain ⟨w,hr,hp⟩ := Program.exists_reach_of_run program always (newWorker 2) countedRun
    (fun w => w.shared.curProcessing = 3 && w.shared.busyWorkers = 1 &&
      w.threads.all fun l => !tunes l) (by decide)
  simp only [Bool.and_eq_true,decide_eq_true_eq,List.all_eq_true,Bool.not_eq_true'] at hp
  obtain ⟨hcur,hbusy,-,-,hlim⟩ := processing_counters_exact hr
  exact ⟨w,hr,hp.1.1,hcur.symm.trans hp.1.1,hp.1.2,hbusy.symm.trans hp.1.2,(hlim hp.2).2⟩

end Varmq.Lifecycle
