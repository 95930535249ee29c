import Varmq.Lifecycle.Counters
import Varmq.Credit.Added

namespace Varmq.Credit

open Interleaving
open Varmq.Lifecycle (LoopPc)

-- A batch is under way; its goroutine signals when it is done.
def works : Thread → Bool
  | .worker (.batch (.check _ _)) _ | .worker (.batch (.exec _ _)) _ => true
  | .worker (.batch (.free _)) _ | .worker (.batch (.release _)) _ => true
  | _ => false

-- The loop is going to be woken.
def Stirs (s : Shared) (ts : List Thread) : Prop :=
  Strong true s ts ∨ ∃ t ∈ ts, works t = true

def Tended (s : Shared) (ts : List Thread) : Prop :=
  s.core.status.isActive = true → s.src.sole = true → 0 < s.src.storage → Stirs s ts

-- The classic loop has made its last look at the storage before it waits for a signal, and a slot is
-- free.
def resting (s : Shared) : LoopPc → Look → Bool
  | .select, _ | .finish _ .select, _ => s.core.busyWorkers < s.core.concurrency
  | .limit busy, _ => s.core.concurrency ≤ busy && s.core.busyWorkers < s.core.concurrency
  | .giveBack _ false, _ | .fill _, .taken _ false => true
  | _, _ => false

-- The credit pass goes no further than its look at the manager.
def classic : LoopPc → Look → Bool
  | .select, _ | .fill _, _ => true
  | .active, look => look = .idle || look = .manager
  | .creditActive, look => look = .manager
  | .creditReady, _ | .creditSlots, _ | .creditLimit _, _ | .creditEnd, _ => false
  | .count .credit _, _ | .reserve .credit _, _ | .claim .credit _, _ => false
  | .emit _, _ | .emitBusy _, _ | .emitSend _, _ | .finish _ .creditEnd, _ => false
  | _, look => look = .idle

structure Rests (s : Shared) (ts : List Thread) (pc : LoopPc) (look : Look) : Prop where
  classic : classic pc look = true
  tended : resting s pc look = true → Tended s ts

variable {s s' : Shared} {c : Choice} {l l' t : Thread} {new : List Thread} {xs ys ts : List Thread}
  {k : ℕ} {pc pc' : LoopPc} {look look' : Look}

theorem works_act (h : works l = true) (hs : Act s c l s' l' new) :
    works l' = true ∨ strong true l' = true := by
  cases hs with
  | @core t t' look look' d core new hc ha hp =>
    cases Lifecycle.step_act hp with
    | @batch pc pc' s' hq =>
      cases pc with
      | check n i =>
        cases d <;> simp only [Lifecycle.batchStep] at hq <;> try cases hq
        all_goals
          split at hq <;> cases hq
          exact .inl rfl
      | exec n i | free n =>
        cases d <;> cases hq
        exact .inl rfl
      | release n =>
        cases d <;> cases hq
        exact .inr rfl
      | finish q => cases h
      | notify | done => cases h
    | _ => cases h
  | @look t look look' src new hp =>
    cases t with
    | batch pc => cases hp
    | _ => cases h
  | _ => cases h

theorem Stirs.side (h : Stirs s (xs ++ l :: ys)) (hs : Side true s s' l l')
    (ha : Act s c l s' l' new) : Stirs s' (xs ++ l' :: (ys ++ new)) := by
  rcases h with h | ⟨t,ht,hw⟩
  · exact .inl (hs.strong h)
  · rcases mem_split ht with ht | rfl
    · exact .inr ⟨t,mem_of_act ht,hw⟩
    · rcases works_act hw ha with h | h
      · exact .inr ⟨l',by simp,h⟩
      · exact .inl (strong_own h)

theorem resting_mono (hb : s.core.busyWorkers ≤ s'.core.busyWorkers)
    (hc : s'.core.concurrency = s.core.concurrency) (h : resting s' pc look = true) :
    resting s pc look = true := by
  unfold resting at *
  split at h
  · simp only [decide_eq_true_eq] at h ⊢
    omega
  · simp only [decide_eq_true_eq] at h ⊢
    omega
  · simp only [Bool.and_eq_true,decide_eq_true_eq] at h ⊢
    omega
  · rfl
  · rfl
  · cases h

theorem told_signal (hb : s.src.batch = false) (hr : s.src.registered = true) :
    Strong true s' (xs ++ l' :: (ys ++ announcements s.src)) := by
  refine .inr ⟨.announce .signal,?_,rfl⟩
  simp [announcements,hr,hb]

theorem Rests.side (h : Rests s (xs ++ l :: ys) pc look) (hs : Side true s s' l l')
    (ha : Act s c l s' l' new) (hb : s.src.batch = false)
    (hl : l = .enqueue false → resting s pc look = true → s.src.sole = true →
      s.src.registered = true ∨ Stirs s (xs ++ l :: ys)) :
    Rests s' (xs ++ l' :: (ys ++ new)) pc look := by
  refine ⟨h.classic,fun hr hact hsole hn => ?_⟩
  by_cases ho : strong true l' = true
  · exact .inl (strong_own ho)
  · have hsole' : s.src.sole = true := (hs.sole hsole).resolve_right fun h => ho h.1
    have hr' := resting_mono (hs.busy.resolve_right ho) hs.limit hr
    rcases hs.stored with hle | hp | ⟨-,hp⟩ | rfl
    · exact (h.tended hr' (hs.active hact) hsole' (Nat.lt_of_lt_of_le hn hle)).side hs ha
    · exact absurd (poking_strong hp) ho
    · exact absurd hp ho
    · rcases hl rfl hr' hsole' with hreg | hst
      · obtain ⟨rfl,rfl,rfl⟩ := lands_act ha
        exact .inl (told_signal hb hreg)
      · exact hst.side hs ha

theorem Tended.pass {core : Lifecycle.Shared} (hsig : s.core.signal = true → core.signal = true)
    (hact : core.status.isActive = true → s.core.status.isActive = true)
    (h : Tended s (xs ++ .worker (.loop k pc) look :: ys)) :
    Tended { s with core } (xs ++ .worker (.loop k pc') look' :: (ys ++ new)) := by
  intro ha hsole hn
  rcases h (hact ha) hsole hn with h | ⟨t,ht,hw⟩
  · exact .inl (h.pass hsig)
  · rcases mem_split ht with ht | rfl
    · exact .inr ⟨t,mem_of_act ht,hw⟩
    · cases hw

theorem tended_inactive (h : s.core.status.isActive = false) : Tended s ts := by
  intro hact
  rw [h] at hact
  cases hact

-- busyWorkers counts the batches under way and the one the loop is about to send.
theorem busy_act (h : s.core.busyWorkers = total Lifecycle.busyOf ((xs ++ l :: ys).map coreOf))
    (hs : Act s c l s' l' new) :
    s'.core.busyWorkers = total Lifecycle.busyOf ((xs ++ l' :: (ys ++ new)).map coreOf) := by
  rw [List.map_append,List.map_cons,total_split] at h
  rw [List.map_append,List.map_cons,List.map_append,total_act]
  rcases act_cored hs with ⟨d,hp⟩ | ⟨hc,hl,hn⟩
  · rw [← (Lifecycle.step_counts hp).busy _ h]
  · have hbusy : s'.core.busyWorkers = s.core.busyWorkers := by
      rcases hc with hc | hc <;> rw [hc]
    have hzero : total Lifecycle.busyOf (new.map coreOf) = 0 := by
      refine total_eq_zero.mpr fun u hu => ?_
      obtain ⟨v,hv,rfl⟩ := List.mem_map.mp hu
      rw [hn v hv]
      rfl
    rw [hbusy,hl,hzero]
    exact h

theorem over_busy (h : loopOver pc = true) : Lifecycle.loopBusy pc = 0 := by
  cases pc <;> first | rfl | cases h

-- While the loop holds no node itself, a busy worker is one that runs a batch.
theorem busy_works (hi : Lifecycle.Inv s.core ((xs ++ .worker (.loop k pc) look :: ys).map coreOf))
    (hb : s.core.busyWorkers =
      total Lifecycle.busyOf ((xs ++ .worker (.loop k pc) look :: ys).map coreOf))
    (ho : loopOver pc = false) (hz : Lifecycle.loopBusy pc = 0) (hpos : 0 < s.core.busyWorkers) :
    ∃ t ∈ xs ++ ys, works t = true := by
  rw [hb] at hpos
  obtain ⟨u,hu,hbu⟩ := exists_of_total hpos
  obtain ⟨t,ht,rfl⟩ := List.mem_map.mp hu
  have halone := serves_alone hi (by simp only [serving,ho,Bool.not_false])
  rcases mem_split ht with ht | rfl
  · refine ⟨t,ht,?_⟩
    cases t with
    | worker t look =>
      cases t with
      | loop k' pc' =>
        have hfalse := halone _ ht
        simp only [serving,Bool.not_eq_eq_eq_not,Bool.not_false] at hfalse
        rw [coreOf,Lifecycle.busyOf,over_busy hfalse] at hbu
        cases hbu
      | batch pc => cases pc <;> first | rfl | cases hbu
      | _ => cases hbu
    | _ => cases hbu
  · rw [coreOf,Lifecycle.busyOf,hz] at hbu
    cases hbu

section Core

variable {core : Lifecycle.Shared} {d : Lifecycle.Choice} {newL : List Lifecycle.Thread}

-- A step to a point where the loop is going to look again.
theorem rests_on (hc : classic pc look = true) (hr : resting s pc look = false) : Rests s ts pc look :=
  ⟨hc,fun h => by rw [hr] at h; cases h⟩

theorem rests_core (hi : Lifecycle.Inv s.core ((xs ++ .worker (.loop k pc) look :: ys).map coreOf))
    (hz : s.core.busyWorkers =
      total Lifecycle.busyOf ((xs ++ .worker (.loop k pc) look :: ys).map coreOf))
    (hb : s.src.batch = false) (h : Rests s (xs ++ .worker (.loop k pc) look :: ys) pc look)
    (ha : advance s (.loop k pc) look d = some look')
    (hs : Lifecycle.loopStep s.core k pc d = some (core,pc',newL)) (ho : loopOver pc' = false) :
    Rests { s with core } (xs ++ .worker (.loop k pc') look' :: (ys ++ newL.map lift)) pc' look' := by
  have hc := h.classic
  have hpass : pc ≠ .select → resting s pc look = true → Tended { s with core }
      (xs ++ .worker (.loop k pc') look' :: (ys ++ newL.map lift)) := fun hn hr =>
    have hp := loop_passes hn hs
    (h.tended hr).pass hp.signal hp.active
  cases pc with
  | select =>
    cases d <;> simp only [Lifecycle.loopStep] at hs <;> try cases hs
    · split at hs <;> cases hs
      cases ho
    · split at hs <;> cases hs
      cases ha
      split <;> exact rests_on rfl rfl
  | active =>
    have hidle : look' = .idle := by
      simp only [advance] at ha
      split at ha <;> cases ha
      rfl
    subst hidle
    cases d <;> cases hs
    by_cases hact : s.core.status.isActive = true
    · rw [if_pos hact]
      exact rests_on rfl rfl
    · rw [if_neg hact]
      exact ⟨rfl,fun _ => tended_inactive (by simpa using hact)⟩
  | slots =>
    cases of_decide_eq_true hc
    cases ha
    cases d <;> cases hs
    refine ⟨rfl,fun hr => ?_⟩
    simp only [resting,Bool.and_eq_true,decide_eq_true_eq] at hr
    omega
  | limit busy =>
    cases of_decide_eq_true hc
    cases ha
    cases d <;> cases hs
    by_cases hlt : busy < s.core.concurrency
    · rw [if_pos hlt]
      exact rests_on rfl rfl
    · rw [if_neg hlt] at hpass ⊢
      refine ⟨rfl,fun hr => hpass (fun he => by cases he) ?_⟩
      simp only [resting,decide_eq_true_eq] at hr
      simp only [resting,Bool.and_eq_true,decide_eq_true_eq]
      exact ⟨Nat.le_of_not_lt hlt,hr⟩
  | pending =>
    cases of_decide_eq_true hc
    cases d with
    | flag b =>
      cases hs
      simp only [advance] at ha
      split at ha <;> cases ha
      rename_i hmay
      cases b with
      | true => exact rests_on rfl rfl
      | false =>
        refine ⟨rfl,fun _ _ hsole hn => ?_⟩
        have hsole' : s.src.sole = true := hsole
        have hpos : 0 < s.src.storage := hn
        simp [mayReport,hsole',hb,hpos] at hmay
    | _ => cases hs
  | plan =>
    cases of_decide_eq_true hc
    cases d with
    | pick n =>
      simp only [advance] at ha
      split at ha <;> cases ha
      rename_i hpick
      simp only [Lifecycle.loopStep] at hs
      split at hs <;> cases hs
      by_cases hn : n = 0
      · rw [if_pos hn]
        refine ⟨rfl,fun _ _ _ _ => .inr ?_⟩
        have hpos : 0 < s.core.busyWorkers := by omega
        obtain ⟨t,ht,hw⟩ := busy_works hi hz rfl rfl hpos
        exact ⟨t,mem_of_act ht,hw⟩
      · rw [if_neg hn]
        exact rests_on rfl rfl
    | _ => cases hs
  | take n =>
    cases of_decide_eq_true hc
    cases ha
    cases d <;> cases hs
    exact rests_on rfl rfl
  | count m n =>
    cases m with
    | batch =>
      cases of_decide_eq_true hc
      cases ha
      cases d <;> cases hs
      exact rests_on rfl rfl
    | credit => cases hc
  | reserve m n =>
    cases m with
    | batch =>
      cases of_decide_eq_true hc
      cases ha
      cases d <;> simp only [Lifecycle.loopStep] at hs <;> try cases hs
      split at hs
      · cases hs
        exact rests_on rfl rfl
      · rename_i hrun
        split at hs
        · cases hs
          exact rests_on rfl rfl
        · rename_i hidle
          cases hs
          refine ⟨rfl,fun _ => tended_inactive ?_⟩
          cases hst : s.core.status <;> first | rfl | exact absurd hst hrun | exact absurd hst hidle
    | credit => cases hc
  | claim m n =>
    cases m with
    | batch =>
      cases of_decide_eq_true hc
      cases ha
      cases d <;> simp only [Lifecycle.loopStep] at hs <;> try cases hs
      split at hs <;> cases hs <;> exact rests_on rfl rfl
    | credit => cases hc
  | fill m =>
    cases d with
    | fill n cont =>
      simp only [advance,hb] at ha
      split at ha <;> cases ha
      rename_i hl
      have hlook : look = .taken n cont ∨ s.src.sole = false := hl.imp_right fun he => by simpa using he.2
      simp only [Lifecycle.loopStep] at hs
      split at hs
      · cases hs
        cases cont with
        | true => exact rests_on rfl rfl
        | false =>
          refine ⟨rfl,fun _ => ?_⟩
          rcases hlook with rfl | hsole
          · exact hpass (fun he => by cases he) rfl
          · intro _ hsole'
            rw [hsole] at hsole'
            cases hsole'
      · split at hs
        · cases hs
          exact rests_on rfl rfl
        · split at hs <;> cases hs
          exact rests_on rfl rfl
    | _ => cases hs
  | giveBack m cont =>
    cases of_decide_eq_true hc
    cases ha
    cases d <;> cases hs
    cases cont with
    | true => exact rests_on rfl rfl
    | false => exact ⟨rfl,fun _ => hpass (fun he => by cases he) rfl⟩
  | send m cont =>
    cases of_decide_eq_true hc
    cases ha
    cases d <;> cases hs
    have hnew : Stirs s (xs ++ .worker (.loop k (Lifecycle.afterSend cont).pc) .idle ::
        (ys ++ [Lifecycle.Thread.batch (.check m 0)].map lift)) :=
      .inr ⟨.worker (.batch (.check m 0)) .idle,by simp [lift],rfl⟩
    cases cont with
    | true => exact rests_on rfl rfl
    | false => exact ⟨rfl,fun _ _ _ _ => hnew⟩
  | finish q ret =>
    have hi : ret ≠ .creditEnd ∧ look = .idle := by
      cases ret <;> first | exact ⟨(fun he => by cases he),of_decide_eq_true hc⟩ | cases hc
    obtain ⟨hret,rfl⟩ := hi
    cases ha
    cases d <;> simp only [Lifecycle.loopStep] at hs <;> try cases hs
    split at hs <;> cases hs
    all_goals
      obtain ⟨hbusy,hlimit⟩ := Lifecycle.finish_counters ‹_›
      cases ret with
      | select =>
        refine ⟨rfl,fun hr => hpass (fun he => by cases he) ?_⟩
        simp only [resting,Lifecycle.Ret.pc,hbusy,hlimit] at hr
        exact hr
      | creditEnd => exact absurd rfl hret
      | again | send n cont => exact rests_on rfl rfl
  | creditActive =>
    simp only [advance] at ha
    split at ha <;> cases ha
    rename_i hidle
    rw [hidle] at hc
    cases hc
  | creditReady | creditSlots | creditLimit _ | emit _ | emitBusy _ | emitSend _ | creditEnd => cases hc
  | wait q =>
    simp only [Lifecycle.loopStep] at hs
    split at hs <;> cases hs <;> cases ho
  | stopLock =>
    cases d <;> simp only [Lifecycle.loopStep] at hs <;> try cases hs
    split at hs <;> cases hs
    cases ho
  | removeAll | stopStore | stopWake | stopUnlock | exited =>
    cases d <;> cases hs
    all_goals cases ho

end Core

theorem rests_look {src : Source} (hb : s.src.batch = false)
    (h : Rests s (xs ++ .worker (.loop k pc) look :: ys) pc look)
    (hs : lookStep s.src (.loop k pc) look c = some (src,look',new)) :
    Rests { s with src } (xs ++ .worker (.loop k pc) look' :: (ys ++ new)) pc look' := by
  have hc := h.classic
  unfold lookStep at hs
  split at hs
  · rename_i heq
    cases heq
    split at hs <;> cases hs
    exact rests_on rfl rfl
  · rename_i heq
    cases heq
    simp only [hb,Bool.and_false,Bool.false_eq_true,if_false] at hs
    cases hs
  · rename_i heq
    cases heq
    cases hc
  · rename_i heq
    cases heq
    cases hc
  · rename_i heq
    cases heq
    cases hc
  · rename_i heq
    cases heq
    unfold nextStep at hs
    split at hs
    · cases hs
      by_cases hz : s.src.storage = 0
      · refine ⟨rfl,fun _ _ _ hn => ?_⟩
        exact absurd hz (Nat.ne_of_gt hn)
      · rw [if_neg hz]
        exact rests_on rfl rfl
    · split at hs <;> cases hs <;> exact rests_on rfl rfl
    · split at hs <;> cases hs
      exact rests_on rfl rfl
    · split at hs <;> cases hs
      exact rests_on rfl rfl
    · cases hs
  · cases hs

structure Served (s : Shared) (ts : List Thread) : Prop where
  core : Lifecycle.Inv s.core (ts.map coreOf)
  busy : s.core.busyWorkers = total Lifecycle.busyOf (ts.map coreOf)
  batch : s.src.batch = false
  joins : ∀ t ∈ ts, joins true t = true
  bound : s.src.sole = true ∨ ∃ t ∈ ts, t = .distributed .lock ∨ t = .distributed .store
  loops : ∀ k pc look, .worker (.loop k pc) look ∈ ts → loopOver pc = false → Rests s ts pc look

theorem loop_rests (h : Served s (xs ++ .worker (.loop k pc) look :: ys)) (ho : loopOver pc = false)
    (hs : Act s c (.worker (.loop k pc) look) s' l' new) :
    Fixed s.src s'.src ∧ ∀ k' pc' look', l' = .worker (.loop k' pc') look' → loopOver pc' = false →
      Rests s' (xs ++ l' :: (ys ++ new)) pc' look' := by
  have hat := h.loops k pc look (by simp) ho
  cases hs with
  | @core t t' _ look' d core new hc ha hp =>
    refine ⟨.refl _,?_⟩
    rintro k' pc' _ ⟨⟩ ho'
    obtain ⟨⟨s₁,pc₁,new₁⟩,hstep,heq⟩ := Option.map_eq_some_iff.mp hp
    cases heq
    exact rests_core h.core h.busy h.batch hat ha hstep ho'
  | look hp =>
    refine ⟨look_fixed hp,?_⟩
    rintro k' pc' look' ⟨⟩ -
    exact rests_look h.batch hat hp

theorem Served.act (h : Served s (xs ++ l :: ys)) (hs : Act s c l s' l' new)
    (hl : l = .enqueue false → ∀ k pc look, .worker (.loop k pc) look ∈ xs ++ ys → loopOver pc = false →
      resting s pc look = true → s.src.sole = true →
      s.src.registered = true ∨ Stirs s (xs ++ l :: ys)) : Served s' (xs ++ l' :: (ys ++ new)) := by
  have hjoin := h.joins l (by simp)
  obtain ⟨hl',hnew⟩ := joins_act hjoin hs
  have hside : serving l = false → Side true s s' l l' :=
    fun hb => act_side hjoin (joins_bystander hjoin hb) hs
  have hsrc : (s.src.sole = true → s'.src.sole = true) ∧ s'.src.batch = s.src.batch := by
    cases hserve : serving l with
    | true =>
      obtain ⟨k,pc,look,rfl,ho⟩ := serving_loop hserve
      have hfix := (loop_rests h ho hs).1
      exact ⟨fun he => hfix.sole.trans he,hfix.batch⟩
    | false => exact ⟨(hside hserve).lone,(hside hserve).batch⟩
  refine ⟨core_act h.core hs,busy_act h.busy hs,hsrc.2.trans h.batch,
    forall_act (fun t ht => h.joins t (mem_of_other ht)) hl' hnew,bound_act h.bound hsrc.1 hs,
    serving_act h.core hs (fun hb => bystander_serves (joins_bystander hjoin hb) hs) ?_ ?_ ?_⟩
  · rintro k pc look rfl ho
    exact (loop_rests h ho hs).2
  · intro hb k pc look hm ho
    exact (h.loops k pc look (mem_of_other hm) ho).side (hside hb) hs h.batch
      fun he => hl he k pc look hm ho
  · exact fun hi => ⟨rfl,fun _ => tended_inactive hi⟩

theorem Stirs.call (h : Stirs s ts) : Stirs s (ts ++ [l]) :=
  h.imp (Or.imp_right fun ⟨t,ht,ho⟩ => ⟨t,List.mem_append_left _ ht,ho⟩)
    fun ⟨t,ht,hw⟩ => ⟨t,List.mem_append_left _ ht,hw⟩

theorem Served.call (h : Served s ts) : Served s (ts ++ [.enqueue false]) := by
  refine ⟨core_call h.core rfl,?_,h.batch,forall_call h.joins rfl,
    h.bound.imp_right fun ⟨t,ht,he⟩ => ⟨t,List.mem_append_left _ ht,he⟩,fun k pc look hm ho => ?_⟩
  · rw [List.map_append,List.map_singleton,total_call]
    exact h.busy
  · rcases List.mem_append.mp hm with hm | hm
    · have hat := h.loops k pc look hm ho
      exact ⟨hat.classic,fun hr hact hsole hn => (hat.tended hr hact hsole hn).call⟩
    · cases List.mem_singleton.mp hm

end Varmq.Credit
