import Varmq.Waiters.Broadcast

namespace Varmq.Waiters

open Interleaving
open Varmq.Worker (Status)
open Varmq.Lifecycle (Choice WaitKind WaitPc LoopPc RestartPc BroadcastPc weights)

inductive Sleeper where
  | wait (k : WaitKind)
  | restart
  deriving DecidableEq, Repr

def sleeping (s : Shared) : Lifecycle.Thread → Option Sleeper
  | .waiter k (.asleep n) => if s.core.wakes = n then some (.wait k) else none
  | .loop _ (.wait (.asleep n)) => if s.core.wakes = n then some (.wait .wait) else none
  | .restart (.asleep n) => if s.core.wakes = n then some .restart else none
  | _ => none

-- The condition that ends the call, with the value NumPending would return.
def condition (s : Shared) (numPending : ℕ) : Sleeper → Bool
  | .wait .wait =>
      match s.core.status with
      | .running | .idle => numPending = 0 && s.core.curProcessing = 0
      | .initiated => true
      | _ => s.core.curProcessing = 0
  | .wait .untilIdle =>
      s.core.status = .idle && numPending = 0 && s.core.curProcessing = 0
  | .wait .untilPaused => s.core.status = .paused
  | .wait .untilStopped => s.core.status = .stopped
  | .restart => s.core.status = .stopped || s.core.status.isActive

def certain : Thread → Bool
  | .call t _ => sure t
  | .timer _ .armed => false
  | .timer _ (.fired pc) => sure (.broadcast pc)

def draining : Thread → Bool
  | .call t _ => drained t
  | .timer _ _ => false

-- A Broadcast still to execute.
def broadcasts (s : Shared) (l : Thread) : Bool :=
  certain l || draining l && s.core.curProcessing = 0

def armedFor (s : Shared) (ts : List Thread) (tm : Option ℕ) : Prop :=
  ∃ id, tm = some id ∧ id ∈ s.timers ∧ .timer id .armed ∈ ts

structure Rings (s s' : Shared) (l l' : Thread) : Prop where
  wakes : s'.core.wakes = s.core.wakes ∨
    s.core.wakes < s'.core.wakes ∧ 0 < (weights (proj l)).crit
  kept : certain l = true → certain l' = true ∨ s.core.wakes < s'.core.wakes
  found : s.core.curProcessing = 0 → draining l = true → draining l' = true ∨ certain l' = true
  zero : s'.core.curProcessing = 0 → s.core.curProcessing = 0 ∨ draining l' = true
  paused : s'.core.status = .paused → s.core.status = .paused ∨ certain l' = true
  stopped : s'.core.status = .stopped → s.core.status = .stopped ∨ certain l' = true
  active : s'.core.status.isActive = true → s.core.status.isActive = true ∨ certain l' = true
  initiated : s'.core.status = .initiated → s.core.status = .initiated

variable {s s' : Shared} {l l' : Thread} {c : Choice} {new xs ys ts us : List Thread}

theorem Signals.rings {tm tm' : Option ℕ} {t t' : Lifecycle.Thread}
    (h : Signals s.core s'.core t t') : Rings s s' (.call t tm) (.call t' tm') :=
  ⟨h.wakes,h.kept,h.found,h.zero,h.paused,h.stopped,h.active,h.initiated⟩

theorem step_rings (hs : step s l c = some (s',l',new)) : Rings s s' l l' := by
  cases step_act hs with
  | call hp _ _ => exact (step_signals hp).rings
  | arm hp _ => exact (step_signals hp).rings
  | stop _ => exact ⟨.inl rfl,.inl,fun _ => .inl,.inl,.inl,.inl,.inl,id⟩
  | fire _ =>
    exact ⟨.inl rfl,(fun h => by cases h),(fun _ h => by cases h),.inl,.inl,.inl,.inl,id⟩
  | @fired core id pc pc' hp =>
    have hb : Lifecycle.step s.core (.broadcast pc) .go = some (core,.broadcast pc',[]) := by
      simp only [Lifecycle.step,hp,Option.map_some]
    have h := step_signals hb
    refine ⟨h.wakes,h.kept,(fun _ h => by cases h),fun hz => ?_,h.paused,h.stopped,h.active,
      h.initiated⟩
    exact (h.zero hz).imp_right fun h => by cases h

def Certain (ts : List Thread) : Prop := ∃ t ∈ ts, certain t = true

def Ringing (s : Shared) (ts : List Thread) : Prop :=
  s.core.curProcessing = 0 → ∃ t ∈ ts, certain t = true ∨ draining t = true

theorem Rings.stays (h : Rings s s' l l') (hw : ¬s.core.wakes < s'.core.wakes)
    (hc : Certain (xs ++ l :: ys)) : Certain (xs ++ l' :: (ys ++ new)) := by
  obtain ⟨t,ht,hct⟩ := hc
  rcases mem_split ht with ht | rfl
  · exact ⟨t,mem_of_act ht,hct⟩
  · exact ⟨l',by simp,(h.kept hct).resolve_right hw⟩

theorem Rings.ring (h : Rings s s' l l') (hw : ¬s.core.wakes < s'.core.wakes)
    (hr : Ringing s (xs ++ l :: ys)) : Ringing s' (xs ++ l' :: (ys ++ new)) := by
  intro hz
  rcases h.zero hz with h0 | hd
  · obtain ⟨t,ht,hct⟩ := hr h0
    rcases mem_split ht with ht | rfl
    · exact ⟨t,mem_of_act ht,hct⟩
    · refine ⟨l',by simp,?_⟩
      rcases hct with hct | hct
      · exact .inl ((h.kept hct).resolve_right hw)
      · exact (h.found h0 hct).symm
  · exact ⟨l',by simp,.inr hd⟩

-- If the condition of a sleep without a timer is true, somebody is about to broadcast.
def Unmet (s : Shared) (ts : List Thread) : WaitKind → Prop
  | .wait => s.core.status ≠ .initiated ∧ Ringing s ts
  | .untilIdle => Ringing s ts
  | .untilPaused => s.core.status = .paused → Certain ts
  | .untilStopped => s.core.status = .stopped → Certain ts

def UnmetRestart (s : Shared) (ts : List Thread) : Prop :=
  (s.core.status = .stopped → Certain ts) ∧ (s.core.status.isActive = true → Certain ts)

theorem Rings.unmet {k : WaitKind} (h : Rings s s' l l') (hw : ¬s.core.wakes < s'.core.wakes)
    (hu : Unmet s (xs ++ l :: ys) k) : Unmet s' (xs ++ l' :: (ys ++ new)) k := by
  have hcl : certain l' = true → Certain (xs ++ l' :: (ys ++ new)) := fun hc => ⟨l',by simp,hc⟩
  cases k with
  | wait => exact ⟨fun hi => hu.1 (h.initiated hi),h.ring hw hu.2⟩
  | untilIdle => exact h.ring hw hu
  | untilPaused => exact fun hp => (h.paused hp).elim (fun hq => h.stays hw (hu hq)) hcl
  | untilStopped => exact fun hp => (h.stopped hp).elim (fun hq => h.stays hw (hu hq)) hcl

theorem Rings.unmetRestart (h : Rings s s' l l') (hw : ¬s.core.wakes < s'.core.wakes)
    (hu : UnmetRestart s (xs ++ l :: ys)) : UnmetRestart s' (xs ++ l' :: (ys ++ new)) := by
  have hcl : certain l' = true → Certain (xs ++ l' :: (ys ++ new)) := fun hc => ⟨l',by simp,hc⟩
  exact ⟨fun hp => (h.stopped hp).elim (fun hq => h.stays hw (hu.1 hq)) hcl,
    fun hp => (h.active hp).elim (fun hq => h.stays hw (hu.2 hq)) hcl⟩

def begun (s : Shared) (k : WaitKind) : Prop := k = .wait → s.core.status ≠ .initiated

-- The calls that sleep in waitForChange.
def timed (k : WaitKind) : Prop := k = .wait ∨ k = .untilIdle

def WatchWait (s : Shared) (ts : List Thread) (k : WaitKind) (tm : Option ℕ) : WaitPc → Prop
  | .pending | .cur | .recheck => tm = none ∧ begun s k ∧ timed k
  | .sleep armed => tm = none ∧ if armed then begun s k else Unmet s ts k
  | .asleep n => n ≤ s.core.wakes ∧ (s.core.wakes = n →
      match tm with
      | none => Unmet s ts k
      | some _ => begun s k ∧ (armedFor s ts tm ∨ Certain ts))
  | _ => True

def WatchRestart (s : Shared) (ts : List Thread) : RestartPc → Prop
  | .active => s.core.status = .stopped → Certain ts
  | .sleep => UnmetRestart s ts
  | .asleep n => n ≤ s.core.wakes ∧ (s.core.wakes = n → UnmetRestart s ts)
  | _ => True

def Watch (s : Shared) (ts : List Thread) : Thread → Prop
  | .call (.waiter k pc) tm => WatchWait s ts k tm pc
  | .call (.loop _ (.wait pc)) tm => WatchWait s ts .wait tm pc
  | .call (.restart pc) _ => WatchRestart s ts pc
  | _ => True

def owns (id : ℕ) : Thread → ℕ
  | .call _ tm => if tm = some id then 1 else 0
  | .timer _ _ => 0

structure Slept (s : Shared) (ts : List Thread) : Prop where
  inv : Inv s ts
  owners : ∀ id, total (owns id) ts ≤ 1 ∧ (s.nextTimer ≤ id → total (owns id) ts = 0)
  watch : ∀ t ∈ ts, Watch s ts t

theorem no_bump {u : Thread} (hi : Inv s (xs ++ l :: ys)) (hu : u ∈ xs ++ ys)
    (hc : 0 < (weights (proj u)).crit) (h : Rings s s' l l') : ¬s.core.wakes < s'.core.wakes := by
  intro hw
  rcases h.wakes with he | ⟨-,hl⟩
  · omega
  · have hm := hi.balanced.mutex
    rw [List.map_append,List.map_cons,Lifecycle.sum_crit,total_split,← List.map_append] at hm
    have hle := le_total (f := fun t => (weights t).crit) (List.mem_map_of_mem (f := proj) hu)
    split at hm <;> omega

theorem armed_kept {u : Thread} {tm : Option ℕ} {t : Lifecycle.Thread}
    (ho : ∀ id, total (owns id) (xs ++ l :: ys) ≤ 1) (hu : u ∈ xs ++ ys) (he : u = .call t tm)
    (hs : step s l c = some (s',l',new)) (h : armedFor s (xs ++ l :: ys) tm) :
    armedFor s' (xs ++ l' :: (ys ++ new)) tm ∨ Certain (xs ++ l' :: (ys ++ new)) := by
  obtain ⟨id,rfl,hm,ht⟩ := h
  have hown : owns id l = 0 := by
    have h1 := ho id
    rw [total_split] at h1
    have h2 := le_total (f := owns id) hu
    have h3 : owns id u = 1 := by simp [he,owns]
    omega
  by_cases hl : l = .timer id .armed
  · subst hl
    cases step_act hs with
    | fire _ => exact .inr ⟨.timer id (.fired .lock),by simp,rfl⟩
  · have ht' : Thread.timer id .armed ∈ xs ++ l' :: (ys ++ new) := by
      rcases mem_split ht with ht | ht
      · exact mem_of_act ht
      · exact absurd ht.symm hl
    refine .inl ⟨id,rfl,?_,ht'⟩
    cases step_act hs with
    | call _ _ _ => exact hm
    | arm _ _ => exact List.mem_cons_of_mem _ hm
    | @stop t₁ id₁ _ =>
      have hne : id ≠ id₁ := by
        rintro rfl
        simp [owns] at hown
      exact (List.mem_erase_of_ne hne).mpr hm
    | @fire id₁ _ =>
      have hne : id ≠ id₁ := by
        rintro rfl
        exact hl rfl
      exact (List.mem_erase_of_ne hne).mpr hm
    | fired _ => exact hm

theorem Rings.begun {k : WaitKind} (h : Rings s s' l l') (hb : begun s k) : begun s' k :=
  fun hk hi => hb hk (h.initiated hi)

theorem watchWait_other {u : Thread} {k : WaitKind} {tm : Option ℕ} {t : Lifecycle.Thread}
    {pc : WaitPc} (hi : Inv s (xs ++ l :: ys)) (ho : ∀ id, total (owns id) (xs ++ l :: ys) ≤ 1)
    (hu : u ∈ xs ++ ys) (he : u = .call t tm) (hcrit : pc.crit ≤ (weights t).crit)
    (hs : step s l c = some (s',l',new)) (h : WatchWait s (xs ++ l :: ys) k tm pc) :
    WatchWait s' (xs ++ l' :: (ys ++ new)) k tm pc := by
  have hr := step_rings hs
  cases pc with
  | pending | cur | recheck => exact ⟨h.1,hr.begun h.2.1,h.2.2⟩
  | sleep armed =>
    refine ⟨h.1,?_⟩
    cases armed with
    | true => exact hr.begun h.2
    | false =>
      refine hr.unmet (no_bump hi hu ?_ hr) h.2
      rw [he]
      exact Nat.lt_of_lt_of_le Nat.one_pos hcrit
  | asleep n =>
    obtain ⟨hle,h⟩ := h
    have hw : s'.core.wakes = s.core.wakes ∨ s.core.wakes < s'.core.wakes :=
      hr.wakes.imp_right fun h => h.1
    refine ⟨by omega,fun hn => ?_⟩
    have hlt : ¬s.core.wakes < s'.core.wakes := by omega
    have h1 := h (by omega)
    cases tm with
    | none => exact hr.unmet hlt h1
    | some id =>
      refine ⟨hr.begun h1.1,?_⟩
      rcases h1.2 with ha | hc
      · exact armed_kept ho hu he hs ha
      · exact .inr (hr.stays hlt hc)
  | lock | status | unlock | done => trivial

theorem watchRestart_other {u : Thread} {tm : Option ℕ} {pc : RestartPc}
    (hi : Inv s (xs ++ l :: ys)) (hu : u ∈ xs ++ ys) (he : u = .call (.restart pc) tm)
    (hs : step s l c = some (s',l',new)) (h : WatchRestart s (xs ++ l :: ys) pc) :
    WatchRestart s' (xs ++ l' :: (ys ++ new)) pc := by
  have hr := step_rings hs
  cases pc with
  | active =>
    have hlt := no_bump hi hu (by rw [he]; exact Nat.one_pos) hr
    exact fun hp => (hr.stopped hp).elim (fun hq => hr.stays hlt (h hq)) fun hc => ⟨l',by simp,hc⟩
  | sleep => exact hr.unmetRestart (no_bump hi hu (by rw [he]; exact Nat.one_pos) hr) h
  | asleep n =>
    obtain ⟨hle,h⟩ := h
    have hw : s'.core.wakes = s.core.wakes ∨ s.core.wakes < s'.core.wakes :=
      hr.wakes.imp_right fun h => h.1
    refine ⟨by omega,fun hn => ?_⟩
    exact hr.unmetRestart (by omega) (h (by omega))
  | _ => trivial

theorem watch_other {u : Thread} (h : Slept s (xs ++ l :: ys)) (hu : u ∈ xs ++ ys)
    (hs : step s l c = some (s',l',new)) : Watch s' (xs ++ l' :: (ys ++ new)) u := by
  have hw := h.watch u (mem_of_other hu)
  have ho := fun id => (h.owners id).1
  cases u with
  | timer id pc => trivial
  | call t tm =>
    cases t with
    | waiter k pc => exact watchWait_other h.inv ho hu rfl (Nat.le_refl _) hs hw
    | loop k pc =>
      cases pc with
      | wait pc =>
        refine watchWait_other h.inv ho hu rfl ?_ hs hw
        cases pc <;> exact Nat.le_refl _
      | _ => trivial
    | restart pc => exact watchRestart_other h.inv hu rfl hs hw
    | _ => trivial

-- The steps of the waiting call itself.
theorem watchWait_own {core : Lifecycle.Shared} {k : WaitKind} {tm : Option ℕ} {pc pc' : WaitPc}
    {armed : Bool} (hs : Lifecycle.waitStep k s.core pc c = some (core,pc',armed))
    (hcore : s'.core = core)
    (ha : tm = none → pc ≠ .sleep true) (hw : ∀ id, tm = some id → pc ≠ .status)
    (hu : Unmet s ts k → Unmet s' us k) (h : WatchWait s ts k tm pc) :
    WatchWait s' us k tm pc' := by
  obtain ⟨hwakes,hcur,hq⟩ := wait_frame hs
  rw [← hcore] at hwakes hcur hq
  have hb : begun s k → begun s' k := by
    intro hb hk
    rw [hq]
    exact hb hk
  cases pc with
  | lock =>
    cases c <;> simp only [Lifecycle.waitStep] at hs <;> try cases hs
    split at hs <;> cases hs
    trivial
  | status =>
    have htm : tm = none := by
      cases tm with
      | none => rfl
      | some id => exact absurd rfl (hw id rfl)
    cases c <;> cases hs
    cases k with
    | wait => cases hst : s.core.status <;> simp [Lifecycle.waitOn,WatchWait,htm,begun,timed,hq,hst]
    | untilIdle =>
      cases hst : s.core.status <;> simp [Lifecycle.waitOn,WatchWait,htm,begun,timed]
    | untilPaused =>
      cases hst : s.core.status <;> simp [Lifecycle.waitOn,WatchWait,htm,Unmet,hq,hst]
    | untilStopped =>
      cases hst : s.core.status <;> simp [Lifecycle.waitOn,WatchWait,htm,Unmet,hq,hst]
  | pending =>
    cases c <;> cases hs
    split <;> exact ⟨h.1,hb h.2.1,h.2.2⟩
  | cur =>
    cases c <;> cases hs
    split
    · trivial
    · exact ⟨h.1,hb h.2.1,h.2.2⟩
  | recheck =>
    cases c <;> cases hs
    refine ⟨h.1,?_⟩
    split
    · exact hb h.2.1
    · rename_i hne
      have hring : Ringing s' us := fun hz => absurd (hcur ▸ hz) (by simpa using hne)
      rcases h.2.2 with rfl | rfl
      · exact ⟨hb h.2.1 rfl,hring⟩
      · exact hring
  | sleep armed =>
    obtain ⟨rfl,h⟩ := h
    cases armed with
    | true => exact absurd rfl (ha rfl)
    | false =>
      cases c <;> cases hs
      exact ⟨Nat.le_of_eq hwakes.symm,fun _ => hu h⟩
  | asleep n =>
    cases c <;> simp only [Lifecycle.waitStep] at hs <;> try cases hs
    split at hs <;> cases hs
    trivial
  | unlock =>
    cases c <;> cases hs
    trivial
  | done => cases c <;> cases hs

theorem watchRestart_own {core : Lifecycle.Shared} {pc pc' : RestartPc}
    {ls : List Lifecycle.Thread} (hs : Lifecycle.restartStep s.core pc = some (core,pc',ls))
    (hcore : s'.core = core) (hc : core.wakes = s.core.wakes → Certain ts → Certain us)
    (h : WatchRestart s ts pc) : WatchRestart s' us pc' := by
  cases pc with
  | stop pc =>
    rcases Lifecycle.restart_stop hs with ⟨seen,moved,r,rfl,rfl,rfl,rfl⟩ | ⟨pc₁,hp,rfl,rfl⟩
    · cases r <;> trivial
    · trivial
  | start pc =>
    rcases Lifecycle.restart_start hs with ⟨r,rfl,rfl,rfl,rfl⟩ | ⟨pc₁,hp,rfl⟩ <;> trivial
  | stopped =>
    cases hs
    split
    · trivial
    · rename_i hne
      intro hst
      rw [hcore] at hst
      exact absurd hst hne
  | active =>
    cases hs
    split
    · trivial
    · rename_i hne
      refine ⟨fun hst => ?_,fun hact => ?_⟩
      · rw [hcore] at hst
        exact hc rfl (h hst)
      · rw [hcore] at hact
        exact absurd hact hne
  | sleep =>
    cases hs
    refine ⟨Nat.le_of_eq (congrArg Lifecycle.Shared.wakes hcore).symm,fun _ => ⟨fun hst => ?_,fun hact => ?_⟩⟩
    · rw [hcore] at hst
      exact hc rfl (h.1 hst)
    · rw [hcore] at hact
      exact hc rfl (h.2 hact)
  | lock =>
    simp only [Lifecycle.restartStep] at hs
    split at hs <;> cases hs
    trivial
  | asleep n =>
    simp only [Lifecycle.restartStep] at hs
    split at hs <;> cases hs
    trivial
  | check =>
    cases hs
    trivial
  | unlock running =>
    cases hs
    split <;> trivial
  | returned r => cases hs

theorem watch_arm {core : Lifecycle.Shared} {t t' : Lifecycle.Thread} {id : ℕ}
    (ha : arms t = true) (hp : Lifecycle.step s.core t c = some (core,t',[.broadcast .lock]))
    (hcore : s'.core = core) (h : Watch s ts (.call t none)) (hid : armedFor s' us (some id)) :
    Watch s' us (.call t' (some id)) := by
  have hb : ∀ k, begun s k → begun s' k := by
    intro k hb hk
    have := (step_signals hp).initiated
    rw [hcore]
    exact fun hi => hb hk (this hi)
  unfold arms at ha
  split at ha
  · rename_i k
    cases c <;> cases hp
    exact ⟨Nat.le_of_eq (congrArg Lifecycle.Shared.wakes hcore).symm,fun _ => ⟨hb k h.2,.inl hid⟩⟩
  · cases c <;> cases hp
    exact ⟨Nat.le_of_eq (congrArg Lifecycle.Shared.wakes hcore).symm,fun _ => ⟨hb .wait h.2,.inl hid⟩⟩
  · cases ha

theorem watch_spawned {core core' : Lifecycle.Shared} {t t' u : Lifecycle.Thread}
    {ls : List Lifecycle.Thread} (hs : Lifecycle.step core t c = some (core',t',ls)) (hu : u ∈ ls) :
    Watch s ts (.call u none) := by
  have hn := Lifecycle.step_spawned hs u hu
  cases u with
  | loop k pc =>
    rw [Lifecycle.step_new_loop hs hu]
    trivial
  | batch pc => trivial
  | broadcast pc => trivial
  | _ => cases hn

theorem wait_entered {core core' : Lifecycle.Shared} {k : ℕ} {pc pc' : LoopPc}
    {ls : List Lifecycle.Thread} (hs : Lifecycle.loopStep core k pc c = some (core',pc',ls)) :
    (∃ q, pc = .wait q ∧ ∃ q' armed, Lifecycle.waitStep .wait core q c = some (core',q',armed) ∧
      (pc' = .removeAll ∨ pc' = .wait q')) ∨ pc' = .wait .lock ∨ ∀ q, pc' ≠ .wait q := by
  cases pc with
  | wait q =>
    left
    simp only [Lifecycle.loopStep] at hs
    split at hs <;> cases hs
    · exact ⟨q,rfl,_,_,‹_›,.inl rfl⟩
    · exact ⟨q,rfl,_,_,‹_›,.inr rfl⟩
  | finish pc r =>
    obtain ⟨o,-,rfl⟩ := loop_finish hs
    right
    right
    cases o with
    | none => cases r <;> simp [Lifecycle.Ret.pc]
    | some q => simp
  | reserve m n | claim m n =>
    right
    cases m <;> cases c <;> simp only [Lifecycle.loopStep] at hs <;>
      grind [Lifecycle.reserved,Lifecycle.refused]
  | _ =>
    right
    cases c <;> simp only [Lifecycle.loopStep] at hs <;>
      grind [Lifecycle.reserved,Lifecycle.refused,Lifecycle.afterSend,Lifecycle.Ret.pc]

theorem watch_own (h : Slept s (xs ++ l :: ys)) (hs : step s l c = some (s',l',new)) :
    Watch s' (xs ++ l' :: (ys ++ new)) l' := by
  have hr := step_rings hs
  have hw := h.watch l (by simp)
  cases step_act hs with
  | @call core t t' tm ls hp ha hwk =>
    cases Lifecycle.step_act hp with
    | @waiter k pc pc' core armed hp₁ =>
      obtain ⟨h1,-,-⟩ := wait_frame hp₁
      refine watchWait_own hp₁ rfl ?_ ?_ (hr.unmet (by simp only [h1]; omega)) hw
      · rintro ht rfl
        cases ha ht
      · rintro id ht rfl
        cases c with
        | go => cases hwk id ht rfl
        | _ => cases hp₁
    | @loop k pc pc' core ls hp₁ =>
      rcases wait_entered hp₁ with ⟨q,rfl,q',armed,hq,rfl | rfl⟩ | rfl | hno
      · trivial
      · obtain ⟨h1,-,-⟩ := wait_frame hq
        refine watchWait_own hq rfl ?_ ?_ (hr.unmet (by simp only [h1]; omega)) hw
        · rintro ht rfl
          cases ha ht
        · rintro id ht rfl
          cases c with
          | go => cases hwk id ht rfl
          | _ => cases hq
      · trivial
      · cases pc' with
        | wait q => exact absurd rfl (hno q)
        | _ => trivial
    | @restart pc pc' core ls hp₁ =>
      exact watchRestart_own hp₁ rfl (fun h1 => hr.stays (by simp only [h1]; omega)) hw
    | _ => trivial
  | @arm core t t' hp ha =>
    exact watch_arm ha hp rfl hw ⟨s.nextTimer,rfl,by simp,by simp⟩
  | @stop t id ha =>
    unfold awake at ha
    split at ha
    · trivial
    · trivial
    · cases ha
  | fire _ => trivial
  | fired _ => trivial

theorem owns_none (id : ℕ) (ls : List Lifecycle.Thread) :
    total (owns id) (ls.map fun u => .call u none) = 0 := by
  rw [total_eq_zero]
  intro l hl
  obtain ⟨u,-,rfl⟩ := List.mem_map.mp hl
  rfl

theorem owners_act (h : Slept s (xs ++ l :: ys)) (hs : step s l c = some (s',l',new)) (id : ℕ) :
    total (owns id) (xs ++ l' :: (ys ++ new)) ≤ 1 ∧
      (s'.nextTimer ≤ id → total (owns id) (xs ++ l' :: (ys ++ new)) = 0) := by
  obtain ⟨h1,h2⟩ := h.owners id
  rw [total_split] at h1 h2
  rw [total_act]
  cases step_act hs with
  | @call core t t' tm ls hp _ _ =>
    rw [owns_none]
    exact ⟨h1,h2⟩
  | arm hp ha =>
    simp only [owns,total_cons,total_nil,reduceCtorEq,if_false,Option.some.injEq] at h1 h2 ⊢
    by_cases he : s.nextTimer = id
    · rw [if_pos he]
      exact ⟨by omega,by omega⟩
    · rw [if_neg he]
      exact ⟨h1,fun hle => h2 (by omega)⟩
  | stop ha =>
    simp only [owns,total_nil,reduceCtorEq,if_false] at h1 h2 ⊢
    exact ⟨by omega,fun hle => by have := h2 hle; omega⟩
  | fire hm => exact ⟨h1,h2⟩
  | fired hp => exact ⟨h1,h2⟩

theorem watch_new (hs : step s l c = some (s',l',new)) : ∀ t ∈ new, Watch s' ts t := by
  intro t ht
  cases step_act hs with
  | call hp _ _ =>
    obtain ⟨u,hu,rfl⟩ := List.mem_map.mp ht
    exact watch_spawned hp hu
  | arm hp ha =>
    rw [List.mem_singleton.mp ht]
    trivial
  | _ => cases ht

theorem slept_act (h : Slept s (xs ++ l :: ys)) (hs : step s l c = some (s',l',new)) :
    Slept s' (xs ++ l' :: (ys ++ new)) :=
  ⟨inv_act h.inv hs,owners_act h hs,
    forall_act (fun _ hu => watch_other h hu hs) (watch_own h hs) (watch_new hs)⟩

theorem Unmet.mono {k : WaitKind} (h : Unmet s ts k) (hts : ts ⊆ us) : Unmet s us k := by
  have hc : Certain ts → Certain us := fun ⟨t,ht,hct⟩ => ⟨t,hts ht,hct⟩
  have hr : Ringing s ts → Ringing s us := by
    intro hr hz
    obtain ⟨t,ht,hct⟩ := hr hz
    exact ⟨t,hts ht,hct⟩
  cases k with
  | wait => exact ⟨h.1,hr h.2⟩
  | untilIdle => exact hr h
  | untilPaused => exact fun hp => hc (h hp)
  | untilStopped => exact fun hp => hc (h hp)

theorem UnmetRestart.mono (h : UnmetRestart s ts) (hts : ts ⊆ us) : UnmetRestart s us := by
  have hc : Certain ts → Certain us := fun ⟨t,ht,hct⟩ => ⟨t,hts ht,hct⟩
  exact ⟨fun hp => hc (h.1 hp),fun hp => hc (h.2 hp)⟩

theorem watchWait_mono {k : WaitKind} {tm : Option ℕ} {pc : WaitPc} (h : WatchWait s ts k tm pc)
    (hts : ts ⊆ us) : WatchWait s us k tm pc := by
  cases pc with
  | sleep armed =>
    refine ⟨h.1,?_⟩
    cases armed with
    | true => exact h.2
    | false => exact Unmet.mono h.2 hts
  | asleep n =>
    refine ⟨h.1,fun hn => ?_⟩
    have h1 := h.2 hn
    cases tm with
    | none => exact Unmet.mono h1 hts
    | some id =>
      refine ⟨h1.1,?_⟩
      rcases h1.2 with ⟨i,hi,hm,ht⟩ | ⟨t,ht,hct⟩
      · exact .inl ⟨i,hi,hm,hts ht⟩
      · exact .inr ⟨t,hts ht,hct⟩
  | _ => exact h

theorem watch_mono {t : Thread} (h : Watch s ts t) (hts : ts ⊆ us) : Watch s us t := by
  cases t with
  | timer id pc => trivial
  | call t tm =>
    cases t with
    | waiter k pc => exact watchWait_mono h hts
    | loop k pc =>
      cases pc with
      | wait pc => exact watchWait_mono h hts
      | _ => trivial
    | restart pc =>
      cases pc with
      | active =>
        intro hst
        obtain ⟨t,ht,hct⟩ := h hst
        exact ⟨t,hts ht,hct⟩
      | sleep => exact UnmetRestart.mono h hts
      | asleep n => exact ⟨h.1,fun hn => UnmetRestart.mono (h.2 hn) hts⟩
      | _ => trivial
    | _ => trivial

theorem watch_entry (he : entry s l = true) : Watch s ts l := by
  unfold entry at he
  split at he
  · unfold Lifecycle.entry at he
    split at he <;> trivial
  · cases he

theorem slept_call (h : Slept s ts) (he : entry s l = true) : Slept s (ts ++ [l]) := by
  refine ⟨inv_call h.inv he,fun id => ?_,?_⟩
  · have hl : owns id l = 0 := by
      unfold entry at he
      split at he
      · rfl
      · cases he
    rw [total_call,hl]
    exact h.owners id
  · have hts : ts ⊆ ts ++ [l] := List.subset_append_left ts [l]
    exact forall_call (fun t ht => watch_mono (h.watch t ht) hts) (watch_entry he)

theorem slept_newWorker (n : ℕ) : Slept (newWorker n).shared (newWorker n).threads :=
  ⟨Lifecycle.inv_newWorker n,fun _ => ⟨Nat.zero_le _,fun _ => rfl⟩,fun _ ht => by cases ht⟩

theorem slept_reach {n : ℕ} {w : World Shared Thread} (h : program.Reach always (newWorker n) w) :
    Slept w.shared w.threads :=
  Program.reach_invariant (slept_newWorker n) (fun _ _ _ h _ he => slept_call h he)
    (fun _ _ _ _ _ _ _ _ h _ hs => slept_act h hs) h

theorem certain_broadcasts (h : Certain ts) : ∃ u ∈ ts, broadcasts s u = true := by
  obtain ⟨u,hu,hc⟩ := h
  exact ⟨u,hu,by simp [broadcasts,hc]⟩

theorem ringing_broadcasts (h : Ringing s ts) (hz : s.core.curProcessing = 0) :
    ∃ u ∈ ts, broadcasts s u = true := by
  obtain ⟨u,hu,hc | hd⟩ := h hz
  · exact ⟨u,hu,by simp [broadcasts,hc]⟩
  · exact ⟨u,hu,by simp [broadcasts,hd,hz]⟩

theorem Unmet.broadcasts {k : WaitKind} {numPending : ℕ} (h : Unmet s ts k)
    (hc : condition s numPending (.wait k) = true) : ∃ u ∈ ts, broadcasts s u = true := by
  cases k with
  | wait =>
    refine ringing_broadcasts h.2 ?_
    cases hq : s.core.status <;> simp [condition,hq] at hc
    · exact absurd hq h.1
    all_goals omega
  | untilIdle =>
    simp only [condition,Bool.and_eq_true,decide_eq_true_eq] at hc
    exact ringing_broadcasts h hc.2
  | untilPaused => exact certain_broadcasts (h (by simpa [condition] using hc))
  | untilStopped => exact certain_broadcasts (h (by simpa [condition] using hc))

theorem UnmetRestart.broadcasts {numPending : ℕ} (h : UnmetRestart s ts)
    (hc : condition s numPending .restart = true) : ∃ u ∈ ts, broadcasts s u = true := by
  simp only [condition,Bool.or_eq_true,decide_eq_true_eq] at hc
  exact certain_broadcasts (hc.elim h.1 h.2)

theorem watchWait_asleep {k : WaitKind} {tm : Option ℕ} {n numPending : ℕ}
    (h : WatchWait s ts k tm (.asleep n)) (hn : s.core.wakes = n)
    (hc : condition s numPending (.wait k) = true) :
    (∃ u ∈ ts, broadcasts s u = true) ∨ armedFor s ts tm := by
  have h1 := h.2 hn
  cases tm with
  | none => exact .inl (Unmet.broadcasts h1 hc)
  | some id => exact h1.2.symm.imp_left certain_broadcasts

theorem no_waiter_sleeps_through {n numPending : ℕ} {w : World Shared Thread}
    (h : program.Reach always (newWorker n) w) {t : Lifecycle.Thread} {tm : Option ℕ}
    (ht : .call t tm ∈ w.threads) {k : Sleeper} (hk : sleeping w.shared t = some k)
    (hc : condition w.shared numPending k = true) :
    (∃ u ∈ w.threads, broadcasts w.shared u = true) ∨ armedFor w.shared w.threads tm := by
  have hw := (slept_reach h).watch _ ht
  unfold sleeping at hk
  split at hk
  · split at hk <;> cases hk
    exact watchWait_asleep hw ‹_› hc
  · split at hk <;> cases hk
    exact watchWait_asleep hw ‹_› hc
  · split at hk <;> cases hk
    exact .inl (UnmetRestart.broadcasts (hw.2 ‹_›) hc)
  · cases hk

-- A WaitUntilPaused sleeps, and a Pause has stored paused and not broadcast yet.
def pausedRun : List (Event Thread Choice) :=
  .call (.call (.start .lock) none) :: (List.replicate 9 (.act 0 .go) : Events Thread Choice) ++
  ([.call (.call (.waiter .untilPaused .lock) none)] : Events Thread Choice) ++
  (List.replicate 3 (.act 2 .go) : Events Thread Choice) ++
  ([.call (.call (.pause .lock) none)] : Events Thread Choice) ++
  (List.replicate 3 (.act 3 .go) : Events Thread Choice)

theorem no_waiter_sleeps_through_pause : ∃ w, program.Reach always (newWorker 1) w ∧
    .call (.waiter .untilPaused (.asleep 1)) none ∈ w.threads ∧
    condition w.shared 0 (.wait .untilPaused) = true ∧
    ∃ u ∈ w.threads, broadcasts w.shared u = true := by
  obtain ⟨w,hr,hp⟩ := Program.exists_reach_of_run program always (newWorker 1) pausedRun
    (fun w => w.threads.contains (.call (.waiter .untilPaused (.asleep 1)) none) &&
      w.shared.core.wakes = 1 && condition w.shared 0 (.wait .untilPaused)) (by decide)
  simp only [Bool.and_eq_true,decide_eq_true_eq,List.contains_iff_mem] at hp
  obtain ⟨⟨hm,hw⟩,hc⟩ := hp
  refine ⟨w,hr,hm,hc,?_⟩
  rcases no_waiter_sleeps_through hr hm (k := .wait .untilPaused) (by simp [sleeping,hw]) hc
    with hb | ⟨id,hid,-,-⟩
  · exact hb
  · cases hid

end Varmq.Waiters
