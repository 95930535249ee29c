import Varmq.Wakeup.Pool

namespace Varmq.Wakeup

open Interleaving
open Varmq.Dispatch (Batch PendingPc AddPc QueuePc PurgePc Choice)

variable {cfg : Config} {s s' : Shared} {c : Choice} {l l' : Thread} {new ts ts' xs ys : List Thread}

-- A goroutine that still has a notifyToPullNextJobs before it. The hook of a queue's Resume is
-- one as long as the queue is not paused again.
def owes : Thread → Bool
  | .batch _ _ (.on .done) => false
  | .batch _ _ _ => true
  | .add (.publish _) | .add (.mark _) | .add (.notify _) => true
  | .queue .hook => true
  | .resume .broadcast | .resume .notify => true
  | .tunePool .notify => true
  | .start .notify => true
  | _ => false

def willSignal (s : Shared) (t : Thread) : Bool :=
  owes t && !(t = .queue .hook && s.core.paused)

def unheldWaiting (d : Dispatch.Shared) : Bool :=
  (!d.paused && !d.slots.isEmpty) ||
    d.park.batches.any fun b => !b.stamp.held d.pauses && !b.jobs.isEmpty

def lostWakeup (w : World Shared Thread) : Bool :=
  w.threads.contains (.loop (.on .select)) && !w.shared.signal && w.shared.core.status.isActive &&
  Nat.blt w.shared.core.busyWorkers w.shared.core.concurrency && unheldWaiting w.shared.core &&
  w.threads.all fun t => !willSignal w.shared t

-- planBatch counts on an idle node: it has loaded the pool's length and will not spawn.
def relies (s : Shared) : Thread → Bool
  | .loop (.planShares n busy alive) | .loop (.planGrow n busy alive _) =>
      busy = 0 && !worthSpawning n s.jobNanos alive
  | .loop (.popBack _ busy _ _ grow) => busy = 0 && !grow
  | _ => false

-- A TunePool has taken a node that the pool's length still counts.
def taking : Thread → Bool
  | .tunePool (.popLen _ _) => true
  | _ => false

def keepsCounted : Guard Shared Thread Choice
  | w, .act i _ =>
      match w.threads[i]? with
      | some (.tunePool (.popBack _ _)) => !(w.shared.nodes = 1 && w.threads.any (relies w.shared))
      | some (.loop (.planLen n busy)) =>
          !(busy = 0 && w.shared.nodes = 0 && w.threads.any taking &&
            !worthSpawning n w.shared.jobNanos (busy + w.shared.len))
      | _ => true
  | _, .call _ => true

def Owed (s : Shared) (ts : List Thread) : Prop := s.signal = true ∨ ∃ t ∈ ts, owes t = true

def Live (s : Shared) : Prop := s.core.status.isActive = true ∧ s.core.paused = false

-- Where p holds of a live worker, a signal is set or on its way.
def Due (p : Prop) (s : Shared) (ts : List Thread) : Prop := Live s → p → Owed s ts

def SafeParked (s : Shared) (ts : List Thread) : Prop := Due (s.core.park.jobs ≠ []) s ts

def SafeBeyond (h : ℕ) (s : Shared) (ts : List Thread) : Prop := Due (h < s.core.claimed.length) s ts

def Safe (s : Shared) (ts : List Thread) : Prop :=
  Due (s.core.slots ≠ [] ∨ s.core.park.jobs ≠ []) s ts

structure Carries (s : Shared) (ts : List Thread) (s' : Shared) (ts' : List Thread) : Prop where
  live : Live s' → Live s ∨ Owed s' ts'
  owed : Owed s ts → Live s' → Owed s' ts'
  claimed : s'.core.claimed = s.core.claimed ∨ Owed s' ts'
  slots : s'.core.slots ≠ [] → s.core.slots ≠ [] ∨ Owed s' ts'
  parked : s'.core.park.jobs ≠ [] → s.core.park.jobs ≠ [] ∨ Owed s' ts'

theorem Due.carry {p p' : Prop} (h : Due p s ts) (hc : Carries s ts s' ts')
    (hp : p' → p ∨ Owed s' ts') : Due p' s' ts' := by
  intro hl hp'
  rcases hc.live hl with hl' | ho
  · rcases hp hp' with hp | ho
    · exact hc.owed (h hl' hp) hl
    · exact ho
  · exact ho

theorem SafeParked.carry (h : SafeParked s ts) (hc : Carries s ts s' ts') : SafeParked s' ts' :=
  Due.carry h hc hc.parked

theorem SafeBeyond.carry {n : ℕ} (h : SafeBeyond n s ts) (hc : Carries s ts s' ts') :
    SafeBeyond n s' ts' := by
  refine Due.carry h hc fun hn => ?_
  rcases hc.claimed with he | ho
  · rw [he] at hn
    exact .inl hn
  · exact .inr ho

theorem Safe.carry (h : Safe s ts) (hc : Carries s ts s' ts') : Safe s' ts' := by
  refine Due.carry h hc fun hp => ?_
  rcases hp with hp | hp
  · exact (hc.slots hp).imp_left .inl
  · exact (hc.parked hp).imp_left .inr

theorem safe_of_not_live (h : ¬Live s) : Safe s ts := fun hl => absurd hl h

theorem safe_of_owed (h : Owed s ts) : Safe s ts := fun _ _ => h

theorem not_live_of_paused (h : s.core.paused = true) : ¬Live s := by
  intro hl
  rw [hl.2] at h
  cases h

-- What the loads of pending have established when the next one comes.
def PendingKnown (s : Shared) (ts : List Thread) : PendingPc → Prop
  | .parked | .unheld => True
  | .held n => 0 < n
  | .paused n | .head n => n = 0 → SafeParked s ts
  | .offset n h => (n = 0 → SafeParked s ts) ∧ SafeBeyond h s ts
  | .done n => n = 0 → Safe s ts

def KnownOn (s : Shared) (ts : List Thread) : Dispatch.LoopPc → Prop
  | .select => Safe s ts
  | .pending pc => PendingKnown s ts pc
  | .fillPaused _ buf | .fillHead _ buf | .epoch _ buf => buf = [] → SafeParked s ts
  | .fillOffset _ buf h => (buf = [] → SafeParked s ts) ∧ SafeBeyond h s ts
  | .refuse _ buf e | .dequeue _ buf e => (buf = [] → SafeParked s ts) ∧ s.core.refusals = e
  | .isClosed _ buf _ => buf = [] → SafeParked s ts
  | .emptyPaused _ _ e | .emptyRefusals _ _ e => s.core.refusals ≠ e → Safe s ts
  | .release _ cont | .giveBack _ cont => cont = false → Safe s ts
  | _ => True

-- What lets the loop give up at each of its points: a signal is due, or a node is there.
def Known (s : Shared) (ts : List Thread) : LoopPc → Prop
  | .on pc | .releaseWaiters pc => KnownOn s ts pc
  | .limit busy => 0 < busy → Safe s ts
  | .planLen _ busy => (0 < busy → Safe s ts) ∧ (busy = 0 → s.core.busyWorkers = 0)
  | .planShares n busy alive | .planGrow n busy alive _ =>
      (0 < busy → Safe s ts) ∧ (busy = 0 → s.core.busyWorkers = 0 ∧
        (worthSpawning n s.jobNanos alive = true ∨ 0 < s.nodes))
  | .popBack _ busy _ _ grow =>
      (0 < busy → Safe s ts) ∧ (busy = 0 → grow = true ∨ 0 < s.nodes)
  | .pushLen _ cont | .pushNode _ cont => cont = false → Safe s ts
  | _ => True

theorem PendingKnown.carry {pc : PendingPc} (h : PendingKnown s ts pc) (hc : Carries s ts s' ts') :
    PendingKnown s' ts' pc := by
  cases pc with
  | parked | unheld => trivial
  | held n => exact h
  | paused n | head n => exact fun hn => (h hn).carry hc
  | offset n m => exact ⟨fun hn => (h.1 hn).carry hc,h.2.carry hc⟩
  | done n => exact fun hn => (h hn).carry hc

theorem KnownOn.carry {pc : Dispatch.LoopPc} (h : KnownOn s ts pc) (hc : Carries s ts s' ts')
    (hr : s'.core.refusals = s.core.refusals) : KnownOn s' ts' pc := by
  cases pc with
  | select => exact Safe.carry h hc
  | pending pc => exact PendingKnown.carry h hc
  | fillPaused k buf | fillHead k buf | epoch k buf | isClosed k buf j =>
    exact fun hb => (h hb).carry hc
  | fillOffset k buf n => exact ⟨fun hb => (h.1 hb).carry hc,h.2.carry hc⟩
  | refuse k buf e | dequeue k buf e => exact ⟨fun hb => (h.1 hb).carry hc,hr.trans h.2⟩
  | emptyPaused k buf e | emptyRefusals k buf e =>
    intro hn
    exact (h (hr ▸ hn)).carry hc
  | release k cont | giveBack k cont => exact fun hn => (h hn).carry hc
  | _ => trivial

-- A step of a goroutine other than the loop: it settles what it owes by setting the signal, and
-- what makes work for the loop leaves a signal owed.
structure Wakes (s s' : Shared) (l l' : Thread) : Prop where
  kept : owes l = true → owes l' = true ∨ s'.signal = true ∨ s'.core.paused = true
  signal : s.signal = true → s'.signal = true
  live : Live s' → Live s ∨ owes l' = true
  claimed : s'.core.claimed = s.core.claimed ∨ owes l' = true
  slots : s'.core.slots ≠ [] → s.core.slots ≠ [] ∨ owes l' = true
  parked : s'.core.park.jobs ≠ [] → s.core.park.jobs ≠ [] ∨ owes l' = true

theorem Wakes.owing (hs : s.signal = true → s'.signal = true) (h : owes l' = true) :
    Wakes s s' l l' :=
  ⟨fun _ => .inl h,hs,fun _ => .inr h,.inr h,fun _ => .inr h,fun _ => .inr h⟩

theorem Wakes.fired (h : s'.signal = true) (hd : s'.core.status = s.core.status)
    (hp : s'.core.paused = s.core.paused) (hc : s'.core.claimed = s.core.claimed)
    (hq : s'.core.slots = s.core.slots) (hk : s'.core.park.jobs = s.core.park.jobs) :
    Wakes s s' l l' :=
  ⟨fun _ => .inr (.inl h),fun _ => h,fun hl => .inl ⟨hd ▸ hl.1,hp ▸ hl.2⟩,.inl hc,
    fun hn => .inl (hq ▸ hn),fun hn => .inl (hk ▸ hn)⟩

theorem Wakes.frame (ho : owes l = false) (hs : s'.signal = s.signal) (hl : Live s' → Live s)
    (hc : s'.core.claimed = s.core.claimed) (hq : s'.core.slots ≠ [] → s.core.slots ≠ [])
    (hk : s'.core.park.jobs ≠ [] → s.core.park.jobs ≠ []) : Wakes s s' l l' :=
  ⟨fun h => absurd h (by simp [ho]),fun h => hs.trans h,fun h => .inl (hl h),.inl hc,
    fun h => .inl (hq h),fun h => .inl (hk h)⟩

theorem Wakes.carries (h : Wakes s s' l l') :
    Carries s (xs ++ l :: ys) s' (xs ++ l' :: (ys ++ new)) := by
  have hown : owes l' = true → Owed s' (xs ++ l' :: (ys ++ new)) :=
    fun ho => .inr ⟨l',by simp,ho⟩
  refine ⟨fun hv => (h.live hv).imp_right hown,?_,h.claimed.imp_right hown,
    fun hn => (h.slots hn).imp_right hown,fun hn => (h.parked hn).imp_right hown⟩
  rintro (hsig | ⟨t,ht,ho⟩) hv
  · exact .inl (h.signal hsig)
  · rcases mem_split ht with ht | rfl
    · exact .inr ⟨t,mem_of_act ht,ho⟩
    · rcases h.kept ho with h1 | h1 | h1
      · exact hown h1
      · exact .inl h1
      · exact absurd hv (not_live_of_paused h1)

theorem batch_wakes {b b' : Batch} {ran ran' : ℕ} {pc pc' : BatchPc}
    (hs : batchStep cfg s b ran pc c = some (s',b',ran',pc')) :
    Wakes s s' (.batch b ran pc) (.batch b' ran' pc') := by
  have howes : ∀ {pc : BatchPc}, pc ≠ .on .done → owes (.batch b' ran' pc) = true := by
    intro pc hpc
    cases pc with
    | on pc => cases pc <;> first | rfl | exact absurd rfl hpc
    | _ => rfl
  cases pc with
  | on pc =>
    rcases batch_on hs with ⟨rfl,rfl,rfl,rfl | rfl⟩ | ⟨rfl,rfl,rfl,rfl⟩ | ⟨h1,h2,d,pc₁,hp,rfl,rfl⟩
    · exact .owing (fun h => h) rfl
    · exact .owing (fun h => h) rfl
    · exact .fired rfl rfl rfl rfl rfl rfl
    · refine .owing (fun h => h) (howes ?_)
      have hd : pc₁ ≠ .done := by
        rintro rfl
        cases pc <;> simp only [Dispatch.batchStep] at hp <;> grind
      cases pc₁ <;> first | exact absurd rfl hd | simp [leave]
  | pending pc =>
    obtain ⟨rfl,⟨n,rfl,rfl⟩ | ⟨d,pc₁,hp,rfl,rfl⟩⟩ := batch_pending hs <;>
      exact .owing (fun h => h) rfl
  | len n | minIdle n =>
    cases c <;> cases hs
    refine .owing (fun h => h) (howes ?_)
    split <;> simp
  | _ =>
    cases c <;> cases hs
    exact .owing (fun h => h) rfl

theorem add_wakes {pc pc' : AddPc} (hs : addStep s pc c = some (s',pc')) :
    Wakes s s' (.add pc) (.add pc') := by
  obtain ⟨⟨d,pc₁⟩,hd,heq⟩ := Option.map_eq_some_iff.mp hs
  cases heq
  cases pc with
  | append j =>
    cases c with
    | flag ok =>
      cases ok <;> cases hd
      · exact .frame rfl (by simp) (fun h => h) rfl (fun h => h) fun h => h
      · exact .owing (fun h => by simp [h]) rfl
    | _ => cases hd
  | new =>
    cases c <;> cases hd
    exact .frame rfl (by simp) (fun h => h) rfl (fun h => h) fun h => h
  | publish j | mark j =>
    cases c <;> cases hd
    exact .owing (fun h => by simp [h]) rfl
  | notify j =>
    cases c <;> cases hd
    exact .fired (by simp) rfl rfl rfl rfl rfl
  | returned j ok => cases c <;> cases hd

theorem purge_wakes {pc pc' : PurgePc} {d : Dispatch.Shared}
    (hs : Dispatch.purgeStep s.core pc = some (d,pc')) :
    Wakes s { s with core := d } (.purge pc) (.purge pc') := by
  cases pc with
  | drop =>
    simp only [Dispatch.purgeStep,Option.some.injEq,Prod.mk.injEq] at hs
    obtain ⟨rfl,-⟩ := hs
    refine .frame rfl rfl (fun h => h) rfl (fun h => h) fun hn hz => hn ?_
    have hperm := Park.dropParked_perm 0 s.core.park
    rw [hz] at hperm
    exact (List.append_eq_nil_iff.mp hperm.eq_nil).2
  | take n =>
    simp only [Dispatch.purgeStep] at hs
    split at hs <;> cases hs
    refine .frame rfl rfl (fun h => h) rfl (fun hn hz => hn ?_) fun h => h
    simp [hz]
  | readEnd =>
    simp only [Dispatch.purgeStep] at hs
    split at hs <;> cases hs
    exact .frame rfl rfl (fun h => h) rfl (fun h => h) fun h => h
  | closing js =>
    cases js <;> cases hs
    exact .frame rfl rfl (fun h => h) rfl (fun h => h) fun h => h
  | bump =>
    cases hs
    exact .frame rfl rfl (fun h => h) rfl (fun h => h) fun h => h

theorem queue_wakes {pc pc' : QueuePc} (hs : queueStep s pc = some (s',pc')) :
    Wakes s s' (.queue pc) (.queue pc') := by
  obtain ⟨⟨d,pc₁⟩,hd,heq⟩ := Option.map_eq_some_iff.mp hs
  cases heq
  cases pc with
  | flag on =>
    cases hd
    by_cases hon : s.core.paused = on
    · rw [if_pos hon]
      exact .frame rfl (by simp) (fun h => ⟨h.1,hon.trans h.2⟩) rfl (fun h => h) fun h => h
    · rw [if_neg hon]
      exact .owing (fun h => by simp [h]) rfl
  | hook =>
    cases hd
    by_cases hp : s.core.paused = true
    · exact ⟨fun _ => .inr (.inr hp),fun h => by simp [h],fun h => .inl h,.inl rfl,fun h => .inl h,
        fun h => .inl h⟩
    · exact .fired (by simp [hp]) rfl rfl rfl rfl rfl
  | done => cases hd

theorem pause_wakes {pc pc' : PausePc} (hs : pauseStep s pc = some (s',pc')) :
    Wakes s s' (.pause pc) (.pause pc') := by
  cases pc with
  | call =>
    simp only [pauseStep] at hs
    split at hs <;> cases hs
    · exact .frame rfl rfl (fun h => h) rfl (fun h => h) fun h => h
    · exact .frame rfl rfl (fun h => h) rfl (fun h => h) fun h => h
    · exact .frame rfl rfl (fun h => by cases h.1) rfl (fun h => h) fun h => h
    · refine .frame rfl rfl (fun h => ?_) rfl (fun h => h) fun h => h
      have := h.1
      simp only at this
      split at this <;> cases this
    · exact .frame rfl rfl (fun h => h) rfl (fun h => h) fun h => h
  | returned r => cases hs

theorem step_wakes (hl : ∀ pc, l ≠ .loop pc) (hs : step cfg s l c = some (s',l',new)) :
    Wakes s s' l l' := by
  cases step_act hs with
  | loop hp => exact absurd rfl (hl _)
  | batch hp => exact batch_wakes hp
  | add hp => exact add_wakes hp
  | close => exact .frame rfl rfl (fun h => h) rfl (fun h => h) fun h => h
  | purge hp => exact purge_wakes hp
  | queue hp => exact queue_wakes hp
  | pause hp => exact pause_wakes hp
  | @resume pc pc' s' hp =>
    cases pc with
    | cas =>
      simp only [resumeStep] at hp
      split at hp <;> cases hp
      · exact .owing (fun h => h) rfl
      · exact .frame rfl rfl (fun h => h) rfl (fun h => h) fun h => h
    | broadcast =>
      cases hp
      exact .owing (fun h => h) rfl
    | notify =>
      cases hp
      exact .fired rfl rfl rfl rfl rfl rfl
    | active | err =>
      cases hp
      exact .frame rfl rfl (fun h => h) rfl (fun h => h) fun h => h
    | returned r => cases hp
  | @tunePool pc pc' s' hp =>
    cases pc with
    | notify =>
      cases hp
      exact .fired rfl rfl rfl rfl rfl rfl
    | popBack shrink m =>
      simp only [tunePoolStep] at hp
      split at hp
      · cases hp
      · split at hp <;> cases hp <;>
          exact .frame rfl rfl (fun h => h) rfl (fun h => h) fun h => h
    | returned r => cases hp
    | _ =>
      cases hp
      exact .frame rfl rfl (fun h => h) rfl (fun h => h) fun h => h
  | @prune pc pc' s' hp =>
    have he : s'.core = s.core ∧ s'.signal = s.signal := by
      unfold pruneStep at hp
      grind
    exact .frame rfl he.2 (fun h => by simpa only [Live,he.1] using h) (by rw [he.1])
      (by rw [he.1]; exact fun h => h) (by rw [he.1]; exact fun h => h)
  | @start pc pc' s' hp =>
    cases pc <;> cases hp
    · exact .owing (fun h => h) rfl
    · exact .fired rfl rfl rfl rfl rfl rfl

end Varmq.Wakeup
