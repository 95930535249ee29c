import Varmq.Dispatch.Growth
import Varmq.Dispatch.Conservation

namespace Varmq.Dispatch

open Interleaving
open Varmq.Park (Stamp Parked)

variable {s s' : Shared}

def waiting : Thread → Bool
  | .wait _ .returned => false
  | .wait _ _ => true
  | _ => false

-- A worker Pause or Stop, or a queue Pause.
def deactivates : Thread → Bool
  | .lifecycle q _ => !q.isActive
  | .queue (.flag on) => on
  | _ => false

-- A step that takes jobs out of both the storage and the batches without closing them.
def displaces (s : Shared) : Thread → Bool
  | .batch b .park => !b.stamp.stale s.gens
  | .purge (.take _) => true
  | _ => false

def activeDuringWait : Guard Shared Thread Choice
  | w, .act i _ => !w.threads.any waiting || !(w.threads[i]?).any deactivates
  | w, .call (.wait _ _) => w.shared.status.isActive && !w.shared.paused
  | _, .call _ => true

def keptDuringWait : Guard Shared Thread Choice
  | w, .act i _ => !w.threads.any waiting || !(w.threads[i]?).any (displaces w.shared)
  | w, .call (.wait _ _) => w.threads.all fun l => (inPurge l).isEmpty
  | _, .call _ => true

def calm : Guard Shared Thread Choice := fun w e => activeDuringWait w e && keptDuringWait w e

def pendingFact (s : Shared) (before : List ℕ) : PendingPc → Prop
  | .parked | .unheld => True
  | .held n => 0 < n
  | .paused n | .head n => n = 0 → s.park.jobs = []
  | .offset n h => (n = 0 → s.park.jobs = []) ∧ ∀ j ∈ before, j ∈ s.claimed.take h
  | .done n => n = 0 → s.park.jobs = [] ∧ ∀ j ∈ before, j ∉ s.slots.map Prod.fst

-- What each load of Wait has established when the next one comes.
def waitFact (s : Shared) (before : List ℕ) : WaitPc → Prop
  | .status | .taken | .busy _ => True
  | .pending _ pc => pendingFact s before pc
  | .cur => s.park.jobs = [] ∧ ∀ j ∈ before, j ∉ s.slots.map Prod.fst
  | .returned => ∀ j ∈ before, j ∈ s.ran ++ s.dropped

theorem inHand_le {l : Thread} (h : Fits l) : (inHand l).length ≤ reservedOf l := by
  cases l with
  | loop pc =>
    cases pc <;> simp only [inHand,buffer,reservedOf,loopReserved,Fits,List.length_nil,
      List.length_append,List.length_singleton] at h ⊢ <;> omega
  | batch b pc =>
    cases pc with
    | free | release | finish | notify | done => simp_all [inHand,Fits]
    | _ =>
      have := h.1
      simp only [inHand,reservedOf]
      omega
  | _ => simp [inHand]

theorem inHand_nil {ts : List Thread} (h : Charged s ts) (hc : s.curProcessing = 0) :
    ts.flatMap inHand = [] := by
  rw [List.flatMap_eq_nil_iff]
  intro l hl
  have hz : total reservedOf ts = 0 := h.cur.symm.trans hc
  have hr := total_eq_zero.mp hz l hl
  have hle := inHand_le (h.fits l hl)
  exact List.length_eq_zero_iff.mp (by omega)

theorem parked_stays {l l' : Thread} {c : Choice} {new : List Thread}
    (hd : displaces s l = false) (hp : s.park.jobs = []) (hs : step s l c = some (s',l',new)) :
    s'.park.jobs = [] := by
  cases step_act hs with
  | @loop pc pc' s' new hl =>
    cases pc with
    | pending pc =>
      obtain ⟨-,b,rfl⟩ := loop_pending_frame hl
      exact hp
    | plan pc =>
      obtain ⟨-,b,rfl⟩ := loop_plan_frame hl
      exact hp
    | unpark k =>
      cases c with
      | go =>
        simp only [loopStep,Option.some.injEq,Prod.mk.injEq] at hl
        obtain ⟨rfl,-,-⟩ := hl
        have hperm := Park.unpark_perm s.pauses s.park k
        rw [hp] at hperm
        exact (List.append_eq_nil_iff.mp hperm.eq_nil).2
      | flag b => cases hl
      | pick n => cases hl
    | _ =>
      have he : s'.park = s.park := by cases c <;> simp only [loopStep] at hl <;> grind
      rw [he]
      exact hp
  | @batch b b' pc pc' s' hb =>
    cases pc with
    | park =>
      simp only [batchStep,Option.some.injEq,Prod.mk.injEq] at hb
      obtain ⟨rfl,-,-⟩ := hb
      have hst : b.stamp.stale s.gens = true := by simpa [displaces] using hd
      have hst' : Stamp.stale s.gens { b.stamp with seq := b.stamp.seq + b.i } = true := hst
      simp only [Park.park,if_pos hst']
      exact hp
    | _ =>
      have he : s'.park = s.park := by
        simp only [batchStep] at hb
        grind [Shared.closeJob,Shared.closeJobs,Shared.setJob]
      rw [he]
      exact hp
  | @add pc pc' s' ha =>
    have he : s'.park = s.park := by
      cases pc <;> cases c <;> simp only [addStep] at ha <;>
        grind [Shared.closeJob,Shared.closeJobs,Shared.setJob]
    rw [he]
    exact hp
  | close => exact hp
  | @purge pc pc' s' hu =>
    cases pc with
    | drop =>
      simp only [purgeStep,Option.some.injEq,Prod.mk.injEq] at hu
      obtain ⟨rfl,-⟩ := hu
      have hperm := Park.dropParked_perm 0 s.park
      rw [hp] at hperm
      exact (List.append_eq_nil_iff.mp hperm.eq_nil).2
    | closing js =>
      cases js <;> cases hu
      exact hp
    | _ =>
      have he : s'.park = s.park := by
        simp only [purgeStep] at hu
        grind
      rw [he]
      exact hp
  | @queue pc pc' s' hq => cases pc <;> cases hq <;> exact hp
  | @wait js pc pc' s' hw =>
    obtain ⟨b,rfl⟩ := wait_frame hw
    exact hp
  | lifecycle => exact hp

theorem active_stays {l l' : Thread} {c : Choice} {new : List Thread}
    (hd : deactivates l = false) (ha : s.status.isActive = true) (hp : s.paused = false)
    (hs : step s l c = some (s',l',new)) : s'.status.isActive = true ∧ s'.paused = false := by
  cases step_act hs with
  | @loop pc pc' s' new hl =>
    cases pc with
    | pending pc =>
      obtain ⟨-,b,rfl⟩ := loop_pending_frame hl
      exact ⟨ha,hp⟩
    | plan pc =>
      obtain ⟨-,b,rfl⟩ := loop_plan_frame hl
      exact ⟨ha,hp⟩
    | claim k =>
      cases c <;> simp only [loopStep] at hl <;> try cases hl
      split at hl <;> cases hl
      · exact ⟨rfl,hp⟩
      · exact ⟨ha,hp⟩
    | _ => cases c <;> simp only [loopStep] at hl <;> grind
  | @batch b b' pc pc' s' hb =>
    cases pc <;> simp only [batchStep] at hb <;>
      grind [Shared.closeJob,Shared.closeJobs,Shared.setJob]
  | @add pc pc' s' ha =>
    cases pc <;> cases c <;> simp only [addStep] at ha <;>
      grind [Shared.closeJob,Shared.closeJobs,Shared.setJob]
  | close => exact ⟨ha,hp⟩
  | @purge pc pc' s' hu =>
    cases pc with
    | closing js =>
      cases js <;> cases hu
      exact ⟨ha,hp⟩
    | _ =>
      simp only [purgeStep] at hu
      grind [Shared.closeJobs]
  | @queue pc pc' s' hq =>
    cases pc with
    | flag on =>
      cases hq
      exact ⟨ha,hd⟩
    | hook =>
      cases hq
      exact ⟨ha,hp⟩
    | done => cases hq
  | @wait js pc pc' s' hw =>
    obtain ⟨b,rfl⟩ := wait_frame hw
    exact ⟨ha,hp⟩
  | lifecycle => exact ⟨by simpa [deactivates] using hd,hp⟩

theorem purge_stays {l l' : Thread} {c : Choice} {new : List Thread}
    (hd : displaces s l = false) (hi : inPurge l = []) (hs : step s l c = some (s',l',new)) :
    inPurge l' = [] := by
  cases step_act hs with
  | @purge pc pc' s' hu =>
    cases pc with
    | closing js =>
      cases js with
      | nil => cases hu
      | cons j js => cases hi
    | take n => cases hd
    | readEnd =>
      simp only [purgeStep] at hu
      split at hu <;> cases hu
      rfl
    | bump | drop =>
      cases hu
      rfl
  | _ => rfl

theorem waiting_back {l l' : Thread} {c : Choice} {new : List Thread}
    (hs : step s l c = some (s',l',new)) (hw : waiting l' = true) : waiting l = true := by
  cases step_act hs with
  | @wait js pc pc' s' h =>
    cases pc with
    | returned => cases h
    | _ => rfl
  | _ => cases hw

theorem pendingFact_other {l : Thread} {js : List ℕ} {pc : PendingPc} (hg : Grown s s' l)
    (hpk : s.park.jobs = [] → s'.park.jobs = [])
    (hsl : (∀ j ∈ js, j ∉ s.slots.map Prod.fst) → ∀ j ∈ js, j ∉ s'.slots.map Prod.fst)
    (h : pendingFact s js pc) : pendingFact s' js pc := by
  cases pc with
  | parked | unheld => trivial
  | held n => exact h
  | paused n | head n => exact fun hn => hpk (h hn)
  | offset n m =>
    refine ⟨fun hn => hpk (h.1 hn),fun j hj => ?_⟩
    obtain ⟨more,he⟩ := hg.claimed
    rw [← he,List.take_append]
    exact List.mem_append_left _ (h.2 j hj)
  | done n => exact fun hn => ⟨hpk (h hn).1,hsl (h hn).2⟩

theorem waitFact_other {ts : List Thread} {l l' : Thread} {c : Choice} {new : List Thread}
    {js : List ℕ} {pc : WaitPc} (hb : Base s ts) (hl : l ∈ ts)
    (hd : waiting (.wait js pc) = true → displaces s l = false)
    (hj : ∀ j ∈ js, j ∈ s.claimed) (h : waitFact s js pc) (hs : step s l c = some (s',l',new)) :
    waitFact s' js pc := by
  have hg := (step_growth hb.stocked hs).2
  have hsl : (∀ j ∈ js, j ∉ s.slots.map Prod.fst) → ∀ j ∈ js, j ∉ s'.slots.map Prod.fst := by
    intro hns j hjs hin
    rcases hg.slots j hin with hin | hn
    · exact hns j hjs hin
    · have hk := (hb.kept j).once
      have hc : 0 < s.claimed.count j := List.count_pos_iff.mpr (hj j hjs)
      obtain ⟨xs,ys,rfl⟩ := List.append_of_mem hl
      rw [sum_split] at hk
      simp only [Hands.add,view] at hk
      omega
  cases pc with
  | status | taken | busy _ => trivial
  | pending n pc => exact pendingFact_other hg (fun hp => parked_stays (hd rfl) hp hs) hsl h
  | cur => exact ⟨parked_stays (hd rfl) h.1 hs,hsl h.2⟩
  | returned =>
    intro j hjs
    have := h j hjs
    simp only [List.mem_append] at this ⊢
    exact this.imp (fun h => hg.ran.subset h) fun h => hg.dropped.subset h

theorem not_stored {h j : ℕ} (hst : Stocked s) (hn : s.claimed.count j ≤ 1)
    (hj : j ∈ s.claimed.take h) (ho : h - s.offset = 0) : j ∉ s.slots.map Prod.fst := by
  intro hin
  obtain ⟨pre,hp⟩ := hst.suffix
  have hlen : s.offset = pre.length := by
    have := congrArg List.length hp
    simp only [List.length_append,List.length_map] at this
    simp only [Shared.offset]
    omega
  have hpre : j ∈ pre := by
    rw [← hp,List.take_append_of_le_length (by omega)] at hj
    exact List.mem_of_mem_take hj
  have h1 := List.count_pos_iff.mpr hpre
  have h2 := List.count_pos_iff.mpr hin
  rw [← hp,List.count_append] at hn
  omega

theorem pendingFact_step {ts : List Thread} {js : List ℕ} {pc pc' : PendingPc} (hb : Base s ts)
    (hp : s.paused = false) (hj : ∀ j ∈ js, j ∈ s.claimed) (h : pendingFact s js pc)
    (hs : pendingStep s pc = some (s',pc')) : pendingFact s' js pc' := by
  have hnil : ∀ {n}, s.park.jobs.length = n → n = 0 → s.park.jobs = [] := by
    rintro n rfl hn
    exact List.length_eq_zero_iff.mp hn
  cases pc with
  | parked =>
    cases hs
    split
    · assumption
    · exact fun _ => hnil hb.stocked.parked.symm (by omega)
  | held n =>
    cases hs
    split
    · trivial
    · intro hn
      simp only [pendingFact] at h
      omega
  | unheld =>
    cases hs
    intro hn
    exact hnil (Park.unheld_all (fun _ => hp)).symm hn
  | paused n =>
    cases hs
    rw [if_neg (by simp [hp])]
    exact h
  | head n =>
    cases hs
    exact ⟨h,fun j hjs => by rw [List.take_length]; exact hj j hjs⟩
  | offset n m =>
    cases hs
    intro hn
    refine ⟨h.1 (by omega),fun j hjs => ?_⟩
    have hk := (hb.kept j).once
    exact not_stored hb.stocked (by simp only [view] at hk; omega) (h.2 j hjs) (by omega)
  | done n => cases hs

theorem left_of_empty {ts : List Thread} {j : ℕ} (hb : Base s ts) (hc : s.curProcessing = 0)
    (hq : ∀ l ∈ ts, inPurge l = []) (hp : s.park.jobs = []) (hns : j ∉ s.slots.map Prod.fst)
    (hj : j ∈ s.claimed) : j ∈ s.ran ++ s.dropped := by
  have hk := (hb.kept j).conserved
  have h1 := sum_inHand j ts
  have h2 := sum_inPurge j ts
  rw [inHand_nil hb.charged hc] at h1
  rw [List.flatMap_eq_nil_iff.mpr hq] at h2
  have h3 := List.count_eq_zero.mpr hns
  have h4 := List.count_pos_iff.mpr hj
  simp only [view,hp,List.count_nil] at hk h1 h2
  rw [← List.count_pos_iff,List.count_append]
  omega

theorem waitFact_step {ts : List Thread} {js : List ℕ} {pc pc' : WaitPc} (hb : Base s ts)
    (ha : s.status.isActive = true) (hp : s.paused = false) (hq : ∀ l ∈ ts, inPurge l = [])
    (hj : ∀ j ∈ js, j ∈ s.claimed) (h : waitFact s js pc) (hs : waitStep s pc = some (s',pc')) :
    waitFact s' js pc' := by
  cases pc with
  | status =>
    cases hs
    cases hst : s.status <;> rw [hst] at ha <;> trivial
  | taken =>
    cases hs
    trivial
  | busy n =>
    cases hs
    trivial
  | pending n pc =>
    rcases wait_pending hs with ⟨m,rfl,rfl,rfl⟩ | ⟨pc₁,hp₁,rfl⟩
    · split
      · exact h (by omega)
      · trivial
    · exact pendingFact_step hb hp hj h hp₁
  | cur =>
    cases hs
    split
    case isTrue hc =>
      intro j hjs
      exact left_of_empty hb hc hq h.1 (h.2 j hjs) (hj j hjs)
    case isFalse => trivial
  | returned => cases hs

structure Early (s : Shared) (ts : List Thread) : Prop where
  base : Base s ts
  quiet : ts.any waiting = true →
    s.status.isActive = true ∧ s.paused = false ∧ ∀ l ∈ ts, inPurge l = []
  facts : ∀ js pc, .wait js pc ∈ ts → (∀ j ∈ js, j ∈ s.claimed) ∧ waitFact s js pc

theorem any_waiting {ts : List Thread} {js : List ℕ} {pc : WaitPc} (h : .wait js pc ∈ ts)
    (hw : waiting (.wait js pc) = true) : ts.any waiting = true :=
  List.any_eq_true.mpr ⟨_,h,hw⟩

theorem early_call {ts : List Thread} {l : Thread} (h : Early s ts)
    (hok : calm ⟨s,ts⟩ (.call l) = true) (he : entry s l = true) : Early s (ts ++ [l]) := by
  have hl : (waiting l = false ∧ ∀ js pc, l ≠ .wait js pc) ∨ l = .wait s.accepted .status := by
    unfold entry at he
    split at he <;> first | exact .inl ⟨rfl,by simp⟩ | cases he | skip
    right
    rw [of_decide_eq_true he]
  have hpl : inPurge l = [] := by
    unfold entry at he
    split at he <;> first | rfl | cases he
  refine ⟨base_call h.base he,fun hw => ?_,?_⟩
  · have hq : s.status.isActive = true ∧ s.paused = false ∧ ∀ t ∈ ts, inPurge t = [] := by
      rcases hl with ⟨hl,-⟩ | rfl
      · refine h.quiet ?_
        simpa [hl] using hw
      · simp only [calm,activeDuringWait,keptDuringWait,Bool.and_eq_true,Bool.not_eq_true',
          List.all_eq_true,List.isEmpty_iff] at hok
        exact ⟨hok.1.1,hok.1.2,hok.2⟩
    exact ⟨hq.1,hq.2.1,forall_call hq.2.2 hpl⟩
  · intro js pc hm
    rcases List.mem_append.mp hm with hm | hm
    · exact h.facts js pc hm
    · rcases hl with ⟨-,hl⟩ | rfl
      · exact absurd (List.mem_singleton.mp hm).symm (hl js pc)
      · cases List.mem_singleton.mp hm
        refine ⟨fun j hj => ?_,trivial⟩
        have hk := (h.base.kept j).accepted
        have hc := List.count_pos_iff.mpr hj
        exact List.count_pos_iff.mp (hk (by simp only [view]; omega))

theorem early_act {xs ys new : List Thread} {l l' : Thread} {c : Choice}
    (h : Early s (xs ++ l :: ys)) (hok : calm ⟨s,xs ++ l :: ys⟩ (.act xs.length c) = true)
    (hs : step s l c = some (s',l',new)) : Early s' (xs ++ l' :: (ys ++ new)) := by
  have hguard : (xs ++ l :: ys).any waiting = true → deactivates l = false ∧ displaces s l = false := by
    intro hw
    simpa [calm,activeDuringWait,keptDuringWait,hw] using hok
  have hgrow := (step_growth h.base.stocked hs).2
  have hcases : ∀ t ∈ xs ++ l' :: (ys ++ new), t ∈ xs ++ ys ∨ t = l' ∨ ∃ b pc, t = .batch b pc :=
    fun t ht => (mem_act ht).imp_right fun h => h.imp_right (step_new hs t)
  refine ⟨base_act h.base hs,fun hw => ?_,fun js pc hm => ?_⟩
  · have hwb : (xs ++ l :: ys).any waiting = true := by
      obtain ⟨t,ht,hwt⟩ := List.any_eq_true.mp hw
      rcases hcases t ht with ht | rfl | ⟨b,pc,rfl⟩
      · exact List.any_eq_true.mpr ⟨t,mem_of_other ht,hwt⟩
      · exact List.any_eq_true.mpr ⟨l,by simp,waiting_back hs hwt⟩
      · cases hwt
    obtain ⟨ha,hp,hq⟩ := h.quiet hwb
    obtain ⟨hd,hd'⟩ := hguard hwb
    obtain ⟨ha',hp'⟩ := active_stays hd ha hp hs
    refine ⟨ha',hp',fun t ht => ?_⟩
    rcases hcases t ht with ht | rfl | ⟨b,pc,rfl⟩
    · exact hq t (mem_of_other ht)
    · exact purge_stays hd' (hq l (by simp)) hs
    · rfl
  · rcases hcases _ hm with hm | rfl | ⟨b,pc,hb⟩
    · obtain ⟨hj,hf⟩ := h.facts js pc (mem_of_other hm)
      refine ⟨fun j hjs => hgrow.claimed.subset (hj j hjs),?_⟩
      refine waitFact_other h.base (by simp) (fun hw => ?_) hj hf hs
      exact (hguard (any_waiting (mem_of_other hm) hw)).2
    · cases step_act hs with
      | @wait js pc₀ pc' s' hp =>
        have hin : Thread.wait js pc₀ ∈ xs ++ .wait js pc₀ :: ys := by simp
        obtain ⟨hj,hf⟩ := h.facts js pc₀ hin
        have hw : waiting (.wait js pc₀) = true := by
          cases pc₀ with
          | returned => cases hp
          | _ => rfl
        obtain ⟨ha,hpz,hq⟩ := h.quiet (any_waiting hin hw)
        exact ⟨fun j hjs => hgrow.claimed.subset (hj j hjs),waitFact_step h.base ha hpz hq hj hf hp⟩
    · cases hb

theorem wait_not_early {n : ℕ} {w : World Shared Thread} {before : List ℕ}
    (h : program.Reach calm (newWorker n) w) (hw : .wait before .returned ∈ w.threads) :
    ∀ j ∈ before, w.shared.job j = .closed := by
  have he : Early w.shared w.threads := by
    refine Program.reach_invariant (I := Early) ?_ ?_ ?_ h
    · refine ⟨base_newWorker n,?_,?_⟩ <;> simp [newWorker,waiting]
    · exact fun s ts l hI hok he => early_call hI hok he
    · exact fun s xs l ys c s' l' new hI hok hs => early_act hI hok hs
  intro j hj
  have hl := (he.facts _ _ hw).2 j hj
  refine (he.base.kept j).left ?_
  have := List.count_pos_iff.mpr hl
  rw [List.count_append] at this
  exact this

theorem wait_not_early_after_run : ∃ w, program.Reach calm (newWorker 1) w ∧
    .wait [0] .returned ∈ w.threads ∧ w.shared.job 0 = .closed := by
  obtain ⟨w,hr,hp⟩ := Program.exists_reach_of_run program calm (newWorker 1)
    (dispatchRun ++ goes 3 4 ++ .call (.wait [0] .status) :: goes 4 9)
    (fun w => w.threads.contains (.wait [0] .returned)) (by decide)
  have hw : .wait [0] .returned ∈ w.threads := by simpa using hp
  exact ⟨w,hr,hw,wait_not_early hr hw 0 (by simp)⟩

-- The first batch has read its queue as paused before the queue's Resume and the Wait, and parks
-- its second job after Wait has found nothing parked. Between its busy and processing counts the
-- dispatcher hides that job from the difference Wait takes.
def parkedDuringWait : List (Event Thread Choice) :=
  ([.call (.lifecycle .idle false),.act 1 .go] : Events Thread Choice) ++ addRun 2 ++ addRun 3 ++
  goes 0 13 ++ ([.act 0 (.pick 2)] : Events Thread Choice) ++ goes 0 21 ++ goes 4 6 ++
  ([.call (.queue (.flag true)),.act 5 .go,.act 4 .go,.call (.queue (.flag false)),
    .act 6 .go] : Events Thread Choice) ++ addRun 7 ++ goes 0 12 ++
  ([.act 0 (.pick 1),.act 0 .go] : Events Thread Choice) ++
  .call (.wait [0,1,2] .status) :: goes 8 4 ++ goes 0 12 ++ goes 8 4 ++ goes 9 8 ++ goes 4 4 ++
  goes 8 1

theorem wait_early_while_parked : ∃ w, program.Reach activeDuringWait (newWorker 2) w ∧
    .wait [0,1,2] .returned ∈ w.threads ∧ w.shared.job 1 = .queued := by
  obtain ⟨w,hr,hp⟩ := Program.exists_reach_of_run program activeDuringWait (newWorker 2)
    parkedDuringWait
    (fun w => w.threads.contains (.wait [0,1,2] .returned) && w.shared.job 1 = .queued) (by decide)
  simp only [Bool.and_eq_true,decide_eq_true_eq,List.contains_eq_mem] at hp
  exact ⟨w,hr,hp.1,hp.2⟩

end Varmq.Dispatch
