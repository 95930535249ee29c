import Varmq.Dispatch.Order

namespace Varmq.Dispatch

open Interleaving

variable {s : Shared}

-- One caller of `pending` on its own, from `pc` to its result.
def readPending : ℕ → Shared → PendingPc → Option ℕ
  | _, _, .done n => some n
  | 0, _, _ => none
  | f+1, s, pc =>
      match pendingStep s pc with
      | none => none
      | some (s',pc') => readPending f s' pc'

def numPending (s : Shared) : Option ℕ :=
  let taken := s.curProcessing
  let running := s.busyWorkers
  let buffered := if running < taken then taken - running else 0
  (readPending 6 s .parked).map fun n => n + buffered

def numProcessing (s : Shared) : ℕ := s.busyWorkers

def executingOf : Thread → List ℕ
  | .batch b .run => b.rest.take 1
  | _ => []

def notStarted (w : World Shared Thread) : List ℕ :=
  stored w ++ inPark w ++ w.threads.flatMap unstarted

def executing (w : World Shared Thread) : List ℕ := w.threads.flatMap executingOf

-- The jobs of its batch that a goroutine has behind it and that curProcessing still holds.
def endedOf : Thread → ℕ
  | .batch b .run => b.i
  | .batch b .finish => b.n
  | _ => 0

def Calm : Thread → Prop
  | .loop pc => loopReserved pc = 0 ∧ loopBusy pc = 0
  | .batch b pc => busyOf (.batch b pc) = 1 → pc = .run
  | _ => True

structure Settled (w : World Shared Thread) : Prop where
  unpaused : w.shared.paused = false
  calm : ∀ l ∈ w.threads, Calm l

theorem read_paused (f n : ℕ) (hp : s.paused = false) (hs : s.slots.map Prod.fst <:+ s.claimed) :
    readPending (f + 3) s (.paused n) = some (n + s.slots.length) := by
  have hle := hs.length_le
  rw [List.length_map] at hle
  simp only [readPending,pendingStep,hp,Bool.false_eq_true,if_false,Shared.offset,
    Option.some.injEq]
  omega

theorem readPending_eq (hp : s.paused = false) (h : Stocked s) :
    readPending 6 s .parked = some (s.park.jobs.length + s.slots.length) := by
  have hc : s.park.nParked = s.park.jobs.length := h.parked
  have hall : (Park.unheld s.pauses s.park).1 = s.park.jobs.length :=
    Park.unheld_all fun _ => hp
  by_cases hz : 0 < s.park.nParked
  · by_cases hh : s.park.parkHeld = true
    · have hr := read_paused (s := { s with park := (Park.unheld s.pauses s.park).2 }) 0
        (Park.unheld s.pauses s.park).1 hp h.suffix
      rw [hall] at hr
      simpa only [readPending,pendingStep,hz,hh,if_true,hall] using hr
    · have hr := read_paused 1 s.park.nParked hp h.suffix
      rw [Bool.not_eq_true] at hh
      rw [← hc]
      simpa only [readPending,pendingStep,hz,hh,if_true,Bool.false_eq_true,if_false] using hr
  · have hr := read_paused 2 0 hp h.suffix
    have h0 : s.park.jobs.length = 0 := by omega
    rw [h0]
    simpa only [readPending,pendingStep,hz,if_false] using hr

theorem numPending_eq (hp : s.paused = false) (h : Stocked s) : numPending s =
    some (s.park.jobs.length + s.slots.length + (s.curProcessing - s.busyWorkers)) := by
  have hb : (if s.busyWorkers < s.curProcessing then s.curProcessing - s.busyWorkers else 0) =
      s.curProcessing - s.busyWorkers := by
    split <;> omega
  simp only [numPending,readPending_eq hp h,Option.map_some,hb]

theorem calm_buffer {pc : LoopPc} (h : loopBusy pc = 0) : buffer pc = [] := by
  cases pc <;> first | rfl | cases h

-- What a thread has reserved is what it runs, what it has behind it and what waits.
theorem calm_reserved {l : Thread} (hf : Fits l) (h : Calm l) :
    reservedOf l = busyOf l + endedOf l + (unstarted l).length := by
  cases l with
  | loop pc =>
    obtain ⟨h1,h2⟩ := h
    simp only [reservedOf,busyOf,endedOf,unstarted,calm_buffer h2,h1,h2,List.length_nil]
  | batch b pc =>
    cases pc with
    | run =>
      obtain ⟨hn,hne⟩ := hf
      have hpos := List.length_pos_iff.mpr hne
      simp only [reservedOf,busyOf,endedOf,unstarted,List.length_tail]
      omega
    | finish | notify | done =>
      have hr : b.rest = [] := hf
      simp [reservedOf,busyOf,endedOf,unstarted,hr]
    | _ => cases h rfl
  | _ => rfl

theorem total_calm {ts : List Thread} (hf : ∀ l ∈ ts, Fits l) (h : ∀ l ∈ ts, Calm l) :
    total reservedOf ts = total busyOf ts + total endedOf ts + (ts.flatMap unstarted).length := by
  induction ts with
  | nil => rfl
  | cons l ts ih =>
    have hl := calm_reserved (hf l (by simp)) (h l (by simp))
    have ht := ih (fun t ht => hf t (by simp [ht])) fun t ht => h t (by simp [ht])
    simp only [total_cons,List.flatMap_cons,List.length_append]
    omega

theorem settled_numPending {w : World Shared Thread} (hb : Base w.shared w.threads)
    (h : Settled w) :
    numPending w.shared = some ((notStarted w).length + total endedOf w.threads) := by
  rw [numPending_eq h.unpaused hb.stocked,Option.some.injEq]
  have ht := total_calm hb.charged.fits h.calm
  have hc := hb.charged.cur
  have hu := hb.charged.busy
  simp only [notStarted,stored,inPark,List.length_append,List.length_map]
  omega

theorem calm_inHand {l : Thread} (h : Calm l) : (inHand l).Perm (unstarted l ++ executingOf l) := by
  cases l with
  | batch b pc =>
    cases pc with
    | run =>
      cases hr : b.rest with
      | nil => simp [inHand,unstarted,executingOf,hr]
      | cons j tl =>
        simp only [inHand,unstarted,executingOf,hr,List.tail_cons,List.take_succ_cons,
          List.take_zero]
        exact (List.perm_append_singleton j tl).symm
    | close => cases h rfl
    | _ => simp [inHand,unstarted,executingOf]
  | loop pc => simp [inHand,unstarted,executingOf]
  | _ => exact .refl _

theorem calm_inHands {ts : List Thread} (h : ∀ l ∈ ts, Calm l) :
    (ts.flatMap inHand).Perm (ts.flatMap unstarted ++ ts.flatMap executingOf) := by
  induction ts with
  | nil => exact .refl _
  | cons l ts ih =>
    have hl := calm_inHand (h l (by simp))
    have ht := ih fun t ht => h t (by simp [ht])
    simp only [List.flatMap_cons]
    refine (hl.append ht).trans ?_
    rw [List.append_assoc,List.append_assoc]
    refine .append_left _ ?_
    rw [← List.append_assoc,← List.append_assoc]
    exact List.perm_append_comm.append_right _

theorem length_executing {ts : List Thread} (hf : ∀ l ∈ ts, Fits l) (h : ∀ l ∈ ts, Calm l) :
    (ts.flatMap executingOf).length = total busyOf ts := by
  induction ts with
  | nil => rfl
  | cons l ts ih =>
    have ht := ih (fun t ht => hf t (by simp [ht])) fun t ht => h t (by simp [ht])
    have hl : (executingOf l).length = busyOf l := by
      have hc := h l (by simp)
      have hfl := hf l (by simp)
      cases l with
      | loop pc => exact hc.2.symm
      | batch b pc =>
        cases pc with
        | run =>
          have hpos := List.length_pos_iff.mpr hfl.2
          simp only [executingOf,busyOf,List.length_take]
          omega
        | finish | notify | done => rfl
        | _ => cases hc rfl
      | _ => rfl
    simp only [List.flatMap_cons,List.length_append,total_cons,hl,ht]

theorem base_reach {ok : Guard Shared Thread Choice} {n : ℕ} {w : World Shared Thread}
    (h : program.Reach ok (newWorker n) w) : Base w.shared w.threads :=
  Program.reach_invariant (I := Base) (base_newWorker n) (fun _ _ _ h _ he => base_call h he)
    (fun _ _ _ _ _ _ _ _ h _ hs => base_act h hs) h

theorem settled_places {w : World Shared Thread} (hb : Base w.shared w.threads) (h : Settled w) :
    w.shared.claimed.Perm
      (notStarted w ++ executing w ++ w.shared.ran ++ (purging w ++ w.shared.dropped)) := by
  rw [List.perm_iff_count]
  intro j
  obtain ⟨hc,-,-,-,-,-,-,-,-⟩ := hb.kept j
  have hi := (calm_inHands h.calm).count_eq j
  have hs := sum_inHand j w.threads
  have hp := sum_inPurge j w.threads
  simp only [view] at hc
  simp only [List.count_append] at hi
  simp only [notStarted,executing,stored,inPark,purging,List.count_append]
  omega

theorem pending_counts_unstarted {n : ℕ} {w : World Shared Thread}
    (h : program.Reach always (newWorker n) w) (hs : Settled w) :
    (numPending w.shared = some (notStarted w).length ↔ ∀ l ∈ w.threads, endedOf l = 0) ∧
    w.shared.claimed.Perm
      (notStarted w ++ executing w ++ w.shared.ran ++ (purging w ++ w.shared.dropped)) ∧
    (executing w).length = numProcessing w.shared := by
  have hb := base_reach h
  have hn := settled_numPending hb hs
  refine ⟨?_,settled_places hb hs,?_⟩
  · rw [hn,Option.some.injEq,← total_eq_zero]
    omega
  · rw [numProcessing,hb.charged.busy]
    exact length_executing hb.charged.fits hs.calm

instance : DecidablePred Calm
  | .loop _ => inferInstanceAs (Decidable (_ ∧ _))
  | .batch _ _ => inferInstanceAs (Decidable (_ → _))
  | .add _ | .close _ _ | .purge _ | .queue _ | .wait _ _ | .lifecycle _ _ =>
      inferInstanceAs (Decidable True)

instance (w : World Shared Thread) : Decidable (Settled w) :=
  decidable_of_iff (w.shared.paused = false ∧ ∀ l ∈ w.threads, Calm l)
    ⟨fun h => ⟨h.1,h.2⟩,fun h => ⟨h.unpaused,h.calm⟩⟩

-- Two jobs are added to an idle worker and dispatched in one batch, which makes m steps.
def batchRun (m : ℕ) : List (Event Thread Choice) :=
  ([.call (.lifecycle .idle false),.act 1 .go] : Events Thread Choice) ++ addRun 2 ++ addRun 3 ++
  goes 0 13 ++ ([.act 0 (.pick 2)] : Events Thread Choice) ++ goes 0 21 ++ goes 4 m

theorem pending_counts_unstarted_first : ∃ w, program.Reach always (newWorker 1) w ∧
    executing w = [0] ∧ numPending w.shared = some 1 ∧
    (numPending w.shared = some (notStarted w).length ↔ ∀ l ∈ w.threads, endedOf l = 0) := by
  obtain ⟨w,hr,hp⟩ := Program.exists_reach_of_run program always (newWorker 1) (batchRun 2)
    (fun w => Settled w && executing w = [0] && numPending w.shared = some 1) (by decide)
  simp only [Bool.and_eq_true,decide_eq_true_eq] at hp
  exact ⟨w,hr,hp.1.2,hp.2,(pending_counts_unstarted hr hp.1.1).1⟩

-- The batch runs its second job; the first, which has finished, is still counted.
theorem finished_job_pending : ¬ ∀ (n : ℕ) (w : World Shared Thread),
    program.Reach always (newWorker n) w → Settled w → w.shared.status = .running →
    purging w = [] → w.shared.dropped = [] →
    numPending w.shared = some (notStarted w).length := by
  intro hall
  obtain ⟨w,hr,hp⟩ := Program.exists_reach_of_run program always (newWorker 1) (batchRun 8)
    (fun w => Settled w && w.shared.status = .running && purging w = [] &&
      w.shared.dropped = [] && numPending w.shared = some 1 && notStarted w = []) (by decide)
  simp only [Bool.and_eq_true,decide_eq_true_eq] at hp
  obtain ⟨⟨⟨⟨⟨h1,h2⟩,h3⟩,h4⟩,h5⟩,h6⟩ := hp
  have hn := hall 1 w hr h1 h2 h3 h4
  rw [h5,h6] at hn
  simp at hn

end Varmq.Dispatch
