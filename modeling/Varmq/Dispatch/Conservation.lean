import Varmq.Dispatch.Places

namespace Varmq.Dispatch

open Interleaving

def inHand : Thread → List ℕ
  | .loop pc => buffer pc
  | .batch b _ => b.rest
  | _ => []

def inPurge : Thread → List ℕ
  | .purge (.closing js) => js
  | _ => []

def stored (w : World Shared Thread) : List ℕ := w.shared.slots.map Prod.fst

def inBatches (w : World Shared Thread) : List ℕ := w.threads.flatMap inHand

def inPark (w : World Shared Thread) : List ℕ := w.shared.park.jobs

def purging (w : World Shared Thread) : List ℕ := w.threads.flatMap inPurge

def left (w : World Shared Thread) : List ℕ := w.shared.ran ++ w.shared.dropped

theorem hands_inHand (j : ℕ) (l : Thread) : (hands j l).buffered + (hands j l).running +
    (hands j l).closing = (inHand l).count j := by
  have hsplit : ∀ rest : List ℕ, rest.tail.count j + (rest.take 1).count j = rest.count j := by
    intro rest
    cases rest with
    | nil => rfl
    | cons i tl => simp [List.count_cons]
  cases l with
  | loop pc => rfl
  | batch b pc =>
    cases pc with
    | run => exact hsplit b.rest
    | close => exact hsplit b.rest
    | _ => rfl
  | add pc => cases pc <;> rfl
  | purge pc => cases pc <;> rfl
  | _ => rfl

theorem hands_inPurge (j : ℕ) (l : Thread) : (hands j l).purging = (inPurge l).count j := by
  cases l with
  | batch b pc => cases pc <;> rfl
  | add pc => cases pc <;> rfl
  | purge pc => cases pc <;> rfl
  | _ => rfl

theorem sum_inHand (j : ℕ) (ts : List Thread) : (sum j ts).buffered + (sum j ts).running +
    (sum j ts).closing = (ts.flatMap inHand).count j := by
  induction ts with
  | nil => rfl
  | cons l ts ih =>
    have hl := hands_inHand j l
    simp only [sum_cons,Hands.add,List.flatMap_cons,List.count_append]
    omega

theorem sum_inPurge (j : ℕ) (ts : List Thread) :
    (sum j ts).purging = (ts.flatMap inPurge).count j := by
  induction ts with
  | nil => rfl
  | cons l ts ih =>
    simp only [sum_cons,Hands.add,List.flatMap_cons,List.count_append,hands_inPurge,ih]

theorem accepted_job_in_one_place {n : ℕ} {w : World Shared Thread} {j : ℕ}
    (h : program.Reach always (newWorker n) w) (hj : j ∈ w.shared.accepted) :
    (stored w ++ inBatches w ++ inPark w ++ purging w ++ left w).count j = 1 ∧
    w.shared.started.count j ≤ 1 ∧
    (j ∈ left w → w.shared.started.count j = 1 ∨
      (w.shared.started.count j = 0 ∧ w.shared.job j = .closed)) := by
  obtain ⟨h1,h2,h3,-,-,-,-,h8,h9⟩ := kept_reach h j
  have hh := sum_inHand j w.threads
  have hp := sum_inPurge j w.threads
  have ha := h9 (by simp only [view]; have := List.count_pos_iff.mpr hj; omega)
  simp only [view] at h1 h2 h3 h8 ha
  simp only [stored,inBatches,inPark,purging,left,List.count_append]
  refine ⟨by omega,by omega,fun hl => ?_⟩
  have hlc := List.count_pos_iff.mpr hl
  rw [List.count_append] at hlc
  have hc := h8 hlc
  by_cases hz : w.shared.started.count j = 0
  · exact .inr ⟨hz,hc⟩
  · exact .inl (by omega)

def goes (i n : ℕ) : List (Event Thread Choice) := List.replicate n (.act i .go)

def addRun (i : ℕ) : List (Event Thread Choice) :=
  ([.call (.add .new),.act i .go,.act i (.flag true)] : Events Thread Choice) ++ goes i 3

-- One job is added to an idle worker, dispatched in a batch of one, run and closed.
def dispatchRun : List (Event Thread Choice) :=
  ([.call (.lifecycle .idle false),.act 1 .go] : Events Thread Choice) ++ addRun 2 ++ goes 0 13 ++
  ([.act 0 (.pick 1)] : Events Thread Choice) ++ goes 0 14 ++ goes 3 4

theorem accepted_job_in_one_place_run : ∃ w, program.Reach always (newWorker 1) w ∧
    0 ∈ w.shared.accepted ∧ w.shared.started = [0] ∧
    (stored w ++ inBatches w ++ inPark w ++ purging w ++ left w).count 0 = 1 := by
  obtain ⟨w,hr,hp⟩ := Program.exists_reach_of_run program always (newWorker 1) dispatchRun
    (fun w => w.shared.accepted = [0] && w.shared.started = [0]) (by decide)
  simp only [Bool.and_eq_true,decide_eq_true_eq] at hp
  have hj : 0 ∈ w.shared.accepted := by simp [hp.1]
  exact ⟨w,hr,hj,hp.2,(accepted_job_in_one_place hr hj).1⟩

-- PurgeValues has returned the job, and its Close has not run.
theorem purged_job_in_no_place : ∃ w, program.Reach always (newWorker 1) w ∧
    0 ∈ w.shared.accepted ∧ (stored w ++ inBatches w ++ inPark w ++ left w).count 0 = 0 ∧
    w.shared.started.count 0 = 0 ∧ w.shared.job 0 = .queued := by
  obtain ⟨w,hr,hp⟩ := Program.exists_reach_of_run program always (newWorker 1)
    (addRun 1 ++ .call (.purge .bump) :: goes 2 4)
    (fun w => w.shared.accepted.contains 0 &&
      (stored w ++ inBatches w ++ inPark w ++ left w).count 0 = 0 &&
      w.shared.started.count 0 = 0 && w.shared.job 0 = .queued) (by decide)
  simp only [Bool.and_eq_true,decide_eq_true_eq,List.contains_eq_mem] at hp
  exact ⟨w,hr,hp.1.1.1,hp.1.1.2,hp.1.2,hp.2⟩

end Varmq.Dispatch
