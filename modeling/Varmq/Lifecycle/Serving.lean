import Varmq.Lifecycle.Turn

namespace Varmq.Lifecycle

open Interleaving
open Varmq.Worker (Status Error)

variable {s s' : Shared} {y a b : Weights}

def shuttingDown : LoopPc → Bool
  | .wait _ | .removeAll | .stopLock | .stopStore => true
  | _ => false

def serving : LoopPc → Bool
  | .wait _ | .removeAll | .stopLock | .stopStore | .stopWake | .stopUnlock | .exited => false
  | _ => true

def exitedLoop : Thread → Bool
  | .loop _ .exited => true
  | .loop _ _ => false
  | _ => true

-- A Start between the launch of its loop and its store of idle.
def launchedLoop : Thread → Bool
  | .start .push | .start .store | .restart (.start .push) | .restart (.start .store) => true
  | _ => false

def storedFirst : Guard Shared Thread Choice
  | w, .act _ .done => !w.threads.any launchedLoop
  | _, _ => true

def notStored : Guard Shared Thread Choice
  | w, .act i _ => !(w.threads[i]?).any storing
  | _, .call _ => true

structure Served (s : Shared) (w : Weights) : Prop where
  launched : 0 < w.launched → s.status = .initiated ∨ s.status = .stopped
  waiting : 0 < w.waiting → s.status = .stopping
  ending : 0 < w.ending → s.status = .stopped
  live : s.status ≠ .initiated → s.status ≠ .stopped → w.live = 1

theorem served_flip {p q : Status} (h : Served s (y.add a))
    (hp : s.status = p) (hq : s'.status = q) (hf : Flip (0 < a.crit) p q) (hs : Same a b) :
    Served s' (y.add b) := by
  obtain ⟨h1,h2,h3,h4⟩ := h
  obtain ⟨s1,s2,s3,s4⟩ := hs
  simp only [Weights.add] at *
  cases hf with
  | stop hp' =>
    have := active_of_stopFrom hp'
    simp only [stopFrom] at hp'
    constructor <;> grind
  | _ => constructor <;> grind

theorem served_turn {done stored : Prop} (hy : Within y) (hb : Balanced s (y.add a)) (h : Served s (y.add a))
    (hd : done → y.launched = 0) (ht : Turn a b done stored s.status s'.status) : Served s' (y.add b) := by
  generalize hp : s.status = p at ht
  generalize hq : s'.status = q at ht
  cases ht with
  | flip hf hs => exact served_flip h hp hq hf hs
  | cancelled hdone ha hb' =>
    have := hd hdone
    obtain ⟨h1,h2,h3,h4⟩ := h
    obtain ⟨y1,y2,y3,y4⟩ := hy
    have hone := hb.oneLoop
    have hun := hb.unlaunched
    subst ha hb'
    simp only [Weights.add,Weights.zero] at *
    constructor <;> grind
  | stopped ha hb' =>
    obtain ⟨h1,h2,h3,h4⟩ := h
    obtain ⟨y1,y2,y3,y4⟩ := hy
    have hone := hb.oneLoop
    subst ha hb'
    simp only [Weights.add,Weights.zero] at *
    constructor <;> grind
  | launch ha hb' =>
    obtain ⟨h1,h2,h3,h4⟩ := h
    have hl := hb.launching
    subst ha hb'
    simp only [Weights.add,Weights.zero] at *
    constructor <;> grind
  | store _ ha hb' =>
    obtain ⟨h1,h2,h3,h4⟩ := h
    obtain ⟨y1,y2,y3,y4⟩ := hy
    have hm := hb.mutex
    have hun := hb.unlaunched
    subst ha hb'
    simp only [Weights.add,Weights.zero] at *
    constructor <;> grind

theorem launched_weights {l : Thread} (h : launchedLoop l = false) : (weights l).launched = 0 := by
  cases l with
  | loop k pc =>
    cases pc with
    | finish pc r => cases pc <;> cases r <;> rfl
    | wait pc => cases pc <;> rfl
    | _ => rfl
  | batch pc =>
    cases pc with
    | finish pc => cases pc <;> rfl
    | _ => rfl
  | start pc => cases pc <;> first | rfl | cases h
  | restart pc =>
    cases pc with
    | start pc => cases pc <;> first | rfl | cases h
    | stop pc => cases pc <;> rfl
    | _ => rfl
  | pause pc => cases pc <;> rfl
  | resume pc => cases pc <;> rfl
  | stop pc => cases pc <;> rfl
  | broadcast pc => cases pc <;> rfl
  | _ => rfl

theorem launched_sum {ts : List Thread} (h : ∀ l ∈ ts, launchedLoop l = false) :
    (sum ts).launched = 0 := by
  induction ts with
  | nil => rfl
  | cons l ts ih =>
    have hl := launched_weights (h l (by simp))
    have ht := ih fun t ht => h t (by simp [ht])
    simp only [sum_cons,Weights.add]
    omega

theorem served_reach {n : ℕ} {w : World Shared Thread}
    (h : program.Reach storedFirst (newWorker n) w) :
    Inv w.shared w.threads ∧ Served w.shared (sum w.threads) := by
  refine Program.reach_invariant (I := fun s ts => Inv s ts ∧ Served s (sum ts)) ?_ ?_ ?_ h
  · exact ⟨inv_newWorker n,by constructor <;> simp [newWorker,Weights.zero]⟩
  · intro s ts l hI _ he
    refine ⟨inv_call hI.1 he,?_⟩
    rw [sum_append,sum_cons,(entry_weights (s := s) he).1,sum_nil]
    exact hI.2
  · intro s xs l ys c s' l' new hI hok hs
    refine ⟨inv_act hI.1 hs,?_⟩
    have hb := hI.1.balanced
    have hv := hI.2
    rw [sum_split] at hb hv
    have ht := step_turn (hI.1.sized l (by simp)) hs
    have hd : c = .done → (sum (xs ++ ys)).launched = 0 := by
      rintro rfl
      refine launched_sum fun t htm => ?_
      simp only [storedFirst,Bool.not_eq_true',List.any_eq_false] at hok
      have := hok t (mem_of_other htm)
      simpa using this
    have hv' := served_turn (within_sum _) hb hv hd ht
    rw [sum_act]
    exact hv'

theorem waiting_of_shuttingDown {k : ℕ} {pc : LoopPc} (h : shuttingDown pc = true) :
    0 < (weights (.loop k pc)).waiting := by
  cases pc with
  | wait pc => cases pc <;> exact Nat.one_pos
  | removeAll | stopLock | stopStore => exact Nat.one_pos
  | _ => cases h

theorem loop_of_live {l : Thread} (hl : (weights l).live ≠ 0) (hw : (weights l).waiting = 0) :
    ∃ k pc, l = .loop k pc ∧ serving pc = true := by
  obtain ⟨k,pc,rfl⟩ := loop_of_alive hl
  refine ⟨k,pc,rfl,?_⟩
  cases pc with
  | wait pc => cases pc <;> exact absurd hw Nat.one_ne_zero
  | removeAll | stopLock | stopStore => exact absurd hw Nat.one_ne_zero
  | stopWake | stopUnlock | exited => exact absurd rfl hl
  | _ => rfl

theorem exited_of_weights {l : Thread} (hl : (weights l).live = 0) (he : (weights l).ending = 0) :
    exitedLoop l = true := by
  cases l with
  | loop k pc =>
    cases pc with
    | exited => rfl
    | stopWake | stopUnlock => exact absurd he Nat.one_ne_zero
    | wait pc => cases pc <;> exact absurd hl Nat.one_ne_zero
    | finish pc r => cases pc <;> cases r <;> exact absurd hl Nat.one_ne_zero
    | _ => exact absurd hl Nat.one_ne_zero
  | _ => rfl

theorem live_split {ts : List Thread} (h : (sum ts).live = 1) :
    ∃ xs l ys, ts = xs ++ l :: ys ∧ (weights l).live ≠ 0 ∧ (sum (xs ++ ys)).live = 0 := by
  induction ts with
  | nil => cases h
  | cons t ts ih =>
    simp only [sum_cons,Weights.add] at h
    by_cases ht : (weights t).live = 0
    · obtain ⟨xs,l,ys,rfl,hl,hr⟩ := ih (by omega)
      refine ⟨t :: xs,l,ys,rfl,hl,?_⟩
      simp only [List.cons_append,sum_cons,Weights.add]
      omega
    · exact ⟨[],t,ts,rfl,ht,by simp only [List.nil_append]; omega⟩

theorem weights_le_sum {ts : List Thread} {l : Thread} (h : l ∈ ts) :
    (weights l).live ≤ (sum ts).live ∧ (weights l).waiting ≤ (sum ts).waiting ∧
      (weights l).ending ≤ (sum ts).ending ∧ (weights l).launched ≤ (sum ts).launched :=
  ⟨le_sum Weights.live rfl (fun _ _ => rfl) h,le_sum Weights.waiting rfl (fun _ _ => rfl) h,
    le_sum Weights.ending rfl (fun _ _ => rfl) h,le_sum Weights.launched rfl (fun _ _ => rfl) h⟩

theorem served_active {ts : List Thread} (h : Served s (sum ts)) (ha : s.status.isActive = true) :
    ∃ xs k pc ys, ts = xs ++ .loop k pc :: ys ∧ serving pc = true ∧
      ∀ l ∈ xs ++ ys, exitedLoop l = true := by
  have hq : s.status ≠ .initiated ∧ s.status ≠ .stopped ∧ s.status ≠ .stopping := by
    revert ha
    cases s.status <;> simp [Status.isActive]
  have hw : (sum ts).waiting = 0 := by
    by_contra hne
    exact hq.2.2 (h.waiting (by omega))
  have he : (sum ts).ending = 0 := by
    by_contra hne
    exact hq.2.1 (h.ending (by omega))
  obtain ⟨xs,l,ys,rfl,hl,hr⟩ := live_split (h.live hq.1 hq.2.1)
  have hlw := weights_le_sum (show l ∈ xs ++ l :: ys by simp)
  obtain ⟨k,pc,rfl,hs⟩ := loop_of_live hl (by omega)
  refine ⟨xs,k,pc,ys,rfl,hs,fun t ht => ?_⟩
  have ht' := weights_le_sum ht
  have hin := weights_le_sum (mem_of_other (l := .loop k pc) ht)
  exact exited_of_weights (by omega) (by omega)

theorem stopping_until_stored {w v : World Shared Thread} (hi : Inv w.shared w.threads)
    (hs : w.shared.status = .stopping ∨ w.shared.status = .stopped)
    (h : program.Reach notStored w v) :
    v.shared.status = .stopping ∨ v.shared.status = .stopped := by
  refine (Program.reach_invariant
    (I := fun s ts => Inv s ts ∧ (s.status = .stopping ∨ s.status = .stopped)) ⟨hi,hs⟩ ?_ ?_ h).2
  · intro s ts l hI _ he
    exact ⟨inv_call hI.1 he,hI.2⟩
  · intro s xs l ys c s' l' new hI hok hstep
    refine ⟨inv_act hI.1 hstep,?_⟩
    have hst : ¬storing l = true := by simpa [notStored] using hok
    have hq := hI.2
    have ht := step_turn (hI.1.sized l (by simp)) hstep
    generalize s.status = p at ht hq
    generalize s'.status = q at ht
    cases ht with
    | flip hf _ => cases hf <;> simp_all
    | cancelled => exact .inl rfl
    | stopped => exact .inr rfl
    | launch => exact hq
    | store hs => exact absurd hs hst

theorem active_worker_has_serving_loop {n : ℕ} {w : World Shared Thread}
    (h : program.Reach storedFirst (newWorker n) w) :
    (∀ k pc, .loop k pc ∈ w.threads → shuttingDown pc = true → w.shared.status = .stopping ∧
      (∀ l ∈ w.threads, storing l = false) ∧
      ∀ v, program.Reach notStored w v →
        v.shared.status = .stopping ∨ v.shared.status = .stopped) ∧
    (w.shared.status.isActive = true →
      ∃ xs k pc ys, w.threads = xs ++ .loop k pc :: ys ∧ serving pc = true ∧
        ∀ l ∈ xs ++ ys, exitedLoop l = true) := by
  obtain ⟨hi,hv⟩ := served_reach h
  refine ⟨?_,served_active hv⟩
  intro k pc hl hpc
  have hw := waiting_of_shuttingDown (k := k) hpc
  have hle := weights_le_sum hl
  have hs := hv.waiting (by omega)
  refine ⟨hs,?_,fun v hr => stopping_until_stored hi (.inl hs) hr⟩
  intro l hmem
  cases hst : storing l with
  | false => rfl
  | true =>
    have hn : 0 < (weights l).launched := by
      cases l with
      | start pc => cases pc <;> first | exact Nat.one_pos | cases hst
      | restart pc =>
        cases pc with
        | start pc => cases pc <;> first | exact Nat.one_pos | cases hst
        | _ => cases hst
      | _ => cases hst
    have hle' := weights_le_sum hmem
    have := hv.launched (by omega)
    rw [hs] at this
    simp at this

theorem active_worker_has_serving_loop_started : ∃ w,
    program.Reach storedFirst (newWorker 1) w ∧ w.shared.status = .idle ∧
    ∃ xs k pc ys, w.threads = xs ++ .loop k pc :: ys ∧ serving pc = true ∧
      ∀ l ∈ xs ++ ys, exitedLoop l = true := by
  obtain ⟨w,hr,hp⟩ := Program.exists_reach_of_run program storedFirst (newWorker 1)
    (.call (.start .lock) :: List.replicate 9 (.act 0 .go)) (fun w => w.shared.status = .idle)
    (by decide)
  simp only [decide_eq_true_eq] at hp
  exact ⟨w,hr,hp,(active_worker_has_serving_loop hr).2 (by rw [hp]; rfl)⟩

-- The parent context is cancelled first; the loop takes ctx.Done before Start stores idle.
def cancelledStart : List (Event Thread Choice) :=
  ([.call (.cancelParent false),.act 0 .go,.call (.start .lock)] : Events Thread Choice) ++
  (List.replicate 4 (.act 1 .go) : Events Thread Choice) ++
  ([.act 2 .done] : Events Thread Choice) ++ (List.replicate 5 (.act 1 .go) : Events Thread Choice)

theorem idle_without_serving_loop : ∃ w, program.Reach always (newWorker 1) w ∧
    w.shared.status = .idle ∧
    w.threads = [.cancelParent true,.start (.returned none),.loop 0 (.wait .lock)] := by
  obtain ⟨w,hr,hp⟩ := Program.exists_reach_of_run program always (newWorker 1) cancelledStart
    (fun w => w.shared.status = .idle &&
      w.threads = [.cancelParent true,.start (.returned none),.loop 0 (.wait .lock)]) (by decide)
  simp only [Bool.and_eq_true,decide_eq_true_eq] at hp
  exact ⟨w,hr,hp.1,hp.2⟩

end Varmq.Lifecycle
