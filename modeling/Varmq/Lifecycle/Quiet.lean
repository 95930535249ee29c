import Varmq.Lifecycle.Turn

namespace Varmq.Lifecycle

open Interleaving
open Varmq.Worker (Status Error)

variable {s s' : Shared}

def holdsBatch : Thread → Bool
  | .batch (.check _ _) | .batch (.exec _ _) | .batch (.free _) | .batch (.release _) => true
  | .batch (.finish (.dec _)) => true
  | _ => false

def executing : Thread → Bool
  | .batch (.exec _ _) => true
  | _ => false

def halted (s : Shared) : Bool := s.status = .paused || s.status = .stopped

def whileHalted : Guard Shared Thread Choice := fun w _ => halted w.shared

-- Who may take the status out of paused or stopped; the loop's own steps are the end of a Stop
-- or of a cancelled context.
def leaver : Status → Thread → Bool
  | .paused, .resume .cas => true
  | .paused, .stop (.cas _ _) | .paused, .restart (.stop (.cas _ _)) => true
  | .paused, .loop _ .select | .paused, .loop _ .stopStore => true
  | .stopped, .start .store | .stopped, .restart (.start .store) => true
  | .stopped, .loop _ .select => true
  | _, _ => false

theorem passed_of_holdsBatch {l : Thread} (hz : Sized l) (hb : holdsBatch l = true) :
    0 < (weights l).passed := by
  cases l with
  | batch pc =>
    cases pc with
    | finish pc =>
      cases pc with
      | dec n => exact hz
      | _ => cases hb
    | notify => cases hb
    | done => cases hb
    | _ => exact hz
  | _ => cases hb

theorem holdsBatch_of_executing {l : Thread} (h : executing l = true) : holdsBatch l = true := by
  cases l with
  | batch pc => cases pc <;> first | rfl | cases h
  | _ => cases h

theorem quiet_of_halted {ts : List Thread} (hi : Inv s ts) (hh : halted s = true) :
    ∀ l ∈ ts, holdsBatch l = false := by
  intro l hl
  have hq : s.status = .paused ∨ s.status = .stopped := by simpa [halted] using hh
  have hp : (sum ts).passed = 0 := hi.balanced.quiet (by tauto)
  cases hb : holdsBatch l with
  | false => rfl
  | true =>
    have h1 := passed_of_holdsBatch (hi.sized l hl) hb
    have h2 := le_sum Weights.passed rfl (fun _ _ => rfl) hl
    omega

theorem started_finish {pc : FinishPc} {o : Option FinishPc} (hs : finishStep s pc = some (s',o)) :
    s'.started = s.started := by
  cases pc <;> simp only [finishStep] at hs <;> grind

theorem started_wait {k : WaitKind} {pc pc' : WaitPc} {c : Choice} {armed : Bool}
    (hs : waitStep k s pc c = some (s',pc',armed)) : s'.started = s.started := by
  cases pc <;> cases c <;> simp only [waitStep] at hs <;> grind

theorem started_loop {pc pc' : LoopPc} {c : Choice} {k : ℕ} {new : List Thread}
    (hs : loopStep s k pc c = some (s',pc',new)) : s'.started = s.started := by
  cases pc with
  | finish pc r =>
    cases c <;> simp only [loopStep] at hs <;> try cases hs
    split at hs <;> cases hs <;> exact started_finish ‹_›
  | wait pc =>
    simp only [loopStep] at hs
    split at hs <;> cases hs <;> exact started_wait ‹_›
  | _ => cases c <;> simp only [loopStep] at hs <;> grind

theorem started_stop {pc pc' : StopPc} (hs : stopStep s pc = some (s',pc')) :
    s'.started = s.started := by
  cases pc with
  | cas seen rest => cases rest <;> simp only [stopStep] at hs <;> grind
  | _ => simp only [stopStep] at hs; grind

theorem started_start {pc pc' : StartPc} {new : List Thread}
    (hs : startStep s pc = some (s',pc',new)) : s'.started = s.started := by
  cases pc <;> simp only [startStep] at hs <;> grind

theorem started_restart {pc pc' : RestartPc} {new : List Thread}
    (hs : restartStep s pc = some (s',pc',new)) : s'.started = s.started := by
  cases pc with
  | stop pc =>
    rcases restart_stop hs with ⟨seen,moved,r,rfl,rfl,rfl,rfl⟩ | ⟨pc₁,hp,rfl,rfl⟩
    · rfl
    · exact started_stop hp
  | start pc =>
    rcases restart_start hs with ⟨r,rfl,rfl,rfl,rfl⟩ | ⟨pc₁,hp,rfl⟩
    · rfl
    · exact started_start hp
  | _ => simp only [restartStep] at hs; grind

theorem started_batch {pc pc' : BatchPc} {c : Choice} (hb : holdsBatch (.batch pc) = false)
    (hs : batchStep s pc c = some (s',pc')) : s'.started = s.started := by
  cases pc with
  | finish pc =>
    cases c <;> simp only [batchStep] at hs <;> try cases hs
    split at hs <;> cases hs <;> exact started_finish ‹_›
  | notify =>
    cases c <;> cases hs
    rfl
  | done => cases c <;> cases hs
  | _ => cases hb

theorem started_step {l l' : Thread} {c : Choice} {new : List Thread}
    (hb : holdsBatch l = false) (hs : step s l c = some (s',l',new)) : s'.started = s.started := by
  cases step_act hs with
  | loop hp => exact started_loop hp
  | batch hp => exact started_batch hb hp
  | @pause pc pc' s' hp => cases pc <;> simp only [pauseStep] at hp <;> grind
  | @resume pc pc' s' hp => cases pc <;> simp only [resumeStep] at hp <;> grind
  | stop hp => exact started_stop hp
  | start hp => exact started_start hp
  | restart hp => exact started_restart hp
  | waiter hp => exact started_wait hp
  | @broadcast pc pc' s' hp => cases pc <;> simp only [broadcastStep] at hp <;> grind
  | cancelParent => rfl
  | notify => rfl
  | tunePool => rfl

theorem finish_halted {pc : FinishPc} {o : Option FinishPc} (hh : halted s = true)
    (hs : finishStep s pc = some (s',o)) : s'.status = s.status := by
  simp only [halted,Bool.or_eq_true,decide_eq_true_eq] at hh
  cases pc <;> simp only [finishStep] at hs <;> grind

theorem stop_leaves {pc pc' : StopPc} (hs : stopStep s pc = some (s',pc')) :
    s'.status = s.status ∨ ∃ seen t rest, pc = .cas seen (t :: rest) ∧ s.status = t := by
  cases pc with
  | cas seen rest => cases rest <;> simp only [stopStep] at hs <;> grind
  | _ => simp only [stopStep] at hs; grind

theorem start_leaves {pc pc' : StartPc} {new : List Thread}
    (hs : startStep s pc = some (s',pc',new)) : s'.status = s.status ∨ pc = .store := by
  cases pc <;> simp only [startStep] at hs <;> grind

theorem loop_leaves {pc pc' : LoopPc} {c : Choice} {k : ℕ} {new : List Thread}
    (hh : halted s = true) (hs : loopStep s k pc c = some (s',pc',new)) :
    s'.status = s.status ∨ leaver s.status (.loop k pc) = true := by
  cases pc with
  | finish pc r =>
    cases c <;> simp only [loopStep] at hs <;> try cases hs
    split at hs <;> cases hs <;> exact .inl (finish_halted hh ‹_›)
  | wait pc =>
    simp only [loopStep] at hs
    split at hs <;> cases hs <;> exact .inl (wait_status ‹_›)
  | _ =>
    simp only [halted,Bool.or_eq_true,decide_eq_true_eq] at hh
    cases c <;> simp only [loopStep] at hs <;> grind [leaver]

theorem step_leaves {l l' : Thread} {c : Choice} {new : List Thread} (hz : Sized l)
    (ht : 0 < (weights l).launched → s.status ≠ .paused) (hh : halted s = true)
    (hs : step s l c = some (s',l',new)) :
    s'.status = s.status ∨ leaver s.status l = true := by
  have hq : s.status = .paused ∨ s.status = .stopped := by simpa [halted] using hh
  have hladder : ∀ {t : Status}, t ∈ stopFrom → s.status = t → s.status = .paused := by
    intro t ht he
    have := (active_of_stopFrom ht).2
    grind
  have hlaunched : ∀ {p : Prop}, s.status ≠ .paused → (s.status = .stopped → p) → p := by grind
  cases step_act hs with
  | loop hp => exact loop_leaves hh hp
  | @batch pc pc' s' hp =>
    left
    cases pc with
    | finish pc =>
      cases c <;> simp only [batchStep] at hp <;> try cases hp
      split at hp <;> cases hp <;> exact finish_halted hh ‹_›
    | _ => cases c <;> simp only [batchStep] at hp <;> grind
  | @pause pc pc' s' hp => cases pc <;> simp only [pauseStep] at hp <;> grind
  | @resume pc pc' s' hp =>
    cases pc <;> simp only [resumeStep] at hp <;> grind [leaver]
  | stop hp =>
    rcases stop_leaves hp with h | ⟨seen,t,rest,rfl,he⟩
    · exact .inl h
    · rw [hladder (hz t (by simp)) he]
      exact .inr rfl
  | start hp =>
    rcases start_leaves hp with h | rfl
    · exact .inl h
    · exact hlaunched (ht Nat.one_pos) fun h => .inr (by rw [h]; rfl)
  | @restart pc pc' s' new hp =>
    cases pc with
    | stop pc =>
      rcases restart_stop hp with ⟨seen,moved,r,rfl,rfl,rfl,rfl⟩ | ⟨pc₁,hp₁,rfl,rfl⟩
      · exact .inl rfl
      · rcases stop_leaves hp₁ with h | ⟨seen,t,rest,rfl,he⟩
        · exact .inl h
        · rw [hladder (hz t (by simp)) he]
          exact .inr rfl
    | start pc =>
      rcases restart_start hp with ⟨r,rfl,rfl,rfl,rfl⟩ | ⟨pc₁,hp₁,rfl⟩
      · exact .inl rfl
      · rcases start_leaves hp₁ with h | rfl
        · exact .inl h
        · exact hlaunched (ht Nat.one_pos) fun h => .inr (by rw [h]; rfl)
    | _ =>
      left
      simp only [restartStep] at hp
      grind
  | waiter hp => exact .inl (wait_status hp)
  | @broadcast pc pc' s' hp =>
    left
    cases pc <;> simp only [broadcastStep] at hp <;> grind
  | cancelParent => exact .inl rfl
  | notify => exact .inl rfl
  | tunePool => exact .inl rfl

theorem launched_not_paused {ts : List Thread} {l : Thread} (hi : Inv s ts) (hl : l ∈ ts)
    (hn : 0 < (weights l).launched) : s.status ≠ .paused := by
  obtain ⟨xs,ys,rfl⟩ := List.append_of_mem hl
  have hb := hi.balanced.launched
  rw [sum_split] at hb
  have := (hb (by simp only [Weights.add]; omega)).1
  grind

theorem started_while_halted {w v : World Shared Thread} (hi : Inv w.shared w.threads)
    (h : program.Reach whileHalted w v) :
    Inv v.shared v.threads ∧ v.shared.started = w.shared.started := by
  refine Program.reach_invariant (I := fun s ts => Inv s ts ∧ s.started = w.shared.started)
    ⟨hi,rfl⟩ ?_ ?_ h
  · intro s ts l hI _ he
    exact ⟨inv_call hI.1 he,hI.2⟩
  · intro s xs l ys c s' l' new hI hok hs
    refine ⟨inv_act hI.1 hs,?_⟩
    rw [started_step (quiet_of_halted hI.1 hok l (by simp)) hs,hI.2]

theorem no_job_runs_while_halted {n : ℕ} {w : World Shared Thread}
    (h : program.Reach always (newWorker n) w) (hh : halted w.shared = true) :
    (∀ l ∈ w.threads, holdsBatch l = false ∧ executing l = false) ∧
    (∀ v, program.Reach whileHalted w v → v.shared.started = w.shared.started) ∧
    (∀ i c v, program.next w (.act i c) = some v → v.shared.status = w.shared.status ∨
      ∃ l, w.threads[i]? = some l ∧ leaver w.shared.status l = true) := by
  have hi := inv_reach h
  refine ⟨?_,fun v hv => (started_while_halted hi hv).2,?_⟩
  · intro l hl
    have hb := quiet_of_halted hi hh l hl
    refine ⟨hb,?_⟩
    cases he : executing l with
    | false => rfl
    | true => rw [holdsBatch_of_executing he] at hb; cases hb
  · intro i c v hn
    rcases Program.next_cases hn with ⟨l,he,-,-⟩ | ⟨xs,l,ys,c',s',l',new,he,hts,hs,rfl⟩
    · cases he
    · cases he
      have hl : l ∈ w.threads := by simp [hts]
      have hg : w.threads[xs.length]? = some l := by simp [hts]
      rcases step_leaves (hi.sized l hl) (launched_not_paused hi hl) hh hs with h | h
      · exact .inl h
      · exact .inr ⟨l,hg,h⟩

def goes (i n : ℕ) : List (Event Thread Choice) := List.replicate n (.act i .go)

-- A batch of two is handed out, Pause arrives while its first job runs, and its end is paused.
def pausedRun : List (Event Thread Choice) :=
  .call (.start .lock) :: goes 0 9 ++ ([.act 1 (.signal false)] : Events Thread Choice) ++
  goes 1 3 ++ ([.act 1 (.flag true),.act 1 (.pick 2)] : Events Thread Choice) ++ goes 1 4 ++
  ([.act 1 (.fill 2 true)] : Events Thread Choice) ++ goes 1 1 ++
  ([.act 2 .start] : Events Thread Choice) ++ .call (.pause .lock) :: goes 3 6 ++ goes 2 1 ++
  ([.act 2 (.park false)] : Events Thread Choice) ++ goes 2 9

theorem no_job_runs_while_paused : ∃ w, program.Reach always (newWorker 2) w ∧
    w.shared.status = .paused ∧ w.shared.started = 1 ∧
    (∀ l ∈ w.threads, holdsBatch l = false ∧ executing l = false) ∧
    (∀ v, program.Reach whileHalted w v → v.shared.started = 1) := by
  obtain ⟨w,hr,hp⟩ := Program.exists_reach_of_run program always (newWorker 2) pausedRun
    (fun w => w.shared.status = .paused && w.shared.started = 1) (by decide)
  simp only [Bool.and_eq_true,decide_eq_true_eq] at hp
  obtain ⟨hb,hs,-⟩ := no_job_runs_while_halted hr (by simp [halted,hp.1])
  exact ⟨w,hr,hp.1,hp.2,hb,fun v hv => (hs v hv).trans hp.2⟩

end Varmq.Lifecycle
