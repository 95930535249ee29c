import Varmq.Lifecycle.Turn

namespace Varmq.Lifecycle

open Interleaving
open Varmq.Worker (Status Error)

variable {s s' : Shared}

-- Whether a move of the status to `q` by another goroutine leaves the call in `l` on its path.
def undisturbedBy (q : Status) : Thread → Bool
  | .stop (.cas seen rest) | .restart (.stop (.cas seen rest)) =>
      seen = .initiated || rest.contains q
  | .resume .active | .resume .err => q ≠ .paused
  | _ => true

def undisturbed : Guard Shared Thread Choice
  | w, .act i c =>
      match program.next w (.act i c) with
      | none => true
      | some v => v.shared.status = w.shared.status ||
          (w.threads.eraseIdx i).all (undisturbedBy v.shared.status)
  | _, .call _ => true

def stopDocumented (s : Shared) : StopPc → Prop
  | .cas seen rest => (seen = .initiated ∨ s.status ∈ rest) ∧ seen ≠ .stopped ∧ seen ≠ .stopping
  | .returned seen moved r =>
      (∀ e, r = some e → seen = .initiated) ∧
      (r = none → seen ∈ stopFrom → moved = true)
  | _ => True

def Documented (s : Shared) : Thread → Prop
  | .stop pc | .restart (.stop pc) => stopDocumented s pc
  | .resume .active | .resume .err => s.status ≠ .paused
  | .resume (.returned r) => r ≠ some .workerPaused
  | _ => True

theorem documented_other {l : Thread} (h : Documented s l)
    (hu : s'.status = s.status ∨ undisturbedBy s'.status l = true) : Documented s' l := by
  have hstop : ∀ pc, stopDocumented s pc →
      (s'.status = s.status ∨ undisturbedBy s'.status (.stop pc) = true) → stopDocumented s' pc := by
    intro pc h hu
    cases pc with
    | cas seen rest =>
      simp only [stopDocumented,undisturbedBy,Bool.or_eq_true,decide_eq_true_eq,
        List.contains_eq_mem] at h hu ⊢
      grind
    | _ => exact h
  cases l with
  | stop pc => exact hstop pc h hu
  | restart pc =>
    cases pc with
    | stop pc => exact hstop pc h (by cases pc <;> exact hu)
    | _ => trivial
  | resume pc =>
    cases pc with
    | active | err =>
      simp only [Documented,undisturbedBy,decide_eq_true_eq] at h hu ⊢
      grind
    | _ => exact h
  | _ => trivial

theorem stop_documented {pc pc' : StopPc} (h : stopDocumented s pc)
    (hs : stopStep s pc = some (s',pc')) : stopDocumented s' pc' := by
  cases pc with
  | load =>
    cases hs
    split
    · refine ⟨by simp,fun _ hm => ?_⟩
      have := active_of_stopFrom hm
      simp only [stopFrom,List.mem_cons] at hm
      grind
    · simp only [stopDocumented,stopFrom,List.mem_cons]
      cases hq : s.status <;> simp_all
  | cas seen rest =>
    cases rest with
    | nil =>
      cases hs
      simp only [stopDocumented,List.not_mem_nil,or_false] at h
      refine ⟨fun _ _ => h.1,by simp⟩
    | cons t rest =>
      simp only [stopStep] at hs
      split at hs <;> cases hs
      · trivial
      · simp only [stopDocumented,List.mem_cons] at h ⊢
        grind
  | lock seen =>
    simp only [stopStep] at hs
    split at hs <;> cases hs
    trivial
  | cancel seen =>
    cases hs
    trivial
  | unlock seen =>
    cases hs
    exact ⟨by simp,fun _ _ => rfl⟩
  | returned seen moved r => cases hs

theorem resume_documented {pc pc' : ResumePc} (h : Documented s (.resume pc))
    (hs : resumeStep s pc = some (s',pc')) : Documented s' (.resume pc') := by
  cases pc <;> simp only [resumeStep] at hs
  case cas =>
    split at hs <;> cases hs
    · trivial
    · assumption
  case lock =>
    split at hs <;> cases hs
    trivial
  case active =>
    cases hs
    split
    · simp [Documented]
    · exact h
  case err =>
    cases hs
    simp only [Documented,ne_eq,Option.some.injEq,Status.getStatusError_paused] at h ⊢
    exact h
  case notify =>
    cases hs
    simp [Documented]
  case returned => cases hs
  all_goals
    cases hs
    trivial

theorem step_documented {l l' : Thread} {c : Choice} {new : List Thread} (h : Documented s l)
    (hs : step s l c = some (s',l',new)) : Documented s' l' := by
  cases step_act hs with
  | stop hp => exact stop_documented h hp
  | resume hp => exact resume_documented h hp
  | @restart pc pc' s' new hp =>
    cases pc with
    | stop pc =>
      rcases restart_stop hp with ⟨seen,moved,r,rfl,rfl,rfl,rfl⟩ | ⟨pc₁,hp₁,rfl,rfl⟩
      · cases r <;> trivial
      · exact stop_documented h hp₁
    | start pc =>
      rcases restart_start hp with ⟨r,rfl,rfl,rfl,rfl⟩ | ⟨pc₁,hp₁,rfl⟩ <;> trivial
    | _ =>
      have hd : ∀ pc, pc' ≠ .stop pc := by
        simp only [restartStep] at hp
        grind
      cases pc' with
      | stop pc => exact absurd rfl (hd pc)
      | _ => trivial
  | _ => trivial

theorem spawned_documented {t : Thread} (h : spawned t = true) : Documented s t := by
  cases t <;> trivial

theorem documented_entry {l : Thread} (h : entry s l = true) : Documented s l := by
  unfold entry at h
  split at h <;> trivial

theorem documented_reach {n : ℕ} {w : World Shared Thread}
    (h : program.Reach undisturbed (newWorker n) w) :
    ∀ l ∈ w.threads, Documented w.shared l := by
  refine Program.reach_invariant (I := fun s ts => ∀ l ∈ ts, Documented s l) ?_ ?_ ?_ h
  · simp [newWorker]
  · intro s ts l hI _ he
    exact forall_call hI (documented_entry he)
  · intro s xs l ys c s' l' new hI hok hs
    have hother : ∀ t ∈ xs ++ ys, Documented s' t := by
      intro t ht
      refine documented_other (hI t (mem_of_other ht)) ?_
      have hn : program.next ⟨s,xs ++ l :: ys⟩ (.act xs.length c) =
          some ⟨s',xs ++ l' :: (ys ++ new)⟩ := Program.next_of_step hs
      simp only [undisturbed,hn,Bool.or_eq_true,decide_eq_true_eq,List.all_eq_true] at hok
      refine hok.imp id fun hall => hall t ?_
      rw [List.eraseIdx_append_of_length_le (Nat.le_refl _),Nat.sub_self]
      exact ht
    exact forall_act hother (step_documented (hI l (by simp)) hs)
      fun t ht => spawned_documented (step_spawned hs t ht)

theorem initiated_first {w v : World Shared Thread} {ok : Guard Shared Thread Choice}
    (hi : Inv w.shared w.threads) (h : program.Reach ok w v) (hv : v.shared.status = .initiated) :
    w.shared.status = .initiated := by
  refine (Program.reach_invariant (I := fun s ts => Inv s ts ∧
    (s.status = .initiated → w.shared.status = .initiated)) ⟨hi,id⟩ ?_ ?_ h).2 hv
  · intro s ts l hI _ he
    exact ⟨inv_call hI.1 he,hI.2⟩
  · intro s xs l ys c s' l' new hI _ hs
    refine ⟨inv_act hI.1 hs,fun hq => hI.2 ?_⟩
    have ht := step_turn (hI.1.sized l (by simp)) hs
    rw [hq] at ht
    generalize s.status = p at ht
    cases ht with
    | flip hf _ =>
      cases hf
      rfl
    | launch => rfl

-- The points of a Pause after one of its compare-and-swaps has moved the status.
def pauseWon : Thread → Bool
  | .pause .curLoad | .pause .casPaused | .pause .wake => true
  | .pause (.unlock none) | .pause (.returned none) => true
  | _ => false

def activeUntilPaused (i : ℕ) : Guard Shared Thread Choice :=
  fun w _ => w.shared.status.isActive || (w.threads[i]?).any pauseWon

def pauseOnPath (s : Shared) : PausePc → Prop
  | .casRunning => s.status.isActive = true → s.status = .running
  | .err | .unlock (some _) | .returned (some _) => False
  | _ => True

theorem pause_onPath {pc pc' : PausePc} (h : pauseOnPath s pc)
    (ha : s.status.isActive = true ∨ pauseWon (.pause pc) = true)
    (hs : pauseStep s pc = some (s',pc')) : pauseOnPath s' pc' := by
  have hact : s.status.isActive = true → s.status = .running ∨ s.status = .idle := by
    cases s.status <;> simp [Status.isActive]
  cases pc <;> simp only [pauseStep] at hs
  case lock =>
    split at hs <;> cases hs
    trivial
  case load =>
    cases hs
    have := hact (by simpa [pauseWon] using ha)
    rw [if_neg (by grind)]
    trivial
  case casIdle =>
    split at hs <;> cases hs
    · trivial
    · intro h'
      have := hact h'
      tauto
  case casRunning =>
    rw [if_pos (h (by simpa [pauseWon] using ha))] at hs
    cases hs
    trivial
  case curLoad =>
    cases hs
    split <;> trivial
  case casPaused =>
    split at hs <;> cases hs <;> trivial
  case wake =>
    cases hs
    trivial
  case err => exact absurd h id
  case unlock r =>
    cases hs
    cases r with
    | none => trivial
    | some e => exact absurd h id
  case returned => cases hs

-- Under w.mx nobody else takes running back to idle.
theorem running_unlocked {a b : Weights} {done stored : Prop} {q : Status} (hc : a.crit = 0)
    (ht : Turn a b done stored .running q) : q.isActive = true → q = .running := by
  have hpos : ¬0 < a.crit := by omega
  cases ht with
  | flip hf _ =>
    cases hf with
    | settle h => exact absurd h hpos
    | pauseRunning h => exact absurd h hpos
    | keep => exact fun _ => rfl
    | stop => intro h; cases h
  | cancelled => intro h; cases h
  | stopped ha => subst ha; exact absurd Nat.one_pos hpos
  | launch ha => subst ha; exact absurd Nat.one_pos hpos
  | store _ ha => subst ha; exact absurd Nat.one_pos hpos

theorem pause_other {xs ys new : List Thread} {l l' : Thread} {c : Choice} {pc : PausePc}
    (hi : Inv s (xs ++ l :: ys)) (hm : .pause pc ∈ xs ++ ys) (h : pauseOnPath s pc)
    (ha : s.status.isActive = true ∨ pauseWon (.pause pc) = true)
    (hs : step s l c = some (s',l',new)) : pauseOnPath s' pc := by
  cases pc with
  | casRunning =>
    have hrun := h (by simpa [pauseWon] using ha)
    have ht := step_turn (hi.sized l (by simp)) hs
    rw [hrun] at ht
    refine running_unlocked ?_ ht
    have hb := hi.balanced.mutex
    obtain ⟨us,vs,he⟩ := List.append_of_mem hm
    rw [sum_split,he,sum_split] at hb
    have hone : (if s.mx = true then 1 else 0) ≤ 1 := by split <;> omega
    have hself : (weights (.pause .casRunning)).crit = 1 := rfl
    simp only [Weights.add] at hb
    omega
  | unlock r => cases r <;> exact h
  | returned r => cases r <;> exact h
  | _ => exact h

theorem pause_reach {i : ℕ} {w v : World Shared Thread} (hi : Inv w.shared w.threads)
    (hl : w.threads[i]? = some (.pause .lock)) (h : program.Reach (activeUntilPaused i) w v) :
    ∃ pc, v.threads[i]? = some (.pause pc) ∧ pauseOnPath v.shared pc := by
  refine (Program.reach_invariant (I := fun s ts => Inv s ts ∧
    ∃ pc, ts[i]? = some (.pause pc) ∧ pauseOnPath s pc) ⟨hi,.lock,hl,trivial⟩ ?_ ?_ h).2
  · intro s ts l hI _ he
    obtain ⟨hI,pc,hpc,hp⟩ := hI
    refine ⟨inv_call hI he,pc,?_,hp⟩
    rw [List.getElem?_append_left (List.getElem?_eq_some_iff.mp hpc).1,hpc]
  · intro s xs l ys c s' l' new hI hok hs
    obtain ⟨hI,pc,hpc,hp⟩ := hI
    refine ⟨inv_act hI hs,?_⟩
    have ha : s.status.isActive = true ∨ pauseWon (.pause pc) = true := by
      simpa [activeUntilPaused,hpc] using hok
    by_cases hx : i = xs.length
    · subst hx
      rw [getElem?_split] at hpc
      cases hpc
      cases step_act hs with
      | @pause pc pc' s' hstep =>
        exact ⟨pc',getElem?_split _ _ _,pause_onPath hp ha hstep⟩
    · obtain ⟨hpc',hm⟩ := getElem?_other hx hpc
      exact ⟨pc,hpc',pause_other hI hm hp ha hs⟩

theorem calls_return_documented_errors {n : ℕ} {w : World Shared Thread}
    (h : program.Reach undisturbed (newWorker n) w) :
    (∀ seen moved e, .stop (.returned seen moved (some e)) ∈ w.threads → seen = .initiated) ∧
    (∀ v, program.Reach always w v → v.shared.status = .initiated → w.shared.status = .initiated) ∧
    (∀ seen moved, .stop (.returned seen moved none) ∈ w.threads → seen ∈ stopFrom → moved = true) ∧
    (∀ i v r, w.threads[i]? = some (.pause .lock) → program.Reach (activeUntilPaused i) w v →
      v.threads[i]? = some (.pause (.returned r)) → r = none) ∧
    (∀ r, .resume (.returned r) ∈ w.threads → r ≠ some .workerPaused) := by
  have hi := inv_reach h
  have hd := documented_reach h
  refine ⟨?_,fun v hv => initiated_first hi hv,?_,?_,?_⟩
  · intro seen moved e hm
    exact (hd _ hm).1 e rfl
  · intro seen moved hm
    exact (hd _ hm).2 rfl
  · intro i v r hl hv hr
    obtain ⟨pc,hpc,hp⟩ := pause_reach hi hl hv
    rw [hr] at hpc
    cases hpc
    cases r with
    | none => rfl
    | some e => exact absurd hp id
  · intro r hm
    exact hd _ hm

def startedRun : List (Event Thread Choice) :=
  .call (.start .lock) :: List.replicate 9 (.act 0 .go)

theorem calls_return_documented_errors_stop : ∃ w, program.Reach undisturbed (newWorker 1) w ∧
    .stop (.returned .idle true none) ∈ w.threads ∧
    (∀ seen moved e, .stop (.returned seen moved (some e)) ∈ w.threads → seen = .initiated) ∧
    (∀ r, .resume (.returned r) ∈ w.threads → r ≠ some .workerPaused) := by
  obtain ⟨w,hr,hp⟩ := Program.exists_reach_of_run program undisturbed (newWorker 1)
    (startedRun ++ .call (.stop .load) :: List.replicate 6 (.act 2 .go))
    (fun w => w.threads.contains (.stop (.returned .idle true none))) (by decide)
  obtain ⟨h1,-,-,-,h5⟩ := calls_return_documented_errors hr
  exact ⟨w,hr,by simpa using hp,h1,h5⟩

-- The loop claims running after Stop has tried that status.
def stopOvertaken : List (Event Thread Choice) :=
  startedRun ++ .call (.stop .load) :: (List.replicate 2 (.act 2 .go) : Events Thread Choice) ++
  ([.act 1 (.signal false),.act 1 .go,.act 1 .go,.act 1 .go,.act 1 (.flag true),
    .act 1 (.pick 1)] : Events Thread Choice) ++
  (List.replicate 4 (.act 1 .go) : Events Thread Choice) ++
  (List.replicate 4 (.act 2 .go) : Events Thread Choice)

-- The last job ends, pausing becomes paused, between the two loads of a Resume.
def resumeOvertaken : List (Event Thread Choice) :=
  startedRun ++
  ([.act 1 (.signal false),.act 1 .go,.act 1 .go,.act 1 .go,.act 1 (.flag true),
    .act 1 (.pick 1)] : Events Thread Choice) ++
  (List.replicate 4 (.act 1 .go) : Events Thread Choice) ++
  ([.act 1 (.fill 1 true),.act 1 .go,.act 2 .start] : Events Thread Choice) ++
  .call (.pause .lock) :: (List.replicate 6 (.act 3 .go) : Events Thread Choice) ++
  .call (.resume .cas) :: (List.replicate 2 (.act 4 .go) : Events Thread Choice) ++
  (List.replicate 9 (.act 2 .go) : Events Thread Choice) ++ ([.act 4 .go] : Events Thread Choice)

theorem stop_and_resume_overtaken :
    (∃ w, program.Reach always (newWorker 1) w ∧
      .stop (.returned .idle false (some .runningWorker)) ∈ w.threads) ∧
    (∃ w, program.Reach always (newWorker 1) w ∧
      .resume (.returned (some .workerPaused)) ∈ w.threads) := by
  constructor
  · obtain ⟨w,hr,hp⟩ := Program.exists_reach_of_run program always (newWorker 1) stopOvertaken
      (fun w => w.threads.contains (.stop (.returned .idle false (some .runningWorker))))
      (by decide)
    exact ⟨w,hr,by simpa using hp⟩
  · obtain ⟨w,hr,hp⟩ := Program.exists_reach_of_run program always (newWorker 1) resumeOvertaken
      (fun w => w.threads.contains (.resume (.returned (some .workerPaused)))) (by decide)
    exact ⟨w,hr,by simpa using hp⟩

end Varmq.Lifecycle
