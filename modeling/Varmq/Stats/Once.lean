import Varmq.Stats.Purge

namespace Varmq.Stats

open Interleaving Topics

variable {s s' : Shared} {l l' t : Thread} {new xs ys ts : List Thread} {j : Job} {c : Choice}

-- The workers can run what they are given.
def typed : Guard Shared Thread Choice
  | _, .call _ => true
  | w, .act i c => match w.threads[i]? with
    | some (.dispatch _ (.took _ _ _ _ _)) => c ≠ .no
    | _ => true

-- What left the storage unrun is closed, or the Purge that took it will close it.
structure Accounted (s : Shared) (ts : List Thread) : Prop where
  sound : Sound s ts
  shut : ∀ j ∈ s.dropped, s.status j.id = .closed ∨ ∃ t ∈ ts, j ∈ closing t

-- The jobs a Purge took it keeps until it closes them.
theorem closing_act (hs : program.step s l c = some (s',l',new)) (hj : j ∈ closing l) :
    l' = l ∨ j ∈ closes l ∨ j ∈ closing l' := by
  cases l with
  | purge pc =>
    cases pc with
    | close jobs =>
      cases jobs with
      | nil => cases hj
      | cons a js =>
        cases hs
        rcases List.mem_cons.mp hj with rfl | hj
        · exact .inr (.inl List.mem_cons_self)
        · exact .inr (.inr hj)
    | _ => cases hj
  | _ => cases hj

theorem typed_took {w k : ℕ} {sole : Bool} {buf : List Job} {r : MemRun}
    (hok : typed ⟨s,xs ++ .dispatch w (.took sole k buf r j) :: ys⟩ (.act xs.length c) = true) :
    c ≠ .no := by
  simpa [typed] using hok

theorem drops_shut {d : List Job} (h : Sound s (xs ++ l :: ys))
    (hs : program.step s l c = some (s',l',new)) (hok : typed ⟨s,xs ++ l :: ys⟩ (.act xs.length c) = true)
    (hd : Drops s l l' c d) (hj : j ∈ d) :
    s'.status j.id = .closed ∨ j ∈ closing l' := by
  have hheld : j ∈ hand l → s.status j.id = .closed → s'.status j.id = .closed := fun hh =>
    h.stays_closed hs (h.books.hand_accepted (by simp) hh) (h.books.hand_unrun (by simp) hh)
  cases hd with
  | none => cases hj
  | took hl hst =>
    subst hl
    cases List.mem_singleton.mp hj
    exact .inl (hheld (by simp [hand]) (hst.resolve_left (typed_took hok)))
  | skipped hl =>
    cases List.mem_singleton.mp hj
    have hk : j ∈ skips l := by simp [hl]
    exact .inl (hheld (skips_hand hk) (h.shut l (by simp) j hk))
  | values hl hl' => exact .inr (by rw [hl']; exact hj)

namespace Accounted

theorem act (h : Accounted s (xs ++ l :: ys)) (hs : program.step s l c = some (s',l',new))
    (hok : typed ⟨s,xs ++ l :: ys⟩ (.act xs.length c) = true) :
    Accounted s' (xs ++ l' :: (ys ++ new)) := by
  have hm := step_moved hs
  refine ⟨h.sound.act hs,fun j hj => ?_⟩
  obtain ⟨d,hd,hdrops⟩ := hm.dropped
  rw [hd] at hj
  rcases List.mem_append.mp hj with hj | hj
  · obtain ⟨hacc,hunrun,hidle⟩ := placed_unrun h.sound.books (.inr hj)
    rcases h.shut j hj with hst | ⟨t,ht,hclose⟩
    · exact .inl (h.sound.stays_closed hs hacc hunrun hst)
    · rcases mem_split ht with ht | rfl
      · exact .inr ⟨t,mem_of_act ht,hclose⟩
      · rcases closing_act hs hclose with rfl | hshut | hclose
        · exact .inr ⟨l',by simp,hclose⟩
        · exact .inl (hm.shut j hshut (h.sound.idle hacc hunrun hidle))
        · exact .inr ⟨l',by simp,hclose⟩
  · exact (drops_shut h.sound hs hok hdrops hj).imp_right fun hclose => ⟨l',by simp,hclose⟩

theorem call (h : Accounted s ts) (he : entry s l = true) : Accounted s (ts ++ [l]) := by
  refine ⟨h.sound.call he,fun j hj => (h.shut j hj).imp_right ?_⟩
  rintro ⟨t,ht,hclose⟩
  exact ⟨t,List.mem_append_left _ ht,hclose⟩

end Accounted

theorem rested_closing (h : inFlight t = false) : closing t = [] := by
  cases t with
  | purge pc => cases pc <;> first | rfl | cases h
  | _ => rfl

theorem every_job_accounted {w : World Shared Thread} (h : program.Reach typed init w)
    (hq : ∀ t ∈ w.threads, inFlight t = false) :
    (w.shared.queue ++ w.shared.parkedJobs ++ w.shared.ran ++ w.shared.dropped).Nodup ∧
    (∀ j, j ∈ w.shared.accepted ↔
      (j ∈ w.shared.queue ∨ j ∈ w.shared.parkedJobs) ∨ j ∈ w.shared.ran ∨ j ∈ w.shared.dropped) ∧
    ∀ j ∈ w.shared.dropped, w.shared.status j.id = .closed := by
  have hend : Accounted w.shared w.threads := by
    refine Program.reach_invariant (I := Accounted) ⟨reached_sound .refl,fun j hj => by cases hj⟩
      (fun _ _ _ hi _ he => hi.call he) (fun _ _ _ _ _ _ _ _ hi hok hs => hi.act hs hok) h
  have hplaced := placed hend.sound.books hq
  refine ⟨hplaced.nodup_iff.mp (accepted_nodup hend.sound.books),fun j => ?_,fun j hj => ?_⟩
  · rw [hplaced.mem_iff]
    simp only [List.mem_append,or_assoc]
  · rcases hend.shut j hj with hst | ⟨t,ht,hclose⟩
    · exact hst
    · rw [rested_closing (hq t ht)] at hclose
      cases hclose

-- Two workers share the storage; of three jobs one is closed while it waits.
def closedWaiting : List (Event Thread Choice) :=
  [.call (.bind false),.act 0 .go,.call (.bind false),.act 1 .go,.call (.add 7 2 .count),.act 2 .go,
    .act 2 .go,.act 2 .go,.act 2 .go,.act 2 .go,.act 2 .go,.act 2 .go,.act 2 .go,.act 2 .go,
    .call (.close ⟨0,7⟩ false),.act 3 .go]

-- A worker skips it and runs the second one.
def secondRun : List (Event Thread Choice) :=
  [.call (.dispatch 0 .plan),.act 4 (.batch 2),.act 4 .go,.act 4 .go,.act 4 .go,.act 4 .go,.act 4 .go,
    .act 4 .no,.act 4 .go,.act 4 .go,.act 4 .go,.act 5 .go,.act 5 .go,.act 5 .go,.act 5 .go,.act 5 .go,
    .act 5 .go,.act 5 .go,.act 5 .go,.act 5 .go]

theorem every_job_accounted_shared : ∃ w, program.Reach typed init w ∧ (⟨2,7⟩ : Job) ∈ w.shared.queue ∧
    (⟨1,7⟩ : Job) ∈ w.shared.ran ∧ (⟨0,7⟩ : Job) ∈ w.shared.dropped ∧
    (⟨0,7⟩ : Job) ∉ w.shared.ran ∧ w.shared.status 0 = .closed := by
  have hrun : ((program.run typed init (closedWaiting ++ secondRun)).any fun w =>
      (w.threads.all fun t => !inFlight t) && decide (⟨2,7⟩ ∈ w.shared.queue) &&
        decide (⟨1,7⟩ ∈ w.shared.ran) && decide (⟨0,7⟩ ∈ w.shared.dropped)) = true := by decide
  obtain ⟨w,hw,hp⟩ := (Option.any_eq_true _ _).mp hrun
  simp only [Bool.and_eq_true,List.all_eq_true,decide_eq_true_eq,Bool.not_eq_true'] at hp
  obtain ⟨⟨⟨hq,hqueue⟩,hran⟩,hdropped⟩ := hp
  have hreach := Program.reach_of_run hw
  obtain ⟨hnodup,-,hclosed⟩ := every_job_accounted hreach hq
  refine ⟨w,hreach,hqueue,hran,hdropped,fun h => ?_,hclosed _ hdropped⟩
  exact (List.nodup_append.mp hnodup).2.2 _ (List.mem_append_right _ h) _ hdropped rfl

-- The job a goroutine runs is marked so.
def Marking (s : Shared) (ts : List Thread) : Prop :=
  ∀ t ∈ ts, ∀ j ∈ runs t, s.status j.id = .processing

theorem batch_runs {w : ℕ} {st : Park.Stamp} {pc pc' : BatchPc}
    (hs : batchStep s w st pc c = some (s',pc')) (hj : j ∈ runs (.batch w st pc')) :
    s'.status j.id = .processing := by
  cases pc with
  | start i a js r =>
    simp only [batchStep] at hs
    split at hs <;> cases hs
    · cases List.mem_singleton.mp hj
      simp [Shared.changeStatus]
    · cases hj
  | stale i jobs r =>
    cases jobs <;> cases hs
    · cases hj
    · split at hj <;> cases hj
  | halting i a js r =>
    simp only [batchStep] at hs
    split at hs <;> cases hs
    split at hj <;> cases hj
  | park i jobs r =>
    simp only [batchStep] at hs
    split at hs
    · cases hs
    · split at hs
      · cases hs
      · split at hs <;> cases hs <;> cases hj
  | parkClose jobs r =>
    cases jobs with
    | nil =>
      simp only [batchStep] at hs
      split at hs <;> cases hs
      cases hj
    | cons a js =>
      cases hs
      cases hj
  | work i a js r => cases c <;> cases hs <;> cases hj
  | returned => cases hs
  | _ =>
    cases hs
    cases hj

theorem step_runs (hs : program.step s l c = some (s',l',new)) (hj : j ∈ runs l') :
    s'.status j.id = .processing := by
  cases l with
  | batch w st pc =>
    obtain ⟨u,hu,hq⟩ := Option.map_eq_some_iff.mp hs
    cases hq
    exact batch_runs hu hj
  | add | dispatch | purge =>
    obtain ⟨u,hu,hq⟩ := Option.map_eq_some_iff.mp hs
    cases hq
    cases hj
  | close i done | bind done | setPaused on done =>
    cases done <;> cases hs
    cases hj
  | setHalting w on done =>
    cases done with
    | true => cases hs
    | false =>
      simp only [program,step] at hs
      split at hs <;> cases hs
      cases hj

theorem runs_single (hj : j ∈ runs t) : runs t = [j] := by
  cases t with
  | batch w st pc =>
    cases pc with
    | work i a js r => rw [List.mem_singleton.mp hj,runs]
    | _ => cases hj
  | _ => cases hj

theorem accepted_kept (hs : program.step s l c = some (s',l',new)) (hj : j ∈ s.accepted) :
    j ∈ s'.accepted := by
  cases hl : plain l with
  | true => rwa [((step_moved hs).kept hl).1]
  | false =>
    cases l with
    | add m n pc =>
      obtain ⟨u,hu,hq⟩ := Option.map_eq_some_iff.mp hs
      cases hq
      cases pc with
      | count | uncount =>
        cases hu
        exact hj
      | store i =>
        cases c <;> cases hu
        · exact List.mem_append_left _ hj
        · exact hj
        · exact List.mem_append_left _ hj
      | markQueued i =>
        cases hu
        rwa [(markQueued_same s i).accepted]
      | close i =>
        cases hu
        rwa [(close_same s i).accepted]
      | returned => cases hu
    | _ => cases hl

-- Nothing but its own goroutine ends the processing of a job that runs.
theorem stays_processing {t : Thread} (h : Sound s (xs ++ l :: ys))
    (hs : program.step s l c = some (s',l',new)) (ht : t ∈ xs ++ ys) (hj : j ∈ runs t)
    (hst : s.status j.id = .processing) : s'.status j.id = .processing := by
  have hmem : t ∈ xs ++ l :: ys := mem_of_other ht
  have hrun : runs t = [j] := runs_single hj
  have hacc := h.books.hand_accepted hmem (runs_hand hrun)
  cases (step_moved hs).status j.id with
  | same he => rw [he,hst]
  | made hl hn he => exact absurd (h.lt_made hacc) (by omega)
  | queued he he' =>
    rw [hst] at he
    cases he
  | closed hi hn he he' => exact absurd hst he
  | processing hl hl' hn he he' => exact he'
  | finished hi hn he =>
    have hended := h.ended l (by simp) _ hi
    have hsame := h.same_job (h.books.ran_accepted hended) hacc hn
    exact absurd (hsame ▸ hended) (h.books.hand_unrun hmem (runs_hand hrun))

-- Closed before it was started.
structure Shut (j : Job) (s : Shared) (ts : List Thread) : Prop where
  sound : Sound s ts
  marked : Marking s ts
  accepted : j ∈ s.accepted
  unrun : j ∉ s.ran
  closed : s.status j.id = .closed

theorem Marking.act (h : Marking s (xs ++ l :: ys)) (hsound : Sound s (xs ++ l :: ys))
    (hs : program.step s l c = some (s',l',new)) : Marking s' (xs ++ l' :: (ys ++ new)) := by
  refine forall_act (fun t ht j hj => ?_) (fun j hj => step_runs hs hj) fun t ht j hj => ?_
  · exact stays_processing hsound hs ht hj (h t (mem_of_other ht) j hj)
  · obtain ⟨w,buf,st,-,rfl⟩ := step_sent hs ht
    cases hj

theorem Marking.call (h : Marking s ts) (he : entry s l = true) : Marking s (ts ++ [l]) := by
  refine forall_call h fun j hj => ?_
  cases l with
  | batch w st pc => cases he
  | _ => cases hj

namespace Shut

theorem act (h : Shut j s (xs ++ l :: ys)) (hs : program.step s l c = some (s',l',new)) :
    Shut j s' (xs ++ l' :: (ys ++ new)) := by
  have hm := step_moved hs
  refine ⟨h.sound.act hs,h.marked.act h.sound hs,accepted_kept hs h.accepted,?_,
    h.sound.stays_closed hs h.accepted h.unrun h.closed⟩
  rw [hm.ran,List.mem_append,not_or]
  refine ⟨h.unrun,fun hj => ?_⟩
  have hst := h.marked l (by simp) j hj
  rw [h.closed] at hst
  cases hst

theorem call (h : Shut j s ts) (he : entry s l = true) : Shut j s (ts ++ [l]) :=
  ⟨h.sound.call he,h.marked.call he,h.accepted,h.unrun,h.closed⟩

end Shut

theorem closed_job_never_runs {w w' : World Shared Thread} (h : reached w)
    (hr : program.Reach always w w') (hj : j ∈ w.shared.accepted) (hran : j ∉ w.shared.ran)
    (hc : w.shared.status j.id = .closed) :
    j ∉ w'.shared.ran ∧ w'.shared.status j.id = .closed := by
  have hmarked : Sound w.shared w.threads ∧ Marking w.shared w.threads :=
    Program.reach_invariant (I := fun s ts => Sound s ts ∧ Marking s ts)
      ⟨reached_sound .refl,fun t ht => by cases ht⟩ (fun _ _ _ hi _ he => ⟨hi.1.call he,hi.2.call he⟩)
      (fun _ _ _ _ _ _ _ _ hi _ hs => ⟨hi.1.act hs,hi.2.act hi.1 hs⟩) h
  have hend : Shut j w'.shared w'.threads :=
    Program.reach_invariant (I := Shut j) ⟨hmarked.1,hmarked.2,hj,hran,hc⟩
      (fun _ _ _ hi _ he => hi.call he) (fun _ _ _ _ _ _ _ _ hi _ hs => hi.act hs) hr
  exact ⟨hend.unrun,hend.closed⟩

theorem closed_job_never_runs_waiting : ∃ v w, reached v ∧ program.Reach always v w ∧
    (⟨0,7⟩ : Job) ∈ v.shared.queue ∧ (⟨1,7⟩ : Job) ∈ w.shared.ran ∧ (⟨0,7⟩ : Job) ∉ w.shared.ran := by
  have hrun : ((program.run always init closedWaiting).any fun v =>
      (decide (⟨0,7⟩ ∈ v.shared.queue) && decide (⟨0,7⟩ ∈ v.shared.accepted) &&
        decide (⟨0,7⟩ ∉ v.shared.ran) && decide (v.shared.status 0 = .closed)) &&
      (program.run always v secondRun).any fun w => decide (⟨1,7⟩ ∈ w.shared.ran)) = true := by decide
  obtain ⟨v,hv,hrun⟩ := (Option.any_eq_true _ _).mp hrun
  simp only [Bool.and_eq_true,Option.any_eq_true,decide_eq_true_eq] at hrun
  obtain ⟨⟨⟨⟨hqueue,hacc⟩,hunrun⟩,hclosed⟩,w,hw,hran⟩ := hrun
  have hlater := Program.reach_of_run hw
  exact ⟨v,w,Program.reach_of_run hv,hlater,hqueue,hran,
    (closed_job_never_runs (Program.reach_of_run hv) hlater hacc hunrun hclosed).1⟩

end Varmq.Stats
