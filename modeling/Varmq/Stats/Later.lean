import Varmq.Stats.Sound

namespace Varmq.Stats

open Interleaving Topics

variable {s s' : Shared} {l l' t : Thread} {new xs ys ts : List Thread} {i j : Job} {c : Choice}
  {m g w : ℕ} {st : Park.Stamp}

def calmed : Thread → Bool
  | .purge pc => match pc with
    | .returned => true
    | _ => false
  | .close _ done => done
  | _ => true

-- No Purge and no Close is called any more, and the workers can run what they are given.
def calm : Guard Shared Thread Choice
  | _, .call l => match l with
    | .purge _ => false
    | .close _ _ => false
    | _ => true
  | w, .act i c => match w.threads[i]? with
    | some (.dispatch _ (.took _ _ _ _ _)) => c ≠ .no
    | _ => true

-- It is closing jobs it found behind the counter.
def shutting : Thread → Bool
  | .batch _ _ (.purged _ _ _ _) => true
  | .batch _ _ (.parkClose _ _) => true
  | .batch _ _ (.parkTaken _ _ _) => true
  | _ => false

-- m jobs had been made when the counter was at g.
structure Later (m g : ℕ) (s : Shared) (ts : List Thread) : Prop where
  sound : Sound s ts
  gen : s.gen = g
  made : m ≤ s.made
  ended : ∀ t ∈ ts, calmed t = true
  tagged : Tagged (fun st j => st.gen ≠ none → m ≤ j.id → g ≤ st.epoch) s ts
  behind : ∀ t ∈ ts, shutting t = true → ∀ j ∈ hand t, j.id < m
  unstored : ∀ t ∈ ts, ∀ j ∈ fresh t, m ≤ j.id → s.status j.id ≠ .closed
  unshut : ∀ j ∈ s.accepted, m ≤ j.id → j ∉ s.ran → s.status j.id ≠ .closed
  dropped : ∀ j ∈ s.dropped, j.id < m

theorem fresh_coming (h : j ∈ fresh t) : j ∈ coming t := by
  cases t with
  | add k n pc =>
    cases pc with
    | store a => exact h
    | _ => cases h
  | _ => cases h

-- A batch gets there behind the counter only.
theorem batch_shutting {pc pc' : BatchPc} (h : batchStep s w st pc c = some (s',pc'))
    (hp : shutting (.batch w st pc') = true) :
    st.stale s.gens = true ∨ shutting (.batch w st pc) = true := by
  cases pc with
  | stale i jobs r =>
    cases jobs with
    | nil =>
      cases h
      cases hp
    | cons a js =>
      simp only [batchStep,Option.some.injEq,Prod.mk.injEq] at h
      obtain ⟨-,rfl⟩ := h
      cases hstale : st.stale s.gens with
      | true => exact .inl rfl
      | false =>
        rw [hstale] at hp
        cases hp
  | halting i a js r =>
    simp only [batchStep] at h
    split at h
    · cases h
    · split at h <;> cases h <;> cases hp
  | start i a js r =>
    simp only [batchStep] at h
    split at h <;> cases h <;> cases hp
  | work i a js r => cases c <;> cases h <;> cases hp
  | purged i a js r | parkTaken a js r => exact .inr rfl
  | finish i a js r | close i a js r | count i a js r | skip i a js r | flush r =>
    cases h
    cases hp
  | park i jobs r =>
    cases hstale : st.stale s.gens with
    | true => exact .inl rfl
    | false =>
      have hfalse : ¬Park.Stamp.stale s.gens { st with seq := st.seq + i } = true := by
        rw [Bool.not_eq_true]
        exact hstale
      simp only [batchStep] at h
      split at h
      · cases h
      · split at h
        · cases h
        · rw [Park.park,if_neg hfalse] at h
          cases h
          cases hp
  | parkClose jobs r => exact .inr rfl
  | returned => cases h

theorem step_shutting (h : program.step s l c = some (s',l',new)) (hp : shutting l' = true)
    (hj : j ∈ hand l') :
    j ∈ hand l ∧ ∃ st, stampOf l = some st ∧ (st.stale s.gens = true ∨ shutting l = true) := by
  cases l with
  | batch w st pc =>
    obtain ⟨u,hu,hq⟩ := Option.map_eq_some_iff.mp h
    cases hq
    exact ⟨(batch_carries hu hj).1,st,rfl,batch_shutting hu hp⟩
  | add | dispatch | purge =>
    obtain ⟨u,hu,hq⟩ := Option.map_eq_some_iff.mp h
    cases hq
    cases hp
  | close j done | bind done | setPaused on done =>
    cases done <;> cases h
    cases hp
  | setHalting w on done =>
    cases done with
    | true => cases h
    | false =>
      simp only [program,step] at h
      split at h <;> cases h
      cases hp

theorem calmed_act (h : program.step s l c = some (s',l',new)) (hc : calmed l = true) :
    calmed l' = true := by
  cases l with
  | add | dispatch | batch =>
    obtain ⟨u,hu,hq⟩ := Option.map_eq_some_iff.mp h
    cases hq
    rfl
  | purge pc =>
    cases pc with
    | returned => cases h
    | _ => cases hc
  | close j done | bind done | setPaused on done =>
    cases done <;> cases h
    rfl
  | setHalting w on done =>
    cases done with
    | true => cases h
    | false =>
      simp only [program,step] at h
      split at h <;> cases h
      rfl

theorem calmed_gen (h : calmed l = true) : bumps l = 0 := by
  cases l with
  | purge pc =>
    cases pc with
    | bump => cases h
    | _ => rfl
  | _ => rfl

structure Grows (s : Shared) (l : Thread) (s' : Shared) (l' : Thread) : Prop where
  made : s.made ≤ s'.made
  accepted : ∀ j ∈ s'.accepted, j ∈ s.accepted ∨ j ∈ fresh l
  fresh : ∀ j ∈ fresh l', s'.status j.id = .created

theorem add_grows {k n n' : ℕ} {pc pc' : AddPc} (h : addStep s k n pc c = some (s',n',pc')) :
    Grows s (.add k n pc) s' (.add k n' pc') := by
  cases pc with
  | count =>
    cases h
    refine ⟨Nat.le_succ _,fun j hj => .inl hj,fun j hj => ?_⟩
    cases List.mem_singleton.mp hj
    simp
  | store a =>
    cases c with
    | no =>
      cases h
      exact ⟨le_refl _,fun j hj => .inl hj,fun j hj => by cases hj⟩
    | go | batch =>
      cases h
      exact ⟨le_refl _,fun j hj => List.mem_append.mp hj,fun j hj => by cases hj⟩
  | markQueued a =>
    simp only [addStep,Option.some.injEq,Prod.mk.injEq] at h
    obtain ⟨rfl,hn⟩ := h
    have hrest := (nextItem_rest k n).1
    rw [hn] at hrest
    refine ⟨(markQueued_same s a).made.ge,fun j hj => .inl ((markQueued_same s a).accepted ▸ hj),fun j hj => ?_⟩
    rw [hrest] at hj
    cases hj
  | close a =>
    cases h
    exact ⟨(close_same s a).made.ge,fun j hj => .inl ((close_same s a).accepted ▸ hj),
      fun j hj => by cases hj⟩
  | uncount =>
    simp only [addStep,Option.some.injEq,Prod.mk.injEq] at h
    obtain ⟨rfl,hn⟩ := h
    have hrest := (nextItem_rest k n).1
    rw [hn] at hrest
    refine ⟨le_refl _,fun j hj => .inl hj,fun j hj => ?_⟩
    rw [hrest] at hj
    cases hj
  | returned => cases h

theorem step_grows (h : program.step s l c = some (s',l',new)) : Grows s l s' l' := by
  cases hl : plain l with
  | true =>
    obtain ⟨hacc,hmade⟩ := (step_moved h).kept hl
    refine ⟨hmade.ge,fun j hj => .inl (hacc ▸ hj),fun j hj => ?_⟩
    rw [(plain_rest (plain_act h hl)).1] at hj
    cases hj
  | false =>
    cases l with
    | add k n pc =>
      obtain ⟨u,hu,hq⟩ := Option.map_eq_some_iff.mp h
      cases hq
      exact add_grows hu
    | _ => cases hl

-- Whatever becomes closed is closed by the step.
theorem Moved.closed {n : ℕ} (h : Moved s l s' l' c) (hn : s.status n ≠ .closed)
    (hn' : s'.status n = .closed) : ∃ i ∈ closes l, i.id = n := by
  cases h.status n with
  | same he => exact absurd (he ▸ hn') hn
  | closed hj hid he he' => exact ⟨_,hj,hid⟩
  | made hl hm he | queued hq he | processing hl hl' hid hc he | finished hj hid he =>
    rw [hn'] at he
    cases he

namespace Sound

theorem coming_accepted (h : Sound s ts) (ht : t ∈ ts) (hi : i ∈ coming t) (hj : j ∈ s.accepted) :
    i.id ≠ j.id := by
  intro he
  have hids := h.ids j.id
  have hle := @le_total _ (fun t => (coming t).countP (named j.id)) ts t ht
  have hpos : 0 < s.accepted.countP (named j.id) := List.countP_pos_iff.mpr ⟨j,hj,by simp [named]⟩
  have hpos' : 0 < (coming t).countP (named j.id) := List.countP_pos_iff.mpr ⟨i,hi,by simp [named,he]⟩
  have hone := one_bound (decide (j.id < s.made))
  omega

theorem coming_other (h : Sound s (xs ++ l :: ys)) (ht : t ∈ xs ++ ys) (hi : i ∈ coming l)
    (hj : j ∈ coming t) : i.id ≠ j.id := by
  intro he
  have hids := h.ids j.id
  rw [total_split] at hids
  have hle := @le_total _ (fun t => (coming t).countP (named j.id)) _ t ht
  have hpos : 0 < (coming t).countP (named j.id) := List.countP_pos_iff.mpr ⟨j,hj,by simp [named]⟩
  have hpos' : 0 < (coming l).countP (named j.id) := List.countP_pos_iff.mpr ⟨i,hi,by simp [named,he]⟩
  have hone := one_bound (decide (j.id < s.made))
  omega

theorem coming_made (h : Sound s ts) (ht : t ∈ ts) (hj : j ∈ coming t) : j.id < s.made := by
  have hids := h.ids j.id
  have hle := @le_total _ (fun t => (coming t).countP (named j.id)) ts t ht
  have hpos : 0 < (coming t).countP (named j.id) := List.countP_pos_iff.mpr ⟨j,hj,by simp [named]⟩
  by_contra hn
  rw [decide_eq_false hn] at hids
  have hzero : one false = 0 := rfl
  omega

end Sound

namespace Later

theorem closed_by (h : Later m g s ts) (hl : l ∈ ts) (hi : i ∈ closes l) :
    i.id < m ∨ i ∈ s.ran ∨ i ∈ coming l := by
  cases l with
  | add k n pc =>
    cases pc with
    | close a => exact .inr (.inr hi)
    | _ => cases hi
  | batch w st pc =>
    cases pc with
    | purged k a js r =>
      cases List.mem_singleton.mp hi
      exact .inl (h.behind _ hl rfl i List.mem_cons_self)
    | close k a js r => exact .inr (.inl (h.sound.ended _ hl i hi))
    | parkClose jobs r =>
      cases jobs with
      | nil => cases hi
      | cons a js =>
        cases List.mem_singleton.mp hi
        exact .inl (h.behind _ hl rfl i List.mem_cons_self)
    | _ => cases hi
  | purge pc =>
    have hc := h.ended _ hl
    cases pc with
    | returned => cases hi
    | _ => cases hc
  | close a done =>
    cases done with
    | true => cases hi
    | false =>
      have hc := h.ended _ hl
      cases hc
  | _ => cases hi

theorem held_closed (h : Later m g s ts) (hl : l ∈ ts) (hj : j ∈ hand l)
    (hst : s.status j.id = .closed) : j.id < m := by
  by_contra hm
  exact h.unshut j (h.sound.books.hand_accepted hl hj) (Nat.not_lt.mp hm)
    (h.sound.books.hand_unrun hl hj) hst

-- A job made since can be closed only by whoever ran it.
theorem opens (h : Later m g s (xs ++ l :: ys)) (hs : program.step s l c = some (s',l',new))
    (hm : m ≤ j.id) (hran : j ∉ s.ran) (hst : s.status j.id ≠ .closed)
    (hj : j ∈ s.accepted ∨ ∃ t ∈ xs ++ ys, j ∈ coming t) : s'.status j.id ≠ .closed := by
  intro hst'
  obtain ⟨i,hi,he⟩ := (step_moved hs).closed hst hst'
  rcases h.closed_by (by simp) hi with hlt | hrun | hcome
  · omega
  · have hacc := h.sound.books.ran_accepted hrun
    rcases hj with hj | ⟨t,ht,hj⟩
    · exact hran (h.sound.same_job hacc hj he ▸ hrun)
    · exact h.sound.coming_accepted (mem_of_other ht) hj hacc he.symm
  · rcases hj with hj | ⟨t,ht,hj⟩
    · exact h.sound.coming_accepted (by simp) hcome hj he
    · exact h.sound.coming_other ht hcome hj he

theorem act (h : Later m g s (xs ++ l :: ys)) (hs : program.step s l c = some (s',l',new))
    (hok : calm ⟨s,xs ++ l :: ys⟩ (.act xs.length c) = true) :
    Later m g s' (xs ++ l' :: (ys ++ new)) := by
  have hl : l ∈ xs ++ l :: ys := by simp
  have hm := step_moved hs
  have hg := step_grows hs
  have hbooks := h.sound.books
  have hgen : s'.gen = g := by rw [hm.gen,calmed_gen (h.ended l hl),Nat.add_zero,h.gen]
  have hnew : ∀ t ∈ new, calmed t = true ∧ shutting t = false ∧ fresh t = [] := by
    intro t ht
    obtain ⟨w,buf,st,-,rfl⟩ := step_sent hs ht
    exact ⟨rfl,rfl,rfl⟩
  refine ⟨h.sound.act hs,hgen,h.made.trans hg.made,?_,?_,?_,?_,?_,?_⟩
  · exact forall_act (fun t ht => h.ended t (mem_of_other ht)) (calmed_act hs (h.ended l hl))
      fun t ht => (hnew t ht).1
  · refine h.tagged.act (fun st n j hr => hr) (fun st j hst hne _ => ?_) hs
    rcases hst with hst | hst
    · exact absurd hst hne
    · rw [hst,h.gen]
  · refine forall_act (fun t ht => h.behind t (mem_of_other ht)) (fun hp j hj => ?_) fun t ht hp => ?_
    · obtain ⟨hj,st,hst,hstale | hp⟩ := step_shutting hs hp hj
      · obtain ⟨hmark,hr⟩ := h.tagged.hands l hl st hst j hj
        have hle := (h.sound.tagged.hands l hl st hst j hj).2
        rcases hmark with hzero | ⟨hnone,-⟩
        · have hne := (stale_iff hzero).mp hstale
          have hsome : st.gen ≠ none := by
            rw [hzero]
            exact Option.some_ne_none 0
          by_contra hmj
          have hge := hr hsome (Nat.not_lt.mp hmj)
          have hle := hle hsome
          have hsame := h.gen
          omega
        · rw [Park.Stamp.stale,hnone] at hstale
          cases hstale
      · exact h.behind l hl hp j hj
    · rw [(hnew t ht).2.1] at hp
      cases hp
  · refine forall_act (fun t ht j hj hmj => ?_) (fun j hj _ => ?_) fun t ht j hj => ?_
    · have hcome := fresh_coming hj
      have hran : j ∉ s.ran := fun hran =>
        h.sound.coming_accepted (mem_of_other ht) hcome (hbooks.ran_accepted hran) rfl
      exact h.opens hs hmj hran (h.unstored t (mem_of_other ht) j hj hmj) (.inr ⟨t,ht,hcome⟩)
    · rw [hg.fresh j hj]
      exact Jobs.Status.noConfusion
    · rw [(hnew t ht).2.2] at hj
      cases hj
  · intro j hj hmj hran
    have hran' : j ∉ s.ran := by
      intro hmem
      refine hran ?_
      rw [hm.ran]
      exact List.mem_append_left _ hmem
    rcases hg.accepted j hj with hj | hj
    · exact h.opens hs hmj hran' (h.unshut j hj hmj hran') (.inl hj)
    · intro hst
      obtain ⟨i,hi,-⟩ := hm.closed (h.unstored l hl j hj hmj) hst
      cases l with
      | add k n pc =>
        cases pc with
        | store a => cases hi
        | _ => cases hj
      | _ => cases hj
  · obtain ⟨d,hd,hdrops⟩ := hm.dropped
    intro j hj
    rw [hd] at hj
    rcases List.mem_append.mp hj with hj | hj
    · exact h.dropped j hj
    · cases hdrops with
      | none => cases hj
      | took hl' hst =>
        cases List.mem_singleton.mp hj
        subst hl'
        rcases hst with rfl | hst
        · simp [calm] at hok
        · exact h.held_closed hl List.mem_cons_self hst
      | skipped hl' =>
        cases List.mem_singleton.mp hj
        have hskip : j ∈ skips l := by
          rw [hl']
          exact List.mem_singleton_self j
        exact h.held_closed hl (skips_hand hskip) (h.sound.shut l hl j hskip)
      | values hl' =>
        subst hl'
        have hc := h.ended _ hl
        cases hc

theorem call (h : Later m g s ts) (he : entry s l = true) (hok : calm ⟨s,ts⟩ (.call l) = true) :
    Later m g s (ts ++ [l]) := by
  obtain ⟨hhand,-,-,hfresh,-,-⟩ := entered he
  refine ⟨h.sound.call he,h.gen,h.made,forall_call h.ended ?_,h.tagged.call he,
    forall_call h.behind fun _ j hj => ?_,forall_call h.unstored fun j hj => ?_,h.unshut,h.dropped⟩
  · cases l with
    | purge | close => cases hok
    | _ => rfl
  · rw [hhand] at hj
    cases hj
  · rw [hfresh] at hj
    cases hj

end Later

theorem later_start {w : World Shared Thread} (h : reached w) (hq : ∀ t ∈ w.threads, calmed t = true) :
    Later w.shared.made w.shared.gen w.shared w.threads := by
  have hs := reached_sound h
  have hacc : ∀ j ∈ w.shared.accepted, ¬w.shared.made ≤ j.id := fun j hj => Nat.not_le.mpr (hs.lt_made hj)
  refine ⟨hs,rfl,le_refl _,hq,⟨fun t ht st hst j hj => ?_,fun wk hwk b hb j hj => ?_⟩,?_,?_,?_,?_⟩
  · exact (hs.tagged.hands t ht st hst j hj).imp_right fun _ _ hm =>
      absurd hm (hacc j (hs.books.hand_accepted ht hj))
  · have hparked : j ∈ w.shared.parkedJobs :=
      List.mem_flatMap.mpr ⟨wk,hwk,List.mem_flatMap.mpr ⟨b,hb,hj⟩⟩
    exact (hs.tagged.parks wk hwk b hb j hj).imp_right fun _ _ hm =>
      absurd hm (hacc j (hs.books.placed_accepted (.inl hparked)))
  · exact fun t ht _ j hj => hs.lt_made (hs.books.hand_accepted ht hj)
  · exact fun t ht j hj hm => absurd hm (Nat.not_le.mpr (hs.coming_made ht (fresh_coming hj)))
  · exact fun j hj hm => absurd hm (hacc j hj)
  · exact fun j hj => hs.lt_made (hs.books.placed_accepted (.inr hj))

theorem later_jobs_survive {w w' : World Shared Thread} (h : reached w)
    (hq : ∀ t ∈ w.threads, calmed t = true) (hr : program.Reach calm w w') (hj : j ∈ w'.shared.accepted)
    (hm : w.shared.made ≤ j.id) :
    j ∉ w'.shared.dropped ∧ (j ∉ w'.shared.ran → w'.shared.status j.id ≠ .closed) ∧
    ((∀ t ∈ w'.threads, inFlight t = false) →
      j ∈ w'.shared.queue ∨ j ∈ w'.shared.parkedJobs ∨ j ∈ w'.shared.ran) := by
  have hend : Later w.shared.made w.shared.gen w'.shared w'.threads :=
    Program.reach_invariant (I := Later w.shared.made w.shared.gen) (later_start h hq)
      (fun _ _ _ hi hok he => hi.call he hok) (fun _ _ _ _ _ _ _ _ hi hok hs => hi.act hs hok) hr
  have hdropped : j ∉ w'.shared.dropped := fun hd => absurd hm (Nat.not_le.mpr (hend.dropped j hd))
  refine ⟨hdropped,hend.unshut j hj hm,fun hrest => ?_⟩
  have hmem := (placed hend.sound.books hrest).mem_iff.mp hj
  simp only [List.mem_append] at hmem
  tauto

-- One job is purged, another is added after it.
def purgedOnce : List (Event Thread Choice) :=
  [.call (.bind false),.act 0 .go,.call (.add 7 0 .count),.act 1 .go,.act 1 .go,.act 1 .go,
    .call (.purge .bump),.act 2 .go,.act 2 .go,.act 2 .go,.act 2 .go,.act 2 .go,.act 2 .go,.act 2 .go,
    .act 2 .go]

def addedAfter : List (Event Thread Choice) :=
  [.call (.add 7 0 .count),.act 3 .go,.act 3 .go,.act 3 .go,
    .call (.dispatch 0 .plan),.act 4 (.batch 1),.act 4 .go,.act 4 .go,.act 4 .go,.act 4 .go,.act 4 .go,
    .act 4 .go,.act 4 .go,
    .act 5 .go,.act 5 .go,.act 5 .go,.act 5 .go,.act 5 .go,.act 5 .go,.act 5 .go,.act 5 .go,.act 5 .go]

theorem later_jobs_survive_after : ∃ v w, reached v ∧ program.Reach calm v w ∧
    (⟨0,7⟩ : Job) ∈ w.shared.dropped ∧
    (⟨1,7⟩ : Job) ∉ w.shared.dropped ∧
    ((⟨1,7⟩ : Job) ∈ w.shared.queue ∨ (⟨1,7⟩ : Job) ∈ w.shared.parkedJobs ∨ (⟨1,7⟩ : Job) ∈ w.shared.ran) := by
  have hrun : ((program.run always init purgedOnce).any fun w =>
      ((w.threads.all fun t => calmed t) && decide (w.shared.made = 1)) &&
      (program.run calm w addedAfter).any fun w' =>
        ((w'.threads.all fun t => !inFlight t) && decide (⟨1,7⟩ ∈ w'.shared.accepted)) &&
          decide (⟨0,7⟩ ∈ w'.shared.dropped)) = true := by decide
  obtain ⟨w,hw,hrun⟩ := (Option.any_eq_true _ _).mp hrun
  simp only [Bool.and_eq_true,Option.any_eq_true,List.all_eq_true,decide_eq_true_eq,Bool.not_eq_true'] at hrun
  obtain ⟨⟨hq,hmade⟩,w',hw',⟨hrest,hacc⟩,hdropped⟩ := hrun
  obtain ⟨hno,-,hplaced⟩ := later_jobs_survive (Program.reach_of_run hw) hq (Program.reach_of_run hw') hacc
    (by rw [hmade])
  exact ⟨w,w',Program.reach_of_run hw,Program.reach_of_run hw',hdropped,hno,hplaced hrest⟩

end Varmq.Stats
