import Varmq.Stats.Moves
import Varmq.Stats.Stamps

namespace Varmq.Stats

open Interleaving Topics

variable {s s' : Shared} {l l' t : Thread} {new xs ys ts : List Thread} {j : Job} {c : Choice} {n : ℕ}

def named (n : ℕ) (j : Job) : Bool := j.id == n

-- The job an Add has made and neither stored nor taken back.
def coming : Thread → List Job
  | .add _ _ (.store j) => [j]
  | .add _ _ (.close j) => [j]
  | _ => []

-- What the counts leave open: whose the ids are, what a status stands for and how late a stamp can be.
structure Sound (s : Shared) (ts : List Thread) : Prop where
  books : Books s ts
  ids : ∀ n, s.accepted.countP (named n) + total (fun t => (coming t).countP (named n)) ts ≤
    one (decide (n < s.made))
  busy : ∀ n, s.status n = .processing → ∃ j, j.id = n ∧ (j ∈ s.ran ∨ ∃ t ∈ ts, runs t = [j])
  shut : ∀ t ∈ ts, ∀ j ∈ skips t, s.status j.id = .closed
  ended : ∀ t ∈ ts, ∀ j ∈ finishing t, j ∈ s.ran
  tagged : Tagged (fun st _ => st.gen ≠ none → st.epoch ≤ s.gen) s ts

theorem one_bound (b : Bool) : one b ≤ 1 := by
  unfold one
  split <;> omega

theorem nextItem_coming (m k : ℕ) : coming (.add m (nextItem k).1 (nextItem k).2) = [] := by
  cases k <;> rfl

theorem plain_coming (h : plain l = true) : coming l = [] := by
  cases l with
  | add => cases h
  | _ => rfl

theorem add_ids {m k k' : ℕ} {pc pc' : AddPc} (h : addStep s m k pc c = some (s',k',pc')) (n : ℕ) :
    s'.accepted.countP (named n) + (coming (.add m k' pc')).countP (named n) + one (decide (n < s.made)) ≤
      s.accepted.countP (named n) + (coming (.add m k pc)).countP (named n) +
        one (decide (n < s'.made)) := by
  cases pc with
  | count =>
    cases h
    have hone : one (named n ⟨s.made,m⟩) + one (decide (n < s.made)) ≤ one (decide (n < s.made + 1)) := by
      by_cases he : s.made = n
      · subst he
        simp [named,one]
      · by_cases hlt : n < s.made
        · simp [named,one,he,hlt,Nat.lt_succ_of_lt hlt]
        · simp [named,one,he,hlt]
    simp only [coming,countP_cons_one,List.countP_nil,Shared.added]
    omega
  | store j =>
    have haccept : (s.accepted ++ [j]).countP (named n) = s.accepted.countP (named n) + one (named n j) := by
      rw [List.countP_append,countP_cons_one,List.countP_nil,Nat.zero_add]
    cases c with
    | no =>
      cases h
      simp only [coming,countP_cons_one,List.countP_nil]
      omega
    | go | batch =>
      cases h
      simp only [coming,countP_cons_one,List.countP_nil,haccept]
      omega
  | markQueued j =>
    simp only [addStep,Option.some.injEq,Prod.mk.injEq] at h
    obtain ⟨rfl,hn⟩ := h
    have hrest := nextItem_coming m k
    rw [hn] at hrest
    rw [hrest,(markQueued_same s j).accepted,(markQueued_same s j).made]
    exact le_refl _
  | close j =>
    cases h
    simp only [coming,countP_cons_one,List.countP_nil,(close_same s j).accepted,(close_same s j).made]
    omega
  | uncount =>
    simp only [addStep,Option.some.injEq,Prod.mk.injEq] at h
    obtain ⟨rfl,hn⟩ := h
    have hrest := nextItem_coming m k
    rw [hn] at hrest
    rw [hrest]
    exact le_refl _
  | returned => cases h

theorem plain_act (h : program.step s l c = some (s',l',new)) (hp : plain l = true) :
    plain l' = true := by
  cases l with
  | add => cases hp
  | dispatch | batch | purge =>
    obtain ⟨u,hu,hq⟩ := Option.map_eq_some_iff.mp h
    cases hq
    rfl
  | close j done | bind done | setPaused on done =>
    cases done <;> cases h
    rfl
  | setHalting w on done =>
    cases done with
    | true => cases h
    | false =>
      simp only [program,step] at h
      split at h <;> cases h
      rfl

theorem ids_act (h : program.step s l c = some (s',l',new)) (n : ℕ) :
    s'.accepted.countP (named n) + (coming l').countP (named n) +
        total (fun t => (coming t).countP (named n)) new + one (decide (n < s.made)) ≤
      s.accepted.countP (named n) + (coming l).countP (named n) + one (decide (n < s'.made)) := by
  have hnew : total (fun t => (coming t).countP (named n)) new = 0 := by
    refine total_eq_zero.mpr fun t ht => ?_
    obtain ⟨w,buf,st,-,rfl⟩ := step_sent h ht
    rfl
  rw [hnew]
  cases hl : plain l with
  | true =>
    obtain ⟨hacc,hmade⟩ := (step_moved h).kept hl
    rw [hacc,hmade,plain_coming hl,plain_coming (plain_act h hl)]
    exact le_refl _
  | false =>
    cases l with
    | add m k pc =>
      obtain ⟨u,hu,hq⟩ := Option.map_eq_some_iff.mp h
      cases hq
      exact add_ids hu n
    | _ => cases hl

namespace Sound

theorem lt_made (h : Sound s ts) (hj : j ∈ s.accepted) : j.id < s.made := by
  have hids := h.ids j.id
  have hpos : 0 < s.accepted.countP (named j.id) := List.countP_pos_iff.mpr ⟨j,hj,by simp [named]⟩
  by_contra hn
  rw [decide_eq_false hn] at hids
  have hzero : one false = 0 := rfl
  omega

theorem same_job (h : Sound s ts) {i : Job} (hi : i ∈ s.accepted) (hj : j ∈ s.accepted)
    (he : i.id = j.id) : i = j := by
  have hnodup : (s.accepted.map Job.id).Nodup := by
    refine List.nodup_iff_count_le_one.mpr fun n => ?_
    have hids := h.ids n
    have hone := one_bound (decide (n < s.made))
    rw [List.count,List.countP_map]
    change s.accepted.countP (named n) ≤ 1
    omega
  exact List.inj_on_of_nodup_map hnodup hi hj he

end Sound

theorem runs_hand (h : runs t = [j]) : j ∈ hand t := by
  cases t with
  | batch w st pc =>
    cases pc with
    | work i a js r =>
      cases h
      exact List.mem_cons_self
    | _ => cases h
  | _ => cases h

theorem skips_hand (h : j ∈ skips t) : j ∈ hand t := by
  cases t with
  | batch w st pc =>
    cases pc with
    | skip i a js r | parkTaken a js r =>
      cases List.mem_singleton.mp h
      exact List.mem_cons_self
    | _ => cases h
  | purge pc =>
    cases pc with
    | dropTaken w a js ws =>
      cases List.mem_singleton.mp h
      exact List.mem_cons_self
    | _ => cases h
  | _ => cases h

namespace Books

-- A job is in one place only.
theorem once (h : Books s ts) (j : Job) :
    s.queue.count j + s.parkedJobs.count j + total (fun t => (hand t).count j) ts +
      s.ran.count j + s.dropped.count j ≤ 1 := by
  have hplaces := h.places (· == j)
  have hone := List.nodup_iff_count_le_one.mp (accepted_nodup h) j
  simp only [List.count] at hone ⊢
  omega

theorem placed_accepted (h : Books s ts) (hj : j ∈ s.parkedJobs ∨ j ∈ s.dropped) : j ∈ s.accepted := by
  have hplaces := h.places (· == j)
  have hpos : 0 < s.parkedJobs.countP (· == j) + s.dropped.countP (· == j) := by
    rcases hj with hj | hj <;> have := List.count_pos_iff.mpr hj <;> simp only [List.count] at this <;> omega
  refine List.count_pos_iff.mp ?_
  rw [List.count]
  omega

theorem hand_accepted (h : Books s ts) (ht : t ∈ ts) (hj : j ∈ hand t) : j ∈ s.accepted := by
  have hplaces := h.places (· == j)
  have hle := @le_total _ (fun t => (hand t).countP (· == j)) ts t ht
  have hpos : 0 < (hand t).countP (· == j) := List.countP_pos_iff.mpr ⟨j,hj,by simp⟩
  refine List.count_pos_iff.mp ?_
  rw [List.count]
  omega

theorem ran_accepted (h : Books s ts) (hj : j ∈ s.ran) : j ∈ s.accepted := by
  have hplaces := h.places (· == j)
  have hpos : 0 < s.ran.countP (· == j) := List.countP_pos_iff.mpr ⟨j,hj,by simp⟩
  refine List.count_pos_iff.mp ?_
  rw [List.count]
  omega

theorem hand_unrun (h : Books s ts) (ht : t ∈ ts) (hj : j ∈ hand t) : j ∉ s.ran := by
  intro hran
  have honce := h.once j
  have hle := @le_total _ (fun t => (hand t).count j) ts t ht
  have hhand := List.count_pos_iff.mpr hj
  have hpos := List.count_pos_iff.mpr hran
  omega

end Books

namespace Sound

theorem running_accepted (h : Sound s ts) (hj : j ∈ s.ran ∨ ∃ t ∈ ts, runs t = [j]) :
    j ∈ s.accepted := by
  rcases hj with hj | ⟨t,ht,hj⟩
  · exact h.books.ran_accepted hj
  · exact h.books.hand_accepted ht (runs_hand hj)

theorem idle (h : Sound s ts) (hj : j ∈ s.accepted) (hran : j ∉ s.ran)
    (hwork : ∀ t ∈ ts, runs t ≠ [j]) : s.status j.id ≠ .processing := by
  intro hst
  obtain ⟨i,hi,hrun⟩ := h.busy j.id hst
  have he := h.same_job (h.running_accepted hrun) hj hi
  subst he
  rcases hrun with hrun | ⟨t,ht,hrun⟩
  · exact hran hrun
  · exact hwork t ht hrun

-- A job stays closed that was not run.
theorem stays_closed (h : Sound s (xs ++ l :: ys)) (hs : program.step s l c = some (s',l',new))
    (hj : j ∈ s.accepted) (hran : j ∉ s.ran) (hst : s.status j.id = .closed) :
    s'.status j.id = .closed := by
  cases (step_moved hs).status j.id with
  | same he => rw [he,hst]
  | made hl hn he => exact absurd (h.lt_made hj) (by omega)
  | queued he he' =>
    rw [hst] at he
    cases he
  | closed hi hn he he' => exact he'
  | processing hl hl' hn he he' => exact absurd hst he
  | finished hi hn he =>
    have hrun := h.ended l (by simp) _ hi
    have hsame := h.same_job (h.books.ran_accepted hrun) hj hn
    exact absurd (hsame ▸ hrun) hran

theorem act (h : Sound s (xs ++ l :: ys)) (hs : program.step s l c = some (s',l',new)) :
    Sound s' (xs ++ l' :: (ys ++ new)) := by
  obtain ⟨heff,hfit,hnewfit⟩ := step_effect (h.books.fits l (by simp)) hs
  have hm := step_moved hs
  have hl : l ∈ xs ++ l :: ys := by simp
  have hnew : ∀ t ∈ new, skips t = [] ∧ finishing t = [] := by
    intro t ht
    obtain ⟨w,buf,st,-,rfl⟩ := step_sent hs ht
    exact ⟨rfl,rfl⟩
  constructor
  · exact books_act h.books heff hfit hnewfit
  · intro n
    have hold := h.ids n
    have hstep := ids_act hs n
    rw [total_split] at hold
    rw [total_act]
    omega
  · intro n hn
    have hkeep : s.status n = .processing →
        ∃ j, j.id = n ∧ (j ∈ s'.ran ∨ ∃ t ∈ xs ++ l' :: (ys ++ new), runs t = [j]) := by
      intro hst
      obtain ⟨j,hj,hrun⟩ := h.busy n hst
      refine ⟨j,hj,?_⟩
      rw [hm.ran]
      rcases hrun with hrun | ⟨t,ht,hrun⟩
      · exact .inl (List.mem_append_left _ hrun)
      · rcases mem_split ht with ht | rfl
        · exact .inr ⟨t,mem_of_act ht,hrun⟩
        · exact .inl (List.mem_append_right _ (by simp [hrun]))
    cases hm.status n with
    | same he => exact hkeep (by rw [← he,hn])
    | made hl hm he =>
      rw [hn] at he
      cases he
    | queued he he' =>
      rw [hn] at he'
      cases he'
    | closed hi hid he he' =>
      rw [hn] at he'
      cases he'
    | @processing w i st j js r hl hl' hid he he' => exact ⟨j,hid,.inr ⟨l',by simp,by rw [hl']; rfl⟩⟩
    | finished hi hid he =>
      rw [hn] at he
      cases he
  · refine forall_act (fun t ht j hj => ?_) (fun j hj => ?_) fun t ht j hj => ?_
    · have hmem : t ∈ xs ++ l :: ys := mem_of_other ht
      exact h.stays_closed hs (h.books.hand_accepted hmem (skips_hand hj))
        (h.books.hand_unrun hmem (skips_hand hj)) (h.shut t hmem j hj)
    · rcases hm.skips j hj with ⟨hc,hh⟩ | hst
      · refine hm.shut j hc (h.idle (h.books.hand_accepted hl hh) (h.books.hand_unrun hl hh) ?_)
        intro t ht hrun
        rcases mem_split ht with ht | rfl
        · -- Another thread would run what this one holds.
          have honce := h.books.once j
          have hle := @le_total _ (fun t => (hand t).count j) _ t ht
          have hpos := List.count_pos_iff.mpr (runs_hand hrun)
          have hpos' := List.count_pos_iff.mpr hh
          rw [total_split] at honce
          omega
        · have hnone : closes t = [] := by
            cases t with
            | batch w st pc =>
              cases pc with
              | work => rfl
              | _ => cases hrun
            | _ => cases hrun
          rw [hnone] at hc
          cases hc
      · exact hst
    · rw [(hnew t ht).1] at hj
      cases hj
  · refine forall_act (fun t ht j hj => ?_) (fun j hj => ?_) fun t ht j hj => ?_
    · rw [hm.ran]
      exact List.mem_append_left _ (h.ended t (mem_of_other ht) j hj)
    · rw [hm.ran]
      rcases hm.finishing j hj with hj | hj
      · exact List.mem_append_right _ hj
      · exact List.mem_append_left _ (h.ended l hl j hj)
    · rw [(hnew t ht).2] at hj
      cases hj
  · have hact := h.tagged.act (fun st n j hr => hr) (fun st j hst hg => ?_) hs
    · refine hact.mono rfl fun st j hr hg => (hr hg).trans ?_
      rw [hm.gen]
      exact Nat.le_add_right _ _
    · rcases hst with hst | hst
      · exact absurd hst hg
      · exact le_of_eq hst

theorem call (h : Sound s ts) (he : entry s l = true) : Sound s (ts ++ [l]) := by
  obtain ⟨hcoming,hskips,hfinishing⟩ : coming l = [] ∧ skips l = [] ∧ finishing l = [] := by
    cases l with
    | add m k pc => cases pc <;> first | exact ⟨rfl,rfl,rfl⟩ | cases he
    | batch w st pc => cases he
    | purge pc => cases pc <;> first | exact ⟨rfl,rfl,rfl⟩ | cases he
    | _ => exact ⟨rfl,rfl,rfl⟩
  constructor
  · exact books_call h.books he
  · intro n
    have hold := h.ids n
    rw [total_call,hcoming,List.countP_nil]
    exact hold
  · intro n hn
    obtain ⟨j,hj,hrun⟩ := h.busy n hn
    exact ⟨j,hj,hrun.imp_right fun ⟨t,ht,hr⟩ => ⟨t,List.mem_append_left _ ht,hr⟩⟩
  · refine forall_call h.shut fun j hj => ?_
    rw [hskips] at hj
    cases hj
  · refine forall_call h.ended fun j hj => ?_
    rw [hfinishing] at hj
    cases hj
  · exact h.tagged.call he

end Sound

theorem reached_sound {w : World Shared Thread} (h : reached w) : Sound w.shared w.threads := by
  refine Program.reach_invariant (I := Sound) ?_ (fun _ _ _ hi _ he => hi.call he)
    (fun _ _ _ _ _ _ _ _ hi _ hs => hi.act hs) h
  refine ⟨reached_books .refl,(fun n => by simp [init]),(fun n hn => by cases hn),
    (fun t ht => by cases ht),(fun t ht => by cases ht),(fun t ht => by cases ht),
    fun wk hwk => by cases hwk⟩

end Varmq.Stats
