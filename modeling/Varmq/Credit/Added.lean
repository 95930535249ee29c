import Varmq.Credit.Glance

namespace Varmq.Credit

open Interleaving
open Varmq.Worker (Status)
open Varmq.Lifecycle (LoopPc)

structure Told (r : Bool) (s : Shared) (ts : List Thread) : Prop where
  core : Lifecycle.Inv s.core (ts.map coreOf)
  batch : s.src.batch = true
  joins : ∀ t ∈ ts, joins r t = true
  bound : s.src.sole = true ∨ ∃ t ∈ ts, t = .distributed .lock ∨ t = .distributed .store
  past : Past s.src
  clocked : Clocked s.src ts
  loops : ∀ k pc look, .worker (.loop k pc) look ∈ ts → loopOver pc = false → Reached r s ts pc look

variable {r : Bool} {s s' : Shared} {c : Choice} {l l' t : Thread} {new : List Thread}
  {xs ys ts : List Thread}

theorem joins_bystander (h : joins r l = true) (hl : serving l = false) : bystander l = true := by
  unfold bystander
  split
  · simpa [serving] using hl
  · cases h
  · rfl

theorem spawned_joins {t : Lifecycle.Thread} (h : Lifecycle.spawned t = true) (look : Look) :
    joins r (.worker t look) = true := by
  cases t <;> first | rfl | cases h

theorem joins_act (h : joins r l = true) (hs : Act s c l s' l' new) :
    joins r l' = true ∧ ∀ t ∈ new, joins r t = true := by
  have htimer : (∀ t ∈ new, t = .resync .timer) → ∀ t ∈ new, joins r t = true :=
    fun hn t ht => by rw [hn t ht]; rfl
  cases hs with
  | @core t t' look look' d core new hc ha hp =>
    refine ⟨?_,fun u hu => ?_⟩
    · cases Lifecycle.step_act hp <;> first | rfl | cases h
    · obtain ⟨v,hv,rfl⟩ := List.mem_map.mp hu
      exact spawned_joins (Lifecycle.step_spawned hp v hv) _
  | @look t look look' src new hp =>
    refine ⟨?_,htimer (lookStep_new hp)⟩
    cases t <;> first | rfl | cases h
  | enqueue =>
    refine ⟨h,fun t ht => ?_⟩
    unfold announcements at ht
    split at ht
    · rw [List.mem_singleton.mp ht]
      exact h
    · cases ht
  | resync hp => exact ⟨rfl,htimer (resync_new hp).2⟩
  | add hp => exact ⟨rfl,fun t ht => by cases ht⟩
  | announce hp => exact ⟨h,fun t ht => by cases ht⟩
  | distributed hp => exact ⟨h,fun t ht => by cases ht⟩
  | len hp => cases h
  | other hp => cases h

theorem reached_new {look : Look} (h : s.core.status.isActive = false) (hl : fetching look = false)
    (hk : Known s.src look) : Reached r s ts .select look := by
  refine ⟨hk,fun ha => ?_,(fun he => by cases he),hl,fine_inactive h⟩
  rw [h] at ha
  cases ha

theorem loop_reached {k : ℕ} {pc : LoopPc} {look : Look}
    (h : Told r s (xs ++ .worker (.loop k pc) look :: ys)) (ho : loopOver pc = false)
    (hf : c = .fail → ∀ g, look ≠ .pop g) (hs : Act s c (.worker (.loop k pc) look) s' l' new) :
    Past s'.src ∧ s'.src.sole = s.src.sole ∧ s'.src.batch = s.src.batch ∧
      ∀ k' pc' look', l' = .worker (.loop k' pc') look' → loopOver pc' = false →
        Reached r s' (xs ++ l' :: (ys ++ new)) pc' look' := by
  have hat := h.loops k pc look (by simp) ho
  cases hs with
  | @core t t' _ look' d core new hc ha hp =>
    refine ⟨h.past,rfl,rfl,?_⟩
    rintro k' pc' _ ⟨⟩ ho'
    obtain ⟨⟨s₁,pc₁,new₁⟩,hstep,heq⟩ := Option.map_eq_some_iff.mp hp
    cases heq
    exact hat.step ha hstep ho'
  | look hp =>
    obtain ⟨hpast,hknown⟩ := look_known h.past hat.known hp
    obtain ⟨hplace,hshown,hsole⟩ := look_place h.batch h.clocked hat hf hp
    have hfix := look_fixed hp
    refine ⟨hpast,hfix.sole,hfix.batch,?_⟩
    rintro k' pc' look' ⟨⟩ -
    exact ⟨hknown,hshown,fun hl => hfix.sole.trans (hsole hl),hplace⟩

theorem bound_act (h : s.src.sole = true ∨ ∃ t ∈ xs ++ l :: ys, t = .distributed .lock ∨ t = .distributed .store)
    (hsole : s.src.sole = true → s'.src.sole = true) (hs : Act s c l s' l' new) :
    s'.src.sole = true ∨ ∃ t ∈ xs ++ l' :: (ys ++ new), t = .distributed .lock ∨ t = .distributed .store := by
  rcases h with h | ⟨t,ht,he⟩
  · exact .inl (hsole h)
  · rcases mem_split ht with ht | rfl
    · exact .inr ⟨t,mem_of_act ht,he⟩
    · rcases he with rfl | rfl
      · cases hs with
        | distributed hp =>
          simp only [distributedStep] at hp
          split at hp <;> cases hp
          exact .inr ⟨_,by simp,.inr rfl⟩
      · cases hs with
        | distributed hp =>
          cases hp
          exact .inl rfl

theorem Told.act (h : Told r s (xs ++ l :: ys)) (hs : Act s c l s' l' new)
    (hf : c = .fail → ∀ t g, l ≠ .worker t (.pop g))
    (hh : ∀ k pc look, .worker (.loop k pc) look ∈ xs ++ ys → loopOver pc = false →
      Heard r s s' l (xs ++ l :: ys) look) : Told r s' (xs ++ l' :: (ys ++ new)) := by
  have hjoin := h.joins l (by simp)
  obtain ⟨hl',hnew⟩ := joins_act hjoin hs
  have hside : serving l = false → Side r s s' l l' :=
    fun hb => act_side hjoin (joins_bystander hjoin hb) hs
  have hpop : ∀ k pc look, l = .worker (.loop k pc) look → c = .fail → ∀ g, look ≠ .pop g :=
    fun k pc look he hc g hg => hf hc (.loop k pc) g (by rw [he,hg])
  have hsrc : Past s'.src ∧ (s.src.sole = true → s'.src.sole = true) ∧ s'.src.batch = s.src.batch := by
    cases hserve : serving l with
    | true =>
      obtain ⟨k,pc,look,rfl,ho⟩ := serving_loop hserve
      obtain ⟨hpast,hsole,hbatch,-⟩ := loop_reached h ho (hpop _ _ _ rfl) hs
      exact ⟨hpast,fun he => hsole.trans he,hbatch⟩
    | false => exact ⟨(hside hserve).past h.past,(hside hserve).lone,(hside hserve).batch⟩
  obtain ⟨hpast,hsole,hbatch⟩ := hsrc
  refine ⟨core_act h.core hs,hbatch.trans h.batch,
    forall_act (fun t ht => h.joins t (mem_of_other ht)) hl' hnew,bound_act h.bound hsole hs,hpast,
    h.clocked.act hs,
    serving_act h.core hs (fun hb => bystander_serves (joins_bystander hjoin hb) hs) ?_ ?_ ?_⟩
  · rintro k pc look rfl ho
    exact (loop_reached h ho (hpop _ _ _ rfl) hs).2.2.2
  · intro hb k pc look hm ho
    exact (h.loops k pc look (mem_of_other hm) ho).side (hside hb) hs h.batch h.clocked h.past
      (hh k pc look hm ho)
  · exact fun hi => reached_new hi rfl trivial

theorem Told.call (h : Told r s ts) (hj : Credit.joins r l = true) (hw : ∀ t look, l ≠ .worker t look)
    (hc : Lifecycle.Inv s.core ((ts ++ [l]).map coreOf)) : Told r s (ts ++ [l]) := by
  have hmem : ∀ {p : Thread → Prop}, (∃ t ∈ ts, p t) → ∃ t ∈ ts ++ [l], p t :=
    fun ⟨t,ht,hp⟩ => ⟨t,List.mem_append_left _ ht,hp⟩
  have hstrong : Strong r s ts → Strong r s (ts ++ [l]) := Or.imp_right hmem
  have hsure : Sure r s ts → Sure r s (ts ++ [l]) := fun hs ha hsole =>
    ⟨fun hr hw => hstrong ((hs ha hsole).wet hr hw),
      fun hn => ((hs ha hsole).stored hn).imp hstrong fun ⟨hr,hsv⟩ => ⟨hr,hmem hsv⟩⟩
  have hfine : Fine r s ts → Fine r s (ts ++ [l]) := fun hf hfree => hsure (hf hfree)
  refine ⟨hc,h.batch,forall_call h.joins hj,h.bound.imp_right hmem,h.past,
    fun hr => List.mem_append_left _ (h.clocked hr),fun k pc look hm ho => ?_⟩
  rcases List.mem_append.mp hm with hm | hm
  · have hat := h.loops k pc look hm ho
    refine ⟨hat.known,fun ha hsole hn => ?_,hat.sole,hat.place.mono hfine hsure⟩
    exact (hat.shown ha hsole hn).imp_right (Or.imp hmem (And.imp_right (Or.imp_right hmem)))
  · exact absurd (List.mem_singleton.mp hm).symm (hw _ look)

-- Adds of this handle alone, over storage whose batch pops do not fail.
def ownAdds : Guard Shared Thread Choice
  | _, .call l => l = .add .store
  | w, .act i c => !(c = .fail && match w.threads[i]? with
      | some (.worker _ (.pop _)) => true
      | _ => false)

theorem pops_ok {i : ℕ} {w : World Shared Thread} {t : Lifecycle.Thread} {g : ℕ}
    (hok : ownAdds w (.act i c) = true) (hi : w.threads[i]? = some (.worker t (.pop g))) : c ≠ .fail := by
  intro hc
  simp [ownAdds,hi,hc] at hok

theorem add_joins {pc : AddPc} : joins r (.add pc) = true := rfl

theorem told_persistent (n m : ℕ) : Told r (persistent n m).shared (persistent n m).threads := by
  refine ⟨started_core n true,rfl,fun t ht => ?_,.inl rfl,(fun d hd => by cases hd),
    (fun hr => by cases hr),fun k pc look hm ho => ?_⟩
  · rw [List.mem_singleton.mp ht]
    rfl
  · cases List.mem_singleton.mp hm
    exact ⟨trivial,fun _ _ _ => .inl (.inr fun he => by cases he),(fun he => by cases he),rfl,
      fine_strong (.inl rfl)⟩

theorem told_reach {n m : ℕ} {w : World Shared Thread}
    (h : program.Reach ownAdds (persistent n m) w) : Told false w.shared w.threads := by
  refine Program.reach_invariant (told_persistent n m) ?_ ?_ h
  · intro s ts l h hok he
    have hl : l = .add .store := of_decide_eq_true hok
    rw [hl] at he ⊢
    exact h.call rfl (fun t look hn => by cases hn) (core_call h.core he)
  · intro s xs l ys c s' l' new h hok hs
    have hj := h.joins l (by simp)
    refine h.act (step_act hs) (fun hc t g hl => ?_) fun k pc look hm ho => ⟨fun hl => ?_,fun hl => ?_⟩
    · exact pops_ok hok (by rw [hl]; exact getElem?_split xs ys _) hc
    · rw [hl] at hj
      cases hj
    · rw [hl] at hj
      cases hj

-- The event loop is blocked on an empty signal channel while a slot is free and an item waits.
structure Stuck (s : Shared) (ts : List Thread) : Prop where
  loop : ∃ k look, .worker (.loop k .select) look ∈ ts
  signal : s.core.signal = false
  active : s.core.status = .idle ∨ s.core.status = .running
  free : s.core.busyWorkers < s.core.concurrency
  item : 0 < s.src.storage

theorem Stuck.covers (h : Stuck s ts) (ht : Told r s ts) (hsole : s.src.sole = true) :
    Covers r s ts := by
  obtain ⟨k,look,hm⟩ := h.loop
  have hplace := (ht.loops k _ look hm rfl).place
  refine hplace.2 h.free ?_ hsole
  rcases h.active with he | he <;> rw [he] <;> rfl

-- No Add is between its store and its signal, and no finished batch has its signal still to send.
theorem persistent_hint_loses_no_add {n m : ℕ} {w : World Shared Thread}
    (h : program.Reach ownAdds (persistent n m) w) (hq : ∀ t ∈ w.threads, strong false t = false) :
    ¬Stuck w.shared w.threads := by
  intro hst
  have ht := told_reach h
  have hsole : w.shared.src.sole = true := by
    rcases ht.bound with hs | ⟨t,hm,he⟩
    · exact hs
    · have hj := ht.joins t hm
      rcases he with rfl | rfl <;> cases hj
  rcases (hst.covers ht hsole).stored hst.item with (hs | ⟨t,hm,ho⟩) | ⟨hr,-⟩
  · rw [hst.signal] at hs
    cases hs
  · rw [hq t hm] at ho
    cases ho
  · cases hr

-- An Add during the pop of an empty storage: its poke keeps the hint wet.
def pokeDuringPop : List (Event Thread Choice) := acts
    [.core (.signal true),.go,.core .go,.go,.go,.go,.core (.flag true),.core .go,.core .go,.core .go,
      .core .go,.core .go,.go,.pop 0] ++
  .call (.add .store) :: [.act 1 .go,.act 1 .go,.act 1 .go] ++
  acts [.go,.go,.go,.go,.go,.core (.flag false),.core .go,.core .go,.core .go,.core .go,.core .go,
    .core .go,.core .go,.go,.go,.go,.core (.flag true)]

theorem persistent_hint_loses_no_add_poked : ∃ w, program.Reach ownAdds (persistent 1 0) w ∧
    w.shared.src.storage = 1 ∧ (∀ t ∈ w.threads, strong false t = false) ∧
      ¬Stuck w.shared w.threads := by
  obtain ⟨w,hw,hp⟩ := Program.exists_reach_of_run program ownAdds (persistent 1 0) pokeDuringPop
    (fun w => w.shared.src.storage = 1 && w.threads.all fun t => !strong false t) (by decide)
  simp only [Bool.and_eq_true,decide_eq_true_eq,List.all_eq_true,Bool.not_eq_true'] at hp
  exact ⟨w,hw,hp.1,hp.2,persistent_hint_loses_no_add hw hp.2⟩

end Varmq.Credit
