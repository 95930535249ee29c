import Varmq.Registry.Held

namespace Varmq.Registry

open Interleaving

variable {W : Type} [DecidableEq W] {cfg : W → Config} {s s' : Shared W} {l l' t u : Thread W}
  {xs ys ts new : List (Thread W)} {v w : W} {m : ℕ}

-- A Start that has the name and has not taken memMx yet.
inductive Awaits (w : W) : Thread W → Prop
  | drop {old : W} {pc : DropPc} : Awaits w (.start w (.drop old pc))
  | lock : Awaits w (.start w (.list .lock))

inductive Lists (w : W) (m : ℕ) : Thread W → Prop
  | awaits {t : Thread W} (h : Awaits w t) : Lists w m t
  | load : Lists w m (.start w (.list .load))
  | range {todo : List ℕ} (h : m ∈ todo) : Lists w m (.start w (.list (.range todo)))
  | add : Lists w m (.addMemQueue w (.load m))
  | register : Lists w m (.addMemQueue w (.register m))

inductive Drops (w : W) (m : ℕ) (t : Thread W) : Prop
  | lock (h : dropAt t = some (w,.lock))
  | load (h : dropAt t = some (w,.load))
  | range {todo : List ℕ} (h : dropAt t = some (w,.range todo)) (hm : m ∈ todo)

def Deletes (w : W) (t : Thread W) : Prop := ∃ todo, dropAt t = some (w,.range todo)

structure Inv (cfg : W → Config) (s : Shared W) (ts : List (Thread W)) : Prop where
  held : Held cfg s ts
  missing : ∀ w, Mapped cfg s w → ∀ m ∈ s.memQueues w, s.queueRegistry m = false →
    ∃ t ∈ ts, Lists w m t
  ghost : ∀ w, ¬Mapped cfg s w → ∀ m ∈ s.memQueues w, s.queueRegistry m = true →
    ∃ t ∈ ts, Drops w m t
  back : ∀ t ∈ ts, ∀ w, Deletes w t → Mapped cfg s w → ∃ u ∈ ts, Awaits w u
  gone : ∀ t ∈ ts, ∀ w, Registers w t → ¬Mapped cfg s w → ∃ u ∈ ts, dropAt u = some (w,.lock)

theorem off_awaits (h : off l = true) : ¬Awaits w l := by
  intro ha
  cases ha <;> simp [off] at h

theorem off_lists (h : off l = true) : ¬Lists w m l := by
  rintro (ha | _ | _ | _ | _)
  · exact off_awaits h ha
  all_goals simp [off] at h

theorem off_drops (h : off l = true) : ¬Drops w m l := by
  rintro (hd | hd | ⟨hd,-⟩) <;> simp [off_dropAt h] at hd

theorem off_deletes (h : off l = true) : ¬Deletes w l := by
  rintro ⟨todo,hd⟩
  simp [off_dropAt h] at hd

theorem off_registers (h : off l = true) : ¬Registers w l := by
  intro hr
  cases hr <;> simp [off] at h

theorem holds_of_dropAt {pc : DropPc} (h : dropAt t = some (w,pc)) : holds w t = pc.inside := by
  unfold dropAt at h
  split at h <;> cases h <;> simp [holds]

theorem holds_of_deletes (h : Deletes w t) : holds w t = true := by
  obtain ⟨todo,hd⟩ := h
  exact holds_of_dropAt hd

theorem holds_of_registers (h : Registers w t) : holds w t = true := by
  cases h <;> simp [holds,ListPc.inside,AddPc.inside]

theorem dropAt_of_registers (h : Registers w t) : dropAt t = none := by
  cases h <;> rfl

theorem mapped_of_eq (h : s'.workerRegistry = s.workerRegistry) : Mapped cfg s' w ↔ Mapped cfg s w := by
  rw [Mapped,h,Mapped]

theorem mapped_new (hs : Act cfg s l s' l' new) (h' : Mapped cfg s' w) (h : ¬Mapped cfg s w) :
    Awaits w l' := by
  have hswap : ∀ v, Mapped cfg (swapName cfg s v) w → v = w := by
    intro v hv
    by_cases hn : (cfg w).name = (cfg v).name
    · simpa [Mapped,swapName,hn] using hv
    · exact absurd (by simpa [Mapped,swapName,Function.update_of_ne hn] using hv) h
  cases hs with
  | quiet hs => exact absurd ((mapped_of_eq hs.workerRegistry).mp h') h
  | @swap v =>
    obtain rfl := hswap v h'
    exact .lock
  | @replace v =>
    obtain rfl := hswap v h'
    exact .drop
  | @expire v =>
    refine absurd ?_ h
    by_cases hn : (cfg w).name = (cfg v).name
    · simp [Mapped,hn] at h'
    · simpa [Mapped,Function.update_of_ne hn] using h'
  | drop _ hd => exact absurd (by cases hd <;> exact h') h
  | list hd => exact absurd (by cases hd <;> exact h') h
  | add hd => exact absurd (by cases hd <;> exact h') h

theorem mapped_lost (hs : Act cfg s l s' l' new) (h : Mapped cfg s w) (h' : ¬Mapped cfg s' w) :
    dropAt l' = some (w,.lock) := by
  cases hs with
  | quiet hs => exact absurd ((mapped_of_eq hs.workerRegistry).mpr h) h'
  | @swap v hr =>
    by_cases hn : (cfg w).name = (cfg v).name
    · obtain rfl := hr w (by rwa [← hn])
      exact absurd (by simp [Mapped,swapName]) h'
    · exact absurd (by simpa [Mapped,swapName,Function.update_of_ne hn] using h) h'
  | @replace v old hr hne =>
    by_cases hn : (cfg w).name = (cfg v).name
    · have ho : old = w := Option.some.inj (hr.symm.trans (by rw [← hn]; exact h))
      rw [ho]
      rfl
    · exact absurd (by simpa [Mapped,swapName,Function.update_of_ne hn] using h) h'
  | @expire v hr =>
    by_cases hn : (cfg w).name = (cfg v).name
    · have hv : v = w := Option.some.inj (hr.symm.trans (by rw [← hn]; exact h))
      rw [hv]
      rfl
    · exact absurd (by simpa [Mapped,Function.update_of_ne hn] using h) h'
  | drop _ hd => exact absurd (by cases hd <;> exact h) h'
  | list hd => exact absurd (by cases hd <;> exact h) h'
  | add hd => exact absurd (by cases hd <;> exact h) h'

theorem awaits_step (hs : Act cfg s l s' l' new) (ha : Awaits w l) :
    Awaits w l' ∨ s.memMx w = false := by
  cases ha with
  | drop =>
    left
    generalize hl : Thread.start w (.drop _ _) = l at hs
    cases hs with
    | quiet _ hoff =>
      subst hl
      simp [off] at hoff
    | @drop v f after pc pc' s' hf hd =>
      cases hf with
      | start u =>
        cases hl
        cases pc' with
        | none => exact .lock
        | some pc' => exact .drop
      | _ => cases hl
    | _ => cases hl
  | lock =>
    right
    generalize hl : Thread.start w (.list .lock) = l at hs
    cases hs with
    | quiet _ hoff =>
      subst hl
      simp [off] at hoff
    | drop hf => cases hf <;> cases hl
    | list hd =>
      cases hl
      cases hd
      assumption
    | _ => cases hl

theorem lists_step (hs : Act cfg s l s' l' new) (hq : m ∈ s.memQueues w) (hl : Lists w m l) :
    Lists w m l' ∨ s'.queueRegistry m = true ∨ ¬Mapped cfg s' w := by
  cases hs with
  | quiet _ hoff => exact absurd hl (off_lists hoff)
  | @drop v f after pc pc' s' hf hd =>
    left
    cases hf with
    | start u =>
      have hu : u = w := by
        cases hl with
        | awaits ha =>
          cases ha
          rfl
      subst hu
      cases pc' with
      | none => exact .awaits .lock
      | some pc' => exact .awaits .drop
    | _ =>
      cases hl with
      | awaits ha => cases ha
  | list hd =>
    cases hd with
    | lock =>
      cases hl with
      | awaits ha =>
        cases ha
        exact .inl .load
    | late hr =>
      cases hl with
      | awaits ha => cases ha
      | load => exact .inr (.inr hr)
    | load =>
      cases hl with
      | awaits ha => cases ha
      | load => exact .inl (.range hq)
    | @visit todo n =>
      cases hl with
      | awaits ha => cases ha
      | range hm =>
        by_cases hn : m = n
        · subst hn
          exact .inr (.inl (by simp [registerQueue]))
        · exact .inl (.range ((List.mem_erase_of_ne hn).mpr hm))
    | last =>
      cases hl with
      | awaits ha => cases ha
      | range hm => cases hm
    | unlock =>
      cases hl with
      | awaits ha => cases ha
  | add hd =>
    cases hl with
    | awaits ha => cases ha
    | add =>
      cases hd with
      | load => exact .inl .register
      | late hr => exact .inr (.inr hr)
    | register =>
      cases hd
      exact .inr (.inl (by simp [registerQueue]))
  | _ =>
    cases hl with
    | awaits ha => cases ha

theorem drops_step (hs : Act cfg s l s' l' new) (hq : m ∈ s.memQueues w) (hl : Drops w m l) :
    Drops w m l' ∨ s'.queueRegistry m = false ∨ Mapped cfg s' w := by
  cases hs with
  | quiet _ hoff => exact absurd hl (off_drops hoff)
  | @drop v f after pc pc' s' hf hd =>
    cases hl with
    | lock h =>
      rw [hf.dropAt] at h
      cases h
      cases hd
      exact .inl (.load (hf.dropAt _))
    | load h =>
      rw [hf.dropAt] at h
      cases h
      cases hd with
      | late hr => exact .inr (.inr hr)
      | load => exact .inl (.range (hf.dropAt _) hq)
    | @range todo h hm =>
      rw [hf.dropAt] at h
      cases h
      cases hd with
      | @visit _ n =>
        by_cases hn : m = n
        · subst hn
          exact .inr (.inl (by simp [unregisterQueue]))
        · exact .inl (.range (hf.dropAt _) ((List.mem_erase_of_ne hn).mpr hm))
      | last => cases hm
  | _ => rcases hl with h | h | ⟨h,-⟩ <;> cases h

theorem deletes_step (hs : Act cfg s l s' l' new) (hd' : Deletes w l') :
    Deletes w l ∨ ¬Mapped cfg s w := by
  obtain ⟨todo,h⟩ := hd'
  cases hs with
  | quiet _ _ hoff => exact absurd ⟨todo,h⟩ (off_deletes hoff)
  | @drop v f after pc pc' s' hf hd =>
    cases pc' with
    | none =>
      rw [Option.elim_none,hf.dropAt_after] at h
      cases h
    | some pc' =>
      rw [Option.elim_some,hf.dropAt] at h
      cases h
      cases hd with
      | load hr => exact .inr hr
      | visit => exact .inl ⟨_,hf.dropAt _⟩
  | @list v pc pc' s' hd => cases pc' <;> cases h
  | _ => cases h

theorem registers_step (hs : Act cfg s l s' l' new) (hr' : Registers w l') :
    Registers w l ∨ Mapped cfg s w := by
  cases hs with
  | quiet _ _ hoff => exact absurd hr' (off_registers hoff)
  | @drop v f after pc pc' s' hf hd => cases pc' <;> cases hf <;> cases hr'
  | @list v pc pc' s' hd =>
    cases hd with
    | load hr =>
      cases hr'
      exact .inr hr
    | visit =>
      cases hr'
      exact .inl .range
    | _ => cases hr'
  | add hd =>
    cases hr'
    cases hd with
    | load hr => exact .inr hr
  | _ => cases hr'

theorem lock_step (hs : Act cfg s l s' l' new) (hl : dropAt l = some (w,.lock)) :
    s.memMx w = false := by
  cases hs with
  | quiet _ hoff =>
    rw [off_dropAt hoff] at hl
    cases hl
  | drop hf hd =>
    rw [hf.dropAt] at hl
    cases hl
    cases hd
    assumption
  | _ => cases hl

theorem act_deletes (hs : Act cfg s l s' l' new) (h : s.queueRegistry m = true)
    (h' : s'.queueRegistry m = false) : ∃ v, Deletes v l ∧ Touches v m l := by
  cases hs with
  | quiet hs => simp [hs.queueRegistry,h] at h'
  | @drop v f after pc pc' s' hf hd =>
    cases hd with
    | @visit todo n hn =>
      by_cases hm : m = n
      · subst hm
        exact ⟨v,⟨_,hf.dropAt _⟩,.inl ⟨_,hf.dropAt _,hn⟩⟩
      · simp [unregisterQueue,Function.update_of_ne hm,h] at h'
    | _ => exact absurd (h.symm.trans h') (by simp)
  | list hd =>
    cases hd with
    | @visit todo n =>
      by_cases hm : m = n
      · simp [registerQueue,hm] at h'
      · simp [registerQueue,Function.update_of_ne hm,h] at h'
    | _ => exact absurd (h.symm.trans h') (by simp)
  | add hd =>
    cases hd with
    | @register n =>
      by_cases hm : m = n
      · simp [registerQueue,hm] at h'
      · simp [registerQueue,Function.update_of_ne hm,h] at h'
    | _ => exact absurd (h.symm.trans h') (by simp)
  | _ => exact absurd (h.symm.trans h') (by simp)

theorem stored_lists (hs : Act cfg s (.addMemQueue w (.store m)) s' l' new) : Lists w m l' := by
  generalize hl : Thread.addMemQueue w (.store m) = l at hs
  cases hs with
  | quiet _ hoff =>
    subst hl
    simp [off] at hoff
  | drop hf => cases hf <;> cases hl
  | add hd =>
    cases hl
    cases hd
    exact .add
  | _ => cases hl

theorem Inv.missing_step (h : Inv cfg s (xs ++ l :: ys)) (hs : Act cfg s l s' l' new) (w : W)
    (hw : Mapped cfg s' w) (m : ℕ) (hm : m ∈ s'.memQueues w) (hq : s'.queueRegistry m = false) :
    ∃ t ∈ xs ++ l' :: (ys ++ new), Lists w m t := by
  have hk : Keeps s s' l l' := act_keeps hs fun w hw => h.held.mem_locked (by simp) hw
  by_cases hw₀ : Mapped cfg s w
  case neg => exact ⟨l',by simp,.awaits (mapped_new hs hw hw₀)⟩
  rcases hk.stored w m hm with hm | rfl
  case inr => exact ⟨l',by simp,stored_lists hs⟩
  cases hq₀ : s.queueRegistry m with
  | false =>
    refine exists_act (h.missing w hw₀ m hm hq₀) fun hl => ?_
    rcases lists_step hs hm hl with h1 | h1 | h1
    · exact h1
    · simp [hq] at h1
    · exact absurd hw h1
  | true =>
    obtain ⟨v,hd,ht⟩ := act_deletes hs hq₀ hq
    obtain rfl := h.held.owner v w m (h.held.own l (by simp) v m ht) hm
    have hawait : ∃ u ∈ xs ++ l' :: (ys ++ new), Awaits v u := by
      refine exists_act (h.back l (by simp) v hd hw₀) fun ha => ?_
      rcases awaits_step hs ha with h1 | h1
      · exact h1
      · have := h.held.mem_locked (by simp) (holds_of_deletes hd)
        simp [h1] at this
    obtain ⟨u,hu,ha⟩ := hawait
    exact ⟨u,hu,.awaits ha⟩

theorem Inv.ghost_step (h : Inv cfg s (xs ++ l :: ys)) (hs : Act cfg s l s' l' new) (w : W)
    (hw : ¬Mapped cfg s' w) (m : ℕ) (hm : m ∈ s'.memQueues w) (hq : s'.queueRegistry m = true) :
    ∃ t ∈ xs ++ l' :: (ys ++ new), Drops w m t := by
  have hk : Keeps s s' l l' := act_keeps hs fun w hw => h.held.mem_locked (by simp) hw
  by_cases hw₀ : Mapped cfg s w
  case pos => exact ⟨l',by simp,.lock (mapped_lost hs hw₀ hw)⟩
  rcases act_registers hs hq with hq₀ | ⟨v,ht,hr⟩
  · rcases hk.stored w m hm with hm | rfl
    · refine exists_act (h.ghost w hw₀ m hm hq₀) fun hl => ?_
      rcases drops_step hs hm hl with h1 | h1 | h1
      · exact h1
      · simp [hq] at h1
      · exact absurd h1 hw
    · obtain ⟨v,hv⟩ := h.held.known m hq₀
      exact absurd hv ((h.held.fresh (.addMemQueue w (.store m)) (by simp) m (by simp [drawn])).2 v)
  · have hm₀ := h.held.own l (by simp) v m ht
    obtain rfl : v = w := by
      rcases hk.stored w m hm with hm | rfl
      · exact h.held.owner v w m hm₀ hm
      · cases hr
    have hdrop : ∃ u ∈ xs ++ l' :: (ys ++ new), dropAt u = some (v,.lock) := by
      refine exists_act (h.gone l (by simp) v hr hw₀) fun hd => ?_
      rw [dropAt_of_registers hr] at hd
      cases hd
    obtain ⟨u,hu,hd⟩ := hdrop
    exact ⟨u,hu,.lock hd⟩

theorem Inv.back_step (h : Inv cfg s (xs ++ l :: ys)) (hs : Act cfg s l s' l' new) :
    ∀ t ∈ xs ++ l' :: (ys ++ new), ∀ w, Deletes w t → Mapped cfg s' w →
      ∃ u ∈ xs ++ l' :: (ys ++ new), Awaits w u := by
  have hkeep : ∀ t ∈ xs ++ l :: ys, ∀ w, Deletes w t → Mapped cfg s w →
      ∃ u ∈ xs ++ l' :: (ys ++ new), Awaits w u := by
    intro t ht w hd hw
    refine exists_act (h.back t ht w hd hw) fun ha => ?_
    rcases awaits_step hs ha with h1 | h1
    · exact h1
    · have := h.held.mem_locked ht (holds_of_deletes hd)
      simp [h1] at this
  have hnew : ∀ w, Mapped cfg s' w → ¬Mapped cfg s w → ∃ u ∈ xs ++ l' :: (ys ++ new), Awaits w u :=
    fun w h1 h2 => ⟨l',by simp,mapped_new hs h1 h2⟩
  refine forall_act (fun t ht w hd hw => ?_) (fun w hd hw => ?_) fun t ht w hd => ?_
  · by_cases hw₀ : Mapped cfg s w
    · exact hkeep t (mem_of_other ht) w hd hw₀
    · exact hnew w hw hw₀
  · by_cases hw₀ : Mapped cfg s w
    · rcases deletes_step hs hd with h1 | h1
      · exact hkeep l (by simp) w h1 hw₀
      · exact absurd hw₀ h1
    · exact hnew w hw hw₀
  · exact absurd hd (off_deletes (act_new hs t ht))

theorem Inv.gone_step (h : Inv cfg s (xs ++ l :: ys)) (hs : Act cfg s l s' l' new) :
    ∀ t ∈ xs ++ l' :: (ys ++ new), ∀ w, Registers w t → ¬Mapped cfg s' w →
      ∃ u ∈ xs ++ l' :: (ys ++ new), dropAt u = some (w,.lock) := by
  have hkeep : ∀ t ∈ xs ++ l :: ys, ∀ w, Registers w t → ¬Mapped cfg s w →
      ∃ u ∈ xs ++ l' :: (ys ++ new), dropAt u = some (w,.lock) := by
    intro t ht w hr hw
    refine exists_act (h.gone t ht w hr hw) fun hd => ?_
    have := h.held.mem_locked ht (holds_of_registers hr)
    simp [lock_step hs hd] at this
  have hlost : ∀ w, ¬Mapped cfg s' w → Mapped cfg s w →
      ∃ u ∈ xs ++ l' :: (ys ++ new), dropAt u = some (w,.lock) :=
    fun w h1 h2 => ⟨l',by simp,mapped_lost hs h2 h1⟩
  refine forall_act (fun t ht w hr hw => ?_) (fun w hr hw => ?_) fun t ht w hr => ?_
  · by_cases hw₀ : Mapped cfg s w
    · exact hlost w hw hw₀
    · exact hkeep t (mem_of_other ht) w hr hw₀
  · by_cases hw₀ : Mapped cfg s w
    · exact hlost w hw hw₀
    · rcases registers_step hs hr with h1 | h1
      · exact hkeep l (by simp) w h1 hw₀
      · exact absurd h1 hw₀
  · exact absurd hr (off_registers (act_new hs t ht))

theorem Inv.act (h : Inv cfg s (xs ++ l :: ys)) (hs : Act cfg s l s' l' new) :
    Inv cfg s' (xs ++ l' :: (ys ++ new)) :=
  ⟨h.held.act hs,h.missing_step hs,h.ghost_step hs,h.back_step hs,h.gone_step hs⟩

theorem exists_call {p : Thread W → Prop} (h : ∃ t ∈ ts, p t) : ∃ t ∈ ts ++ [l], p t :=
  h.imp fun _ h => ⟨List.mem_append_left _ h.1,h.2⟩

theorem Inv.call (h : Inv cfg s ts) (ha : Arrives l) : Inv cfg s (ts ++ [l]) where
  held := h.held.call ha
  missing w hw m hm hq := exists_call (h.missing w hw m hm hq)
  ghost w hw m hm hq := exists_call (h.ghost w hw m hm hq)
  back := forall_call (fun t ht w hd hw => exists_call (h.back t ht w hd hw))
    fun w ⟨todo,hd⟩ => absurd hd (ha.range w todo)
  gone := forall_call (fun t ht w hr hw => exists_call (h.gone t ht w hr hw)) fun w hr => by
    cases hr with
    | range => exact absurd rfl (ha.list w _)
    | add => exact absurd rfl (ha.register w _)

theorem inv_new : Inv cfg (newWorkers (W := W)).shared (newWorkers (W := W)).threads where
  held := held_new
  missing _ h := by cases h
  ghost _ _ _ h := by cases h
  back _ h := by cases h
  gone _ h := by cases h

theorem inv_reach {wd : World (Shared W) (Thread W)} (h : (program cfg).Reach always newWorkers wd) :
    Inv cfg wd.shared wd.threads :=
  Program.reach_invariant inv_new (fun s _ _ hi _ he => hi.call (@entry_arrives _ _ s _ he))
    (fun _ _ _ _ _ _ _ _ hi _ hs => hi.act (step_act hs)) h

theorem in_progress_of_lists (h : Lists w m t) : inProgress t = true := by
  rcases h with ha | _ | _ | _ | _
  · cases ha <;> rfl
  all_goals rfl

theorem in_progress_of_drops (h : Drops w m t) : inProgress t = true := by
  have hd : ∀ pc, dropAt t = some (w,pc) → inProgress t = true := by
    intro pc hd
    unfold dropAt at hd
    split at hd <;> first | rfl | cases hd
  rcases h with h | h | ⟨h,-⟩ <;> exact hd _ h

theorem listed_with_its_worker {wd : World (Shared W) (Thread W)}
    (h : (program cfg).Reach always newWorkers wd) (hq : ∀ t ∈ wd.threads, inProgress t = false)
    (w : W) (m : ℕ) (hm : m ∈ wd.shared.memQueues w) :
    wd.shared.queueRegistry m = true ↔
      (cfg w).name ≠ "" ∧ wd.shared.workerRegistry (cfg w).name = some w := by
  have hi := inv_reach h
  constructor
  · intro hl
    by_cases hw : Mapped cfg wd.shared w
    · exact ⟨(hi.held.names _ w hw).2,hw⟩
    · obtain ⟨t,ht,hd⟩ := hi.ghost w hw m hm hl
      have := in_progress_of_drops hd
      simp [hq t ht] at this
  · rintro ⟨-,hw⟩
    cases hl : wd.shared.queueRegistry m with
    | true => rfl
    | false =>
      obtain ⟨t,ht,hd⟩ := hi.missing w hw m hm hl
      have := in_progress_of_lists hd
      simp [hq t ht] at this

def goes (i n : ℕ) : List (Event (Thread W) Choice) := List.replicate n (.act i .go)

def sharing : Bool → Config := fun _ => ⟨"orders",1⟩

-- The second worker takes the name over from the first, and both have a queue.
def takeover : List (Event (Thread Bool) Choice) :=
  .call (.start false .lock) :: goes 0 12 ++ .call (.addMemQueue false .seq) :: goes 2 6 ++
    .call (.start true .lock) :: goes 3 7 ++ .act 3 (.visit 1) :: goes 3 9 ++
    .call (.addMemQueue true .seq) :: goes 5 6

theorem listed_with_its_worker_takeover :
    ∃ wd, (program sharing).Reach always newWorkers wd ∧
      (∀ t ∈ wd.threads, inProgress t = false) ∧
      wd.shared.workerRegistry "orders" = some true ∧
      wd.shared.queueRegistry 1 = false ∧ wd.shared.queueRegistry 2 = true := by
  obtain ⟨wd,hr,hp⟩ := Program.exists_reach_of_run (program sharing) always newWorkers takeover
    (fun wd => wd.threads.all (fun t => !inProgress t) && wd.shared.memQueues false = [1] &&
      wd.shared.memQueues true = [2] && wd.shared.workerRegistry "orders" = some true)
    (by decide +kernel)
  simp only [Bool.and_eq_true,decide_eq_true_eq,List.all_eq_true,Bool.not_eq_true'] at hp
  obtain ⟨⟨⟨hq,ha⟩,hb⟩,hn⟩ := hp
  have hone := listed_with_its_worker hr hq false 1 (by simp [ha])
  have htwo := listed_with_its_worker hr hq true 2 (by simp [hb])
  simp only [sharing,hn] at hone htwo
  refine ⟨wd,hr,hq,hn,?_,?_⟩
  · simpa using hone
  · simpa using htwo

end Varmq.Registry
