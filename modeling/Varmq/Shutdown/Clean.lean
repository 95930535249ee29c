import Varmq.Shutdown.Nodes

namespace Varmq.Shutdown

open Interleaving
open Varmq.Worker (Status)
open Varmq.Lifecycle (LoopPc BatchPc StartPc RestartPc weights busyOf)
open Varmq.Wakeup (Config)

variable {cfg : Config} {s s' : Shared} {l l' : Thread} {c : Choice} {new xs ys ts : List Thread}

def proj : Thread → Lifecycle.Thread
  | .call t _ => t
  | _ => .notify false

structure Untouched (s s' : Lifecycle.Shared) : Prop where
  status : s'.status = s.status
  curProcessing : s'.curProcessing = s.curProcessing
  busyWorkers : s'.busyWorkers = s.busyWorkers
  mx : s'.mx = s.mx

theorem popBack_core {h : Hand} (hs : popBack s = some (s',h)) : s'.core = s.core := by
  unfold popBack at hs
  split at hs
  · cases hs
  · split at hs <;> cases hs <;> rfl

theorem initPoolNode_core {o : Option ℕ} {h : Hand} (hs : initPoolNode s o = some (s',h)) :
    s'.core = s.core ∧ s'.idle = s.idle := by
  cases o with
  | none =>
    cases hs
    exact ⟨rfl,rfl⟩
  | some id =>
    simp only [initPoolNode] at hs
    split at hs <;> cases hs
    exact ⟨rfl,rfl⟩

theorem hand_core {p : Point} {h h' : Hand} (hs : handStep cfg s p h c = some (s',h')) :
    s'.core = s.core := by
  unfold handStep at hs
  split at hs
  case h_1 =>
    split at hs
    case h_4 => cases hs
    all_goals exact popBack_core hs
  case h_2 =>
    split at hs
    · exact (initPoolNode_core hs).1
    · cases hs
  case h_3 =>
    split at hs
    · exact (initPoolNode_core hs).1
    · cases hs
  case h_5 => split at hs <;> cases hs <;> rfl
  case h_6 =>
    split at hs <;> cases hs
    rfl
  all_goals
    cases hs
    try rfl

theorem tunePool_core {pc pc' : TunePc} (hs : tunePoolStep cfg s pc = some (s',pc')) :
    Untouched s.core s'.core := by
  cases pc with
  | popBack shrink m =>
    simp only [tunePoolStep] at hs
    split at hs
    · cases hs
    · split at hs <;> cases hs <;> exact ⟨rfl,rfl,rfl,rfl⟩
  | returned r => cases hs
  | _ =>
    cases hs
    exact ⟨rfl,rfl,rfl,rfl⟩

theorem prune_core {pc pc' : PrunePc} (hs : pruneStep cfg s pc c = some (s',pc')) :
    s'.core = s.core := by
  unfold pruneStep at hs
  split at hs
  case h_3 =>
    split at hs <;> cases hs
    rfl
  all_goals
    cases hs
    try rfl

theorem step_core (hs : step cfg s l c = some (s',l',new)) :
    (∃ c', Lifecycle.step s.core (proj l) c' = some (s'.core,proj l',new.map proj)) ∨
    (Untouched s.core s'.core ∧ proj l' = proj l ∧ new = []) := by
  cases step_act hs with
  | @call c core t t' h h' ls _ hp =>
    refine .inl ⟨c,?_⟩
    simp only [proj,List.map_map,hp]
    congr 3
    exact (List.map_id' _).symm
  | hand hh => exact .inr ⟨by rw [hand_core hh]; exact ⟨rfl,rfl,rfl,rfl⟩,rfl,rfl⟩
  | tunePool hp => exact .inr ⟨tunePool_core hp,rfl,rfl⟩
  | prune hp => exact .inr ⟨by rw [prune_core hp]; exact ⟨rfl,rfl,rfl,rfl⟩,rfl,rfl⟩

-- The worker of the model: its invariants, and the exact count of busy nodes.
structure Sound (s : Shared) (ts : List Thread) : Prop where
  inv : Lifecycle.Inv s.core (ts.map proj)
  fresh : Lifecycle.Fresh (ts.map proj)
  busy : s.core.busyWorkers = total busyOf (ts.map proj)

theorem sound_act (h : Sound s (xs ++ l :: ys)) (hs : step cfg s l c = some (s',l',new)) :
    Sound s' (xs ++ l' :: (ys ++ new)) := by
  obtain ⟨hi,hf,hb⟩ := h
  simp only [List.map_append,List.map_cons] at hi hf hb
  rcases step_core hs with ⟨c',hp⟩ | ⟨hu,hl,rfl⟩
  · refine ⟨?_,?_,?_⟩
    · simp only [List.map_append,List.map_cons]
      exact Lifecycle.inv_act hi hp
    · simp only [List.map_append,List.map_cons]
      exact Lifecycle.fresh_act hi hf hp
    · simp only [List.map_append,List.map_cons]
      rw [total_split] at hb
      rw [total_act]
      have := (Lifecycle.step_counts hp).busy _ hb
      omega
  · rw [List.append_nil]
    refine ⟨⟨?_,?_⟩,?_,?_⟩
    all_goals simp only [List.map_append,List.map_cons,hl]
    · exact hi.balanced.frame hu.status hu.curProcessing hu.mx
    · exact hi.sized
    · exact hf
    · rw [hu.busyWorkers]
      exact hb

def Fits : Thread → Prop
  | .call t h => fits t h = true
  | _ => True

theorem step_fits (h : Fits l) (hs : step cfg s l c = some (s',l',new)) :
    Fits l' ∧ ∀ t ∈ new, Fits t := by
  cases step_act hs with
  | call ha hp =>
    obtain ⟨h1,h2⟩ := fits_core h ha hp
    refine ⟨h1,fun t ht => ?_⟩
    obtain ⟨u,hu,rfl⟩ := List.mem_map.mp ht
    exact h2 u hu
  | hand hh => exact ⟨fits_hand h hh,by simp⟩
  | tunePool hp => exact ⟨trivial,by simp⟩
  | prune hp => exact ⟨trivial,by simp⟩

theorem total_passed {f : Thread → ℕ} {h : Hand} (hf : ∀ u, f (.call u h) = 0)
    (ls : List Lifecycle.Thread) : total f (ls.map fun u => .call u h) = 0 := by
  rw [total_eq_zero]
  intro t ht
  obtain ⟨u,-,rfl⟩ := List.mem_map.mp ht
  exact hf u

theorem step_moves (h : Scanning s l) (hs : step cfg s l c = some (s',l',new)) (id : ℕ) :
    s'.spawned.count id + (s.stops.count id + s.idle.count id + owns id l) =
      s.spawned.count id + (s'.stops.count id + s'.idle.count id + (owns id l' + total (owns id) new)) := by
  cases step_act hs with
  | @call c core t t' g g' ls ha hp =>
    simp only [owns,owned]
    rcases advance_held ha with ⟨hsend,rfl,i,rfl⟩ | ⟨hsend,hheld,-⟩
    · obtain ⟨u,rfl⟩ := send_spawns hsend hp
      simp [passed,hsend,owns,owned,Hand.held]
    · have hz : total (owns id) (ls.map fun u => .call u (passed (point t) g)) = 0 :=
        total_passed (fun u => by simp [passed,hsend,owns,owned,Hand.held]) ls
      rw [hheld,hz,Nat.add_zero]
  | hand hh => exact hand_moves hh id
  | tunePool hp => exact tunePool_moves hp id
  | prune hp => exact (prune_moves hp h).1 id

theorem popping_hand {t t' : Lifecycle.Thread} {h : Hand} :
    popping (.call t h) = popping (.call t' h) := by
  cases h <;> rfl

theorem step_locks (hs : step cfg s l c = some (s',l',new)) :
    Locks s s' (popping l) (popping l') ∧ total popping new = 0 := by
  cases step_act hs with
  | @call c core t t' h h' ls ha hp =>
    have hpass : total popping (ls.map fun u => .call u (passed (point t) h)) = 0 := by
      refine total_passed (fun u => ?_) ls
      rcases advance_held ha with ⟨hsend,-,i,rfl⟩ | ⟨hsend,-⟩
      · simp [passed,hsend,popping]
      · simp [passed,hsend,popping]
    refine ⟨.off ?_ rfl rfl,hpass⟩
    rcases advance_held ha with ⟨-,rfl,i,rfl⟩ | ⟨-,-,rfl | ⟨rfl,rfl | rfl⟩⟩
    · rfl
    · exact popping_hand
    · rfl
    · rfl
  | hand hh => exact ⟨hand_locks hh,rfl⟩
  | tunePool hp => exact ⟨tunePool_locks hp,rfl⟩
  | prune hp => exact ⟨prune_locks hp,rfl⟩

structure Pooled (s : Shared) (ts : List Thread) : Prop where
  fitting : ∀ t ∈ ts, Fits t
  accounted : Accounted s ts
  remover : total popping ts = if s.popMx then 1 else 0
  scanning : ∀ t ∈ ts, Scanning s t

theorem scanning_other {u : Thread} (h : Pooled s (xs ++ l :: ys)) (hu : u ∈ xs ++ ys)
    (hs : step cfg s l c = some (s',l',new)) : Scanning s' u := by
  have hold := h.scanning u (mem_of_other hu)
  have hl := (step_locks hs).1
  have hr := h.remover
  rw [total_split] at hr
  have hle := le_total (f := popping) hu
  have hkept : popping u = 1 → ∀ id, s.idle.count id ≤ s'.idle.count id := by
    intro hp
    have hmx : s.popMx = true := by
      split at hr
      · assumption
      · omega
    rw [if_pos hmx] at hr
    exact hl.kept (by omega) hmx
  cases u with
  | prune pc =>
    cases pc with
    | scan todo dropped => exact fun id => Nat.le_trans (hold id) (hkept rfl id)
    | scanLen todo dropped => exact fun id => Nat.le_trans (hold id) (hkept rfl id)
    | _ => trivial
  | _ => trivial

theorem scanning_own (h : Scanning s l) (hs : step cfg s l c = some (s',l',new)) :
    Scanning s' l' ∧ ∀ t ∈ new, Scanning s' t := by
  cases step_act hs with
  | call ha hp =>
    refine ⟨trivial,fun t ht => ?_⟩
    obtain ⟨u,-,rfl⟩ := List.mem_map.mp ht
    trivial
  | hand hh => exact ⟨trivial,by simp⟩
  | tunePool hp => exact ⟨trivial,by simp⟩
  | prune hp => exact ⟨(prune_moves hp h).2,by simp⟩

theorem pooled_act (h : Pooled s (xs ++ l :: ys)) (hs : step cfg s l c = some (s',l',new)) :
    Pooled s' (xs ++ l' :: (ys ++ new)) := by
  have hscan := h.scanning l (by simp)
  obtain ⟨hfit,hfits⟩ := step_fits (h.fitting l (by simp)) hs
  obtain ⟨hown,hnew⟩ := scanning_own hscan hs
  refine ⟨forall_act (fun t ht => h.fitting t (mem_of_other ht)) hfit hfits,fun id => ?_,?_,
    forall_act (fun t ht => scanning_other h ht hs) hown hnew⟩
  · have h1 := h.accounted id
    have h2 := step_moves hscan hs id
    rw [total_split] at h1
    rw [total_act]
    omega
  · obtain ⟨hl,hz⟩ := step_locks hs
    have hr := h.remover
    rw [total_split] at hr
    rw [total_act,hz]
    rcases hl.popMx with ⟨h1,h2⟩ | ⟨h1,h2,h3,h4⟩ | ⟨h1,h2,h3⟩
    · rw [h1,h2]
      exact hr
    · rw [h3] at hr
      rw [h4,h2]
      simp only [Bool.false_eq_true,if_false,if_true] at hr ⊢
      omega
    · rw [h3,h2]
      simp only [Bool.false_eq_true,if_false]
      split at hr <;> omega

-- The event loop has found the pool empty and not stored stopped yet.
def cleared : Thread → Bool
  | .call (.loop _ .removeAll) .missed => true
  | .call (.loop _ .stopLock) _ | .call (.loop _ .stopStore) _ => true
  | _ => false

-- A Start has spawned the first node of the new run and not stored idle yet.
def starting : Thread → Bool
  | .call (.start .push) h | .call (.restart (.start .push)) h => h ≠ .empty
  | .call (.start .store) _ | .call (.restart (.start .store)) _ => true
  | _ => false

theorem hand_idle {p : Point} {h h' : Hand} (hs : handStep cfg s p h c = some (s',h'))
    (hi : s.idle = []) : s'.idle = [] ∨ ∃ id, h = .counted id := by
  unfold handStep at hs
  split at hs
  case h_1 =>
    have hb : popBack s = some (s',h') → s'.idle = [] := by
      intro hb
      simp only [popBack,hi] at hb
      split at hb <;> cases hb
      exact hi
    split at hs
    case h_4 => cases hs
    all_goals exact .inl (hb hs)
  case h_2 =>
    split at hs
    · exact .inl ((initPoolNode_core hs).2.trans hi)
    · cases hs
  case h_3 =>
    split at hs
    · exact .inl ((initPoolNode_core hs).2.trans hi)
    · cases hs
  case h_5 => split at hs <;> cases hs <;> exact .inl hi
  case h_6 =>
    split at hs <;> cases hs
    exact .inl hi
  case h_11 => exact .inr ⟨_,rfl⟩
  case h_14 => cases hs
  all_goals
    cases hs
    exact .inl hi

theorem step_idle (hs : step cfg s l c = some (s',l',new)) (hi : s.idle = []) :
    s'.idle = [] ∨ ∃ t id, l = .call t (.counted id) := by
  cases step_act hs with
  | call ha hp => exact .inl hi
  | hand hh =>
    rcases hand_idle hh hi with h | ⟨id,rfl⟩
    · exact .inl h
    · exact .inr ⟨_,id,rfl⟩
  | @tunePool s' pc pc' hp =>
    left
    cases pc with
    | popBack shrink m =>
      simp only [tunePoolStep,hi] at hp
      split at hp <;> cases hp
      exact hi
    | returned r => cases hp
    | _ =>
      cases hp
      exact hi
  | @prune c s' pc pc' hp =>
    left
    unfold pruneStep at hp
    split at hp
    case h_3 =>
      split at hp <;> cases hp
      exact hi
    case h_5 =>
      cases hp
      simp [hi]
    case h_11 => cases hp
    all_goals
      cases hp
      exact hi

-- Who puts a node into the pool.
theorem counted_at {t : Lifecycle.Thread} {id : ℕ} (hz : Lifecycle.Sized t)
    (hf : fits t (.counted id) = true) :
    (∃ k n cont, t = .loop k (.giveBack n cont)) ∨ (0 < (weights t).passed ∧ 0 < (weights t).reserved) ∨
      (0 < (weights t).launched ∧ starting (.call t (.counted id)) = true) := by
  unfold fits at hf
  split at hf
  all_goals rename_i hp
  · split at hf <;> cases hf
  all_goals try cases hf
  · unfold point at hp
    split at hp <;> cases hp
    exact .inl ⟨_,_,_,rfl⟩
  · unfold point at hp
    split at hp <;> cases hp
    exact .inr (.inl ⟨hz,hz⟩)
  · unfold point at hp
    split at hp <;> cases hp <;> exact .inr (.inr ⟨Nat.one_pos,rfl⟩)

structure Cleared (s : Shared) (ts : List Thread) : Prop where
  sound : Sound s ts
  pooled : Pooled s ts
  ending : ∀ t ∈ ts, cleared t = true → s.idle = []
  ended : s.core.status = .stopped → (∀ t ∈ ts, starting t = false) → s.idle = []

theorem loop_of_cleared {t : Thread} (h : cleared t = true) :
    ∃ k pc, proj t = .loop k pc ∧ (pc = .removeAll ∨ pc = .stopLock ∨ pc = .stopStore) := by
  unfold cleared at h
  split at h
  · exact ⟨_,_,rfl,.inl rfl⟩
  · exact ⟨_,_,rfl,.inr (.inl rfl)⟩
  · exact ⟨_,_,rfl,.inr (.inr rfl)⟩
  · cases h

-- Nobody pushes while the loop shuts down.
theorem no_push_ending {t : Lifecycle.Thread} {u : Thread} {id : ℕ}
    (h : Cleared s (xs ++ .call t (.counted id) :: ys)) (hu : u ∈ xs ++ ys)
    (hc : cleared u = true) : False := by
  have hb := h.sound.inv.balanced
  have ht : Thread.call t (.counted id) ∈ xs ++ .call t (.counted id) :: ys := by simp
  have hself : weights (proj (.call t (.counted id))) = weights t := rfl
  obtain ⟨k,pc,hpu,hpc⟩ := loop_of_cleared hc
  have hshut : 0 < (weights (proj u)).shut ∧ (weights (proj u)).live = 1 := by
    rw [hpu]
    rcases hpc with rfl | rfl | rfl <;> exact ⟨Nat.one_pos,rfl⟩
  have hsum := Lifecycle.le_sum Lifecycle.Weights.shut rfl (fun _ _ => rfl)
    (List.mem_map_of_mem (f := proj) (mem_of_other (l := .call t (.counted id)) hu))
  have hres := hb.shut (by omega)
  rcases counted_at (h.sound.inv.sized t (List.mem_map_of_mem (f := proj) ht)) (h.pooled.fitting _ ht)
    with ⟨k₁,n,cont,rfl⟩ | ⟨-,hr⟩ | ⟨hl,-⟩
  · have hone := hb.oneLoop
    rw [List.map_append,List.map_cons,Lifecycle.sum_live,total_split,← List.map_append] at hone
    have hle := le_total (f := fun l => (weights l).live) (List.mem_map_of_mem (f := proj) hu)
    have hlive : (weights (proj (.call (.loop k₁ (.giveBack n cont)) (.counted id)))).live = 1 := rfl
    omega
  · have hle := Lifecycle.le_sum Lifecycle.Weights.reserved rfl (fun _ _ => rfl)
      (List.mem_map_of_mem (f := proj) ht)
    rw [hself] at hle
    omega
  · have hlaunched := Lifecycle.le_sum Lifecycle.Weights.launched rfl (fun _ _ => rfl)
      (List.mem_map_of_mem (f := proj) ht)
    have hm : Lifecycle.Thread.loop k pc ∈ (xs ++ .call t (.counted id) :: ys).map proj := by
      rw [← hpu]
      exact List.mem_map_of_mem (mem_of_other hu)
    rw [hself] at hlaunched
    have hf := h.sound.fresh (by omega) k pc hm
    rcases hpc with rfl | rfl | rfl <;> cases hf Nat.one_pos

-- Nobody but a Start pushes while the worker is stopped.
theorem no_push_ended {t : Lifecycle.Thread} {id : ℕ}
    (h : Cleared s (xs ++ .call t (.counted id) :: ys)) (hq : s.core.status = .stopped)
    (hst : starting (.call t (.counted id)) = false) : False := by
  have hb := h.sound.inv.balanced
  have ht : Thread.call t (.counted id) ∈ xs ++ .call t (.counted id) :: ys := by simp
  have hself : weights (proj (.call t (.counted id))) = weights t := rfl
  rcases counted_at (h.sound.inv.sized t (List.mem_map_of_mem (f := proj) ht)) (h.pooled.fitting _ ht)
    with ⟨k,n,cont,rfl⟩ | ⟨hp,-⟩ | ⟨-,hs⟩
  · have hlive := Lifecycle.le_sum Lifecycle.Weights.live rfl (fun _ _ => rfl)
      (List.mem_map_of_mem (f := proj) ht)
    have hone : (weights (proj (.call (.loop k (.giveBack n cont)) (.counted id)))).live = 1 := rfl
    rw [hone,hb.unlaunched (.inr hq)] at hlive
    cases h.sound.fresh hlive k _ (List.mem_map_of_mem (f := proj) ht) Nat.one_pos
  · have hle := Lifecycle.le_sum Lifecycle.Weights.passed rfl (fun _ _ => rfl)
      (List.mem_map_of_mem (f := proj) ht)
    rw [hself] at hle
    have := hb.quiet (.inr (.inr hq))
    omega
  · rw [hs] at hst
    cases hst

theorem ending_entered {core core' : Lifecycle.Shared} {k : ℕ} {pc pc' : LoopPc}
    {c : Lifecycle.Choice} {ls : List Lifecycle.Thread}
    (hs : Lifecycle.loopStep core k pc c = some (core',pc',ls))
    (h : pc' = .removeAll ∨ pc' = .stopLock ∨ pc' = .stopStore) :
    (∃ q, pc = .wait q ∧ pc' = .removeAll) ∨ (pc = .removeAll ∧ pc' = .stopLock) ∨
      (pc = .stopLock ∧ pc' = .stopStore) := by
  cases pc with
  | wait q =>
    simp only [Lifecycle.loopStep] at hs
    split at hs <;> cases hs
    · exact .inl ⟨q,rfl,rfl⟩
    · rcases h with h | h | h <;> cases h
  | finish pc r =>
    cases c <;> simp only [Lifecycle.loopStep] at hs <;> try cases hs
    split at hs <;> cases hs
    · rcases h with h | h | h <;> cases h
    · cases r <;> rcases h with h | h | h <;> cases h
  | reserve m n | claim m n =>
    cases m <;> cases c <;> simp only [Lifecycle.loopStep] at hs <;>
      grind [Lifecycle.reserved,Lifecycle.refused]
  | send n cont =>
    cases cont <;> cases c <;> simp only [Lifecycle.loopStep] at hs <;>
      grind [Lifecycle.afterSend,Lifecycle.Ret.pc]
  | _ => cases c <;> simp only [Lifecycle.loopStep] at hs <;> grind

theorem hand_missed {p : Point} {g : Hand} (hs : handStep cfg s p g c = some (s',.missed)) :
    s'.idle = [] := by
  unfold handStep at hs
  split at hs
  case h_1 =>
    have hb : popBack s = some (s',.missed) → s'.idle = [] := by
      intro hb
      rcases popBack_hand hb with ⟨-,rfl,hi⟩ | ⟨id,hid⟩
      · exact hi
      · cases hid
    split at hs
    case h_4 => cases hs
    all_goals exact hb hs
  case h_2 | h_3 =>
    split at hs
    · obtain ⟨id,hid⟩ := initPoolNode_hand hs
      cases hid
    · cases hs
  case h_5 => split at hs <;> cases hs
  case h_6 => split at hs <;> cases hs
  all_goals grind

theorem cleared_own (h : Cleared s (xs ++ l :: ys)) (hs : step cfg s l c = some (s',l',new))
    (hc : cleared l' = true) : s'.idle = [] := by
  have hold := h.ending l (by simp)
  have hfit := h.pooled.fitting l (by simp)
  cases step_act hs with
  | @call c core t t' g g' ls ha hp =>
    cases Lifecycle.step_act hp with
    | @loop k pc pc' core ls hp =>
      obtain ⟨k₁,pc₁,heq,hpc⟩ := loop_of_cleared hc
      cases heq
      rcases ending_entered hp hpc with ⟨q,rfl,rfl⟩ | ⟨rfl,rfl⟩ | ⟨rfl,rfl⟩
      · cases fits_off rfl rfl hfit
        cases ha
        cases hc
      · cases g <;> cases ha
        exact hold rfl
      · exact hold rfl
    | _ => cases hc
  | @hand c s' t g g' hh =>
    unfold cleared at hc
    split at hc
    · rename_i heq
      cases heq
      exact hand_missed hh
    · rename_i heq
      cases heq
      cases fits_off rfl rfl hfit
      cases c <;> cases hh
    · rename_i heq
      cases heq
      cases fits_off rfl rfl hfit
      cases c <;> cases hh
    · cases hc
  | tunePool hp => cases hc
  | prune hp => cases hc

theorem stopped_entered (h : Cleared s (xs ++ l :: ys)) (hs : step cfg s l c = some (s',l',new))
    (hq : s'.core.status = .stopped) : s.core.status = .stopped ∨ cleared l = true := by
  rcases step_core hs with ⟨c',hp⟩ | ⟨hu,-,-⟩
  · have hz := h.sound.inv.sized (proj l) (List.mem_map_of_mem (by simp))
    have ht := Lifecycle.step_turn hz hp
    rw [hq] at ht
    generalize s.core.status = p at ht
    cases ht with
    | flip hf _ =>
      cases hf
      exact .inl rfl
    | stopped ha hb =>
      right
      cases l with
      | call t g =>
        obtain ⟨k,pc,rfl⟩ := Lifecycle.loop_of_alive (l := t) (by
          rw [show weights t = _ from ha]
          exact Nat.one_ne_zero)
        have hl : ((Lifecycle.sum (new.map proj)).add (weights (proj l'))).live = 0 := by rw [hb]; rfl
        generalize proj l' = t' at hp hl
        cases Lifecycle.step_act hp with
        | loop hp =>
          have hpc := Lifecycle.live_lost hp (by rw [show Lifecycle.loopWeights pc = _ from ha]; exact Nat.one_ne_zero)
            (Nat.eq_zero_of_add_eq_zero_left hl)
          rw [hpc]
          rfl
      | tunePool pc => cases ha
      | prune pc => cases ha
    | launch _ _ => exact .inl rfl
  · exact .inl (hu.status.symm.trans hq)

theorem hand_started {g g' : Hand} (hs : handStep cfg s .init g c = some (s',g'))
    (hg : g ≠ .empty) : g' ≠ .empty := by
  cases g <;> cases c <;> simp [handStep] at hs <;> grind

theorem starting_kept (hst : starting l = true) (hs : step cfg s l c = some (s',l',new)) :
    starting l' = true ∨ s'.core.status ≠ .stopped := by
  cases step_act hs with
  | @call c core t t' g g' ls ha hp =>
    cases Lifecycle.step_act hp with
    | @start pc pc' core ls hp =>
      cases pc <;> try cases hst
      · cases g <;> cases ha
        cases hp
        exact .inl rfl
      · cases hp
        exact .inr (by simp)
    | @restart pc pc' core ls hp =>
      cases pc with
      | start pc =>
        cases pc <;> try cases hst
        · cases g <;> cases ha
          cases hp
          exact .inl rfl
        · cases hp
          exact .inr (by simp)
      | _ => cases hst
    | _ => cases hst
  | @hand c s' t g g' hh =>
    left
    unfold starting at hst
    split at hst
    · rename_i heq
      cases heq
      simpa [starting] using hand_started hh (by simpa using hst)
    · rename_i heq
      cases heq
      simpa [starting] using hand_started hh (by simpa using hst)
    · rename_i heq
      cases heq
      rfl
    · rename_i heq
      cases heq
      rfl
    · cases hst
  | tunePool hp => cases hst
  | prune hp => cases hst

theorem cleared_counted {t : Lifecycle.Thread} {id : ℕ} (hf : fits t (.counted id) = true) :
    cleared (.call t (.counted id)) = false := by
  cases t with
  | loop k pc =>
    cases pc with
    | stopLock | stopStore => cases fits_off rfl rfl hf
    | _ => rfl
  | _ => rfl

theorem starting_new (hs : step cfg s l c = some (s',l',new)) :
    ∀ t ∈ new, cleared t = false ∧ starting t = false := by
  intro t ht
  cases step_act hs with
  | call ha hp =>
    obtain ⟨u,hu,rfl⟩ := List.mem_map.mp ht
    have hsp := Lifecycle.step_spawned hp u hu
    cases u with
    | loop k pc =>
      rw [Lifecycle.step_new_loop hp hu]
      exact ⟨rfl,rfl⟩
    | batch pc => exact ⟨rfl,rfl⟩
    | broadcast pc => exact ⟨rfl,rfl⟩
    | _ => cases hsp
  | _ => cases ht

theorem cleared_act (h : Cleared s (xs ++ l :: ys)) (hs : step cfg s l c = some (s',l',new)) :
    Cleared s' (xs ++ l' :: (ys ++ new)) := by
  have hnew := starting_new hs
  refine ⟨sound_act h.sound hs,pooled_act h.pooled hs,?_,fun hq hst => ?_⟩
  · refine forall_act (fun u hu hc => ?_) (cleared_own h hs) fun t ht hc => ?_
    · rcases step_idle hs (h.ending u (mem_of_other hu) hc) with hi | ⟨t,id,rfl⟩
      · exact hi
      · exact (no_push_ending h hu hc).elim
    · rw [(hnew t ht).1] at hc
      cases hc
  · have hold : s.core.status = .stopped → s.idle = [] ∧ starting l = false := by
      intro hq₀
      have hl : starting l = false := by
        cases hl : starting l with
        | false => rfl
        | true =>
          rcases starting_kept hl hs with h1 | h1
          · rw [hst l' (by simp)] at h1
            cases h1
          · exact absurd hq h1
      refine ⟨h.ended hq₀ fun t ht => ?_,hl⟩
      rcases mem_split ht with ht | rfl
      · exact hst t (mem_of_act ht)
      · exact hl
    rcases stopped_entered h hs hq with hq₀ | hc
    · obtain ⟨hi,hl⟩ := hold hq₀
      rcases step_idle hs hi with hi | ⟨t,id,rfl⟩
      · exact hi
      · exact (no_push_ended h hq₀ hl).elim
    · rcases step_idle hs (h.ending l (by simp) hc) with hi | ⟨t,id,rfl⟩
      · exact hi
      · rw [cleared_counted (h.pooled.fitting _ (List.mem_append_right xs List.mem_cons_self))] at hc
        cases hc

theorem entry_proj (he : entry cfg s l = true) :
    Lifecycle.entry s.core (proj l) = true ∧ Fits l ∧ Scanning s l ∧ popping l = 0 ∧ owned l = [] ∧
      cleared l = false := by
  unfold entry at he
  split at he
  · cases he
  · refine ⟨he,?_,trivial,rfl,rfl,?_⟩
    all_goals
      unfold Lifecycle.entry at he
      split at he
    all_goals first | rfl | cases he
  · exact ⟨rfl,trivial,trivial,rfl,rfl,rfl⟩
  · exact ⟨rfl,trivial,trivial,rfl,rfl,rfl⟩
  · cases he

theorem cleared_call (h : Cleared s ts) (he : entry cfg s l = true) : Cleared s (ts ++ [l]) := by
  obtain ⟨hl,hfit,hscan,hpop,hown,hcl⟩ := entry_proj he
  refine ⟨⟨?_,?_,?_⟩,⟨forall_call h.pooled.fitting hfit,fun id => ?_,?_,forall_call h.pooled.scanning hscan⟩,
    forall_call h.ending (fun hc => ?_),fun hq hst => h.ended hq fun t ht => hst t (by simp [ht])⟩
  · rw [List.map_append]
    exact Lifecycle.inv_call h.sound.inv hl
  · rw [List.map_append]
    exact Lifecycle.fresh_call h.sound.fresh hl
  · have hb : busyOf (proj l) = 0 := by
      generalize proj l = t at hl
      unfold Lifecycle.entry at hl
      split at hl <;> first | rfl | cases hl
    rw [List.map_append,List.map_cons,List.map_nil,total_call,hb]
    exact h.sound.busy
  · rw [total_call,owns,hown]
    exact h.pooled.accounted id
  · rw [total_call,hpop]
    exact h.pooled.remover
  · rw [hcl] at hc
    cases hc

theorem cleared_newWorker (cfg : Config) (n : ℤ) :
    Cleared (newWorker cfg n).shared (newWorker cfg n).threads :=
  ⟨⟨Lifecycle.inv_newWorker _,(fun h => by cases h),rfl⟩,
    ⟨(fun _ h => by cases h),fun _ => rfl,rfl,fun _ h => by cases h⟩,(fun _ h => by cases h),
    fun _ _ => rfl⟩

theorem cleared_reach {n : ℤ} {w : World Shared Thread}
    (h : (program cfg).Reach always (newWorker cfg n) w) : Cleared w.shared w.threads :=
  Program.reach_invariant (cleared_newWorker cfg n) (fun _ _ _ h _ he => cleared_call h he)
    (fun _ _ _ _ _ _ _ _ h _ hs => cleared_act h hs) h

-- Of a stopped worker only a Start under way holds a node itself.
theorem empty_when_resting {t : Lifecycle.Thread} {g : Hand} (hr : Lifecycle.resting t = true)
    (hf : fits t g = true) (hst : starting (.call t g) = false) : g = .empty := by
  cases t with
  | loop k pc =>
    rcases Lifecycle.resting_loop hr with h | rfl | rfl | rfl
    · unfold Lifecycle.freshLoop at h
      split at h
      case h_5 => cases h
      all_goals exact fits_off rfl rfl hf
    all_goals exact fits_off rfl rfl hf
  | batch pc =>
    cases pc with
    | finish pc => exact fits_off rfl rfl hf
    | release n | notify | done => exact fits_off rfl rfl hf
    | _ => cases hr
  | start pc =>
    cases pc with
    | push => simpa [starting] using hst
    | _ => exact fits_off rfl rfl hf
  | restart pc =>
    cases pc with
    | start pc =>
      cases pc with
      | push => simpa [starting] using hst
      | _ => exact fits_off rfl rfl hf
    | _ => exact fits_off rfl rfl hf
  | _ => exact fits_off rfl rfl hf

theorem owns_when_stopped (h : Cleared s ts) (hq : s.core.status = .stopped)
    (hst : ∀ t ∈ ts, starting t = false) (id : ℕ) :
    total (owns id) ts = total (removing id) ts := by
  have hrest := Lifecycle.resting_when_stopped h.sound.inv h.sound.fresh hq
  have howned : ∀ t ∈ ts, owned t = removed t := by
    intro t ht
    cases t with
    | call t g =>
      have hr := hrest t (List.mem_map_of_mem (f := proj) ht)
      rw [empty_when_resting hr (h.pooled.fitting _ ht) (hst _ ht)]
      rfl
    | tunePool pc => rfl
    | prune pc => rfl
  exact Nat.le_antisymm (total_le fun t ht => by rw [owns,removing,howned t ht])
    (total_le fun t ht => by rw [owns,removing,howned t ht])

theorem stopped_is_clean {n : ℤ} {w : World Shared Thread}
    (h : (program cfg).Reach always (newWorker cfg n) w) (hq : w.shared.core.status = .stopped) :
    w.shared.core.curProcessing = 0 ∧ w.shared.core.busyWorkers = 0 ∧
    ((∀ t ∈ w.threads, starting t = false) → w.shared.idle = [] ∧
      ∀ id, w.shared.spawned.count id = w.shared.stops.count id + total (removing id) w.threads) := by
  have hc := cleared_reach h
  have hrest := Lifecycle.resting_when_stopped hc.sound.inv hc.sound.fresh hq
  refine ⟨?_,?_,fun hst => ⟨hc.ended hq hst,fun id => ?_⟩⟩
  · rw [hc.sound.inv.balanced.counted,Lifecycle.sum_reserved]
    exact total_eq_zero.mpr fun t ht => (Lifecycle.resting_idle (hrest t ht)).1
  · rw [hc.sound.busy]
    exact total_eq_zero.mpr fun t ht => (Lifecycle.resting_idle (hrest t ht)).2
  · have hacc := hc.pooled.accounted id
    rw [hc.ended hq hst,List.count_nil,Nat.add_zero,owns_when_stopped hc hq hst] at hacc
    exact hacc

-- A worker is started and stopped: the loop takes the one node out of the pool and stops it.
def stoppedRun : List (Event Thread Choice) :=
  .call (.call (.start .lock) .empty) ::
    (List.replicate 4 (.act 0 (.core .go)) : Events Thread Choice) ++
  ([.act 0 (.get none)] : Events Thread Choice) ++
  (List.replicate 3 (.act 0 .go) : Events Thread Choice) ++
  (List.replicate 5 (.act 0 (.core .go)) : Events Thread Choice) ++
  ([.call (.call (.stop .load) .empty)] : Events Thread Choice) ++
  (List.replicate 6 (.act 2 (.core .go)) : Events Thread Choice) ++
  ([.act 1 (.core .done)] : Events Thread Choice) ++
  (List.replicate 4 (.act 1 (.core .go)) : Events Thread Choice) ++
  (List.replicate 6 (.act 1 .go) : Events Thread Choice) ++
  (List.replicate 3 (.act 1 (.core .go)) : Events Thread Choice)

def oneCpu : Config := ⟨0,false,1,Nat.one_pos⟩

theorem stopped_is_clean_after_stop : ∃ w, (program oneCpu).Reach always (newWorker oneCpu 1) w ∧
    w.shared.core.status = .stopped ∧ w.shared.spawned = [0] ∧ w.shared.idle = [] ∧
    w.shared.spawned.count 0 = w.shared.stops.count 0 + total (removing 0) w.threads := by
  obtain ⟨w,hr,hp⟩ := Program.exists_reach_of_run (program oneCpu) always (newWorker oneCpu 1)
    stoppedRun (fun w => w.shared.core.status = .stopped && w.shared.spawned = [0] &&
      w.threads.all fun t => !starting t) (by decide)
  simp only [Bool.and_eq_true,decide_eq_true_eq,List.all_eq_true,Bool.not_eq_true'] at hp
  obtain ⟨⟨hq,hsp⟩,hst⟩ := hp
  obtain ⟨-,-,hclean⟩ := stopped_is_clean hr hq
  obtain ⟨hidle,hcount⟩ := hclean hst
  exact ⟨w,hr,hq,hsp,hidle,hcount 0⟩

end Varmq.Shutdown
