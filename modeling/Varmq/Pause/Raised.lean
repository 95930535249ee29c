import Varmq.Interleaving.Total
import Varmq.Pause.Basic

namespace Varmq.Pause

open Interleaving
open Varmq.Park (Stamp Holder ParkedBatch Parked mayHold rest jobsOf)

variable {J : Type} {notifies : ℕ → Bool} {s s' : Shared J} {l l' t : Thread J}
  {xs ys ts new : List (Thread J)} {c : Choice} {q : ℕ} {hold : Option Holder}

-- The calls that change a queue's pause, and what they set it to.
inductive Frame (q : ℕ) : Bool → (Option NotifyPc → Thread J) → Prop
  | pause : Frame q true (.pause q)
  | resume : Frame q false (.resume q)

inductive ChangeAct (notifies : ℕ → Bool) (s : Shared J) (q : ℕ) (on : Bool) :
    Option NotifyPc → Shared J → NotifyPc → Prop
  | same (hp : s.paused q = on) : ChangeAct notifies s q on none s .returned
  | set (hp : s.paused q ≠ on) : ChangeAct notifies s q on none (setPaused s q on)
      (if notifies q then .lock else .returned)
  | lock : ChangeAct notifies s q on (some .lock) (setNotifyMu s q true) .load
  | load : ChangeAct notifies s q on (some .load) s (.copy (s.paused q))
  | copy {p : Bool} : ChangeAct notifies s q on (some (.copy p)) s (.live p (s.hooks q))
  | live {p : Bool} {h : Hook} {hs : List Hook} (hh : h ∈ hs) (hl : h ∈ s.hooks q) :
      ChangeAct notifies s q on (some (.live p hs)) s (.call p h (hs.erase h))
  | cancelled {p : Bool} {h : Hook} {hs : List Hook} (hl : h ∉ s.hooks q) :
      ChangeAct notifies s q on (some (.live p hs)) s (.live p (hs.erase h))
  | last {p : Bool} : ChangeAct notifies s q on (some (.live p [])) s .unlock
  | raise {h : Hook} {hs : List Hook} :
      ChangeAct notifies s q on (some (.call true h hs)) (setParkHeld s true) (.live true hs)
  | call {p : Bool} {h : Hook} {hs : List Hook} (ho : (h.ours && p) = false) :
      ChangeAct notifies s q on (some (.call p h hs)) s (.live p hs)
  | unlock : ChangeAct notifies s q on (some .unlock) (setNotifyMu s q false) .returned

inductive Act (notifies : ℕ → Bool) (s : Shared J) : Thread J → Shared J → Thread J → Prop
  | change {q : ℕ} {on : Bool} {f : Option NotifyPc → Thread J} {pc : Option NotifyPc}
      {s' : Shared J} {pc' : NotifyPc} (hf : Frame q on f) (hc : ChangeAct notifies s q on pc s' pc') :
      Act notifies s (f pc) s' (f (some pc'))
  | register {q : ℕ} {h : Hook} : Act notifies s (.onPauseChange q (some h))
      { s with hooks := Function.update s.hooks q (h :: s.hooks q) } (.onPauseChange q none)
  | cancel {q : ℕ} {h : Hook} : Act notifies s (.cancel q (some h))
      { s with hooks := Function.update s.hooks q ((s.hooks q).filter (· ≠ h)) } (.cancel q none)
  | park {jobs : List J} {stamp : Stamp} {pc pc' : ParkPc} {s' : Shared J}
      (hs : parkStep s jobs stamp pc = some (s',pc')) :
      Act notifies s (.park jobs stamp pc) s' (.park jobs stamp pc')
  | unpark {k : ℕ} {pc pc' : UnparkPc} {s' : Shared J} (hs : unparkStep s k pc = some (s',pc')) :
      Act notifies s (.unpark k pc) s' (.unpark k pc')
  | purge {gen : ℕ} {pc pc' : PurgePc} {s' : Shared J} (hs : purgeStep s gen pc = some (s',pc')) :
      Act notifies s (.purge gen pc) s' (.purge gen pc')
  | pending {pc pc' : PendingPc J} {s' : Shared J} (hs : pendingStep s pc = some (s',pc')) :
      Act notifies s (.pending pc) s' (.pending pc')

theorem changeStep_act {on : Bool} {pc : Option NotifyPc} {pc' : NotifyPc}
    (hs : changeStep notifies s q on pc c = some (s',pc')) : ChangeAct notifies s q on pc s' pc' := by
  cases pc with
  | none =>
    cases c with
    | go =>
      by_cases hp : s.paused q = on
      · simp only [changeStep,if_pos hp] at hs
        cases hs
        exact .same hp
      · simp only [changeStep,if_neg hp] at hs
        cases hs
        exact .set hp
    | hook => cases hs
  | some pc =>
    simp only [changeStep] at hs
    unfold notifyStep at hs
    split at hs
    · split at hs <;> cases hs
      exact .lock
    · cases hs
      exact .load
    · cases hs
      exact .copy
    · split at hs
      · cases hs
        split
        · exact .live ‹_› ‹_›
        · exact .cancelled ‹_›
      · cases hs
    · cases hs
      exact .last
    · rename_i p h hs'
      cases hs
      cases ho : h.ours && p with
      | true =>
        obtain ⟨-,rfl⟩ := Bool.and_eq_true_iff.mp ho
        exact .raise
      | false => exact .call ho
    · cases hs
      exact .unlock
    · cases hs

theorem step_act (hs : step notifies s l c = some (s',l',new)) :
    Act notifies s l s' l' ∧ new = [] := by
  unfold step at hs
  split at hs
  case h_3 => cases hs; exact ⟨.register,rfl⟩
  case h_4 => cases hs; exact ⟨.cancel,rfl⟩
  case h_9 => cases hs
  all_goals
    obtain ⟨⟨s₁,pc₁⟩,hp,heq⟩ := Option.map_eq_some_iff.mp hs
    cases heq
  · exact ⟨.change .pause (changeStep_act hp),rfl⟩
  · exact ⟨.change .resume (changeStep_act hp),rfl⟩
  · exact ⟨.park hp,rfl⟩
  · exact ⟨.unpark hp,rfl⟩
  · exact ⟨.purge hp,rfl⟩
  · exact ⟨.pending hp,rfl⟩

-- What can make a parked batch held, or be the reason it already is.
def flagged (paused : ℕ → Bool) (hold : Option Holder) : Bool :=
  hold.any fun h => paused h.id || !h.notifies

theorem flagged_iff {paused : ℕ → Bool} {st : Stamp} :
    flagged paused st.hold = (st.held paused || mayHold st) := by
  cases h : st.hold <;> simp [flagged,Stamp.held,mayHold,h]

-- The worker's hook is still to be called with true.
def NotifyPc.tells : NotifyPc → Bool
  | .lock | .load => true
  | .copy p => p
  | .live p hs => p && hs.any Hook.ours
  | .call p h hs => p && (h.ours || hs.any Hook.ours)
  | _ => false

-- The thread will set parkHeld on account of the batches of that queue.
def raises (hold : Option Holder) : Thread J → Bool
  | .pause q (some pc) | .resume q (some pc) => hold.any (fun h => h.id = q) && pc.tells
  | .park _ stamp pc => stamp.hold = hold && (pc = .held ∨ pc = .store)
  | .pending (.scan todo _ held) => held || todo.any fun b => b.stamp.hold = hold
  | .pending (.store _) => true
  | _ => false

def Bound (notifies : ℕ → Bool) (s : Shared J) (hold : Option Holder) : Prop :=
  ∀ h, hold = some h → h.notifies = notifies h.id ∧
    (h.notifies = true → ∃ k ∈ s.hooks h.id, k.ours = true)

def NotifyPc.listed : NotifyPc → List Hook
  | .live _ hs => hs
  | .call _ _ hs => hs
  | _ => []

-- What a thread knows of the queues and the hooks.
def Told (notifies : ℕ → Bool) (s : Shared J) : Thread J → Prop
  | .pause q (some pc) | .resume q (some pc) =>
      (pc ≠ .returned → notifies q = true) ∧ ∀ k ∈ pc.listed, k.ours = true → k ∈ s.hooks q
  | .cancel _ (some h) => h.ours = false
  | .park _ stamp _ => Bound notifies s stamp.hold
  | _ => True

@[simp] theorem Frame.raises {on : Bool} {f : Option NotifyPc → Thread J} (hf : Frame q on f)
    (pc : NotifyPc) :
    raises hold (f (some pc)) = (hold.any (fun h => h.id = q) && pc.tells) := by
  cases hf <;> rfl

theorem Frame.raises_none {on : Bool} {f : Option NotifyPc → Thread J} (hf : Frame q on f) :
    Pause.raises hold (f none) = false := by
  cases hf <;> rfl

theorem Frame.told {on : Bool} {f : Option NotifyPc → Thread J} (hf : Frame q on f) (pc : NotifyPc) :
    Told notifies s (f (some pc)) ↔
      (pc ≠ .returned → notifies q = true) ∧ ∀ k ∈ pc.listed, k.ours = true → k ∈ s.hooks q := by
  cases hf <;> rfl

-- The sections of parkMx leave the queues alone.
theorem park_frame {jobs : List J} {stamp : Stamp} {pc pc' : ParkPc}
    (hs : parkStep s jobs stamp pc = some (s',pc')) : s'.hooks = s.hooks ∧ s'.paused = s.paused := by
  cases pc <;> simp only [parkStep] at hs <;> try split at hs
  all_goals cases hs <;> exact ⟨rfl,rfl⟩

theorem unpark_frame {k : ℕ} {pc pc' : UnparkPc} (hs : unparkStep s k pc = some (s',pc')) :
    s'.hooks = s.hooks ∧ s'.paused = s.paused := by
  cases pc <;> simp only [unparkStep] at hs <;> try split at hs
  all_goals cases hs <;> exact ⟨rfl,rfl⟩

theorem purge_frame {gen : ℕ} {pc pc' : PurgePc} (hs : purgeStep s gen pc = some (s',pc')) :
    s'.hooks = s.hooks ∧ s'.paused = s.paused := by
  cases pc <;> simp only [purgeStep] at hs <;> try split at hs
  all_goals cases hs <;> exact ⟨rfl,rfl⟩

theorem pending_frame {pc pc' : PendingPc J} (hs : pendingStep s pc = some (s',pc')) :
    s'.hooks = s.hooks ∧ s'.paused = s.paused := by
  unfold pendingStep at hs
  split at hs <;> try split at hs
  all_goals cases hs <;> exact ⟨rfl,rfl⟩

theorem hooks_kept (hs : Act notifies s l s' l') (hl : Told notifies s l) {k : Hook}
    (hk : k.ours = true) (hm : k ∈ s.hooks q) : k ∈ s'.hooks q := by
  cases hs with
  | change hf hc => cases hc <;> exact hm
  | @register p h =>
    by_cases hq : q = p
    · subst hq
      simp [hm]
    · simpa [Function.update_of_ne hq] using hm
  | @cancel p h =>
    by_cases hq : q = p
    · subst hq
      have hne : k ≠ h := by
        rintro rfl
        exact absurd hk (by simp [show k.ours = false from hl])
      simp [hm,hne]
    · simpa [Function.update_of_ne hq] using hm
  | park hs => rwa [(park_frame hs).1]
  | unpark hs => rwa [(unpark_frame hs).1]
  | purge hs => rwa [(purge_frame hs).1]
  | pending hs => rwa [(pending_frame hs).1]

theorem Bound.kept (hs : Act notifies s l s' l') (hl : Told notifies s l)
    (hb : Bound notifies s hold) : Bound notifies s' hold := by
  intro h hh
  obtain ⟨hn,hk⟩ := hb h hh
  refine ⟨hn,fun ho => ?_⟩
  obtain ⟨k,hk,hko⟩ := hk ho
  exact ⟨k,hooks_kept hs hl hko hk,hko⟩

-- Every batch was there before, or the park has just appended it.
def Origin (s : Shared J) (l l' : Thread J) (hold : Option Holder) : Prop :=
  (∃ b ∈ s.parked.batches, b.stamp.hold = hold) ∨
  ∃ jobs stamp, l = .park jobs stamp .append ∧ l' = .park jobs stamp .held ∧ stamp.hold = hold

theorem origin_of_mem {b : ParkedBatch J} (hb : b ∈ s.parked.batches) :
    Origin s l l' b.stamp.hold := .inl ⟨b,hb,rfl⟩

theorem rest_hold {a b : ParkedBatch J} {k : ℕ} (hb : b ∈ rest a k) : b.stamp.hold = a.stamp.hold := by
  unfold rest at hb
  split at hb
  · cases hb
  · rw [List.mem_singleton.mp hb]

theorem batch_origin (hs : Act notifies s l s' l') {b : ParkedBatch J}
    (hb : b ∈ s'.parked.batches) : Origin s l l' b.stamp.hold := by
  cases hs with
  | change hf hc => cases hc <;> exact origin_of_mem hb
  | register => exact origin_of_mem hb
  | cancel => exact origin_of_mem hb
  | @park jobs stamp pc pc' s' hs =>
    cases pc with
    | append =>
      cases hs
      rcases List.mem_append.mp hb with hb | hb
      · exact origin_of_mem hb
      · rw [List.mem_singleton.mp hb]
        exact .inr ⟨jobs,stamp,rfl,rfl,rfl⟩
    | lock =>
      simp only [parkStep] at hs
      split at hs <;> cases hs
      exact origin_of_mem hb
    | returned => cases hs
    | _ =>
      cases hs
      exact origin_of_mem hb
  | @unpark k pc pc' s' hs =>
    cases pc with
    | lock =>
      simp only [unparkStep] at hs
      split at hs <;> cases hs
      exact origin_of_mem hb
    | sort =>
      simp only [unparkStep] at hs
      split at hs <;> cases hs
      · exact origin_of_mem hb
      · exact origin_of_mem ((Park.sorted_perm s.parked).mem_iff.mp hb)
    | take i =>
      simp only [unparkStep] at hs
      split at hs <;> cases hs
      rename_i a ha
      rcases List.mem_append.mp hb with hb | hb
      · rcases List.mem_append.mp hb with hb | hb
        · exact origin_of_mem (List.mem_of_mem_take hb)
        · rw [rest_hold hb]
          exact origin_of_mem (List.mem_of_getElem? ha)
      · exact origin_of_mem (List.mem_of_mem_drop hb)
    | returned => cases hs
    | _ =>
      cases hs
      exact origin_of_mem hb
  | @purge gen pc pc' s' hs =>
    cases pc with
    | lock =>
      simp only [purgeStep] at hs
      split at hs <;> cases hs
      exact origin_of_mem hb
    | drop =>
      cases hs
      exact origin_of_mem (List.mem_filter.mp hb).1
    | returned => cases hs
    | _ =>
      cases hs
      exact origin_of_mem hb
  | @pending pc pc' s' hs =>
    refine origin_of_mem ?_
    unfold pendingStep at hs
    split at hs <;> try split at hs
    all_goals cases hs <;> exact hb

-- parkHeld goes down only where a scan of all the batches begins.
theorem held_lowered (hs : Act notifies s l s' l') (hh : s.parked.parkHeld = true) :
    s'.parked.parkHeld = true ∨
      l' = .pending (.scan s.parked.batches 0 false) ∧ s'.parked.batches = s.parked.batches := by
  cases hs with
  | change hf hc =>
    left
    cases hc <;> first | exact hh | rfl
  | register => exact .inl hh
  | cancel => exact .inl hh
  | @park jobs stamp pc pc' s' hs =>
    left
    cases pc <;> simp only [parkStep] at hs <;> try split at hs
    all_goals cases hs <;> first | exact hh | rfl
  | @unpark k pc pc' s' hs =>
    left
    cases pc <;> simp only [unparkStep] at hs <;> try split at hs
    all_goals cases hs <;> exact hh
  | @purge gen pc pc' s' hs =>
    left
    cases pc <;> simp only [purgeStep] at hs <;> try split at hs
    all_goals cases hs <;> exact hh
  | @pending pc pc' s' hs =>
    cases pc with
    | clear =>
      cases hs
      exact .inr ⟨rfl,rfl⟩
    | _ =>
      left
      unfold pendingStep at hs
      split at hs <;> try split at hs
      all_goals cases hs <;> first | exact hh | rfl | contradiction

theorem flagged_set {paused : ℕ → Bool} {on : Bool}
    (hf : flagged (Function.update paused q on) hold = true) :
    flagged paused hold = true ∨ on = true ∧ ∃ h, hold = some h ∧ h.id = q := by
  cases hold with
  | none => cases hf
  | some h =>
    by_cases hq : h.id = q
    · cases on with
      | true => exact .inr ⟨rfl,h,rfl,hq⟩
      | false =>
        left
        simp only [flagged,Option.any_some,hq,Function.update_self,Bool.false_or] at hf
        simp [flagged,hf]
    · left
      simpa [flagged,Function.update_of_ne hq] using hf

-- A batch becomes held only by a Pause, which is about to tell the worker.
theorem flag_step (hs : Act notifies s l s' l') (hb : Bound notifies s hold)
    (hf : flagged s'.paused hold = true) :
    flagged s.paused hold = true ∨ raises hold l' = true := by
  cases hs with
  | change hfr hc =>
    cases hc with
    | set hp =>
      rcases flagged_set hf with h1 | ⟨-,h,rfl,rfl⟩
      · exact .inl h1
      · rw [hfr.raises,← (hb h rfl).1]
        cases hn : h.notifies with
        | true => exact .inr (by simp [NotifyPc.tells])
        | false => exact .inl (by simp [flagged,hn])
    | _ => exact .inl hf
  | register => exact .inl hf
  | cancel => exact .inl hf
  | park hs => exact .inl (by rwa [← (park_frame hs).2])
  | unpark hs => exact .inl (by rwa [← (unpark_frame hs).2])
  | purge hs => exact .inl (by rwa [← (purge_frame hs).2])
  | pending hs => exact .inl (by rwa [← (pending_frame hs).2])

theorem ours_erase {hs : List Hook} {h : Hook} (ho : hs.any Hook.ours = true) :
    h.ours = true ∨ (hs.erase h).any Hook.ours = true := by
  obtain ⟨k,hk,hko⟩ := List.any_eq_true.mp ho
  by_cases he : k = h
  · exact .inl (he ▸ hko)
  · exact .inr (List.any_eq_true.mpr ⟨k,(List.mem_erase_of_ne he).mpr hk,hko⟩)

theorem change_raises {on : Bool} {pc : NotifyPc} {pc' : NotifyPc} (hb : Bound notifies s hold)
    (hq : ∃ h, hold = some h ∧ h.id = q) (hc : ChangeAct notifies s q on (some pc) s' pc')
    (ht : pc ≠ .returned → notifies q = true) (hl : ∀ k ∈ pc.listed, k.ours = true → k ∈ s.hooks q)
    (hr : pc.tells = true) (hf : flagged s.paused hold = true) :
    pc'.tells = true ∨ s'.parked.parkHeld = true := by
  obtain ⟨h,rfl,rfl⟩ := hq
  obtain ⟨hn,hk⟩ := hb h rfl
  have hno : pc ≠ .returned → h.notifies = true := fun hp => hn.trans (ht hp)
  cases hc with
  | lock => exact .inl rfl
  | load =>
    left
    simpa [flagged,hno (by simp),NotifyPc.tells] using hf
  | @copy p =>
    obtain ⟨k,hk,hko⟩ := hk (hno (by simp))
    have hp : p = true := hr
    exact .inl (by simpa [NotifyPc.tells,hp] using ⟨k,hk,hko⟩)
  | @live p g hs hh hlv =>
    left
    simp only [NotifyPc.tells,Bool.and_eq_true,Bool.or_eq_true] at hr ⊢
    exact ⟨hr.1,ours_erase hr.2⟩
  | @cancelled p g hs hlv =>
    left
    simp only [NotifyPc.tells,Bool.and_eq_true] at hr ⊢
    refine ⟨hr.1,?_⟩
    rcases ours_erase (h := g) hr.2 with ho | ho
    · by_cases hm : g ∈ hs
      · exact absurd (hl g hm ho) hlv
      · rw [List.erase_of_not_mem hm]
        exact hr.2
    · exact ho
  | last => simp [NotifyPc.tells] at hr
  | raise => exact .inr rfl
  | @call p g hs ho =>
    left
    simp only [NotifyPc.tells,Bool.and_eq_true,Bool.or_eq_true] at hr ⊢
    obtain ⟨rfl,hr | hr⟩ := hr
    · simp [hr] at ho
    · exact ⟨rfl,hr⟩
  | unlock => cases hr

theorem raises_step (hs : Act notifies s l s' l') (hl : Told notifies s l)
    (hb : Bound notifies s hold) (hf : flagged s.paused hold = true) (hr : raises hold l = true) :
    raises hold l' = true ∨ s'.parked.parkHeld = true := by
  cases hs with
  | @change p on f pc s' pc' hfr hc =>
    cases pc with
    | none => simp [hfr.raises_none] at hr
    | some pc =>
      rw [hfr.raises] at hr ⊢
      rw [hfr.told] at hl
      simp only [Bool.and_eq_true] at hr
      obtain ⟨hany,hr⟩ := hr
      have hq : ∃ h, hold = some h ∧ h.id = p := by simpa [Option.any_eq_true] using hany
      rcases change_raises hb hq hc hl.1 hl.2 hr hf with h1 | h1
      · exact .inl (by simp [hany,h1])
      · exact .inr h1
  | register => cases hr
  | cancel => cases hr
  | @park jobs stamp pc pc' s' hs =>
    simp only [raises,Bool.and_eq_true,decide_eq_true_eq] at hr
    obtain ⟨rfl,rfl | rfl⟩ := hr
    · cases hs
      rw [flagged_iff] at hf
      exact .inl (by simp [raises,hf])
    · cases hs
      exact .inr rfl
  | unpark => cases hr
  | purge => cases hr
  | @pending pc pc' s' hs =>
    cases pc with
    | store n =>
      cases hs
      exact .inr rfl
    | scan todo n held =>
      left
      cases todo with
      | nil =>
        have hh : held = true := by simpa [raises] using hr
        cases hs
        simp [raises,hh]
      | cons b todo =>
        simp only [raises,List.any_cons,Bool.or_eq_true,decide_eq_true_eq] at hr
        cases hs
        rcases hr with hr | hr | hr
        · split <;> simp [raises,hr]
        · subst hr
          rw [flagged_iff,Bool.or_eq_true] at hf
          split
          · simp [raises]
          · rcases hf with h1 | h1
            · contradiction
            · simp [raises,h1]
        · split <;> simp [raises,hr]
    | _ => cases hr

end Varmq.Pause
