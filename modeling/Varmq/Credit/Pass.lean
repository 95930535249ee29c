import Varmq.Credit.Fine

namespace Varmq.Credit

open Interleaving
open Varmq.Worker (Status)
open Varmq.Lifecycle (FinishPc LoopPc Ret)

-- What a look at the hint has found so far.
def Checks (r : Bool) (s : Shared) (ts : List Thread) : Look → Prop
  | .idle | .ready .remaining | .ready (.done true) => True
  | .ready .pokes => s.src.remaining = 0
  | .ready (.dryAt p) => s.src.remaining = 0 ∧ (s.src.dryAt = some p → Fine r s ts)
  | .ready (.done false) | .arm _ | .armed => Fine r s ts
  | _ => False

def Pops (s : Shared) (left : ℕ) : Look → Prop
  | .idle | .pop _ => 0 < left
  | .popped p | .markArm _ p => p.err = false ∧ p.n ≤ left
  | .check p | .mark p => (p.err = false ∧ p.n ≤ left) ∧ s.src.remaining = p.r
  | .wet p => p.n ≤ left
  | .emit n => n ≤ left
  | _ => False

def Place (r : Bool) (s : Shared) (ts : List Thread) : LoopPc → Look → Prop
  | .select, look | .finish _ .select, look => fetching look = false ∧ Fine r s ts
  | .creditActive, look => fetching look = false
  | .creditReady, look | .creditEnd, look => Checks r s ts look
  | .creditSlots, look => look = .idle
  | .creditLimit busy, look => look = .idle ∧ (s.core.concurrency ≤ busy → Fine r s ts)
  | .count .credit k, look | .reserve .credit k, look | .claim .credit k, look =>
      look = .idle ∧ 0 < k
  | .emit left, look => Pops s left look
  | .emitBusy left, look | .emitSend left, look => ∃ n, look = .emit n ∧ n < left
  | .finish _ .creditEnd, look => look = .idle
  | .active, .manager => True
  | _, look => fetching look = false ∧ Sure r s ts

-- A pass that has found this source to be the only one.
def lone : LoopPc → Look → Bool
  | .creditActive, .idle | .creditReady, _ | .creditSlots, _ | .creditLimit _, _ => true
  | .count .credit _, _ | .reserve .credit _, _ | .claim .credit _, _ => true
  | .emit _, _ | .emitBusy _, _ | .emitSend _, _ => true
  | _, _ => false

structure Reached (r : Bool) (s : Shared) (ts : List Thread) (pc : LoopPc) (look : Look) : Prop where
  known : Known s.src look
  shown : Shown r s ts look
  sole : lone pc look = true → s.src.sole = true
  place : Place r s ts pc look

variable {r : Bool} {s s' : Shared} {c : Choice} {l l' t : Thread} {new : List Thread}
  {xs ys ts : List Thread} {k : ℕ} {pc pc' : LoopPc} {look look' : Look}

theorem checks_look (h : Checks r s ts look) : fetching look = false := by
  cases look <;> first | rfl | cases h

theorem place_look (h : Place r s ts pc look) :
    fetching look = false ∨ (∃ left, pc = .emit left) ∨ pc = .active ∧ look = .manager := by
  have hidle : look = .idle → fetching look = false := fun he => by rw [he]; rfl
  cases pc with
  | emit left => exact .inr (.inl ⟨left,rfl⟩)
  | active =>
    cases look with
    | manager => exact .inr (.inr ⟨rfl,rfl⟩)
    | _ => exact .inl h.1
  | finish q ret =>
    cases ret with
    | creditEnd => exact .inl (hidle h)
    | _ => exact .inl h.1
  | count m n | reserve m n | claim m n =>
    cases m with
    | batch => exact .inl h.1
    | credit => exact .inl (hidle h.1)
  | creditReady | creditEnd => exact .inl (checks_look h)
  | creditActive => exact .inl h
  | creditSlots => exact .inl (hidle h)
  | creditLimit busy => exact .inl (hidle h.1)
  | emitBusy n | emitSend n =>
    obtain ⟨m,rfl,-⟩ := h
    exact .inl rfl
  | _ => exact .inl h.1

theorem place_popping (h : Place r s ts pc look) (hp : popping look = true) :
    ∃ left, pc = .emit left := by
  rcases place_look h with hl | hl | ⟨-,rfl⟩
  · rw [fetching_popping hl] at hp
    cases hp
  · exact hl
  · cases hp

theorem Checks.side (h : Checks r s (xs ++ l :: ys) look) (hs : Side r s s' l l')
    (hf : Fine r s (xs ++ l :: ys) → Fine r s' (xs ++ l' :: (ys ++ new))) :
    Checks r s' (xs ++ l' :: (ys ++ new)) look := by
  cases look with
  | ready q =>
    cases q with
    | remaining => trivial
    | pokes => exact hs.remaining.trans h
    | dryAt p =>
      refine ⟨hs.remaining.trans h.1,fun hd => hf (h.2 ?_)⟩
      rcases hs.hint with he | he
      · rw [← he]
        exact hd
      · rw [he] at hd
        cases hd
    | done b =>
      cases b with
      | true => trivial
      | false => exact hf h
  | arm q => exact hf h
  | armed => exact hf h
  | idle => trivial
  | _ => exact h

theorem Pops.side {left : ℕ} (h : Pops s left look) (hs : Side r s s' l l') : Pops s' left look := by
  cases look with
  | check p => exact ⟨h.1,hs.remaining.trans h.2⟩
  | mark p => exact ⟨h.1,hs.remaining.trans h.2⟩
  | _ => exact h

theorem Checks.mono (h : Checks r s xs look) (hf : Fine r s xs → Fine r s ys) : Checks r s ys look := by
  cases look with
  | ready q =>
    cases q with
    | dryAt p => exact ⟨h.1,fun hd => hf (h.2 hd)⟩
    | done b =>
      cases b with
      | true => trivial
      | false => exact hf h
    | _ => exact h
  | arm q => exact hf h
  | armed => exact hf h
  | _ => exact h

theorem Place.mono (h : Place r s xs pc look) (hf : Fine r s xs → Fine r s ys)
    (hs : Sure r s xs → Sure r s ys) : Place r s ys pc look := by
  cases pc with
  | select => exact ⟨h.1,hf h.2⟩
  | active =>
    cases look with
    | manager => trivial
    | _ => exact ⟨h.1,hs h.2⟩
  | finish q ret =>
    cases ret with
    | select => exact ⟨h.1,hf h.2⟩
    | creditEnd => exact h
    | _ => exact ⟨h.1,hs h.2⟩
  | count m n | reserve m n | claim m n =>
    cases m with
    | batch => exact ⟨h.1,hs h.2⟩
    | credit => exact h
  | creditReady | creditEnd => exact Checks.mono h hf
  | creditLimit busy => exact ⟨h.1,fun hle => hf (h.2 hle)⟩
  | emit left => exact h
  | creditActive => exact h
  | creditSlots => exact h
  | emitBusy n | emitSend n => exact h
  | _ => exact ⟨h.1,hs h.2⟩

theorem Reached.side (h : Reached r s (xs ++ l :: ys) pc look) (hs : Side r s s' l l')
    (ha : Act s c l s' l' new) (hb : s.src.batch = true) (hc : Clocked s.src (xs ++ l :: ys))
    (hp : Past s.src) (hh : Heard r s s' l (xs ++ l :: ys) look) :
    Reached r s' (xs ++ l' :: (ys ++ new)) pc look := by
  have hplace := h.place
  have hheeds := hh.heeds h.shown
  have hsole : popping look = true → s.src.sole = true := by
    intro hl
    obtain ⟨left,rfl⟩ := place_popping hplace hl
    exact h.sole rfl
  have hfine : fetching look = false → Fine r s (xs ++ l :: ys) →
      Fine r s' (xs ++ l' :: (ys ++ new)) := fun hl hf => hf.side hs ha hb hc hl hheeds
  have hsure : fetching look = false ∧ Sure r s (xs ++ l :: ys) →
      fetching look = false ∧ Sure r s' (xs ++ l' :: (ys ++ new)) :=
    fun hl => ⟨hl.1,hl.2.side hs ha hb hc hl.1 hheeds⟩
  refine ⟨hs.known hp h.known,h.shown.side hs ha hb hc hp h.known hsole hheeds,
    fun hl => hs.lone (h.sole hl),?_⟩
  cases pc with
  | select => exact ⟨hplace.1,hfine hplace.1 hplace.2⟩
  | active =>
    cases look with
    | manager => trivial
    | _ => exact hsure hplace
  | finish q ret =>
    cases ret with
    | select => exact ⟨hplace.1,hfine hplace.1 hplace.2⟩
    | creditEnd => exact hplace
    | _ => exact hsure hplace
  | count m n | reserve m n | claim m n =>
    cases m with
    | batch => exact hsure hplace
    | credit => exact hplace
  | creditReady | creditEnd => exact Checks.side hplace hs (hfine (checks_look hplace))
  | creditLimit busy =>
    refine ⟨hplace.1,fun hle => hfine (by rw [hplace.1]; rfl) (hplace.2 ?_)⟩
    rw [← hs.limit]
    exact hle
  | emit left => exact Pops.side hplace hs
  | creditActive => exact hplace
  | creditSlots => exact hplace
  | emitBusy n | emitSend n => exact hplace
  | _ => exact hsure hplace

theorem Strong.pass {core : Lifecycle.Shared}
    (hsig : s.core.signal = true → core.signal = true)
    (h : Strong r s (xs ++ .worker (.loop k pc) look :: ys)) :
    Strong r { s with core } (xs ++ .worker (.loop k pc') look' :: (ys ++ new)) :=
  h.step hsig fun ho => by cases ho

theorem Sure.pass {core : Lifecycle.Shared} (hsig : s.core.signal = true → core.signal = true)
    (hact : core.status.isActive = true → s.core.status.isActive = true)
    (h : Sure r s (xs ++ .worker (.loop k pc) look :: ys)) :
    Sure r { s with core } (xs ++ .worker (.loop k pc') look' :: (ys ++ new)) := by
  intro ha hsole
  have hc := h (hact ha) hsole
  exact ⟨fun hr hw => (hc.wet hr hw).pass hsig,
    fun hn => (hc.stored hn).imp (Strong.pass hsig) fun ⟨hr,hsv⟩ => ⟨hr,hsv.other (fun _ => rfl) rfl rfl⟩⟩

theorem Fine.pass {core : Lifecycle.Shared} (hsig : s.core.signal = true → core.signal = true)
    (hact : core.status.isActive = true → s.core.status.isActive = true)
    (hb : core.busyWorkers = s.core.busyWorkers) (hc : core.concurrency = s.core.concurrency)
    (h : Fine r s (xs ++ .worker (.loop k pc) look :: ys)) :
    Fine r { s with core } (xs ++ .worker (.loop k pc') look' :: (ys ++ new)) := by
  intro hfree
  simp only [hb,hc] at hfree
  exact (h hfree).pass hsig hact

theorem Shown.pass {core : Lifecycle.Shared}
    (hact : core.status.isActive = true → s.core.status.isActive = true)
    (hl : fetching look = false) (hl' : fetching look' = false)
    (h : Shown r s (xs ++ .worker (.loop k pc) look :: ys) look) :
    Shown r { s with core } (xs ++ .worker (.loop k pc') look' :: (ys ++ new)) look' := by
  have hp := fetching_popping hl
  have hp' := fetching_popping hl'
  intro ha hsole hexp
  rcases h (hact ha) hsole hexp with h | ⟨t,ht,ho⟩ | ⟨hr,h | h⟩
  · exact .inl ((h.wet hp).promise hp')
  · rcases mem_split ht with ht | rfl
    · exact .inr (.inl ⟨t,mem_of_act ht,ho⟩)
    · cases ho
  · rw [fetching_arming hl] at h
    cases h
  · refine .inr (.inr ⟨hr,.inr ?_⟩)
    rw [hp] at h
    rw [hp']
    exact h.other (fun _ => rfl) rfl rfl

theorem fine_inactive (h : s.core.status.isActive = false) : Fine r s ts := by
  intro _ ha
  rw [h] at ha
  cases ha

theorem fine_strong (h : Strong r s ts) : Fine r s ts :=
  fun _ _ _ => ⟨fun _ _ => h,fun _ => .inl h⟩

-- The points of a classic pass, and those where a pass is over.
def settled : LoopPc → Bool
  | .select | .active | .slots | .limit _ | .pending | .plan | .take _ => true
  | .count .batch _ | .reserve .batch _ | .claim .batch _ => true
  | .fill _ | .giveBack _ _ | .send _ _ => true
  | .finish _ .again | .finish _ .select | .finish _ (.send _ _) => true
  | _ => false

theorem settled_ret (ret : Ret) (h : ret ≠ .creditEnd) (q : FinishPc) :
    settled ret.pc = true ∧ settled (.finish q ret) = true := by
  cases ret <;> first | exact ⟨rfl,rfl⟩ | exact absurd rfl h

theorem afterSend_settled (cont : Bool) (q : FinishPc) :
    settled (Lifecycle.afterSend cont).pc = true ∧ settled (.finish q (Lifecycle.afterSend cont)) = true := by
  cases cont <;> exact ⟨rfl,rfl⟩

theorem settled_step {a b : Lifecycle.Shared} {d : Lifecycle.Choice} {newL : List Lifecycle.Thread}
    (h : settled pc = true) (hn : pc ≠ .select)
    (hs : Lifecycle.loopStep a k pc d = some (b,pc',newL)) : settled pc' = true := by
  cases pc with
  | select => exact absurd rfl hn
  | active | slots | limit busy =>
    cases d <;> cases hs
    first | rfl | (split <;> rfl)
  | pending =>
    cases d <;> cases hs
    split <;> rfl
  | plan =>
    cases d <;> simp only [Lifecycle.loopStep] at hs <;> try cases hs
    split at hs <;> cases hs
    split <;> rfl
  | take n => cases d <;> cases hs; rfl
  | count m n =>
    cases m <;> cases h
    cases d <;> cases hs
    rfl
  | reserve m n =>
    cases m <;> cases h
    cases d <;> simp only [Lifecycle.loopStep] at hs <;> try cases hs
    split at hs
    · cases hs
      rfl
    · split at hs <;> cases hs <;> rfl
  | claim m n =>
    cases m <;> cases h
    cases d <;> simp only [Lifecycle.loopStep] at hs <;> try cases hs
    split at hs <;> cases hs <;> rfl
  | fill n =>
    cases d <;> simp only [Lifecycle.loopStep] at hs <;> try cases hs
    split at hs
    · cases hs
      rfl
    · split at hs
      · cases hs
        rfl
      · split at hs <;> cases hs
        rfl
  | giveBack n cont =>
    cases d <;> cases hs
    exact (afterSend_settled cont _).2
  | send n cont =>
    cases d <;> cases hs
    exact (afterSend_settled cont (.lock)).1
  | finish q ret =>
    have hret : ret ≠ .creditEnd := fun he => by rw [he] at h; cases h
    cases d <;> simp only [Lifecycle.loopStep] at hs <;> try cases hs
    split at hs <;> cases hs
    · exact (settled_ret ret hret _).2
    · exact (settled_ret ret hret .lock).1
  | _ => cases h

theorem settled_place (h : settled pc = true) (hl : fetching look = false) (hs : Sure r s ts) :
    Place r s ts pc look := by
  have hboth : fetching look = false ∧ Sure r s ts := ⟨hl,hs⟩
  have hfine : fetching look = false ∧ Fine r s ts := ⟨hl,fun _ => hs⟩
  cases pc with
  | select => exact hfine
  | active => cases look <;> first | trivial | exact hboth
  | finish q ret => cases ret <;> first | exact hboth | exact hfine | cases h
  | count m n | reserve m n | claim m n => cases m <;> first | exact hboth | cases h
  | slots | limit _ | pending | plan | take _ | fill _ | giveBack _ _ | send _ _ => exact hboth
  | _ => cases h

section Core

variable {core : Lifecycle.Shared} {d : Lifecycle.Choice} {newL : List Lifecycle.Thread}

-- What the loop has looked up last leaves with the advance of the worker.
theorem advance_look (ha : advance s (.loop k pc) look d = some look')
    (hp : Place r s ts pc look) : fetching look = false ∧ fetching look' = false := by
  have hpop : fetching look = false := by
    rcases place_look hp with hl | ⟨left,rfl⟩ | ⟨rfl,rfl⟩
    · exact hl
    · cases look <;> first | rfl | (simp [advance] at ha)
    · rfl
  refine ⟨hpop,?_⟩
  unfold advance at ha
  split at ha
  all_goals
    first
      | (cases ha <;> first | rfl | exact hpop)
      | (split at ha <;> cases ha <;> first | rfl | exact hpop)

theorem settled_core (hplace : Place r s (xs ++ .worker (.loop k pc) look :: ys) pc look)
    (hset : settled pc = true) (hn : pc ≠ .select) (hf : ∀ q, pc ≠ .finish q .select)
    (hm : ¬(pc = .active ∧ look = .manager)) (hl' : fetching look' = false)
    (hs : Lifecycle.loopStep s.core k pc d = some (core,pc',newL)) :
    Place r { s with core } (xs ++ .worker (.loop k pc') look' :: (ys ++ new)) pc' look' := by
  have hpass := loop_passes hn hs
  have hsure : Sure r s (xs ++ .worker (.loop k pc) look :: ys) := by
    cases pc with
    | select => exact absurd rfl hn
    | active => cases look <;> first | exact absurd ⟨rfl,rfl⟩ hm | exact hplace.2
    | finish q ret => cases ret <;> first | exact hplace.2 | exact absurd rfl (hf q) | cases hset
    | count m n | reserve m n | claim m n => cases m <;> first | exact hplace.2 | cases hset
    | slots | limit _ | pending | plan | take _ | fill _ | giveBack _ _ | send _ _ => exact hplace.2
    | _ => cases hset
  exact settled_place (settled_step hset hn hs) hl' (hsure.pass hpass.signal hpass.active)

theorem place_core (hplace : Place r s (xs ++ .worker (.loop k pc) look :: ys) pc look)
    (hl' : fetching look' = false) (ha : advance s (.loop k pc) look d = some look')
    (hs : Lifecycle.loopStep s.core k pc d = some (core,pc',newL)) (ho : loopOver pc' = false) :
    Place r { s with core } (xs ++ .worker (.loop k pc') look' :: (ys ++ new)) pc' look' := by
  cases pc with
  | select =>
    cases d <;> simp only [Lifecycle.loopStep] at hs <;> try cases hs
    · split at hs <;> cases hs
      cases ho
    · split at hs <;> cases hs
      cases ha
      split
      · rfl
      · trivial
  | active =>
    simp only [advance] at ha
    split at ha <;> cases ha
    rename_i hi
    exact settled_core hplace rfl (fun he => by cases he) (fun q he => by cases he)
      (fun he => by rw [hi] at he; cases he.2) hl' hs
  | finish q ret =>
    cases ret with
    | select =>
      cases d <;> simp only [Lifecycle.loopStep] at hs <;> try cases hs
      split at hs <;> cases hs
      all_goals
        have hp := finish_plain ‹_›
        exact ⟨hl',hplace.2.pass (fun h => hp.signal.trans h) hp.active hp.busy hp.limit⟩
    | creditEnd =>
      have hi : look = .idle := hplace
      simp only [advance,hi] at ha
      cases ha
      cases d <;> simp only [Lifecycle.loopStep] at hs <;> try cases hs
      split at hs <;> cases hs
      · rfl
      · trivial
    | again | send n cont =>
      exact settled_core hplace rfl (fun he => by cases he) (fun q he => by cases he)
        (fun he => by cases he.1) hl' hs
  | creditActive =>
    simp only [advance] at ha
    split at ha <;> cases ha
    cases d <;> simp only [Lifecycle.loopStep] at hs <;> cases hs
    by_cases hact : s.core.status.isActive = true
    · rw [if_pos hact]
      trivial
    · rw [if_neg hact]
      exact ⟨rfl,fine_inactive (by simpa using hact)⟩
  | creditReady =>
    cases look with
    | armed =>
      cases d with
      | flag b =>
        cases b <;> cases ha
        cases hs
        exact ⟨rfl,Fine.pass id id rfl rfl hplace⟩
      | _ => cases ha
    | ready q =>
      cases q with
      | done b =>
        cases b with
        | true =>
          cases d with
          | flag b =>
            cases b <;> cases ha
            cases hs
            rfl
          | _ => cases ha
        | false => simp [advance] at ha
      | _ => simp [advance] at ha
    | _ => simp [advance] at ha
  | creditSlots =>
    have hi : look = .idle := hplace
    simp only [advance,hi] at ha
    cases ha
    cases d <;> cases hs
    refine ⟨rfl,fun hle hfree => ?_⟩
    exact absurd hfree (Nat.not_lt.mpr hle)
  | creditLimit busy =>
    obtain ⟨hi,hf⟩ := hplace
    simp only [advance,hi] at ha
    cases ha
    cases d <;> cases hs
    split
    · exact ⟨rfl,Fine.pass id id rfl rfl (hf ‹_›)⟩
    · refine ⟨rfl,Nat.lt_min.mpr ⟨?_,by decide⟩⟩
      omega
  | count m n =>
    cases m with
    | batch =>
      exact settled_core hplace rfl (fun he => by cases he) (fun q he => by cases he)
        (fun he => by cases he.1) hl' hs
    | credit =>
      obtain ⟨hi,hpos⟩ := hplace
      simp only [advance,hi] at ha
      cases ha
      cases d <;> cases hs
      exact ⟨rfl,hpos⟩
  | reserve m n =>
    cases m with
    | batch =>
      exact settled_core hplace rfl (fun he => by cases he) (fun q he => by cases he)
        (fun he => by cases he.1) hl' hs
    | credit =>
      obtain ⟨hi,hpos⟩ := hplace
      simp only [advance,hi] at ha
      cases ha
      cases d <;> simp only [Lifecycle.loopStep] at hs <;> try cases hs
      split at hs
      · cases hs
        exact hpos
      · rename_i hrun
        split at hs
        · cases hs
          exact ⟨rfl,hpos⟩
        · rename_i hidle
          cases hs
          refine ⟨rfl,fine_inactive ?_⟩
          cases hst : s.core.status <;> first | rfl | exact absurd hst hrun | exact absurd hst hidle
  | claim m n =>
    cases m with
    | batch =>
      exact settled_core hplace rfl (fun he => by cases he) (fun q he => by cases he)
        (fun he => by cases he.1) hl' hs
    | credit =>
      obtain ⟨hi,hpos⟩ := hplace
      simp only [advance,hi] at ha
      cases ha
      cases d <;> simp only [Lifecycle.loopStep] at hs <;> try cases hs
      split at hs <;> cases hs
      · exact hpos
      · exact ⟨rfl,hpos⟩
  | emit left =>
    cases look with
    | emit n =>
      have hn : n ≤ left := hplace
      cases n with
      | zero =>
        cases d with
        | flag b =>
          cases b <;> cases ha
          simp only [Lifecycle.loopStep] at hs
          split at hs <;> cases hs
          · trivial
          · rfl
        | _ => cases ha
      | succ n =>
        cases d with
        | flag b =>
          cases b <;> cases ha
          simp only [Lifecycle.loopStep] at hs
          split at hs <;> cases hs
          · omega
          · exact ⟨n,rfl,hn⟩
        | _ => cases ha
    | erred => cases hplace
    | _ => simp [advance] at ha
  | emitBusy left =>
    obtain ⟨n,hi,hlt⟩ := hplace
    simp only [advance,hi] at ha
    cases ha
    cases d <;> cases hs
    exact ⟨n,rfl,hlt⟩
  | emitSend left =>
    obtain ⟨n,hi,hlt⟩ := hplace
    simp only [advance,hi] at ha
    cases ha
    cases d <;> cases hs
    exact Nat.le_sub_one_of_lt hlt
  | creditEnd =>
    cases look with
    | ready q =>
      cases q with
      | done b =>
        cases d with
        | flag b' =>
          simp only [advance] at ha
          split at ha <;> cases ha
          rename_i hb
          cases hs
          refine ⟨rfl,?_⟩
          cases b with
          | true => exact fine_strong (.inl (by rw [← hb]; exact Bool.or_true _))
          | false => exact Fine.pass (fun h => by simp [h]) id rfl rfl hplace
        | _ => cases ha
      | _ => simp [advance] at ha
    | erred => cases hplace
    | _ => simp [advance] at ha
  | slots | limit _ | pending | plan | take _ | fill _ | giveBack _ _ | send _ _ =>
    exact settled_core hplace rfl (fun he => by cases he) (fun q he => by cases he)
      (fun he => by cases he.1) hl' hs
  | wait q =>
    simp only [Lifecycle.loopStep] at hs
    split at hs <;> cases hs <;> cases ho
  | stopLock =>
    cases d <;> simp only [Lifecycle.loopStep] at hs <;> try cases hs
    split at hs <;> cases hs
    cases ho
  | removeAll | stopStore | stopWake | stopUnlock | exited =>
    cases d <;> cases hs
    all_goals cases ho

theorem settled_lone (h : settled pc = true) : lone pc look = false := by
  cases pc with
  | count m n | reserve m n | claim m n => cases m <;> first | rfl | cases h
  | creditActive | creditReady | creditSlots | creditLimit _ | emit _ | emitBusy _ | emitSend _ => cases h
  | _ => rfl

-- A pass is one of this source alone from its look at the manager on.
theorem lone_core (ha : advance s (.loop k pc) look d = some look')
    (hs : Lifecycle.loopStep s.core k pc d = some (core,pc',newL)) (ho : loopOver pc' = false)
    (hl : lone pc' look' = true) : lone pc look = true := by
  have hset : settled pc = true → pc ≠ .select → lone pc look = true := by
    intro he hn
    rw [settled_lone (settled_step he hn hs)] at hl
    cases hl
  cases pc with
  | select =>
    cases d <;> simp only [Lifecycle.loopStep] at hs <;> try cases hs
    · split at hs <;> cases hs
      cases ho
    · split at hs <;> cases hs
      cases ha
      split at hl <;> cases hl
  | creditActive =>
    simp only [advance] at ha
    split at ha <;> cases ha
    rename_i hi
    rw [hi]
    rfl
  | finish q ret =>
    cases ret with
    | creditEnd =>
      cases d <;> simp only [Lifecycle.loopStep] at hs <;> try cases hs
      split at hs <;> cases hs <;> cases hl
    | _ => exact hset rfl fun he => by cases he
  | count m n | reserve m n | claim m n =>
    cases m with
    | batch => exact hset rfl fun he => by cases he
    | credit => rfl
  | creditReady | creditSlots | creditLimit _ | emit _ | emitBusy _ | emitSend _ => rfl
  | creditEnd =>
    cases d <;> cases hs
    cases hl
  | active | slots | limit _ | pending | plan | take _ | fill _ | giveBack _ _ | send _ _ =>
    exact hset rfl fun he => by cases he
  | wait q =>
    simp only [Lifecycle.loopStep] at hs
    split at hs <;> cases hs <;> cases ho
  | stopLock =>
    cases d <;> simp only [Lifecycle.loopStep] at hs <;> try cases hs
    split at hs <;> cases hs
    cases ho
  | removeAll | stopStore | stopWake | stopUnlock | exited =>
    cases d <;> cases hs
    all_goals cases ho

theorem core_active (hs : Lifecycle.loopStep s.core k pc d = some (core,pc',newL))
    (ho : loopOver pc' = false) (h : core.status.isActive = true) :
    s.core.status.isActive = true := by
  by_cases hn : pc = .select
  · subst hn
    cases d <;> simp only [Lifecycle.loopStep] at hs <;> try cases hs
    · split at hs <;> cases hs
      cases ho
    · split at hs <;> cases hs
      exact h
  · exact (loop_passes hn hs).active h

theorem Reached.step (h : Reached r s (xs ++ .worker (.loop k pc) look :: ys) pc look)
    (ha : advance s (.loop k pc) look d = some look')
    (hs : Lifecycle.loopStep s.core k pc d = some (core,pc',newL)) (ho : loopOver pc' = false) :
    Reached r { s with core } (xs ++ .worker (.loop k pc') look' :: (ys ++ new)) pc' look' := by
  obtain ⟨hl,hl'⟩ := advance_look ha h.place
  exact ⟨@advance_known s _ _ _ _ h.known ha,h.shown.pass (core_active hs ho) hl hl',
    fun he => h.sole (lone_core ha hs ho he),place_core h.place hl' ha hs ho⟩

end Core

end Varmq.Credit
