import Varmq.Job.Basic

namespace Varmq.Jobs

open Interleaving

variable {R : Type}

def closing : Thread R → Option ClosePc
  | .close pc | .run (.close pc) => some pc
  | _ => none

def ClosePc.held : ClosePc → ℕ
  | .call _ _ | .answer _ _ | .putBack _ _ => 1
  | _ => 0

def ClosePc.reporting : ClosePc → Bool
  | .load | .check | .swap | .call _ _ | .answer _ _ | .putBack _ _ => true
  | _ => false

def ClosePc.past : ClosePc → Bool
  | .claimLoad | .claimCas _ | .done | .returned none => true
  | _ => false

def ClosePc.unreasoned : ClosePc → Bool
  | .call _ none | .answer _ none | .putBack _ none => true
  | _ => false

def refOut (l : Thread R) : ℕ :=
  match closing l with
  | some pc => pc.held
  | none => 0

def looks (l : Thread R) : Bool := closing l = some .load || closing l = some .swap

def Acked (j : Job R) : Prop := .answered true ∈ j.history

def referenceKept : Guard (Job R) (Thread R) (Choice R)
  | _, .call _ => true
  | w, .act i _ =>
      match w.threads[i]? with
      | some l => !(looks l && w.shared.ackRef.isNone && decide (0 < total refOut w.threads))
      | none => true

def failInPlace : Guard (Job R) (Thread R) (Choice R)
  | _, .call _ => true
  | w, .act i _ =>
      match w.threads[i]? with
      | some (.run (.failLoad _)) => decide (total refOut w.threads = 0)
      | some (.run (.failStore _ _)) => w.shared.ackRef.isSome
      | _ => true

def ackAfterFail : List Report → Bool
  | [] => false
  | .acknowledge _ :: older => decide (.failed ∈ older) || ackAfterFail older
  | _ :: older => ackAfterFail older

theorem closing_step {j j' : Job R} {l l' : Thread R} {c : Choice R} {new : List (Thread R)}
    (h : step j l c = some (j',l',new)) : new = [] ∧
    ((∃ pc pc', closing l = some pc ∧ closing l' = some pc' ∧ closeStep j pc c = some (j',pc')) ∨
     (∃ r, l = .run (.close (.returned r)) ∧ l' = .run (.ended r) ∧ j' = j) ∨
     (∃ pc pc', l = .run pc ∧ closing l = none ∧ l' = .run pc' ∧ runStep j pc c = some (j',pc')) ∨
     (∃ pc pc', l = .add pc ∧ l' = .add pc' ∧ addStep j pc c = some (j',pc'))) := by
  obtain ⟨rfl,⟨pc,pc',rfl,rfl,hs⟩ | ⟨pc,pc',rfl,rfl,hs⟩ | ⟨pc,pc',rfl,rfl,hs⟩⟩ := step_cases h
  · exact ⟨rfl,.inl ⟨pc,pc',rfl,rfl,hs⟩⟩
  · refine ⟨rfl,?_⟩
    by_cases hc : closing (.run pc) = none
    · exact .inr (.inr (.inl ⟨pc,pc',rfl,hc,rfl,hs⟩))
    · cases pc with
      | close q =>
        by_cases hd : ∃ r, q = .returned r
        · obtain ⟨r,rfl⟩ := hd
          cases c <;> simp only [runStep] at hs
          · cases hs
            exact .inr (.inl ⟨r,rfl,rfl,rfl⟩)
          all_goals simp [closeStep] at hs
        · obtain ⟨k,q',hq,rfl,rfl⟩ := runStep_close (fun r hr => hd ⟨r,hr⟩) hs
          exact .inl ⟨q,q',rfl,rfl,hq⟩
      | _ => exact absurd rfl hc
  · exact ⟨rfl,.inr (.inr (.inr ⟨pc,pc',rfl,rfl,hs⟩))⟩

theorem closeStep_reporting {j j' : Job R} {pc pc' : ClosePc} {c : Choice R}
    (hp : pc.reporting = true) (h : closeStep j pc c = some (j',pc')) :
    j'.status = j.status := by
  cases pc <;> cases c <;> simp only [closeStep,reduceCtorEq] at h <;>
    first
    | (simp [ClosePc.reporting] at hp; done)
    | (split at h <;> cases h <;> rfl)
    | (cases h; rfl)

theorem refOut_of_closing {l : Thread R} {pc : ClosePc} (h : closing l = some pc) :
    refOut l = pc.held := by simp [refOut,h]

theorem refOut_of_none {l : Thread R} (h : closing l = none) : refOut l = 0 := by
  simp [refOut,h]

theorem closing_afterFail (k : Kind) (e : String) :
    closing (.run (afterFail k e) : Thread R) = none := by
  by_cases hk : k = .plain <;> simp [afterFail,hk,closing]

theorem runStep_reference {j j' : Job R} {pc pc' : RunPc R} {c : Choice R}
    (hc : closing (.run pc) = none) (h : runStep j pc c = some (j',pc')) :
    (closing (.run pc') = none ∨ closing (.run pc') = some .load) ∧
    (j'.status = .closed → j.status = .closed) ∧
    ((j'.ackRef = j.ackRef ∧ j'.history = j.history) ∨
     (∃ e, pc = .failLoad e ∧ (j.ackRef = none ∨ j.ackRef = some .totals) ∧
       j'.ackRef = j.ackRef ∧ j'.history = .failed :: j.history) ∨
     (∃ id e, pc = .failStore id e ∧ j'.ackRef = some (.storage id (some e)) ∧
       j'.history = .failed :: j.history)) := by
  cases pc with
  | startLoad =>
    cases c <;> simp only [runStep,reduceCtorEq] at h
    split at h <;> cases h <;> simp [closing]
  | startCas s =>
    cases c <;> simp only [runStep,reduceCtorEq] at h
    split at h <;> cases h <;> simp [closing]
  | invoke =>
    cases c <;> simp only [runStep,reduceCtorEq] at h
    cases h
    simp [closing]
  | running =>
    cases c <;> simp only [runStep,reduceCtorEq] at h
    split at h
    · split at h <;> cases h
      · split <;> simp [closing]
      all_goals simp [closing]
    · cases h
  | sendResult r =>
    cases c <;> simp only [runStep,reduceCtorEq] at h
    cases h
    simp [closing]
  | succeed =>
    cases c <;> simp only [runStep,reduceCtorEq] at h
    split at h <;> cases h <;> simp [closing]
  | failLoad e =>
    cases c <;> simp only [runStep,reduceCtorEq] at h
    split at h <;> cases h
    · rename_i hr
      exact ⟨.inl (closing_afterFail _ _),id,.inr (.inl ⟨e,rfl,.inr hr,rfl,rfl⟩)⟩
    · simp [closing]
    · rename_i hr
      exact ⟨.inl (closing_afterFail _ _),id,.inr (.inl ⟨e,rfl,.inl hr,rfl,rfl⟩)⟩
  | failStore a e =>
    cases c <;> simp only [runStep,reduceCtorEq] at h
    cases h
    exact ⟨.inl (closing_afterFail _ _),id,.inr (.inr ⟨a,e,rfl,rfl,rfl⟩)⟩
  | sendError e =>
    cases c <;> simp only [runStep,reduceCtorEq] at h
    cases h
    simp [closing]
  | finish =>
    cases c <;> simp only [runStep,reduceCtorEq] at h
    cases h
    simp [closing]
  | close pc => simp [closing] at hc
  | skipped => cases c <;> simp [runStep] at h
  | ended r => cases c <;> simp [runStep] at h

theorem addStep_reference {j j' : Job R} {pc pc' : AddPc} {c : Choice R}
    (h : addStep j pc c = some (j',pc')) :
    j'.ackRef = j.ackRef ∧ j'.history = j.history ∧ (j'.status = .closed → j.status = .closed) := by
  cases pc <;> cases c <;> simp only [addStep,reduceCtorEq] at h
  cases h
  split <;> simp

structure AckInv (j : Job R) (ts : List (Thread R)) : Prop where
  stored : j.ackRef ≠ some .totals
  missing : j.ackRef = none → Acked j ∨ 0 < total refOut ts
  closed : j.status = .closed → Acked j
  past : ∀ l ∈ ts, ∀ pc, closing l = some pc → pc.past = true → Acked j

section Closed

variable {j j' : Job R} {xs ys : List (Thread R)}

theorem ackInv_update {l l' : Thread R} (hi : AckInv j (xs ++ l :: ys))
    (ha : Acked j → Acked j') (hs : j'.ackRef ≠ some .totals)
    (hm : j'.ackRef = none → Acked j' ∨ 0 < refOut l' ∨ (j.ackRef = none ∧ refOut l ≤ refOut l'))
    (hc : j'.status = .closed → j.status = .closed ∨ Acked j')
    (hp : ∀ pc, closing l' = some pc → pc.past = true → Acked j') :
    AckInv j' (xs ++ l' :: ys) := by
  obtain ⟨-,hm₀,hc₀,hp₀⟩ := hi
  simp only [total_append,total_cons,List.forall_mem_append,List.forall_mem_cons] at hm₀ hp₀
  refine ⟨hs,?_,?_,?_⟩
  · intro hn
    simp only [total_append,total_cons]
    rcases hm hn with h | h | ⟨h1,h2⟩
    · exact .inl h
    · exact .inr (by omega)
    · rcases hm₀ h1 with h | h
      · exact .inl (ha h)
      · exact .inr (by omega)
  · intro hcl
    rcases hc hcl with h | h
    · exact ha (hc₀ h)
    · exact h
  · simp only [List.forall_mem_append,List.forall_mem_cons]
    exact ⟨fun t ht pc h1 h2 => ha (hp₀.1 t ht pc h1 h2),hp,
      fun t ht pc h1 h2 => ha (hp₀.2.2 t ht pc h1 h2)⟩

theorem acked_of_missing {l : Thread R} {c : Choice R} (hi : AckInv j (xs ++ l :: ys))
    (hok : referenceKept ⟨j,xs ++ l :: ys⟩ (.act xs.length c) = true) (hl : looks l = true)
    (hn : j.ackRef = none) : Acked j := by
  simp only [referenceKept,getElem?_split,hl,hn,Option.isNone_none,Bool.and_self,Bool.true_and,
    Bool.not_eq_true',decide_eq_false_iff_not] at hok
  exact (hi.missing hn).resolve_right hok

theorem ackInv_close {l l' : Thread R} {pc pc' : ClosePc} {c : Choice R}
    (hi : AckInv j (xs ++ l :: ys))
    (hok : referenceKept ⟨j,xs ++ l :: ys⟩ (.act xs.length c) = true)
    (hl : closing l = some pc) (hl' : closing l' = some pc')
    (h : closeStep j pc c = some (j',pc')) : AckInv j' (xs ++ l' :: ys) := by
  have hpast : pc.past = true → Acked j := fun hp => hi.past l (by simp) pc hl hp
  have hr := refOut_of_closing hl
  have hr' := refOut_of_closing hl'
  have keep (hq : pc'.past = true → Acked j) (hh : pc.held = pc'.held) :
      AckInv j (xs ++ l' :: ys) := by
    refine ackInv_update hi id hi.stored (fun hn => .inr (.inr ⟨hn,by omega⟩)) .inl ?_
    intro q hq' hp
    rw [hl'] at hq'
    cases hq'
    exact hq hp
  cases pc with
  | load =>
    cases c <;> simp only [closeStep,reduceCtorEq] at h
    split at h
    · cases h
      exact keep (by simp [ClosePc.past]) rfl
    · rename_i hns
      cases h
      refine keep (fun _ => acked_of_missing hi hok (by simp [looks,hl]) ?_) rfl
      cases hn : j.ackRef with
      | none => rfl
      | some a =>
        cases a with
        | totals => exact absurd hn hi.stored
        | storage id r => exact absurd hn (hns id r)
  | check =>
    cases c <;> simp only [closeStep,reduceCtorEq] at h
    split at h <;> cases h <;> exact keep (by simp [ClosePc.past]) rfl
  | swap =>
    cases c <;> simp only [closeStep,reduceCtorEq] at h
    split at h
    · rename_i hn
      cases h
      exact keep (fun _ => acked_of_missing hi hok (by simp [looks,hl]) hn) rfl
    · cases h
      refine ackInv_update hi id (by simp) (fun _ => .inr (.inl (by simp [hr',ClosePc.held]))) .inl ?_
      simp [hl',ClosePc.past]
    · cases h
  | call id reason =>
    cases c <;> simp only [closeStep,reduceCtorEq] at h
    cases h
    refine ackInv_update hi (fun ha => List.mem_cons_of_mem _ ha) hi.stored
      (fun _ => .inr (.inl (by simp [hr',ClosePc.held]))) .inl ?_
    simp [hl',ClosePc.past]
  | answer id reason =>
    cases c <;> simp only [closeStep,reduceCtorEq] at h
    rename_i ok
    cases h
    cases ok
    · refine ackInv_update hi (fun ha => List.mem_cons_of_mem _ ha) hi.stored
        (fun _ => .inr (.inl (by simp [hr',ClosePc.held]))) .inl ?_
      simp [hl',ClosePc.past]
    · exact ackInv_update hi (fun ha => List.mem_cons_of_mem _ ha) hi.stored
        (fun _ => .inl (by simp [Acked])) .inl (fun _ _ _ => by simp [Acked])
  | putBack id reason =>
    cases c <;> simp only [closeStep,reduceCtorEq] at h
    cases h
    refine ackInv_update hi (fun ha => ha) (by simp) (by simp) .inl ?_
    simp [hl',ClosePc.past]
  | claimLoad =>
    cases c <;> simp only [closeStep,reduceCtorEq] at h
    split at h <;> cases h <;> exact keep (fun _ => hpast rfl) rfl
  | claimCas s =>
    cases c <;> simp only [closeStep,reduceCtorEq] at h
    split at h <;> cases h
    · exact ackInv_update hi id hi.stored (fun hn => .inr (.inr ⟨hn,by simp [hr,ClosePc.held]⟩))
        (fun _ => .inr (hpast rfl)) (fun _ _ _ => hpast rfl)
    · exact keep (fun _ => hpast rfl) rfl
  | done =>
    cases c <;> simp only [closeStep,reduceCtorEq] at h
    cases h
    exact ackInv_update hi id hi.stored (fun hn => .inr (.inr ⟨hn,by simp [hr,ClosePc.held]⟩)) .inl
      (fun _ _ _ => hpast rfl)
  | returned r => cases c <;> simp [closeStep] at h

theorem ackInv_run {l l' : Thread R} (hi : AckInv j (xs ++ l :: ys)) (hl : closing l = none)
    (hl' : closing l' = none ∨ closing l' = some .load)
    (hc : j'.status = .closed → j.status = .closed)
    (hr : (j'.ackRef = j.ackRef ∧ j'.history = j.history) ∨
      ((j.ackRef = none ∨ j.ackRef = some .totals) ∧ j'.ackRef = j.ackRef ∧
        j'.history = .failed :: j.history) ∨
      (∃ id e, j'.ackRef = some (.storage id (some e)) ∧ j'.history = .failed :: j.history)) :
    AckInv j' (xs ++ l' :: ys) := by
  have h0 := refOut_of_none hl
  have hp : ∀ pc, closing l' = some pc → pc.past = true → Acked j' := by
    intro pc hpc hpast
    rcases hl' with hn | hn <;> rw [hn] at hpc <;> cases hpc
    simp [ClosePc.past] at hpast
  rcases hr with ⟨h1,h2⟩ | ⟨-,h1,h2⟩ | ⟨a,e,h1,h2⟩
  · exact ackInv_update hi (by simp [Acked,h2]) (h1 ▸ hi.stored)
      (fun hn => .inr (.inr ⟨h1 ▸ hn,by omega⟩)) (fun h => .inl (hc h)) hp
  · exact ackInv_update hi (by simp [Acked,h2]) (h1 ▸ hi.stored)
      (fun hn => .inr (.inr ⟨h1 ▸ hn,by omega⟩)) (fun h => .inl (hc h)) hp
  · exact ackInv_update hi (by simp [Acked,h2]) (by simp [h1]) (by simp [h1])
      (fun h => .inl (hc h)) hp

theorem ackInv_step {l l' : Thread R} {c : Choice R} {new : List (Thread R)}
    (hi : AckInv j (xs ++ l :: ys))
    (hok : referenceKept ⟨j,xs ++ l :: ys⟩ (.act xs.length c) = true)
    (h : step j l c = some (j',l',new)) : AckInv j' (xs ++ l' :: (ys ++ new)) := by
  obtain ⟨rfl,⟨pc,pc',hl,hl',hs⟩ | ⟨r,rfl,rfl,rfl⟩ | ⟨pc,pc',rfl,hl,rfl,hs⟩ | ⟨pc,pc',rfl,rfl,hs⟩⟩ :=
    closing_step h
  all_goals rw [List.append_nil]
  · exact ackInv_close hi hok hl hl' hs
  · exact ackInv_update hi id hi.stored (fun hn => .inr (.inr ⟨hn,by simp [refOut,closing,ClosePc.held]⟩))
      .inl (by simp [closing])
  · obtain ⟨h1,h2,h3⟩ := runStep_reference hl hs
    refine ackInv_run hi hl h1 h2 ?_
    rcases h3 with h3 | ⟨e,-,h3⟩ | ⟨id,e,-,h3⟩
    · exact .inl h3
    · exact .inr (.inl h3)
    · exact .inr (.inr ⟨id,e,h3⟩)
  · obtain ⟨h1,h2,h3⟩ := addStep_reference hs
    exact ackInv_run hi rfl (.inl rfl) h3 (.inl ⟨h1,h2⟩)

theorem ackInv_call {ts : List (Thread R)} {l : Thread R} (hi : AckInv j ts)
    (he : entry j l = true) : AckInv j (ts ++ [l]) := by
  have hl : l = .close .load := entry_eq he
  subst hl
  obtain ⟨hs,hm,hc,hp⟩ := hi
  refine ⟨hs,?_,hc,?_⟩
  · simpa [refOut,closing,ClosePc.held] using hm
  · rw [List.forall_mem_append]
    exact ⟨hp,by simp [closing,ClosePc.past]⟩

end Closed

structure Acknowledged (w : World (Job R) (Thread R)) : Prop where
  acked : w.shared.status = .closed → Acked w.shared
  untouched : ∀ i l pc c w', w.threads[i]? = some l → closing l = some pc →
    pc.reporting = true → (program R).next w (.act i c) = some w' →
    w'.shared.status = w.shared.status
  retry : ∀ i l id reason c w', w.threads[i]? = some l → closing l = some (.putBack id reason) →
    (program R).next w (.act i c) = some w' → w'.shared.ackRef = some (.storage id reason) ∧
    ∃ l', w'.threads[i]? = some l' ∧
      closing l' = some (.returned (some (.acknowledgeJob w.shared.id id)))

theorem next_closing {w w' : World (Job R) (Thread R)} {i : ℕ} {l : Thread R} {pc : ClosePc}
    {c : Choice R} (hl : w.threads[i]? = some l) (hc : closing l = some pc)
    (hr : ∀ r, pc ≠ .returned r) (hn : (program R).next w (.act i c) = some w') :
    ∃ l' pc', w'.threads[i]? = some l' ∧ closing l' = some pc' ∧
      closeStep w.shared pc c = some (w'.shared,pc') := by
  obtain ⟨j,ts⟩ := w
  obtain ⟨xs,ys,rfl,rfl,-⟩ := set_split hl
  obtain ⟨j',l',new,hs,rfl⟩ := Program.next_act hn
  refine ⟨l',?_⟩
  change step j l c = _ at hs
  obtain ⟨rfl,⟨q,q',h1,h2,h3⟩ | ⟨r,rfl,-,-⟩ | ⟨q,q',rfl,h1,-,-⟩ | ⟨q,q',rfl,-,-⟩⟩ := closing_step hs
  · rw [hc] at h1
    cases h1
    exact ⟨q',by simp,h2,h3⟩
  · cases hc
    exact absurd rfl (hr r)
  · simp [hc] at h1
  · simp [closing] at hc

theorem closed_only_once_acknowledged [Inhabited R] (id ackId : String) (k : Kind) (s : Status)
    (hs : s ≠ .closed) {w : World (Job R) (Thread R)}
    (h : (program R).Reach referenceKept (start id k s (some (.storage ackId none))) w) :
    Acknowledged w := by
  have hi : AckInv w.shared w.threads := by
    apply Program.reach_invariant _ _ _ h
    · refine ⟨by simp [start,newJob],by simp [start,newJob],by simp [start,newJob,hs],?_⟩
      simp [start,closing]
    · intro j ts l hj _ he
      exact ackInv_call hj he
    · intro j xs l ys c j' l' new hj hok hst
      exact ackInv_step hj hok hst
  refine ⟨hi.closed,?_,?_⟩
  · intro i l pc c w' hl hc hp hn
    obtain ⟨l',pc',-,-,hcs⟩ := next_closing hl hc (by rintro r rfl; simp [ClosePc.reporting] at hp) hn
    exact closeStep_reporting hp hcs
  · intro i l a reason c w' hl hc hn
    obtain ⟨l',pc',hl',hc',hcs⟩ := next_closing hl hc (by simp) hn
    cases c <;> simp only [closeStep,reduceCtorEq,Option.some.injEq,Prod.mk.injEq] at hcs
    obtain ⟨hj,rfl⟩ := hcs
    exact ⟨by rw [← hj],l',hl',hc'⟩

theorem closed_only_once_acknowledged_by_close :
    ∃ w : World (Job ℕ) (Thread ℕ),
      (program ℕ).Reach referenceKept
        (start "a" .plain .queued (some (.storage "ack-1" none))) w ∧
      Acknowledged w ∧ w.shared.status = .closed := by
  obtain ⟨w,hr,hv⟩ := Program.exists_reach_of_run (program ℕ) referenceKept
    (start "a" .plain .queued (some (.storage "ack-1" none)))
    [.call (.close .load),.act 2 .go,.act 2 .go,.act 2 .go,.act 2 .go,.act 2 (.answered true),
      .act 2 .go,.act 2 .go,.act 2 .go] (fun w => w.shared.status = .closed) (by decide)
  exact ⟨w,hr,closed_only_once_acknowledged _ _ _ _ (by decide) hr,by simpa using hv⟩

-- The second Close finds no reference while the first one's Acknowledge is still undecided.
theorem closed_while_unacknowledged :
    ¬ ∀ w : World (Job ℕ) (Thread ℕ),
      (program ℕ).Reach always (start "a" .plain .queued (some (.storage "ack-1" none))) w →
      w.shared.status = .closed → Acked w.shared := by
  intro hall
  obtain ⟨w,hr,hv⟩ := Program.exists_reach_of_run (program ℕ) always
    (start "a" .plain .queued (some (.storage "ack-1" none)))
    [.call (.close .load),.call (.close .load),.act 2 .go,.act 2 .go,.act 2 .go,.act 2 .go,
      .act 3 .go,.act 3 .go,.act 3 .go]
    (fun w => w.shared.status = .closed ∧ .answered true ∉ w.shared.history) (by decide)
  have hv : w.shared.status = .closed ∧ .answered true ∉ w.shared.history := by simpa using hv
  exact hv.2 (hall w hr hv.1)

section Outcome

variable {j j' : Job R} {xs ys : List (Thread R)}

def unreasoned (l : Thread R) : Bool :=
  match closing l with
  | some pc => pc.unreasoned
  | none => false

structure OutcomeInv (j : Job R) (ts : List (Thread R)) : Prop where
  stored : j.ackRef ≠ some .totals
  token : j.ackRef.toList.length + total refOut ts + j.history.count (.answered true) = 1
  reasoned : .failed ∈ j.history →
    (∀ id, j.ackRef ≠ some (.storage id none)) ∧ ∀ l ∈ ts, unreasoned l = false
  ordered : ackAfterFail j.history = false

theorem outcomeInv_update {l l' : Thread R} (hi : OutcomeInv j (xs ++ l :: ys))
    (hs : j'.ackRef ≠ some .totals)
    (ht : j'.ackRef.toList.length + refOut l' + j'.history.count (.answered true) =
      j.ackRef.toList.length + refOut l + j.history.count (.answered true))
    (hr : .failed ∈ j'.history → .failed ∈ j.history ∨ total refOut (xs ++ ys) = 0)
    (hn : .failed ∈ j'.history → (∀ id, j'.ackRef ≠ some (.storage id none)) ∧
      unreasoned l' = false)
    (ho : ackAfterFail j'.history = false) : OutcomeInv j' (xs ++ l' :: ys) := by
  obtain ⟨-,ht₀,hr₀,-⟩ := hi
  simp only [total_append,total_cons,List.forall_mem_append,List.forall_mem_cons] at ht₀ hr₀
  refine ⟨hs,?_,?_,ho⟩
  · simp only [total_append,total_cons]
    omega
  · intro hf
    obtain ⟨h1,h2⟩ := hn hf
    refine ⟨h1,?_⟩
    simp only [List.forall_mem_append,List.forall_mem_cons]
    rcases hr hf with hold | hz
    · exact ⟨(hr₀ hold).2.1,h2,(hr₀ hold).2.2.2⟩
    · rw [total_append] at hz
      have hq (ts : List (Thread R)) (h : total refOut ts = 0) : ∀ t ∈ ts, unreasoned t = false := by
        intro t ht
        have h0 := total_eq_zero.mp h t ht
        unfold unreasoned
        unfold refOut at h0
        split
        · rename_i pc hpc
          rw [hpc] at h0
          cases pc <;> simp_all [ClosePc.held,ClosePc.unreasoned]
        · rfl
      exact ⟨hq xs (by omega),h2,hq ys (by omega)⟩

theorem ackAfterFail_report {id : String} {reason : Option String} {hs : List Report}
    (h : .failed ∈ hs → reason ≠ none) : ackAfterFail (report id reason :: hs) = ackAfterFail hs := by
  cases reason with
  | none => simp_all [report,ackAfterFail]
  | some r => rfl

theorem count_report (id : String) (reason : Option String) (hs : List Report) :
    (report id reason :: hs).count (.answered true) = hs.count (.answered true) := by
  cases reason <;> simp [report]

theorem outcomeInv_close {l l' : Thread R} {pc pc' : ClosePc} {c : Choice R}
    (hi : OutcomeInv j (xs ++ l :: ys)) (hl : closing l = some pc) (hl' : closing l' = some pc')
    (h : closeStep j pc c = some (j',pc')) : OutcomeInv j' (xs ++ l' :: ys) := by
  have hr := refOut_of_closing hl
  have hr' := refOut_of_closing hl'
  have hu' : unreasoned l' = pc'.unreasoned := by simp [unreasoned,hl']
  have hu : .failed ∈ j.history → pc.unreasoned = false := by
    intro hf
    have := (hi.reasoned hf).2 l (by simp)
    simpa [unreasoned,hl] using this
  have keep (hh : pc.held = pc'.held) (hq : pc'.unreasoned = false) :
      OutcomeInv j (xs ++ l' :: ys) := by
    refine outcomeInv_update hi hi.stored (by omega) .inl ?_ hi.ordered
    intro hf
    exact ⟨(hi.reasoned hf).1,hu'.trans hq⟩
  cases pc with
  | load =>
    cases c <;> simp only [closeStep,reduceCtorEq] at h
    split at h <;> cases h <;> exact keep rfl rfl
  | check =>
    cases c <;> simp only [closeStep,reduceCtorEq] at h
    split at h <;> cases h <;> exact keep rfl rfl
  | swap =>
    cases c <;> simp only [closeStep,reduceCtorEq] at h
    split at h
    · cases h
      exact keep rfl rfl
    · rename_i a reason ha
      cases h
      refine outcomeInv_update hi (by simp) ?_ .inl ?_ hi.ordered
      · simp [hr,hr',ha,ClosePc.held]
      · intro hf
        refine ⟨by simp,?_⟩
        have := (hi.reasoned hf).1 a
        rw [hu']
        cases reason <;> simp_all [ClosePc.unreasoned]
    · cases h
  | call a reason =>
    cases c <;> simp only [closeStep,reduceCtorEq] at h
    cases h
    have hq : .failed ∈ j.history → reason ≠ none := by
      rintro hf rfl
      simpa [ClosePc.unreasoned] using hu hf
    have hm : .failed ∈ report a reason :: j.history → .failed ∈ j.history := by
      cases reason <;> simp [report]
    refine outcomeInv_update hi hi.stored ?_ (fun hf => .inl (hm hf)) ?_ ?_
    · simp only [count_report,hr,hr',ClosePc.held]
    · intro hf
      refine ⟨(hi.reasoned (hm hf)).1,?_⟩
      have := hq (hm hf)
      rw [hu']
      cases reason <;> simp_all [ClosePc.unreasoned]
    · exact (ackAfterFail_report hq).trans hi.ordered
  | answer a reason =>
    cases c <;> simp only [closeStep,reduceCtorEq] at h
    rename_i ok
    cases h
    have hm : .failed ∈ Report.answered ok :: j.history → .failed ∈ j.history := by simp
    refine outcomeInv_update hi hi.stored ?_ (fun hf => .inl (hm hf)) ?_ hi.ordered
    · cases ok <;> simp [hr,hr',ClosePc.held]
      omega
    · intro hf
      refine ⟨(hi.reasoned (hm hf)).1,?_⟩
      rw [hu']
      have := hu (hm hf)
      cases ok
      · cases reason <;> simp_all [ClosePc.unreasoned]
      · rfl
  | putBack a reason =>
    cases c <;> simp only [closeStep,reduceCtorEq] at h
    cases h
    have ht := hi.token
    simp only [total_append,total_cons,hr,ClosePc.held] at ht
    refine outcomeInv_update hi (by simp) ?_ .inl ?_ hi.ordered
    · simp only [hr,hr',ClosePc.held,Option.toList_some,List.length_singleton]
      omega
    · intro hf
      refine ⟨?_,hu'.trans rfl⟩
      rintro b hb
      have := hu hf
      cases hb
      simp [ClosePc.unreasoned] at this
  | claimLoad =>
    cases c <;> simp only [closeStep,reduceCtorEq] at h
    split at h <;> cases h <;> exact keep rfl rfl
  | claimCas s =>
    cases c <;> simp only [closeStep,reduceCtorEq] at h
    split at h <;> cases h
    · refine outcomeInv_update hi hi.stored (by rw [hr,hr']; rfl) .inl ?_ hi.ordered
      exact fun hf => ⟨(hi.reasoned hf).1,hu'.trans rfl⟩
    · exact keep rfl rfl
  | done =>
    cases c <;> simp only [closeStep,reduceCtorEq] at h
    cases h
    refine outcomeInv_update hi hi.stored (by rw [hr,hr']; rfl) .inl ?_ hi.ordered
    exact fun hf => ⟨(hi.reasoned hf).1,hu'.trans rfl⟩
  | returned r => cases c <;> simp [closeStep] at h

theorem outcomeInv_keep {l l' : Thread R} (hi : OutcomeInv j (xs ++ l :: ys))
    (h0 : refOut l = refOut l') (hu : unreasoned l' = false) (ha : j'.ackRef = j.ackRef)
    (hh : j'.history = j.history) : OutcomeInv j' (xs ++ l' :: ys) := by
  refine outcomeInv_update hi (ha ▸ hi.stored) (by rw [ha,hh]; omega) (by rw [hh]; exact .inl) ?_
    (hh ▸ hi.ordered)
  rw [hh,ha]
  exact fun hf => ⟨(hi.reasoned hf).1,hu⟩

theorem outcomeInv_fail {l l' : Thread R} (hi : OutcomeInv j (xs ++ l :: ys))
    (h0 : refOut l = 0) (h0' : refOut l' = 0) (hu : unreasoned l' = false)
    (hz : total refOut (xs ++ l :: ys) = 0) (hl : j'.ackRef.toList.length = j.ackRef.toList.length)
    (hr : ∀ id, j'.ackRef ≠ some (.storage id none)) (hs : j'.ackRef ≠ some .totals)
    (hh : j'.history = .failed :: j.history) : OutcomeInv j' (xs ++ l' :: ys) := by
  simp only [total_append,total_cons] at hz
  refine outcomeInv_update hi hs ?_ (fun _ => .inr ?_) (fun _ => ⟨hr,hu⟩) ?_
  · rw [hl,hh,h0,h0']
    simp
  · rw [total_append]
    omega
  · rw [hh]
    exact hi.ordered

theorem outcomeInv_run {pc pc' : RunPc R} {c : Choice R} (hi : OutcomeInv j (xs ++ .run pc :: ys))
    (hok : failInPlace ⟨j,xs ++ .run pc :: ys⟩ (.act xs.length c) = true)
    (hc : closing (.run pc) = none) (h : runStep j pc c = some (j',pc')) :
    OutcomeInv j' (xs ++ .run pc' :: ys) := by
  obtain ⟨h1,-,h3⟩ := runStep_reference hc h
  have h0 : refOut (.run pc) = 0 := refOut_of_none hc
  have h0' : refOut (.run pc') = 0 := by rcases h1 with h1 | h1 <;> simp [refOut,h1,ClosePc.held]
  have hu' : unreasoned (.run pc') = false := by
    rcases h1 with h1 | h1 <;> simp [unreasoned,h1,ClosePc.unreasoned]
  rcases h3 with ⟨ha,hh⟩ | ⟨e,rfl,hn,ha,hh⟩ | ⟨a,e,rfl,ha,hh⟩
  · exact outcomeInv_keep hi (h0.trans h0'.symm) hu' ha hh
  · simp only [failInPlace,getElem?_split,decide_eq_true_eq] at hok
    have hn : j.ackRef = none := hn.resolve_right hi.stored
    exact outcomeInv_fail hi h0 h0' hu' hok (by rw [ha]) (by simp [ha,hn]) (by simp [ha,hn]) hh
  · simp only [failInPlace,getElem?_split] at hok
    obtain ⟨b,hb⟩ := Option.isSome_iff_exists.mp hok
    have ht := hi.token
    simp only [hb,Option.toList_some,List.length_singleton] at ht
    exact outcomeInv_fail hi h0 h0' hu' (by omega) (by simp [ha,hb]) (by simp [ha]) (by simp [ha]) hh

theorem outcomeInv_step {l l' : Thread R} {c : Choice R} {new : List (Thread R)}
    (hi : OutcomeInv j (xs ++ l :: ys))
    (hok : failInPlace ⟨j,xs ++ l :: ys⟩ (.act xs.length c) = true)
    (h : step j l c = some (j',l',new)) : OutcomeInv j' (xs ++ l' :: (ys ++ new)) := by
  obtain ⟨rfl,⟨pc,pc',hl,hl',hs⟩ | ⟨r,rfl,rfl,rfl⟩ | ⟨pc,pc',rfl,hl,rfl,hs⟩ | ⟨pc,pc',rfl,rfl,hs⟩⟩ :=
    closing_step h
  all_goals rw [List.append_nil]
  · exact outcomeInv_close hi hl hl' hs
  · exact outcomeInv_keep hi rfl rfl rfl rfl
  · exact outcomeInv_run hi hok hl hs
  · obtain ⟨h1,h2,-⟩ := addStep_reference hs
    exact outcomeInv_keep hi rfl rfl h1 h2

theorem outcomeInv_call {ts : List (Thread R)} {l : Thread R} (hi : OutcomeInv j ts)
    (he : entry j l = true) : OutcomeInv j (ts ++ [l]) := by
  have hl : l = .close .load := entry_eq he
  subst hl
  obtain ⟨hs,ht,hr,ho⟩ := hi
  refine ⟨hs,?_,?_,ho⟩
  · simpa [refOut,closing,ClosePc.held] using ht
  · intro hf
    rw [List.forall_mem_append]
    exact ⟨(hr hf).1,(hr hf).2,by simp [unreasoned,closing,ClosePc.unreasoned]⟩

end Outcome

theorem outcome_reported_once [Inhabited R] (id ackId : String) (k : Kind) (s : Status)
    {w : World (Job R) (Thread R)}
    (h : (program R).Reach failInPlace (start id k s (some (.storage ackId none))) w) :
    w.shared.history.count (.answered true) ≤ 1 ∧ ackAfterFail w.shared.history = false := by
  have hi : OutcomeInv w.shared w.threads := by
    apply Program.reach_invariant _ _ _ h
    · refine ⟨by simp [start,newJob],?_,by simp [start,newJob],rfl⟩
      simp [start,newJob,refOut,closing]
    · intro j ts l hj _ he
      exact outcomeInv_call hj he
    · intro j xs l ys c j' l' new hj hok hst
      exact outcomeInv_step hj hok hst
  exact ⟨by have := hi.token; omega,hi.ordered⟩

theorem outcome_reported_once_rejected :
    ∃ w : World (Job ℕ) (Thread ℕ),
      (program ℕ).Reach failInPlace
        (start "a" .plain .queued (some (.storage "ack-1" none))) w ∧
      (w.shared.history.count (.answered true) ≤ 1 ∧ ackAfterFail w.shared.history = false) ∧
      w.shared.history = [.answered true,.reject "ack-1" "boom",.failed] := by
  obtain ⟨w,hr,hv⟩ := Program.exists_reach_of_run (program ℕ) failInPlace
    (start "a" .plain .queued (some (.storage "ack-1" none)))
    [.call (.close .load),.act 2 .go,.act 2 .go,.act 0 .go,.act 0 .go,.act 0 .go,
      .act 0 (.ran (.panic "boom")),.act 0 .go,.act 0 .go,.act 0 .go,.act 2 .go,.act 2 .go,
      .act 2 (.answered true)]
    (fun w => w.shared.history = [.answered true,.reject "ack-1" "boom",.failed]) (by decide)
  exact ⟨w,hr,outcome_reported_once _ _ _ _ hr,by simpa using hv⟩

-- A user Close past its status check takes the reference between fail's load and its store.
theorem outcome_reported_twice_or_late :
    ¬ ∀ w : World (Job ℕ) (Thread ℕ),
      (program ℕ).Reach always (start "a" .plain .queued (some (.storage "ack-1" none))) w →
      w.shared.history.count (.answered true) ≤ 1 ∧ ackAfterFail w.shared.history = false := by
  intro hall
  obtain ⟨w,hr,hv⟩ := Program.exists_reach_of_run (program ℕ) always
    (start "a" .plain .queued (some (.storage "ack-1" none)))
    [.call (.close .load),.act 2 .go,.act 2 .go,.act 0 .go,.act 0 .go,.act 0 .go,
      .act 0 (.ran (.panic "boom")),.act 0 .go,.act 2 .go,.act 2 .go,.act 0 .go,
      .act 2 (.answered false),.act 2 .go,.act 0 .go,.act 0 .go,.act 0 .go,.act 0 .go,.act 0 .go]
    (fun w => ackAfterFail w.shared.history) (by decide)
  have hv : ackAfterFail w.shared.history = true := by simpa using hv
  simp [(hall w hr).2] at hv

end Varmq.Jobs
