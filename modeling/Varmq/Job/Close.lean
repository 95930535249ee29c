import Varmq.Job.Basic

namespace Varmq.Jobs

open Interleaving

variable {R : Type}

def inMemory (counted : Bool) : Option JobAck := if counted then some .totals else none

def ClosePc.claimed : ClosePc → ℕ
  | .done => 1
  | _ => 0

def ClosePc.closedNil : ClosePc → ℕ
  | .returned none => 1
  | _ => 0

@[simp] theorem claimed_done : ClosePc.done.claimed = 1 := rfl

@[simp] theorem claimed_load : ClosePc.load.claimed = 0 := rfl

@[simp] theorem claimed_returned (r : Option Error) : (ClosePc.returned r).claimed = 0 := rfl

@[simp] theorem closedNil_done : ClosePc.done.closedNil = 0 := rfl

@[simp] theorem closedNil_load : ClosePc.load.closedNil = 0 := rfl

@[simp] theorem closedNil_returned : (ClosePc.returned none).closedNil = 1 := rfl

def ClosePc.plain : ClosePc → Prop
  | .load | .claimLoad | .done | .returned _ => True
  | .claimCas s => closeable s = none
  | _ => False

def atDone : Thread R → ℕ
  | .close pc | .run (.close pc) => pc.claimed
  | _ => 0

def returnedNil : Thread R → ℕ
  | .close pc | .run (.close pc) => pc.closedNil
  | .run (.ended none) => 1
  | _ => 0

def isRun : Thread R → ℕ
  | .run _ => 1
  | _ => 0

def executing : Thread R → ℕ
  | .run .invoke | .run .running | .run (.sendResult _) | .run .succeed | .run (.failLoad _)
  | .run (.failStore _ _) | .run (.sendError _) | .run .finish => 1
  | _ => 0

def hasInvoked : Thread R → ℕ
  | .run .startLoad | .run (.startCas _) | .run .skipped | .run .invoke => 0
  | .run _ => 1
  | _ => 0

def Outcome.stored [Inhabited R] (k : Kind) : Outcome R → R × Option String
  | .ok r => (if k = .result then r else default,none)
  | .error e | .panic e => (default,if k = .plain then none else some e)

def Kept [Inhabited R] (j : Job R) : Prop :=
  ∃ o, j.outcome = some o ∧ (j.data,j.err) = o.stored j.kind

def Blank [Inhabited R] (j : Job R) : Prop := j.data = default ∧ j.err = none

def Failing [Inhabited R] (j : Job R) (e : String) : Prop :=
  Blank j ∧ ∃ o, j.outcome = some o ∧ o.failure = some e

def RunFine [Inhabited R] (j : Job R) : RunPc R → Prop
  | .startLoad => j.status ≠ .finished ∧ j.outcome = none ∧ Blank j
  | .startCas s => s ≠ .closed ∧ j.status ≠ .finished ∧ j.outcome = none ∧ Blank j
  | .skipped => j.status = .closed ∧ j.outcome = none ∧ Blank j
  | .invoke | .running => j.outcome = none ∧ Blank j
  | .sendResult r => j.outcome = some (.ok r) ∧ j.kind = .result ∧ Blank j
  | .succeed | .finish => Kept j
  | .failLoad e => Failing j e
  | .failStore _ _ => False
  | .sendError e => Failing j e ∧ j.kind ≠ .plain
  | .close pc => pc.plain ∧ (j.status = .finished ∨ j.status = .closed) ∧ Kept j ∧
      (∀ e, pc = .returned e → j.status = .closed)
  | .ended _ => j.status = .closed ∧ Kept j

def Fine [Inhabited R] (j : Job R) : Thread R → Prop
  | .close pc => pc.plain
  | .run pc => RunFine j pc
  | .add _ => True

structure Inv [Inhabited R] (j : Job R) (ts : List (Thread R)) : Prop where
  unacked : ∀ id r, j.ackRef ≠ some (.storage id r)
  oneRun : total isRun ts = 1
  winners : total returnedNil ts + total atDone ts = if j.status = .closed then 1 else 0
  waitGroup : j.wg + total returnedNil ts = 1
  executing : total executing ts = if j.status = .processing then 1 else 0
  invoked : j.invoked = total hasInvoked ts
  fine : ∀ l ∈ ts, Fine j l

theorem closeStep_cases {j j' : Job R} {pc pc' : ClosePc} {c : Choice R}
    (h : closeStep j pc c = some (j',pc')) (hp : pc.plain)
    (hu : ∀ id r, j.ackRef ≠ some (.storage id r)) :
    (j' = j ∧ pc.claimed = 0 ∧ pc.closedNil = 0 ∧ pc'.claimed = 0 ∧ pc'.closedNil = 0 ∧
      pc'.plain ∧ ∀ e, pc' = .returned e → closeable j.status = e ∧ e ≠ none) ∨
    (closeable j.status = none ∧ pc.claimed = 0 ∧ pc.closedNil = 0 ∧ pc' = .done ∧
      j' = { j with status := .closed }) ∨
    (pc = .done ∧ pc' = .returned none ∧ j' = { j with wg := j.wg - 1 }) := by
  cases pc with
  | load =>
    cases c <;> simp only [closeStep] at h
    case go =>
      left
      cases h
      simp [ClosePc.claimed,ClosePc.closedNil,ClosePc.plain]
    all_goals cases h
  | claimLoad =>
    cases c <;> simp only [closeStep] at h
    case go =>
      left
      split at h
      · rename_i e he
        cases h
        simp [ClosePc.claimed,ClosePc.closedNil,ClosePc.plain,he]
      · rename_i he
        cases h
        simp [ClosePc.claimed,ClosePc.closedNil,ClosePc.plain,he]
    all_goals cases h
  | claimCas s =>
    cases c <;> simp only [closeStep] at h
    case go =>
      split at h
      · rename_i hs
        cases h
        right; left
        subst hs
        exact ⟨hp,rfl,rfl,rfl,rfl⟩
      · cases h
        left
        simp [ClosePc.claimed,ClosePc.closedNil,ClosePc.plain]
    all_goals cases h
  | done =>
    cases c <;> simp only [closeStep] at h
    case go =>
      cases h
      exact .inr (.inr ⟨rfl,rfl,rfl⟩)
    all_goals cases h
  | returned r => cases c <;> simp [closeStep] at h
  | check => exact hp.elim
  | swap => exact hp.elim
  | call id reason => exact hp.elim
  | answer id reason => exact hp.elim
  | putBack id reason => exact hp.elim

section Preservation

variable [Inhabited R] {j j' : Job R} {xs ys : List (Thread R)}

theorem fine_closed {l : Thread R} (h : Fine j l) : Fine { j with status := .closed } l := by
  cases l with
  | close pc => exact h
  | add pc => trivial
  | run pc => cases pc <;> simp_all [Fine,RunFine,Kept,Blank,Failing]

theorem fine_queued {l : Thread R} (h : Fine j l) (hs : j.status = .created) :
    Fine { j with status := .queued } l := by
  cases l with
  | close pc => exact h
  | add pc => trivial
  | run pc => cases pc <;> simp_all [Fine,RunFine,Kept,Blank,Failing]

theorem fine_wg {l : Thread R} (n : ℤ) (h : Fine j l) : Fine { j with wg := n } l := by
  cases l with
  | close pc => exact h
  | add pc => trivial
  | run pc => cases pc <;> exact h

theorem fine_other {l : Thread R} (h : Fine j l) (hr : isRun l = 0) : Fine j' l := by
  cases l with
  | close pc => exact h
  | add pc => trivial
  | run pc => simp [isRun] at hr

theorem inv_update {l l' : Thread R} (hi : Inv j (xs ++ l :: ys))
    (hu : ∀ id r, j'.ackRef ≠ some (.storage id r)) (ho : isRun l' = isRun l)
    (hw : returnedNil l' + atDone l' + (if j.status = .closed then 1 else 0) =
      returnedNil l + atDone l + if j'.status = .closed then 1 else 0)
    (hg : j'.wg + returnedNil l' = j.wg + returnedNil l)
    (he : executing l' + (if j.status = .processing then 1 else 0) =
      executing l + if j'.status = .processing then 1 else 0)
    (hv : j'.invoked + hasInvoked l = j.invoked + hasInvoked l')
    (hl : Fine j' l') (hf : ∀ t, Fine j t → isRun t + isRun l ≤ 1 → Fine j' t) :
    Inv j' (xs ++ l' :: ys) := by
  obtain ⟨-,ho₀,hw₀,hg₀,he₀,hv₀,hf₀⟩ := hi
  simp only [total_append,total_cons,List.forall_mem_append,List.forall_mem_cons]
    at ho₀ hw₀ hg₀ he₀ hv₀ hf₀
  have hx (t : Thread R) (ht : t ∈ xs) : isRun t + isRun l ≤ 1 := by
    have := le_total (f := isRun) ht
    omega
  have hy (t : Thread R) (ht : t ∈ ys) : isRun t + isRun l ≤ 1 := by
    have := le_total (f := isRun) ht
    omega
  refine ⟨hu,?_,?_,?_,?_,?_,?_⟩ <;>
    simp only [total_append,total_cons,List.forall_mem_append,List.forall_mem_cons]
  · omega
  · omega
  · push_cast at hg₀ ⊢; omega
  · omega
  · omega
  · exact ⟨fun t ht => hf t (hf₀.1 t ht) (hx t ht),hl,fun t ht => hf t (hf₀.2.2 t ht) (hy t ht)⟩

theorem inv_close {pc pc' : ClosePc} {c : Choice R} (hi : Inv j (xs ++ .close pc :: ys))
    (h : closeStep j pc c = some (j',pc')) : Inv j' (xs ++ .close pc' :: ys) := by
  have hl : pc.plain := hi.fine (.close pc) (by simp)
  rcases closeStep_cases h hl hi.unacked with
    ⟨rfl,h1,h2,h3,h4,hp,-⟩ | ⟨hs,h1,h2,rfl,rfl⟩ | ⟨rfl,rfl,rfl⟩
  · refine inv_update hi hi.unacked rfl ?_ ?_ rfl rfl hp (fun t ht _ => ht) <;>
      simp [returnedNil,atDone,h1,h2,h3,h4]
  · have hc : j.status ≠ .closed := by rintro hc; simp [hc,closeable] at hs
    have hr : j.status ≠ .processing := by rintro hc; simp [hc,closeable] at hs
    refine inv_update hi hi.unacked rfl ?_ ?_ ?_ rfl trivial (fun t ht _ => fine_closed ht) <;>
      simp [returnedNil,atDone,executing,h1,h2,hc,hr]
  · refine inv_update hi hi.unacked rfl ?_ ?_ rfl rfl trivial (fun t ht _ => fine_wg _ ht) <;>
      simp [returnedNil,atDone]

theorem inv_add {pc pc' : AddPc} {c : Choice R} (hi : Inv j (xs ++ .add pc :: ys))
    (h : addStep j pc c = some (j',pc')) : Inv j' (xs ++ .add pc' :: ys) := by
  cases pc <;> cases c <;> simp only [addStep,reduceCtorEq] at h
  simp only [Option.some.injEq,Prod.mk.injEq] at h
  obtain ⟨rfl,rfl⟩ := h
  by_cases hs : j.status = .created
  · rw [if_pos hs]
    refine inv_update hi hi.unacked rfl ?_ rfl ?_ rfl trivial (fun t ht _ => fine_queued ht hs) <;>
      simp [returnedNil,atDone,executing,hs]
  · rw [if_neg hs]
    exact inv_update hi hi.unacked rfl rfl rfl rfl rfl trivial (fun t ht _ => ht)

theorem inv_afterFail {e : String} (hi : Inv j (xs ++ .run (.failLoad e) :: ys)) (n : ℕ)
    (hs : List Report) :
    Inv { j with failed := n, history := hs } (xs ++ .run (afterFail j.kind e) :: ys) := by
  obtain ⟨h1,o,h2,h3⟩ : Failing j e := hi.fine (.run (.failLoad e)) (by simp)
  have hf : ∀ t : Thread R, Fine j t → isRun t + isRun (.run (.failLoad (R := R) e)) ≤ 1 →
      Fine { j with failed := n, history := hs } t := by
    intro t ht hr
    exact fine_other ht (by simpa [isRun] using hr)
  by_cases hp : j.kind = .plain
  · rw [afterFail,if_pos hp]
    refine inv_update hi hi.unacked rfl rfl rfl rfl rfl ⟨o,h2,?_⟩ hf
    cases o <;> simp_all [Outcome.stored,Outcome.failure,Blank]
  · rw [afterFail,if_neg hp]
    exact inv_update hi hi.unacked rfl rfl rfl rfl rfl ⟨⟨h1,o,h2,h3⟩,hp⟩ hf

theorem inv_run {pc pc' : RunPc R} {c : Choice R} (hi : Inv j (xs ++ .run pc :: ys))
    (h : runStep j pc c = some (j',pc')) : Inv j' (xs ++ .run pc' :: ys) := by
  have hl : RunFine j pc := hi.fine (.run pc) (by simp)
  have hf : ∀ t : Thread R, Fine j t → isRun t + isRun (.run pc) ≤ 1 → Fine j' t := by
    intro t ht hr
    exact fine_other ht (by simpa [isRun] using hr)
  have hx : executing (.run pc) = if j.status = .processing then 1 else 0 := by
    have ho := hi.oneRun
    have he := hi.executing
    simp only [total_append,total_cons,isRun] at ho he
    have hz (ts : List (Thread R)) (h : total isRun ts = 0) : total executing ts = 0 := by
      rw [total_eq_zero] at h ⊢
      intro t ht
      have := h t ht
      cases t <;> simp_all [isRun,executing]
    have := hz xs (by omega)
    have := hz ys (by omega)
    omega
  cases pc with
  | startLoad =>
    cases c <;> simp only [runStep,reduceCtorEq] at h
    obtain ⟨h1,h2,h3⟩ := hl
    split at h
    · rename_i e he
      cases h
      have hs : j.status = .closed := by cases hs : j.status <;> simp_all [notClosed]
      exact inv_update hi hi.unacked rfl rfl rfl rfl rfl ⟨hs,h2,h3⟩ hf
    · rename_i he
      cases h
      have hs : j.status ≠ .closed := by rintro hs; simp [hs,notClosed] at he
      exact inv_update hi hi.unacked rfl rfl rfl rfl rfl ⟨hs,h1,h2,h3⟩ hf
  | startCas s =>
    cases c <;> simp only [runStep,reduceCtorEq] at h
    obtain ⟨h1,h2,h3,h4⟩ := hl
    split at h
    · rename_i hs
      subst hs
      cases h
      have hr : j.status ≠ .processing := by rintro hr; simp [executing,hr] at hx
      refine inv_update hi hi.unacked rfl ?_ rfl ?_ rfl ⟨h3,h4⟩ hf <;>
        simp [returnedNil,atDone,executing,h1,hr]
    · cases h
      exact inv_update hi hi.unacked rfl rfl rfl rfl rfl ⟨h2,h3,h4⟩ hf
  | invoke =>
    cases c <;> simp only [runStep,reduceCtorEq] at h
    cases h
    exact inv_update hi hi.unacked rfl rfl rfl rfl (by simp [hasInvoked]) hl hf
  | running =>
    cases c <;> simp only [runStep,reduceCtorEq] at h
    obtain ⟨h1,h2⟩ := hl
    split at h
    · split at h
      · rename_i r _
        cases h
        by_cases hk : j.kind = .result
        · rw [if_pos hk]
          exact inv_update hi hi.unacked rfl rfl rfl rfl rfl ⟨rfl,hk,h2⟩ hf
        · rw [if_neg hk]
          refine inv_update hi hi.unacked rfl rfl rfl rfl rfl ⟨_,rfl,?_⟩ hf
          simp [Outcome.stored,hk,h2.1,h2.2]
      all_goals
        cases h
        exact inv_update hi hi.unacked rfl rfl rfl rfl rfl ⟨h2,_,rfl,rfl⟩ hf
    · cases h
  | sendResult r =>
    cases c <;> simp only [runStep,reduceCtorEq] at h
    obtain ⟨h1,h2,h3⟩ := hl
    cases h
    refine inv_update hi hi.unacked rfl rfl rfl rfl rfl ⟨_,h1,?_⟩ hf
    simp [Outcome.stored,h2,h3.2]
  | succeed =>
    cases c <;> simp only [runStep,reduceCtorEq] at h
    split at h <;> cases h
    all_goals exact inv_update hi hi.unacked rfl rfl rfl rfl rfl hl hf
  | failLoad e =>
    cases c <;> simp only [runStep,reduceCtorEq] at h
    split at h
    · cases h
      exact inv_afterFail hi _ _
    · rename_i id r hr
      exact absurd hr (hi.unacked id r)
    · cases h
      exact inv_afterFail hi _ _
  | failStore id e => exact hl.elim
  | sendError e =>
    cases c <;> simp only [runStep,reduceCtorEq] at h
    obtain ⟨⟨h1,o,h2,h3⟩,h4⟩ := hl
    cases h
    refine inv_update hi hi.unacked rfl rfl rfl rfl rfl ⟨o,h2,?_⟩ hf
    cases o <;> simp_all [Outcome.stored,Outcome.failure,h1.1]
  | finish =>
    cases c <;> simp only [runStep,reduceCtorEq] at h
    cases h
    have hs : j.status = .processing := by
      by_contra hs
      simp [executing,hs] at hx
    refine inv_update hi hi.unacked rfl ?_ rfl ?_ rfl ⟨trivial,.inl rfl,hl,by simp⟩ hf <;>
      simp [returnedNil,atDone,executing,hs]
  | close pc =>
    obtain ⟨hp,hs,hk,hr⟩ := hl
    by_cases hd : ∃ r, pc = .returned r
    · obtain ⟨r,rfl⟩ := hd
      cases c <;> simp only [runStep] at h
      · cases h
        refine inv_update hi hi.unacked rfl ?_ ?_ rfl rfl ⟨hr r rfl,hk⟩ hf <;>
          cases r <;> simp [returnedNil,atDone,ClosePc.closedNil]
      all_goals simp [closeStep] at h
    · obtain ⟨k,q,hq,rfl,rfl⟩ := runStep_close (fun r hr => hd ⟨r,hr⟩) h
      rcases closeStep_cases hq hp hi.unacked with
        ⟨rfl,h1,h2,h3,h4,hp',he⟩ | ⟨hc,h1,h2,rfl,rfl⟩ | ⟨rfl,rfl,rfl⟩
      · refine inv_update hi hi.unacked rfl ?_ ?_ rfl rfl ⟨hp',hs,hk,?_⟩ hf
        · simp [returnedNil,atDone,h1,h2,h3,h4]
        · simp [returnedNil,h2,h4]
        · intro e hq
          obtain ⟨hc,hn⟩ := he e hq
          rcases hs with hs | hs
          · simp only [hs,closeable] at hc
            exact absurd hc.symm hn
          · exact hs
      · have hs' : j.status = .finished := by
          rcases hs with hs | hs
          · exact hs
          · simp [hs,closeable] at hc
        refine inv_update hi hi.unacked rfl ?_ ?_ ?_ rfl ⟨trivial,.inr rfl,hk,by simp⟩ hf <;>
          simp [returnedNil,atDone,executing,h1,h2,hs']
      · have hs' : j.status = .closed := by
          have hw := hi.winners
          simp only [total_append,total_cons,returnedNil,atDone,claimed_done,closedNil_done] at hw
          by_contra hs'
          rw [if_neg hs'] at hw
          omega
        refine inv_update hi hi.unacked rfl ?_ ?_ rfl rfl ⟨trivial,hs,hk,fun _ _ => hs'⟩ hf <;>
          simp [returnedNil,atDone]
  | skipped => cases c <;> simp [runStep] at h
  | ended r => cases c <;> simp [runStep] at h

theorem inv_start (id : String) (k : Kind) (counted : Bool) :
    Inv (newJob (R := R) id k .created (inMemory counted)) [.run .startLoad,.add .markQueued] := by
  constructor
  case unacked => intro id r; cases counted <;> simp [newJob,inMemory]
  case fine => simp [Fine,RunFine,newJob,Blank]
  all_goals
    simp [newJob,isRun,returnedNil,atDone,executing,hasInvoked]

theorem inv_step {l l' : Thread R} {c : Choice R} {new : List (Thread R)}
    (hi : Inv j (xs ++ l :: ys)) (h : step j l c = some (j',l',new)) :
    Inv j' (xs ++ l' :: (ys ++ new)) := by
  obtain ⟨rfl,⟨pc,pc',rfl,rfl,hs⟩ | ⟨pc,pc',rfl,rfl,hs⟩ | ⟨pc,pc',rfl,rfl,hs⟩⟩ := step_cases h
  all_goals rw [List.append_nil]
  · exact inv_close hi hs
  · exact inv_run hi hs
  · exact inv_add hi hs

theorem inv_call {ts : List (Thread R)} {l : Thread R} (hi : Inv j ts)
    (he : entry j l = true) : Inv j (ts ++ [l]) := by
  have hl : l = .close .load := entry_eq he
  subst hl
  obtain ⟨hu,ho,hw,hg,hx,hv,hf⟩ := hi
  refine ⟨hu,?_,?_,?_,?_,?_,?_⟩ <;>
    simp only [total_append,total_cons,total_nil,isRun,returnedNil,atDone,executing,hasInvoked,
      claimed_load,closedNil_load,List.forall_mem_append]
  · exact ho
  · omega
  · omega
  · exact hx
  · exact hv
  · exact ⟨hf,by simp [Fine,ClosePc.plain]⟩

theorem inv_reach {id : String} {k : Kind} {counted : Bool} {w : World (Job R) (Thread R)}
    (h : (program R).Reach always (start id k .created (inMemory counted)) w) :
    Inv w.shared w.threads := by
  apply Program.reach_invariant (inv_start id k counted) _ _ h
  · intro j ts l hi _ he
    exact inv_call hi he
  · intro j xs l ys c j' l' new hi _ hs
    exact inv_step hi hs

theorem closed_step {l l' : Thread R} {c : Choice R} {new : List (Thread R)}
    (hi : Inv j (xs ++ l :: ys)) (hc : j.status = .closed) (h : step j l c = some (j',l',new)) :
    j'.status = .closed ∧ j'.invoked = j.invoked := by
  have hl : Fine j l := hi.fine l (by simp)
  have hx : executing l = 0 := by
    have := hi.executing
    simp only [total_append,total_cons,hc,reduceCtorEq,if_false] at this
    omega
  obtain ⟨-,⟨pc,pc',rfl,rfl,hs⟩ | ⟨pc,pc',rfl,rfl,hs⟩ | ⟨pc,pc',rfl,rfl,hs⟩⟩ := step_cases h
  · rcases closeStep_cases hs hl hi.unacked with ⟨rfl,-⟩ | ⟨ho,-⟩ | ⟨-,-,rfl⟩
    · exact ⟨hc,rfl⟩
    · simp [hc,closeable] at ho
    · exact ⟨hc,rfl⟩
  · cases pc with
    | startLoad => cases c <;> simp_all [runStep,notClosed]
    | startCas s =>
      have hn : j.status ≠ s := by rw [hc]; exact hl.1.symm
      cases c <;> simp_all [runStep]
    | close pc =>
      by_cases hd : ∃ r, pc = .returned r
      · obtain ⟨r,rfl⟩ := hd
        cases c <;> simp_all [runStep,closeStep]
      · obtain ⟨k,q,hq,rfl,rfl⟩ := runStep_close (fun r hr => hd ⟨r,hr⟩) hs
        rcases closeStep_cases hq hl.1 hi.unacked with ⟨rfl,-⟩ | ⟨ho,-⟩ | ⟨-,-,rfl⟩
        · exact ⟨hc,rfl⟩
        · simp [hc,closeable] at ho
        · exact ⟨hc,rfl⟩
    | skipped => cases c <;> simp [runStep] at hs
    | ended r => cases c <;> simp [runStep] at hs
    | _ => simp [executing] at hx
  · cases pc <;> cases c <;> simp only [addStep,reduceCtorEq] at hs
    simp only [hc,reduceCtorEq,if_false] at hs
    cases hs
    exact ⟨hc,rfl⟩

theorem closed_reach {w w' : World (Job R) (Thread R)} (hi : Inv w.shared w.threads)
    (hc : w.shared.status = .closed) (h : (program R).Reach always w w') :
    w'.shared.status = .closed ∧ w'.shared.invoked = w.shared.invoked := by
  have hall : Inv w'.shared w'.threads ∧ w'.shared.status = .closed ∧
      w'.shared.invoked = w.shared.invoked := by
    apply Program.reach_invariant (I := fun j ts => Inv j ts ∧ j.status = .closed ∧
      j.invoked = w.shared.invoked) ⟨hi,hc,rfl⟩ _ _ h
    · intro j ts l hj _ he
      exact ⟨inv_call hj.1 he,hj.2⟩
    · intro j xs l ys c j' l' new hj _ hs
      obtain ⟨hs',hv⟩ := closed_step hj.1 hj.2.1 hs
      exact ⟨inv_step hj.1 hs,hs',hv.trans hj.2.2⟩
  exact hall.2

theorem close_while_executing {pc : ClosePc} {r : Option Error} {c : Choice R}
    (hi : Inv j (xs ++ .close pc :: ys)) (hp : j.status = .processing)
    (h : closeStep j pc c = some (j',.returned r)) : r = some .jobProcessing := by
  rcases closeStep_cases h (hi.fine (.close pc) (by simp)) hi.unacked with
    ⟨-,-,-,-,-,-,he⟩ | ⟨ho,-⟩ | ⟨rfl,-⟩
  · obtain ⟨he,-⟩ := he r rfl
    rw [← he,hp]
    rfl
  · simp [hp,closeable] at ho
  · have hw := hi.winners
    simp only [total_append,total_cons,atDone,claimed_done,hp,reduceCtorEq,if_false] at hw
    omega

theorem kept_of_released (hi : Inv j xs) (hg : j.wg = 0) :
    (j.invoked = 0 ∧ j.outcome = none ∧ (j.data,j.err) = (default,none)) ∨
    (j.invoked = 1 ∧ Kept j) := by
  have hw := hi.waitGroup
  have hs : j.status = .closed := by
    by_contra hs
    have := hi.winners
    rw [if_neg hs] at this
    omega
  obtain ⟨l,hl,hr⟩ : ∃ l ∈ xs, isRun l ≠ 0 := by
    by_contra hn
    push Not at hn
    have := total_eq_zero.mpr hn
    have := hi.oneRun
    omega
  obtain ⟨as,bs,rfl⟩ := List.append_of_mem hl
  have hx := hi.executing
  have hv := hi.invoked
  have ho := hi.oneRun
  simp only [hs,reduceCtorEq,if_false,total_append,total_cons] at hx hv ho
  have hz (ts : List (Thread R)) (h : total isRun ts = 0) : total hasInvoked ts = 0 := by
    rw [total_eq_zero] at h ⊢
    intro t ht
    have := h t ht
    cases t <;> simp_all [isRun,hasInvoked]
  have hf := hi.fine l (by simp)
  cases l with
  | close pc => simp [isRun] at hr
  | add pc => simp [isRun] at hr
  | run pc =>
    rw [hz as (by simp only [isRun] at ho; omega),hz bs (by simp only [isRun] at ho; omega)] at hv
    cases pc with
    | startLoad => exact .inl ⟨by simpa [hasInvoked] using hv,hf.2.1,Prod.ext hf.2.2.1 hf.2.2.2⟩
    | startCas s => exact .inl ⟨by simpa [hasInvoked] using hv,hf.2.2.1,Prod.ext hf.2.2.2.1 hf.2.2.2.2⟩
    | skipped => exact .inl ⟨by simpa [hasInvoked] using hv,hf.2.1,Prod.ext hf.2.2.1 hf.2.2.2⟩
    | close pc => exact .inr ⟨by simpa [hasInvoked] using hv,hf.2.2.1⟩
    | ended r => exact .inr ⟨by simpa [hasInvoked] using hv,hf.2⟩
    | _ => simp [executing] at hx

end Preservation

def Executing (w : World (Job R) (Thread R)) : Prop := ∃ l ∈ w.threads, executing l = 1

structure ClosedOnce [Inhabited R] (w : World (Job R) (Thread R)) : Prop where
  winners : total returnedNil w.threads + total atDone w.threads =
    if w.shared.status = .closed then 1 else 0
  waitGroup : w.shared.wg = 1 - total returnedNil w.threads ∧ 0 ≤ w.shared.wg
  settled : ∀ r, .run (.ended r) ∈ w.threads ∨ .run .skipped ∈ w.threads →
    w.shared.status = .closed
  frozen : w.shared.status = .closed → ∀ w', (program R).Reach always w w' →
    w'.shared.status = .closed ∧ w'.shared.invoked = w.shared.invoked
  unstarted : ∀ s, .run .startLoad ∈ w.threads ∨ .run (.startCas s) ∈ w.threads →
    w.shared.invoked = 0
  once : w.shared.invoked ≤ 1
  refused : Executing w → ∀ i pc c w' r, w.threads[i]? = some (.close pc) →
    (program R).next w (.act i c) = some w' → w'.threads[i]? = some (.close (.returned r)) →
    r = some .jobProcessing
  value : ∀ v, resultValue w.shared = some v →
    (w.shared.invoked = 0 ∧ v = (default,none)) ∨
    (w.shared.invoked = 1 ∧ ∃ o, w.shared.outcome = some o ∧ v = o.stored w.shared.kind)
  error : ∀ e, errValue w.shared = some e →
    (w.shared.invoked = 0 ∧ e = none) ∨
    (w.shared.invoked = 1 ∧ ∃ o, w.shared.outcome = some o ∧ e = (o.stored w.shared.kind).2)

theorem close_returns_processing [Inhabited R] {w w' : World (Job R) (Thread R)} {i : ℕ}
    {pc : ClosePc} {c : Choice R} {r : Option Error} (hi : Inv w.shared w.threads)
    (hp : w.shared.status = .processing) (hl : w.threads[i]? = some (.close pc))
    (hn : (program R).next w (.act i c) = some w')
    (hr : w'.threads[i]? = some (.close (.returned r))) : r = some .jobProcessing := by
  obtain ⟨j,ts⟩ := w
  obtain ⟨xs,ys,rfl,rfl,-⟩ := set_split hl
  obtain ⟨j',l',new,hs,rfl⟩ := Program.next_act hn
  rw [getElem?_split] at hr
  cases hr
  change step j (.close pc) c = _ at hs
  obtain ⟨-,⟨a,b,ha,hb,hc⟩ | ⟨a,b,ha,hb,hc⟩ | ⟨a,b,ha,hb,hc⟩⟩ := step_cases hs
  · cases ha
    cases hb
    exact close_while_executing hi hp hc
  all_goals cases ha

theorem executing_status [Inhabited R] {w : World (Job R) (Thread R)}
    (hi : Inv w.shared w.threads) (hx : Executing w) : w.shared.status = .processing := by
  obtain ⟨l,hl,h1⟩ := hx
  have hle := le_total (f := executing) hl
  have := hi.executing
  by_contra hs
  rw [if_neg hs] at this
  omega

theorem invoked_le [Inhabited R] {j : Job R} {ts : List (Thread R)} (hi : Inv j ts) :
    j.invoked ≤ 1 := by
  have hle : total hasInvoked ts ≤ total isRun ts := by
    apply total_le
    intro l _
    cases l with
    | run pc => cases pc <;> simp [hasInvoked,isRun]
    | _ => simp [hasInvoked]
  rw [hi.invoked]
  exact Nat.le_trans hle (Nat.le_of_eq hi.oneRun)

theorem invoked_before_start [Inhabited R] {j : Job R} {ts : List (Thread R)} {l : Thread R}
    (hi : Inv j ts) (hl : l ∈ ts) (hr : isRun l = 1) (hv : hasInvoked l = 0) :
    j.invoked = 0 := by
  obtain ⟨as,bs,rfl⟩ := List.append_of_mem hl
  have ho := hi.oneRun
  have hj := hi.invoked
  simp only [total_append,total_cons] at ho hj
  have hz (ts : List (Thread R)) (h : total isRun ts = 0) : total hasInvoked ts = 0 := by
    rw [total_eq_zero] at h ⊢
    intro t ht
    have := h t ht
    cases t <;> simp_all [isRun,hasInvoked]
  rw [hj,hz as (by omega),hz bs (by omega),hv]

theorem job_closed_exactly_once [Inhabited R] (id : String) (k : Kind) (counted : Bool)
    {w : World (Job R) (Thread R)}
    (h : (program R).Reach always (start id k .created (inMemory counted)) w) : ClosedOnce w := by
  have hi := inv_reach h
  have hw := hi.waitGroup
  have hn := hi.winners
  constructor
  case winners => exact hn
  case waitGroup => split at hn <;> omega
  case settled =>
    rintro r (hr | hr)
    · exact (hi.fine _ hr).1
    · exact (hi.fine _ hr).1
  case frozen => intro hc w' hr; exact closed_reach hi hc hr
  case unstarted =>
    rintro s (hr | hr)
    · exact invoked_before_start hi hr rfl rfl
    · exact invoked_before_start hi hr rfl rfl
  case once => exact invoked_le hi
  case refused =>
    intro hx i pc c w' r hl hn hr
    exact close_returns_processing hi (executing_status hi hx) hl hn hr
  case value =>
    intro v hv
    unfold resultValue at hv
    split at hv
    case isFalse => cases hv
    case isTrue hg =>
      cases hv
      rcases kept_of_released hi hg with ⟨h1,-,h2⟩ | ⟨h1,h2⟩
      · exact .inl ⟨h1,h2⟩
      · exact .inr ⟨h1,h2⟩
  case error =>
    intro e he
    unfold errValue at he
    split at he
    case isFalse => cases he
    case isTrue hg =>
      cases he
      rcases kept_of_released hi hg with ⟨h1,-,h2⟩ | ⟨h1,o,h2,h3⟩
      · exact .inl ⟨h1,congrArg Prod.snd h2⟩
      · exact .inr ⟨h1,o,h2,congrArg Prod.snd h3⟩

theorem job_closed_exactly_once_after_run :
    ∃ w : World (Job ℕ) (Thread ℕ),
      (program ℕ).Reach always (start "a" .result .created (inMemory true)) w ∧
      ClosedOnce w ∧ resultValue w.shared = some (7,none) := by
  obtain ⟨w,hr,hv⟩ := Program.exists_reach_of_run (program ℕ) always
    (start "a" .result .created (inMemory true))
    [.act 1 .go,.act 0 .go,.act 0 .go,.act 0 .go,.call (.close .load),.act 2 .go,.act 2 .go,
      .act 0 (.ran (.ok 7)),.act 0 .go,.act 0 .go,.act 0 .go,.act 0 .go,.act 0 .go,.act 0 .go,
      .act 0 .go,.act 0 .go] (fun w => resultValue w.shared = some (7,none)) (by decide)
  exact ⟨w,hr,job_closed_exactly_once _ _ _ hr,by simpa using hv⟩

end Varmq.Jobs
