import Varmq.Leases.Bound
import Varmq.Leases.Acked

namespace Varmq.Leases

open Interleaving
open Varmq.Jobs (Job RunPc Outcome)

variable {T B : Type} {marshal : JobView T → Option B} {unmarshal : B → Except String (JobView T)}
  {s s' : Shared T B} {l l' : Thread T B} {c : Choice} {new xs ys ts : List (Thread T B)}
  {e : String × Message B}

-- The items a goroutine has not come to the end of.
def unfinished : Thread T B → List (String × Message B)
  | .loop (.emit rest) => rest
  | .run _ _ _ _ (.ended _) => []
  | .run ackId m _ _ _ => [(ackId,m)]
  | _ => []

-- The run still has its storage to tell, or its failure to tell it to report.
def telling : RunPc Unit → Bool
  | .close .claimLoad | .close (.claimCas _) | .close .done | .close (.returned none) => false
  | .close (.returned (some .jobProcessing)) | .close (.returned (some .jobAlreadyClosed)) => false
  | .ended _ => false
  | _ => true

def carries : Thread T B → List (String × Message B)
  | .loop (.emit rest) => rest
  | .run ackId m _ _ pc => if telling pc then [(ackId,m)] else []
  | _ => []

-- Why storage still has an item that nobody will tell it of.
inductive Explained (unmarshal : B → Except String (JobView T)) (s : Shared T B) (ackId : String)
    (m : Message B) : Prop
  | noAckId (h : ackId = "")
  | unparsed {e : ParseError} (h : toJob unmarshal m.body = .error e) (he : .parse m.key e ∈ s.errors)
  | closed {p : Parsed T} (h : toJob unmarshal m.body = .ok p) (hc : p.status = .closed)
  | refused {jobId : String} (h : .close m.key (.acknowledgeJob jobId ackId) ∈ s.errors)

def Tracked (unmarshal : B → Except String (JobView T)) (s : Shared T B) (ts : List (Thread T B))
    (e : String × Message B) : Prop :=
  (∃ t ∈ ts, e ∈ carries t) ∨ Explained unmarshal s e.1 e.2

theorem carries_unfinished {t : Thread T B} (h : e ∈ carries t) : e ∈ unfinished t := by
  cases t with
  | loop pc =>
    cases pc with
    | emit rest => exact h
    | _ => cases h
  | run ackId m data j pc =>
    cases pc with
    | ended r => cases h
    | _ =>
      simp only [carries] at h
      split at h
      · exact h
      · cases h
  | _ => cases h

theorem effect_errors {m : Message B} {data : T} {j : Job Unit} {pc : RunPc Unit} :
    s.errors ⊆ (effect s m data j pc c).errors := by
  unfold effect
  split
  case h_3 =>
    split
    · exact fun _ h => h
    · exact List.subset_append_left _ _
  case h_4 => exact (record_rest s _ _).2.2 ▸ fun _ h => h
  case h_5 =>
    split
    · exact fun _ h => h
    · exact List.subset_append_left _ _
  all_goals exact fun _ h => h

theorem requeue_errors {ackId : String} {n : ℕ} (h : s.requeue ackId n = some s') : s'.errors = s.errors := by
  unfold Shared.requeue at h
  split at h <;> cases h
  rfl

theorem act_errors (hs : Act marshal unmarshal s c l s' l' new) : s.errors ⊆ s'.errors := by
  cases hs with
  | failed | unparsed hp => exact List.subset_append_left _ _
  | run hc hr => exact effect_errors
  | requeued hq => exact requeue_errors hq ▸ fun _ h => h
  | _ => exact fun _ h => h

theorem Explained.later {ackId : String} {m : Message B} (h : Explained unmarshal s ackId m)
    (he : s.errors ⊆ s'.errors) : Explained unmarshal s' ackId m := by
  cases h with
  | noAckId h => exact .noAckId h
  | unparsed h hm => exact .unparsed h (he hm)
  | closed h hc => exact .closed h hc
  | refused h => exact .refused (he h)

theorem ref_none {ackId : String} {reason : Option String} (h : ref ackId reason = none) : ackId = "" := by
  by_contra hn
  rw [ref,if_neg hn] at h
  cases h

theorem record_gone (ackId : String) (reason : Option String) (m : Message B) :
    (ackId,m) ∉ (s.record ackId reason).nacked := by
  unfold Shared.record
  split
  · rename_i hnone
    intro hm
    simpa using List.find?_eq_none.mp hnone _ hm
  · split <;> simp [Shared.release]

-- A run stops carrying its item when storage is told, when there is nothing to tell, or with a report.
theorem close_tells {ackId : String} {m : Message B} {data : T} {j j' : Job Unit} {pc pc' : Jobs.ClosePc}
    (hf : Fits ackId j (.close pc)) (hc : possible c = true)
    (hs : Jobs.closeStep j pc (jobChoice c) = some (j',pc')) (ht : telling (.close pc) = true) :
    telling (.close pc') = true ∨ ackId = "" ∨ (ackId,m) ∉ (effect s m data j (.close pc) c).nacked := by
  cases pc with
  | load =>
    cases hj : jobChoice c <;> rw [hj] at hs <;> simp only [Jobs.closeStep] at hs <;> try cases hs
    split at hs <;> cases hs
    · exact .inl rfl
    · rename_i hno
      cases hr : ref ackId (failure j) with
      | none => exact .inr (.inl (ref_none hr))
      | some a =>
        cases a with
        | totals => exact absurd hr ref_totals
        | storage id reason => exact absurd (hf.1.trans hr) (hno id reason)
  | check =>
    cases hj : jobChoice c <;> rw [hj] at hs <;> simp only [Jobs.closeStep] at hs <;> try cases hs
    rw [hf.2.2] at hs
    cases hs
    exact .inl rfl
  | swap =>
    cases hj : jobChoice c <;> rw [hj] at hs <;> simp only [Jobs.closeStep] at hs <;> try cases hs
    split at hs <;> cases hs
    · rename_i hr
      exact .inr (.inl (ref_none (hf.1.symm.trans hr)))
    · exact .inl rfl
  | call id reason =>
    cases hj : jobChoice c <;> rw [hj] at hs <;> cases hs
    exact .inl rfl
  | answer id reason =>
    cases c with
    | answered ok recorded =>
      cases hs
      cases ok with
      | false => exact .inl rfl
      | true =>
        have hrec : recorded = true := by simpa [possible] using hc
        subst hrec
        rw [← hf.1]
        exact .inr (.inr (record_gone id reason m))
    | _ => cases hs
  | putBack id reason =>
    cases hj : jobChoice c <;> rw [hj] at hs <;> cases hs
    exact .inl rfl
  | returned r => cases hj : jobChoice c <;> rw [hj] at hs <;> cases hs
  | claimLoad | claimCas | done => cases ht

theorem afterFail_telling (kind : Jobs.Kind) (e : String) : telling (Jobs.afterFail kind e) = true := by
  unfold Jobs.afterFail
  split <;> rfl

theorem before_close {j j' : Job Unit} {pc pc' : RunPc Unit} {c : Jobs.Choice Unit}
    (hpc : ∀ q, pc ≠ .close q) (hs : Jobs.runStep j pc c = some (j',pc')) : telling pc' = true := by
  cases pc with
  | startLoad | startCas st | succeed =>
    cases c <;> simp only [Jobs.runStep] at hs <;> try cases hs
    split at hs <;> cases hs <;> rfl
  | running =>
    cases c with
    | ran o =>
      simp only [Jobs.runStep] at hs
      split at hs
      · cases o <;> cases hs
        · split <;> rfl
        · rfl
        · rfl
      · cases hs
    | _ => cases hs
  | failLoad e =>
    cases c <;> simp only [Jobs.runStep] at hs <;> try cases hs
    split at hs <;> cases hs
    · exact afterFail_telling _ _
    · rfl
    · exact afterFail_telling _ _
  | failStore id e =>
    cases c <;> cases hs
    exact afterFail_telling _ _
  | invoke | sendResult r | sendError e | finish =>
    cases c <;> cases hs
    rfl
  | skipped | ended r => cases c <;> cases hs
  | close q => exact absurd rfl (hpc q)

theorem run_tells {ackId : String} {m : Message B} {data : T} {j j' : Job Unit} {pc pc' : RunPc Unit}
    (hf : Fits ackId j pc) (hc : possible c = true)
    (hs : Jobs.runStep j pc (jobChoice c) = some (j',pc')) (ht : telling pc = true) :
    telling pc' = true ∨ ackId = "" ∨ (ackId,m) ∉ (effect s m data j pc c).nacked ∨
      ∃ jobId, .close m.key (.acknowledgeJob jobId ackId) ∈ (effect s m data j pc c).errors := by
  cases pc with
  | close pc =>
    by_cases hr : ∃ r, pc = .returned r
    · obtain ⟨r,rfl⟩ := hr
      cases r with
      | none => cases ht
      | some e =>
        cases e with
        | acknowledgeJob jobId id =>
          refine .inr (.inr (.inr ⟨jobId,?_⟩))
          have hid : id = ackId := hf
          subst hid
          simp [effect,Shared.report]
        | _ => cases ht
    · obtain ⟨k,q,hp,rfl,rfl⟩ := Jobs.runStep_close (fun r h => hr ⟨r,h⟩) hs
      exact (close_tells hf hc hp ht).imp_right fun h => h.imp_right .inl
  | _ => exact .inl (before_close (fun q h => by cases h) hs)

theorem carries_run {ackId : String} {m : Message B} {data : T} {j : Job Unit} {pc : RunPc Unit}
    (h : e ∈ carries (.run ackId m data j pc : Thread T B)) : telling pc = true ∧ e = (ackId,m) := by
  simp only [carries] at h
  split at h
  · exact ⟨‹_›,List.mem_singleton.mp h⟩
  · cases h

theorem carried (h : Told unmarshal s ts) (hl : l ∈ ts) (hs : Act marshal unmarshal s c l s' l' new)
    (hc : e ∈ carries l) (hn : e ∈ s'.nacked) :
    e ∈ carries l' ∨ (∃ t ∈ new, e ∈ carries t) ∨ Explained unmarshal s' e.1 e.2 := by
  cases hs with
  | @unparsed ackId m rest err hp =>
    rcases List.mem_cons.mp hc with rfl | hc
    · exact .inr (.inr (.unparsed hp (List.mem_append_right _ List.mem_cons_self)))
    · exact .inl hc
  | @skipped ackId m rest p hp hclosed =>
    rcases List.mem_cons.mp hc with rfl | hc
    · exact .inr (.inr (.closed hp hclosed))
    · exact .inl hc
  | @sent ackId m rest p hp hclosed =>
    rcases List.mem_cons.mp hc with rfl | hc
    · exact .inr (.inl ⟨_,List.mem_cons_self,List.mem_cons_self⟩)
    · exact .inl hc
  | @run ackId m data j j' pc pc' hpos hr =>
    obtain ⟨ht,rfl⟩ := carries_run hc
    obtain ⟨hf,-⟩ := h.runs _ hl
    rcases run_tells hf hpos hr ht with ht' | hid | hgone | ⟨jobId,he⟩
    · refine .inl ?_
      simp only [carries,ht',if_true]
      exact List.mem_cons_self
    · exact .inr (.inr (.noAckId hid))
    · exact absurd hn hgone
    · exact .inr (.inr (.refused he))
  | popped | emitted => cases hc
  | _ => cases hc

theorem act_kept (hs : Act marshal unmarshal s c l s' l' new) (hn : e ∈ s'.nacked) :
    e ∈ s.nacked ∨ e ∈ carries l' := by
  cases hs with
  | popped ha => exact List.mem_append.mp hn
  | run hc hr => exact .inl (effect_nacked hn)
  | requeued hq =>
    rw [(requeue_rest hq).2.2.2.2.2] at hn
    exact .inl (List.mem_of_mem_filter hn)
  | purged => cases hn
  | _ => exact .inl hn

structure Answered (unmarshal : B → Except String (JobView T)) (s : Shared T B) (ts : List (Thread T B)) :
    Prop where
  told : Told unmarshal s ts
  tracked : ∀ e ∈ s.nacked, Tracked unmarshal s ts e

theorem Answered.act (h : Answered unmarshal s (xs ++ l :: ys)) (hs : Act marshal unmarshal s c l s' l' new) :
    Answered unmarshal s' (xs ++ l' :: (ys ++ new)) := by
  refine ⟨h.told.act hs,fun e he => ?_⟩
  rcases act_kept hs he with hn | hc
  · rcases h.tracked e hn with ⟨t,ht,hc⟩ | hx
    · rcases mem_split ht with ht | rfl
      · exact .inl ⟨t,mem_of_act ht,hc⟩
      · rcases carried h.told ht hs hc he with hc | ⟨u,hu,hc⟩ | hx
        · exact .inl ⟨l',by simp,hc⟩
        · exact .inl ⟨u,by simp [hu],hc⟩
        · exact .inr hx
    · exact .inr (hx.later (act_errors hs))
  · exact .inl ⟨l',by simp,hc⟩

theorem Answered.call (h : Answered unmarshal s ts) (he : entry s l = true) :
    Answered unmarshal s (ts ++ [l]) :=
  ⟨h.told.call he,fun e hn => (h.tracked e hn).imp_left fun ⟨t,ht,hc⟩ => ⟨t,List.mem_append_left _ ht,hc⟩⟩

theorem nothing_held_silently {w : World (Shared T B) (Thread T B)}
    (h : (program marshal unmarshal).Reach always init w) {ackId : String} {m : Message B}
    (hm : (ackId,m) ∈ w.shared.nacked) :
    (∃ t ∈ w.threads, (ackId,m) ∈ unfinished t) ∨ Explained unmarshal w.shared ackId m := by
  have hend : Answered unmarshal w.shared w.threads := by
    refine Program.reach_invariant (I := Answered unmarshal) ?_ (fun _ _ _ hi _ he => hi.call he)
      (fun _ _ _ _ _ _ _ _ hi _ hs => hi.act (step_act hs)) h
    exact ⟨told_init,fun e he => by cases he⟩
  exact (hend.tracked _ hm).imp_left fun ⟨t,ht,hc⟩ => ⟨t,ht,carries_unfinished hc⟩

-- Another producer's bytes do not parse, and storage cannot record the end of a job.
def leftHeld : List (Event (Thread ℕ (Option (JobView ℕ))) Choice) :=
  [.call (.foreign (.bytes none) false),.act 0 (.place 0),.call (.add "42" 7 .json),.act 1 (.now 1),
    .act 1 (.place 1),.call (.loop .idle),.act 2 (.credit 2),.act 2 (.pop ["a","b"]),.act 2 .go,.act 2 .go,
    .act 2 .go,.act 3 .go,.act 3 .go,.act 3 .go,.act 3 (.ran (.ok ())),.act 3 .go,.act 3 .go,.act 3 .go,
    .act 3 .go,.act 3 .go,.act 3 .go,.act 3 (.answered false false),.act 3 .go,.act 3 .go]

theorem nothing_held_silently_refused : ∃ w, (program marshalView unmarshalView).Reach always init w ∧
    ("a",⟨0,.bytes none⟩) ∈ w.shared.nacked ∧ (∀ t ∈ w.threads, unfinished t = []) ∧
    Explained unmarshalView w.shared "a" ⟨0,.bytes none⟩ ∧
    Explained unmarshalView w.shared "b" ⟨1,.bytes (some ⟨"42","Created",7,1⟩)⟩ := by
  obtain ⟨w,hr,hp⟩ := Program.exists_reach_of_run (program marshalView unmarshalView) always init leftHeld
    (fun w => decide (("a",⟨0,.bytes none⟩) ∈ w.shared.nacked) &&
      decide (("b",⟨1,.bytes (some ⟨"42","Created",7,1⟩)⟩) ∈ w.shared.nacked) &&
      w.threads.all fun t => (unfinished t).isEmpty) (by decide)
  simp only [Bool.and_eq_true,decide_eq_true_eq,List.all_eq_true,List.isEmpty_iff] at hp
  obtain ⟨⟨ha,hb⟩,hend⟩ := hp
  have hover : ∀ {e : String × Message (Option (JobView ℕ))}, ¬∃ t ∈ w.threads, e ∈ unfinished t := by
    rintro e ⟨t,ht,he⟩
    rw [hend t ht] at he
    cases he
  exact ⟨w,hr,ha,hend,(nothing_held_silently hr ha).resolve_left hover,
    (nothing_held_silently hr hb).resolve_left hover⟩

end Varmq.Leases
