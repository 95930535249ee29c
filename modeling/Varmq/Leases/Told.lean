import Mathlib.Data.List.Nodup
import Varmq.Leases.Step

namespace Varmq.Leases

open Interleaving
open Varmq.Jobs (Job RunPc Outcome Kind)

variable {T B : Type} {marshal : JobView T → Option B} {unmarshal : B → Except String (JobView T)}
  {s s' : Shared T B} {l l' : Thread T B} {c : Choice} {new xs ys ts : List (Thread T B)} {k : ℕ}

def failure (j : Job Unit) : Option String := j.outcome.bind Outcome.failure

-- Where the run of a job that only its own goroutine touches is with the job's ack.
def Fits (ackId : String) (j : Job Unit) : RunPc Unit → Prop
  | .startLoad | .startCas _ => j.ackRef = ref ackId none ∧ j.status ≠ .closed ∧ j.outcome = none
  | .invoke | .running => j.ackRef = ref ackId none ∧ j.outcome = none
  | .succeed => j.ackRef = ref ackId none ∧ j.outcome = some (.ok ())
  | .failLoad e => j.ackRef = ref ackId none ∧ failure j = some e
  | .failStore id e => id = ackId ∧ ackId ≠ "" ∧ failure j = some e
  | .finish => j.ackRef = ref ackId (failure j) ∧ j.outcome ≠ none
  | .close .load | .close .check | .close .swap =>
      j.ackRef = ref ackId (failure j) ∧ j.outcome ≠ none ∧ j.status = .finished
  | .close (.call id reason) | .close (.answer id reason) =>
      id = ackId ∧ reason = failure j ∧ j.outcome ≠ none
  | .close (.putBack id _) | .close (.returned (some (.acknowledgeJob _ id))) => id = ackId
  | .sendResult _ | .sendError _ | .skipped => False
  | _ => True

theorem ref_storage {ackId id : String} {reason r : Option String} (h : ref ackId reason = some (.storage id r)) :
    id = ackId ∧ r = reason ∧ ackId ≠ "" := by
  unfold ref at h
  split at h
  · cases h
  · cases h
    exact ⟨rfl,rfl,‹_›⟩

theorem ref_totals {ackId : String} {reason : Option String} : ref ackId reason ≠ some .totals := by
  unfold ref
  split <;> exact fun h => by cases h

theorem close_kept {j j' : Job Unit} {pc pc' : Jobs.ClosePc} {c : Jobs.Choice Unit}
    (hs : Jobs.closeStep j pc c = some (j',pc')) :
    j'.kind = j.kind ∧ j'.id = j.id ∧ j'.outcome = j.outcome := by
  unfold Jobs.closeStep at hs
  split at hs
  case h_1 | h_2 | h_3 | h_7 | h_8 =>
    split at hs <;> cases hs <;> exact ⟨rfl,rfl,rfl⟩
  case h_4 | h_5 | h_6 | h_9 =>
    cases hs
    exact ⟨rfl,rfl,rfl⟩
  case h_10 => cases hs

theorem fits_close {ackId : String} {j j' : Job Unit} {pc pc' : Jobs.ClosePc} {c : Jobs.Choice Unit}
    (h : Fits ackId j (.close pc)) (hs : Jobs.closeStep j pc c = some (j',pc')) :
    Fits ackId j' (.close pc') := by
  cases pc with
  | load =>
    cases c <;> simp only [Jobs.closeStep] at hs <;> try cases hs
    split at hs <;> cases hs
    · exact h
    · trivial
  | check =>
    cases c <;> simp only [Jobs.closeStep] at hs <;> try cases hs
    rw [h.2.2] at hs
    cases hs
    exact h
  | swap =>
    cases c <;> simp only [Jobs.closeStep] at hs <;> try cases hs
    split at hs <;> cases hs
    · trivial
    · rename_i id reason hr
      obtain ⟨hid,hreason,-⟩ := ref_storage (h.1.symm.trans hr)
      exact ⟨hid,hreason,h.2.1⟩
  | call id reason =>
    cases c <;> cases hs
    exact h
  | answer id reason =>
    cases c <;> cases hs
    split
    · trivial
    · exact h.1
  | claimLoad =>
    cases c <;> simp only [Jobs.closeStep] at hs <;> try cases hs
    split at hs <;> cases hs
    · rename_i e he
      cases e with
      | acknowledgeJob jobId id => cases hst : j.status <;> simp [Jobs.closeable,hst] at he
      | _ => trivial
    · trivial
  | claimCas st =>
    cases c <;> simp only [Jobs.closeStep] at hs <;> try cases hs
    split at hs <;> cases hs <;> trivial
  | putBack id reason =>
    cases c <;> cases hs
    exact h
  | done =>
    cases c <;> cases hs
    trivial
  | returned r => cases c <;> cases hs

-- What the function of a job returns with this step.
def returns : RunPc Unit → Jobs.Choice Unit → Option (Outcome Unit)
  | .running,.ran o => some o
  | _,_ => none

structure Kept (pc : RunPc Unit) (c : Jobs.Choice Unit) (j j' : Job Unit) : Prop where
  kind : j'.kind = j.kind
  id : j'.id = j.id
  outcome : ∀ o, j'.outcome = some o → j.outcome = some o ∨ returns pc c = some o

theorem kept_of {pc : RunPc Unit} {c : Jobs.Choice Unit} {j j' : Job Unit} (hk : j'.kind = j.kind)
    (hi : j'.id = j.id) (ho : j'.outcome = j.outcome) : Kept pc c j j' :=
  ⟨hk,hi,fun o h => .inl (ho ▸ h)⟩

theorem failed_outcome {j : Job Unit} {e : String} (h : failure j = some e) : j.outcome ≠ none := by
  intro hn
  rw [failure,hn] at h
  cases h

theorem fits_step {ackId : String} {j j' : Job Unit} {pc pc' : RunPc Unit} {c : Jobs.Choice Unit}
    (h : Fits ackId j pc) (hk : j.kind = .plain) (hs : Jobs.runStep j pc c = some (j',pc')) :
    Fits ackId j' pc' ∧ Kept pc c j j' := by
  have hafter : ∀ e, (Jobs.afterFail .plain e : RunPc Unit) = .finish := fun e => rfl
  cases pc with
  | startLoad =>
    cases c <;> simp only [Jobs.runStep] at hs <;> try cases hs
    split at hs <;> cases hs
    · rename_i e he
      cases hst : j.status <;> simp [Jobs.notClosed,hst] at he
      exact absurd hst h.2.1
    · exact ⟨h,kept_of rfl rfl rfl⟩
  | startCas st =>
    cases c <;> simp only [Jobs.runStep] at hs <;> try cases hs
    split at hs <;> cases hs
    · exact ⟨⟨h.1,h.2.2⟩,kept_of rfl rfl rfl⟩
    · exact ⟨h,kept_of rfl rfl rfl⟩
  | invoke =>
    cases c <;> cases hs
    exact ⟨h,kept_of rfl rfl rfl⟩
  | running =>
    cases c with
    | ran o =>
      have hret : ∀ o', some o = some o' → j.outcome = some o' ∨ returns .running (.ran o) = some o' :=
        fun _ => .inr
      simp only [Jobs.runStep,hk] at hs
      split at hs
      · cases o <;> cases hs
        · exact ⟨⟨h.1,rfl⟩,hk.symm,rfl,hret⟩
        · exact ⟨⟨h.1,rfl⟩,hk.symm,rfl,hret⟩
        · exact ⟨⟨h.1,rfl⟩,hk.symm,rfl,hret⟩
      · cases hs
    | _ => cases hs
  | succeed =>
    cases c <;> simp only [Jobs.runStep] at hs <;> try cases hs
    split at hs <;> cases hs
    · rename_i hr
      exact absurd (h.1.symm.trans hr) ref_totals
    · refine ⟨⟨?_,?_⟩,kept_of rfl rfl rfl⟩
      · rw [h.1,failure,h.2]
        rfl
      · rw [h.2]
        exact fun hn => by cases hn
  | failLoad e =>
    have hne := failed_outcome h.2
    cases c <;> simp only [Jobs.runStep] at hs <;> try cases hs
    split at hs <;> cases hs
    · rename_i hr
      exact absurd (h.1.symm.trans hr) ref_totals
    · rename_i id r hr
      obtain ⟨hid,-,hemp⟩ := ref_storage (h.1.symm.trans hr)
      exact ⟨⟨hid,hemp,h.2⟩,kept_of rfl rfl rfl⟩
    · rename_i hr
      rw [hk,hafter]
      refine ⟨⟨?_,hne⟩,kept_of hk.symm rfl rfl⟩
      have hemp : ackId = "" := by
        by_contra hn
        rw [h.1,ref,if_neg hn] at hr
        cases hr
      simp only [hr,ref,hemp,if_true]
  | failStore id e =>
    have hne := failed_outcome h.2.2
    cases c <;> cases hs
    rw [hk,hafter]
    obtain ⟨rfl,hemp,he⟩ := h
    refine ⟨⟨?_,hne⟩,kept_of hk.symm rfl rfl⟩
    rw [failure] at he
    simp only [ref,if_neg hemp,failure,he]
  | finish =>
    cases c <;> cases hs
    exact ⟨⟨h.1,h.2,rfl⟩,kept_of rfl rfl rfl⟩
  | sendResult | sendError | skipped => cases h
  | close pc =>
    by_cases hr : ∃ r, pc = .returned r
    · obtain ⟨r,rfl⟩ := hr
      cases c <;> cases hs
      exact ⟨trivial,kept_of rfl rfl rfl⟩
    · obtain ⟨k,q,hp,rfl,rfl⟩ := Jobs.runStep_close (fun r h => hr ⟨r,h⟩) hs
      obtain ⟨hkind,hid,hout⟩ := close_kept hp
      exact ⟨fits_close h hp,kept_of hkind hid hout⟩
  | ended r => cases c <;> cases hs

def dealt : Thread T B → List (String × Message B)
  | .loop (.emit rest) => rest
  | .run ackId m _ _ _ => [(ackId,m)]
  | _ => []

-- An ack id stands for one item.
structure Issued (s : Shared T B) (ts : List (Thread T B)) : Prop where
  ids : (s.issued.map Prod.fst).Nodup
  nacked : ∀ e ∈ s.nacked, e ∈ s.issued
  dealt : ∀ t ∈ ts, ∀ e ∈ dealt t, e ∈ s.issued

theorem record_nacked {ackId : String} {reason : Option String} {e : String × Message B}
    (h : e ∈ (s.record ackId reason).nacked) : e ∈ s.nacked := by
  unfold Shared.record at h
  split at h
  · exact h
  · split at h <;> exact List.mem_of_mem_filter h

theorem effect_nacked {m : Message B} {data : T} {j : Job Unit} {pc : RunPc Unit}
    {e : String × Message B} (h : e ∈ (effect s m data j pc c).nacked) : e ∈ s.nacked := by
  unfold effect at h
  split at h
  · exact h
  · exact h
  · split at h <;> exact h
  · exact record_nacked h
  · split at h <;> exact h
  · exact h

theorem requeue_rest {ackId : String} {n : ℕ} (h : s.requeue ackId n = some s') :
    s'.issued = s.issued ∧ s'.added = s.added ∧ s'.ran = s.ran ∧ s'.completed = s.completed ∧
      s'.failed = s.failed ∧ s'.nacked = s.nacked.filter fun e => e.1 ≠ ackId := by
  unfold Shared.requeue at h
  split at h <;> cases h
  exact ⟨rfl,rfl,rfl,rfl,rfl,rfl⟩

theorem act_issued (hs : Act marshal unmarshal s c l s' l' new) : s.issued ⊆ s'.issued := by
  cases hs with
  | popped ha => exact List.subset_append_left _ _
  | @run ackId m data j j' pc pc' hc hr => exact (effect_apart s m data j pc c).issued ▸ fun _ h => h
  | requeued hq => exact (requeue_rest hq).1 ▸ fun _ h => h
  | _ => exact fun _ h => h

theorem act_nacked {e : String × Message B} (hs : Act marshal unmarshal s c l s' l' new)
    (he : e ∈ s'.nacked) : e ∈ s.nacked ∨ e ∈ s'.issued := by
  cases hs with
  | popped ha => exact (List.mem_append.mp he).imp_right (List.mem_append_right _)
  | run hc hr => exact .inl (effect_nacked he)
  | requeued hq =>
    rw [(requeue_rest hq).2.2.2.2.2] at he
    exact .inl (List.mem_of_mem_filter he)
  | purged => cases he
  | _ => exact .inl he

theorem act_dealt {e : String × Message B} (hs : Act marshal unmarshal s c l s' l' new)
    (he : e ∈ dealt l') : e ∈ dealt l ∨ e ∈ s'.issued := by
  cases hs with
  | popped ha => exact .inr (List.mem_append_right _ he)
  | unparsed hp | skipped hp hc | sent hp hc => exact .inl (List.mem_cons_of_mem _ he)
  | run hc hr => exact .inl he
  | _ => cases he

theorem act_new {t : Thread T B} (hs : Act marshal unmarshal s c l s' l' new) (ht : t ∈ new) :
    ∃ ackId m p, toJob unmarshal m.body = .ok p ∧ p.status ≠ .closed ∧ (ackId,m) ∈ dealt l ∧
      t = .run ackId m p.data (setAck (newJob p) ackId) .startLoad := by
  cases hs with
  | @sent ackId m rest p hp hc =>
    cases List.mem_singleton.mp ht
    exact ⟨ackId,m,p,hp,hc,List.mem_cons_self,rfl⟩
  | _ => cases ht

theorem answers_fresh {want : ℕ} {ackIds : List String} (h : s.answers want ackIds = true) :
    ackIds.length ≤ s.pending.length ∧ ackIds.Nodup ∧ ∀ id ∈ ackIds, id ∉ s.issued.map Prod.fst := by
  simp only [Shared.answers,Bool.and_eq_true,decide_eq_true_eq,List.all_eq_true,Bool.not_eq_true',
    List.contains_eq_mem,decide_eq_false_iff_not] at h
  exact ⟨h.1.1.1.2,h.1.1.2,h.2⟩

theorem Issued.act (h : Issued s (xs ++ l :: ys)) (hs : Act marshal unmarshal s c l s' l' new) :
    Issued s' (xs ++ l' :: (ys ++ new)) := by
  have hl : l ∈ xs ++ l :: ys := by simp
  refine ⟨?_,fun e he => ?_,forall_act (fun t ht e he => ?_) (fun e he => ?_) fun t ht e he => ?_⟩
  · cases hs with
    | popped ha =>
      obtain ⟨hlen,hnodup,hfresh⟩ := answers_fresh ha
      simp only [Shared.dequeue,List.map_append,List.map_fst_zip hlen]
      exact List.nodup_append.mpr ⟨h.ids,hnodup,fun a hs b hb hab => hfresh b hb (hab ▸ hs)⟩
    | @run ackId m data j j' pc pc' hc hr =>
      rw [(effect_apart s m data j pc c).issued]
      exact h.ids
    | requeued hq =>
      rw [(requeue_rest hq).1]
      exact h.ids
    | _ => exact h.ids
  · exact (act_nacked hs he).elim (fun he => act_issued hs (h.nacked e he)) id
  · exact act_issued hs (h.dealt t (mem_of_other ht) e he)
  · exact (act_dealt hs he).elim (fun he => act_issued hs (h.dealt l hl e he)) id
  · obtain ⟨ackId,m,p,-,-,hd,rfl⟩ := act_new hs ht
    cases List.mem_singleton.mp he
    exact act_issued hs (h.dealt l hl _ hd)

theorem Issued.same_item (h : Issued s ts) {ackId : String} {m m' : Message B} (hm : (ackId,m) ∈ s.issued)
    (hm' : (ackId,m') ∈ s.issued) : m = m' :=
  congrArg Prod.snd (List.inj_on_of_nodup_map h.ids hm hm' rfl)

end Varmq.Leases
