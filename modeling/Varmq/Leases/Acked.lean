import Varmq.Leases.Told

namespace Varmq.Leases

open Interleaving
open Varmq.Jobs (Job RunPc Outcome Kind)

variable {T B : Type} {marshal : JobView T → Option B} {unmarshal : B → Except String (JobView T)}
  {s s' : Shared T B} {l l' : Thread T B} {c : Choice} {new xs ys ts : List (Thread T B)} {k : ℕ}

-- A run knows the item it came from, and what its function returned is in the books.
def Runs (unmarshal : B → Except String (JobView T)) (s : Shared T B) : Thread T B → Prop
  | .run ackId m data j pc => Fits ackId j pc ∧ j.kind = .plain ∧
      (∃ status, toJob unmarshal m.body = .ok ⟨j.id,data,status⟩) ∧
      ∀ o, j.outcome = some o → ⟨m.key,j.id,data,o⟩ ∈ s.ran
  | _ => True

-- Storage has been told of an item what its function returned.
structure Told (unmarshal : B → Except String (JobView T)) (s : Shared T B) (ts : List (Thread T B)) :
    Prop where
  issued : Issued s ts
  runs : ∀ t ∈ ts, Runs unmarshal s t
  completed : ∀ k ∈ s.completed, ∃ r ∈ s.ran, r.key = k ∧ r.outcome = .ok ()
  failed : ∀ e ∈ s.failed, ∃ r ∈ s.ran, r.key = e.1 ∧ r.outcome.failure = some e.2

theorem record_completed {ackId : String} {reason : Option String}
    (h : k ∈ (s.record ackId reason).completed) :
    k ∈ s.completed ∨ reason = none ∧ ∃ m, (ackId,m) ∈ s.nacked ∧ m.key = k := by
  unfold Shared.record at h
  split at h
  · exact .inl h
  · rename_i id m hm
    have hid : id = ackId := by simpa using List.find?_some hm
    subst hid
    split at h
    · rcases List.mem_append.mp h with h | h
      · exact .inl h
      · exact .inr ⟨rfl,m,List.mem_of_find?_eq_some hm,(List.mem_singleton.mp h).symm⟩
    · exact .inl h

theorem record_failed {ackId r : String} {reason : Option String}
    (h : (k,r) ∈ (s.record ackId reason).failed) :
    (k,r) ∈ s.failed ∨ reason = some r ∧ ∃ m, (ackId,m) ∈ s.nacked ∧ m.key = k := by
  unfold Shared.record at h
  split at h
  · exact .inl h
  · rename_i id m hm
    have hid : id = ackId := by simpa using List.find?_some hm
    subst hid
    split at h
    · exact .inl h
    · rcases List.mem_append.mp h with h | h
      · exact .inl h
      · cases List.mem_singleton.mp h
        exact .inr ⟨rfl,m,List.mem_of_find?_eq_some hm,rfl⟩

theorem returns_none {pc : RunPc Unit} (h : ∀ o, pc = .running → c ≠ .ran o) :
    returns pc (jobChoice c) = none := by
  cases pc with
  | running =>
    cases c with
    | ran o => exact absurd rfl (h o rfl)
    | _ => rfl
  | _ => rfl

theorem effect_ran (s : Shared T B) (m : Message B) (data : T) (j : Job Unit) (pc : RunPc Unit)
    (c : Choice) : (effect s m data j pc c).ran =
      s.ran ++ ((returns pc (jobChoice c)).map fun o => ⟨m.key,j.id,data,o⟩).toList := by
  have hnil : s.ran = s.ran ++ ((none : Option (Outcome Unit)).map fun o => ⟨m.key,j.id,data,o⟩).toList :=
    (List.append_nil _).symm
  unfold effect
  split
  case h_1 => exact hnil
  case h_2 => rfl
  case h_3 => split <;> exact hnil
  case h_4 => exact (record_rest s _ _).2.1.trans hnil
  case h_5 => split <;> exact hnil
  case h_6 hrun _ =>
    rw [returns_none fun o hpc hc => hrun o hpc hc]
    exact hnil

-- Storage is told by an answer only, and it records what the run was about to say.
theorem effect_told {m : Message B} {data : T} {j : Job Unit} {pc : RunPc Unit} :
    ((effect s m data j pc c).completed = s.completed ∧ (effect s m data j pc c).failed = s.failed) ∨
      ∃ ackId reason, pc = .close (.answer ackId reason) ∧
        effect s m data j pc c = s.record ackId reason := by
  unfold effect
  split
  case h_3 => exact .inl (by split <;> exact ⟨rfl,rfl⟩)
  case h_4 => exact .inr ⟨_,_,rfl,rfl⟩
  case h_5 => exact .inl (by split <;> exact ⟨rfl,rfl⟩)
  all_goals exact .inl ⟨rfl,rfl⟩

theorem act_ran (hs : Act marshal unmarshal s c l s' l' new) : s.ran ⊆ s'.ran := by
  cases hs with
  | @run ackId m data j j' pc pc' hc hr =>
    rw [effect_ran]
    exact List.subset_append_left _ _
  | requeued hq => exact (requeue_rest hq).2.2.1 ▸ fun _ h => h
  | _ => exact fun _ h => h

theorem Runs.later {t : Thread T B} (h : Runs unmarshal s t) (hr : s.ran ⊆ s'.ran) : Runs unmarshal s' t := by
  cases t with
  | run ackId m data j pc => exact ⟨h.1,h.2.1,h.2.2.1,fun o ho => hr (h.2.2.2 o ho)⟩
  | _ => trivial

theorem runs_own (h : Runs unmarshal s l) (hs : Act marshal unmarshal s c l s' l' new) :
    Runs unmarshal s' l' := by
  cases hs with
  | @run ackId m data j j' pc pc' hc hr =>
    obtain ⟨hfits,hkind,hparsed,hran⟩ := h
    obtain ⟨hfits',hkept⟩ := fits_step hfits hkind hr
    refine ⟨hfits',hkept.kind.trans hkind,hkept.id ▸ hparsed,fun o ho => ?_⟩
    rw [effect_ran,hkept.id]
    rcases hkept.outcome o ho with ho | ho
    · exact List.mem_append_left _ (hran o ho)
    · rw [ho]
      exact List.mem_append_right _ List.mem_cons_self
  | _ => trivial

theorem runs_new {t : Thread T B} (hs : Act marshal unmarshal s c l s' l' new) (ht : t ∈ new) :
    Runs unmarshal s' t := by
  obtain ⟨ackId,m,p,hp,hc,-,rfl⟩ := act_new hs ht
  rw [setAck_ref rfl]
  refine ⟨⟨rfl,hc,rfl⟩,rfl,⟨p.status,hp⟩,fun o ho => ?_⟩
  cases ho

-- What a run is about to say of an item is what the function returned for it.
theorem Told.answering {ackId id : String} {reason : Option String} {m m' : Message B} {data : T}
    {j : Job Unit} (h : Told unmarshal s ts)
    (ht : .run ackId m data j (.close (.answer id reason)) ∈ ts) (hm' : (id,m') ∈ s.nacked) :
    ∃ r ∈ s.ran, r.key = m'.key ∧ reason = r.outcome.failure := by
  obtain ⟨⟨hid,hreason,hout⟩,-,-,hran⟩ := h.runs _ ht
  subst hid
  have hsame := h.issued.same_item (h.issued.dealt _ ht _ List.mem_cons_self) (h.issued.nacked _ hm')
  obtain ⟨o,ho⟩ := Option.ne_none_iff_exists'.mp hout
  refine ⟨_,hran o ho,congrArg Message.key hsame,?_⟩
  rw [hreason,failure,ho]
  rfl

theorem failure_none {o : Outcome Unit} (h : none = o.failure) : o = .ok () := by
  cases o with
  | ok u => rfl
  | error e | panic e => cases h

theorem told_completed (h : Told unmarshal s (xs ++ l :: ys)) (hs : Act marshal unmarshal s c l s' l' new)
    (hk : k ∈ s'.completed) : ∃ r ∈ s.ran, r.key = k ∧ r.outcome = .ok () := by
  cases hs with
  | @run ackId m data j j' pc pc' hc hr =>
    rcases @effect_told T B s c m data j pc with ⟨he,-⟩ | ⟨id,reason,rfl,he⟩
    · exact h.completed k (he ▸ hk)
    · rw [he] at hk
      rcases record_completed hk with hk | ⟨rfl,m',hm',rfl⟩
      · exact h.completed k hk
      · obtain ⟨r,hr,hkey,hout⟩ := h.answering (List.mem_append_right _ List.mem_cons_self) hm'
        exact ⟨r,hr,hkey,failure_none hout⟩
  | requeued hq => exact h.completed k ((requeue_rest hq).2.2.2.1 ▸ hk)
  | _ => exact h.completed k hk

theorem told_failed {r : String} (h : Told unmarshal s (xs ++ l :: ys))
    (hs : Act marshal unmarshal s c l s' l' new) (hk : (k,r) ∈ s'.failed) :
    ∃ u ∈ s.ran, u.key = k ∧ u.outcome.failure = some r := by
  cases hs with
  | @run ackId m data j j' pc pc' hc hr =>
    rcases @effect_told T B s c m data j pc with ⟨-,he⟩ | ⟨id,reason,rfl,he⟩
    · exact h.failed (k,r) (he ▸ hk)
    · rw [he] at hk
      rcases record_failed hk with hk | ⟨rfl,m',hm',rfl⟩
      · exact h.failed (k,r) hk
      · obtain ⟨u,hu,hkey,hout⟩ := h.answering (List.mem_append_right _ List.mem_cons_self) hm'
        exact ⟨u,hu,hkey,hout.symm⟩
  | requeued hq => exact h.failed (k,r) ((requeue_rest hq).2.2.2.2.1 ▸ hk)
  | _ => exact h.failed (k,r) hk

theorem Told.act (h : Told unmarshal s (xs ++ l :: ys)) (hs : Act marshal unmarshal s c l s' l' new) :
    Told unmarshal s' (xs ++ l' :: (ys ++ new)) := by
  have hran := act_ran hs
  refine ⟨h.issued.act hs,forall_act (fun t ht => ?_) (runs_own (h.runs l (by simp)) hs)
    (fun t ht => runs_new hs ht),fun k hk => ?_,fun e he => ?_⟩
  · exact (h.runs t (mem_of_other ht)).later hran
  · obtain ⟨r,hr,hkey,hout⟩ := told_completed h hs hk
    exact ⟨r,hran hr,hkey,hout⟩
  · obtain ⟨r,hr,hkey,hout⟩ := told_failed h hs he
    exact ⟨r,hran hr,hkey,hout⟩

theorem entry_idle (he : entry s l = true) : dealt l = [] ∧ Runs unmarshal s l := by
  unfold entry at he
  split at he <;> first | exact ⟨rfl,trivial⟩ | cases he

theorem Told.call (h : Told unmarshal s ts) (he : entry s l = true) : Told unmarshal s (ts ++ [l]) := by
  obtain ⟨hdealt,hruns⟩ := @entry_idle T B unmarshal s l he
  refine ⟨⟨h.issued.ids,h.issued.nacked,forall_call h.issued.dealt fun e hm => ?_⟩,
    forall_call h.runs hruns,h.completed,h.failed⟩
  rw [hdealt] at hm
  cases hm

theorem told_init : Told unmarshal (init : World (Shared T B) (Thread T B)).shared [] :=
  ⟨⟨List.nodup_nil,(fun e he => by cases he),fun t ht => by cases ht⟩,(fun t ht => by cases ht),
    (fun k hk => by cases hk),fun e he => by cases he⟩

end Varmq.Leases
