import Varmq.Leases.Acked

namespace Varmq.Leases

open Interleaving
open Varmq.Jobs (Job RunPc Outcome Kind)

variable {T B : Type} {marshal : JobView T → Option B} {unmarshal : B → Except String (JobView T)}
  {s s' : Shared T B} {l l' : Thread T B} {c : Choice} {new xs ys ts : List (Thread T B)} {k : ℕ}

-- In the queue, or handed out once.
def Held (s : Shared T B) (m : Message B) : Prop := m ∈ s.pending ∨ ∃ ackId, (ackId,m) ∈ s.issued

-- A step stores one item or none.
inductive Booked (s : Shared T B) (l : Thread T B) (s' : Shared T B) : Prop
  | same (hn : s'.next = s.next) (ha : s'.added = s.added) (hi : ∀ m, Held s' m → Held s m)
  | put (body : Body B) (hn : s'.next = s.next + 1) (ha : s'.added = s.added)
      (hi : ∀ m, Held s' m → Held s m ∨ m = ⟨s.next,body⟩)
  | added (id : String) (data : T) (b : B) (hl : l = .add id data (.enqueue b)) (hn : s'.next = s.next + 1)
      (ha : s'.added = s.added ++ [(s.next,id,data)])
      (hi : ∀ m, Held s' m → Held s m ∨ m = ⟨s.next,.bytes b⟩)

theorem enqueue_held {n : ℕ} {body : Body B} {m : Message B} (h : Held (s.enqueue n body) m) :
    Held s m ∨ m = ⟨s.next,body⟩ := by
  rcases h with h | h
  · rcases (List.mem_insertIdx (Nat.min_le_right _ _)).mp h with rfl | h
    · exact .inr rfl
    · exact .inl (.inl h)
  · exact .inl (.inr h)

theorem dequeue_held {ackIds : List String} {m : Message B} (h : Held (s.dequeue ackIds) m) : Held s m := by
  rcases h with h | ⟨ackId,h⟩
  · exact .inl (List.mem_of_mem_drop h)
  · rcases List.mem_append.mp h with h | h
    · exact .inr ⟨ackId,h⟩
    · exact .inl (List.of_mem_zip h).2

theorem requeue_held {ackId : String} {n : ℕ} {m : Message B} (hi : ∀ e ∈ s.nacked, e ∈ s.issued)
    (hs : s.requeue ackId n = some s') (h : Held s' m) : Held s m := by
  unfold Shared.requeue at hs
  split at hs <;> cases hs
  rename_i id m' hm
  rcases h with h | h
  · rcases (List.mem_insertIdx (Nat.min_le_right _ _)).mp h with rfl | h
    · exact .inr ⟨id,hi _ (List.mem_of_find?_eq_some hm)⟩
    · exact .inl h
  · exact .inr h

theorem requeue_next {ackId : String} {n : ℕ} (h : s.requeue ackId n = some s') : s'.next = s.next := by
  unfold Shared.requeue at h
  split at h <;> cases h
  rfl

theorem act_booked (hi : ∀ e ∈ s.nacked, e ∈ s.issued) (hs : Act marshal unmarshal s c l s' l' new) :
    Booked s l s' := by
  cases hs with
  | @stored id data b n => exact .added id data b rfl rfl rfl fun m => enqueue_held
  | @foreign body n => exact .put body rfl rfl fun m => enqueue_held
  | popped ha => exact .same rfl rfl fun m => dequeue_held
  | @run ackId m data j j' pc pc' hc hr =>
    have hapart := effect_apart s m data j pc c
    refine .same hapart.next hapart.added fun m' h => ?_
    rwa [Held,hapart.pending,hapart.issued] at h
  | requeued hq => exact .same (requeue_next hq) (requeue_rest hq).2.1 fun m => requeue_held hi hq
  | purged => exact .same rfl rfl fun m h => h.elim (fun h => by cases h) .inr
  | _ => exact .same rfl rfl fun m h => h

def Coming (marshal : JobView T → Option B) : Thread T B → Prop
  | .add id data (.enqueue b) => ∃ ms, json marshal id .created data ms = some b
  | _ => True

theorem coming_own (hs : Act marshal unmarshal s c l s' l' new) : Coming marshal l' := by
  cases hs with
  | json hb => exact ⟨_,hb⟩
  | _ => trivial

-- Every item reads as the job it was added for, and was run as no other.
structure Labelled (marshal : JobView T → Option B) (unmarshal : B → Except String (JobView T))
    (s : Shared T B) (ts : List (Thread T B)) : Prop where
  told : Told unmarshal s ts
  coming : ∀ t ∈ ts, Coming marshal t
  added : ∀ a ∈ s.added, a.1 < s.next
  held : ∀ m, Held s m → m.key < s.next ∧
    ∀ id data, (m.key,id,data) ∈ s.added → toJob unmarshal m.body = .ok ⟨id,data,.created⟩
  ran : ∀ r ∈ s.ran, r.key < s.next ∧ ∀ id data, (r.key,id,data) ∈ s.added → r.id = id ∧ r.data = data

-- What a run says of its item holds of the item.
theorem Labelled.running {ackId : String} {m : Message B} {data : T} {j : Job Unit} {pc : RunPc Unit}
    (h : Labelled marshal unmarshal s ts) (ht : .run ackId m data j pc ∈ ts) :
    m.key < s.next ∧ ∀ id d, (m.key,id,d) ∈ s.added → j.id = id ∧ data = d := by
  obtain ⟨hlt,hbody⟩ := h.held m (.inr ⟨ackId,h.told.issued.dealt _ ht _ List.mem_cons_self⟩)
  obtain ⟨-,-,⟨status,hp⟩,-⟩ := h.told.runs _ ht
  refine ⟨hlt,fun id d ha => ?_⟩
  have heq := hp.symm.trans (hbody id d ha)
  cases heq
  exact ⟨rfl,rfl⟩

theorem act_ran_mem {r : Ran T} (hs : Act marshal unmarshal s c l s' l' new) (hr : r ∈ s'.ran) :
    r ∈ s.ran ∨ ∃ ackId m data j pc, l = .run ackId m data j pc ∧ r.key = m.key ∧ r.id = j.id ∧ r.data = data := by
  cases hs with
  | @run ackId m data j j' pc pc' hc hrun =>
    rw [effect_ran] at hr
    rcases List.mem_append.mp hr with hr | hr
    · exact .inl hr
    · simp only [Option.mem_toList,Option.mem_def,Option.map_eq_some_iff] at hr
      obtain ⟨o,-,rfl⟩ := hr
      exact .inr ⟨ackId,m,data,j,pc,rfl,rfl,rfl,rfl⟩
  | requeued hq => exact .inl ((requeue_rest hq).2.2.1 ▸ hr)
  | _ => exact .inl hr

theorem Labelled.act (hf : Faithful marshal unmarshal) (h : Labelled marshal unmarshal s (xs ++ l :: ys))
    (hs : Act marshal unmarshal s c l s' l' new) :
    Labelled marshal unmarshal s' (xs ++ l' :: (ys ++ new)) := by
  have hran : ∀ r ∈ s'.ran, r.key < s.next ∧
      ∀ id data, (r.key,id,data) ∈ s.added → r.id = id ∧ r.data = data := by
    intro r hr
    rcases act_ran_mem hs hr with hr | ⟨ackId,m,data,j,pc,rfl,hkey,hid,hdata⟩
    · exact h.ran r hr
    · rw [hkey,hid,hdata]
      exact h.running (List.mem_append_right _ List.mem_cons_self)
  have hcoming : ∀ t ∈ xs ++ l' :: (ys ++ new), Coming marshal t := by
    refine forall_act (fun t ht => h.coming t (mem_of_other ht)) (coming_own hs) fun t ht => ?_
    obtain ⟨ackId,m,p,-,-,-,rfl⟩ := act_new hs ht
    trivial
  cases act_booked h.told.issued.nacked hs with
  | same hn ha hi =>
    refine ⟨h.told.act hs,hcoming,?_,fun m hm => ?_,?_⟩
    · rw [hn,ha]
      exact h.added
    · rw [hn,ha]
      exact h.held m (hi m hm)
    · rw [hn,ha]
      exact hran
  | put body hn ha hi =>
    refine ⟨h.told.act hs,hcoming,fun a hm => ?_,fun m hm => ?_,fun r hr => ?_⟩
    · rw [ha] at hm
      have := h.added a hm
      omega
    · rw [hn,ha]
      rcases hi m hm with hm | rfl
      · exact (h.held m hm).imp_left Nat.lt_succ_of_lt
      · exact ⟨Nat.lt_succ_self _,fun id data hm => absurd (h.added _ hm) (Nat.lt_irrefl _)⟩
    · rw [hn,ha]
      exact (hran r hr).imp_left Nat.lt_succ_of_lt
  | added id data b hl hn ha hi =>
    have hlast : ∀ {q id' data'}, (q,id',data') ∈ s'.added →
        (q,id',data') ∈ s.added ∨ q = s.next ∧ id' = id ∧ data' = data := by
      intro q id' data' hm
      rw [ha] at hm
      rcases List.mem_append.mp hm with hm | hm
      · exact .inl hm
      · cases List.mem_singleton.mp hm
        exact .inr ⟨rfl,rfl,rfl⟩
    refine ⟨h.told.act hs,hcoming,fun a hm => ?_,fun m hm => ?_,fun r hr => ?_⟩
    · rw [hn]
      rcases hlast hm with hm | ⟨he,-⟩
      · exact Nat.lt_succ_of_lt (h.added a hm)
      · omega
    · rw [hn]
      rcases hi m hm with hm | rfl
      · obtain ⟨hlt,hbody⟩ := h.held m hm
        refine ⟨Nat.lt_succ_of_lt hlt,fun id' data' hm => ?_⟩
        rcases hlast hm with hm | ⟨he,-⟩
        · exact hbody id' data' hm
        · omega
      · refine ⟨Nat.lt_succ_self _,fun id' data' hm => ?_⟩
        rcases hlast hm with hm | ⟨-,rfl,rfl⟩
        · exact absurd (h.added _ hm) (Nat.lt_irrefl _)
        · have hc := h.coming l (by simp)
          rw [hl] at hc
          obtain ⟨ms,hb⟩ := hc
          exact toJob_json hf hb
    · rw [hn]
      obtain ⟨hlt,hsame⟩ := hran r hr
      refine ⟨Nat.lt_succ_of_lt hlt,fun id' data' hm => ?_⟩
      rcases hlast hm with hm | ⟨he,-⟩
      · exact hsame id' data' hm
      · omega

theorem Labelled.call (h : Labelled marshal unmarshal s ts) (he : entry s l = true) :
    Labelled marshal unmarshal s (ts ++ [l]) := by
  refine ⟨h.told.call he,forall_call h.coming ?_,h.added,h.held,h.ran⟩
  unfold entry at he
  split at he <;> trivial

theorem labelled_reach (hf : Faithful marshal unmarshal) {ok : Guard (Shared T B) (Thread T B) Choice}
    {w : World (Shared T B) (Thread T B)} (h : (program marshal unmarshal).Reach ok init w) :
    Labelled marshal unmarshal w.shared w.threads := by
  refine Program.reach_invariant (I := Labelled marshal unmarshal) ?_ (fun _ _ _ hi _ he => hi.call he)
    (fun _ _ _ _ _ _ _ _ hi _ hs => hi.act hf (step_act hs)) h
  refine ⟨told_init,(fun t ht => by cases ht),(fun a ha => by cases ha),(fun m hm => ?_),
    fun r hr => by cases hr⟩
  rcases hm with hm | ⟨ackId,hm⟩ <;> cases hm

theorem Labelled.ran_as (h : Labelled marshal unmarshal s ts) {r : Ran T} {id : String} {data : T}
    (hr : r ∈ s.ran) (ha : (r.key,id,data) ∈ s.added) : (⟨r.key,id,data,r.outcome⟩ : Ran T) ∈ s.ran := by
  obtain ⟨rfl,rfl⟩ := (h.ran r hr).2 id data ha
  exact hr

theorem acknowledged_after_run (hf : Faithful marshal unmarshal) {w : World (Shared T B) (Thread T B)}
    (h : (program marshal unmarshal).Reach always init w) {id : String} {data : T}
    (hk : (k,id,data) ∈ w.shared.added) :
    (k ∈ w.shared.completed → (⟨k,id,data,.ok ()⟩ : Ran T) ∈ w.shared.ran) ∧
    ∀ reason, (k,reason) ∈ w.shared.failed →
      ∃ o, o.failure = some reason ∧ (⟨k,id,data,o⟩ : Ran T) ∈ w.shared.ran := by
  have hend := labelled_reach hf h
  refine ⟨fun hc => ?_,fun reason hr => ?_⟩
  · obtain ⟨r,hran,rfl,hout⟩ := hend.told.completed k hc
    exact hout ▸ hend.ran_as hran hk
  · obtain ⟨r,hran,hkey,hout⟩ := hend.told.failed (k,reason) hr
    simp only at hkey
    subst hkey
    exact ⟨r.outcome,hout,hend.ran_as hran hk⟩

-- Of two jobs popped together one succeeds and one panics.
def oneFails : List (Event (Thread ℕ (Option (JobView ℕ))) Choice) :=
  [.call (.add "42" 7 .json),.act 0 (.now 1),.act 0 (.place 0),.call (.add "43" 8 .json),.act 1 (.now 2),
    .act 1 (.place 1),.call (.loop .idle),.act 2 (.credit 4),.act 2 (.pop ["a","b"]),.act 2 .go,.act 2 .go,
    .act 3 .go,.act 3 .go,.act 3 .go,.act 4 .go,.act 4 .go,.act 4 .go,.act 4 (.ran (.panic "out of stock")),
    .act 3 (.ran (.ok ())),.act 3 .go,.act 3 .go,.act 3 .go,.act 3 .go,.act 3 .go,.act 3 .go,
    .act 3 (.answered true true),.act 4 .go,.act 4 .go,.act 4 .go,.act 4 .go,.act 4 .go,.act 4 .go,
    .act 4 .go,.act 4 (.answered true true)]

theorem acknowledged_after_run_panic : ∃ w, (program marshalView unmarshalView).Reach always init w ∧
    0 ∈ w.shared.completed ∧ (⟨0,"42",7,.ok ()⟩ : Ran ℕ) ∈ w.shared.ran ∧
    ∃ o, o.failure = some "out of stock" ∧ (⟨1,"43",8,o⟩ : Ran ℕ) ∈ w.shared.ran := by
  obtain ⟨w,hr,hp⟩ := Program.exists_reach_of_run (program marshalView unmarshalView) always init oneFails
    (fun w => decide ((0,"42",7) ∈ w.shared.added) && decide ((1,"43",8) ∈ w.shared.added) &&
      decide (0 ∈ w.shared.completed) && decide ((1,"out of stock") ∈ w.shared.failed)) (by decide)
  simp only [Bool.and_eq_true,decide_eq_true_eq] at hp
  obtain ⟨⟨⟨ha,hb⟩,hc⟩,hf⟩ := hp
  exact ⟨w,hr,hc,(acknowledged_after_run view_faithful hr ha).1 hc,
    (acknowledged_after_run view_faithful hr hb).2 _ hf⟩

end Varmq.Leases
