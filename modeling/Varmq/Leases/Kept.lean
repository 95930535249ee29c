import Varmq.Leases.Bound
import Varmq.Leases.Payload

namespace Varmq.Leases

open Interleaving
open Varmq.Jobs (Job RunPc Outcome)

variable {T B : Type} {marshal : JobView T → Option B} {unmarshal : B → Except String (JobView T)}
  {s s' : Shared T B} {l l' : Thread T B} {c : Choice} {new xs ys ts : List (Thread T B)} {k : ℕ}

def unpurged : Guard (Shared T B) (Thread T B) Choice
  | _, .call (.purge _) => false
  | _, _ => true

-- The places item k can be in.
def places (k : ℕ) (s : Shared T B) : ℕ :=
  s.pending.countP (keyed k) + s.nacked.countP (fun e => keyed k e.2) + s.completed.count k +
    s.failed.countP fun e => e.1 == k

structure Placed (s : Shared T B) (ts : List (Thread T B)) : Prop where
  issued : Issued s ts
  ids : (s.nacked.map Prod.fst).Nodup
  quiet : .purge false ∉ ts
  all : ∀ k, places k s = stored k s.next

theorem release_countP {es : List (String × Message B)} (hn : (es.map Prod.fst).Nodup)
    {id : String} {m : Message B} (hm : (id,m) ∈ es) (p : Message B → Bool) :
    (es.filter fun a => a.1 ≠ id).countP (fun a => p a.2) + (p m).toNat = es.countP fun a => p a.2 := by
  induction es with
  | nil => cases hm
  | cons a es ih =>
    obtain ⟨hfresh,hnodup⟩ := List.nodup_cons.mp hn
    rcases List.mem_cons.mp hm with rfl | hm
    · have hall : es.filter (fun a => decide (a.1 ≠ id)) = es := by
        refine List.filter_eq_self.mpr fun a ha => decide_eq_true fun heq => hfresh ?_
        exact List.mem_map.mpr ⟨a,ha,heq⟩
      rw [List.filter_cons_of_neg (by simp),hall,countP_cons_toNat]
    · have hne : a.1 ≠ id := fun heq => hfresh (heq ▸ List.mem_map_of_mem hm)
      have hrest := ih hnodup hm
      rw [List.filter_cons_of_pos (by simpa using hne),countP_cons_toNat,countP_cons_toNat]
      omega

theorem failed_concat (es : List (ℕ × String)) (m : Message B) (r : String) :
    (es ++ [(m.key,r)]).countP (fun e => e.1 == k) = es.countP (fun e => e.1 == k) + (keyed k m).toNat := by
  rw [List.countP_append,countP_cons_toNat,List.countP_nil,Nat.zero_add]
  rfl

theorem record_places (hn : (s.nacked.map Prod.fst).Nodup) (ackId : String) (reason : Option String) :
    places k (s.record ackId reason) = places k s ∧
      ((s.record ackId reason).nacked.map Prod.fst).Nodup := by
  unfold Shared.record
  split
  · exact ⟨rfl,hn⟩
  · rename_i id m hm
    have hid : id = ackId := by simpa using List.find?_some hm
    subst hid
    have hrel := release_countP hn (List.mem_of_find?_eq_some hm) (keyed k)
    have hsub : ((s.nacked.filter fun a => a.1 ≠ id).map Prod.fst).Nodup :=
      hn.sublist (List.filter_sublist.map _)
    split
    · refine ⟨?_,hsub⟩
      simp only [places,Shared.release,count_concat]
      omega
    · refine ⟨?_,hsub⟩
      simp only [places,Shared.release,failed_concat]
      omega

theorem requeue_places {ackId : String} {n : ℕ} (hn : (s.nacked.map Prod.fst).Nodup)
    (h : s.requeue ackId n = some s') :
    places k s' = places k s ∧ (s'.nacked.map Prod.fst).Nodup := by
  unfold Shared.requeue at h
  split at h <;> cases h
  rename_i id m hm
  have hid : id = ackId := by simpa using List.find?_some hm
  subst hid
  have hrel := release_countP hn (List.mem_of_find?_eq_some hm) (keyed k)
  refine ⟨?_,hn.sublist (List.filter_sublist.map _)⟩
  simp only [places,Shared.release,countP_insertIdx]
  omega

theorem effect_places (hn : (s.nacked.map Prod.fst).Nodup) (m : Message B) (data : T) (j : Job Unit)
    (pc : RunPc Unit) : places k (effect s m data j pc c) = places k s ∧
      ((effect s m data j pc c).nacked.map Prod.fst).Nodup := by
  unfold effect
  split
  case h_3 => split <;> exact ⟨rfl,hn⟩
  case h_4 => exact record_places hn _ _
  case h_5 => split <;> exact ⟨rfl,hn⟩
  all_goals exact ⟨rfl,hn⟩

theorem dequeue_places {want : ℕ} {ackIds : List String} (hi : ∀ e ∈ s.nacked, e ∈ s.issued)
    (hn : (s.nacked.map Prod.fst).Nodup) (ha : s.answers want ackIds = true) :
    places k (s.dequeue ackIds) = places k s ∧ ((s.dequeue ackIds).nacked.map Prod.fst).Nodup := by
  obtain ⟨hlen,hnodup,hfresh⟩ := answers_fresh ha
  have hz := zip_countP (keyed k) ackIds s.pending
  constructor
  · simp only [places,Shared.dequeue,List.countP_append]
    omega
  · simp only [Shared.dequeue,List.map_append,List.map_fst_zip hlen]
    refine List.nodup_append.mpr ⟨hn,hnodup,fun a hs b hb hab => hfresh b hb ?_⟩
    obtain ⟨e,he,rfl⟩ := List.mem_map.mp hs
    exact hab ▸ List.mem_map_of_mem (hi e he)

theorem enqueue_places (n : ℕ) (body : Body B) (h : places k s = stored k s.next) :
    places k (s.enqueue n body) = stored k (s.enqueue n body).next := by
  have hp := @enqueue_pending _ _ k s n body
  simp only [places,Shared.enqueue] at h hp ⊢
  omega

theorem act_unpurged (hs : Act marshal unmarshal s c l s' l' new) : l' ≠ .purge false ∧ .purge false ∉ new := by
  cases hs <;> simp

namespace Placed

theorem act (h : Placed s (xs ++ l :: ys)) (hs : Act marshal unmarshal s c l s' l' new) :
    Placed s' (xs ++ l' :: (ys ++ new)) := by
  obtain ⟨hl',hnew⟩ := act_unpurged hs
  have hquiet : .purge false ∉ xs ++ l' :: (ys ++ new) := by
    intro hm
    rcases mem_act hm with hm | hm | hm
    · exact h.quiet (mem_of_other hm)
    · exact hl' hm.symm
    · exact hnew hm
  have hissued := h.issued.act hs
  have hboth : (s'.nacked.map Prod.fst).Nodup ∧ ∀ k, places k s' = stored k s'.next := by
    cases hs with
    | stored n => exact ⟨h.ids,fun k => enqueue_places n _ (h.all k)⟩
    | foreign n => exact ⟨h.ids,fun k => enqueue_places n _ (h.all k)⟩
    | popped ha =>
      exact ⟨(@dequeue_places _ _ _ 0 _ _ h.issued.nacked h.ids ha).2,fun k =>
        (dequeue_places h.issued.nacked h.ids ha).1.trans (h.all k)⟩
    | @run ackId m data j j' pc pc' hc hr =>
      refine ⟨(@effect_places _ _ _ _ 0 h.ids m data j pc).2,fun k => ?_⟩
      rw [(effect_places h.ids m data j pc).1,(effect_apart s m data j pc c).next]
      exact h.all k
    | requeued hq =>
      refine ⟨(@requeue_places _ _ _ _ 0 _ _ h.ids hq).2,fun k => ?_⟩
      rw [(requeue_places h.ids hq).1,requeue_next hq]
      exact h.all k
    | purged => exact absurd (by simp) h.quiet
    | _ => exact ⟨h.ids,h.all⟩
  exact ⟨hissued,hboth.1,hquiet,hboth.2⟩

theorem call (h : Placed s ts) (he : entry s l = true) (hok : unpurged ⟨s,ts⟩ (.call l) = true) :
    Placed s (ts ++ [l]) := by
  have hidle : dealt l = [] := by
    unfold entry at he
    split at he <;> first | rfl | cases he
  refine ⟨⟨h.issued.ids,h.issued.nacked,forall_call h.issued.dealt fun e hm => ?_⟩,h.ids,fun hm => ?_,h.all⟩
  · rw [hidle] at hm
    cases hm
  · rcases List.mem_append.mp hm with hm | hm
    · exact h.quiet hm
    · rw [← List.mem_singleton.mp hm] at hok
      cases hok

end Placed

theorem placed_reach {w : World (Shared T B) (Thread T B)}
    (h : (program marshal unmarshal).Reach unpurged init w) : Placed w.shared w.threads := by
  refine Program.reach_invariant (I := Placed) ?_ (fun _ _ _ hi hok he => hi.call he hok)
    (fun _ _ _ _ _ _ _ _ hi _ hs => hi.act (step_act hs)) h
  exact ⟨⟨List.nodup_nil,(fun e he => by cases he),(fun t ht => by cases ht)⟩,List.nodup_nil,
    (fun hm => by cases hm),fun k => rfl⟩

theorem mem_of_places (h : 0 < places k s) : (∃ m, m.key = k ∧ (m ∈ s.pending ∨ ∃ ackId, (ackId,m) ∈ s.nacked)) ∨
    k ∈ s.completed ∨ ∃ reason, (k,reason) ∈ s.failed := by
  by_contra hno
  simp only [not_or,not_exists,not_and] at hno
  obtain ⟨hstored,hcompleted,hfailed⟩ := hno
  have hpending : s.pending.countP (keyed k) = 0 :=
    List.countP_eq_zero.mpr fun m hm hk => (hstored m (by simpa [keyed] using hk)).1 hm
  have hnacked : s.nacked.countP (fun e => keyed k e.2) = 0 :=
    List.countP_eq_zero.mpr fun e he hk => (hstored e.2 (by simpa [keyed] using hk)).2 e.1 he
  have hfail : s.failed.countP (fun e => e.1 == k) = 0 :=
    List.countP_eq_zero.mpr fun e he hk => hfailed e.2 (by rwa [← beq_iff_eq.mp hk])
  have hcount := List.count_eq_zero.mpr hcompleted
  rw [places,hpending,hnacked,hfail,hcount] at h
  cases h

theorem no_job_lost (hf : Faithful marshal unmarshal) {w : World (Shared T B) (Thread T B)}
    (h : (program marshal unmarshal).Reach unpurged init w) {id : String} {data : T}
    (hk : (k,id,data) ∈ w.shared.added) :
    places k w.shared = 1 ∧
    ((∃ m, m.key = k ∧ (m ∈ w.shared.pending ∨ ∃ ackId, (ackId,m) ∈ w.shared.nacked) ∧
      toJob unmarshal m.body = .ok ⟨id,data,.created⟩) ∨
    k ∈ w.shared.completed ∧ (⟨k,id,data,.ok ()⟩ : Ran T) ∈ w.shared.ran ∨
    ∃ reason o, (k,reason) ∈ w.shared.failed ∧ o.failure = some reason ∧
      (⟨k,id,data,o⟩ : Ran T) ∈ w.shared.ran) := by
  have hend := labelled_reach hf h
  have hplaces : places k w.shared = 1 := by
    rw [(placed_reach h).all k,stored,decide_eq_true (hend.added _ hk)]
    rfl
  refine ⟨hplaces,?_⟩
  rcases mem_of_places (hplaces ▸ Nat.one_pos) with ⟨m,rfl,hm⟩ | hc | ⟨reason,hr⟩
  · refine .inl ⟨m,rfl,hm,(hend.held m ?_).2 id data hk⟩
    exact hm.imp_right fun ⟨ackId,hm⟩ => ⟨ackId,hend.told.issued.nacked _ hm⟩
  · obtain ⟨r,hran,rfl,hout⟩ := hend.told.completed k hc
    exact .inr (.inl ⟨hc,hout ▸ hend.ran_as hran hk⟩)
  · obtain ⟨r,hran,hkey,hout⟩ := hend.told.failed (k,reason) hr
    simp only at hkey
    subst hkey
    exact .inr (.inr ⟨reason,r.outcome,hr,hout,hend.ran_as hran hk⟩)

theorem no_job_lost_requeued : ∃ w, (program marshalView unmarshalView).Reach unpurged init w ∧
    w.shared.completed = [] ∧ places 0 w.shared = 1 ∧ (0,"late") ∈ w.shared.failed ∧
    (⟨0,"42",7,.ok ()⟩ : Ran ℕ) ∈ w.shared.ran := by
  obtain ⟨w,hr,hp⟩ := Program.exists_reach_of_run (program marshalView unmarshalView) unpurged init
    handedOutTwice (fun w => decide ((0,"42",7) ∈ w.shared.added) && decide (w.shared.completed = []) &&
      decide ((0,"late") ∈ w.shared.failed) && decide ((⟨0,"42",7,.ok ()⟩ : Ran ℕ) ∈ w.shared.ran)) (by decide)
  simp only [Bool.and_eq_true,decide_eq_true_eq] at hp
  obtain ⟨⟨⟨ha,hc⟩,hf⟩,hran⟩ := hp
  exact ⟨w,hr,hc,(no_job_lost view_faithful hr ha).1,hf,hran⟩

end Varmq.Leases
