import Varmq.Leases.Step

namespace Varmq.Leases

open Interleaving
open Varmq.Jobs (Job RunPc)

variable {T B : Type} {marshal : JobView T → Option B} {unmarshal : B → Except String (JobView T)}
  {s s' : Shared T B} {l l' : Thread T B} {c : Choice} {new xs ys ts : List (Thread T B)} {k : ℕ}

def keyed (k : ℕ) (m : Message B) : Bool := m.key == k

def unstarted : RunPc Unit → Bool
  | .startLoad => true
  | .startCas _ => true
  | .invoke => true
  | _ => false

-- The starts of item k that the thread may still lead to.
def due (k : ℕ) : Thread T B → ℕ
  | .loop (.emit rest) => rest.countP fun e => keyed k e.2
  | .run _ m _ _ pc => (unstarted pc && keyed k m).toNat
  | _ => 0

def stored (k next : ℕ) : ℕ := (decide (k < next)).toNat

def Bound (s : Shared T B) (ts : List (Thread T B)) : Prop :=
  ∀ k, s.pending.countP (keyed k) + total (due k) ts + s.invoked.count k ≤
    stored k s.next + s.requeued.count k

theorem countP_cons_toNat {A : Type} (p : A → Bool) (a : A) (xs : List A) :
    (a :: xs).countP p = xs.countP p + (p a).toNat := by
  rw [List.countP_cons]
  cases p a <;> rfl

theorem countP_insertIdx {A : Type} (p : A → Bool) (xs : List A) (n : ℕ) (a : A) :
    (xs.insertIdx (min n xs.length) a).countP p = xs.countP p + (p a).toNat := by
  rw [(List.perm_insertIdx a xs (Nat.min_le_right _ _)).countP_eq p,countP_cons_toNat]

theorem count_concat (ks : List ℕ) (m : Message B) :
    (ks ++ [m.key]).count k = ks.count k + (keyed k m).toNat := by
  rw [List.count,List.countP_append,countP_cons_toNat,List.countP_nil,Nat.zero_add]
  rfl

theorem stored_succ (k next : ℕ) (body : Body B) :
    stored k (next + 1) = stored k next + (keyed k ⟨next,body⟩ : Bool).toNat := by
  unfold stored keyed
  by_cases he : next = k
  · subst he
    simp
  · by_cases hlt : k < next
    · simp [he,hlt,Nat.lt_succ_of_lt hlt]
    · have hle : ¬k < next + 1 := by omega
      simp [hlt,hle,beq_false_of_ne he]

theorem enqueue_pending (s : Shared T B) (n : ℕ) (body : Body B) :
    (s.enqueue n body).pending.countP (keyed k) + stored k s.next =
      s.pending.countP (keyed k) + stored k (s.enqueue n body).next := by
  simp only [Shared.enqueue,countP_insertIdx,stored_succ k s.next body]
  omega

theorem requeue_pending {ackId : String} {n : ℕ} (h : s.requeue ackId n = some s') :
    s'.pending.countP (keyed k) + s.requeued.count k = s.pending.countP (keyed k) + s'.requeued.count k ∧
      s'.next = s.next ∧ s'.invoked = s.invoked := by
  unfold Shared.requeue at h
  split at h <;> cases h
  rename_i id m hm
  refine ⟨?_,rfl,rfl⟩
  simp only [countP_insertIdx,count_concat]
  omega

theorem zip_countP (p : Message B → Bool) (ids : List String) (ms : List (Message B)) :
    (ids.zip ms).countP (fun e => p e.2) + (ms.drop ids.length).countP p = ms.countP p := by
  induction ids generalizing ms with
  | nil => simp
  | cons id ids ih =>
    cases ms with
    | nil => simp
    | cons m ms =>
      have hrest := ih ms
      simp only [List.zip_cons_cons,countP_cons_toNat,List.length_cons,List.drop_succ_cons]
      omega

theorem afterFail_started (kind : Jobs.Kind) (e : String) : unstarted (Jobs.afterFail kind e) = false := by
  unfold Jobs.afterFail
  split <;> rfl

theorem runStep_started {j j' : Job Unit} {pc pc' : RunPc Unit} {c : Jobs.Choice Unit}
    (hs : Jobs.runStep j pc c = some (j',pc')) (hu : unstarted pc' = true) : unstarted pc = true := by
  cases pc with
  | startLoad | startCas st | invoke => rfl
  | close pc =>
    by_cases hr : ∃ r, pc = .returned r
    · obtain ⟨r,rfl⟩ := hr
      cases c <;> cases hs
      cases hu
    · obtain ⟨k,q,-,-,rfl⟩ := Jobs.runStep_close (fun r h => hr ⟨r,h⟩) hs
      cases hu
  | running =>
    cases c with
    | ran o =>
      simp only [Jobs.runStep] at hs
      split at hs
      · cases o <;> cases hs
        · split at hu <;> cases hu
        · cases hu
        · cases hu
      · cases hs
    | _ => cases hs
  | succeed =>
    cases c <;> simp only [Jobs.runStep] at hs <;> try cases hs
    split at hs <;> cases hs <;> cases hu
  | failLoad e =>
    cases c <;> simp only [Jobs.runStep] at hs <;> try cases hs
    split at hs <;> cases hs
    · rw [afterFail_started] at hu
      cases hu
    · cases hu
    · rw [afterFail_started] at hu
      cases hu
  | failStore id e =>
    cases c <;> cases hs
    rw [afterFail_started] at hu
    cases hu
  | finish | sendResult | sendError =>
    cases c <;> cases hs
    cases hu
  | skipped | ended => cases c <;> cases hs

-- A run starts its function once.
theorem run_due {ackId : String} {m : Message B} {data : T} {j j' : Job Unit} {pc pc' : RunPc Unit}
    (hs : Jobs.runStep j pc (jobChoice c) = some (j',pc')) :
    due k (.run ackId m data j' pc' : Thread T B) + (effect s m data j pc c).invoked.count k ≤
      due k (.run ackId m data j pc : Thread T B) + s.invoked.count k := by
  have hrest : pc ≠ .invoke → unstarted pc' = false ∨ unstarted pc = true →
      due k (.run ackId m data j' pc' : Thread T B) + (effect s m data j pc c).invoked.count k ≤
        due k (.run ackId m data j pc : Thread T B) + s.invoked.count k := by
    intro hpc hu
    rw [effect_invoked s m data j c hpc]
    refine Nat.add_le_add_right ?_ _
    rcases hu with hu | hu
    · simp [due,hu]
    · simp only [due,hu,Bool.true_and]
      cases unstarted pc' <;> simp
  cases pc with
  | invoke =>
    cases hc : jobChoice c <;> rw [hc] at hs <;> cases hs
    simp only [due,unstarted,effect,count_concat,Bool.true_and,Bool.false_and,Bool.toNat_false]
    omega
  | startLoad => exact hrest (fun h => by cases h) (.inr rfl)
  | startCas st => exact hrest (fun h => by cases h) (.inr rfl)
  | _ =>
    refine hrest (fun h => by cases h) (.inl ?_)
    cases hu : unstarted pc' with
    | false => rfl
    | true => cases runStep_started hs hu

theorem act_due (hs : Act marshal unmarshal s c l s' l' new) (k : ℕ) :
    s'.pending.countP (keyed k) + due k l' + total (due k) new + s'.invoked.count k +
        (stored k s.next + s.requeued.count k) ≤
      s.pending.countP (keyed k) + due k l + s.invoked.count k +
        (stored k s'.next + s'.requeued.count k) := by
  cases hs with
  | @stored id data b n =>
    have hp := @enqueue_pending _ _ k s n (.bytes b)
    simp only [due,total_nil,Shared.enqueue] at hp ⊢
    omega
  | @foreign body n =>
    have hp := @enqueue_pending _ _ k s n body
    simp only [due,total_nil,Shared.enqueue] at hp ⊢
    omega
  | @popped want ackIds ha =>
    have hz := zip_countP (keyed k) ackIds s.pending
    simp only [due,total_nil,Shared.dequeue]
    omega
  | @unparsed ackId m rest e hp =>
    simp only [due,total_nil,Shared.report,countP_cons_toNat]
    omega
  | @skipped ackId m rest p hp hc =>
    simp only [due,total_nil,countP_cons_toNat]
    omega
  | @sent ackId m rest p hp hc =>
    simp only [due,total_cons,total_nil,countP_cons_toNat,unstarted,Bool.true_and]
    omega
  | @run ackId m data j j' pc pc' hc hr =>
    have hrun := @run_due T B s c k ackId m data j j' pc pc' hr
    have hapart := effect_apart s m data j pc c
    rw [hapart.pending,hapart.next,hapart.requeued,total_nil]
    omega
  | requeued hq =>
    obtain ⟨hp,hn,hi⟩ := @requeue_pending _ _ _ _ k _ _ hq
    rw [hn,hi,total_nil]
    simp only [due]
    omega
  | purged =>
    simp only [due,total_nil,List.countP_nil]
    omega
  | _ => exact Nat.le_refl _

theorem Bound.act (h : Bound s (xs ++ l :: ys)) (hs : Act marshal unmarshal s c l s' l' new) :
    Bound s' (xs ++ l' :: (ys ++ new)) := by
  intro k
  have hold := h k
  have hstep := act_due hs k
  rw [total_split] at hold
  rw [total_act]
  omega

theorem Bound.call (h : Bound s ts) (he : entry s l = true) : Bound s (ts ++ [l]) := by
  intro k
  have hl : due k l = 0 := by
    unfold entry at he
    split at he <;> first | rfl | cases he
  rw [total_call,hl]
  exact h k

theorem runs_bounded {w : World (Shared T B) (Thread T B)}
    (h : (program marshal unmarshal).Reach always init w) (k : ℕ) :
    w.shared.invoked.count k ≤ 1 + w.shared.requeued.count k := by
  have hend : Bound w.shared w.threads :=
    Program.reach_invariant (I := Bound) (fun k => Nat.zero_le _) (fun _ _ _ hi _ he => hi.call he)
      (fun _ _ _ _ _ _ _ _ hi _ hs => hi.act (step_act hs)) h
  have hk := hend k
  have hone : stored k w.shared.next ≤ 1 := Bool.toNat_le _
  omega

-- An item is requeued while its run has not begun, and is handed out again.
def handedOutTwice : List (Event (Thread ℕ (Option (JobView ℕ))) Choice) :=
  [.call (.add "42" 7 .json),.act 0 (.now 1),.act 0 (.place 0),.call (.loop .idle),.act 1 (.credit 1),
    .act 1 (.pop ["a"]),.act 1 .go,.act 1 .go,.call (.requeue "a" false),.act 3 (.place 0),
    .act 1 (.credit 1),.act 1 (.pop ["b"]),.act 1 .go,.act 2 .go,.act 2 .go,.act 2 .go,.act 4 .go,
    .act 4 .go,.act 4 .go,.act 2 (.ran (.ok ())),.act 4 (.ran (.panic "late")),.act 2 .go,.act 2 .go,
    .act 2 .go,.act 2 .go,.act 2 .go,.act 2 .go,.act 2 (.answered true true),.act 4 .go,.act 4 .go,
    .act 4 .go,.act 4 .go,.act 4 .go,.act 4 .go,.act 4 .go,.act 4 (.answered true true)]

theorem runs_bounded_requeued : ∃ w, (program marshalView unmarshalView).Reach always init w ∧
    w.shared.invoked.count 0 = 2 ∧ w.shared.requeued.count 0 = 1 ∧
    w.shared.invoked.count 0 ≤ 1 + w.shared.requeued.count 0 := by
  obtain ⟨w,hr,hp⟩ := Program.exists_reach_of_run (program marshalView unmarshalView) always init
    handedOutTwice (fun w => decide (w.shared.invoked.count 0 = 2) && decide (w.shared.requeued.count 0 = 1))
    (by decide)
  simp only [Bool.and_eq_true,decide_eq_true_eq] at hp
  exact ⟨w,hr,hp.1,hp.2,runs_bounded hr 0⟩

end Varmq.Leases
