import Varmq.Interleaving.Total
import Varmq.Registry.Move

namespace Varmq.Registry

open Interleaving

variable {W : Type} [DecidableEq W] {cfg : W → Config} {s s' : Shared W} {l l' t : Thread W}
  {xs ys ts new : List (Thread W)} {c : Choice} {v w : W} {m : ℕ}

def DropPc.inside : DropPc → Bool
  | .lock => false
  | _ => true

def ListPc.inside : ListPc → Bool
  | .lock => false
  | _ => true

def AddPc.inside : AddPc → Bool
  | .seq | .lock _ | .done => false
  | _ => true

def holds (w : W) : Thread W → Bool
  | .start _ (.drop old pc) => old = w && pc.inside
  | .start v (.list pc) => v = w && pc.inside
  | .addMemQueue v pc => v = w && pc.inside
  | .retention v (.drop pc) => v = w && pc.inside
  | .dropMemQueues v (some pc) => v = w && pc.inside
  | _ => false

-- The drop a thread is in.
def dropAt : Thread W → Option (W × DropPc)
  | .start _ (.drop old pc) => some (old,pc)
  | .retention w (.drop pc) => some (w,pc)
  | .dropMemQueues w (some pc) => some (w,pc)
  | _ => none

-- The queue a thread is about to register or to delete is one of w's.
def Touches (w : W) (m : ℕ) (t : Thread W) : Prop :=
  (∃ todo, dropAt t = some (w,.range todo) ∧ m ∈ todo) ∨
  (∃ todo, t = .start w (.list (.range todo)) ∧ m ∈ todo) ∨
  t = .addMemQueue w (.load m) ∨ t = .addMemQueue w (.register m)

-- It found the name to be w's, and lists on.
inductive Registers (w : W) : Thread W → Prop
  | range {todo : List ℕ} : Registers w (.start w (.list (.range todo)))
  | add {m : ℕ} : Registers w (.addMemQueue w (.register m))

-- The queue is numbered and not stored yet.
def drawn (m : ℕ) : Thread W → Bool
  | .addMemQueue _ (.lock n) | .addMemQueue _ (.store n) => n = m
  | _ => false

theorem Frame.dropAt {f : DropPc → Thread W} {after : Thread W} (hf : Frame w f after)
    (pc : DropPc) : dropAt (f pc) = some (w,pc) := by
  cases hf <;> rfl

theorem Frame.dropAt_after {f : DropPc → Thread W} {after : Thread W}
    (hf : Frame w f after) : Registry.dropAt after = none := by
  cases hf <;> rfl

theorem Frame.holds {f : DropPc → Thread W} {after : Thread W} (hf : Frame w f after)
    (pc : DropPc) (v : W) : holds v (f pc) = (decide (w = v) && pc.inside) := by
  cases hf <;> simp [Registry.holds]

theorem Frame.holds_after {f : DropPc → Thread W} {after : Thread W}
    (hf : Frame w f after) (v : W) : Registry.holds v after = false := by
  cases hf <;> simp [Registry.holds,ListPc.inside]

theorem Frame.drawn {f : DropPc → Thread W} {after : Thread W} (hf : Frame w f after)
    (pc : DropPc) (m : ℕ) : drawn m (f pc) = false := by
  cases hf <;> rfl

theorem Frame.drawn_after {f : DropPc → Thread W} {after : Thread W}
    (hf : Frame w f after) (m : ℕ) : Registry.drawn m after = false := by
  cases hf <;> rfl

theorem off_dropAt (h : off l = true) : dropAt l = none := by
  unfold dropAt
  split <;> simp_all [off]

theorem off_holds (h : off l = true) (w : W) : holds w l = false := by
  unfold holds
  split <;> simp_all [off]
  intro _
  rcases h with rfl | rfl <;> rfl

theorem off_drawn (h : off l = true) (m : ℕ) : drawn m l = false := by
  unfold drawn
  split <;> simp_all [off]

theorem off_touches (h : off l = true) : ¬Touches w m l := by
  rintro (⟨todo,hd,-⟩ | ⟨todo,rfl,-⟩ | rfl | rfl)
  · rw [off_dropAt h] at hd
    cases hd
  all_goals simp [off] at h

theorem holds_of_touches (h : Touches w m t) : holds w t = true := by
  rcases h with ⟨todo,hd,-⟩ | ⟨todo,rfl,-⟩ | rfl | rfl
  · unfold dropAt at hd
    split at hd <;> cases hd <;> simp [holds,DropPc.inside]
  all_goals simp [holds,ListPc.inside,AddPc.inside]

-- Each memory queue has one worker and one number.
structure Held (cfg : W → Config) (s : Shared W) (ts : List (Thread W)) : Prop where
  locked : ∀ w, total (fun t => (holds w t).toNat) ts = (s.memMx w).toNat
  names : ∀ n w, s.workerRegistry n = some w → n = (cfg w).name ∧ n ≠ ""
  swaps : ∀ w, .start w .swap ∈ ts → (cfg w).name ≠ ""
  owner : ∀ v w m, m ∈ s.memQueues v → m ∈ s.memQueues w → v = w
  bound : ∀ w m, m ∈ s.memQueues w → m ≤ s.memQueueSeq
  known : ∀ m, s.queueRegistry m = true → ∃ w, m ∈ s.memQueues w
  own : ∀ t ∈ ts, ∀ w m, Touches w m t → m ∈ s.memQueues w
  fresh : ∀ t ∈ ts, ∀ m, drawn m t = true → m ≤ s.memQueueSeq ∧ ∀ w, m ∉ s.memQueues w
  single : ∀ m, total (fun t => (drawn m t).toNat) ts ≤ 1

theorem held_new : Held cfg (newWorkers (W := W)).shared (newWorkers (W := W)).threads where
  locked _ := rfl
  names _ _ h := by cases h
  swaps _ h := by cases h
  owner _ _ _ h := by cases h
  bound _ _ h := by cases h
  known _ h := by cases h
  own _ h := by cases h
  fresh _ h := by cases h
  single _ := Nat.zero_le _

-- What a step does to the locks and to the owners of the queues.
structure Keeps (s s' : Shared W) (l l' : Thread W) : Prop where
  locked : ∀ w, (s'.memMx w).toNat + (holds w l).toNat = (s.memMx w).toNat + (holds w l').toNat
  grows : ∀ w, ∀ m ∈ s.memQueues w, m ∈ s'.memQueues w
  stored : ∀ w, ∀ m ∈ s'.memQueues w, m ∈ s.memQueues w ∨ l = .addMemQueue w (.store m)
  seq : s.memQueueSeq ≤ s'.memQueueSeq
  draws : ∀ m, drawn m l' = true →
    (drawn m l = true ∧ s'.memQueues = s.memQueues) ∨ m = s'.memQueueSeq ∧ s.memQueueSeq < m

theorem keeps_of (h1 : ∀ w, (s'.memMx w).toNat + (holds w l).toNat =
      (s.memMx w).toNat + (holds w l').toNat)
    (h2 : s'.memQueues = s.memQueues) (h3 : s'.memQueueSeq = s.memQueueSeq)
    (h4 : ∀ m, drawn m l' = drawn m l) : Keeps s s' l l' :=
  ⟨h1,fun w m hm => by rwa [h2],fun w m hm => .inl (by rwa [← h2]),by omega,
    fun m hm => .inl ⟨by rwa [← h4],h2⟩⟩

theorem locked_take (hm : s.memMx w = false) (v : W) :
    ((lockMem s w).memMx v).toNat = (s.memMx v).toNat + (decide (w = v)).toNat := by
  by_cases hv : w = v
  · subst hv
    simp [lockMem,hm]
  · simp [lockMem,hv,Function.update_of_ne (Ne.symm hv)]

theorem locked_give (hm : s.memMx w = true) (v : W) :
    ((unlockMem s w).memMx v).toNat + (decide (w = v)).toNat = (s.memMx v).toNat := by
  by_cases hv : w = v
  · subst hv
    simp [unlockMem,hm]
  · simp [unlockMem,hv,Function.update_of_ne (Ne.symm hv)]

theorem drop_keeps {f : DropPc → Thread W} {after : Thread W} {pc : DropPc} {pc' : Option DropPc}
    (hf : Frame w f after) (hd : DropAct cfg s w pc s' pc')
    (hm : pc.inside = true → s.memMx w = true) : Keeps s s' (f pc) (pc'.elim after f) := by
  refine keeps_of (fun v => ?_) (by cases hd <;> rfl) (by cases hd <;> rfl) ?_
  · cases hd with
    | lock hl =>
      have := locked_take hl v
      simpa [hf.holds,hf.holds_after,DropPc.inside] using this
    | unlock =>
      have := locked_give (hm rfl) v
      simpa [hf.holds,hf.holds_after,DropPc.inside] using this
    | _ => simp [hf.holds,DropPc.inside,unregisterQueue]
  · intro m
    cases pc' <;> simp [hf.drawn,hf.drawn_after]

theorem list_keeps {pc : ListPc} {pc' : Option ListPc} (hd : ListAct cfg s w pc s' pc')
    (hm : pc.inside = true → s.memMx w = true) :
    Keeps s s' (.start w (.list pc)) (.start w (pc'.elim .goEventLoop .list)) := by
  refine keeps_of (fun v => ?_) (by cases hd <;> rfl) (by cases hd <;> rfl) fun m => ?_
  · cases hd with
    | lock hl =>
      have := locked_take hl v
      simpa [holds,ListPc.inside] using this
    | unlock =>
      have := locked_give (hm rfl) v
      simpa [holds,ListPc.inside] using this
    | _ => simp [holds,ListPc.inside,registerQueue]
  · cases pc' <;> rfl

theorem add_keeps {pc pc' : AddPc} (hd : AddAct cfg s w pc s' pc')
    (hm : pc.inside = true → s.memMx w = true) :
    Keeps s s' (.addMemQueue w pc) (.addMemQueue w pc') := by
  cases hd with
  | seq =>
    refine ⟨fun v => rfl,fun _ _ h => h,fun _ _ h => .inl h,Nat.le_succ _,fun m hd => ?_⟩
    have hm : s.memQueueSeq + 1 = m := of_decide_eq_true hd
    exact .inr ⟨hm.symm,by omega⟩
  | @store n =>
    refine ⟨fun v => rfl,fun v m h => ?_,fun v m h => ?_,Nat.le_refl _,fun m hd => ?_⟩
    · by_cases hv : v = w
      · subst hv
        simp [h]
      · simpa [Function.update_of_ne hv] using h
    · by_cases hv : v = w
      · subst hv
        simp only [Function.update_self,List.mem_cons] at h
        rcases h with rfl | h
        · exact .inr rfl
        · exact .inl h
      · exact .inl (by simpa [Function.update_of_ne hv] using h)
    · cases hd
  | lock hl =>
    refine keeps_of (fun v => ?_) rfl rfl fun m => rfl
    have := locked_take hl v
    simpa [holds,AddPc.inside] using this
  | unlock =>
    refine keeps_of (fun v => ?_) rfl rfl fun m => rfl
    have := locked_give (hm rfl) v
    simpa [holds,AddPc.inside] using this
  | _ => exact keeps_of (fun v => by simp [holds,AddPc.inside,registerQueue]) rfl rfl fun m => rfl

theorem act_keeps (hs : Act cfg s l s' l' new) (hm : ∀ w, holds w l = true → s.memMx w = true) :
    Keeps s s' l l' := by
  cases hs with
  | quiet hs hl hl' =>
    refine keeps_of (fun w => ?_) hs.memQueues hs.memQueueSeq fun m => ?_
    · rw [hs.memMx,off_holds hl,off_holds hl']
    · rw [off_drawn hl,off_drawn hl']
  | swap => exact keeps_of (fun v => by simp [holds,ListPc.inside,swapName]) rfl rfl fun m => rfl
  | replace => exact keeps_of (fun v => by simp [holds,DropPc.inside,swapName]) rfl rfl fun m => rfl
  | expire => exact keeps_of (fun v => by simp [holds,DropPc.inside]) rfl rfl fun m => rfl
  | drop hf hd => exact drop_keeps hf hd fun hp => hm _ (by simp [hf.holds,hp])
  | list hd => exact list_keeps hd fun hp => hm _ (by simp [holds,hp])
  | add hd => exact add_keeps hd fun hp => hm _ (by simp [holds,hp])

theorem drop_touches {f : DropPc → Thread W} {after : Thread W} {pc : DropPc} {pc' : Option DropPc}
    (hf : Frame v f after) (hd : DropAct cfg s v pc s' pc')
    (ht : Touches w m (pc'.elim after f)) : Touches w m (f pc) ∨ m ∈ s'.memQueues w := by
  have hdrop : ∃ todo, pc' = some (.range todo) ∧ v = w ∧ m ∈ todo := by
    cases pc' with
    | none =>
      rcases ht with ⟨todo,h,-⟩ | ⟨todo,h,-⟩ | h | h
      · rw [Option.elim_none,hf.dropAt_after] at h
        cases h
      all_goals cases hf <;> cases h
    | some pc' =>
      rcases ht with ⟨todo,h,hm⟩ | ⟨todo,h,-⟩ | h | h
      · rw [Option.elim_some,hf.dropAt] at h
        cases h
        exact ⟨todo,rfl,rfl,hm⟩
      all_goals cases hf <;> cases h
  obtain ⟨todo,rfl,rfl,hm⟩ := hdrop
  cases hd with
  | load => exact .inr hm
  | visit => exact .inl (.inl ⟨_,hf.dropAt _,List.mem_of_mem_erase hm⟩)

theorem act_touches (hs : Act cfg s l s' l' new) (ht : Touches w m l') :
    Touches w m l ∨ m ∈ s'.memQueues w := by
  cases hs with
  | quiet _ _ hl' => exact absurd ht (off_touches hl')
  | drop hf hd => exact drop_touches hf hd ht
  | @list v pc pc' s' hd =>
    rcases ht with ⟨todo,h,hm⟩ | ⟨todo,h,hm⟩ | h | h
    · cases pc' <;> cases h
    · cases hd with
      | load =>
        cases h
        exact .inr hm
      | visit =>
        cases h
        exact .inl (.inr (.inl ⟨_,rfl,List.mem_of_mem_erase hm⟩))
      | _ => cases h
    · cases h
    · cases h
  | add hd =>
    rcases ht with ⟨todo,h,hm⟩ | ⟨todo,h,hm⟩ | h | h
    · cases h
    · cases h
    · cases h
      cases hd
      exact .inr (by simp)
    · cases h
      cases hd
      exact .inl (.inr (.inr (.inl rfl)))
  | _ => rcases ht with ⟨todo,h,hm⟩ | ⟨todo,h,hm⟩ | h | h <;> cases h

theorem act_registers (hs : Act cfg s l s' l' new) (hq : s'.queueRegistry m = true) :
    s.queueRegistry m = true ∨ ∃ w, Touches w m l ∧ Registers w l := by
  cases hs with
  | quiet hs => exact .inl (by rwa [← hs.queueRegistry])
  | drop hf hd =>
    left
    cases hd with
    | @visit todo n hn =>
      by_cases hm : m = n
      · subst hm
        simp [unregisterQueue] at hq
      · simpa [unregisterQueue,Function.update_of_ne hm] using hq
    | _ => exact hq
  | @list w pc pc' s' hd =>
    cases hd with
    | @visit todo n hn =>
      by_cases hm : m = n
      · subst hm
        exact .inr ⟨w,.inr (.inl ⟨_,rfl,hn⟩),.range⟩
      · exact .inl (by simpa [registerQueue,Function.update_of_ne hm] using hq)
    | _ => exact .inl hq
  | @add w pc pc' s' hd =>
    cases hd with
    | @register n =>
      by_cases hm : m = n
      · subst hm
        exact .inr ⟨w,.inr (.inr (.inr rfl)),.add⟩
      · exact .inl (by simpa [registerQueue,Function.update_of_ne hm] using hq)
    | _ => exact .inl hq
  | _ => exact .inl hq

-- How a name comes to lead to another worker.
inductive Renamed (cfg : W → Config) (s s' : Shared W) : Thread W → Prop
  | none {l : Thread W} (hr : s'.workerRegistry = s.workerRegistry) : Renamed cfg s s' l
  | swap {v : W} (hr : s'.workerRegistry = Function.update s.workerRegistry (cfg v).name (some v)) :
      Renamed cfg s s' (.start v .swap)
  | expire {v : W} (hv : Mapped cfg s v)
      (hr : s'.workerRegistry = Function.update s.workerRegistry (cfg v).name none) :
      Renamed cfg s s' (.retention v .compareAndDelete)

theorem act_renamed (hs : Act cfg s l s' l' new) : Renamed cfg s s' l := by
  cases hs with
  | quiet hs => exact .none hs.workerRegistry
  | swap => exact .swap rfl
  | replace => exact .swap rfl
  | expire hr => exact .expire hr rfl
  | drop _ hd => exact .none (by cases hd <;> rfl)
  | list hd => exact .none (by cases hd <;> rfl)
  | add hd => exact .none (by cases hd <;> rfl)

theorem act_swaps (hs : Act cfg s l s' l' new) :
    ∀ t, t = l' ∨ t ∈ new → ∀ w, t = .start w .swap → (cfg w).name ≠ "" := by
  intro t ht w hw
  cases hs with
  | quiet _ _ _ _ h => exact h t ht w hw
  | @drop v f after pc pc' s' hf hd =>
    rcases ht with rfl | ht
    · cases pc' <;> cases hf <;> cases hw
    · cases ht
  | @list v pc pc' s' hd =>
    rcases ht with rfl | ht
    · cases pc' <;> cases hw
    · cases ht
  | _ =>
    rcases ht with rfl | ht
    · cases hw
    · cases ht

theorem act_new (hs : Act cfg s l s' l' new) : ∀ t ∈ new, off t = true := by
  cases hs with
  | quiet _ _ _ hn => exact hn
  | _ => exact fun t ht => by cases ht

theorem Held.mem_locked (h : Held cfg s ts) (ht : t ∈ ts) (hw : holds w t = true) :
    s.memMx w = true := by
  have hle := le_total (f := fun t => (holds w t).toNat) ht
  rw [h.locked w,hw] at hle
  cases hm : s.memMx w with
  | true => rfl
  | false => simp [hm] at hle

theorem Held.alone (h : Held cfg s (xs ++ l :: ys)) (ht : t ∈ xs ++ ys) (hw : holds w t = true) :
    holds w l = false := by
  have hle : total (fun t => (holds w t).toNat) (xs ++ l :: ys) ≤ 1 := by
    rw [h.locked w]
    exact Bool.toNat_le _
  have hz := eq_zero_of_other hle ht (by simp [hw])
  simpa using hz

theorem Held.names_step (h : Held cfg s (xs ++ l :: ys)) (hs : Act cfg s l s' l' new) :
    ∀ n w, s'.workerRegistry n = some w → n = (cfg w).name ∧ n ≠ "" := by
  intro n w hn
  cases act_renamed hs with
  | none hr => exact h.names n w (by rwa [← hr])
  | @swap v hr =>
    rw [hr] at hn
    by_cases he : n = (cfg v).name
    · subst he
      rw [Function.update_self] at hn
      cases hn
      exact ⟨rfl,h.swaps w (by simp)⟩
    · exact h.names n w (by rwa [Function.update_of_ne he] at hn)
  | @expire v hv hr =>
    rw [hr] at hn
    by_cases he : n = (cfg v).name
    · subst he
      simp at hn
    · exact h.names n w (by rwa [Function.update_of_ne he] at hn)

theorem Held.single_step (h : Held cfg s (xs ++ l :: ys)) (hk : Keeps s s' l l')
    (hn : ∀ t ∈ new, off t = true) (m : ℕ) :
    total (fun t => (drawn m t).toNat) (xs ++ l' :: (ys ++ new)) ≤ 1 := by
  have hnew : total (fun t => (drawn m t).toNat) new = 0 :=
    total_eq_zero.mpr fun t ht => by simp [off_drawn (hn t ht)]
  have hold := h.single m
  rw [total_split] at hold
  rw [total_act,hnew]
  cases hd : drawn m l' with
  | false => simp only [Bool.toNat_false]; omega
  | true =>
    rcases hk.draws m hd with ⟨hl,-⟩ | ⟨rfl,hlt⟩
    · simp only [hl] at hold
      simpa using hold
    · have hothers : total (fun t => (drawn s'.memQueueSeq t).toNat) (xs ++ ys) = 0 := by
        refine total_eq_zero.mpr fun t ht => ?_
        cases ht' : drawn s'.memQueueSeq t with
        | false => rfl
        | true =>
          have := (h.fresh t (mem_of_other ht) _ ht').1
          omega
      rw [hothers]
      simp

theorem Held.act (h : Held cfg s (xs ++ l :: ys)) (hs : Act cfg s l s' l' new) :
    Held cfg s' (xs ++ l' :: (ys ++ new)) := by
  have hk : Keeps s s' l l' := act_keeps hs fun w hw => h.mem_locked (by simp) hw
  have hnew := act_new hs
  have hstore : ∀ w m, l = .addMemQueue w (.store m) → m ≤ s.memQueueSeq ∧ ∀ v, m ∉ s.memQueues v :=
    fun w m hl => h.fresh l (by simp) m (by simp [hl,drawn])
  refine ⟨fun w => ?_,h.names_step hs,?_,fun v w m hv hw => ?_,fun w m hm => ?_,fun m hm => ?_,?_,?_,
    h.single_step hk hnew⟩
  · have hz : total (fun t => (holds w t).toNat) new = 0 :=
      total_eq_zero.mpr fun t ht => by simp [off_holds (hnew t ht)]
    have hl := h.locked w
    have hw := hk.locked w
    rw [total_split] at hl
    rw [total_act,hz]
    omega
  · intro w hw
    rcases mem_act hw with ht | ht | ht
    · exact h.swaps w (mem_of_other ht)
    · exact act_swaps hs _ (.inl ht) w rfl
    · exact act_swaps hs _ (.inr ht) w rfl
  · rcases hk.stored v m hv with h1 | h1 <;> rcases hk.stored w m hw with h2 | h2
    · exact h.owner v w m h1 h2
    · exact absurd h1 ((hstore w m h2).2 v)
    · exact absurd h2 ((hstore v m h1).2 w)
    · rw [h1] at h2
      cases h2
      rfl
  · rcases hk.stored w m hm with h1 | h1
    · exact Nat.le_trans (h.bound w m h1) hk.seq
    · exact Nat.le_trans (hstore w m h1).1 hk.seq
  · rcases act_registers hs hm with h1 | ⟨w,h1,-⟩
    · obtain ⟨w,hw⟩ := h.known m h1
      exact ⟨w,hk.grows w m hw⟩
    · exact ⟨w,hk.grows w m (h.own l (by simp) w m h1)⟩
  · refine forall_act (fun t ht w m htm => ?_) (fun w m htm => ?_) fun t ht w m htm => ?_
    · exact hk.grows w m (h.own t (mem_of_other ht) w m htm)
    · rcases act_touches hs htm with h1 | h1
      · exact hk.grows w m (h.own l (by simp) w m h1)
      · exact h1
    · exact absurd htm (off_touches (hnew t ht))
  · refine forall_act (fun t ht m htm => ?_) (fun m htm => ?_) fun t ht m htm => ?_
    · obtain ⟨hle,hno⟩ := h.fresh t (mem_of_other ht) m htm
      refine ⟨Nat.le_trans hle hk.seq,fun w hw => ?_⟩
      rcases hk.stored w m hw with h1 | h1
      · exact hno w h1
      · have hz := eq_zero_of_other (h.single m) ht (by simp [htm])
        simp [h1,drawn] at hz
    · rcases hk.draws m htm with ⟨h1,hq⟩ | ⟨rfl,hlt⟩
      · obtain ⟨hle,hno⟩ := h.fresh l (by simp) m h1
        exact ⟨Nat.le_trans hle hk.seq,fun w hw => hno w (by rwa [← hq])⟩
      · refine ⟨Nat.le_refl _,fun w hw => ?_⟩
        rcases hk.stored w _ hw with h2 | h2
        · have := h.bound w _ h2
          omega
        · have := (hstore w _ h2).1
          omega
    · rw [off_drawn (hnew t ht)] at htm
      cases htm

-- A call that has just been made is in no section yet.
structure Arrives (l : Thread W) : Prop where
  holds : ∀ w, holds w l = false
  drawn : ∀ m, drawn m l = false
  touches : ∀ w m, ¬Touches w m l
  swap : ∀ w, l ≠ .start w .swap
  range : ∀ w todo, dropAt l ≠ some (w,.range todo)
  list : ∀ w todo, l ≠ .start w (.list (.range todo))
  register : ∀ w m, l ≠ .addMemQueue w (.register m)

theorem entry_arrives (he : entry s l = true) : Arrives l := by
  unfold entry at he
  split at he
  case h_5 => cases he
  all_goals
    refine ⟨fun _ => by simp [holds,AddPc.inside,DropPc.inside],fun _ => rfl,?_,
      (fun _ h => by cases h),(fun _ _ h => by cases h),(fun _ _ h => by cases h),
      fun _ _ h => by cases h⟩
    rintro w m (⟨todo,h,-⟩ | ⟨todo,h,-⟩ | h | h) <;> cases h

theorem Held.call (h : Held cfg s ts) (ha : Arrives l) : Held cfg s (ts ++ [l]) where
  locked w := by rw [total_call,h.locked w,ha.holds w]; rfl
  names := h.names
  swaps w hw := by
    rcases List.mem_append.mp hw with hw | hw
    · exact h.swaps w hw
    · exact absurd (List.mem_singleton.mp hw).symm (ha.swap w)
  owner := h.owner
  bound := h.bound
  known := h.known
  own := forall_call h.own fun w m ht => absurd ht (ha.touches w m)
  fresh := forall_call h.fresh fun m hm => by simp [ha.drawn m] at hm
  single m := by rw [total_call,ha.drawn m]; exact h.single m

end Varmq.Registry
