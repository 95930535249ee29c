import Varmq.Topics.Fifo
import Varmq.Queues.Storage

namespace Varmq.InMemory.Priority

open Interleaving Queues Topics

variable {T : Type}

-- What enqueue does once it has found the queue open.
def accept (q : PriorityQueue T) (v : T) (priority : ℤ) (id : String) : PriorityQueue T × Bool :=
  if q.full then (q,false)
  else if id ≠ "" ∧ id ∈ q.ids.m then (q,false)
  else ((q.addId id).pushItem ⟨v,if id = "" then none else some id⟩ priority,true)

theorem enqueue_accept (q : PriorityQueue T) (v : T) (priority : ℤ) (id : String) :
    q.enqueue (some v) priority id = if q.closed then (q,false) else accept q v priority id := rfl

structure Shared (T : Type) where
  mx : Bool
  queue : PriorityQueue T

inductive EnqueuePc where
  | lock
  | check
  | accept
  | unlock (r : Bool)
  | returned (r : Bool)
  deriving DecidableEq, Repr

inductive PurgePc (T : Type) where
  | lock
  | purge
  | unlock (vals : List T)
  | returned (vals : List T)

-- Enqueue is enqueue with the empty id.
inductive Thread (T : Type) where
  | enqueue (x : T) (priority : ℤ) (id : String) (pc : EnqueuePc)
  | close (done : Bool)
  | purgeValues (pc : PurgePc T)

def enqueueStep (s : Shared T) (x : T) (priority : ℤ) (id : String) :
    EnqueuePc → Option (Shared T × EnqueuePc)
  | .lock => if s.mx then none else some ({ s with mx := true },.check)
  | .check => some (s,if s.queue.closed then .unlock false else .accept)
  | .accept =>
      some ({ s with queue := (Priority.accept s.queue x priority id).1 },
        .unlock (Priority.accept s.queue x priority id).2)
  | .unlock r => some ({ s with mx := false },.returned r)
  | .returned _ => none

def purgeStep (s : Shared T) : PurgePc T → Option (Shared T × PurgePc T)
  | .lock => if s.mx then none else some ({ s with mx := true },.purge)
  | .purge => some ({ s with queue := s.queue.purgeValues.1 },
      .unlock (s.queue.purgeValues.2.map Stored.value))
  | .unlock vals => some ({ s with mx := false },.returned vals)
  | .returned _ => none

def step (s : Shared T) : Thread T → Unit → Option (Shared T × Thread T × List (Thread T))
  | .enqueue x p id pc, _ =>
      (enqueueStep s x p id pc).map fun (s',pc') => (s',.enqueue x p id pc',[])
  | .close false, _ =>
      some ({ s with queue := { s.queue with closed := true } },.close true,[])
  | .close true, _ => none
  | .purgeValues pc, _ => (purgeStep s pc).map fun (s',pc') => (s',.purgeValues pc',[])

def entry (_ : Shared T) : Thread T → Bool
  | .enqueue _ _ _ .lock | .close false | .purgeValues .lock => true
  | _ => false

def program (T : Type) : Program (Shared T) (Thread T) Unit := ⟨entry,step⟩

def start (capacity : ℕ) : World (Shared T) (Thread T) :=
  ⟨⟨false,PriorityQueue.new capacity⟩,[]⟩

def isPurge : Thread T → Bool
  | .purgeValues _ => true
  | _ => false

def isClose : Thread T → Bool
  | .close _ => true
  | _ => false

def hasClosed : Thread T → Bool
  | .close done => done
  | _ => false

def closing : Guard (Shared T) (Thread T) Unit := fun w e =>
  match e with
  | .call (.close _) => w.threads.all fun t => !isClose t
  | .call (.purgeValues _) => (w.threads.all fun t => !isPurge t) && w.threads.any hasClosed
  | _ => true

def finished : Thread T → Bool
  | .enqueue _ _ _ (.returned _) | .close true | .purgeValues (.returned _) => true
  | _ => false

def items (q : PriorityQueue T) : List T := q.values.map Stored.value

-- The item of an enqueue that has pushed it.
def pushed : Thread T → Option T
  | .enqueue x _ _ (.unlock r) | .enqueue x _ _ (.returned r) => if r then some x else none
  | _ => none

def accepted : Thread T → Option T
  | .enqueue x _ _ (.returned r) => if r then some x else none
  | _ => none

def purged : Thread T → List T
  | .purgeValues (.unlock vals) | .purgeValues (.returned vals) => vals
  | _ => []

def emptied : Thread T → Bool
  | .purgeValues (.unlock _) | .purgeValues (.returned _) => true
  | _ => false

def admits : Thread T → Bool
  | .enqueue _ _ _ .accept => true
  | _ => false

def holds : Thread T → Bool
  | .enqueue _ _ _ .lock | .enqueue _ _ _ (.returned _) | .close _ | .purgeValues .lock
  | .purgeValues (.returned _) => false
  | _ => true

variable {s s' : Shared T} {l l' t u : Thread T} {xs ys ts : List (Thread T)}

inductive Act (s : Shared T) : Thread T → Shared T → Thread T → Prop
  | lock {x : T} {p : ℤ} {id : String} (hm : s.mx = false) :
      Act s (.enqueue x p id .lock) { s with mx := true } (.enqueue x p id .check)
  | shut {x : T} {p : ℤ} {id : String} : Act s (.enqueue x p id .check) s
      (.enqueue x p id (.unlock false))
  | open_ {x : T} {p : ℤ} {id : String} (hc : s.queue.closed = false) :
      Act s (.enqueue x p id .check) s (.enqueue x p id .accept)
  | accept {x : T} {p : ℤ} {id : String} : Act s (.enqueue x p id .accept)
      { s with queue := (Priority.accept s.queue x p id).1 }
      (.enqueue x p id (.unlock (Priority.accept s.queue x p id).2))
  | unlock {x : T} {p : ℤ} {id : String} {r : Bool} : Act s (.enqueue x p id (.unlock r))
      { s with mx := false } (.enqueue x p id (.returned r))
  | close : Act s (.close false) { s with queue := { s.queue with closed := true } } (.close true)
  | lockPurge (hm : s.mx = false) :
      Act s (.purgeValues .lock) { s with mx := true } (.purgeValues .purge)
  | purge : Act s (.purgeValues .purge) { s with queue := s.queue.purgeValues.1 }
      (.purgeValues (.unlock (items s.queue)))
  | unlockPurge {vals : List T} : Act s (.purgeValues (.unlock vals)) { s with mx := false }
      (.purgeValues (.returned vals))

theorem step_act {c : Unit} {new : List (Thread T)} (hs : step s l c = some (s',l',new)) :
    Act s l s' l' ∧ new = [] := by
  cases l with
  | enqueue x p id pc =>
    obtain ⟨⟨s₁,pc'⟩,h,heq⟩ := Option.map_eq_some_iff.mp hs
    cases heq
    refine ⟨?_,rfl⟩
    cases pc with
    | lock =>
      simp only [enqueueStep] at h
      split at h <;> cases h
      exact .lock (by simpa using ‹¬s.mx = true›)
    | check =>
      cases h
      split
      · exact .shut
      · exact .open_ (by simpa using ‹¬s.queue.closed = true›)
    | accept =>
      cases h
      exact .accept
    | unlock r =>
      cases h
      exact .unlock
    | returned r => cases h
  | close done =>
    cases done <;> cases hs
    exact ⟨.close,rfl⟩
  | purgeValues pc =>
    obtain ⟨⟨s₁,pc'⟩,h,heq⟩ := Option.map_eq_some_iff.mp hs
    cases heq
    refine ⟨?_,rfl⟩
    cases pc with
    | lock =>
      simp only [purgeStep] at h
      split at h <;> cases h
      exact .lockPurge (by simpa using ‹¬s.mx = true›)
    | purge =>
      cases h
      exact .purge
    | unlock vals =>
      cases h
      exact .unlockPurge
    | returned vals => cases h

theorem accept_items (q : PriorityQueue T) (x : T) (p : ℤ) (id : String) :
    (items (accept q x p id).1).Perm
      (items q ++ if (accept q x p id).2 = true then [x] else []) ∧
    (accept q x p id).1.closed = q.closed := by
  have hadd : (q.addId id).items = q.items ∧ (q.addId id).closed = q.closed := by
    simp only [PriorityQueue.addId]
    split <;> exact ⟨rfl,rfl⟩
  simp only [accept]
  split
  · simp
  · split
    · simp
    · refine ⟨?_,hadd.2⟩
      simp only [if_true,items,PriorityQueue.values,PriorityQueue.pushItem,hadd.1,List.map_map]
      exact ((push_perm less q.items _).map _).trans (List.perm_append_singleton _ _).symm

structure Inv (s : Shared T) (ts : List (Thread T)) : Prop where
  mx : one s.mx = total (fun t => one (holds t)) ts
  sole : total (fun t => one (isPurge t)) ts ≤ 1
  shut : ∀ t ∈ ts, isPurge t = true ∨ hasClosed t = true → s.queue.closed = true
  items : (ts.filterMap pushed).Perm (items s.queue ++ ts.flatMap purged)
  sealed : ∀ t ∈ ts, emptied t = true → s.queue.items = [] ∧ ∀ u ∈ ts, admits u = false

theorem act_kind (hs : Act s l s' l') : isPurge l' = isPurge l := by
  cases hs <;> rfl

theorem act_closed (hs : Act s l s' l') (hc : s.queue.closed = true) : s'.queue.closed = true := by
  cases hs with
  | accept => exact (accept_items _ _ _ _).2.trans hc
  | close => rfl
  | _ => exact hc

theorem act_holds (hl : holds l = true → s.mx = true) (hs : Act s l s' l') :
    one s'.mx + one (holds l) = one s.mx + one (holds l') := by
  cases hs with
  | lock hm | lockPurge hm => simp [hm,holds]
  | unlock | unlockPurge => simp [hl rfl,holds]
  | _ => rfl

theorem flatMap_act {A B : Type} {f : A → List B} {xs ys : List A} {a a' : A} {bs : List B}
    (h : f a' = f a ++ bs) :
    ((xs ++ a' :: ys).flatMap f).Perm ((xs ++ a :: ys).flatMap f ++ bs) := by
  simp only [List.flatMap_append,List.flatMap_cons,h,List.append_assoc]
  exact List.Perm.append_left _ (List.Perm.append_left _ List.perm_append_comm)

-- What a step does to the items in the queue and to those an enqueue or PurgeValues answers for.
theorem act_items (hs : Act s l s' l') :
    (pushed l' = pushed l ∧ purged l' = purged l ∧ (items s'.queue).Perm (items s.queue)) ∨
    (∃ x, pushed l = none ∧ pushed l' = some x ∧ purged l' = purged l ∧
      (items s'.queue).Perm (items s.queue ++ [x])) ∨
    (pushed l' = pushed l ∧ purged l' = purged l ++ items s.queue ∧ items s'.queue = []) := by
  cases hs with
  | @accept x p id =>
    have hp := (accept_items s.queue x p id).1
    cases hr : (Priority.accept s.queue x p id).2 with
    | true =>
      rw [hr,if_pos rfl] at hp
      exact .inr (.inl ⟨x,rfl,rfl,rfl,hp⟩)
    | false =>
      rw [hr,if_neg (by decide),List.append_nil] at hp
      exact .inl ⟨rfl,rfl,hp⟩
  | purge => exact .inr (.inr ⟨rfl,rfl,rfl⟩)
  | _ => exact .inl ⟨rfl,rfl,.refl _⟩

theorem Inv.locked (h : Inv s ts) (hl : l ∈ ts) (hh : holds l = true) : s.mx = true := by
  have h1 := h.mx
  have h2 := le_total (f := fun t => one (holds t)) hl
  simp only [hh,one_true] at h2
  cases hm : s.mx
  · rw [hm,one_false] at h1
    omega
  · rfl

theorem Inv.alone (h : Inv s (xs ++ l :: ys)) (hu : u ∈ xs ++ ys) (hh : holds u = true) :
    holds l = false := by
  refine one_eq_zero (eq_zero_of_other (f := fun t => one (holds t)) ?_ hu ?_)
  · rw [← h.mx]
    exact one_le _
  · simp [hh]

-- After the purge the closed queue stays empty.
theorem Inv.sealed_step (h : Inv s (xs ++ l :: ys)) (hs : Act s l s' l') (ht : t ∈ xs ++ l' :: ys)
    (hp : emptied t = true) :
    s'.queue.items = [] ∧ ∀ u ∈ xs ++ l' :: ys, admits u = false := by
  have hl : l ∈ xs ++ l :: ys := by simp
  have old : ∀ t ∈ xs ++ l :: ys, emptied t = true →
      s'.queue.items = [] ∧ ∀ u ∈ xs ++ l' :: ys, admits u = false := by
    intro t ht hp
    obtain ⟨hnil,hno⟩ := h.sealed t ht hp
    have hclosed : s.queue.closed = true := by
      refine h.shut t ht (.inl ?_)
      unfold emptied at hp
      split at hp <;> first | rfl | cases hp
    refine ⟨?_,fun u hu => ?_⟩
    · cases hs with
      | accept => cases hno _ hl
      | purge => rfl
      | _ => exact hnil
    · rcases mem_split hu with hu | rfl
      · exact hno u (mem_of_other hu)
      · cases hs with
        | open_ hc =>
          rw [hclosed] at hc
          cases hc
        | _ => rfl
  rcases mem_split ht with ht | rfl
  · exact old t (mem_of_other ht) hp
  · cases hs with
    | purge =>
      refine ⟨rfl,fun u hu => ?_⟩
      rcases mem_split hu with hu | rfl
      · cases ha : admits u
        · rfl
        · have hh : holds u = true := by
            unfold admits at ha
            split at ha <;> first | rfl | cases ha
          cases h.alone hu hh
      · rfl
    | unlockPurge => exact old _ hl rfl
    | _ => cases hp

theorem inv_act (h : Inv s (xs ++ l :: ys)) (hs : Act s l s' l') : Inv s' (xs ++ l' :: ys) := by
  have hl : l ∈ xs ++ l :: ys := by simp
  refine ⟨?_,?_,fun t ht hc => ?_,?_,fun t ht hp => h.sealed_step hs ht hp⟩
  · have h1 := h.mx
    have h2 := act_holds (h.locked hl) hs
    rw [total_split] at h1 ⊢
    omega
  · have h1 := h.sole
    rw [total_split] at h1 ⊢
    rw [act_kind hs]
    exact h1
  · rcases mem_split ht with ht | rfl
    · exact act_closed hs (h.shut t (mem_of_other ht) hc)
    · rcases hc with hc | hc
      · rw [act_kind hs] at hc
        exact act_closed hs (h.shut l hl (.inl hc))
      · cases hs <;> first | rfl | cases hc
  · rcases act_items hs with ⟨h1,h2,h3⟩ | ⟨x,h1,h2,h3,h4⟩ | ⟨h1,h2,h3⟩
    · have hf := @flatMap_act _ _ purged xs ys _ _ _ (h2.trans (List.append_nil _).symm)
      rw [List.append_nil] at hf
      rw [filterMap_same h1]
      exact h.items.trans (h3.symm.append hf.symm)
    · have hf := @flatMap_act _ _ purged xs ys _ _ _ (h3.trans (List.append_nil _).symm)
      rw [List.append_nil] at hf
      refine (filterMap_claim h.items h1 h2).trans ?_
      rw [List.append_assoc]
      refine (List.Perm.append_left _ List.perm_append_comm).trans ?_
      rw [← List.append_assoc]
      exact h4.symm.append hf.symm
    · rw [filterMap_same h1,h3,List.nil_append]
      exact h.items.trans (List.perm_append_comm.trans (flatMap_act h2).symm)

theorem inv_call (h : Inv s ts) (hok : closing ⟨s,ts⟩ (.call l) = true) (he : entry s l = true) :
    Inv s (ts ++ [l]) := by
  have hbegin : holds l = false ∧ hasClosed l = false ∧ pushed l = none ∧ purged l = [] ∧
      emptied l = false ∧ admits l = false := by
    unfold entry at he
    split at he <;> first | exact ⟨rfl,rfl,rfl,rfl,rfl,rfl⟩ | cases he
  obtain ⟨hh,hc,hpush,hpurged,hempty,haccept⟩ := hbegin
  have hpurge : isPurge l = true → (∀ t ∈ ts, isPurge t = false) ∧ s.queue.closed = true := by
    intro hp
    cases l with
    | purgeValues pc =>
      simp only [closing,Bool.and_eq_true,List.all_eq_true,List.any_eq_true,
        Bool.not_eq_true'] at hok
      obtain ⟨h1,t,ht,hc⟩ := hok
      exact ⟨h1,h.shut t ht (.inr hc)⟩
    | _ => cases hp
  refine ⟨?_,?_,forall_call h.shut fun hc' => ?_,?_,fun t ht hp => ?_⟩
  · rw [total_call,hh]
    exact h.mx
  · rw [total_call]
    cases hp : isPurge l
    · simpa using h.sole
    · have hz : total (fun t => one (isPurge t)) ts = 0 :=
        total_eq_zero.mpr fun t ht => by rw [(hpurge hp).1 t ht]; rfl
      simp [hz]
  · rcases hc' with hc' | hc'
    · exact (hpurge hc').2
    · rw [hc] at hc'
      cases hc'
  · simpa [List.filterMap_append,List.flatMap_append,hpush,hpurged] using h.items
  · rcases List.mem_append.mp ht with ht | ht
    · exact ⟨(h.sealed t ht hp).1,forall_call (h.sealed t ht hp).2 haccept⟩
    · rw [List.mem_singleton.mp ht,hempty] at hp
      cases hp

theorem inv_reach {capacity : ℕ} {w : World (Shared T) (Thread T)}
    (h : (program T).Reach closing (start capacity) w) : Inv w.shared w.threads := by
  refine Program.reach_invariant ?_ (fun _ _ _ h hok he => inv_call h hok he)
    (fun s xs l ys u s' l' new h _ hs => ?_) h
  · exact ⟨rfl,Nat.zero_le 1,fun t ht => (by cases ht),.nil,fun t ht => by cases ht⟩
  · obtain ⟨ha,rfl⟩ := step_act hs
    rw [List.append_nil]
    exact inv_act h ha

def Landed (s : Shared T) (ts : List (Thread T)) (vals : List T) : Prop :=
  s.queue.items = [] ∧ (ts.filterMap accepted).Perm vals

theorem accepted_pushed (hf : finished t = true) : accepted t = pushed t := by
  unfold finished at hf
  split at hf
  · rfl
  · rfl
  · rfl
  · cases hf

theorem flatMap_sole {A B : Type} {p : A → Bool} {f : A → List B} {as : List A} {a : A}
    (h : total (fun b => one (p b)) as ≤ 1) (ha : a ∈ as) (hp : p a = true)
    (hn : ∀ b, p b = false → f b = []) : as.flatMap f = f a := by
  obtain ⟨xs,ys,rfl⟩ := List.append_of_mem ha
  have hz : ∀ b ∈ xs ++ ys, f b = [] := by
    intro b hb
    refine hn b (one_eq_zero ?_)
    rw [total_split,hp,one_true] at h
    have := le_total (f := fun b => one (p b)) hb
    omega
  have hx : xs.flatMap f = [] := List.flatMap_eq_nil_iff.mpr fun b hb => hz b (by simp [hb])
  have hy : ys.flatMap f = [] := List.flatMap_eq_nil_iff.mpr fun b hb => hz b (by simp [hb])
  simp [hx,hy]

theorem Inv.landed (h : Inv s ts) (hf : ∀ t ∈ ts, finished t = true) {vals : List T}
    (hp : .purgeValues (.returned vals) ∈ ts) : Landed s ts vals := by
  have hnil := (h.sealed _ hp rfl).1
  refine ⟨hnil,?_⟩
  have hvals : ts.flatMap purged = vals :=
    flatMap_sole h.sole hp rfl fun t ht => by cases t <;> first | rfl | cases ht
  have hi := h.items
  have hz : Priority.items s.queue = [] := by rw [Priority.items,PriorityQueue.values,hnil]; rfl
  rw [hvals,hz,List.nil_append] at hi
  rwa [List.filterMap_congr fun t ht => accepted_pushed (hf t ht)]

end Varmq.InMemory.Priority
