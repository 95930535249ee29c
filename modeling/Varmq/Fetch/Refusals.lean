import Varmq.Fetch.Basic

namespace Varmq.Fetch

open Interleaving
open Varmq.Queues (Queue PriorityQueue Stored idShards)
open Varmq.Sources (Source Strategy)

variable {T J : Type} {idOf : T → Option String} {hash : String → Fin idShards}
  {storage : ℕ → ℕ} {toJob : T → Option J} {strategy : ℕ → Strategy} {q : Memory T}

namespace Memory

-- What a call may do to the refusals counted and to how many items wait.
structure Kept (q q' : Memory T) : Prop where
  refusals : q'.refusals = q.refusals
  len : q.len ≤ q'.len

theorem append_kept {f f' : Queue T} {x : Stored T} (h : f.append x = some f') :
    Kept (.fifo f) (.fifo f') := by
  unfold Queue.append at h
  split at h <;> cases h
  exact ⟨rfl,by simp [len]⟩

theorem fifo_enqueue_kept (f : Queue T) (item : Option T) :
    Kept (.fifo f) (.fifo (f.enqueue item).1) := by
  unfold Queue.enqueue
  split
  · exact ⟨rfl,Nat.le_refl _⟩
  · split
    · exact ⟨rfl,Nat.le_refl _⟩
    · exact append_kept ‹_›

theorem fifo_enqueueOnce_kept (f : Queue T) (item : Option T) (id : String) :
    Kept (.fifo f) (.fifo (f.enqueueOnce hash item id).1) := by
  unfold Queue.enqueueOnce
  split
  · exact ⟨rfl,Nat.le_refl _⟩
  · dsimp only
    split
    · split
      · exact ⟨rfl,Nat.le_refl _⟩
      · rename_i f' hf
        have hk := append_kept hf
        exact ⟨hk.refusals,hk.len⟩
    · exact ⟨rfl,Nat.le_refl _⟩

theorem priority_enqueue_kept (f : PriorityQueue T) (item : Option T) (p : ℤ) (id : String) :
    Kept (.priority f) (.priority (f.enqueue item p id).1) := by
  cases item with
  | none => exact ⟨rfl,Nat.le_refl _⟩
  | some v =>
    simp only [PriorityQueue.enqueue]
    split
    · exact ⟨rfl,Nat.le_refl _⟩
    · split
      · exact ⟨rfl,Nat.le_refl _⟩
      · split
        · exact ⟨rfl,Nat.le_refl _⟩
        · have hid : (f.addId id).items = f.items ∧ (f.addId id).refusals = f.refusals := by
            unfold PriorityQueue.addId
            split <;> exact ⟨rfl,rfl⟩
          refine ⟨hid.2,?_⟩
          simp only [len,PriorityQueue.pushItem,(Queues.push_perm _ _ _).length_eq,hid.1,
            List.length_cons]
          omega

theorem run_kept (c : QueueCall T) (hc : c ≠ .purge) (q : Memory T) : Kept q (c.run hash q) := by
  cases c with
  | add item p =>
    cases q with
    | fifo f => exact fifo_enqueue_kept f item
    | priority f => exact priority_enqueue_kept f item p ""
  | addOnce item p id =>
    cases q with
    | fifo f => exact fifo_enqueueOnce_kept f item id
    | priority f => exact priority_enqueue_kept f item p id
  | purge => exact absurd rfl hc
  | _ => cases q <;> exact ⟨rfl,Nat.le_refl _⟩

theorem run_refusals (c : QueueCall T) (q : Memory T) : (c.run hash q).refusals = q.refusals := by
  by_cases hc : c = .purge
  · subst hc
    cases q <;> rfl
  · exact (run_kept c hc q).refusals

-- A Dequeue takes one item where there is one.
structure Took (q q' : Memory T) (x : Option (Stored T)) : Prop where
  refusals : q'.refusals = q.refusals
  len : q.len ≤ q'.len + 1
  none : x = none ↔ q.len = 0

theorem fifo_took (f : Queue T) :
    Took (.fifo f) ((Memory.fifo f).take idOf hash).1 ((Memory.fifo f).take idOf hash).2 := by
  obtain ⟨items,limit,closed,paused,refusals,ids,idsOn⟩ := f
  cases items with
  | nil => exact ⟨rfl,Nat.zero_le _,by simp [take,Queue.dequeue,len]⟩
  | cons x items =>
    simp only [take,Queue.dequeue,Bool.false_eq_true,if_false]
    split
    · split
      · exact ⟨rfl,Nat.le_refl _,by simp [len]⟩
      · exact ⟨rfl,Nat.le_refl _,by simp [len,Queue.remove]⟩
    · exact ⟨rfl,Nat.le_refl _,by simp [len]⟩

theorem priority_took (f : PriorityQueue T) :
    Took (.priority f) ((Memory.priority f).take idOf hash).1
      ((Memory.priority f).take idOf hash).2 := by
  cases hp : Queues.pop Queues.less f.items with
  | none =>
    have hz : f.items = [] := by
      by_contra hne
      obtain ⟨x,rest,hx⟩ := Queues.pop_nonempty Queues.less hne
      simp [hp] at hx
    simp only [take,PriorityQueue.dequeue,Bool.false_eq_true,if_false,hp]
    exact ⟨rfl,by simp [len,hz],by simp [len,hz]⟩
  | some r =>
    obtain ⟨x,rest⟩ := r
    have hl := (Queues.pop_perm hp).length_eq
    simp only [List.length_cons] at hl
    simp only [take,PriorityQueue.dequeue,Bool.false_eq_true,if_false,hp]
    split
    · exact ⟨rfl,by simp [len,hl],by simp [len,hl]⟩
    · split
      · exact ⟨rfl,by simp [len,hl],by simp [len,hl]⟩
      · exact ⟨rfl,by simp [len,hl,PriorityQueue.removeId],by simp [len,hl]⟩

theorem took (q : Memory T) : Took q (q.take idOf hash).1 (q.take idOf hash).2 := by
  cases q with
  | fifo f => exact fifo_took f
  | priority f => exact priority_took f

theorem refusals_countRefusal (q : Memory T) : q.countRefusal.refusals = q.refusals + 1 := by
  cases q <;> rfl

theorem len_countRefusal (q : Memory T) : q.countRefusal.len = q.len := by
  cases q <;> rfl

end Memory

variable {s s' : Shared T J} {l l' t : Thread T J} {xs ys ts new : List (Thread T J)} {c : Choice}
  {w : ℕ} {src : Source}

theorem queue_set (s : Shared T J) (n : ℕ) (m : Memory T) (src : Source) :
    queue storage (setQueue s n m) src = if storage src.id = n then m else queue storage s src := by
  by_cases h : storage src.id = n
  · simp [queue,setQueue,h]
  · simp [queue,setQueue,h,Function.update_of_ne h]

-- Where a dispatch stands with the count of refusals it has read.
def NextPc.Counted (storage : ℕ → ℕ) (s : Shared T J) : NextPc T → Prop
  | .refuse src e | .refused src e | .dequeue src e => e ≤ (queue storage s src).refusals
  | .emptyErr src e | .refusals src e => e < (queue storage s src).refusals
  | .failed err => err ≠ .failedToDequeue
  | _ => True

def Told (storage : ℕ → ℕ) (s : Shared T J) : Thread T J → Prop
  | .loop _ (.fill _ _ _ pc) => pc.Counted storage s
  | .loop _ (.report err) => err ≠ .failedToDequeue
  | _ => True

structure Inv (storage : ℕ → ℕ) (s : Shared T J) (ts : List (Thread T J)) : Prop where
  told : ∀ t ∈ ts, Told storage s t
  errors : ∀ e ∈ s.errors, e.2 ≠ .failedToDequeue

-- The refusals counted never go down.
def Grows (s s' : Shared T J) : Prop := ∀ n, (s.queues n).refusals ≤ (s'.queues n).refusals

theorem grows_set {n : ℕ} {m : Memory T} (h : (s.queues n).refusals ≤ m.refusals) :
    Grows s (setQueue s n m) := by
  intro k
  by_cases hk : k = n
  · subst hk
    simpa [setQueue] using h
  · simp [setQueue,Function.update_of_ne hk]

theorem grows_of_eq (h : s'.queues = s.queues) : Grows s s' := fun n => by rw [h]

theorem counted_grows {pc : NextPc T} (h : Grows s s') (hc : pc.Counted storage s) :
    pc.Counted storage s' := by
  have hg := fun src : Source => h (storage src.id)
  cases pc with
  | refuse src e | refused src e | dequeue src e => exact Nat.le_trans hc (hg src)
  | emptyErr src e | refusals src e => exact Nat.lt_of_lt_of_le hc (hg src)
  | _ => exact hc

theorem told_grows (h : Grows s s') (ht : Told storage s t) : Told storage s' t := by
  cases t with
  | loop w pc =>
    cases pc with
    | idle => trivial
    | fill k m buf pc => exact counted_grows h ht
    | report err => exact ht
  | call q c => trivial
  | bind w src => trivial

theorem first_counted (use : List Source → Use) (srcs : List Source) :
    (first use srcs : NextPc T).Counted storage s := by
  cases srcs <;> simp [first,NextPc.Counted]

theorem maxNext_counted (best : Source) (rest : List Source) :
    (maxNext best rest : NextPc T).Counted storage s := by
  cases rest <;> trivial

theorem pick_counted (m : Sources.Manager Source) (st : Strategy) :
    (pick m st : NextPc T).Counted storage s := by
  cases st with
  | maxLen =>
    simp only [pick]
    split
    · simp [NextPc.Counted]
    · exact maxNext_counted _ _
  | _ => exact first_counted _ _

theorem startNext_counted (m : Sources.SourceManager) (l : Loaded) :
    (startNext m l : NextPc T).Counted storage s := by
  cases l with
  | empty => simp [startNext,NextPc.Counted]
  | direct src => trivial
  | strategy =>
    cases m with
    | strategy m st => exact pick_counted m st
    | _ => simp [startNext,NextPc.Counted]

theorem scanned_counted (src : Source) (n : ℕ) (use : Use) :
    (scanned src n use : NextPc T).Counted storage s := by
  cases use with
  | direct | maxLast =>
    simp only [scanned]
    split <;> simp [NextPc.Counted]
  | roundRobin rest | priority rest =>
    simp only [scanned]
    split
    · trivial
    · exact first_counted _ _
  | minLen rest best =>
    cases rest with
    | nil =>
      simp only [scanned]
      split <;> simp [NextPc.Counted]
    | cons a rest => trivial
  | maxLeft best rest => trivial
  | maxRight a na rest => exact maxNext_counted _ _

-- A Dequeue that is not refused finds an item, or a refusal counted since the epoch was read.
def findsItem (storage : ℕ → ℕ) (s : Shared T J) : Thread T J → Bool
  | .loop _ (.fill _ _ _ (.dequeue src e)) =>
      (queue storage s src).len ≠ 0 || (queue storage s src).refusals ≠ e
  | _ => true

def finds (storage : ℕ → ℕ) : Guard (Shared T J) (Thread T J) Choice := fun w e => match e with
  | .call _ => true
  | .act i _ => w.threads[i]?.all (findsItem storage w.shared)

theorem next_counted {k : ℕ} {m : Loaded} {buf : List J} {pc pc' : NextPc T}
    (hs : nextStep idOf hash storage s w m pc = some (s',pc'))
    (hf : findsItem storage s (.loop w (.fill k m buf pc)) = true) (hc : pc.Counted storage s) :
    Grows s s' ∧ s'.errors = s.errors ∧ pc'.Counted storage s' := by
  cases pc with
  | next =>
    cases hs
    exact ⟨grows_of_eq rfl,rfl,startNext_counted _ _⟩
  | paused src use =>
    cases hs
    refine ⟨grows_of_eq rfl,rfl,?_⟩
    split
    · exact scanned_counted _ _ _
    · trivial
  | len src use =>
    cases hs
    exact ⟨grows_of_eq rfl,rfl,scanned_counted _ _ _⟩
  | epoch src =>
    cases hs
    exact ⟨grows_of_eq rfl,rfl,Nat.le_refl _⟩
  | refuse src e =>
    cases hs
    refine ⟨grows_of_eq rfl,rfl,?_⟩
    split <;> exact hc
  | refused src e =>
    cases hs
    have hr := Memory.refusals_countRefusal (queue storage s src)
    refine ⟨grows_set (by rw [hr]; exact Nat.le_succ _),rfl,?_⟩
    simp only [NextPc.Counted,queue_set,if_true,hr] at hc ⊢
    omega
  | dequeue src e =>
    have ht := @Memory.took T idOf hash (queue storage s src)
    simp only [nextStep] at hs
    generalize (queue storage s src).take idOf hash = r at hs ht
    obtain ⟨q,x⟩ := r
    cases hs
    refine ⟨grows_set (Nat.le_of_eq ht.refusals.symm),rfl,?_⟩
    cases x with
    | some x => trivial
    | none =>
      have hz := ht.none.mp rfl
      have hne : (queue storage s src).refusals ≠ e := by simpa [findsItem,hz] using hf
      have hle : e ≤ (queue storage s src).refusals := hc
      simp only [NextPc.Counted,queue_set,if_true,ht.refusals]
      omega
  | emptyErr src e =>
    cases hs
    refine ⟨grows_of_eq rfl,rfl,?_⟩
    split
    · simp [NextPc.Counted]
    · exact hc
  | refusals src e =>
    cases hs
    refine ⟨grows_of_eq rfl,rfl,?_⟩
    have hne : (queue storage s src).refusals ≠ e := Nat.ne_of_gt hc
    simp [NextPc.Counted,hne]
  | item x => cases hs
  | failed err => cases hs

theorem handOff_same (buf : List J) :
    (handOff s w buf).queues = s.queues ∧ (handOff s w buf).errors = s.errors := by
  unfold handOff
  split <;> exact ⟨rfl,rfl⟩

theorem loop_told {pc pc' : LoopPc T J}
    (hs : loopStep idOf hash storage toJob s w pc c = some (s',pc'))
    (hf : findsItem storage s (.loop w pc) = true) (ht : Told storage s (.loop w pc))
    (he : ∀ e ∈ s.errors, e.2 ≠ .failedToDequeue) :
    Grows s s' ∧ Told storage s' (.loop w pc') ∧ ∀ e ∈ s'.errors, e.2 ≠ .failedToDequeue := by
  have hoff : ∀ buf, Grows s (handOff s w buf) := fun buf => grows_of_eq (handOff_same buf).1
  have herr : ∀ buf, ∀ e ∈ (handOff s w buf).errors, e.2 ≠ .failedToDequeue := fun buf => by
    rw [(handOff_same buf).2]
    exact he
  unfold loopStep at hs
  split at hs
  · split at hs <;> cases hs
    exact ⟨grows_of_eq rfl,trivial,he⟩
  · split at hs
    · cases hs
      exact ⟨grows_of_eq rfl,by simp [Told,NextPc.Counted],he⟩
    · split at hs
      · cases hs
        exact ⟨grows_of_eq rfl,trivial,he⟩
      · split at hs <;> cases hs
        · exact ⟨grows_of_eq rfl,trivial,he⟩
        · exact ⟨hoff _,trivial,herr _⟩
  · cases hs
    refine ⟨hoff _,?_,herr _⟩
    split
    · trivial
    · exact ht
  · obtain ⟨⟨s₁,pc₁⟩,hn,heq⟩ := Option.map_eq_some_iff.mp hs
    cases heq
    obtain ⟨hg,heq,hc⟩ := next_counted hn hf ht
    exact ⟨hg,hc,by rwa [heq]⟩
  · cases hs
    refine ⟨grows_of_eq rfl,trivial,fun e hm => ?_⟩
    rcases List.mem_append.mp hm with hm | hm
    · exact he e hm
    · rw [List.mem_singleton.mp hm]
      exact ht
  · cases hs

theorem Inv.act (h : Inv storage s (xs ++ l :: ys)) (hf : findsItem storage s l = true)
    (hs : step idOf hash storage toJob strategy s l c = some (s',l',new)) :
    Inv storage s' (xs ++ l' :: (ys ++ new)) := by
  have hkey : Grows s s' ∧ Told storage s' l' ∧ (∀ e ∈ s'.errors, e.2 ≠ .failedToDequeue) ∧
      new = [] := by
    unfold step at hs
    split at hs
    · obtain ⟨⟨s₁,pc₁⟩,hp,heq⟩ := Option.map_eq_some_iff.mp hs
      cases heq
      obtain ⟨hg,ht,he⟩ := loop_told hp hf (h.told _ (by simp)) h.errors
      exact ⟨hg,ht,he,rfl⟩
    · cases hs
      exact ⟨grows_set (Nat.le_of_eq (Memory.run_refusals _ _).symm),trivial,h.errors,rfl⟩
    · cases hs
      exact ⟨grows_of_eq rfl,trivial,h.errors,rfl⟩
    · cases hs
  obtain ⟨hg,ht,he,rfl⟩ := hkey
  exact ⟨forall_act (fun t hm => told_grows hg (h.told t (mem_of_other hm))) ht
    (fun t hm => by cases hm),he⟩

theorem Inv.call (h : Inv storage s ts) (he : entry s l = true) : Inv storage s (ts ++ [l]) := by
  refine ⟨forall_call h.told ?_,h.errors⟩
  unfold entry at he
  split at he <;> first | trivial | cases he

variable {fifo : ℕ → Bool} {capacity : ℕ → ℕ}

theorem inv_reach {wd : World (Shared T J) (Thread T J)}
    (h : (program idOf hash storage toJob strategy).Reach (finds storage)
      (newWorkers fifo capacity) wd) : Inv storage wd.shared wd.threads := by
  have h0 : Inv storage (newWorkers fifo capacity : World (Shared T J) (Thread T J)).shared
      (newWorkers fifo capacity : World (Shared T J) (Thread T J)).threads :=
    ⟨(fun _ ht => by cases ht),fun _ he => by cases he⟩
  refine Program.reach_invariant h0 (fun _ _ _ hi _ he => hi.call he) ?_ h
  intro s xs l ys c s' l' new hi hok hs
  refine hi.act ?_ hs
  simpa [finds,getElem?_split] using hok

end Varmq.Fetch
