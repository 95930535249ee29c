import Varmq.Queues.Priority
import Varmq.Queues.View
import Varmq.Submit.Basic

namespace Varmq.Submit

open Varmq.Queues (Op Ret Queue PriorityQueue)
open Varmq.Jobs (Job Error closeable)

variable {T Q R : Type} {call : Q → Op T → Q × Ret T} {k : Jobs.Kind}

-- A Close with no other operation on the job.
def closeAlone : ℕ → Job R → Jobs.ClosePc → Job R × Jobs.ClosePc
  | 0, j, pc => (j,pc)
  | n + 1, j, pc =>
      match Jobs.closeStep j pc .go with
      | none => (j,pc)
      | some (j',pc') => closeAlone n j' pc'

theorem close_alone (j : Job R) :
    closeAlone 4 (countedBy j) .load = ((close (countedBy j)).1,.returned (close (countedBy j)).2) := by
  have hload : ∀ n, closeAlone (n + 1) (countedBy j) .load = closeAlone n (countedBy j) .claimLoad :=
    fun n => rfl
  rw [hload]
  cases hc : closeable j.status with
  | some e =>
    have hclose : close (countedBy j) = (countedBy j,some e) := by
      simp [close,closeOnce,countedBy,hc]
    rw [hclose]
    simp [closeAlone,Jobs.closeStep,countedBy,hc]
  | none =>
    have hclose : close (countedBy j) =
        ({ countedBy j with status := .closed, wg := j.wg - 1 },none) := by
      simp [close,closeOnce,countedBy,hc]
    rw [hclose]
    simp [closeAlone,Jobs.closeStep,countedBy,hc]

section Group

theorem done_lower {c : WgCounter} (h : c.count ≠ 0) : c.done.1.count + 1 = c.count := by
  simp only [WgCounter.done,if_neg h]
  omega

theorem done_zero {c : WgCounter} (h : c.count = 0) : c.done.1 = c := by
  simp only [WgCounter.done,if_pos h]

theorem newGroupJob_count {n : ℕ} {c : WgCounter} (h : newGroupJob n = some c) :
    c.count = n % 2 ^ 32 ∧ n % 2 ^ 32 < 2 ^ 31 := by
  obtain ⟨x,hx,rfl⟩ := Option.map_eq_some_iff.mp h
  unfold Group.newWgCounter at hx
  split at hx
  · cases hx
  · rename_i hb
    cases hx
    refine ⟨rfl,?_⟩
    rw [Int.bmod_def] at hb
    simp only [Group.uint32Size] at hb
    omega

theorem newGroupJob_some {n : ℕ} (h : n % 2 ^ 32 < 2 ^ 31) :
    ∃ c, newGroupJob n = some c ∧ c.count = n % 2 ^ 32 := by
  have hb : ¬Int.bmod n Group.uint32Size < 0 := by
    rw [Int.bmod_def]
    simp only [Group.uint32Size]
    omega
  exact ⟨⟨n % Group.uint32Size,Int.bmod n Group.uint32Size⟩,
    by rw [newGroupJob,Group.newWgCounter,if_neg hb]; rfl,rfl⟩

end Group

theorem added_back (h : Handle Q) (q : Q) :
    ({ h.added 1 with internalQueue := q }.added (-1)).submitted = h.submitted := by
  have hzero : BitVec.ofInt 64 1 + BitVec.ofInt 64 (-1) = 0#64 := by decide
  simp only [Handle.added]
  rw [BitVec.add_assoc,hzero,BitVec.add_zero]

theorem closeOnce_new (j : Job R) (h : j.status = .created) :
    closeOnce j = ({ j with status := .closed },none) := by
  simp [closeOnce,closeable,h]

def refusedBy (call : Q → Op T → Q × Ret T) (q : Q) (op : Op T) : Prop :=
  (call q op).2 = .accepted false

section Member

variable [Inhabited R] {h : Handle Q} {x : T} {p : ℤ} {c : JobConfigs} {group : WgCounter}
  {item : Item T}

-- What a refused Add or member of AddAll leaves of the handle and the job.
structure Undone (Same : Q → Q → Prop) (h h' : Handle Q) (j : Job R) : Prop where
  storage : Same h.internalQueue h'.internalQueue
  submitted : h'.submitted = h.submitted
  closed : j.status = .closed

-- That the storage answers an enqueue with a Boolean.
def Answers (call : Q → Op T → Q × Ret T) : Prop :=
  ∀ q x p id, ∃ ok, (call q (enqueueOp x p id)).2 = .accepted ok

def memberOp (item : Item T) : Op T :=
  let c := jobConfigsFor item.generated item.id
  enqueueOp item.data item.priority (c.onceId (Group.generateGroupId c.id))

theorem enqueue_eq (ha : Answers call) (h : Handle Q) (x : T) (p : ℤ) (id : String) :
    (∃ q, call h.internalQueue (enqueueOp x p id) = (q,.accepted true) ∧
      h.enqueue call x p id = ({ h with internalQueue := q },true)) ∨
    ∃ q, call h.internalQueue (enqueueOp x p id) = (q,.accepted false) ∧
      h.enqueue call x p id = ({ h with internalQueue := q },false) := by
  obtain ⟨ok,hok⟩ := ha h.internalQueue x p id
  obtain ⟨q,hq⟩ : ∃ q, call h.internalQueue (enqueueOp x p id) = (q,.accepted ok) :=
    ⟨_,Prod.ext rfl hok⟩
  have he : h.enqueue call x p id = ({ h with internalQueue := q },ok) := by
    simp only [Handle.enqueue,hq]
  cases ok with
  | true => exact .inl ⟨q,hq,he⟩
  | false => exact .inr ⟨q,hq,he⟩

theorem add_refused (ha : Answers call) {Same : Q → Q → Prop}
    (hsame : ∀ op, refusedBy call h.internalQueue op → Same h.internalQueue (call h.internalQueue op).1)
    (hr : (add (R := R) call k h x p c).2.2 = false) :
    Undone Same h (add (R := R) call k h x p c).1 (add (R := R) call k h x p c).2.1 := by
  unfold add at hr ⊢
  rcases enqueue_eq ha (h.added 1) x p (c.onceId (countedBy (newJob (R := R) k c)).id) with
    ⟨q,-,he⟩ | ⟨q,hq,he⟩
  · simp only [he] at hr
    cases hr
  · simp only [he]
    have hs := hsame _ (congrArg Prod.snd hq)
    refine ⟨?_,added_back h q,?_⟩
    · exact (congrArg (Same h.internalQueue) (congrArg Prod.fst hq)).mp hs
    · rw [close,closeOnce_new _ rfl]

theorem addMember_refused (ha : Answers call) {Same : Q → Q → Prop}
    (hsame : ∀ op, refusedBy call h.internalQueue op → Same h.internalQueue (call h.internalQueue op).1)
    (hr : (addMember (R := R) call k h group item).2.2.2 = false) :
    Undone Same h (addMember (R := R) call k h group item).1
        (addMember (R := R) call k h group item).2.2.1 ∧
      (addMember (R := R) call k h group item).2.1 = group.done.1 := by
  unfold addMember at hr ⊢
  rcases enqueue_eq ha (h.added 1) item.data item.priority
      ((jobConfigsFor item.generated item.id).onceId
        (countedBy (newMember (R := R) k (jobConfigsFor item.generated item.id))).id) with
    ⟨q,-,he⟩ | ⟨q,hq,he⟩
  · simp only [he] at hr
    cases hr
  · simp only [he]
    have hs := hsame _ (congrArg Prod.snd hq)
    refine ⟨⟨?_,added_back h q,?_⟩,?_⟩
    · exact (congrArg (Same h.internalQueue) (congrArg Prod.fst hq)).mp hs
    · rw [closeMember,closeOnce_new _ rfl]
    · rw [closeMember,closeOnce_new _ rfl]

-- What the claim of refused members rests on: the storages are reached by calls and refuse only
-- without a trace.
structure Lawful (call : Q → Op T → Q × Ret T) (history : List (Op T) → Q) (Same : Q → Q → Prop)
    (Closed : Q → Prop) : Prop where
  answers : Answers call
  step : ∀ ops op, (call (history ops) op).1 = history (ops ++ [op])
  same : ∀ ops op, refusedBy call (history ops) op →
    Same (history ops) (call (history ops) op).1
  closes : Closed (history [.close])
  refuses : ∀ q x p id, Closed q → refusedBy call q (enqueueOp x p id) ∧
    Closed (call q (enqueueOp x p id)).1

variable {history : List (Op T) → Q} {Same : Q → Q → Prop} {Closed : Q → Prop}

-- No enqueue that is refused leaves a trace: not on its own, not in Add and not as a member of an
-- AddAll of n items, which also counts it off its group.
structure RefusalsUndone (R : Type) [Inhabited R] (call : Q → Op T → Q × Ret T)
    (history : List (Op T) → Q) (Same : Q → Q → Prop) (n : ℕ) : Prop where
  enqueue : ∀ ops op, refusedBy call (history ops) op →
    Same (history ops) (call (history ops) op).1
  add : ∀ ops submitted k x p c, (add (R := R) call k ⟨history ops,submitted⟩ x p c).2.2 = false →
    Undone Same ⟨history ops,submitted⟩ (add (R := R) call k ⟨history ops,submitted⟩ x p c).1
      (add (R := R) call k ⟨history ops,submitted⟩ x p c).2.1
  addAll : ∀ ops submitted k group items before item later, newGroupJob n = some group →
    items.length = n → items = before ++ item :: later →
    ∀ h g, addAll call R k ⟨history ops,submitted⟩ group before = (h,g) →
      (addMember (R := R) call k h g item).2.2.2 = false →
      Undone Same h (addMember (R := R) call k h g item).1
          (addMember (R := R) call k h g item).2.2.1 ∧
        (addMember (R := R) call k h g item).2.1.count + 1 = g.count

theorem addMember_history (R : Type) [Inhabited R] (k : Jobs.Kind) (group : WgCounter)
    (item : Item T) (law : Lawful call history Same Closed) {ops : List (Op T)} (hh : h.internalQueue = history ops) :
    (addMember (R := R) call k h group item).1.internalQueue = history (ops ++ [memberOp item]) ∧
      group.count ≤ (addMember (R := R) call k h group item).2.1.count + 1 := by
  rw [← law.step,← hh]
  unfold addMember
  rcases enqueue_eq law.answers (h.added 1) item.data item.priority
      ((jobConfigsFor item.generated item.id).onceId
        (countedBy (newMember (R := R) k (jobConfigsFor item.generated item.id))).id) with
    ⟨q,hq,he⟩ | ⟨q,hq,he⟩
  · simp only [he]
    exact ⟨(congrArg Prod.fst hq).symm,Nat.le_succ _⟩
  · simp only [he]
    refine ⟨(congrArg Prod.fst hq).symm,?_⟩
    rw [closeMember,closeOnce_new _ rfl]
    by_cases hz : group.count = 0
    · omega
    · exact (done_lower hz).ge

theorem addAll_cons (items : List (Item T)) : addAll call R k h group (item :: items) =
    addAll call R k (addMember (R := R) call k h group item).1
      (addMember (R := R) call k h group item).2.1 items := rfl

theorem addAll_history (R : Type) [Inhabited R] (k : Jobs.Kind) (group : WgCounter)
    (law : Lawful call history Same Closed) (items : List (Item T)) {ops : List (Op T)} (hh : h.internalQueue = history ops) : ∃ ops',
      (addAll call R k h group items).1.internalQueue = history ops' ∧
      group.count ≤ (addAll call R k h group items).2.count + items.length := by
  induction items generalizing h group ops with
  | nil => exact ⟨ops,hh,Nat.le_refl _⟩
  | cons item items ih =>
    obtain ⟨hq,hc⟩ := addMember_history R k group item law hh
    obtain ⟨ops',hq',hc'⟩ := ih (addMember (R := R) call k h group item).2.1 hq
    refine ⟨ops',hq',?_⟩
    rw [addAll_cons,List.length_cons]
    omega

theorem addMember_closed (R : Type) [Inhabited R] (k : Jobs.Kind) (group : WgCounter)
    (item : Item T) (law : Lawful call history Same Closed) (hc : Closed h.internalQueue) :
    (addMember (R := R) call k h group item).2.2.2 = false ∧
      Closed (addMember (R := R) call k h group item).1.internalQueue ∧
      (addMember (R := R) call k h group item).2.1 = group.done.1 := by
  obtain ⟨hr,hc'⟩ := law.refuses h.internalQueue item.data item.priority
    ((jobConfigsFor item.generated item.id).onceId
      (Group.generateGroupId (jobConfigsFor item.generated item.id).id)) hc
  unfold addMember
  rcases enqueue_eq law.answers (h.added 1) item.data item.priority
      ((jobConfigsFor item.generated item.id).onceId
        (countedBy (newMember (R := R) k (jobConfigsFor item.generated item.id))).id) with
    ⟨q,hq,he⟩ | ⟨q,hq,he⟩
  · exact absurd ((congrArg Prod.snd hq).symm.trans hr) (by simp)
  · simp only [he]
    refine ⟨trivial,(congrArg Closed (congrArg Prod.fst hq)).mp hc',?_⟩
    rw [closeMember,closeOnce_new _ rfl]

-- On a closed storage every member is refused, until the counter is at 0.
theorem addAll_closed (R : Type) [Inhabited R] (k : Jobs.Kind) (group : WgCounter) (item : Item T)
    (law : Lawful call history Same Closed) (n : ℕ) (hc : Closed h.internalQueue) :
    Closed (addAll call R k h group (List.replicate n item)).1.internalQueue ∧
      (addAll call R k h group (List.replicate n item)).2.count = group.count - n := by
  induction n generalizing h group with
  | zero => exact ⟨hc,rfl⟩
  | succ n ih =>
    rw [List.replicate_succ,addAll_cons]
    obtain ⟨hr,hc'⟩ := addMember_closed R k group item law hc
    obtain ⟨h1,h2⟩ := ih (addMember (R := R) call k h group item).2.1 hc'.1
    refine ⟨h1,?_⟩
    rw [h2,hc'.2]
    by_cases hz : group.count = 0
    · rw [done_zero hz]
      omega
    · have := done_lower hz
      omega

theorem replicate_split {A : Type} {m n : ℕ} (h : m < n) (x : A) :
    List.replicate n x = List.replicate m x ++ x :: List.replicate (n - m - 1) x := by
  have hn : n = m + (n - m - 1 + 1) := by omega
  rw [← List.replicate_succ,List.replicate_append_replicate,← hn]

theorem refusalsUndone_iff [Inhabited T] (law : Lawful call history Same Closed) (n : ℕ) :
    RefusalsUndone R call history Same n ↔ n < 2 ^ 32 ∨ 2 ^ 31 ≤ n % 2 ^ 32 := by
  constructor
  · intro hu
    by_contra hno
    have hlt : n % 2 ^ 32 < 2 ^ 31 := by omega
    obtain ⟨group,hg,hcount⟩ := newGroupJob_some hlt
    let h : Handle Q := ⟨history [.close],0⟩
    obtain ⟨hc,hz⟩ := @addAll_closed _ _ call h _ _ _ R _ .plain group default law (n % 2 ^ 32) law.closes
    have hitems := replicate_split (show n % 2 ^ 32 < n by omega) (default : Item T)
    obtain ⟨hr,-,hdone⟩ := addMember_closed R .plain
      (addAll call R .plain h group (List.replicate (n % 2 ^ 32) default)).2 default law hc
    have hlow := (hu.addAll [.close] 0 .plain group _ _ _ _ hg List.length_replicate hitems _ _ rfl
      hr).2
    have hzero : (addAll call R .plain h group (List.replicate (n % 2 ^ 32) default)).2.count = 0 := by
      rw [hz,hcount,Nat.sub_self]
    rw [hdone,done_zero hzero,hzero] at hlow
    cases hlow
  · intro hn
    refine ⟨law.same,fun ops submitted k x p c hr => ?_,
      fun ops submitted k group items before item later hg hlen hitems h g hs hr => ?_⟩
    · exact add_refused law.answers (law.same ops) hr
    · obtain ⟨ops',hq,hc⟩ := @addAll_history _ _ call ⟨history ops,submitted⟩ _ _ _ R _ k group law
        before ops rfl
      rw [hs] at hq hc
      obtain ⟨hcount,hlt⟩ := newGroupJob_count hg
      have hlen' := congrArg List.length hitems
      rw [List.length_append,List.length_cons] at hlen'
      have hmod : n < 2 ^ 32 := by omega
      rw [Nat.mod_eq_of_lt hmod] at hcount
      have hpos : g.count ≠ 0 := by
        simp only at hc
        omega
      obtain ⟨hundone,hdone⟩ := addMember_refused law.answers (hq ▸ law.same ops') hr
      exact ⟨hundone,by rw [hdone,done_lower hpos]⟩

end Member

-- The items in their order, the ids held and what every later history returns.
structure Unchanged {S : Type} (call : Q → Op T → Q × Ret T) (items : Q → List S)
    (holds : Q → String → Prop) (q q' : Q) : Prop where
  items : items q' = items q
  held : ∀ id, holds q' id ↔ holds q id
  later : ∀ ops, Queues.returns call q' ops = Queues.returns call q ops

section Storages

variable {idOf : T → Option String} {hash : String → Fin Queues.idShards}

theorem fifo_lawful : Lawful (Queue.call idOf hash) (Queue.history idOf hash)
    (Unchanged (Queue.call idOf hash) Queue.items (Queue.holds hash)) (fun q => q.closed = true) where
  answers q x p id := by
    unfold enqueueOp
    split
    · exact ⟨_,rfl⟩
    · exact ⟨_,rfl⟩
  step ops op := (Queue.history_concat ops op).symm
  same ops op hr := by
    have hoff : (Queue.history idOf hash ops).Off hash := Queue.off_history ops
    obtain ⟨hs,hret⟩ := @Queue.view_call _ idOf hash _ hoff op
    have hv : (Queue.call idOf hash (Queue.history idOf hash ops) op).1.view hash =
        (Queue.history idOf hash ops).view hash := by
      rw [hs]
      exact Queues.View.call_refused (hret.symm.trans hr)
    refine ⟨congrArg Queues.View.items hv,fun id => ?_,
      Queue.returns_same (Queue.off_call hoff op) hoff hv⟩
    exact Set.ext_iff.mp (congrArg Queues.View.held hv) id
  closes := rfl
  refuses q x p id hc := by
    have happ : ∀ (q : Queue T) (y : Queues.Stored T), q.closed = true → q.append y = none :=
      fun q y h => by simp [Queue.append,h]
    unfold enqueueOp
    split
    · simp only [refusedBy,Queue.call,Queue.enqueueOnce_some]
      split
      · exact ⟨rfl,hc⟩
      · rw [happ _ _ (by exact hc)]
        exact ⟨rfl,hc⟩
    · simp only [refusedBy,Queue.call,Queue.enqueue,happ q _ hc]
      exact ⟨trivial,hc⟩

theorem priority_same (q : PriorityQueue T) (op : Op T)
    (hr : refusedBy (PriorityQueue.call idOf) q op) : (q.call idOf op).1 = q := by
  have hcases : ∀ item p id, (q.enqueue item p id).2 = false → (q.enqueue item p id).1 = q := by
    intro item p id h
    rcases q.enqueue_cases item p id with he | ⟨v,-,he⟩
    · rw [he]
    · rw [he] at h
      cases h
  cases op with
  | enqueue item p => exact hcases item p "" (by simpa [refusedBy,PriorityQueue.call] using hr)
  | enqueueOnce item p id => exact hcases item p id (by simpa [refusedBy,PriorityQueue.call] using hr)
  | _ => cases hr

theorem priority_lawful : Lawful (PriorityQueue.call idOf) (PriorityQueue.history idOf)
    (Unchanged (PriorityQueue.call idOf) PriorityQueue.items PriorityQueue.holds)
    (fun q => q.closed = true) where
  answers q x p id := by
    unfold enqueueOp
    split
    · exact ⟨_,rfl⟩
    · exact ⟨_,rfl⟩
  step ops op := (PriorityQueue.history_concat ops op).symm
  same ops op hr := by
    rw [priority_same _ op hr]
    exact ⟨rfl,fun _ => Iff.rfl,fun _ => rfl⟩
  closes := rfl
  refuses q x p id hc := by
    have he : ∀ id, q.enqueue (some x) p id = (q,false) := fun id => if_pos hc
    unfold enqueueOp
    split
    · simp only [refusedBy,PriorityQueue.call,he]
      exact ⟨trivial,hc⟩
    · simp only [refusedBy,PriorityQueue.call,he]
      exact ⟨trivial,hc⟩

def RefusedUndone (R : Type) [Inhabited R] (idOf : T → Option String)
    (hash : String → Fin Queues.idShards) (n : ℕ) : Prop :=
  RefusalsUndone R (Queue.call idOf hash) (Queue.history idOf hash)
      (Unchanged (Queue.call idOf hash) Queue.items (Queue.holds hash)) n ∧
    RefusalsUndone R (PriorityQueue.call idOf) (PriorityQueue.history idOf)
      (Unchanged (PriorityQueue.call idOf) PriorityQueue.items PriorityQueue.holds) n

-- The group counter is a uint32, and a negative int32 makes AddAll panic before its first member.
theorem refused_enqueue_undone (R : Type) [Inhabited R] [Inhabited T] (idOf : T → Option String)
    (hash : String → Fin Queues.idShards) (n : ℕ) :
    RefusedUndone R idOf hash n ↔ n < 2 ^ 32 ∨ 2 ^ 31 ≤ n % 2 ^ 32 := by
  rw [RefusedUndone,refusalsUndone_iff fifo_lawful,refusalsUndone_iff priority_lawful,and_self_iff]

theorem refused_member_not_counted :
    ¬RefusedUndone ℕ (some : String → Option String) (fun _ => 0) (2 ^ 32) := by
  rw [RefusedUndone,refusalsUndone_iff fifo_lawful]
  omega

end Storages

end Varmq.Submit
