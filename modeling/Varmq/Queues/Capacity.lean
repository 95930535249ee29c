import Varmq.Queues.Calls
import Varmq.Queues.Dedup
import Mathlib.Data.List.Induction

namespace Varmq.Queues

variable {T : Type} {idOf : T → Option String} {hash : String → Fin idShards}

structure Handle where
  capacity : ℤ
  deriving DecidableEq, Repr

def Handle.isFull (eq : Handle) (len : ℕ) : Bool := 0 < eq.capacity && eq.capacity ≤ len

def configure (cap : ℤ) : Op T → ℤ
  | .setCapacity cap => cap
  | _ => cap

-- The capacity the last handle on the storage has set.
def configured (ops : List (Op T)) : ℤ := ops.foldl configure 0

@[simp] theorem configured_concat (ops : List (Op T)) (op : Op T) :
    configured (ops ++ [op]) = configure (configured ops) op := by
  simp [configured]

-- An enqueue succeeds if there is room, and is refused if the handle reports that it is full.
structure Agrees (ok : Bool) (cap : ℤ) (len : ℕ) : Prop where
  room : ok = true ↔ cap ≤ 0 ∨ (len : ℤ) < cap
  full : ok = false ↔ Handle.isFull ⟨cap⟩ len = true

theorem isFull_iff {cap : ℤ} {len : ℕ} :
    Handle.isFull ⟨cap⟩ len = true ↔ ¬(cap ≤ 0 ∨ (len : ℤ) < cap) := by
  simp [Handle.isFull]

theorem agrees_iff {ok : Bool} {cap : ℤ} {len : ℕ} :
    Agrees ok cap len ↔ (ok = true ↔ cap ≤ 0 ∨ (len : ℤ) < cap) := by
  refine ⟨Agrees.room,fun h => ⟨h,?_⟩⟩
  rw [isFull_iff,← h,Bool.not_eq_true]

namespace Queue

structure Kept (q q' : Queue T) : Prop where
  limit : q'.limit = q.limit
  closed : q'.closed = q.closed

theorem kept_enqueue (q : Queue T) (item : Option T) : Kept q (q.enqueue item).1 := by
  cases item with
  | none => exact ⟨rfl,rfl⟩
  | some v =>
    simp only [enqueue,append]
    split <;> rename_i he <;> split at he <;> cases he <;> exact ⟨rfl,rfl⟩

theorem kept_enqueueOnce (q : Queue T) (item : Option T) (id : String) :
    Kept q (q.enqueueOnce hash item id).1 := by
  cases item with
  | none => exact ⟨rfl,rfl⟩
  | some v =>
    simp only [enqueueOnce_some,append]
    split
    · exact ⟨rfl,rfl⟩
    · split <;> rename_i he <;> split at he <;> cases he <;> exact ⟨rfl,rfl⟩

theorem kept_dequeue (q : Queue T) : Kept q (q.dequeue idOf hash).1 := by
  simp only [dequeue]
  split
  · exact ⟨rfl,rfl⟩
  · split
    · exact ⟨rfl,rfl⟩
    · split
      · split <;> exact ⟨rfl,rfl⟩
      · exact ⟨rfl,rfl⟩

theorem call_limit (q : Queue T) (op : Op T) {cap : ℤ} (h : q.limit = (max 0 cap).toNat) :
    (q.call idOf hash op).1.limit = (max 0 (configure cap op)).toNat := by
  cases op with
  | setCapacity n => rfl
  | enqueue item p => exact (kept_enqueue q item).limit.trans h
  | enqueueOnce item p id => exact (kept_enqueueOnce q item id).limit.trans h
  | dequeue => exact (kept_dequeue q).limit.trans h
  | _ => exact h

theorem call_open (q : Queue T) {op : Op T} (hop : op ≠ .close) (h : q.closed = false) :
    (q.call idOf hash op).1.closed = false := by
  cases op with
  | close => exact absurd rfl hop
  | enqueue item p => exact (kept_enqueue q item).closed.trans h
  | enqueueOnce item p id => exact (kept_enqueueOnce q item id).closed.trans h
  | dequeue => exact (kept_dequeue q).closed.trans h
  | _ => exact h

def history (idOf : T → Option String) (hash : String → Fin idShards) (ops : List (Op T)) :
    Queue T := after (call idOf hash) (new 0) ops

theorem history_concat (ops : List (Op T)) (op : Op T) :
    history idOf hash (ops ++ [op]) = ((history idOf hash ops).call idOf hash op).1 :=
  after_append _ ops [op]

theorem history_limit (ops : List (Op T)) :
    (history idOf hash ops).limit = (max 0 (configured ops)).toNat := by
  induction ops using List.reverseRecOn with
  | nil => rfl
  | append_singleton ops op ih =>
    rw [history_concat,configured_concat]
    exact call_limit _ op ih

theorem history_open {ops : List (Op T)} (h : Op.close ∉ ops) :
    (history idOf hash ops).closed = false := by
  induction ops using List.reverseRecOn with
  | nil => rfl
  | append_singleton ops op ih =>
    rw [history_concat]
    simp only [List.mem_append,List.mem_singleton,not_or] at h
    exact call_open _ (Ne.symm h.2) (ih h.1)

theorem not_full_iff {q : Queue T} {cap : ℤ} (h : q.limit = (max 0 cap).toNat) :
    q.full = false ↔ cap ≤ 0 ∨ (q.len : ℤ) < cap := by
  rw [Bool.eq_false_iff,ne_eq,full_iff,h,len]
  omega

theorem enqueue_accepted {q : Queue T} (hc : q.closed = false) (v : T) :
    (q.enqueue (some v)).2 = true ↔ q.full = false := by
  cases hf : q.full with
  | true => simp [enqueue,append_full hf]
  | false => simp [enqueue,append_some hc hf]

theorem enqueueOnce_accepted {q : Queue T} (hc : q.closed = false) (v : T) {id : String}
    (hid : ¬q.holds hash id) : (q.enqueueOnce hash (some v) id).2 = true ↔ q.full = false := by
  have hid : ¬q.idSet.has hash id := hid
  rw [enqueueOnce_some,if_neg hid]
  cases hf : q.full with
  | true => simp [append_full (q := q.ided _) hf]
  | false => simp [append_some (q := q.ided _) hc hf]

theorem agrees {q : Queue T} {cap : ℤ} (hc : q.closed = false)
    (hl : q.limit = (max 0 cap).toNat) (v : T) :
    Agrees (q.enqueue (some v)).2 cap q.len ∧
      ∀ id, ¬q.holds hash id → Agrees (q.enqueueOnce hash (some v) id).2 cap q.len :=
  ⟨agrees_iff.mpr ((enqueue_accepted hc v).trans (not_full_iff hl)),
    fun _ hid => agrees_iff.mpr ((enqueueOnce_accepted hc v hid).trans (not_full_iff hl))⟩

end Queue

namespace PriorityQueue

structure Kept (q q' : PriorityQueue T) : Prop where
  capacity : q'.capacity = q.capacity
  closed : q'.closed = q.closed

theorem kept_enqueue (q : PriorityQueue T) (item : Option T) (p : ℤ) (id : String) :
    Kept q (q.enqueue item p id).1 := by
  cases item with
  | none => exact ⟨rfl,rfl⟩
  | some v =>
    simp only [enqueue,pushItem,addId]
    split
    · exact ⟨rfl,rfl⟩
    · split
      · exact ⟨rfl,rfl⟩
      · split
        · exact ⟨rfl,rfl⟩
        · split <;> exact ⟨rfl,rfl⟩

theorem kept_dequeue (q : PriorityQueue T) : Kept q (q.dequeue idOf).1 := by
  simp only [dequeue]
  split
  · exact ⟨rfl,rfl⟩
  · split
    · exact ⟨rfl,rfl⟩
    · split
      · exact ⟨rfl,rfl⟩
      · split <;> exact ⟨rfl,rfl⟩

theorem call_capacity (q : PriorityQueue T) (op : Op T) {cap : ℤ}
    (h : q.capacity = (max 0 cap).toNat) :
    (q.call idOf op).1.capacity = (max 0 (configure cap op)).toNat := by
  cases op with
  | setCapacity n => rfl
  | enqueue item p => exact (kept_enqueue q item p "").capacity.trans h
  | enqueueOnce item p id => exact (kept_enqueue q item p id).capacity.trans h
  | dequeue => exact (kept_dequeue q).capacity.trans h
  | _ => exact h

theorem call_open (q : PriorityQueue T) {op : Op T} (hop : op ≠ .close) (h : q.closed = false) :
    (q.call idOf op).1.closed = false := by
  cases op with
  | close => exact absurd rfl hop
  | enqueue item p => exact (kept_enqueue q item p "").closed.trans h
  | enqueueOnce item p id => exact (kept_enqueue q item p id).closed.trans h
  | dequeue => exact (kept_dequeue q).closed.trans h
  | _ => exact h

def history (idOf : T → Option String) (ops : List (Op T)) : PriorityQueue T :=
  after (call idOf) (new 0) ops

theorem history_concat (ops : List (Op T)) (op : Op T) :
    history idOf (ops ++ [op]) = ((history idOf ops).call idOf op).1 :=
  after_append _ ops [op]

theorem history_capacity (ops : List (Op T)) :
    (history idOf ops).capacity = (max 0 (configured ops)).toNat := by
  induction ops using List.reverseRecOn with
  | nil => rfl
  | append_singleton ops op ih =>
    rw [history_concat,configured_concat]
    exact call_capacity _ op ih

theorem history_open {ops : List (Op T)} (h : Op.close ∉ ops) :
    (history idOf ops).closed = false := by
  induction ops using List.reverseRecOn with
  | nil => rfl
  | append_singleton ops op ih =>
    rw [history_concat]
    simp only [List.mem_append,List.mem_singleton,not_or] at h
    exact call_open _ (Ne.symm h.2) (ih h.1)

-- Only the exact capacity counts as full.
theorem not_full_iff {q : PriorityQueue T} {cap : ℤ} (h : q.capacity = (max 0 cap).toNat) :
    q.full = false ↔ cap ≤ 0 ∨ (q.len : ℤ) ≠ cap := by
  rw [Bool.eq_false_iff,ne_eq,full_iff,h,len]
  omega

theorem enqueue_accepted {q : PriorityQueue T} (hc : q.closed = false) (v : T) (p : ℤ)
    {id : String} (hid : ¬q.holds id) :
    (q.enqueue (some v) p id).2 = true ↔ q.full = false := by
  have hid : ¬(id ≠ "" ∧ id ∈ q.ids.m) := hid
  cases hf : q.full with
  | true => simp [enqueue,hc,hf]
  | false => simp only [enqueue,hc,hf,if_neg hid,Bool.false_eq_true,if_false]

-- Above a capacity that was set too low, everything fits.
theorem agrees_iff {q : PriorityQueue T} {cap : ℤ} (hc : q.closed = false)
    (hl : q.capacity = (max 0 cap).toNat) (v : T) (p : ℤ) {id : String} (hid : ¬q.holds id) :
    Agrees (q.enqueue (some v) p id).2 cap q.len ↔ cap ≤ 0 ∨ (q.len : ℤ) ≤ cap := by
  rw [Queues.agrees_iff,enqueue_accepted hc v p hid,not_full_iff hl]
  omega

theorem len_enqueue (q : PriorityQueue T) (item : Option T) (p : ℤ) (id : String) :
    (q.enqueue item p id).1.len = q.len ∨
      q.full = false ∧ (q.enqueue item p id).1.len = q.len + 1 := by
  have hpush : ∀ x : EnqItem T, (push less q.items x).length = q.items.length + 1 := fun x =>
    (push_perm less q.items x).length_eq
  cases item with
  | none => exact .inl rfl
  | some v =>
    simp only [enqueue,pushItem,addId,len]
    split
    · exact .inl rfl
    · split
      · exact .inl rfl
      · rename_i hf
        have hf : q.full = false := by simpa using hf
        split
        · exact .inl rfl
        · split <;> exact .inr ⟨hf,hpush _⟩

theorem len_dequeue (idOf : T → Option String) (q : PriorityQueue T) : (q.dequeue idOf).1.len ≤ q.len := by
  simp only [dequeue,len]
  split
  · exact Nat.le_refl _
  · split
    · exact Nat.le_refl _
    · rename_i items hp
      have hlen := (pop_perm hp).length_eq
      rw [List.length_cons] at hlen
      have hle : items.length ≤ q.items.length := Nat.le_of_succ_le (Nat.le_of_eq hlen.symm)
      split
      · exact hle
      · split <;> exact hle

-- No handle sets a capacity below the number of items stored by then.
def NotBelow (idOf : T → Option String) (ops : List (Op T)) : Prop :=
  ∀ k cap, ops[k]? = some (.setCapacity cap) →
    cap ≤ 0 ∨ ((history idOf (ops.take k)).len : ℤ) ≤ cap

theorem within_call {q : PriorityQueue T} {cap : ℤ} {op : Op T}
    (hl : q.capacity = (max 0 cap).toNat) (h : cap ≤ 0 ∨ (q.len : ℤ) ≤ cap)
    (hset : ∀ n, op = .setCapacity n → n ≤ 0 ∨ (q.len : ℤ) ≤ n) :
    configure cap op ≤ 0 ∨ (((q.call idOf op).1.len : ℕ) : ℤ) ≤ configure cap op := by
  have hput : ∀ item p id, cap ≤ 0 ∨ (((q.enqueue item p id).1.len : ℕ) : ℤ) ≤ cap := by
    intro item p id
    rcases len_enqueue q item p id with he | ⟨hf,he⟩
    · rwa [he]
    · rw [he]
      have := (not_full_iff hl).mp hf
      omega
  cases op with
  | setCapacity n => exact hset n rfl
  | enqueue item p => exact hput item p ""
  | enqueueOnce item p id => exact hput item p id
  | dequeue =>
    have hlen := len_dequeue idOf q
    exact h.imp_right fun h => by
      show (((q.dequeue idOf).1.len : ℕ) : ℤ) ≤ cap
      omega
  | purgeValues =>
    show cap ≤ 0 ∨ ((0 : ℕ) : ℤ) ≤ cap
    omega
  | _ => exact h

theorem within {ops : List (Op T)} (h : NotBelow idOf ops) :
    configured ops ≤ 0 ∨ ((history idOf ops).len : ℤ) ≤ configured ops := by
  induction ops using List.reverseRecOn with
  | nil => exact .inl (Int.le_refl 0)
  | append_singleton ops op ih =>
    have hbefore : NotBelow idOf ops := by
      intro k cap hk
      have hlt := (List.getElem?_eq_some_iff.mp hk).1
      have h := h k cap (by rw [List.getElem?_append_left hlt,hk])
      rwa [List.take_append_of_le_length (Nat.le_of_lt hlt)] at h
    rw [history_concat,configured_concat]
    refine within_call (history_capacity ops) (ih hbefore) fun n hn => ?_
    have h := h ops.length n (by simp [hn])
    rwa [List.take_append_of_le_length (Nat.le_refl _),List.take_length] at h

end PriorityQueue

-- With the empty id the priority queue's enqueue is Enqueue, and no queue holds it.
theorem capacity_means_the_same (idOf : T → Option String) (hash : String → Fin idShards)
    (ops : List (Op T)) (hopen : Op.close ∉ ops) (v : T) (p : ℤ) :
    (Agrees ((Queue.history idOf hash ops).enqueue (some v)).2 (configured ops)
        (Queue.history idOf hash ops).len ∧
      ∀ id, ¬(Queue.history idOf hash ops).holds hash id →
        Agrees ((Queue.history idOf hash ops).enqueueOnce hash (some v) id).2 (configured ops)
          (Queue.history idOf hash ops).len) ∧
    (∀ id, ¬(PriorityQueue.history idOf ops).holds id →
      (Agrees ((PriorityQueue.history idOf ops).enqueue (some v) p id).2 (configured ops)
          (PriorityQueue.history idOf ops).len ↔
        configured ops ≤ 0 ∨ ((PriorityQueue.history idOf ops).len : ℤ) ≤ configured ops)) ∧
    (PriorityQueue.NotBelow idOf ops → ∀ id, ¬(PriorityQueue.history idOf ops).holds id →
      Agrees ((PriorityQueue.history idOf ops).enqueue (some v) p id).2 (configured ops)
        (PriorityQueue.history idOf ops).len) := by
  have hiff := fun id (hid : ¬(PriorityQueue.history idOf ops).holds id) =>
    PriorityQueue.agrees_iff (PriorityQueue.history_open hopen)
      (PriorityQueue.history_capacity ops) v p hid
  exact ⟨Queue.agrees (Queue.history_open hopen) (Queue.history_limit ops) v,hiff,
    fun hn id hid => (hiff id hid).mpr (PriorityQueue.within hn)⟩

theorem capacity_means_the_same_bounded :
    Op.close ∉ [Op.setCapacity 2,.enqueue (some 1) 0] ∧
    Agrees ((Queue.history (fun _ : ℕ => none) (fun _ => 0)
      [.setCapacity 2,.enqueue (some 1) 0]).enqueue (some 2)).2 2 1 ∧
    Agrees ((PriorityQueue.history (fun _ : ℕ => none)
      [.setCapacity 2,.enqueue (some 1) 0]).enqueue (some 2) 5 "").2 2 1 := by
  have hopen : Op.close ∉ [Op.setCapacity 2,.enqueue (some 1) 0] := by decide
  obtain ⟨⟨hq,-⟩,hp,-⟩ := capacity_means_the_same (fun _ : ℕ => none) (fun _ => 0)
    [.setCapacity 2,.enqueue (some 1) 0] hopen 2 5
  exact ⟨hopen,hq,(hp "" (by decide)).mpr (.inr (by decide))⟩

-- A second handle lowers the capacity of a priority queue to 1 while it holds two items.
def lowered : List (Op ℕ) := [.enqueue (some 1) 0,.enqueue (some 2) 0,.setCapacity 1]

theorem stores_above_capacity : configured lowered = 1 ∧
    (PriorityQueue.history (fun _ => none) lowered).len = 2 ∧
    Handle.isFull ⟨1⟩ 2 = true ∧
    ((PriorityQueue.history (fun _ => none) lowered).enqueue (some 3) 0 "").2 = true ∧
    ¬Agrees ((PriorityQueue.history (fun _ => none) lowered).enqueue (some 3) 0 "").2
      (configured lowered) (PriorityQueue.history (fun _ => none) lowered).len := by
  have hok : ((PriorityQueue.history (fun _ => none) lowered).enqueue (some 3) 0 "").2 = true := by
    decide
  refine ⟨rfl,by decide,by decide,hok,fun h => ?_⟩
  have hroom := h.room.mp hok
  revert hroom
  decide

end Varmq.Queues
