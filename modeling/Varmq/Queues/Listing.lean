import Varmq.Queues.Priority
import Mathlib.Algebra.Group.Int.Defs
import Mathlib.Data.List.Sort

namespace Varmq.Queues

variable {T Q R : Type} {idOf : T → Option String} {hash : String → Fin idShards}

-- An int has 64 bits.
def int64 (z : ℤ) : ℤ := z.bmod (2 ^ 64)

structure IsInt (z : ℤ) : Prop where
  low : -2 ^ 63 ≤ z
  high : z < 2 ^ 63

theorem int64_of {z : ℤ} (h : IsInt z) : int64 z = z := by
  obtain ⟨hl,hh⟩ := h
  exact Int.bmod_eq_of_le (by omega) (by omega)

-- xs[lo:hi]; none is the panic of a slice out of range.
def slice (xs : List T) (lo hi : ℤ) : Option (List T) :=
  if 0 ≤ lo ∧ lo ≤ hi ∧ hi ≤ xs.length then some ((xs.take hi.toNat).drop lo.toNat) else none

inductive JobState where
  | pending
  | processing
  | completed
  | failed
  deriving DecidableEq, Repr

-- The storage of a memQueue: it pages by itself, or the page is a slice of its values.
structure Inspected (T : Type) where
  len : ℕ
  page : Option (ℤ → ℤ → Option (List T))
  values : List T

-- memQueue.Jobs.
def jobs (m : Inspected T) (pendingRecord : T → R) (state : JobState) (offset limit : ℤ) :
    Option (List R) :=
  if state ≠ .pending then some []
  else if offset < 0 ∨ limit < 1 ∨ (m.len : ℤ) ≤ offset then some []
  else
    match m.page with
    | some page => (page offset limit).map (List.map pendingRecord)
    | none =>
        if (m.values.length : ℤ) ≤ offset then some []
        else
          let stop := int64 (offset + min limit (int64 (m.values.length - offset)))
          (slice m.values offset stop).map (List.map pendingRecord)

-- The first n pages of size p one after another.
def pages (page : ℤ → ℤ → Option (List R)) (p : ℕ) : ℕ → Option (List R)
  | 0 => some []
  | n + 1 => do
      let before ← pages page p n
      let last ← page (n * p : ℕ) p
      some (before ++ last)

-- What up to n Dequeues return, until one returns nothing.
def handOut (dequeue : Q → Q × Option (Stored T)) : ℕ → Q → List T
  | 0, _ => []
  | n + 1, q =>
      match dequeue q with
      | (_,none) => []
      | (q',some x) => x.value :: handOut dequeue n q'

-- Offset and limit cut a window out of a list.
def window (xs : List T) (offset limit : ℤ) : List T :=
  if offset < 0 ∨ limit < 1 then [] else (xs.drop offset.toNat).take limit.toNat

theorem window_eq_nil {xs : List T} {offset limit : ℤ}
    (h : offset < 0 ∨ limit < 1 ∨ (xs.length : ℤ) ≤ offset) : window xs offset limit = [] := by
  unfold window
  split
  · rfl
  · rw [List.drop_eq_nil_of_le (by omega),List.take_nil]

theorem window_stop (xs : List T) (offset limit : ℤ) (hl : xs.length < 2 ^ 63)
    (ho : 0 ≤ offset) (hlim : 1 ≤ limit) (hlen : offset < xs.length) :
    let stop := int64 (offset + min limit (int64 (xs.length - offset)))
    offset ≤ stop ∧ stop ≤ xs.length ∧
      (xs.take stop.toNat).drop offset.toNat = window xs offset limit := by
  have hin : int64 ((xs.length : ℤ) - offset) = xs.length - offset := int64_of ⟨by omega,by omega⟩
  simp only [hin]
  have hout : int64 (offset + min limit (xs.length - offset)) =
      offset + min limit (xs.length - offset) := int64_of ⟨by omega,by omega⟩
  rw [hout]
  refine ⟨by omega,by omega,?_⟩
  rw [window,if_neg (by omega),List.drop_take]
  rcases Int.le_total limit (xs.length - offset) with h | h
  · rw [Int.min_eq_left h]
    congr 1
    omega
  · rw [Int.min_eq_right h,List.take_of_length_le,List.take_of_length_le]
    · rw [List.length_drop]
      omega
    · rw [List.length_drop]
      omega

-- Pages that are windows of one list put it together again.
theorem pages_window {page : ℤ → ℤ → Option (List R)} {xs : List R} {p n : ℕ} (hp : 1 ≤ p)
    (h : ∀ offset, page offset p = some (window xs offset p)) :
    pages page p n = some (xs.take (n * p)) := by
  induction n with
  | zero => simp [pages]
  | succ n ih =>
    simp only [pages,ih,h,Option.bind_eq_bind,Option.bind_some]
    rw [window,if_neg (by omega),Int.toNat_natCast,Int.toNat_natCast,Nat.succ_mul,List.take_add]

namespace Queue

def inspected (q : Queue T) : Inspected T := ⟨q.len,none,q.values⟩

theorem jobs_window (q : Queue T) (hl : q.len < 2 ^ 63) (record : T → R) (offset limit : ℤ) :
    jobs q.inspected record .pending offset limit =
      some (window (q.values.map record) offset limit) := by
  have hlen : q.values.length = q.len := List.length_map _
  simp only [jobs,inspected,ne_eq,not_true_eq_false,if_false,hlen]
  split
  · rename_i h
    rw [window_eq_nil (by simpa [hlen] using h)]
  · rename_i h
    rw [if_neg (by omega)]
    have hs := window_stop q.values offset limit (by omega)
      (by omega) (by omega) (by omega)
    simp only [hlen] at hs
    obtain ⟨hlo,hhi,hw⟩ := hs
    rw [slice,if_pos ⟨by omega,hlo,by omega⟩,hw]
    simp only [window,Option.map_some]
    split
    · rfl
    · rw [List.map_take,List.map_drop]

theorem dequeue_front (idOf : T → Option String) (hash : String → Fin idShards) {q : Queue T} {x : Stored T} {items : List (Stored T)}
    (hp : q.paused = false) (hi : q.items = x :: items) :
    ∃ q', q.dequeue idOf hash = (q',some x) ∧ q'.items = items ∧ q'.paused = false := by
  simp only [dequeue,hp,Bool.false_eq_true,if_false,hi]
  split
  · split
    · exact ⟨_,rfl,rfl,rfl⟩
    · exact ⟨_,rfl,rfl,rfl⟩
  · exact ⟨_,rfl,rfl,rfl⟩

theorem handOut_values {q : Queue T} (hp : q.paused = false) {n : ℕ} (hn : q.len ≤ n) :
    handOut (dequeue idOf hash) n q = q.values := by
  induction n generalizing q with
  | zero =>
    have hi : q.items = [] := List.length_eq_zero_iff.mp (Nat.le_zero.mp hn)
    simp [handOut,values,hi]
  | succ n ih =>
    cases hi : q.items with
    | nil => simp [handOut,dequeue,values,hi,hp]
    | cons x items =>
      obtain ⟨q',hd,hi',hp'⟩ := dequeue_front idOf hash hp hi
      have hlen : q'.len ≤ n := by
        rw [len,hi,List.length_cons] at hn
        rw [len,hi']
        omega
      rw [handOut,hd]
      simp only [ih hp' hlen,values,hi,hi',List.map_cons]

end Queue

namespace PriorityQueue

theorem compareItems_isLE {a b : EnqItem T} :
    (compareItems a b).isLE = true ↔ less b a = false := by
  rw [← Bool.not_eq_true,less_iff,compareItems]
  rcases lt_trichotomy a.priority b.priority with h | h | h
  · rw [compare_lt_iff_lt.mpr h]
    exact ⟨fun _ => by omega,fun _ => rfl⟩
  · rw [compare_eq_iff_eq.mpr h]
    rcases lt_trichotomy a.index b.index with hi | hi | hi
    · rw [compare_lt_iff_lt.mpr hi]
      exact ⟨fun _ => by omega,fun _ => rfl⟩
    · rw [compare_eq_iff_eq.mpr hi]
      exact ⟨fun _ => by omega,fun _ => rfl⟩
    · rw [compare_gt_iff_gt.mpr hi]
      exact ⟨(fun hle => by cases hle),fun hn => absurd (.inr ⟨h.symm,hi⟩) hn⟩
  · rw [compare_gt_iff_gt.mpr h]
    exact ⟨(fun hle => by cases hle),fun hn => absurd (.inl h) hn⟩

-- The sorted copy is what popping the heap gives.
theorem Ordered.sorted {q : PriorityQueue T} (h : q.Ordered) :
    q.items.mergeSort (fun a b => (compareItems a b).isLE) = drain less q.items.length q.items := by
  have hperm : (q.items.mergeSort fun a b => (compareItems a b).isLE).Perm q.items :=
    List.mergeSort_perm _ _
  refine eq_of_sorted less (hperm.trans (drain_perm rfl).symm) ?_ ?_
    (drain_sorted less_strict rfl h.heap)
  · intro a ha b hb hab hba
    rw [← Bool.not_eq_true,less_iff] at hab hba
    have hi : a.index = b.index := by omega
    exact List.inj_on_of_nodup_map h.single (hperm.mem_iff.mp ha) (hperm.mem_iff.mp hb) hi
  · have hsorted : (q.items.mergeSort fun a b => (compareItems a b).isLE).Pairwise
        fun a b => (compareItems a b).isLE = true :=
      List.pairwise_mergeSort (fun a b c hab hbc => ?_) (fun a b => ?_) q.items
    · exact hsorted.imp fun hab => compareItems_isLE.mp hab
    · rw [compareItems_isLE] at hab hbc ⊢
      exact less_strict.trans hab hbc
    · rw [Bool.or_eq_true,compareItems_isLE,compareItems_isLE]
      cases hl : less b a with
      | false => exact .inl rfl
      | true => exact .inr (less_strict.asymm hl)

-- Page pops up to stop items of a copy of the heap; none is the panic of a pop of an empty one.
def popPage (offset : ℤ) : ℕ → ℕ → List (EnqItem T) → Option (List T)
  | 0, _, _ => some []
  | n + 1, i, h =>
      match pop less h with
      | none => none
      | some (x,h) =>
          if offset ≤ i then (popPage offset n (i + 1) h).map (x.value.value :: ·)
          else popPage offset n (i + 1) h

def page (q : PriorityQueue T) (offset limit : ℤ) : Option (List T) :=
  let h := q.items
  if offset < 0 ∨ limit < 1 ∨ (h.length : ℤ) ≤ offset then some []
  else
    let stop := int64 (offset + min limit (int64 (h.length - offset)))
    popPage offset stop.toNat 0 h

def inspected (q : PriorityQueue T) : Inspected T := ⟨q.len,some q.page,q.sortedValues⟩

theorem length_sortedValues (q : PriorityQueue T) : q.sortedValues.length = q.len := by
  rw [sortedValues,List.length_map,List.length_mergeSort]
  rfl

theorem popPage_drain {offset : ℤ} {n i : ℕ} {h : List (EnqItem T)} (hn : n ≤ h.length) :
    popPage offset n i h = some (((drain less n h).map fun x => x.value.value).drop
      (offset.toNat - i)) := by
  induction n generalizing i h with
  | zero => simp [popPage,drain]
  | succ n ih =>
    obtain ⟨x,rest,hp⟩ := pop_nonempty less (l := h) (by rintro rfl; cases hn)
    have hlen : n ≤ rest.length := by
      have := (pop_perm hp).length_eq
      rw [List.length_cons] at this
      omega
    simp only [popPage,drain,hp,ih hlen,List.map_cons]
    split
    · rw [Nat.sub_eq_zero_of_le (by omega),Nat.sub_eq_zero_of_le (by omega)]
      rfl
    · obtain ⟨k,hk⟩ : ∃ k, offset.toNat - i = k + 1 := ⟨offset.toNat - i - 1,by omega⟩
      rw [hk,List.drop_succ_cons]
      congr 2
      omega

theorem Ordered.page {q : PriorityQueue T} (h : q.Ordered) (hl : q.len < 2 ^ 63)
    (offset limit : ℤ) : q.page offset limit = some (window q.sortedValues offset limit) := by
  have hlen : q.sortedValues.length = q.items.length := q.length_sortedValues
  have hl : q.sortedValues.length < 2 ^ 63 := by rw [hlen]; exact hl
  simp only [PriorityQueue.page]
  split
  · rename_i hout
    rw [window_eq_nil (by rw [hlen]; exact hout)]
  · rename_i hin
    have hs := window_stop q.sortedValues offset limit hl
      (by omega) (by omega) (by omega)
    simp only [hlen] at hs
    obtain ⟨hlo,hhi,hw⟩ := hs
    rw [popPage_drain (by omega),drain_take (by omega : _ ≤ q.items.length),← h.sorted,Nat.sub_zero,
      List.map_take]
    exact congrArg some hw

theorem Ordered.jobs_window {q : PriorityQueue T} (h : q.Ordered) (hl : q.len < 2 ^ 63)
    (record : T → R) (offset limit : ℤ) :
    jobs q.inspected record .pending offset limit =
      some (window (q.sortedValues.map record) offset limit) := by
  have hlen : (q.sortedValues.map record).length = q.len := by
    rw [List.length_map,q.length_sortedValues]
  simp only [jobs,inspected,ne_eq,not_true_eq_false,if_false,h.page hl,Option.map_some]
  split
  · rename_i hout
    rw [window_eq_nil (by rw [hlen]; exact hout)]
  · simp only [window]
    split
    · rfl
    · rw [List.map_take,List.map_drop]

theorem dequeue_pop (idOf : T → Option String) {q : PriorityQueue T} {x : EnqItem T} {rest : List (EnqItem T)}
    (hp : q.paused = false) (hx : pop less q.items = some (x,rest)) :
    ∃ q', q.dequeue idOf = (q',some x.value) ∧ q'.items = rest ∧ q'.paused = false := by
  simp only [dequeue,hp,Bool.false_eq_true,if_false,hx]
  split
  · exact ⟨_,rfl,rfl,rfl⟩
  · split
    · exact ⟨_,rfl,rfl,rfl⟩
    · exact ⟨_,rfl,rfl,rfl⟩

theorem handOut_drain {n : ℕ} {q : PriorityQueue T} (hp : q.paused = false) (hn : q.len ≤ n) :
    handOut (dequeue idOf) n q = (drain less q.items.length q.items).map fun x => x.value.value := by
  induction n generalizing q with
  | zero =>
    have hi : q.items = [] := List.length_eq_zero_iff.mp (Nat.le_zero.mp hn)
    simp [handOut,drain,hi]
  | succ n ih =>
    by_cases hi : q.items = []
    · simp [handOut,dequeue,drain,hi,hp,pop_nil]
    · obtain ⟨x,rest,hx⟩ := pop_nonempty less hi
      obtain ⟨q',hd,hi',hp'⟩ := dequeue_pop idOf hp hx
      have hlen : q.items.length = rest.length + 1 := (pop_perm hx).length_eq
      have hle : q'.len ≤ n := by
        rw [len,hlen] at hn
        rw [len,hi']
        omega
      rw [handOut,hd,hlen]
      simp only [ih hp' hle,drain,hx,hi',List.map_cons]

theorem Ordered.handOut {q : PriorityQueue T} (h : q.Ordered) (hp : q.paused = false) {n : ℕ}
    (hn : q.len ≤ n) : Queues.handOut (PriorityQueue.dequeue idOf) n q = q.sortedValues := by
  rw [handOut_drain hp hn,← h.sorted]
  rfl

end PriorityQueue

-- What a storage lists is what its Dequeues return, and the pages of its jobs cut it into pieces;
-- a length is an int.
structure Lists (values : List T) (dequeued : ℕ → List T) (m : Inspected T) : Prop where
  length : values.length = m.len
  order : ∀ n, m.len ≤ n → dequeued n = values
  pages : m.len < 2 ^ 63 → ∀ {R : Type} (pendingRecord : T → R) (p n : ℕ), 1 ≤ p →
    Queues.pages (jobs m pendingRecord .pending) p n =
      some ((values.map pendingRecord).take (n * p))

theorem listing_is_hand_out_order (idOf : T → Option String) (hash : String → Fin idShards)
    (ops : List (Op T)) :
    ((Queue.history idOf hash ops).paused = false →
      Lists (Queue.history idOf hash ops).values
        (fun n => handOut (Queue.dequeue idOf hash) n (Queue.history idOf hash ops))
        (Queue.history idOf hash ops).inspected) ∧
    ((PriorityQueue.history idOf ops).paused = false →
      Lists (PriorityQueue.history idOf ops).sortedValues
        (fun n => handOut (PriorityQueue.dequeue idOf) n (PriorityQueue.history idOf ops))
        (PriorityQueue.history idOf ops).inspected) ∧
    ((PriorityQueue.history idOf ops).len < 2 ^ 63 → ∀ offset limit,
      (PriorityQueue.history idOf ops).page offset limit =
        some (window (PriorityQueue.history idOf ops).sortedValues offset limit)) := by
  have ho := PriorityQueue.ordered_history idOf ops
  refine ⟨fun hp => ⟨List.length_map _,fun n hn => Queue.handOut_values hp hn,?_⟩,
    fun hp => ⟨PriorityQueue.length_sortedValues _,fun n hn => ho.handOut hp hn,?_⟩,
    fun hl => ho.page hl⟩
  · exact fun hl R record p n hp1 => pages_window hp1 fun offset =>
      Queue.jobs_window _ hl record offset p
  · exact fun hl R record p n hp1 => pages_window hp1 fun offset =>
      ho.jobs_window hl record offset p

theorem listing_is_hand_out_order_three :
    handOut (PriorityQueue.dequeue fun _ => none) 3
      (PriorityQueue.history (fun _ => none) PriorityQueue.threeItems) = [20,30,10] ∧
    pages (jobs (PriorityQueue.history (fun _ => none) PriorityQueue.threeItems).inspected
      (fun n => n + 1) .pending) 2 2 = some [21,31,11] ∧
    (PriorityQueue.history (fun _ => none) PriorityQueue.threeItems).page 1 (2 ^ 63 - 1) =
      some [30,10] := by
  obtain ⟨-,hlist,hpage⟩ := listing_is_hand_out_order (fun _ => none) (fun _ => 0)
    PriorityQueue.threeItems
  have hvals : handOut (PriorityQueue.dequeue fun _ => none) 3
      (PriorityQueue.history (fun _ => none) PriorityQueue.threeItems) = [20,30,10] := by decide
  have hl := hlist rfl
  have hsorted := (hl.order 3 (by decide)).symm.trans hvals
  refine ⟨hvals,?_,?_⟩
  · rw [hl.pages (by decide) _ 2 2 (by decide),hsorted]
    rfl
  · rw [hpage (by decide),hsorted]
    rfl

end Varmq.Queues
