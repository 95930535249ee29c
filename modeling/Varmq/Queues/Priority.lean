import Varmq.Queues.Capacity
import Varmq.Queues.HeapOrder

namespace Varmq.Queues

variable {T : Type} {idOf : T → Option String}

theorem less_iff {a b : EnqItem T} : less a b = true ↔
    a.priority < b.priority ∨ a.priority = b.priority ∧ a.index < b.index := by
  unfold less
  split
  · rename_i h
    simp [h]
  · rename_i h
    simp [h]

theorem less_strict : Strict (less : EnqItem T → EnqItem T → Bool) where
  asymm h := by
    rw [← Bool.not_eq_true,less_iff]
    rw [less_iff] at h
    omega
  trans hab hbc := by
    rw [← Bool.not_eq_true,less_iff] at hab hbc ⊢
    omega

-- What a call put into the queue, with its priority, and what it took out.
def put : Op T × Ret T → Option (T × ℤ)
  | (.enqueue (some v) p,.accepted true) | (.enqueueOnce (some v) p _,.accepted true) => some (v,p)
  | _ => none

def taken : Op T × Ret T → List T
  | (.dequeue,.item (some v)) => [v]
  | (.purgeValues,.items vs) => vs
  | _ => []

namespace PriorityQueue

inductive Change (q q' : PriorityQueue T) (c : Op T × Ret T) : Prop where
  | push {v : Stored T} {p : ℤ} (items : q'.items = push less q.items ⟨v,p,q.insertionCount⟩)
      (count : q'.insertionCount = q.insertionCount + 1) (put : put c = some (v.value,p))
      (taken : taken c = [])
  | same (items : q'.items = q.items) (count : q'.insertionCount = q.insertionCount)
      (put : put c = none) (taken : taken c = [])
  | pop {x : EnqItem T} (items : pop less q.items = some (x,q'.items))
      (count : q'.insertionCount = q.insertionCount) (put : put c = none)
      (taken : taken c = [x.value.value])
  | purge (items : q'.items = []) (count : q'.insertionCount = q.insertionCount)
      (put : put c = none) (taken : taken c = q.items.map fun x => x.value.value)

theorem addId_items (q : PriorityQueue T) (id : String) : (q.addId id).items = q.items := by
  unfold addId
  split <;> rfl

theorem addId_count (q : PriorityQueue T) (id : String) :
    (q.addId id).insertionCount = q.insertionCount := by
  unfold addId
  split <;> rfl

-- A refused enqueue leaves the queue as it is.
theorem enqueue_cases (q : PriorityQueue T) (item : Option T) (p : ℤ) (id : String) :
    q.enqueue item p id = (q,false) ∨ ∃ v, item = some v ∧
      q.enqueue item p id =
        ((q.addId id).pushItem ⟨v,if id = "" then none else some id⟩ p,true) := by
  cases item with
  | none => exact .inl rfl
  | some v =>
    simp only [enqueue]
    split
    · exact .inl rfl
    · split
      · exact .inl rfl
      · split
        · exact .inl rfl
        · exact .inr ⟨v,rfl,rfl⟩

theorem dequeue_cases (idOf : T → Option String) (q : PriorityQueue T) :
    ((q.dequeue idOf).2 = none ∧ (q.dequeue idOf).1.items = q.items ∧
      (q.paused = true ∨ q.items = [])) ∨
    ∃ x, q.paused = false ∧ pop less q.items = some (x,(q.dequeue idOf).1.items) ∧
      (q.dequeue idOf).2 = some x.value := by
  simp only [dequeue]
  split
  · rename_i hp
    exact .inl ⟨rfl,rfl,.inl hp⟩
  · rename_i hp
    have hp : q.paused = false := by simpa using hp
    split
    · rename_i hn
      refine .inl ⟨rfl,rfl,.inr ?_⟩
      by_contra hne
      obtain ⟨x,rest,hx⟩ := pop_nonempty less hne
      rw [hn] at hx
      cases hx
    · rename_i x rest hx
      refine .inr ⟨x,hp,?_⟩
      rw [hx]
      split
      · exact ⟨rfl,rfl⟩
      · split <;> exact ⟨rfl,rfl⟩

theorem dequeue_count (q : PriorityQueue T) :
    (q.dequeue idOf).1.insertionCount = q.insertionCount := by
  simp only [dequeue]
  split
  · rfl
  · split
    · rfl
    · split
      · rfl
      · split <;> rfl

theorem change_enqueue (q : PriorityQueue T) (item : Option T) (p : ℤ) (id : String) {op : Op T}
    (hop : op = .enqueue item p ∨ op = .enqueueOnce item p id) :
    Change q (q.enqueue item p id).1 (op,.accepted (q.enqueue item p id).2) := by
  rcases enqueue_cases q item p id with he | ⟨v,rfl,he⟩
  · rw [he]
    rcases hop with rfl | rfl
    · exact .same rfl rfl (by cases item <;> rfl) rfl
    · exact .same rfl rfl (by cases item <;> rfl) rfl
  · rw [he]
    have hitems : ((q.addId id).pushItem ⟨v,if id = "" then none else some id⟩ p).items =
        push less q.items ⟨⟨v,if id = "" then none else some id⟩,p,q.insertionCount⟩ := by
      rw [pushItem,addId_items,addId_count]
    have hcount : ((q.addId id).pushItem ⟨v,if id = "" then none else some id⟩ p).insertionCount =
        q.insertionCount + 1 := by rw [pushItem,addId_count]
    rcases hop with rfl | rfl
    · exact .push hitems hcount rfl rfl
    · exact .push hitems hcount rfl rfl

theorem call_change (q : PriorityQueue T) (op : Op T) :
    Change q (q.call idOf op).1 (op,(q.call idOf op).2) := by
  cases op with
  | enqueue item p => exact change_enqueue q item p "" (.inl rfl)
  | enqueueOnce item p id => exact change_enqueue q item p id (.inr rfl)
  | dequeue =>
    simp only [call]
    rcases dequeue_cases idOf q with ⟨hr,hi,-⟩ | ⟨x,-,hx,hr⟩
    · rw [hr]
      exact .same hi (dequeue_count q) rfl rfl
    · rw [hr]
      exact .pop hx (dequeue_count q) rfl rfl
  | purgeValues =>
    refine .purge rfl rfl rfl ?_
    simp only [call,purgeValues,values,taken,List.map_map]
    rfl
  | _ => exact .same rfl rfl rfl rfl

-- The heap is in order and every item has its own index, below the next one.
structure Ordered (q : PriorityQueue T) : Prop where
  heap : HeapOn less q.items q.items.length
  single : (q.items.map EnqItem.index).Nodup
  below : ∀ x ∈ q.items, x.index < q.insertionCount

theorem ordered_new (capacity : ℕ) : (new capacity : PriorityQueue T).Ordered :=
  ⟨fun _ _ hk => absurd hk (Nat.not_lt_zero _),List.nodup_nil,fun x hx => by cases hx⟩

theorem Ordered.change {q q' : PriorityQueue T} {c : Op T × Ret T} (h : q.Ordered)
    (hc : Change q q' c) : q'.Ordered := by
  cases hc with
  | @push v p items count =>
    have hperm : q'.items.Perm (⟨v,p,q.insertionCount⟩ :: q.items) := by
      rw [items]
      exact push_perm less _ _
    refine ⟨?_,?_,fun x hx => ?_⟩
    · rw [items]
      exact push_heap less_strict h.heap _
    · rw [(hperm.map _).nodup_iff]
      refine List.nodup_cons.mpr ⟨fun hm => ?_,h.single⟩
      obtain ⟨y,hy,he⟩ := List.mem_map.mp hm
      have hlt := h.below y hy
      have he : y.index = q.insertionCount := he
      omega
    · rw [count]
      rcases List.mem_cons.mp (hperm.mem_iff.mp hx) with rfl | hy
      · exact Nat.lt_succ_self _
      · exact Nat.lt_succ_of_lt (h.below x hy)
  | same items count =>
    exact ⟨by rw [items]; exact h.heap,by rw [items]; exact h.single,fun x hx => by
      rw [count]
      exact h.below x (items ▸ hx)⟩
  | pop items count =>
    have hperm := pop_perm items
    refine ⟨pop_heap less_strict h.heap items,?_,fun y hy => ?_⟩
    · have hs := (hperm.map EnqItem.index).nodup_iff.mp h.single
      exact (List.nodup_cons.mp hs).2
    · rw [count]
      exact h.below y (hperm.mem_iff.mpr (List.mem_cons_of_mem _ hy))
  | purge items count =>
    refine ⟨?_,?_,fun x hx => ?_⟩
    · rw [items]
      exact (ordered_new 0).heap
    · rw [items]
      exact List.nodup_nil
    · rw [items] at hx
      cases hx

theorem ordered_history (idOf : T → Option String) (ops : List (Op T)) : (history idOf ops).Ordered :=
  after_invariant (ordered_new 0) (fun q op h => h.change (call_change q op)) ops

-- Among items with different indexes only one is the least.
theorem Ordered.least {q : PriorityQueue T} (h : q.Ordered) {x : EnqItem T}
    {rest : List (EnqItem T)} (hp : pop less q.items = some (x,rest)) {y : EnqItem T}
    (hy : y ∈ rest) : less x y = true := by
  have hperm := pop_perm hp
  have hle := pop_least less_strict h.heap hp (hperm.mem_iff.mpr (List.mem_cons_of_mem x hy))
  have hne : x.index ≠ y.index := by
    have hs := (hperm.map EnqItem.index).nodup_iff.mp h.single
    exact fun he => (List.nodup_cons.mp hs).1 (List.mem_map.mpr ⟨y,hy,he.symm⟩)
  rw [← Bool.not_eq_true,less_iff] at hle
  rw [less_iff]
  omega

-- The calls of a history on a new queue, with what they returned.
def trace (idOf : T → Option String) (ops : List (Op T)) : List (Op T × Ret T) :=
  (play (call idOf) (new 0) ops).2

theorem trace_concat (ops : List (Op T)) (op : Op T) :
    trace idOf (ops ++ [op]) = trace idOf ops ++ [(op,((history idOf ops).call idOf op).2)] :=
  play_append _ ops [op]

-- The index of an item is its place among all items put in, and no item is lost or doubled.
structure Booked (q : PriorityQueue T) (cs : List (Op T × Ret T)) : Prop where
  count : q.insertionCount = (cs.filterMap put).length
  placed : ∀ x ∈ q.items, (cs.filterMap put)[x.index]? = some (x.value.value,x.priority)
  conserved : ((cs.filterMap put).map Prod.fst).Perm
    (cs.flatMap taken ++ q.items.map fun x => x.value.value)

theorem Booked.change {q q' : PriorityQueue T} {cs : List (Op T × Ret T)} {c : Op T × Ret T}
    (h : q.Booked cs) (ho : q.Ordered) (hc : Change q q' c) : q'.Booked (cs ++ [c]) := by
  have hold : ∀ {ys : List (T × ℤ)}, ∀ x ∈ q.items,
      (cs.filterMap put ++ ys)[x.index]? = some (x.value.value,x.priority) := by
    intro ys x hx
    rw [List.getElem?_append_left (h.count ▸ ho.below x hx)]
    exact h.placed x hx
  have htaken : (cs ++ [c]).flatMap taken = cs.flatMap taken ++ taken c := by simp
  have hput : (cs ++ [c]).filterMap put = cs.filterMap put ++ (put c).toList := by
    rw [List.filterMap_append]
    cases hp : put c with
    | none => simp [hp]
    | some a => simp [hp]
  cases hc with
  | @push v p items count hp ht =>
    have hperm : q'.items.Perm (⟨v,p,q.insertionCount⟩ :: q.items) := by
      rw [items]
      exact push_perm less _ _
    rw [hp] at hput
    rw [ht,List.append_nil] at htaken
    refine ⟨?_,fun x hx => ?_,?_⟩
    · rw [count,hput,List.length_append,h.count]
      rfl
    · rw [hput]
      rcases List.mem_cons.mp (hperm.mem_iff.mp hx) with rfl | hy
      · simp [h.count]
      · exact hold x hy
    · rw [hput,htaken,List.map_append]
      refine (h.conserved.append_right [v.value]).trans ?_
      rw [List.append_assoc]
      have hvals : (q'.items.map fun x => x.value.value).Perm
          (v.value :: q.items.map fun x => x.value.value) := hperm.map _
      exact List.Perm.append_left _ ((List.perm_append_singleton v.value _).trans hvals.symm)
  | same items count hp ht =>
    rw [hp] at hput
    rw [ht,List.append_nil] at htaken
    refine ⟨?_,fun x hx => ?_,?_⟩
    · rw [count,hput,h.count]
      simp
    · rw [hput]
      exact hold x (items ▸ hx)
    · rw [hput,htaken,items]
      simpa using h.conserved
  | @pop x items count hp ht =>
    have hperm := pop_perm items
    rw [hp] at hput
    refine ⟨?_,fun y hy => ?_,?_⟩
    · rw [count,hput,h.count]
      simp
    · rw [hput]
      exact hold y (hperm.mem_iff.mpr (List.mem_cons_of_mem x hy))
    · rw [hput,htaken,ht,List.append_assoc]
      simp only [Option.toList_none,List.append_nil]
      exact h.conserved.trans (List.Perm.append_left _ (hperm.map fun x => x.value.value))
  | purge items count hp ht =>
    rw [hp] at hput
    refine ⟨?_,fun x hx => ?_,?_⟩
    · rw [count,hput,h.count]
      simp
    · rw [items] at hx
      cases hx
    · rw [hput,htaken,ht,items]
      simpa using h.conserved

theorem booked_history (ops : List (Op T)) :
    (history idOf ops).Booked (trace idOf ops) := by
  induction ops using List.reverseRecOn with
  | nil => exact ⟨rfl,(fun x hx => by cases hx),.refl _⟩
  | append_singleton ops op ih =>
    rw [history_concat,trace_concat]
    exact ih.change (ordered_history idOf ops) (call_change _ op)

-- A Dequeue takes out the item that comes before all others by priority and insertion.
theorem Ordered.dequeue {q : PriorityQueue T} (h : q.Ordered) (hp : q.paused = false)
    (hne : q.items ≠ []) : ∃ x, (q.dequeue idOf).2 = some x.value ∧
      q.items.Perm (x :: (q.dequeue idOf).1.items) ∧
      ∀ y ∈ (q.dequeue idOf).1.items,
        x.priority < y.priority ∨ x.priority = y.priority ∧ x.index < y.index := by
  rcases dequeue_cases idOf q with ⟨-,-,hq | hq⟩ | ⟨x,-,hx,hr⟩
  · rw [hp] at hq
    cases hq
  · exact absurd hq hne
  · exact ⟨x,hr,pop_perm hx,fun y hy => less_iff.mp (h.least hx hy)⟩

theorem stable_priority_order (idOf : T → Option String) (ops : List (Op T)) :
    HeapOn less (history idOf ops).items (history idOf ops).items.length ∧
    ((history idOf ops).paused = false → (history idOf ops).items ≠ [] →
      ∃ x, ((history idOf ops).dequeue idOf).2 = some x.value ∧
        (history idOf ops).items.Perm (x :: ((history idOf ops).dequeue idOf).1.items) ∧
        ∀ y ∈ ((history idOf ops).dequeue idOf).1.items,
          x.priority < y.priority ∨ x.priority = y.priority ∧ x.index < y.index) ∧
    ((history idOf ops).purgeValues.2 = (history idOf ops).items.map EnqItem.value ∧
      (history idOf ops).purgeValues.1.items = []) ∧
    (∀ x ∈ (history idOf ops).items,
      ((trace idOf ops).filterMap put)[x.index]? = some (x.value.value,x.priority)) ∧
    (((trace idOf ops).filterMap put).map Prod.fst).Perm
      ((trace idOf ops).flatMap taken ++ (history idOf ops).items.map fun x => x.value.value) :=
  ⟨(ordered_history idOf ops).heap,(ordered_history idOf ops).dequeue,⟨rfl,rfl⟩,
    (booked_history ops).placed,(booked_history ops).conserved⟩

-- The second of three items comes first, and before the third by its insertion.
def threeItems : List (Op ℕ) := [.enqueue (some 10) 2,.enqueue (some 20) 1,.enqueue (some 30) 1]

theorem stable_priority_order_three :
    (history (fun _ => none) threeItems).paused = false ∧
    (history (fun _ => none) threeItems).items ≠ [] ∧
    ∃ x : EnqItem ℕ, x.value = ⟨20,none⟩ ∧
      ∀ y ∈ ((history (fun _ => none) threeItems).dequeue fun _ => none).1.items,
        x.priority < y.priority ∨ x.priority = y.priority ∧ x.index < y.index := by
  have hp : (history (fun _ => none) threeItems).paused = false := rfl
  have hne : (history (fun _ => none) threeItems).items ≠ [] := by decide
  obtain ⟨x,hx,-,hall⟩ := (stable_priority_order (fun _ => none) threeItems).2.1 hp hne
  have hfront : ((history (fun _ => none) threeItems).dequeue fun _ => none).2 =
      some (⟨20,none⟩ : Stored ℕ) := by decide
  rw [hfront] at hx
  exact ⟨hp,hne,x,(Option.some.inj hx).symm,hall⟩

end PriorityQueue

end Varmq.Queues
