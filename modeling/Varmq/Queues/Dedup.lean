import Varmq.Queues.Waiting

namespace Varmq.Queues

variable {T : Type} {idOf : T → Option String} {hash : String → Fin idShards}

namespace IdSet

variable {s : IdSet} {m : IdMap} {id x : String}

def has (hash : String → Fin idShards) (s : IdSet) (id : String) : Prop := id ∈ (s (hash id)).m

instance : Decidable (s.has hash id) := inferInstanceAs (Decidable (id ∈ _))

theorem has_new : ¬newIdSet.has hash id := IdMap.mem_empty

-- Only the shard of the id changes, and there only the id.
theorem has_set {p : Prop} (h : ∀ y, y ∈ m.m ↔ (y = id ∧ p) ∨ (y ≠ id ∧ y ∈ (s (hash id)).m)) :
    (s.set (hash id) m).has hash x ↔ (x = id ∧ p) ∨ (x ≠ id ∧ s.has hash x) := by
  unfold has set
  by_cases hx : hash x = hash id
  · rw [if_pos hx,hx]
    exact h x
  · rw [if_neg hx]
    have hne : x ≠ id := fun he => hx (by rw [he])
    simp [hne]

theorem has_add : (s.set (hash id) ((s (hash id)).add id).1).has hash x ↔ x = id ∨ s.has hash x := by
  rw [has_set (p := True) fun y => by rw [IdMap.mem_add]; by_cases hy : y = id <;> simp [hy]]
  by_cases hx : x = id <;> simp [hx]

theorem has_remove :
    (s.set (hash id) ((s (hash id)).remove id)).has hash x ↔ s.has hash x ∧ id ≠ x := by
  rw [has_set (p := False) fun y => by rw [IdMap.mem_remove]; by_cases hy : y = id <;> simp [hy]]
  by_cases hx : x = id
  · simp [hx]
  · simp [hx,Ne.symm hx]

theorem has_undo (hn : ¬s.has hash id) :
    (s.set (hash id) (((s (hash id)).add id).1.remove id)).has hash x ↔ s.has hash x := by
  rw [has_set (p := False) fun y => by
    rw [IdMap.mem_remove,IdMap.mem_add]; by_cases hy : y = id <;> simp [hy]]
  by_cases hx : x = id
  · simp [hx,hn]
  · simp [hx]

end IdSet

namespace Queue

def holds (hash : String → Fin idShards) (q : Queue T) (id : String) : Prop := q.idSet.has hash id

instance (q : Queue T) (id : String) : Decidable (q.holds hash id) :=
  inferInstanceAs (Decidable (q.idSet.has hash id))

-- An open and running queue, in bounds; a Dequeue looks for an id only once EnqueueOnce was called.
structure Sound (hash : String → Fin idShards) (q : Queue T) : Prop where
  closed : q.closed = false
  paused : q.paused = false
  within : q.limit ≠ 0 → q.items.length ≤ q.limit
  off : q.idsOn = false → ∀ id, ¬q.holds hash id

theorem full_iff {q : Queue T} : q.full = true ↔ q.limit ≠ 0 ∧ q.limit ≤ q.items.length := by
  simp [full]

theorem append_some {q : Queue T} {x : Stored T} (hc : q.closed = false) (hf : q.full = false) :
    q.append x = some { q with items := q.items ++ [x] } := by
  simp [append,hc,hf]

theorem append_full {q : Queue T} {x : Stored T} (hf : q.full = true) : q.append x = none := by
  simp [append,hf]

theorem Sound.appended {q : Queue T} {x : Stored T} (h : q.Sound hash) (hf : q.full = false) :
    { q with items := q.items ++ [x] }.Sound hash := by
  refine ⟨h.closed,h.paused,fun hl => ?_,h.off⟩
  have hlt : ¬(q.limit ≠ 0 ∧ q.limit ≤ q.items.length) := by rw [← full_iff,hf]; simp
  simp only [List.length_append,List.length_singleton]
  have hl : q.limit ≠ 0 := hl
  omega

def ided (q : Queue T) (s : IdSet) : Queue T := { q with ids := some s, idsOn := true }

theorem Sound.ided {q : Queue T} (h : q.Sound hash) (s : IdSet) : (q.ided s).Sound hash :=
  ⟨h.closed,h.paused,h.within,fun hoff => by cases hoff⟩

theorem call_enqueue {q : Queue T} (h : q.Sound hash) (item : Option T) (p : ℤ) :
    (q.enqueue item).1.Sound hash ∧ Did idOf q.items q.items.head? (q.holds hash)
      (.enqueue item p) (q.enqueue item).1.items ((q.enqueue item).1.holds hash) := by
  cases item with
  | none => exact ⟨h,.refused (by simp) fun _ => Iff.rfl⟩
  | some v =>
    cases hf : q.full with
    | true =>
      rw [enqueue,append_full hf]
      exact ⟨h,.refused (by simp) fun _ => Iff.rfl⟩
    | false =>
      rw [enqueue,append_some h.closed hf]
      exact ⟨h.appended hf,.put (List.perm_append_singleton _ _) fun _ => Iff.rfl⟩

theorem enqueueOnce_some (q : Queue T) (v : T) (id : String) :
    q.enqueueOnce hash (some v) id =
      if q.idSet.has hash id then (q.ided (q.idSet.set (hash id) (q.idSet (hash id))),false)
      else
        match (q.ided (q.idSet.set (hash id) ((q.idSet (hash id)).add id).1)).append ⟨v,some id⟩ with
        | none =>
            (q.ided (q.idSet.set (hash id) (((q.idSet (hash id)).add id).1.remove id)),false)
        | some q' => (q',true) := by
  simp only [enqueueOnce,IdMap.add,IdSet.has]
  split <;> rfl

theorem set_same (s : IdSet) (i : Fin idShards) : s.set i (s i) = s := by
  funext j
  unfold IdSet.set
  split
  · rename_i h
    rw [h]
  · rfl

theorem call_once {q : Queue T} (h : q.Sound hash) (item : Option T) (p : ℤ) (id : String) :
    (q.enqueueOnce hash item id).1.Sound hash ∧ Did idOf q.items q.items.head? (q.holds hash)
      (.enqueueOnce item p id) (q.enqueueOnce hash item id).1.items
      ((q.enqueueOnce hash item id).1.holds hash) := by
  cases item with
  | none => exact ⟨h,.refused (by simp) fun _ => Iff.rfl⟩
  | some v =>
    rw [enqueueOnce_some]
    by_cases hh : q.idSet.has hash id
    · rw [if_pos hh,set_same]
      exact ⟨h.ided _,.refused (by simp) fun _ => Iff.rfl⟩
    · rw [if_neg hh]
      cases hf : q.full with
      | true =>
        rw [append_full (q := q.ided _) hf]
        exact ⟨h.ided _,.refused (by simp) fun x => IdSet.has_undo hh⟩
      | false =>
        rw [append_some (q := q.ided _) h.closed hf]
        exact ⟨(h.ided _).appended hf,.once hh (List.perm_append_singleton _ _) fun x => IdSet.has_add⟩

theorem holds_remove {q : Queue T} {id x : String} :
    (q.remove hash id).holds hash x ↔ q.holds hash x ∧ id ≠ x := by
  unfold holds idSet remove
  cases q.ids with
  | none => exact ⟨fun hx => absurd hx IdSet.has_new,fun hx => absurd hx.1 IdSet.has_new⟩
  | some s => exact IdSet.has_remove

theorem dequeue_some {q : Queue T} {x : Stored T} {items : List (Stored T)} (hp : q.paused = false)
    (hi : q.items = x :: items) : (q.dequeue idOf hash).1 =
      if q.idsOn then
        match freedId idOf x.value with
        | none => { q with items := items }
        | some id => ({ q with items := items } : Queue T).remove hash id
      else { q with items := items } := by
  unfold dequeue
  rw [if_neg (by simp [hp])]
  simp only [hi]
  cases q.idsOn
  · rfl
  · cases freedId idOf x.value <;> rfl

theorem Sound.shorter {q : Queue T} {x : Stored T} {items : List (Stored T)} (h : q.Sound hash)
    (hi : q.items = x :: items) : { q with items := items }.Sound hash := by
  refine ⟨h.closed,h.paused,fun hl => ?_,h.off⟩
  have := h.within hl
  rw [hi,List.length_cons] at this
  exact Nat.le_of_succ_le this

theorem Sound.removed {q : Queue T} {id : String} (h : q.Sound hash) :
    (q.remove hash id).Sound hash :=
  ⟨h.closed,h.paused,h.within,fun hoff x hx => h.off hoff x (holds_remove.mp hx).1⟩

theorem call_dequeue {q : Queue T} (h : q.Sound hash) :
    (q.dequeue idOf hash).1.Sound hash ∧ Did idOf q.items q.items.head? (q.holds hash) .dequeue
      (q.dequeue idOf hash).1.items ((q.dequeue idOf hash).1.holds hash) := by
  cases hi : q.items with
  | nil =>
    have hd : (q.dequeue idOf hash).1 = q := by simp [dequeue,h.paused,hi]
    rw [hd,hi]
    exact ⟨h,.empty rfl fun _ => Iff.rfl⟩
  | cons x items =>
    have hs := h.shorter hi
    rw [dequeue_some h.paused hi]
    split
    · cases hf : freedId idOf x.value with
      | none => exact ⟨hs,.take rfl (.refl _) fun y => by rw [hf]; simp [holds,idSet]⟩
      | some id =>
        exact ⟨hs.removed,.take rfl (.refl _) fun y => by rw [hf,holds_remove]; simp [holds,idSet]⟩
    · rename_i hoff
      have hno := h.off (by simpa using hoff)
      exact ⟨hs,.take rfl (.refl _)
        fun y => ⟨fun hy => absurd hy (hno y),fun hy => absurd hy.1 (hno y)⟩⟩

theorem room_dequeue {q : Queue T} {e : Stored T} (h : q.Sound hash) (he : q.items.head? = some e) :
    (q.dequeue idOf hash).1.closed = false ∧ (q.dequeue idOf hash).1.full = false := by
  cases hi : q.items with
  | nil =>
    rw [hi] at he
    cases he
  | cons x items =>
    have hfull : ({ q with items := items } : Queue T).full = false := by
      rw [Bool.eq_false_iff,Ne,full_iff]
      rintro ⟨hl,hle⟩
      have := h.within hl
      rw [hi,List.length_cons] at this
      exact absurd (Nat.le_trans this hle) (Nat.not_succ_le_self _)
    rw [dequeue_some h.paused hi]
    split
    · split
      · exact ⟨h.closed,hfull⟩
      · exact ⟨h.closed,hfull⟩
    · exact ⟨h.closed,hfull⟩

theorem once_refused {q : Queue T} (v : T) (id : String) (h : q.Sound hash) (hf : q.full = false) :
    (q.enqueueOnce hash (some v) id).2 = false ↔ q.holds hash id := by
  rw [enqueueOnce_some]
  split
  · rename_i hh
    simpa [holds] using hh
  · rename_i hh
    rw [append_some (q := q.ided _) h.closed hf]
    simpa [holds] using hh

theorem lawful : Lawful (storage idOf hash) idOf (Sound (T := T) hash) (holds hash) := by
  refine ⟨fun n => ?_,fun q c hs _ => ?_,fun q v p id hs hf _ => once_refused v id hs hf,
    fun q e hs he => room_dequeue hs he⟩
  · exact ⟨⟨rfl,rfl,(fun _ => Nat.zero_le _),fun _ id => IdSet.has_new⟩,rfl,fun id => IdSet.has_new⟩
  · cases c with
    | enqueue item p => exact call_enqueue hs item p
    | enqueueOnce item p id => exact call_once hs item p id
    | dequeue => exact call_dequeue hs
    | purgeValues =>
      exact ⟨⟨hs.closed,hs.paused,(fun _ => Nat.zero_le _),fun _ id => IdSet.has_new⟩,
        .purge fun id => IdSet.has_new⟩

end Queue

namespace PriorityQueue

def holds (q : PriorityQueue T) (id : String) : Prop := id ≠ "" ∧ id ∈ q.ids.m

instance (q : PriorityQueue T) (id : String) : Decidable (q.holds id) :=
  inferInstanceAs (Decidable (id ≠ "" ∧ id ∈ q.ids.m))

structure Sound (q : PriorityQueue T) : Prop where
  closed : q.closed = false
  paused : q.paused = false
  within : 0 < q.capacity → q.items.length ≤ q.capacity

theorem full_iff {q : PriorityQueue T} :
    q.full = true ↔ 0 < q.capacity ∧ q.items.length = q.capacity := by
  simp [full]

theorem values_push (q : PriorityQueue T) (v : Stored T) (p : ℤ) :
    (q.pushItem v p).values.Perm (v :: q.values) :=
  (push_perm less q.items ⟨v,p,q.insertionCount⟩).map EnqItem.value

theorem Sound.pushed {q : PriorityQueue T} {v : Stored T} {p : ℤ} (h : q.Sound)
    (hf : q.full = false) : (q.pushItem v p).Sound := by
  refine ⟨h.closed,h.paused,fun hc => ?_⟩
  have hlen := (push_perm less q.items ⟨v,p,q.insertionCount⟩).length_eq
  have hne : ¬(0 < q.capacity ∧ q.items.length = q.capacity) := by rw [← full_iff,hf]; simp
  have hle := h.within hc
  simp only [pushItem,hlen,List.length_cons]
  have hc : 0 < q.capacity := hc
  omega

theorem Sound.ided {q : PriorityQueue T} {id : String} (h : q.Sound) : (q.addId id).Sound := by
  unfold addId
  split
  · exact h
  · exact ⟨h.closed,h.paused,h.within⟩

theorem addId_values (q : PriorityQueue T) (id : String) : (q.addId id).values = q.values := by
  unfold addId
  split <;> rfl

theorem addId_full (q : PriorityQueue T) (id : String) : (q.addId id).full = q.full := by
  unfold addId
  split <;> rfl

theorem holds_addId {q : PriorityQueue T} {id x : String} (hne : id ≠ "") :
    (q.addId id).holds x ↔ x = id ∨ q.holds x := by
  simp only [holds,addId,if_neg hne,List.mem_cons]
  by_cases hx : x = id
  · simp [hx,hne]
  · simp [hx]

theorem enqueue_some {q : PriorityQueue T} (v : T) (p : ℤ) (id : String) (hc : q.closed = false)
    (hf : q.full = false) : q.enqueue (some v) p id =
      if q.holds id then (q,false)
      else ((q.addId id).pushItem ⟨v,if id = "" then none else some id⟩ p,true) := by
  simp only [enqueue,hc,hf,Bool.false_eq_true,if_false]
  rfl

theorem call_enqueue {q : PriorityQueue T} (h : q.Sound) (item : Option T) (p : ℤ) :
    (q.enqueue item p "").1.Sound ∧ Did idOf q.values q.values.head? q.holds (.enqueue item p)
      (q.enqueue item p "").1.values (q.enqueue item p "").1.holds := by
  cases item with
  | none => exact ⟨h,.refused (by simp) fun _ => Iff.rfl⟩
  | some v =>
    cases hf : q.full with
    | true =>
      have he : q.enqueue (some v) p "" = (q,false) := by simp [enqueue,h.closed,hf]
      rw [he]
      exact ⟨h,.refused (by simp) fun _ => Iff.rfl⟩
    | false =>
      rw [enqueue_some v p "" h.closed hf,if_neg fun hh => hh.1 rfl]
      exact ⟨h.ided.pushed (by rw [addId_full,hf]),.put (values_push _ _ _) fun _ => Iff.rfl⟩

theorem call_once {q : PriorityQueue T} (h : q.Sound) (item : Option T) (p : ℤ) {id : String}
    (hne : id ≠ "") : (q.enqueue item p id).1.Sound ∧ Did idOf q.values q.values.head? q.holds
      (.enqueueOnce item p id) (q.enqueue item p id).1.values (q.enqueue item p id).1.holds := by
  cases item with
  | none => exact ⟨h,.refused (by simp) fun _ => Iff.rfl⟩
  | some v =>
    cases hf : q.full with
    | true =>
      have he : q.enqueue (some v) p id = (q,false) := by simp [enqueue,h.closed,hf]
      rw [he]
      exact ⟨h,.refused (by simp) fun _ => Iff.rfl⟩
    | false =>
      rw [enqueue_some v p id h.closed hf]
      split
      · exact ⟨h,.refused (by simp) fun _ => Iff.rfl⟩
      · rename_i hh
        refine ⟨h.ided.pushed (by rw [addId_full,hf]),.once hh ?_ fun x => holds_addId hne⟩
        have hp := values_push (q.addId id) ⟨v,if id = "" then none else some id⟩ p
        rw [addId_values] at hp
        simpa [hne] using hp

theorem Sound.popped {q : PriorityQueue T} {x : EnqItem T} {items : List (EnqItem T)} (h : q.Sound)
    (hp : q.items.Perm (x :: items)) : { q with items := items }.Sound := by
  refine ⟨h.closed,h.paused,fun hc => ?_⟩
  have hlen := hp.length_eq
  have := h.within hc
  simp only [List.length_cons] at hlen ⊢
  omega

theorem dequeue_some {q : PriorityQueue T} {x : EnqItem T} {items : List (EnqItem T)}
    (hp : q.paused = false) (hi : pop less q.items = some (x,items)) : (q.dequeue idOf).1 =
      if q.ids.m = [] then { q with items := items }
      else
        match freedId idOf x.value.value with
        | none => { q with items := items }
        | some id => ({ q with items := items } : PriorityQueue T).removeId id := by
  unfold dequeue
  rw [if_neg (by simp [hp])]
  simp only [hi]
  split
  · rfl
  · cases freedId idOf x.value.value <;> rfl

theorem holds_removeId {q : PriorityQueue T} {id x : String} :
    (q.removeId id).holds x ↔ q.holds x ∧ id ≠ x := by
  simp only [holds,removeId,IdMap.mem_removeAbove]
  exact ⟨fun h => ⟨⟨h.1,h.2.1⟩,Ne.symm h.2.2⟩,fun h => ⟨h.1.1,h.1.2,Ne.symm h.2⟩⟩

theorem pop_front {q : PriorityQueue T} {e : Stored T} (he : q.values.head? = some e) :
    ∃ x items, pop less q.items = some (x,items) ∧ x.value = e := by
  have hne : q.items ≠ [] := by
    intro hn
    simp [values,hn] at he
  obtain ⟨x,items,hx⟩ := pop_nonempty less hne
  refine ⟨x,items,hx,?_⟩
  rw [values,List.head?_map,pop_head hx] at he
  exact Option.some.inj he

theorem call_dequeue {q : PriorityQueue T} (h : q.Sound) :
    (q.dequeue idOf).1.Sound ∧ Did idOf q.values q.values.head? q.holds .dequeue
      (q.dequeue idOf).1.values (q.dequeue idOf).1.holds := by
  cases hf : q.values.head? with
  | none =>
    have hnil : q.items = [] := by
      rw [values,List.head?_eq_none_iff,List.map_eq_nil_iff] at hf
      exact hf
    have hd : (q.dequeue idOf).1 = q := by simp [dequeue,h.paused,hnil,pop,down,downLoop,swap]
    rw [hd]
    exact ⟨h,.empty rfl fun _ => Iff.rfl⟩
  | some e =>
    obtain ⟨x,items,hx,rfl⟩ := pop_front hf
    have hp := pop_perm hx
    have hs := h.popped hp
    have hv : q.values.Perm (x.value :: items.map EnqItem.value) := hp.map EnqItem.value
    rw [dequeue_some h.paused hx]
    split
    · rename_i hm
      have hno : ∀ y, ¬q.holds y := by
        intro y hy
        rw [holds,hm] at hy
        cases hy.2
      exact ⟨hs,.take rfl hv fun y => ⟨fun hy => absurd hy (hno y),fun hy => absurd hy.1 (hno y)⟩⟩
    · cases hid : freedId idOf x.value.value with
      | none => exact ⟨hs,.take rfl hv fun y => by rw [hid]; simp [holds]⟩
      | some id =>
        refine ⟨⟨hs.closed,hs.paused,hs.within⟩,.take rfl hv fun y => ?_⟩
        rw [hid,holds_removeId]
        simp [holds]

theorem room_dequeue {q : PriorityQueue T} {e : Stored T} (h : q.Sound)
    (he : q.values.head? = some e) :
    (q.dequeue idOf).1.closed = false ∧ (q.dequeue idOf).1.full = false := by
  obtain ⟨x,items,hx,rfl⟩ := pop_front he
  have hfull : ({ q with items := items } : PriorityQueue T).full = false := by
    rw [Bool.eq_false_iff,Ne,full_iff]
    rintro ⟨hc,hlen⟩
    have := h.within hc
    have hl := (pop_perm hx).length_eq
    simp only [List.length_cons] at hl hlen
    omega
  rw [dequeue_some h.paused hx]
  split
  · exact ⟨h.closed,hfull⟩
  · split
    · exact ⟨h.closed,hfull⟩
    · exact ⟨h.closed,hfull⟩

theorem lawful : Lawful (storage idOf) idOf (Sound (T := T)) holds := by
  refine ⟨fun n => ?_,fun q c hs hw => ?_,fun q v p id hs hf hne => ?_,
    fun q e hs he => room_dequeue hs he⟩
  · exact ⟨⟨rfl,rfl,fun _ => Nat.zero_le _⟩,rfl,fun id hid => by cases hid.2⟩
  · cases c with
    | enqueue item p => exact call_enqueue hs item p
    | enqueueOnce item p id => exact call_once hs item p hw.2
    | dequeue => exact call_dequeue hs
    | purgeValues =>
      exact ⟨⟨hs.closed,hs.paused,fun _ => Nat.zero_le _⟩,.purge fun id hid => by cases hid.2⟩
  · change (q.enqueue (some v) p id).2 = false ↔ _
    rw [enqueue_some v p id hs.closed hf]
    split <;> simp [*]

end PriorityQueue

-- The storage's states over a sequence of calls, and the calls' condition.
def WaitsOnce {Q : Type} (st : Storage T Q) (idOf : T → Option String) (capacity : ℕ)
    (calls : List (Call T)) : Prop :=
  (∀ k, OneWaiting st idOf (st.run (st.new capacity) (calls.take k))) ↔
    ∀ k c, calls[k]? = some c → Unshared st idOf (st.run (st.new capacity) (calls.take k)) c

theorem Lawful.waitsOnce {Q : Type} {st : Storage T Q} {Sound : Q → Prop} {holds : Q → String → Prop}
    (law : Lawful st idOf Sound holds) (capacity : ℕ) {calls : List (Call T)}
    (hw : ∀ c ∈ calls, WellFormed idOf c) : WaitsOnce st idOf capacity calls := by
  obtain ⟨hs,hitems,hno⟩ := law.new capacity
  refine law.waiting hs ?_ hw
  rw [hitems]
  exact exact_nil hno

theorem one_waiting_job_per_id (hash : String → Fin idShards) (idOf : T → Option String)
    (capacity : ℕ) (calls : List (Call T)) (hw : ∀ c ∈ calls, WellFormed idOf c) :
    WaitsOnce (Queue.storage idOf hash) idOf capacity calls ∧
    WaitsOnce (PriorityQueue.storage idOf) idOf capacity calls :=
  ⟨Queue.lawful.waitsOnce capacity hw,PriorityQueue.lawful.waitsOnce capacity hw⟩

theorem one_waiting_job_per_id_twice :
    WaitsOnce (Queue.storage some fun _ => 0) some 0
      [.enqueueOnce (some "a") 0 "a",.enqueueOnce (some "a") 0 "a"] ∧
    WaitsOnce (PriorityQueue.storage some) some 0
      [.enqueueOnce (some "a") 0 "a",.enqueueOnce (some "a") 0 "a"] := by
  refine one_waiting_job_per_id (fun _ => 0) some 0 _ fun c hc => ?_
  have hc : c = .enqueueOnce (some "a") 0 "a" := by simpa using hc
  rw [hc]
  exact ⟨fun v hv => hv.symm,by decide⟩

-- A plain item with the id goes out first and frees it for a second one.
def sharedId : List (Call String) :=
  [.enqueue (some "a") 0,.enqueueOnce (some "a") 0 "a",.dequeue,.enqueueOnce (some "a") 0 "a"]

theorem two_waiting_jobs_with_id : (∀ c ∈ sharedId, WellFormed some c) ∧
    ¬OneWaiting (Queue.storage some fun _ => 0) some
      ((Queue.storage some fun _ => 0).run (Queue.new 0) sharedId) ∧
    ¬OneWaiting (PriorityQueue.storage some) some
      ((PriorityQueue.storage some).run (PriorityQueue.new 0) sharedId) := by
  refine ⟨fun c hc => ?_,fun h => ?_,fun h => ?_⟩
  · simp only [sharedId,List.mem_cons,List.not_mem_nil,or_false] at hc
    rcases hc with rfl | rfl | rfl | rfl
    · trivial
    · exact ⟨fun v hv => hv.symm,by decide⟩
    · trivial
    · exact ⟨fun v hv => hv.symm,by decide⟩
  · have hids : onceIds ((Queue.storage some fun _ => 0).items
        ((Queue.storage some fun _ => 0).run (Queue.new 0) sharedId)) = ["a","a"] := by
      decide +kernel
    have hsingle := h.single
    rw [hids] at hsingle
    simp at hsingle
  · have hids : onceIds ((PriorityQueue.storage some).items
        ((PriorityQueue.storage some).run (PriorityQueue.new 0) sharedId)) = ["a","a"] := by
      decide +kernel
    have hsingle := h.single
    rw [hids] at hsingle
    simp at hsingle

end Varmq.Queues
