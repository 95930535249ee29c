import Varmq.Queues.Storage

namespace Varmq.Queues

variable {T Q : Type} {idOf : T → Option String} {es es' : List (Stored T)} {e : Stored T}
  {ids ids' : String → Prop} {v : T} {id : String}

-- The ids held are those of the items stored under one, each by one item.
structure Exact (idOf : T → Option String) (es : List (Stored T)) (ids : String → Prop) : Prop where
  tagged : ∀ e ∈ es, ∀ id, e.once = some id → idOf e.value = some id ∧ id ≠ ""
  single : (onceIds es).Nodup
  held : ∀ id, ids id ↔ id ∈ onceIds es

theorem onceIds_perm (h : es.Perm es') : (onceIds es).Perm (onceIds es') := h.filterMap _

theorem mem_onceIds : id ∈ onceIds es ↔ ∃ e ∈ es, e.once = some id := List.mem_filterMap

theorem onceIds_cons_none (h : e.once = none) : onceIds (e :: es) = onceIds es := by
  simp [onceIds,h]

theorem onceIds_cons_some (h : e.once = some id) : onceIds (e :: es) = id :: onceIds es := by
  simp [onceIds,h]

theorem freedId_eq_some : freedId idOf v = some id ↔ idOf v = some id ∧ id ≠ "" := by
  simp [freedId,Option.filter_eq_some_iff]

theorem exact_nil (h : ∀ id, ¬ids id) : Exact idOf ([] : List (Stored T)) ids :=
  ⟨(fun _ he => by cases he),List.nodup_nil,fun id => ⟨fun hi => absurd hi (h id),fun hi => by cases hi⟩⟩

theorem Exact.put (h : Exact idOf es ids) (hn : e.once = none) (hp : es'.Perm (e :: es))
    (hi : ∀ x, ids' x ↔ ids x) : Exact idOf es' ids' := by
  have hids := onceIds_perm hp
  rw [onceIds_cons_none hn] at hids
  refine ⟨fun a ha id hid => ?_,hids.nodup_iff.mpr h.single,fun id => ?_⟩
  · rcases List.mem_cons.mp (hp.mem_iff.mp ha) with rfl | ha
    · rw [hn] at hid
      cases hid
    · exact h.tagged a ha id hid
  · rw [hi,h.held,hids.mem_iff]

theorem Exact.once (h : Exact idOf es ids) (hnew : ¬ids id) (hv : idOf v = some id) (hne : id ≠ "")
    (hp : es'.Perm (⟨v,some id⟩ :: es)) (hi : ∀ x, ids' x ↔ x = id ∨ ids x) :
    Exact idOf es' ids' := by
  have hids := onceIds_perm hp
  rw [onceIds_cons_some rfl] at hids
  refine ⟨fun a ha x hx => ?_,hids.nodup_iff.mpr ?_,fun x => ?_⟩
  · rcases List.mem_cons.mp (hp.mem_iff.mp ha) with rfl | ha
    · cases hx
      exact ⟨hv,hne⟩
    · exact h.tagged a ha x hx
  · exact List.nodup_cons.mpr ⟨fun hm => hnew ((h.held id).mpr hm),h.single⟩
  · rw [hi,h.held,hids.mem_iff,List.mem_cons]

-- The item taken frees no id that another one is stored under.
def Alone (idOf : T → Option String) (es : List (Stored T)) (e : Stored T) : Prop :=
  e.once = none → ∀ id, idOf e.value = some id → id ∉ onceIds es

theorem Exact.take (h : Exact idOf es ids) (hp : es.Perm (e :: es')) (hm : Alone idOf es e)
    (hi : ∀ x, ids' x ↔ ids x ∧ freedId idOf e.value ≠ some x) : Exact idOf es' ids' := by
  have hids := onceIds_perm hp
  refine ⟨fun a ha => h.tagged a (hp.mem_iff.mpr (List.mem_cons_of_mem _ ha)),?_,fun x => ?_⟩
  · refine (hids.nodup_iff.mp h.single).sublist ?_
    exact (List.sublist_cons_self e es').filterMap _
  · rw [hi,h.held,hids.mem_iff]
    cases ho : e.once with
    | none =>
      rw [onceIds_cons_none ho] at hids ⊢
      refine ⟨fun hx => hx.1,fun hx => ⟨hx,fun hf => ?_⟩⟩
      exact hm ho x (freedId_eq_some.mp hf).1 (hids.mem_iff.mpr hx)
    | some id =>
      have hmem : e ∈ es := hp.mem_iff.mpr List.mem_cons_self
      have hf : freedId idOf e.value = some id := freedId_eq_some.mpr (h.tagged e hmem id ho)
      have hnd := hids.nodup_iff.mp h.single
      rw [onceIds_cons_some ho] at hnd ⊢
      rw [hf,List.mem_cons]
      constructor
      · rintro ⟨rfl | hx,hne⟩
        · exact absurd rfl hne
        · exact hx
      · intro hx
        refine ⟨.inr hx,fun hid => ?_⟩
        cases hid
        exact (List.nodup_cons.mp hnd).1 hx

-- EnqueueOnce is called with the id its item returns, which is not empty.
def WellFormed (idOf : T → Option String) : Call T → Prop
  | .enqueueOnce item _ id => (∀ v, item = some v → idOf v = some id) ∧ id ≠ ""
  | _ => True

-- What a call does, said of the items, the one in front and the ids held.
inductive Did (idOf : T → Option String) (es : List (Stored T)) (front : Option (Stored T))
    (ids : String → Prop) : Call T → List (Stored T) → (String → Prop) → Prop
  | refused {c : Call T} {ids' : String → Prop} (hc : c ≠ .dequeue) (hi : ∀ x, ids' x ↔ ids x) :
      Did idOf es front ids c es ids'
  | put {v : T} {p : ℤ} {es' : List (Stored T)} {ids' : String → Prop}
      (hp : es'.Perm (⟨v,none⟩ :: es)) (hi : ∀ x, ids' x ↔ ids x) :
      Did idOf es front ids (.enqueue (some v) p) es' ids'
  | once {v : T} {p : ℤ} {id : String} {es' : List (Stored T)} {ids' : String → Prop}
      (hnew : ¬ids id) (hp : es'.Perm (⟨v,some id⟩ :: es)) (hi : ∀ x, ids' x ↔ x = id ∨ ids x) :
      Did idOf es front ids (.enqueueOnce (some v) p id) es' ids'
  | empty {ids' : String → Prop} (hf : front = none) (hi : ∀ x, ids' x ↔ ids x) :
      Did idOf es front ids .dequeue es ids'
  | take {e : Stored T} {es' : List (Stored T)} {ids' : String → Prop} (hf : front = some e)
      (hp : es.Perm (e :: es')) (hi : ∀ x, ids' x ↔ ids x ∧ freedId idOf e.value ≠ some x) :
      Did idOf es front ids .dequeue es' ids'
  | purge {ids' : String → Prop} (hi : ∀ x, ¬ids' x) : Did idOf es front ids .purgeValues [] ids'

theorem Did.exact {c : Call T} {front : Option (Stored T)} (hd : Did idOf es front ids c es' ids')
    (h : Exact idOf es ids) (hw : WellFormed idOf c)
    (hm : c = .dequeue → ∀ e, front = some e → Alone idOf es e) : Exact idOf es' ids' := by
  cases hd with
  | refused hc hi => exact ⟨h.tagged,h.single,fun id => (hi id).trans (h.held id)⟩
  | put hp hi => exact h.put rfl hp hi
  | once hnew hp hi => exact h.once hnew (hw.1 _ rfl) hw.2 hp hi
  | empty hf hi => exact ⟨h.tagged,h.single,fun id => (hi id).trans (h.held id)⟩
  | take hf hp hi => exact h.take hp (hm rfl _ hf) hi
  | purge hi => exact exact_nil hi

-- A storage whose calls do that, as long as its representation is sound.
structure Lawful (st : Storage T Q) (idOf : T → Option String) (Sound : Q → Prop)
    (holds : Q → String → Prop) : Prop where
  new : ∀ n, Sound (st.new n) ∧ st.items (st.new n) = [] ∧ ∀ id, ¬holds (st.new n) id
  call : ∀ q c, Sound q → WellFormed idOf c → Sound (st.call q c) ∧
    Did idOf (st.items q) (st.front q) (holds q) c (st.items (st.call q c)) (holds (st.call q c))
  refused : ∀ q v p id, Sound q → st.full q = false → id ≠ "" →
    ((st.enqueueOnce q (some v) p id).2 = false ↔ holds q id)
  room : ∀ q e, Sound q → st.front q = some e →
    st.closed (st.call q .dequeue) = false ∧ st.full (st.call q .dequeue) = false

-- At most one waiting item for each id, and EnqueueOnce refuses an id while it has one.
structure OneWaiting (st : Storage T Q) (idOf : T → Option String) (q : Q) : Prop where
  single : (onceIds (st.items q)).Nodup
  refused : st.closed q = false → st.full q = false → ∀ v p id, idOf v = some id → id ≠ "" →
    ((st.enqueueOnce q (some v) p id).2 = false ↔ id ∈ onceIds (st.items q))

-- No plain item is handed out whose id an item stored by EnqueueOnce still has.
def Unshared (st : Storage T Q) (idOf : T → Option String) (q : Q) (c : Call T) : Prop :=
  c = .dequeue → ∀ e, st.front q = some e → Alone idOf (st.items q) e

variable {st : Storage T Q} {Sound : Q → Prop} {holds : Q → String → Prop} {q : Q}
  {calls : List (Call T)}

theorem Lawful.oneWaiting (law : Lawful st idOf Sound holds) (hs : Sound q)
    (h : Exact idOf (st.items q) (holds q)) : OneWaiting st idOf q :=
  ⟨h.single,fun _ hf v p id _ hne => (law.refused q v p id hs hf hne).trans (h.held id)⟩

-- An id freed by a plain item while it is stored is accepted once more.
theorem Lawful.alone (law : Lawful st idOf Sound holds) (hs : Sound q)
    (h : Exact idOf (st.items q) (holds q)) (hone : OneWaiting st idOf (st.call q .dequeue)) :
    Unshared st idOf q .dequeue := by
  intro _ e hf hn id hid hstored
  obtain ⟨hs',hd⟩ := law.call q .dequeue hs trivial
  obtain ⟨hopen,hroom⟩ := law.room q e hs hf
  generalize hes : st.items (st.call q .dequeue) = es' at hd
  generalize hids : holds (st.call q .dequeue) = ids' at hd
  cases hd with
  | refused hc => exact hc rfl
  | empty hf' =>
    rw [hf] at hf'
    cases hf'
  | take hf' hp hi =>
    rw [hf] at hf'
    cases hf'
    have hstill := (onceIds_perm hp).mem_iff.mp hstored
    rw [onceIds_cons_none hn] at hstill
    obtain ⟨a,ha,hid'⟩ := mem_onceIds.mp hstored
    obtain ⟨hav,hne⟩ := h.tagged a ha id hid'
    have hfalse := (hone.refused hopen hroom a.value 0 id hav hne).mpr (by rw [hes]; exact hstill)
    have hheld := (law.refused _ a.value 0 id hs' hroom hne).mp hfalse
    rw [hids,hi] at hheld
    exact hheld.2 (freedId_eq_some.mpr ⟨hid,hne⟩)

theorem Lawful.step (law : Lawful st idOf Sound holds) {c : Call T} (hs : Sound q)
    (h : Exact idOf (st.items q) (holds q)) (hw : WellFormed idOf c) (hu : Unshared st idOf q c) :
    Sound (st.call q c) ∧ Exact idOf (st.items (st.call q c)) (holds (st.call q c)) := by
  obtain ⟨hs',hd⟩ := law.call q c hs hw
  exact ⟨hs',hd.exact h hw hu⟩

theorem run_cons (st : Storage T Q) (q : Q) (c : Call T) (calls : List (Call T)) :
    st.run q (c :: calls) = st.run (st.call q c) calls := rfl

-- Over the calls that are left, with a sound state before them.
theorem Lawful.waiting (law : Lawful st idOf Sound holds) (hs : Sound q)
    (h : Exact idOf (st.items q) (holds q)) (hw : ∀ c ∈ calls, WellFormed idOf c) :
    (∀ k, OneWaiting st idOf (st.run q (calls.take k))) ↔
      ∀ k c, calls[k]? = some c → Unshared st idOf (st.run q (calls.take k)) c := by
  induction calls generalizing q with
  | nil =>
    refine ⟨(fun _ k c hc => by simp at hc),fun _ k => ?_⟩
    rw [List.take_nil]
    exact law.oneWaiting hs h
  | cons c calls ih =>
    have hwc := hw c List.mem_cons_self
    have hrest := fun a ha => hw a (List.mem_cons_of_mem c ha)
    constructor
    · intro hall
      have hu : Unshared st idOf q c := by
        intro hc
        subst hc
        exact law.alone hs h (hall 1) rfl
      obtain ⟨hs',h'⟩ := law.step hs h hwc hu
      have hih := (ih hs' h' hrest).mp fun k => hall (k + 1)
      intro k a ha
      cases k with
      | zero =>
        rw [List.getElem?_cons_zero,Option.some.injEq] at ha
        rw [← ha]
        exact hu
      | succ k => exact hih k a ha
    · intro hall
      obtain ⟨hs',h'⟩ := law.step hs h hwc (hall 0 c rfl)
      have hih := (ih hs' h' hrest).mpr fun k a ha => hall (k + 1) a ha
      intro k
      cases k with
      | zero => exact law.oneWaiting hs h
      | succ k => exact hih k

end Varmq.Queues
