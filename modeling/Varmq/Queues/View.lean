import Mathlib.Data.Set.Insert
import Varmq.Queues.Capacity

namespace Varmq.Queues

variable {T : Type} {idOf : T → Option String} {hash : String → Fin idShards}

-- A FIFO queue as its callers see it: no shards, no peaks and no idsOn.
@[ext] structure View (T : Type) where
  items : List (Stored T)
  limit : ℕ
  closed : Bool
  paused : Bool
  refusals : ℕ
  held : Set String

namespace View

variable (idOf)

def refuses (v : View T) : Bool :=
  v.closed || (v.limit ≠ 0 && v.limit ≤ v.items.length)

open Classical in
noncomputable def call (v : View T) : Op T → View T × Ret T
  | .setCapacity cap => ({ v with limit := (max 0 cap).toNat },.done)
  | .enqueue none _ | .enqueueOnce none _ _ => (v,.accepted false)
  | .enqueue (some x) _ =>
      if v.refuses then (v,.accepted false)
      else ({ v with items := v.items ++ [⟨x,none⟩] },.accepted true)
  | .enqueueOnce (some x) _ id =>
      if id ∈ v.held then (v,.accepted false)
      else if v.refuses then (v,.accepted false)
      else ({ v with items := v.items ++ [⟨x,some id⟩], held := insert id v.held },.accepted true)
  | .dequeue =>
      if v.paused then ({ v with refusals := v.refusals + 1 },.item none)
      else
        match v.items with
        | [] => (v,.item none)
        | x :: items =>
            ({ v with items := items, held := { id ∈ v.held | freedId idOf x.value ≠ some id } },
              .item (some x.value))
  | .values => (v,.items (v.items.map Stored.value))
  | .len => (v,.count v.items.length)
  | .purgeValues => ({ v with items := [], held := ∅ },.items (v.items.map Stored.value))
  | .close => ({ v with closed := true },.done)
  | .pause => ({ v with paused := true },.done)
  | .resume => ({ v with paused := false },.done)
  | .pauseRefusals => (v,.count v.refusals)

variable {idOf}

theorem call_paused {v : View T} (hp : v.paused = true) :
    v.call idOf .dequeue = ({ v with refusals := v.refusals + 1 },.item none) := if_pos hp

theorem call_empty {v : View T} (hp : v.paused = false) (hi : v.items = []) :
    v.call idOf .dequeue = (v,.item none) := by
  simp [call,hp,hi]

theorem call_taken {v : View T} {x : Stored T} {items : List (Stored T)} (hp : v.paused = false)
    (hi : v.items = x :: items) : v.call idOf .dequeue =
      ({ v with items := items, held := { id ∈ v.held | freedId idOf x.value ≠ some id } },
        .item (some x.value)) := by
  simp [call,hp,hi]

theorem call_refused {v : View T} {op : Op T} (h : (v.call idOf op).2 = .accepted false) :
    (v.call idOf op).1 = v := by
  cases op with
  | enqueue item p =>
    cases item with
    | none => rfl
    | some x =>
      simp only [call] at h ⊢
      split at h
      · rw [if_pos ‹_›]
      · cases h
  | enqueueOnce item p id =>
    cases item with
    | none => rfl
    | some x =>
      simp only [call] at h ⊢
      split at h
      · rw [if_pos ‹_›]
      · split at h
        · rw [if_neg ‹_›,if_pos ‹_›]
        · cases h
  | dequeue =>
    simp only [call] at h
    split at h
    · cases h
    · split at h <;> cases h
  | _ => cases h

end View

namespace Queue

def view (hash : String → Fin idShards) (q : Queue T) : View T :=
  ⟨q.items,q.limit,q.closed,q.paused,q.refusals,{ id | q.holds hash id }⟩

-- Until EnqueueOnce is called no id is held.
def Off (hash : String → Fin idShards) (q : Queue T) : Prop := q.idsOn = false → ∀ id, ¬q.holds hash id

theorem view_refuses (hash : String → Fin idShards) (q : Queue T) (x : Stored T) : q.append x =
    if (q.view hash).refuses then none else some { q with items := q.items ++ [x] } := rfl

theorem view_enqueue (q : Queue T) (item : Option T) (p : ℤ) :
    (q.call idOf hash (.enqueue item p)).1.view hash =
        ((q.view hash).call idOf (.enqueue item p)).1 ∧
      (q.call idOf hash (.enqueue item p)).2 = ((q.view hash).call idOf (.enqueue item p)).2 := by
  cases item with
  | none => exact ⟨rfl,rfl⟩
  | some x =>
    simp only [call,enqueue,view_refuses hash,View.call]
    cases (q.view hash).refuses
    · exact ⟨rfl,rfl⟩
    · exact ⟨rfl,rfl⟩

theorem view_ided {q : Queue T} {s : IdSet} (h : ∀ id, s.has hash id ↔ q.holds hash id) :
    (q.ided s).view hash = q.view hash := by
  ext id
  case held => exact h id
  all_goals rfl

theorem view_once (q : Queue T) (item : Option T) (p : ℤ) (id : String) :
    (q.call idOf hash (.enqueueOnce item p id)).1.view hash =
        ((q.view hash).call idOf (.enqueueOnce item p id)).1 ∧
      (q.call idOf hash (.enqueueOnce item p id)).2 =
        ((q.view hash).call idOf (.enqueueOnce item p id)).2 := by
  cases item with
  | none => exact ⟨rfl,rfl⟩
  | some x =>
    simp only [call,enqueueOnce_some,View.call]
    by_cases hh : q.idSet.has hash id
    · rw [if_pos hh,if_pos (show id ∈ (q.view hash).held from hh)]
      exact ⟨view_ided fun x => by rw [set_same]; rfl,rfl⟩
    · rw [if_neg hh,if_neg (show id ∉ (q.view hash).held from hh)]
      rw [view_refuses hash]
      have hr : ((q.ided (q.idSet.set (hash id) ((q.idSet (hash id)).add id).1)).view hash).refuses =
          (q.view hash).refuses := rfl
      rw [hr]
      cases (q.view hash).refuses
      · refine ⟨?_,rfl⟩
        ext y
        case held => exact IdSet.has_add
        all_goals rfl
      · exact ⟨view_ided fun x => IdSet.has_undo hh,rfl⟩

theorem view_taken {q : Queue T} {x : Stored T} {items : List (Stored T)} (h : q.Off hash)
    (hp : q.paused = false) (hi : q.items = x :: items) : (q.dequeue idOf hash).1.view hash =
      { q.view hash with items := items,
                         held := { id ∈ (q.view hash).held | freedId idOf x.value ≠ some id } } := by
  rw [dequeue_some hp hi]
  cases ho : q.idsOn with
  | false =>
    have hno := h ho
    ext id
    case held => exact ⟨fun hid => absurd hid (hno id),fun hid => absurd hid.1 (hno id)⟩
    all_goals rfl
  | true =>
    rw [if_pos rfl]
    cases hf : freedId idOf x.value with
    | none =>
      ext id
      case held => exact ⟨fun hid => ⟨hid,by simp⟩,fun hid => hid.1⟩
      all_goals rfl
    | some y =>
      ext id
      case held =>
        refine holds_remove.trans ?_
        simp [view,holds,idSet]
      all_goals rfl

-- A queue is its view: a call returns what the view says and leaves the view's state.
theorem view_call {q : Queue T} (h : q.Off hash) (op : Op T) :
    (q.call idOf hash op).1.view hash = ((q.view hash).call idOf op).1 ∧
      (q.call idOf hash op).2 = ((q.view hash).call idOf op).2 := by
  cases op with
  | enqueue item p => exact view_enqueue q item p
  | enqueueOnce item p id => exact view_once q item p id
  | dequeue =>
    by_cases hp : q.paused = true
    · rw [View.call_paused (v := q.view hash) hp,call,dequeue,if_pos hp]
      exact ⟨rfl,rfl⟩
    · have hp : q.paused = false := Bool.eq_false_iff.mpr hp
      cases hi : q.items with
      | nil =>
        rw [View.call_empty (v := q.view hash) hp hi,call,dequeue,if_neg (by simp [hp]),hi]
        exact ⟨rfl,rfl⟩
      | cons x items =>
        have hout : (q.dequeue idOf hash).2 = some x := by
          simp only [dequeue,hp,hi,Bool.false_eq_true,if_false]
          split
          · split <;> rfl
          · rfl
        rw [View.call_taken (v := q.view hash) hp hi,call,hout]
        exact ⟨view_taken h hp hi,rfl⟩
  | purgeValues =>
    refine ⟨?_,rfl⟩
    ext id
    case held => exact ⟨fun hid => (@IdSet.has_new hash id hid).elim,fun hid => hid.elim⟩
    all_goals rfl
  | _ => exact ⟨rfl,rfl⟩

theorem off_call {q : Queue T} (h : q.Off hash) (op : Op T) : (q.call idOf hash op).1.Off hash := by
  cases op with
  | enqueue item p =>
    cases item with
    | none => exact h
    | some x =>
      simp only [call,enqueue,view_refuses hash]
      cases (q.view hash).refuses <;> exact h
  | enqueueOnce item p id =>
    cases item with
    | none => exact h
    | some x =>
      have hon : (q.enqueueOnce hash (some x) id).1.idsOn = true := by
        rw [enqueueOnce_some]
        split
        · rfl
        · rw [view_refuses hash]
          cases (View.refuses _) <;> rfl
      intro hoff
      rw [call,hon] at hoff
      cases hoff
  | dequeue =>
    cases hp : q.paused with
    | true =>
      simp only [call,dequeue,hp,if_true]
      exact h
    | false =>
      cases hi : q.items with
      | nil =>
        simp only [call,dequeue,hp,hi,Bool.false_eq_true,if_false]
        exact h
      | cons x items =>
        simp only [call,dequeue_some hp hi]
        by_cases ho : q.idsOn = true
        · rw [if_pos ho]
          intro hoff
          have hon : q.idsOn = false := by
            revert hoff
            cases freedId idOf x.value <;> exact fun hoff => hoff
          rw [ho] at hon
          cases hon
        · rw [if_neg ho]
          exact fun hoff => h hoff
  | purgeValues => exact fun _ id => IdSet.has_new
  | _ => exact h

theorem off_new (n : ℕ) : (new n : Queue T).Off hash := fun _ id => @IdSet.has_new hash id

theorem off_history (ops : List (Op T)) : (history idOf hash ops).Off hash :=
  after_invariant (p := Off hash) (off_new 0) (fun _ op h => off_call h op) ops

theorem returns_same {q q' : Queue T} (h : q.Off hash) (h' : q'.Off hash)
    (hv : q.view hash = q'.view hash) (ops : List (Op T)) :
    returns (call idOf hash) q ops = returns (call idOf hash) q' ops := by
  refine returns_eq (R := fun q q' => q.Off hash ∧ q'.Off hash ∧ q.view hash = q'.view hash)
    ⟨h,h',hv⟩ ?_ ops
  rintro q q' op ⟨h,h',hv⟩
  obtain ⟨hs,hr⟩ := view_call h op
  obtain ⟨hs',hr'⟩ := view_call h' op
  refine ⟨?_,off_call h op,off_call h' op,?_⟩
  · rw [hr,hr',hv]
  · rw [hs,hs',hv]

end Queue

end Varmq.Queues
