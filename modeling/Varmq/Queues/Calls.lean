import Varmq.Queues.Storage

namespace Varmq.Queues

variable {T Q : Type}

-- An item that is not a T is none; a FIFO queue takes no priority.
inductive Op (T : Type) where
  | setCapacity (cap : ℤ)
  | enqueue (item : Option T) (priority : ℤ)
  | enqueueOnce (item : Option T) (priority : ℤ) (id : String)
  | dequeue
  | values
  | len
  | purgeValues
  | close
  | pause
  | resume
  | pauseRefusals
  deriving DecidableEq, Repr

inductive Ret (T : Type) where
  | done
  | accepted (ok : Bool)
  | item (x : Option T)
  | items (xs : List T)
  | count (n : ℕ)
  deriving DecidableEq, Repr

-- The calls of a history with what they returned, and the state they leave.
def play (call : Q → Op T → Q × Ret T) (q : Q) : List (Op T) → Q × List (Op T × Ret T)
  | [] => (q,[])
  | op :: ops =>
      let (q',r) := call q op
      let (q'',rs) := play call q' ops
      (q'',(op,r) :: rs)

def after (call : Q → Op T → Q × Ret T) (q : Q) (ops : List (Op T)) : Q := (play call q ops).1

def returns (call : Q → Op T → Q × Ret T) (q : Q) (ops : List (Op T)) : List (Ret T) :=
  (play call q ops).2.map Prod.snd

section Play

variable {call : Q → Op T → Q × Ret T}

@[simp] theorem after_nil (q : Q) : after call q [] = q := rfl

@[simp] theorem after_cons (q : Q) (op : Op T) (ops : List (Op T)) :
    after call q (op :: ops) = after call (call q op).1 ops := rfl

theorem play_append (q : Q) (ops ops' : List (Op T)) :
    (play call q (ops ++ ops')).2 =
      (play call q ops).2 ++ (play call (after call q ops) ops').2 := by
  induction ops generalizing q with
  | nil => rfl
  | cons op ops ih => exact congrArg ((op,(call q op).2) :: ·) (ih (call q op).1)

theorem after_append (q : Q) (ops ops' : List (Op T)) :
    after call q (ops ++ ops') = after call (after call q ops) ops' := by
  induction ops generalizing q with
  | nil => rfl
  | cons op ops ih => exact ih (call q op).1

-- What every call keeps holds after any history.
theorem after_invariant {p : Q → Prop} {q : Q} (hq : p q) (hc : ∀ q op, p q → p (call q op).1)
    (ops : List (Op T)) : p (after call q ops) := by
  induction ops generalizing q with
  | nil => exact hq
  | cons op ops ih => exact ih (hc q op hq)

-- Two queues that return the same and stay related cannot be told apart.
theorem returns_eq {R : Q → Q → Prop} {q q' : Q} (hq : R q q')
    (hc : ∀ q q' op, R q q' → (call q op).2 = (call q' op).2 ∧ R (call q op).1 (call q' op).1)
    (ops : List (Op T)) : returns call q ops = returns call q' ops := by
  induction ops generalizing q q' with
  | nil => rfl
  | cons op ops ih =>
    obtain ⟨hr,hn⟩ := hc q q' op hq
    exact List.cons_eq_cons.mpr ⟨hr,ih hn⟩

end Play

variable (idOf : T → Option String)

namespace Queue

variable (hash : String → Fin idShards)

def setCapacity (q : Queue T) (cap : ℤ) : Queue T := { q with limit := (max 0 cap).toNat }

def values (q : Queue T) : List T := q.items.map Stored.value

def len (q : Queue T) : ℕ := q.items.length

def call (q : Queue T) : Op T → Queue T × Ret T
  | .setCapacity cap => (q.setCapacity cap,.done)
  | .enqueue item _ => ((q.enqueue item).1,.accepted (q.enqueue item).2)
  | .enqueueOnce item _ id =>
      ((q.enqueueOnce hash item id).1,.accepted (q.enqueueOnce hash item id).2)
  | .dequeue =>
      ((q.dequeue idOf hash).1,.item ((q.dequeue idOf hash).2.map Stored.value))
  | .values => (q,.items q.values)
  | .len => (q,.count q.len)
  | .purgeValues => (q.purgeValues.1,.items (q.purgeValues.2.map Stored.value))
  | .close => ({ q with closed := true },.done)
  | .pause => ({ q with paused := true },.done)
  | .resume => ({ q with paused := false },.done)
  | .pauseRefusals => (q,.count q.refusals)

end Queue

-- cmp.Or of the two cmp.Compare.
def compareItems (a b : EnqItem T) : Ordering :=
  (compare a.priority b.priority).then (compare a.index b.index)

namespace PriorityQueue

def setCapacity (q : PriorityQueue T) (cap : ℤ) : PriorityQueue T :=
  { q with capacity := (max 0 cap).toNat }

-- Values; no two items have one index, so that there is one sorted list.
def sortedValues (q : PriorityQueue T) : List T :=
  (q.items.mergeSort fun a b => (compareItems a b).isLE).map fun x => x.value.value

def len (q : PriorityQueue T) : ℕ := q.items.length

def call (q : PriorityQueue T) : Op T → PriorityQueue T × Ret T
  | .setCapacity cap => (q.setCapacity cap,.done)
  | .enqueue item p => ((q.enqueue item p "").1,.accepted (q.enqueue item p "").2)
  | .enqueueOnce item p id => ((q.enqueue item p id).1,.accepted (q.enqueue item p id).2)
  | .dequeue => ((q.dequeue idOf).1,.item ((q.dequeue idOf).2.map Stored.value))
  | .values => (q,.items q.sortedValues)
  | .len => (q,.count q.len)
  | .purgeValues => (q.purgeValues.1,.items (q.purgeValues.2.map Stored.value))
  | .close => ({ q with closed := true },.done)
  | .pause => ({ q with paused := true },.done)
  | .resume => ({ q with paused := false },.done)
  | .pauseRefusals => (q,.count q.refusals)

end PriorityQueue

end Varmq.Queues
