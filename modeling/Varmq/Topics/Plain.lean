import Mathlib.Data.Int.Notation
import Varmq.Interleaving.Alone
import Varmq.Topics.Bound

namespace Varmq.Topics

open Interleaving

variable {T : Type}

inductive Call (T : Type) where
  | newCursor
  | newConsumer
  | append (x : T)
  | setLimit (limit : ℤ)
  | full
  | close
  | dequeue (c : ℕ)
  | values (c : ℕ)
  | purge (c : ℕ)
  | len (c : ℕ)
  | closeCursor (c : ℕ)

-- `items` is the answer of the calls on a cursor: at most one for Dequeue, nothing for Close.
inductive Ret (T : Type) where
  | cursor (c : ℕ)
  | count (n : ℕ)
  | flag (b : Bool)
  | items (r : List (Option T))
  | done

def result : Thread T → Option (Ret T)
  | .append _ (.returned n) => some (.count n)
  | .newCursor (.returned c) => some (.cursor c)
  | .cursor _ (.returned r) => some (.items r)
  | .close true => some .done
  | _ => none

namespace Log

def slowest (s : Log T) : List ℕ → ℕ
  | [] => 0
  | c :: cs => cs.foldl (fun m d => min m (s.cursor d).offset) (s.cursor c).offset

def isFull (s : Log T) : Bool :=
  if s.limit = 0 then false else s.limit ≤ s.head - s.slowest s.opened

-- Close sets the cursor's closed flag together with its chunk.
def len (s : Log T) (c : ℕ) : ℕ := if (s.cursor c).chunk = none then 0 else s.unread c

-- One whole call, with at most f steps of its own.
def call (f : ℕ) (s : Log T) : Call T → Option (Log T × Ret T)
  | .newCursor => (program T).alone () result f s (.newCursor (.lock false))
  | .newConsumer => (program T).alone () result f s (.newCursor (.lock true))
  | .append x => (program T).alone () result f s (.append x .loadLimit)
  | .close => (program T).alone () result f s (.close false)
  | .dequeue c => (program T).alone () result f s (.cursor c (.lock .dequeue))
  | .values c => (program T).alone () result f s (.cursor c (.lock .values))
  | .purge c => (program T).alone () result f s (.cursor c (.lock .purge))
  | .closeCursor c => (program T).alone () result f s (.cursor c (.lock .close))
  | .setLimit n => if s.mx then none else some ({ s with limit := (max 0 n).toNat },.done)
  | .full => if s.mx then none else some (s,.flag (s.opened ≠ [] && s.isFull))
  | .len c => some (s,.count (s.len c))

def calls (f : ℕ) (s : Log T) : List (Call T) → Option (Log T × List (Ret T))
  | [] => some (s,[])
  | a :: as =>
      match s.call f a with
      | none => none
      | some (s',r) => (s'.calls f as).map fun (u,rs) => (u,r :: rs)

end Log

structure Reader where
  offset : ℕ
  isOpen : Bool
  consume : Bool
  deriving DecidableEq, Repr

-- What the log is for: one list of items, and the readers' offsets in it.
structure Plain (T : Type) where
  items : List T
  limit : ℕ
  closed : Bool
  readers : List Reader

namespace Plain

def new (limit : ℕ) : Plain T := ⟨[],limit,false,[]⟩

def full (r : Plain T) : Bool :=
  r.limit ≠ 0 && r.readers.any fun c => c.isOpen && r.limit ≤ r.items.length - c.offset

def nOpen (r : Plain T) : ℕ := r.readers.countP Reader.isOpen

-- A consumer is the only cursor its log ever has.
def mayOpen (r : Plain T) (consume : Bool) : Bool :=
  if consume then r.readers = [] else r.readers.all fun c => !c.consume

def openReader (r : Plain T) (consume : Bool) : Option (Plain T × Ret T) :=
  if r.mayOpen consume then
    some ({ r with readers := r.readers ++ [⟨r.items.length,true,consume⟩] },
      .cursor r.readers.length)
  else none

def turn (r : Plain T) (c : ℕ) (f : Reader → Reader × List (Option T)) :
    Option (Plain T × Ret T) :=
  r.readers[c]?.map fun rd =>
    if rd.isOpen then ({ r with readers := r.readers.set c (f rd).1 },.items (f rd).2)
    else (r,.items [])

def rest (r : Plain T) (rd : Reader) : List (Option T) := (r.items.drop rd.offset).map some

-- None for a cursor that does not exist or may not be opened.
def call (r : Plain T) : Call T → Option (Plain T × Ret T)
  | .newCursor => r.openReader false
  | .newConsumer => r.openReader true
  | .append x =>
      some (if r.closed || r.nOpen = 0 || r.full then (r,.count 0)
        else ({ r with items := r.items ++ [x] },.count r.nOpen))
  | .setLimit n => some ({ r with limit := (max 0 n).toNat },.done)
  | .full => some (r,.flag r.full)
  | .close => some ({ r with closed := true },.done)
  | .dequeue c => r.turn c fun rd =>
      match r.items[rd.offset]? with
      | some x => ({ rd with offset := rd.offset + 1 },[some x])
      | none => (rd,[])
  | .values c => r.turn c fun rd => (rd,r.rest rd)
  | .purge c => r.turn c fun rd =>
      ({ rd with offset := r.items.length },if rd.consume then r.rest rd else [])
  | .len c => r.readers[c]?.map fun rd =>
      (r,.count (if rd.isOpen then r.items.length - rd.offset else 0))
  | .closeCursor c => r.turn c fun rd => ({ rd with isOpen := false },[])

def calls (r : Plain T) : List (Call T) → Option (Plain T × List (Ret T))
  | [] => some (r,[])
  | a :: as =>
      match r.call a with
      | none => none
      | some (r',x) => (r'.calls as).map fun (u,xs) => (u,x :: xs)

end Plain

end Varmq.Topics
