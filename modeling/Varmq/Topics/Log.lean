import Varmq.Interleaving.World
import Varmq.Interleaving.Total

namespace Varmq.Topics

open Interleaving

def chunkCapacity : ℕ := 1024

def linkSpins : ℕ := 4

-- In data none is T's zero value; next points into the list of all chunks.
structure Chunk (T : Type) where
  base : ℕ
  data : List (Option T)
  ready : List Bool
  next : Option ℕ
  linking : Bool

variable {T : Type}

def newChunk (base : ℕ) : Chunk T :=
  ⟨base,.replicate chunkCapacity none,.replicate chunkCapacity false,none,false⟩

def Chunk.end_ (ch : Chunk T) : ℕ := ch.base + ch.data.length

-- What a cursor has done with the offsets it passed.
inductive Turn (T : Type) where
  | item (x : Option T)
  | skip (n : ℕ)

-- The last four fields are ghost state: where the cursor started, the first slot it has not taken
-- out of the log, what it handed out or skipped, and what Values showed from which offset on.
structure Cursor (T : Type) where
  mx : Bool
  chunk : Option ℕ
  idx : ℕ
  offset : ℕ
  consume : Bool
  start : ℕ
  front : ℕ
  history : List (Turn T)
  shown : List (ℕ × List (Option T))

-- `chunks` and `cursors` are the heap; `claims` is ghost state: the items by claimed offset.
structure Log (T : Type) where
  mx : Bool
  tail : Option ℕ
  opened : List ℕ
  nOpen : ℕ
  limit : ℕ
  head : ℕ
  closed : Bool
  chunks : List (Chunk T)
  cursors : List (Cursor T)
  claims : List T

def newBoundedLog (limit : ℕ) : Log T := ⟨false,none,[],0,limit,0,false,[],[],[]⟩

def newLog : Log T := newBoundedLog 0

def noCursor : Cursor T := ⟨false,none,0,0,false,0,0,[],[]⟩

namespace Log

def chunk (s : Log T) (t : ℕ) : Chunk T := s.chunks.getD t (newChunk 0)

def cursor (s : Log T) (c : ℕ) : Cursor T := s.cursors.getD c noCursor

def setChunk (s : Log T) (t : ℕ) (ch : Chunk T) : Log T := { s with chunks := s.chunks.set t ch }

def setCursor (s : Log T) (c : ℕ) (cur : Cursor T) : Log T :=
  { s with cursors := s.cursors.set c cur }

-- t.next takes a new chunk.
def linkNext (s : Log T) (t : ℕ) : Log T :=
  { s with chunks := s.chunks.set t { s.chunk t with next := some s.chunks.length } ++
    [newChunk (s.chunk t).end_] }

def setData (s : Log T) (t i : ℕ) (x : Option T) : Log T :=
  s.setChunk t { s.chunk t with data := (s.chunk t).data.set i x }

def setReady (s : Log T) (t i : ℕ) : Log T :=
  s.setChunk t { s.chunk t with ready := (s.chunk t).ready.set i true }

-- The first cursor makes the first chunk.
def firstChunk (s : Log T) : Log T :=
  { s with chunks := s.chunks ++ [newChunk s.head], tail := some s.chunks.length }

-- The end of NewCursor and of Close, under l.mx.
def register (s : Log T) (consume : Bool) (t head : ℕ) : Log T :=
  { s with
    cursors := s.cursors ++
      [⟨false,some t,head - (s.chunk t).base,head,consume,head,head,[],[]⟩],
    opened := s.opened ++ [s.cursors.length], nOpen := s.nOpen + 1 }

def remove (s : Log T) (c : ℕ) : Log T :=
  { s with opened := s.opened.filter (· ≠ c), nOpen := (s.opened.filter (· ≠ c)).length }

end Log

-- An offset in hand: whether its Append holds l.mx, and the number of cursors it will return.
structure Claim where
  locked : Bool
  n : ℕ
  offset : ℕ
  deriving DecidableEq, Repr

inductive AppendPc where
  | loadLimit
  | lock
  | check
  | full (rest : List ℕ) (slowest : Option ℕ)
  | loadOpen (locked : Bool)
  | loadClosed (locked : Bool) (n : ℕ)
  | loadTail (locked : Bool) (n : ℕ)
  | claim (locked : Bool) (n t : ℕ)
  | next (a : Claim) (t spins : ℕ)
  | link (a : Claim) (t spins : ℕ)
  | grow (a : Claim) (t spins : ℕ)
  | advance (a : Claim) (t nx spins : ℕ)
  | write (a : Claim) (t : ℕ)
  | publish (a : Claim) (t : ℕ)
  | unlock (n : ℕ)
  | returned (n : ℕ)
  deriving DecidableEq, Repr

def finish (locked : Bool) (n : ℕ) : AppendPc := if locked then .unlock n else .returned n

def slower (slowest : Option ℕ) (o : ℕ) : ℕ := (slowest.map (min o)).getD o

-- A tail that is still nil would be a nil dereference: no step.
def appendStep (s : Log T) (x : T) : AppendPc → Option (Log T × AppendPc)
  | .loadLimit => some (s,if s.limit = 0 then .loadOpen false else .lock)
  | .lock => if s.mx then none else some ({ s with mx := true },.check)
  | .check => some (s,if s.closed ∨ s.opened = [] then .unlock 0 else .full s.opened none)
  | .full (c :: rest) m => some (s,.full rest (some (slower m (s.cursor c).offset)))
  | .full [] m => some (s,if s.limit ≤ s.head - m.getD 0 then .unlock 0 else .loadOpen true)
  | .loadOpen b => some (s,.loadClosed b s.nOpen)
  | .loadClosed b n => some (s,if s.closed ∨ n = 0 then finish b 0 else .loadTail b n)
  | .loadTail b n => s.tail.map fun t => (s,.claim b n t)
  | .claim b n t =>
      some ({ s with head := s.head + 1, claims := s.claims ++ [x] },.next ⟨b,n,s.head⟩ t 0)
  | .next a t k =>
      if a.offset < (s.chunk t).end_ then some (s,.write a t)
      else
        match (s.chunk t).next with
        | none => some (s,.link a t k)
        | some nx => some (s,.advance a t nx k)
  | .link a t k =>
      if (s.chunk t).linking = false then
        some (s.setChunk t { s.chunk t with linking := true },.grow a t k)
      else if k = linkSpins then some (s,.grow a t k)
      else some (s,.next a t (k + 1))
  | .grow a t k =>
      some (if (s.chunk t).next = none then s.linkNext t else s,.next a t k)
  | .advance a t nx k =>
      some ({ s with tail := if s.tail = some t then some nx else s.tail },.next a nx k)
  | .write a t => some (s.setData t (a.offset - (s.chunk t).base) (some x),.publish a t)
  | .publish a t =>
      some (s.setReady t (a.offset - (s.chunk t).base),finish a.locked a.n)
  | .unlock n => some ({ s with mx := false },.returned n)
  | .returned _ => none

inductive NewPc where
  | lock (consume : Bool)
  | ensure (consume : Bool)
  | seekTail (consume : Bool)
  | seekHead (consume : Bool) (t : ℕ)
  | register (consume : Bool) (t head : ℕ)
  | unlock (c : ℕ)
  | returned (c : ℕ)
  deriving DecidableEq, Repr

-- A consumer must be the log's only cursor.
def mayOpen (s : Log T) (consume : Bool) : Bool :=
  if consume then s.opened = [] else s.opened.all fun c => !(s.cursor c).consume

def newStep (s : Log T) : NewPc → Option (Log T × NewPc)
  | .lock b => if s.mx || !mayOpen s b then none else some ({ s with mx := true },.ensure b)
  | .ensure b =>
      some (if s.tail = none then s.firstChunk else s,.seekTail b)
  | .seekTail b => s.tail.map fun t => (s,.seekHead b t)
  | .seekHead b t => some (s,.register b t s.head)
  | .register b t h => some (s.register b t h,.unlock s.cursors.length)
  | .unlock c => some ({ s with mx := false },.returned c)
  | .returned _ => none

inductive Op where
  | dequeue
  | values
  | purge
  | close
  deriving DecidableEq, Repr

-- `each`: up to which offset it goes and where it is.
structure Each (T : Type) where
  stop : ℕ
  off : ℕ
  chunk : ℕ
  idx : ℕ
  out : List (Option T)

inductive CursorPc (T : Type) where
  | lock (op : Op)
  | look
  | claimed
  | take
  | advance (x : Option T)
  | loadEnd (clear : Bool)
  | each (clear : Bool) (e : Each T)
  | visit (clear : Bool) (e : Each T)
  | move (e : Each T)
  | seekTail
  | seekHead (t : ℕ)
  | seek (t head : ℕ)
  | lockLog
  | remove
  | unlockLog
  | unlock (r : List (Option T))
  | returned (r : List (Option T))

def opened (cur : Cursor T) : Op → CursorPc T
  | .dequeue => .look
  | .values => .loadEnd false
  | .purge => if cur.consume then .loadEnd true else .seekTail
  | .close => .lockLog

def cursorStep (s : Log T) (c : ℕ) : CursorPc T → Option (Log T × CursorPc T)
  | .lock op =>
      let cur := s.cursor c
      if cur.mx then none
      else if cur.chunk = none then some (s.setCursor c { cur with mx := true },.unlock [])
      else some (s.setCursor c { cur with
        mx := true, chunk := if op = .close then none else cur.chunk },opened cur op)
  | .look =>
      let cur := s.cursor c
      match cur.chunk with
      | none => none
      | some t =>
          if (s.chunk t).data.length ≤ cur.idx then
            match (s.chunk t).next with
            | none => some (s,.claimed)
            | some nx => some (s.setCursor c { cur with
                chunk := some nx, idx := cur.idx - (s.chunk t).data.length },.look)
          else some (s,if (s.chunk t).ready.getD cur.idx false then .take else .claimed)
  | .claimed => some (s,if (s.cursor c).offset < s.head then .look else .unlock [])
  | .take =>
      let cur := s.cursor c
      match cur.chunk with
      | none => none
      | some t =>
          let s' := if cur.consume then s.setData t cur.idx none else s
          some (s'.setCursor c { cur with idx := cur.idx + 1, front := cur.front + 1 },
            .advance ((s.chunk t).data.getD cur.idx none))
  | .advance x =>
      let cur := s.cursor c
      some (s.setCursor c { cur with
        offset := cur.offset + 1, history := cur.history ++ [.item x] },.unlock [x])
  | .loadEnd b =>
      let cur := s.cursor c
      cur.chunk.map fun t => (s,.each b ⟨s.head,cur.offset,t,cur.idx,[]⟩)
  | .each b e =>
      if e.stop ≤ e.off then
        if b then some (s,.move e)
        else
          let cur := s.cursor c
          some (s.setCursor c { cur with shown := cur.shown ++ [(cur.offset,e.out)] },.unlock e.out)
      else if (s.chunk e.chunk).data.length ≤ e.idx then
        match (s.chunk e.chunk).next with
        | none => some (s,.each b e)
        | some nx => some (s,.each b { e with
            chunk := nx, idx := e.idx - (s.chunk e.chunk).data.length })
      else some (s,if (s.chunk e.chunk).ready.getD e.idx false then .visit b e else .each b e)
  | .visit b e =>
      let cur := s.cursor c
      let x := (s.chunk e.chunk).data.getD e.idx none
      let e' := { e with off := e.off + 1, idx := e.idx + 1, out := e.out ++ [x] }
      if b then some ((s.setData e.chunk e.idx none).setCursor c { cur with front := cur.front + 1 },
        .each b e')
      else some (s,.each b e')
  | .move e =>
      let cur := s.cursor c
      some (s.setCursor c { cur with
        chunk := some e.chunk, idx := e.idx, offset := e.stop,
        history := cur.history ++ e.out.map .item },.unlock e.out)
  | .seekTail => s.tail.map fun t => (s,.seekHead t)
  | .seekHead t => some (s,.seek t s.head)
  | .seek t h =>
      let cur := s.cursor c
      some (s.setCursor c { cur with
        chunk := some t, idx := h - (s.chunk t).base, offset := h, front := h,
        history := cur.history ++ [.skip (h - cur.offset)] },.unlock [])
  | .lockLog => if s.mx then none else some ({ s with mx := true },.remove)
  | .remove => some (s.remove c,.unlockLog)
  | .unlockLog => some ({ s with mx := false },.unlock [])
  | .unlock r => some (s.setCursor c { s.cursor c with mx := false },.returned r)
  | .returned _ => none

inductive Thread (T : Type) where
  | append (x : T) (pc : AppendPc)
  | newCursor (pc : NewPc)
  | cursor (c : ℕ) (pc : CursorPc T)
  | close (done : Bool)

def step (s : Log T) : Thread T → Unit → Option (Log T × Thread T × List (Thread T))
  | .append x pc, _ => (appendStep s x pc).map fun (s',pc') => (s',.append x pc',[])
  | .newCursor pc, _ => (newStep s pc).map fun (s',pc') => (s',.newCursor pc',[])
  | .cursor c pc, _ => (cursorStep s c pc).map fun (s',pc') => (s',.cursor c pc',[])
  | .close false, _ => some ({ s with closed := true },.close true,[])
  | .close true, _ => none

def entry (s : Log T) : Thread T → Bool
  | .append _ .loadLimit | .newCursor (.lock _) | .close false => true
  | .cursor c (.lock _) => c < s.cursors.length
  | _ => false

def program (T : Type) : Program (Log T) (Thread T) Unit := ⟨entry,step⟩

def start (s : Log T) : World (Log T) (Thread T) := ⟨s,[]⟩

end Varmq.Topics
