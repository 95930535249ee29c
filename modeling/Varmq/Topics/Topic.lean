import Varmq.Topics.Frame

namespace Varmq.Topics

open Interleaving

-- sync.Once of Unsubscribe.
inductive Once where
  | fresh
  | running
  | done
  deriving DecidableEq, Repr

-- `ended` is ghost state: the head at the end of the subscription.
structure Subscription where
  worker : ℕ
  cursor : ℕ
  once : Once
  ended : Option ℕ
  deriving DecidableEq, Repr

variable {T : Type}

-- t.mx is a RWMutex: `writer` and the number of `readers`. `handles` is the heap of subscriptions,
-- which `subs` points into; the capacity is the log's limit.
structure Topic (T : Type) where
  writer : Bool
  readers : ℕ
  log : Log T
  subs : List ℕ
  closed : Bool
  handles : List Subscription

namespace Topic

def handle (s : Topic T) (k : ℕ) : Subscription := s.handles.getD k ⟨0,0,.done,none⟩

def setHandle (s : Topic T) (k : ℕ) (h : Subscription) : Topic T :=
  { s with handles := s.handles.set k h }

def cursorOf (s : Topic T) (k : ℕ) : ℕ := (s.handle k).cursor

-- The payloads a subscription has not read.
def unread (s : Topic T) (k : ℕ) : ℕ := s.log.head - (s.log.cursor (s.cursorOf k)).offset

end Topic

inductive PublishPc where
  | rlock
  | check
  | append (pc : AppendPc)
  | notify
  | runlock (r : Bool)
  | returned (r : Bool)
  deriving DecidableEq, Repr

-- The last four fields are ghost state: the subscriptions there were when the call took t.mx, whether
-- it saw the topic closed or a subscription at its capacity, and the offset it claimed.
structure Publish (T : Type) where
  data : T
  pc : PublishPc
  audience : List ℕ
  sawClosed : Bool
  sawFull : Bool
  seq : Option ℕ

def sawsFull (s : Log T) : AppendPc → Bool
  | .full (c :: _) _ => s.limit ≤ s.head - (s.cursor c).offset
  | _ => false

def claims (s : Log T) : AppendPc → Option ℕ
  | .claim _ _ _ => some s.head
  | _ => none

def publishStep (s : Topic T) (p : Publish T) : Option (Topic T × Publish T) :=
  match p.pc with
  | .rlock =>
      if s.writer then none
      else some ({ s with readers := s.readers + 1 },{ p with pc := .check, audience := s.subs })
  | .check => some (s,{ p with
      pc := if s.closed then .runlock false else .append .loadLimit, sawClosed := s.closed })
  | .append (.returned n) => some (s,{ p with pc := if n = 0 then .runlock false else .notify })
  | .append pc => (appendStep s.log p.data pc).map fun (log,pc') => ({ s with log },{ p with
      pc := .append pc', sawFull := p.sawFull || sawsFull s.log pc,
      seq := (claims s.log pc).orElse fun _ => p.seq })
  | .notify => some (s,{ p with pc := .runlock true })
  | .runlock r => some ({ s with readers := s.readers - 1 },{ p with pc := .returned r })
  | .returned _ => none

inductive SubscribePc (T : Type) where
  | lock
  | scan
  | new (pc : NewPc)
  | attach (c : ℕ)
  | inert (c : ℕ) (pc : CursorPc T)
  | unlock (r : Option ℕ)
  | returned (r : Option ℕ)

-- No handle is returned by a subscribe that panics.
def subscribeStep (s : Topic T) (worker : ℕ) :
    SubscribePc T → Option (Topic T × SubscribePc T)
  | .lock =>
      if s.writer || s.readers ≠ 0 then none else some ({ s with writer := true },.scan)
  | .scan => some (s,
      if s.subs.any fun k => (s.handle k).worker = worker then .unlock none
      else .new (.lock false))
  | .new (.returned c) => some (s,.attach c)
  | .new pc => (newStep s.log pc).map fun (log,pc') => ({ s with log },.new pc')
  | .attach c =>
      if s.closed then some (s,.inert c (.lock .close))
      else some ({ s with
        handles := s.handles ++ [⟨worker,c,.fresh,none⟩], subs := s.subs ++ [s.handles.length] },
        .unlock (some s.handles.length))
  | .inert c (.returned _) =>
      some ({ s with handles := s.handles ++ [⟨worker,c,.fresh,some s.log.head⟩] },
        .unlock (some s.handles.length))
  | .inert c pc => (cursorStep s.log c pc).map fun (log,pc') => ({ s with log },.inert c pc')
  | .unlock r => some ({ s with writer := false },.returned r)
  | .returned _ => none

inductive UnsubscribePc (T : Type) where
  | once
  | lock
  | close (c : ℕ) (pc : CursorPc T)
  | delete
  | unlock
  | removeSource
  | next
  | returned

def unsubscribeStep (s : Topic T) (k : ℕ) :
    UnsubscribePc T → Option (Topic T × UnsubscribePc T)
  | .once =>
      match (s.handle k).once with
      | .fresh => some (s.setHandle k { s.handle k with once := .running },.lock)
      | .running => none
      | .done => some (s,.next)
  | .lock =>
      if s.writer || s.readers ≠ 0 then none
      else some ({ s with writer := true },.close (s.cursorOf k) (.lock .close))
  | .close _ (.returned _) => some (s,.delete)
  | .close c pc => (cursorStep s.log c pc).map fun (log,pc') => ({ s with log },.close c pc')
  | .delete =>
      let ended := if k ∈ s.subs then some s.log.head else (s.handle k).ended
      some ({ s.setHandle k { s.handle k with ended } with subs := s.subs.filter (· ≠ k) },.unlock)
  | .unlock => some ({ s with writer := false },.removeSource)
  | .removeSource => some (s.setHandle k { s.handle k with once := .done },.next)
  | .next | .returned => none

inductive ClosePc where
  | lock
  | close
  | unlock (subs : List ℕ)
  | returned
  deriving DecidableEq, Repr

def closeStep (s : Topic T) : ClosePc → Option (Topic T × ClosePc)
  | .lock => if s.writer || s.readers ≠ 0 then none else some ({ s with writer := true },.close)
  | .close => some ({ s with closed := true },.unlock (if s.closed then [] else s.subs))
  | .unlock _ => some ({ s with writer := false },.returned)
  | .returned => none

namespace Fanout

-- Close unsubscribes its subscriptions one after the other.
inductive Thread (T : Type) where
  | publish (p : Publish T)
  | subscribe (worker : ℕ) (pc : SubscribePc T)
  | unsubscribe (k : ℕ) (rest : List ℕ) (pc : UnsubscribePc T)
  | close (pc : ClosePc)
  | purge (c : ℕ) (pc : CursorPc T)
  | read (c : ℕ) (pc : CursorPc T)

def start : List ℕ → Thread T
  | [] => .close .returned
  | k :: rest => .unsubscribe k rest .once

def step (s : Topic T) : Thread T → Unit → Option (Topic T × Thread T × List (Thread T))
  | .publish p, _ => (publishStep s p).map fun (s',p') => (s',.publish p',[])
  | .subscribe w pc, _ => (subscribeStep s w pc).map fun (s',pc') => (s',.subscribe w pc',[])
  | .unsubscribe k rest .next, _ =>
      some (s,if rest = [] then .unsubscribe k [] .returned else start rest,[])
  | .unsubscribe k rest pc, _ =>
      (unsubscribeStep s k pc).map fun (s',pc') => (s',.unsubscribe k rest pc',[])
  | .close (.unlock subs), _ =>
      (closeStep s (.unlock subs)).map fun (s',_) => (s',start subs,[])
  | .close pc, _ => (closeStep s pc).map fun (s',pc') => (s',.close pc',[])
  | .purge c pc, _ =>
      (cursorStep s.log c pc).map fun (log,pc') => ({ s with log },.purge c pc',[])
  | .read c pc, _ => (cursorStep s.log c pc).map fun (log,pc') => ({ s with log },.read c pc',[])

def entry (s : Topic T) : Thread T → Bool
  | .publish ⟨_,.rlock,[],false,false,none⟩ => true
  | .subscribe _ .lock => true
  | .unsubscribe k [] .once => k < s.handles.length
  | .close .lock => true
  | .purge c (.lock .purge) | .read c (.lock .dequeue) => c ∈ s.handles.map Subscription.cursor
  | _ => false

def program (T : Type) : Program (Topic T) (Thread T) Unit := ⟨entry,step⟩

def world (s : Topic T) : World (Topic T) (Thread T) := ⟨s,[]⟩

end Fanout

end Varmq.Topics
