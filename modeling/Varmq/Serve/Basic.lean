import Mathlib.Logic.Function.Basic
import Varmq.Interleaving.World

namespace Varmq.Serve

open Interleaving

-- A number stands for the item of a Send or for the batch of a SendBatch.
structure Payload where
  data : ℕ
  batch : Option ℕ
  ok : Bool
  deriving DecidableEq,Repr

def Payload.items (p : Payload) : ℕ := p.batch.getD p.data

-- The pool's stack of idle nodes, its sync.Pool as a bag, every node's channel of capacity 1;
-- sent numbers the payloads and ran lists those handed to fn.
structure Shared where
  idle : List ℕ
  cache : List ℕ
  nodes : ℕ
  chan : ℕ → Option Payload
  sent : ℕ
  ran : List ℕ

inductive Choice where
  | go
  | no
  | pick (i : ℕ)
  deriving DecidableEq,Repr

namespace Shared

def pushNode (s : Shared) (n : ℕ) : Shared := { s with idle := n :: s.idle }

def put (s : Shared) (n : ℕ) : Shared := { s with cache := n :: s.cache }

-- wc.ch <- p, which waits while the channel is full
def offer (s : Shared) (n : ℕ) (p : Payload) : Option Shared :=
  match s.chan n with
  | none => some { s with chan := Function.update s.chan n (some p) }
  | some _ => none

def take (s : Shared) (n : ℕ) : Shared := { s with chan := Function.update s.chan n none }

def send (s : Shared) (n : ℕ) : Option Shared :=
  { s with sent := s.sent + 1 }.offer n ⟨s.sent,none,true⟩

def sendBatch (s : Shared) (n : ℕ) : Option Shared :=
  { s with sent := s.sent + 1 }.offer n ⟨0,some s.sent,true⟩

def stop (s : Shared) (n : ℕ) : Option Shared := s.offer n ⟨0,none,false⟩

end Shared

-- One goroutine in Node.Serve, its fn ending in freePoolNode.
inductive Serving where
  | recv
  | fn (k : ℕ)
  | freePoolNode
  | pushNode
  | stop
  | put
  | returned
  deriving DecidableEq,Repr

def serveStep (s : Shared) (n : ℕ) : Serving → Choice → Option (Shared × Serving)
  | .recv,_ =>
      match s.chan n with
      | none => none
      | some p =>
          if p.ok then some ({ s.take n with ran := s.ran ++ [p.items] },.fn p.items)
          else some (s.take n,.returned)
  | .fn _,_ => some (s,.freePoolNode)
  -- backlog, idle workers and the expiry setting decide
  | .freePoolNode,.no => some (s,.stop)
  | .freePoolNode,_ => some (s,.pushNode)
  | .pushNode,_ => some (s.pushNode n,.recv)
  | .stop,_ => (s.stop n).map fun s' => (s',.put)
  | .put,_ => some (s.put n,.recv)
  | .returned,_ => none

inductive Taker where
  | processNextJob
  | emit
  | start
  deriving DecidableEq,Repr

inductive Taking where
  | popBack
  | get
  | serve (n : ℕ)
  | fill (n : ℕ)
  | pushNode (n : ℕ)
  | sendBatch (n : ℕ)
  | send (n : ℕ)
  | returned
  deriving DecidableEq,Repr

def taken (n : ℕ) : Taker → Taking
  | .processNextJob => .fill n
  | .emit => .send n
  | .start => .pushNode n

def takeStep (s : Shared) (a : Taker) : Taking → Choice → Option (Shared × Taking × List ℕ)
  | .popBack,c =>
      match s.idle with
      | n :: idle => some ({ s with idle := idle },taken n a,[])
      | [] =>
          match a,c with
          -- planBatch: one more goroutine is not worth spawning
          | .processNextJob,.no => some (s,.returned,[])
          | _,_ => some (s,.get,[])
  | .get,.pick i =>
      match s.cache[i]? with
      | none => none
      | some n => some ({ s with cache := s.cache.eraseIdx i },.serve n,[])
  | .get,_ => some ({ s with nodes := s.nodes + 1 },.serve s.nodes,[])
  | .serve n,_ => some (s,taken n a,[n])
  -- reserve refused, or nothing was filled
  | .fill n,.no => some (s,.pushNode n,[])
  | .fill n,_ => some (s,.sendBatch n,[])
  | .pushNode n,_ => some (s.pushNode n,.returned,[])
  | .sendBatch n,_ => (s.sendBatch n).map fun s' => (s',.returned,[])
  | .send n,_ => (s.send n).map fun s' => (s',.returned,[])
  | .returned,_ => none

inductive Remover where
  | tunePool
  | removeAllWorkers
  deriving DecidableEq,Repr

inductive Removing where
  | popBack
  | stop (n : ℕ)
  | put (n : ℕ)
  | returned
  deriving DecidableEq,Repr

def removeStep (s : Shared) (a : Remover) : Removing → Choice → Option (Shared × Removing)
  | .popBack,c =>
      match a,c with
      -- shrunk far enough, or only the idle minimum is left
      | .tunePool,.no => some (s,.returned)
      | _,_ =>
          match s.idle with
          | [] => some (s,.returned)
          | n :: idle => some ({ s with idle := idle },.stop n)
  | .stop n,_ => (s.stop n).map fun s' => (s',.put n)
  | .put n,_ => some (s.put n,.popBack)
  | .returned,_ => none

-- One tick of goRemoveIdleWorkers: Prune unlinks any nodes, then each is stopped.
inductive Pruning where
  | prune (dropped : List ℕ)
  | stop (n : ℕ) (expired : List ℕ)
  | put (n : ℕ) (expired : List ℕ)
  | returned
  deriving DecidableEq,Repr

def expire : List ℕ → Pruning
  | [] => .returned
  | n :: expired => .stop n expired

def pruneStep (s : Shared) : Pruning → Choice → Option (Shared × Pruning)
  | .prune dropped,.pick i =>
      match s.idle[i]? with
      | none => none
      | some n => some ({ s with idle := s.idle.eraseIdx i },.prune (dropped ++ [n]))
  | .prune dropped,_ => some (s,expire dropped)
  | .stop n expired,_ => (s.stop n).map fun s' => (s',.put n expired)
  | .put n expired,_ => some (s.put n,expire expired)
  | .returned,_ => none

inductive Thread where
  | serve (n : ℕ) (pc : Serving)
  | take (a : Taker) (pc : Taking)
  | remove (a : Remover) (pc : Removing)
  | prune (pc : Pruning)
  deriving DecidableEq,Repr

def entry (_ : Shared) : Thread → Bool
  | .take .start .get => true
  | .take .processNextJob .popBack => true
  | .take .emit .popBack => true
  | .remove _ .popBack => true
  | .prune (.prune []) => true
  | _ => false

def step (s : Shared) : Thread → Choice → Option (Shared × Thread × List Thread)
  | .serve n pc,c => (serveStep s n pc c).map fun (s',pc') => (s',.serve n pc',[])
  | .take a pc,c =>
      (takeStep s a pc c).map fun (s',pc',ns) => (s',.take a pc',ns.map fun n => .serve n .recv)
  | .remove a pc,c => (removeStep s a pc c).map fun (s',pc') => (s',.remove a pc',[])
  | .prune pc,c => (pruneStep s pc c).map fun (s',pc') => (s',.prune pc',[])

def program : Program Shared Thread Choice := ⟨entry,step⟩

def init : World Shared Thread := ⟨⟨[],[],0,fun _ => none,0,[]⟩,[]⟩

def reached (w : World Shared Thread) : Prop := program.Reach always init w

end Varmq.Serve
