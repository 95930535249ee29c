import Varmq.Lifecycle.Counters
import Varmq.Wakeup.Basic

namespace Varmq.Shutdown

open Interleaving
open Varmq.Worker (Status)
open Varmq.Wakeup (Config TuneError withSafeConcurrency numMinIdleWorkers)

-- `idle` are the nodes linked in the pool, the top one first, and `len` is its counter; `spawned`
-- has an entry for each goroutine started on a node, `stops` one for each Stop payload sent to it.
structure Shared where
  core : Lifecycle.Shared
  idle : List ℕ
  len : ℕ
  popMx : Bool
  cache : List ℕ
  nodes : ℕ
  spawned : List ℕ
  stops : List ℕ
  deriving DecidableEq, Repr

inductive Choice where
  | core (c : Lifecycle.Choice)
  | go
  | get (cached : Option ℕ)
  | pending (n : ℕ)
  | flag (b : Bool)
  deriving DecidableEq, Repr

-- What a goroutine of the worker does with the pool at the point it has reached.
inductive Point where
  | off
  | plan
  | emit
  | send
  | giveBack
  | free
  | init
  | clear
  deriving DecidableEq, Repr

def point : Lifecycle.Thread → Point
  | .loop _ .plan => .plan
  | .loop _ (.emitBusy _) => .emit
  | .loop _ (.send _ _) | .loop _ (.emitSend _) => .send
  | .loop _ (.giveBack _ _) => .giveBack
  | .loop _ .removeAll => .clear
  | .batch (.free _) => .free
  | .start .push | .restart (.start .push) => .init
  | _ => .off

-- `missed` is a PopBack that returned nil, `unlinked` one that has len still to lower, `counted` a
-- PushNode that has the node still to link; `released` is a node pushed, or stopped and cached.
inductive Hand where
  | empty
  | missed
  | unlinked (id : ℕ)
  | node (id : ℕ)
  | freeLen (id pending : ℕ)
  | idleLen (id : ℕ)
  | minIdle (id len : ℕ)
  | keep (id : ℕ)
  | drop (id : ℕ)
  | counted (id : ℕ)
  | stopped (id : ℕ)
  | released
  deriving DecidableEq, Repr

def popBack (s : Shared) : Option (Shared × Hand) :=
  if s.popMx then none
  else match s.idle with
    | [] => some (s,.missed)
    | id :: rest => some ({ s with idle := rest, popMx := true },.unlinked id)

-- Cache.Get returns a node put there before or a new one.
def initPoolNode (s : Shared) : Option ℕ → Option (Shared × Hand)
  | none => some ({ s with nodes := s.nodes + 1, spawned := s.nodes :: s.spawned },.node s.nodes)
  | some id =>
      if s.cache.contains id then
        some ({ s with cache := s.cache.erase id, spawned := id :: s.spawned },.node id)
      else none

def handStep (cfg : Config) (s : Shared) (p : Point) : Hand → Choice → Option (Shared × Hand)
  | .empty, .go => match p with
      | .plan | .emit | .clear => popBack s
      | _ => none
  | .empty, .get o => if p = .init then initPoolNode s o else none
  | .missed, .get o => if p = .plan ∨ p = .emit then initPoolNode s o else none
  | .unlinked id, .go => some ({ s with len := s.len - 1, popMx := false },.node id)
  | .node id, .go => match p with
      | .giveBack | .init => some (s,.keep id)
      | .clear => some (s,.drop id)
      | _ => none
  | .node id, .pending n => if p = .free then some (s,.freeLen id n) else none
  | .freeLen id n, .go => some (s,if s.len < n ∨ cfg.expires then .keep id else .idleLen id)
  | .idleLen id, .go => some (s,.minIdle id s.len)
  | .minIdle id len, .go =>
      some (s,if len < numMinIdleWorkers cfg s.core.concurrency then .keep id else .drop id)
  | .keep id, .go => some ({ s with len := s.len + 1 },.counted id)
  | .counted id, .go => some ({ s with idle := id :: s.idle },.released)
  | .drop id, .go => some ({ s with stops := id :: s.stops },.stopped id)
  | .stopped id, .go =>
      some ({ s with cache := id :: s.cache },if p = .clear then .empty else .released)
  | _, _ => none

-- What the goroutine holds after its next step of the worker, if it may take it.
def advance : Point → Hand → Lifecycle.Choice → Option Hand
  | .off, h, _ => some h
  | .plan, .missed, .pick 0 => some .empty
  | .plan, .node id, .pick (_ + 1) => some (.node id)
  | .emit, .node id, _ => some (.node id)
  | .send, .node _, _ => some .empty
  | .giveBack, .released, _ | .free, .released, _ | .init, .released, _ => some .empty
  | .clear, .missed, _ => some .empty
  | _, _, _ => none

inductive TunePc where
  | active (concurrency : ℤ)
  | err
  | load (concurrency : ℤ)
  | store (old safe : ℕ)
  | notify
  | minIdle (shrink : ℕ)
  | len (shrink min : ℕ)
  | popBack (shrink min : ℕ)
  | popLen (shrink min id : ℕ)
  | stop (shrink min id : ℕ)
  | put (shrink min id : ℕ)
  | returned (r : Option TuneError)
  deriving DecidableEq, Repr

def tunePoolStep (cfg : Config) (s : Shared) : TunePc → Option (Shared × TunePc)
  | .active n => some (s,if s.core.status.isActive then .load n else .err)
  | .err => some (s,.returned (some (.status s.core.status.getStatusError)))
  | .load n =>
      let safe := withSafeConcurrency cfg n
      some (s,if s.core.concurrency = safe then .returned (some .sameConcurrency)
        else .store s.core.concurrency safe)
  | .store old safe =>
      some ({ s with core := { s.core with concurrency := safe } },
        if old < safe then .notify else if cfg.expires then .returned none
        else .minIdle (old - safe))
  | .notify => some ({ s with core := { s.core with signal := true } },.returned none)
  | .minIdle shrink => some (s,.len shrink (numMinIdleWorkers cfg s.core.concurrency))
  | .len shrink m => some (s,if 0 < shrink ∧ s.len ≠ m then .popBack shrink m else .returned none)
  | .popBack shrink m =>
      if s.popMx then none
      else match s.idle with
        | [] => some (s,.returned none)
        | id :: rest => some ({ s with idle := rest, popMx := true },.popLen shrink m id)
  | .popLen shrink m id => some ({ s with len := s.len - 1, popMx := false },.stop shrink m id)
  | .stop shrink m id => some ({ s with stops := id :: s.stops },.put shrink m id)
  | .put shrink m id => some ({ s with cache := id :: s.cache },.len (shrink - 1) m)
  | .returned _ => none

-- One tick of goRemoveIdleWorkers; Prune holds popMx while it scans, and `stop` sends the payloads.
inductive PrunePc where
  | target
  | len (target : ℕ)
  | prune (keep : ℕ)
  | scan (todo dropped : List ℕ)
  | scanLen (todo dropped : List ℕ)
  | stop (dropped : List ℕ)
  | put (id : ℕ) (dropped : List ℕ)
  | done
  deriving DecidableEq, Repr

-- The flag says whether the node is expired.
def pruneStep (cfg : Config) (s : Shared) : PrunePc → Choice → Option (Shared × PrunePc)
  | .target, .go => some (s,.len (numMinIdleWorkers cfg s.core.concurrency))
  | .len target, .go => some (s,if s.len ≤ target then .done else .prune target)
  | .prune keep, .go =>
      if s.popMx then none
      else some ({ s with popMx := true },.scan (s.idle.take (s.idle.length - keep)) [])
  | .scan (_ :: todo) dropped, .flag false => some (s,.scan todo dropped)
  | .scan (id :: todo) dropped, .flag true =>
      some ({ s with idle := s.idle.erase id },.scanLen todo (dropped ++ [id]))
  | .scanLen todo dropped, .go => some ({ s with len := s.len - 1 },.scan todo dropped)
  | .scan [] dropped, .go => some ({ s with popMx := false },.stop dropped)
  | .stop (id :: dropped), .go => some ({ s with stops := id :: s.stops },.put id dropped)
  | .put id dropped, .go => some ({ s with cache := id :: s.cache },.stop dropped)
  | .stop [], .go => some (s,.done)
  | _, _ => none

inductive Thread where
  | call (t : Lifecycle.Thread) (hand : Hand)
  | tunePool (pc : TunePc)
  | prune (pc : PrunePc)
  deriving DecidableEq, Repr

-- A hand-off passes the node on with the batch.
def passed (p : Point) (h : Hand) : Hand := if p = .send then h else .empty

def callStep (cfg : Config) (s : Shared) (t : Lifecycle.Thread) (h : Hand) :
    Choice → Option (Shared × Thread × List Thread)
  | .core c =>
      match advance (point t) h c with
      | none => none
      | some h' => (Lifecycle.step s.core t c).map fun (core,t',new) =>
          ({ s with core := core },.call t' h',new.map fun u => .call u (passed (point t) h))
  | c => (handStep cfg s (point t) h c).map fun (s',h') => (s',.call t h',[])

def step (cfg : Config) (s : Shared) : Thread → Choice → Option (Shared × Thread × List Thread)
  | .call t h, c => callStep cfg s t h c
  | .tunePool pc, .go => (tunePoolStep cfg s pc).map fun (s',pc') => (s',.tunePool pc',[])
  | .prune pc, c => (pruneStep cfg s pc c).map fun (s',pc') => (s',.prune pc',[])
  | _, _ => none

def entry (cfg : Config) (s : Shared) : Thread → Bool
  | .call (.tunePool _ _) _ => false
  | .call t .empty => Lifecycle.entry s.core t
  | .tunePool (.active _) => true
  | .prune .target => cfg.expires
  | _ => false

def program (cfg : Config) : Program Shared Thread Choice := ⟨entry cfg,step cfg⟩

def newWorker (cfg : Config) (concurrency : ℤ) : World Shared Thread :=
  ⟨{ core := (Lifecycle.newWorker (withSafeConcurrency cfg concurrency)).shared, idle := [],
     len := 0, popMx := false, cache := [], nodes := 0, spawned := [], stops := [] },[]⟩

variable {cfg : Config} {s s' : Shared} {l l' : Thread} {c : Choice} {new : List Thread}

inductive Act (cfg : Config) (s : Shared) : Thread → Shared → Thread → List Thread → Prop
  | call {c : Lifecycle.Choice} {core : Lifecycle.Shared} {t t' : Lifecycle.Thread} {h h' : Hand}
      {ls : List Lifecycle.Thread} (ha : advance (point t) h c = some h')
      (hp : Lifecycle.step s.core t c = some (core,t',ls)) :
      Act cfg s (.call t h) { s with core := core } (.call t' h')
        (ls.map fun u => .call u (passed (point t) h))
  | hand {c : Choice} {s' : Shared} {t : Lifecycle.Thread} {h h' : Hand}
      (hh : handStep cfg s (point t) h c = some (s',h')) : Act cfg s (.call t h) s' (.call t h') []
  | tunePool {s' : Shared} {pc pc' : TunePc} (hp : tunePoolStep cfg s pc = some (s',pc')) :
      Act cfg s (.tunePool pc) s' (.tunePool pc') []
  | prune {c : Choice} {s' : Shared} {pc pc' : PrunePc} (hp : pruneStep cfg s pc c = some (s',pc')) :
      Act cfg s (.prune pc) s' (.prune pc') []

theorem step_act (hs : step cfg s l c = some (s',l',new)) : Act cfg s l s' l' new := by
  cases l with
  | call t h =>
    cases c with
    | core c =>
      simp only [step,callStep] at hs
      split at hs
      · cases hs
      · obtain ⟨⟨core,t',ls⟩,hp,heq⟩ := Option.map_eq_some_iff.mp hs
        cases heq
        exact .call ‹_› hp
    | _ =>
      obtain ⟨⟨s₁,h'⟩,hh,heq⟩ := Option.map_eq_some_iff.mp hs
      cases heq
      exact .hand hh
  | tunePool pc =>
    cases c with
    | go =>
      obtain ⟨⟨s₁,pc'⟩,hp,heq⟩ := Option.map_eq_some_iff.mp hs
      cases heq
      exact .tunePool hp
    | _ => cases hs
  | prune pc =>
    obtain ⟨⟨s₁,pc'⟩,hp,heq⟩ := Option.map_eq_some_iff.mp hs
    cases heq
    exact .prune hp

end Varmq.Shutdown
