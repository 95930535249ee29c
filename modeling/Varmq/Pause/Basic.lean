import Mathlib.Logic.Function.Basic
import Varmq.Interleaving.World
import Varmq.Park.Basic

namespace Varmq.Pause

open Interleaving
open Varmq.Park (Stamp Holder ParkedBatch Parked mayHold rest)

-- A function a queue calls after a Pause or Resume: `ours` are those the worker bound it with.
structure Hook where
  ours : Bool
  id : ℕ
  deriving DecidableEq, Repr

structure Shared (J : Type) where
  paused : ℕ → Bool
  notifyMu : ℕ → Bool
  hooks : ℕ → List Hook
  gens : ℕ → ℕ
  parkMx : Bool
  parked : Parked J

inductive NotifyPc where
  | lock
  | load
  | copy (paused : Bool)
  | live (paused : Bool) (hs : List Hook)
  | call (paused : Bool) (h : Hook) (hs : List Hook)
  | unlock
  | returned
  deriving DecidableEq, Repr

inductive ParkPc where
  | lock
  | stale
  | append
  | held
  | store
  | count
  | unlock
  | returned
  deriving DecidableEq, Repr

inductive UnparkPc where
  | lock
  | sort
  | held (i : ℕ)
  | take (i : ℕ)
  | unlock
  | returned
  deriving DecidableEq, Repr

inductive PurgePc where
  | bump
  | lock
  | drop
  | unlock
  | returned
  deriving DecidableEq, Repr

-- The section of unheld starts at `lock`.
inductive PendingPc (J : Type) where
  | nParked
  | parkHeld (n : ℕ)
  | lock
  | clear
  | scan (todo : List (ParkedBatch J)) (n : ℕ) (held : Bool)
  | store (n : ℕ)
  | unlock (n : ℕ)
  | returned (n : ℕ)
  deriving DecidableEq, Repr

-- `none` is a Pause or Resume before its compare-and-swap or swap.
inductive Thread (J : Type) where
  | pause (q : ℕ) (pc : Option NotifyPc)
  | resume (q : ℕ) (pc : Option NotifyPc)
  | onPauseChange (q : ℕ) (h : Option Hook)
  | cancel (q : ℕ) (h : Option Hook)
  | park (jobs : List J) (stamp : Stamp) (pc : ParkPc)
  | unpark (k : ℕ) (pc : UnparkPc)
  | purge (gen : ℕ) (pc : PurgePc)
  | pending (pc : PendingPc J)
  deriving DecidableEq, Repr

inductive Choice where
  | go
  | hook (h : Hook)
  deriving DecidableEq, Repr

variable {J : Type} (notifies : ℕ → Bool)

def setParked (s : Shared J) (p : Parked J) : Shared J := { s with parked := p }

def setParkHeld (s : Shared J) (b : Bool) : Shared J :=
  setParked s { s.parked with parkHeld := b }

def lockPark (s : Shared J) : Shared J := { s with parkMx := true }

def unlockPark (s : Shared J) : Shared J := { s with parkMx := false }

def setPaused (s : Shared J) (q : ℕ) (b : Bool) : Shared J :=
  { s with paused := Function.update s.paused q b }

def setNotifyMu (s : Shared J) (q : ℕ) (b : Bool) : Shared J :=
  { s with notifyMu := Function.update s.notifyMu q b }

-- The map of hooks is copied and walked in any order; a resumed worker is only woken.
def notifyStep (s : Shared J) (q : ℕ) : NotifyPc → Choice → Option (Shared J × NotifyPc)
  | .lock, .go => if s.notifyMu q then none else some (setNotifyMu s q true,.load)
  | .load, .go => some (s,.copy (s.paused q))
  | .copy p, .go => some (s,.live p (s.hooks q))
  | .live p hs, .hook h =>
      if h ∈ hs then
        some (s,if h ∈ s.hooks q then .call p h (hs.erase h) else .live p (hs.erase h))
      else none
  | .live _ [], .go => some (s,.unlock)
  | .call p h hs, .go => some (if h.ours && p then setParkHeld s true else s,.live p hs)
  | .unlock, .go => some (setNotifyMu s q false,.returned)
  | _, _ => none

def changeStep (s : Shared J) (q : ℕ) (paused : Bool) :
    Option NotifyPc → Choice → Option (Shared J × NotifyPc)
  | none, .go =>
      some (if s.paused q = paused then (s,.returned)
        else (setPaused s q paused,if notifies q then .lock else .returned))
  | some pc, c => notifyStep s q pc c
  | none, _ => none

def parkStep (s : Shared J) (jobs : List J) (stamp : Stamp) : ParkPc → Option (Shared J × ParkPc)
  | .lock => if s.parkMx then none else some (lockPark s,.stale)
  | .stale => some (s,if stamp.stale s.gens then .unlock else .append)
  | .append =>
      some (setParked s { s.parked with batches := s.parked.batches ++ [⟨jobs,stamp⟩] },.held)
  | .held => some (s,if stamp.held s.paused || mayHold stamp then .store else .count)
  | .store => some (setParkHeld s true,.count)
  | .count =>
      some (setParked s { s.parked with
        unsorted := true, nParked := s.parked.nParked + jobs.length },.unlock)
  | .unlock => some (unlockPark s,.returned)
  | .returned => none

def unparkStep (s : Shared J) (k : ℕ) : UnparkPc → Option (Shared J × UnparkPc)
  | .lock => if s.parkMx then none else some (lockPark s,.sort)
  | .sort =>
      some (if s.parked.batches = [] then (s,.unlock)
        else (setParked s { s.parked with batches := s.parked.sorted, unsorted := false },.held 0))
  | .held i =>
      some (s,match s.parked.batches[i]? with
        | none => .unlock
        | some b => if b.stamp.held s.paused then .held (i + 1) else .take i)
  | .take i =>
      match s.parked.batches[i]? with
      | none => none
      | some b =>
          some (setParked s { s.parked with
            batches := s.parked.batches.take i ++ rest b k ++ s.parked.batches.drop (i + 1)
            nParked := s.parked.nParked - (b.jobs.take k).length },.unlock)
  | .unlock => some (unlockPark s,.returned)
  | .returned => none

def purgeStep (s : Shared J) (gen : ℕ) : PurgePc → Option (Shared J × PurgePc)
  | .bump => some ({ s with gens := Function.update s.gens gen (s.gens gen + 1) },.lock)
  | .lock => if s.parkMx then none else some (lockPark s,.drop)
  | .drop => some (setParked s (Park.dropParked gen s.parked).2,.unlock)
  | .unlock => some (unlockPark s,.returned)
  | .returned => none

def pendingStep (s : Shared J) : PendingPc J → Option (Shared J × PendingPc J)
  | .nParked =>
      some (s,if 0 < s.parked.nParked then .parkHeld s.parked.nParked
        else .returned s.parked.nParked)
  | .parkHeld n => some (s,if s.parked.parkHeld then .lock else .returned n)
  | .lock => if s.parkMx then none else some (lockPark s,.clear)
  | .clear => some (setParkHeld s false,.scan s.parked.batches 0 false)
  | .scan (b :: todo) n held =>
      some (s,if b.stamp.held s.paused then .scan todo n true
        else .scan todo (n + b.jobs.length) (held || mayHold b.stamp))
  | .scan [] n held => some (s,if held then .store n else .unlock n)
  | .store n => some (setParkHeld s true,.unlock n)
  | .unlock n => some (unlockPark s,.returned n)
  | .returned _ => none

def step (s : Shared J) : Thread J → Choice → Option (Shared J × Thread J × List (Thread J))
  | .pause q pc, c =>
      (changeStep notifies s q true pc c).map fun (s',pc') => (s',.pause q (some pc'),[])
  | .resume q pc, c =>
      (changeStep notifies s q false pc c).map fun (s',pc') => (s',.resume q (some pc'),[])
  | .onPauseChange q (some h), .go =>
      some ({ s with hooks := Function.update s.hooks q (h :: s.hooks q) },
        .onPauseChange q none,[])
  | .cancel q (some h), .go =>
      some ({ s with hooks := Function.update s.hooks q ((s.hooks q).filter (· ≠ h)) },
        .cancel q none,[])
  | .park jobs stamp pc, .go =>
      (parkStep s jobs stamp pc).map fun (s',pc') => (s',.park jobs stamp pc',[])
  | .unpark k pc, .go => (unparkStep s k pc).map fun (s',pc') => (s',.unpark k pc',[])
  | .purge gen pc, .go => (purgeStep s gen pc).map fun (s',pc') => (s',.purge gen pc',[])
  | .pending pc, .go => (pendingStep s pc).map fun (s',pc') => (s',.pending pc',[])
  | _, _ => none

-- A batch parked was taken from a queue the worker is bound to: it knows the queue's kind, and a
-- queue that notifies has a hook of the worker, which no unbinding cancels.
def taken (s : Shared J) (stamp : Stamp) : Bool :=
  stamp.hold.all fun h =>
    h.notifies = notifies h.id && (!h.notifies || (s.hooks h.id).any Hook.ours)

def entry (s : Shared J) : Thread J → Bool
  | .pause _ none | .resume _ none | .onPauseChange _ (some _) => true
  | .cancel _ (some h) => !h.ours
  | .park _ stamp .lock => taken notifies s stamp
  | .unpark _ .lock | .purge _ .bump | .pending .nParked => true
  | _ => false

def program : Program (Shared J) (Thread J) Choice := ⟨entry notifies,step notifies⟩

def newWorker : World (Shared J) (Thread J) :=
  ⟨{ paused := fun _ => false, notifyMu := fun _ => false, hooks := fun _ => [],
     gens := fun _ => 0, parkMx := false, parked := Parked.empty },[]⟩

-- A Pause or Resume past its change of the flag, a park, or an unheld.
def inProgress : Thread J → Bool
  | .pause _ (some pc) | .resume _ (some pc) => pc ≠ .returned
  | .park _ _ pc => pc ≠ .returned
  | .pending .nParked | .pending (.parkHeld _) | .pending (.returned _) => false
  | .pending _ => true
  | _ => false

end Varmq.Pause
