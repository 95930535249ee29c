import Mathlib.Logic.Function.Basic
import Varmq.Interleaving.World
import Varmq.Interleaving.Total

namespace Varmq.Hooks

open Interleaving

-- A hook is known by the address OnPauseChange gave it. The last four fields are ghost state: the
-- hooks registered at the last change of the state, those cancelled, and by hook the last value it
-- was called with and how often it was called.
structure PauseState where
  at_ : ℕ
  notifyMu : Bool
  hooks : List ℕ
  made : ℕ
  told : List ℕ
  cancelled : List ℕ
  last : ℕ → Option Bool
  calls : ℕ → ℕ

def newPauseState : PauseState := ⟨0,false,[],0,[],[],fun _ => none,fun _ => 0⟩

namespace PauseState

def paused (s : PauseState) : Bool := s.at_ ≠ 0

def change (s : PauseState) (ms : ℕ) : PauseState := { s with at_ := ms, told := s.hooks }

def register (s : PauseState) : PauseState :=
  { s with hooks := s.made :: s.hooks, made := s.made + 1 }

def cancel (s : PauseState) (h : ℕ) : PauseState :=
  { s with hooks := s.hooks.filter (· ≠ h), cancelled := h :: s.cancelled }

def call (s : PauseState) (h : ℕ) (paused : Bool) : PauseState :=
  { s with last := Function.update s.last h (some paused),
           calls := Function.update s.calls h (s.calls h + 1) }

variable {s : PauseState} {g h : ℕ} {p : Bool}

@[simp] theorem call_last_self : (s.call h p).last h = some p := Function.update_self _ _ _

theorem call_last_other (hne : g ≠ h) : (s.call h p).last g = s.last g :=
  Function.update_of_ne hne _ _

@[simp] theorem call_calls_self : (s.call h p).calls h = s.calls h + 1 := Function.update_self _ _ _

theorem call_calls_other (hne : g ≠ h) : (s.call h p).calls g = s.calls g :=
  Function.update_of_ne hne _ _

end PauseState

-- `change` is the compare-and-swap of Pause or the swap of Resume; a call of a hook lasts as long
-- as notify stands at `hook`.
inductive Pc where
  | change
  | lock
  | load
  | copy (paused : Bool)
  | live (paused : Bool) (hs : List ℕ)
  | call (paused : Bool) (h : ℕ) (hs : List ℕ)
  | hook (paused : Bool) (h : ℕ) (hs : List ℕ)
  | unlock
  | returned
  deriving DecidableEq, Repr

inductive Thread where
  | pause (ms : ℕ) (pc : Pc)
  | resume (pc : Pc)
  | onPauseChange (done : Bool)
  | cancel (h : ℕ) (done : Bool)
  deriving DecidableEq, Repr

-- The hook the walk goes to next, and what the hook being called does.
inductive Choice where
  | go
  | next (h : ℕ)
  | register
  | cancel (h : ℕ)
  deriving DecidableEq, Repr

def notifyStep (s : PauseState) : Pc → Choice → Option (PauseState × Pc)
  | .lock, .go => if s.notifyMu then none else some ({ s with notifyMu := true },.load)
  | .load, .go => some (s,.copy s.paused)
  | .copy p, .go => some (s,.live p s.hooks)
  | .live p hs, .next h =>
      if h ∈ hs then
        some (s,if h ∈ s.hooks then .call p h (hs.erase h) else .live p (hs.erase h))
      else none
  | .live _ [], .go => some (s,.unlock)
  | .call p h hs, .go => some (s.call h p,.hook p h hs)
  | .hook p h hs, .register => some (s.register,.hook p h hs)
  | .hook p h hs, .cancel g => if g < s.made then some (s.cancel g,.hook p h hs) else none
  | .hook p _ hs, .go => some (s,.live p hs)
  | .unlock, .go => some ({ s with notifyMu := false },.returned)
  | _, _ => none

def pauseStep (s : PauseState) (ms : ℕ) : Pc → Choice → Option (PauseState × Pc)
  | .change, .go => some (if s.at_ = 0 then (s.change ms,.lock) else (s,.returned))
  | pc, c => notifyStep s pc c

def resumeStep (s : PauseState) : Pc → Choice → Option (PauseState × Pc)
  | .change, .go => some (if s.at_ ≠ 0 then (s.change 0,.lock) else (s,.returned))
  | pc, c => notifyStep s pc c

def step (s : PauseState) : Thread → Choice → Option (PauseState × Thread × List Thread)
  | .pause ms pc, c => (pauseStep s ms pc c).map fun (s',pc') => (s',.pause ms pc',[])
  | .resume pc, c => (resumeStep s pc c).map fun (s',pc') => (s',.resume pc',[])
  | .onPauseChange false, .go => some (s.register,.onPauseChange true,[])
  | .cancel h false, .go => some (s.cancel h,.cancel h true,[])
  | _, _ => none

-- The clock stands after 1970; a hook is cancelled by who holds its cancel.
def entry (s : PauseState) : Thread → Bool
  | .pause ms .change => 0 < ms
  | .resume .change | .onPauseChange false => true
  | .cancel h false => h < s.made
  | _ => false

def program : Program PauseState Thread Choice := ⟨entry,step⟩

def start : World PauseState Thread := ⟨newPauseState,[]⟩

def pcOf : Thread → Pc
  | .pause _ pc | .resume pc => pc
  | .onPauseChange _ | .cancel _ _ => .returned

def busy : Thread → Bool
  | .pause _ pc | .resume pc => pc ≠ .returned
  | .onPauseChange done | .cancel _ done => !done

def inHook (l : Thread) : ℕ :=
  match pcOf l with
  | .hook _ _ _ => 1
  | _ => 0

-- The goroutine has found h live and is about to call it.
def pastCheck (h : ℕ) (l : Thread) : ℕ :=
  match pcOf l with
  | .call _ g _ => if g = h then 1 else 0
  | _ => 0

end Varmq.Hooks
