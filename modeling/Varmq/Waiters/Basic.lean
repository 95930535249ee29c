import Varmq.Lifecycle.Balance

namespace Varmq.Waiters

open Interleaving
open Varmq.Worker (Status)
open Varmq.Lifecycle (Choice FinishPc WaitKind WaitPc RestartPc BroadcastPc)

-- `timers` are the waitRecheck timers that have neither fired nor been stopped.
structure Shared where
  core : Lifecycle.Shared
  timers : List ℕ
  nextTimer : ℕ
  deriving DecidableEq, Repr

inductive TimerPc where
  | armed
  | fired (pc : BroadcastPc)
  deriving DecidableEq, Repr

-- `timer` is the one that waitForChange armed for the sleep the call is in.
inductive Thread where
  | call (t : Lifecycle.Thread) (timer : Option ℕ)
  | timer (id : ℕ) (pc : TimerPc)
  deriving DecidableEq, Repr

def arms : Lifecycle.Thread → Bool
  | .waiter _ (.sleep true) | .loop _ (.wait (.sleep true)) => true
  | _ => false

def awake : Lifecycle.Thread → Bool
  | .waiter _ .status | .loop _ (.wait .status) => true
  | _ => false

-- waitForChange arms its timer before it sleeps and stops it once waiters.Wait is back.
def callStep (s : Shared) (t : Lifecycle.Thread) :
    Option ℕ → Choice → Option (Shared × Thread × List Thread)
  | some id, .go =>
      if awake t then some ({ s with timers := s.timers.erase id },.call t none,[])
      else (Lifecycle.step s.core t .go).map fun (core,t',new) =>
        ({ s with core := core },.call t' (some id),new.map fun u => .call u none)
  | some id, c =>
      (Lifecycle.step s.core t c).map fun (core,t',new) =>
        ({ s with core := core },.call t' (some id),new.map fun u => .call u none)
  | none, c =>
      (Lifecycle.step s.core t c).map fun (core,t',new) =>
        if arms t then
          ({ s with core := core, timers := s.nextTimer :: s.timers, nextTimer := s.nextTimer + 1 },
            .call t' (some s.nextTimer),[.timer s.nextTimer .armed])
        else ({ s with core := core },.call t' none,new.map fun u => .call u none)

def timerStep (s : Shared) (id : ℕ) : TimerPc → Option (Shared × TimerPc)
  | .armed =>
      if s.timers.contains id then some ({ s with timers := s.timers.erase id },.fired .lock)
      else none
  | .fired pc => (Lifecycle.broadcastStep s.core pc).map fun (core,pc') =>
      ({ s with core := core },.fired pc')

def step (s : Shared) : Thread → Choice → Option (Shared × Thread × List Thread)
  | .call t tm, c => callStep s t tm c
  | .timer id pc, .go => (timerStep s id pc).map fun (s',pc') => (s',.timer id pc',[])
  | _, _ => none

def entry (s : Shared) : Thread → Bool
  | .call t none => Lifecycle.entry s.core t
  | _ => false

def program : Program Shared Thread Choice := ⟨entry,step⟩

def newWorker (concurrency : ℕ) : World Shared Thread :=
  ⟨{ core := (Lifecycle.newWorker concurrency).shared, timers := [], nextTimer := 0 },[]⟩

def proj : Thread → Lifecycle.Thread
  | .call t _ => t
  | .timer _ .armed => .broadcast .lock
  | .timer _ (.fired pc) => .broadcast pc

variable {s s' : Shared} {l l' : Thread} {c : Choice} {new xs ys ts : List Thread}

-- What a step does: a step of the worker, the arming of a timer, its stop or its firing.
inductive Act (s : Shared) (c : Choice) : Thread → Shared → Thread → List Thread → Prop
  | call {core : Lifecycle.Shared} {t t' : Lifecycle.Thread} {tm : Option ℕ}
      {ls : List Lifecycle.Thread} (hp : Lifecycle.step s.core t c = some (core,t',ls)) (ha : tm = none → arms t = false)
      (hw : ∀ id, tm = some id → c = .go → awake t = false) :
      Act s c (.call t tm) { s with core := core } (.call t' tm) (ls.map fun u => .call u none)
  | arm {core : Lifecycle.Shared} {t t' : Lifecycle.Thread}
      (hp : Lifecycle.step s.core t c = some (core,t',[.broadcast .lock])) (ha : arms t = true) :
      Act s c (.call t none)
        { s with core := core, timers := s.nextTimer :: s.timers, nextTimer := s.nextTimer + 1 }
        (.call t' (some s.nextTimer)) [.timer s.nextTimer .armed]
  | stop {t : Lifecycle.Thread} {id : ℕ} (ha : awake t = true) :
      Act s c (.call t (some id)) { s with timers := s.timers.erase id } (.call t none) []
  | fire {id : ℕ} (hm : id ∈ s.timers) :
      Act s c (.timer id .armed) { s with timers := s.timers.erase id } (.timer id (.fired .lock)) []
  | fired {core : Lifecycle.Shared} {id : ℕ} {pc pc' : BroadcastPc}
      (hp : Lifecycle.broadcastStep s.core pc = some (core,pc')) :
      Act s c (.timer id (.fired pc)) { s with core := core } (.timer id (.fired pc')) []

theorem arms_spawns {core core' : Lifecycle.Shared} {t t' : Lifecycle.Thread}
    {ls : List Lifecycle.Thread} (ha : arms t = true)
    (hs : Lifecycle.step core t c = some (core',t',ls)) :
    ls = [.broadcast .lock] := by
  unfold arms at ha
  split at ha
  · cases c <;> cases hs
    rfl
  · cases c <;> cases hs
    rfl
  · cases ha

theorem step_act (hs : step s l c = some (s',l',new)) : Act s c l s' l' new := by
  cases l with
  | call t tm =>
    simp only [step] at hs
    cases tm with
    | none =>
      simp only [callStep,Option.map_eq_some_iff] at hs
      obtain ⟨⟨core,t',ls⟩,hp,heq⟩ := hs
      cases ha : arms t with
      | false =>
        simp only [ha,Bool.false_eq_true,if_false] at heq
        cases heq
        exact .call hp (fun _ => ha) fun id h => by cases h
      | true =>
        simp only [ha,if_true] at heq
        cases heq
        cases arms_spawns ha hp
        exact .arm hp ha
    | some id =>
      by_cases hc : c = .go ∧ awake t = true
      · obtain ⟨rfl,ha⟩ := hc
        simp only [callStep,ha,if_true] at hs
        cases hs
        exact .stop ha
      · have hw : ∀ i, some id = some i → c = .go → awake t = false := by
          intro i _ hgo
          cases ha : awake t with
          | false => rfl
          | true => exact absurd ⟨hgo,ha⟩ hc
        have he : callStep s t (some id) c = (Lifecycle.step s.core t c).map fun (core,t',new) =>
            ({ s with core := core },.call t' (some id),new.map fun u => .call u none) := by
          cases c with
          | go => simp only [callStep,hw id rfl rfl,Bool.false_eq_true,if_false]
          | _ => rfl
        rw [he,Option.map_eq_some_iff] at hs
        obtain ⟨⟨core,t',ls⟩,hp,heq⟩ := hs
        cases heq
        exact .call hp (fun h => by cases h) hw
  | timer id pc =>
    cases c with
    | go =>
      simp only [step,Option.map_eq_some_iff] at hs
      obtain ⟨⟨s₁,pc'⟩,hp,heq⟩ := hs
      cases heq
      cases pc with
      | armed =>
        simp only [timerStep] at hp
        split at hp
        case isFalse => cases hp
        case isTrue hm =>
          cases hp
          exact .fire (by simpa using hm)
      | fired pc =>
        simp only [timerStep,Option.map_eq_some_iff] at hp
        obtain ⟨⟨core,pc'⟩,hp,heq⟩ := hp
        cases heq
        exact .fired hp
    | _ => cases hs

-- Each step is one of the worker's or leaves it as it is.
theorem step_core (hs : step s l c = some (s',l',new)) :
    Lifecycle.step s.core (proj l) c = some (s'.core,proj l',new.map proj) ∨
    Lifecycle.step s.core (proj l) .go = some (s'.core,proj l',new.map proj) ∨
    (s'.core = s.core ∧ proj l' = proj l ∧ new = []) := by
  cases step_act hs with
  | call hp _ _ =>
    left
    simp only [proj,List.map_map,hp]
    congr 3
    exact (List.map_id' _).symm
  | arm hp _ => exact .inl hp
  | stop _ => exact .inr (.inr ⟨rfl,rfl,rfl⟩)
  | fire _ => exact .inr (.inr ⟨rfl,rfl,rfl⟩)
  | fired hp =>
    right
    left
    simp only [proj,Lifecycle.step,hp,Option.map_some,List.map_nil]

abbrev Inv (s : Shared) (ts : List Thread) : Prop := Lifecycle.Inv s.core (ts.map proj)

theorem inv_call (h : Inv s ts) (he : entry s l = true) : Inv s (ts ++ [l]) := by
  unfold entry at he
  split at he
  · simp only [Inv,List.map_append,List.map_cons,List.map_nil,proj]
    exact Lifecycle.inv_call h he
  · cases he

theorem inv_act (h : Inv s (xs ++ l :: ys)) (hs : step s l c = some (s',l',new)) :
    Inv s' (xs ++ l' :: (ys ++ new)) := by
  simp only [Inv,List.map_append,List.map_cons] at h ⊢
  rcases step_core hs with hp | hp | ⟨hc,hl,rfl⟩
  · exact Lifecycle.inv_act h hp
  · exact Lifecycle.inv_act h hp
  · rw [hc,hl,List.map_nil,List.append_nil]
    exact h

end Varmq.Waiters
