import Varmq.Interleaving.Total
import Varmq.Leases.Basic

namespace Varmq.Leases

open Interleaving
open Varmq.Jobs (Job RunPc Outcome)

variable {T B : Type} {marshal : JobView T → Option B} {unmarshal : B → Except String (JobView T)}
  {s s' : Shared T B} {l l' : Thread T B} {c : Choice} {new : List (Thread T B)}

-- What a step does.
inductive Act (marshal : JobView T → Option B) (unmarshal : B → Except String (JobView T))
    (s : Shared T B) (c : Choice) :
    Thread T B → Shared T B → Thread T B → List (Thread T B) → Prop
  | json {id : String} {data : T} {ms : ℤ} {b : B} (hb : json marshal id .created data ms = some b) :
      Act marshal unmarshal s c (.add id data .json) s (.add id data (.enqueue b)) []
  | stored {id : String} {data : T} {b : B} (n : ℕ) :
      Act marshal unmarshal s c (.add id data (.enqueue b))
        { s.enqueue n (.bytes b) with added := s.added ++ [(s.next,id,data)] }
        (.add id data (.returned true)) []
  | unstored {id : String} {data : T} {pc : AddPc B} (ok : Bool) :
      Act marshal unmarshal s c (.add id data pc) s (.add id data (.returned ok)) []
  | foreign {body : Body B} (n : ℕ) :
      Act marshal unmarshal s c (.foreign body false) (s.enqueue n body) (.foreign body true) []
  | asked (n : ℕ) : Act marshal unmarshal s c (.loop .idle) s (.loop (.dequeue n)) []
  | failed {want : ℕ} :
      Act marshal unmarshal s c (.loop (.dequeue want)) (s.report .dequeue) (.loop .idle) []
  | popped {want : ℕ} {ackIds : List String} (ha : s.answers want ackIds = true) :
      Act marshal unmarshal s c (.loop (.dequeue want)) (s.dequeue ackIds)
        (.loop (.emit (ackIds.zip s.pending))) []
  | emitted : Act marshal unmarshal s c (.loop (.emit [])) s (.loop .idle) []
  | unparsed {ackId : String} {m : Message B} {rest : List (String × Message B)} {e : ParseError}
      (hp : toJob unmarshal m.body = .error e) :
      Act marshal unmarshal s c (.loop (.emit ((ackId,m) :: rest))) (s.report (.parse m.key e))
        (.loop (.emit rest)) []
  | skipped {ackId : String} {m : Message B} {rest : List (String × Message B)} {p : Parsed T}
      (hp : toJob unmarshal m.body = .ok p) (hc : p.status = .closed) :
      Act marshal unmarshal s c (.loop (.emit ((ackId,m) :: rest))) s (.loop (.emit rest)) []
  | sent {ackId : String} {m : Message B} {rest : List (String × Message B)} {p : Parsed T}
      (hp : toJob unmarshal m.body = .ok p) (hc : p.status ≠ .closed) :
      Act marshal unmarshal s c (.loop (.emit ((ackId,m) :: rest))) s (.loop (.emit rest))
        [.run ackId m p.data (setAck (newJob p) ackId) .startLoad]
  | run {ackId : String} {m : Message B} {data : T} {j j' : Job Unit} {pc pc' : RunPc Unit}
      (hc : possible c = true) (hs : Jobs.runStep j pc (jobChoice c) = some (j',pc')) :
      Act marshal unmarshal s c (.run ackId m data j pc) (effect s m data j pc c)
        (.run ackId m data j' pc') []
  | requeued {ackId : String} {n : ℕ} {s' : Shared T B} (hs : s.requeue ackId n = some s') :
      Act marshal unmarshal s c (.requeue ackId false) s' (.requeue ackId true) []
  | purged : Act marshal unmarshal s c (.purge false) { s with pending := [], nacked := [] }
      (.purge true) []
  | paused {on : Bool} : Act marshal unmarshal s c (.setPaused on false) { s with paused := on }
      (.setPaused on true) []

theorem add_act {id : String} {data : T} {pc pc' : AddPc B}
    (hs : addStep marshal s id data pc c = some (s',pc')) :
    Act marshal unmarshal s c (.add id data pc) s' (.add id data pc') [] := by
  cases pc with
  | json =>
    cases c with
    | now ms =>
      simp only [addStep] at hs
      split at hs <;> cases hs
      · exact .unstored false
      · exact .json ‹_›
    | _ => cases hs
  | enqueue b =>
    cases c with
    | place n =>
      cases hs
      exact .stored n
    | repeated =>
      simp only [addStep] at hs
      split at hs <;> cases hs
      exact .unstored true
    | refused =>
      cases hs
      exact .unstored false
    | _ => cases hs
  | returned ok => cases c <;> cases hs

theorem loop_act {pc pc' : LoopPc B} (hs : loopStep unmarshal s pc c = some (s',pc',new)) :
    Act marshal unmarshal s c (.loop pc) s' (.loop pc') new := by
  cases pc with
  | idle =>
    cases c with
    | credit n =>
      simp only [loopStep] at hs
      split at hs <;> cases hs
      exact .asked n
    | _ => cases hs
  | dequeue want =>
    cases c with
    | refused =>
      cases hs
      exact .failed
    | pop ackIds =>
      simp only [loopStep] at hs
      split at hs <;> cases hs
      exact .popped ‹_›
    | _ => cases hs
  | emit rest =>
    cases rest with
    | nil =>
      cases c <;> cases hs
      exact .emitted
    | cons e rest =>
      obtain ⟨ackId,m⟩ := e
      cases c with
      | go =>
        simp only [loopStep] at hs
        split at hs
        · cases hs
          exact .unparsed ‹_›
        · split at hs <;> cases hs
          · exact .skipped ‹_› ‹_›
          · exact .sent ‹_› ‹_›
      | _ => cases hs

theorem step_act (hs : (program marshal unmarshal).step s l c = some (s',l',new)) :
    Act marshal unmarshal s c l s' l' new := by
  cases l with
  | add id data pc =>
    obtain ⟨⟨s₁,pc'⟩,hp,heq⟩ := Option.map_eq_some_iff.mp hs
    cases heq
    exact add_act hp
  | foreign body done =>
    cases done <;> cases c <;> cases hs
    exact .foreign _
  | loop pc =>
    obtain ⟨⟨s₁,pc',ls⟩,hp,heq⟩ := Option.map_eq_some_iff.mp hs
    cases heq
    exact loop_act hp
  | run ackId m data j pc =>
    simp only [program,step] at hs
    split at hs
    · rename_i hc
      obtain ⟨⟨j',pc'⟩,hp,heq⟩ := Option.map_eq_some_iff.mp hs
      cases heq
      exact .run hc hp
    · cases hs
  | requeue ackId done =>
    cases done with
    | true => cases hs
    | false =>
      cases c with
      | place n =>
        obtain ⟨s₁,hp,heq⟩ := Option.map_eq_some_iff.mp hs
        cases heq
        exact .requeued hp
      | _ => cases hs
  | purge done =>
    cases done <;> cases c <;> cases hs
    exact .purged
  | setPaused on done =>
    cases done <;> cases c <;> cases hs
    exact .paused

-- The parts of the state the run of a job never touches.
structure Apart (s s' : Shared T B) : Prop where
  pending : s'.pending = s.pending
  issued : s'.issued = s.issued
  next : s'.next = s.next
  added : s'.added = s.added
  requeued : s'.requeued = s.requeued

theorem record_apart (s : Shared T B) (ackId : String) (reason : Option String) :
    Apart s (s.record ackId reason) := by
  unfold Shared.record
  split
  · exact ⟨rfl,rfl,rfl,rfl,rfl⟩
  · split <;> exact ⟨rfl,rfl,rfl,rfl,rfl⟩

theorem effect_apart (s : Shared T B) (m : Message B) (data : T) (j : Job Unit) (pc : RunPc Unit)
    (c : Choice) : Apart s (effect s m data j pc c) := by
  unfold effect
  split
  · exact ⟨rfl,rfl,rfl,rfl,rfl⟩
  · exact ⟨rfl,rfl,rfl,rfl,rfl⟩
  · split <;> exact ⟨rfl,rfl,rfl,rfl,rfl⟩
  · exact record_apart s _ _
  · split <;> exact ⟨rfl,rfl,rfl,rfl,rfl⟩
  · exact ⟨rfl,rfl,rfl,rfl,rfl⟩

theorem record_rest (s : Shared T B) (ackId : String) (reason : Option String) :
    (s.record ackId reason).invoked = s.invoked ∧ (s.record ackId reason).ran = s.ran ∧
      (s.record ackId reason).errors = s.errors := by
  unfold Shared.record
  split
  · exact ⟨rfl,rfl,rfl⟩
  · split <;> exact ⟨rfl,rfl,rfl⟩

theorem effect_invoked (s : Shared T B) (m : Message B) (data : T) (j : Job Unit) {pc : RunPc Unit}
    (c : Choice) (hpc : pc ≠ .invoke) : (effect s m data j pc c).invoked = s.invoked := by
  unfold effect
  split
  · exact absurd rfl hpc
  · rfl
  · split <;> rfl
  · exact (record_rest s _ _).1
  · split <;> rfl
  · rfl

end Varmq.Leases
