import Varmq.Interleaving.World
import Varmq.Interleaving.Total
import Varmq.Job.Basic
import Varmq.Worker.Status
import Varmq.Park.Basic

namespace Varmq.Dispatch

open Interleaving
open Varmq.Park (Holder Stamp Parked)

-- `slots` are the places claimed in the log and not read yet, with their ready flags; `claimed`
-- is every claim so far. accepted, started, ran and dropped are ghosts: the jobs whose Add
-- returned true, the workerFunc calls, and the jobs that left after a run or without one.
structure Shared where
  status : Worker.Status
  job : ℕ → Jobs.Status
  fresh : ℕ
  slots : List (ℕ × Bool)
  claimed : List ℕ
  curMx : Bool
  paused : Bool
  refusals : ℕ
  gen : ℕ
  park : Parked ℕ
  dispatched : ℕ
  curProcessing : ℕ
  busyWorkers : ℕ
  concurrency : ℕ
  accepted : List ℕ
  started : List ℕ
  ran : List ℕ
  dropped : List ℕ

namespace Shared

def gens (s : Shared) : ℕ → ℕ := fun _ => s.gen

def pauses (s : Shared) : ℕ → Bool := fun _ => s.paused

def offset (s : Shared) : ℕ := s.claimed.length - s.slots.length

def setJob (s : Shared) (j : ℕ) (v : Jobs.Status) : Shared :=
  { s with job := fun i => if i = j then v else s.job i }

-- Close of jobs with no acknowledging storage: one transition each, if the status allows it.
def closeJobs (s : Shared) (js : List ℕ) : Shared :=
  { s with job := fun i =>
      if i ∈ js ∧ (Jobs.closeable (s.job i)).isNone then .closed else s.job i }

def closeJob (s : Shared) (j : ℕ) : Shared := s.closeJobs [j]

end Shared

inductive Choice where
  | go
  | flag (b : Bool)
  | pick (k : ℕ)
  deriving DecidableEq, Repr

inductive PendingPc where
  | parked
  | held (n : ℕ)
  | unheld
  | paused (n : ℕ)
  | head (n : ℕ)
  | offset (n h : ℕ)
  | done (n : ℕ)
  deriving DecidableEq, Repr

def pendingStep (s : Shared) : PendingPc → Option (Shared × PendingPc)
  | .parked => some (s,if 0 < s.park.nParked then .held s.park.nParked else .paused 0)
  | .held n => some (s,if s.park.parkHeld then .unheld else .paused n)
  | .unheld =>
      let (n,p) := Park.unheld s.pauses s.park
      some ({ s with park := p },.paused n)
  | .paused n => some (s,if s.paused then .done n else .head n)
  | .head n => some (s,.offset n s.claimed.length)
  | .offset n h => some (s,.done (n + (h - s.offset)))
  | .done _ => none

def maxBatch : ℕ := 32

inductive LoopPc where
  | select
  | active
  | limit
  | pending (pc : PendingPc)
  | plan (pc : PendingPc)
  | pick (n : ℕ)
  | take (k : ℕ)
  | count (k : ℕ)
  | reserve (k : ℕ)
  | claim (k : ℕ)
  | release (k : ℕ) (cont : Bool)
  | giveBack (k : ℕ) (cont : Bool)
  | parked (k : ℕ)
  | unpark (k : ℕ)
  | fillPaused (k : ℕ) (buf : List ℕ)
  | fillHead (k : ℕ) (buf : List ℕ)
  | fillOffset (k : ℕ) (buf : List ℕ) (h : ℕ)
  | epoch (k : ℕ) (buf : List ℕ)
  | refuse (k : ℕ) (buf : List ℕ) (e : ℕ)
  | dequeue (k : ℕ) (buf : List ℕ) (e : ℕ)
  | isClosed (k : ℕ) (buf : List ℕ) (j : ℕ)
  | emptyPaused (k : ℕ) (buf : List ℕ) (e : ℕ)
  | emptyRefusals (k : ℕ) (buf : List ℕ) (e : ℕ)
  | shorten (m : ℕ) (buf : List ℕ) (st : Option Stamp) (cont : Bool)
  | stamp (buf : List ℕ) (cont : Bool)
  | send (buf : List ℕ) (st : Stamp) (cont : Bool)
  deriving DecidableEq, Repr

-- One batch in a pool node: `rest` is jobs[i:].
structure Batch where
  n : ℕ
  stamp : Stamp
  i : ℕ
  rest : List ℕ
  deriving DecidableEq, Repr

inductive BatchPc where
  | stale
  | closeStale
  | halting
  | held
  | park
  | start
  | run
  | close
  | free
  | release
  | finish
  | notify
  | done
  deriving DecidableEq, Repr

inductive PurgePc where
  | bump
  | drop
  | readEnd
  | take (n : ℕ)
  | closing (js : List ℕ)
  deriving DecidableEq, Repr

inductive AddPc where
  | new
  | append (j : ℕ)
  | publish (j : ℕ)
  | mark (j : ℕ)
  | notify (j : ℕ)
  | returned (j : ℕ) (ok : Bool)
  deriving DecidableEq, Repr

inductive WaitPc where
  | status
  | taken
  | busy (taken : ℕ)
  | pending (buffered : ℕ) (pc : PendingPc)
  | cur
  | returned
  deriving DecidableEq, Repr

inductive QueuePc where
  | flag (on : Bool)
  | hook
  | done
  deriving DecidableEq, Repr

-- `lifecycle q` stands for any goroutine that moves the worker's status to q; `before` in a wait
-- is the ghost list of the jobs accepted before the call.
inductive Thread where
  | loop (pc : LoopPc)
  | batch (b : Batch) (pc : BatchPc)
  | add (pc : AddPc)
  | close (j : ℕ) (fired : Bool)
  | purge (pc : PurgePc)
  | queue (pc : QueuePc)
  | wait (before : List ℕ) (pc : WaitPc)
  | lifecycle (q : Worker.Status) (fired : Bool)
  deriving DecidableEq, Repr

def again (cont : Bool) : LoopPc := if cont then .active else .select

-- What processNextJob does with a filled buffer.
def filled (k : ℕ) (buf : List ℕ) (cont : Bool) : LoopPc :=
  if buf = [] then .release k cont
  else if buf.length < k then .shorten (k - buf.length) buf none cont
  else .stamp buf cont

def unparked (k : ℕ) (js : List ℕ) (st : Stamp) : LoopPc :=
  if js = [] then .fillPaused k []
  else if js.length < k then .shorten (k - js.length) js (some st) true
  else .send js st true

def Shared.stamp (s : Shared) : Stamp := ⟨some 0,s.gen,s.dispatched,some ⟨0,true⟩⟩

def loopStep (s : Shared) : LoopPc → Choice → Option (Shared × LoopPc × List Thread)
  | .select, .go => some (s,.active,[])
  | .active, .go => some (s,if s.status.isActive then .limit else .select,[])
  | .limit, .go =>
      some (s,if s.busyWorkers < s.concurrency then .pending .parked else .select,[])
  | .pending (.done n), .go => some (s,if 0 < n then .plan .parked else .select,[])
  | .pending pc, .go => (pendingStep s pc).map fun (s',pc') => (s',.pending pc',[])
  | .plan (.done n), .go => some (s,.pick n,[])
  | .plan pc, .go => (pendingStep s pc).map fun (s',pc') => (s',.plan pc',[])
  | .pick n, .pick k =>
      if k = 0 then some (s,.select,[])
      else if k ≤ min (max 1 n) maxBatch then some (s,.take k,[]) else none
  | .take k, .go => some ({ s with busyWorkers := s.busyWorkers + 1 },.count k,[])
  | .count k, .go => some ({ s with curProcessing := s.curProcessing + k },.reserve k,[])
  | .reserve k, .go =>
      if s.status = .running then some (s,.parked k,[])
      else if s.status = .idle then some (s,.claim k,[])
      else some (s,.release k false,[])
  | .claim k, .go =>
      if s.status = .idle then some ({ s with status := .running },.parked k,[])
      else some (s,.reserve k,[])
  | .release k cont, .go =>
      some ({ s with busyWorkers := s.busyWorkers - 1 },.giveBack k cont,[])
  | .giveBack k cont, .go =>
      some ({ s with curProcessing := s.curProcessing - k },again cont,[])
  | .parked k, .go => some (s,if 0 < s.park.nParked then .unpark k else .fillPaused k [],[])
  | .unpark k, .go =>
      let (js,st,p) := Park.unpark s.pauses s.park k
      some ({ s with park := p },unparked k js st,[])
  | .fillPaused k buf, .go => some (s,if s.paused then filled k buf false else .fillHead k buf,[])
  | .fillHead k buf, .go => some (s,.fillOffset k buf s.claimed.length,[])
  | .fillOffset k buf h, .go =>
      some (s,if h - s.offset = 0 then filled k buf false else .epoch k buf,[])
  | .epoch k buf, .go => some (s,.refuse k buf s.refusals,[])
  | .refuse k buf e, .go =>
      if s.paused then some ({ s with refusals := s.refusals + 1 },.emptyPaused k buf e,[])
      else some (s,.dequeue k buf e,[])
  | .dequeue k buf e, .go =>
      if s.curMx then none
      else match s.slots with
        | [] => some (s,.emptyPaused k buf e,[])
        | (j,true) :: slots => some ({ s with slots := slots },.isClosed k buf j,[])
        | (_,false) :: _ => none
  | .isClosed k buf j, .go =>
      if s.job j = .closed then
        some ({ s with dropped := s.dropped ++ [j] },.fillPaused k buf,[])
      else some (s,if (buf ++ [j]).length < k then .fillPaused k (buf ++ [j])
        else filled k (buf ++ [j]) true,[])
  | .emptyPaused k buf e, .go => some (s,if s.paused then filled k buf false
      else .emptyRefusals k buf e,[])
  | .emptyRefusals k buf e, .go => some (s,filled k buf (s.refusals = e),[])
  | .shorten m buf st cont, .go =>
      some ({ s with curProcessing := s.curProcessing - m },
        match st with
        | some st => .send buf st cont
        | none => .stamp buf cont,[])
  | .stamp buf cont, .go =>
      some ({ s with dispatched := s.dispatched + buf.length },.send buf s.stamp cont,[])
  | .send buf st cont, .go =>
      some (s,again cont,[.batch ⟨buf.length,st,0,buf⟩ .stale])
  | _, _ => none

def Batch.next (b : Batch) : Batch := { b with i := b.i + 1, rest := b.rest.tail }

def batchStep (s : Shared) (b : Batch) : BatchPc → Option (Shared × Batch × BatchPc)
  | .stale =>
      if b.rest = [] then some (s,b,.free)
      else if b.stamp.stale s.gens then some (s,b,.closeStale)
      else some (s,b,if 0 < b.i ∧ b.stamp.gen.isSome then .halting else .start)
  | .closeStale =>
      match b.rest with
      | [] => none
      | j :: _ =>
          some ({ s.closeJob j with dropped := s.dropped ++ [j] },b.next,.stale)
  | .halting => some (s,b,if s.status.halting then .park else .held)
  | .held => some (s,b,if b.stamp.held s.pauses then .park else .start)
  | .park =>
      let (p,closed) := Park.park s.gens s.pauses s.park b.rest
        { b.stamp with seq := b.stamp.seq + b.i }
      some ({ s.closeJobs closed with park := p, dropped := s.dropped ++ closed },
        { b with rest := [] },.free)
  | .start =>
      match b.rest with
      | [] => none
      | j :: _ =>
          if (Jobs.notClosed (s.job j)).isNone then
            some ({ s.setJob j .processing with started := s.started ++ [j] },b,.run)
          else some ({ s with dropped := s.dropped ++ [j] },b.next,.stale)
  | .run =>
      match b.rest with
      | [] => none
      | j :: _ => some (s.setJob j .finished,b,.close)
  | .close =>
      match b.rest with
      | [] => none
      | j :: _ => some ({ s.closeJob j with ran := s.ran ++ [j] },b.next,.stale)
  | .free => some (s,b,.release)
  | .release => some ({ s with busyWorkers := s.busyWorkers - 1 },b,.finish)
  | .finish => some ({ s with curProcessing := s.curProcessing - b.n },b,.notify)
  | .notify => some (s,b,.done)
  | .done => none

def publish (j : ℕ) (slots : List (ℕ × Bool)) : List (ℕ × Bool) :=
  slots.map fun p => if p.1 = j then (j,true) else p

def addStep (s : Shared) : AddPc → Choice → Option (Shared × AddPc)
  | .new, .go =>
      some ({ s.setJob s.fresh .created with fresh := s.fresh + 1 },.append s.fresh)
  | .append j, .flag true =>
      some ({ s with slots := s.slots ++ [(j,false)], claimed := s.claimed ++ [j] },.publish j)
  | .append j, .flag false => some (s.closeJob j,.returned j false)
  | .publish j, .go => some ({ s with slots := publish j s.slots },.mark j)
  | .mark j, .go => some (if s.job j = .created then s.setJob j .queued else s,.notify j)
  | .notify j, .go => some ({ s with accepted := s.accepted ++ [j] },.returned j true)
  | _, _ => none

def purgeStep (s : Shared) : PurgePc → Option (Shared × PurgePc)
  | .bump => some ({ s with gen := s.gen + 1 },.drop)
  | .drop =>
      let (js,p) := Park.dropParked 0 s.park
      some ({ s.closeJobs js with park := p, dropped := s.dropped ++ js },.readEnd)
  | .readEnd => if s.curMx then none else some ({ s with curMx := true },.take s.slots.length)
  | .take n =>
      if (s.slots.take n).all (·.2) then
        some ({ s with slots := s.slots.drop n, curMx := false },
          .closing ((s.slots.take n).map (·.1)))
      else none
  | .closing (j :: js) => some ({ s.closeJob j with dropped := s.dropped ++ [j] },.closing js)
  | .closing [] => none

def queueStep (s : Shared) : QueuePc → Option (Shared × QueuePc)
  | .flag on => some ({ s with paused := on },if s.paused = on then .done else .hook)
  | .hook => some ({ s with park := { s.park with parkHeld := s.park.parkHeld || s.paused } },.done)
  | .done => none

def waitStep (s : Shared) : WaitPc → Option (Shared × WaitPc)
  | .status => some (s,match s.status with
      | .running | .idle => .taken
      | .initiated => .returned
      | _ => .cur)
  | .taken => some (s,.busy s.curProcessing)
  | .busy taken => some (s,.pending (taken - s.busyWorkers) .parked)
  | .pending b (.done n) => some (s,if n + b = 0 then .cur else .status)
  | .pending b pc => (pendingStep s pc).map fun (s',pc') => (s',.pending b pc')
  | .cur => some (s,if s.curProcessing = 0 then .returned else .status)
  | .returned => none

def step (s : Shared) : Thread → Choice → Option (Shared × Thread × List Thread)
  | .loop pc, c => (loopStep s pc c).map fun (s',pc',new) => (s',.loop pc',new)
  | .batch b pc, .go => (batchStep s b pc).map fun (s',b',pc') => (s',.batch b' pc',[])
  | .add pc, c => (addStep s pc c).map fun (s',pc') => (s',.add pc',[])
  | .close j false, .go => some (s.closeJob j,.close j true,[])
  | .purge pc, .go => (purgeStep s pc).map fun (s',pc') => (s',.purge pc',[])
  | .queue pc, .go => (queueStep s pc).map fun (s',pc') => (s',.queue pc',[])
  | .wait before pc, .go => (waitStep s pc).map fun (s',pc') => (s',.wait before pc',[])
  | .lifecycle q false, .go => some ({ s with status := q },.lifecycle q true,[])
  | _, _ => none

inductive Act (s : Shared) (c : Choice) : Thread → Shared → Thread → List Thread → Prop
  | loop {pc pc' : LoopPc} {s' : Shared} {new : List Thread}
      (hp : loopStep s pc c = some (s',pc',new)) : Act s c (.loop pc) s' (.loop pc') new
  | batch {b b' : Batch} {pc pc' : BatchPc} {s' : Shared}
      (hp : batchStep s b pc = some (s',b',pc')) : Act s c (.batch b pc) s' (.batch b' pc') []
  | add {pc pc' : AddPc} {s' : Shared} (hp : addStep s pc c = some (s',pc')) :
      Act s c (.add pc) s' (.add pc') []
  | close {j : ℕ} : Act s c (.close j false) (s.closeJob j) (.close j true) []
  | purge {pc pc' : PurgePc} {s' : Shared} (hp : purgeStep s pc = some (s',pc')) :
      Act s c (.purge pc) s' (.purge pc') []
  | queue {pc pc' : QueuePc} {s' : Shared} (hp : queueStep s pc = some (s',pc')) :
      Act s c (.queue pc) s' (.queue pc') []
  | wait {js : List ℕ} {pc pc' : WaitPc} {s' : Shared} (hp : waitStep s pc = some (s',pc')) :
      Act s c (.wait js pc) s' (.wait js pc') []
  | lifecycle {q : Worker.Status} :
      Act s c (.lifecycle q false) { s with status := q } (.lifecycle q true) []

theorem step_act {s s' : Shared} {l l' : Thread} {c : Choice} {new : List Thread}
    (hs : step s l c = some (s',l',new)) : Act s c l s' l' new := by
  unfold step at hs
  split at hs <;> try cases hs
  case h_4 => exact .close
  case h_8 => exact .lifecycle
  all_goals
    obtain ⟨_,hp,heq⟩ := Option.map_eq_some_iff.mp hs
    cases heq
  · exact .loop hp
  · exact .batch hp
  · exact .add hp
  · exact .purge hp
  · exact .queue hp
  · exact .wait hp

theorem pending_frame {s s' : Shared} {pc pc' : PendingPc}
    (hs : pendingStep s pc = some (s',pc')) :
    ∃ b, s' = { s with park := { s.park with parkHeld := b } } := by
  cases pc <;> cases hs
  case unheld => exact ⟨_,rfl⟩
  all_goals exact ⟨s.park.parkHeld,rfl⟩

theorem loop_pending {s s' : Shared} {pc : PendingPc} {pc' : LoopPc} {c : Choice}
    {new : List Thread} (hs : loopStep s (.pending pc) c = some (s',pc',new)) :
    new = [] ∧ ((∃ n, pc = .done n ∧ s' = s ∧ pc' = if 0 < n then .plan .parked else .select) ∨
      ∃ pc₁, pendingStep s pc = some (s',pc₁) ∧ pc' = .pending pc₁) := by
  cases c <;> cases pc <;> cases hs
  case go.done n => exact ⟨rfl,.inl ⟨n,rfl,rfl,rfl⟩⟩
  all_goals exact ⟨rfl,.inr ⟨_,rfl,rfl⟩⟩

theorem loop_plan {s s' : Shared} {pc : PendingPc} {pc' : LoopPc} {c : Choice}
    {new : List Thread} (hs : loopStep s (.plan pc) c = some (s',pc',new)) :
    new = [] ∧ ((∃ n, pc = .done n ∧ s' = s ∧ pc' = .pick n) ∨
      ∃ pc₁, pendingStep s pc = some (s',pc₁) ∧ pc' = .plan pc₁) := by
  cases c <;> cases pc <;> cases hs
  case go.done n => exact ⟨rfl,.inl ⟨n,rfl,rfl,rfl⟩⟩
  all_goals exact ⟨rfl,.inr ⟨_,rfl,rfl⟩⟩

theorem wait_pending {s s' : Shared} {n : ℕ} {pc : PendingPc} {pc' : WaitPc}
    (hs : waitStep s (.pending n pc) = some (s',pc')) :
    (∃ m, pc = .done m ∧ s' = s ∧ pc' = if m + n = 0 then .cur else .status) ∨
      ∃ pc₁, pendingStep s pc = some (s',pc₁) ∧ pc' = .pending n pc₁ := by
  cases pc <;> cases hs
  case done m => exact .inl ⟨m,rfl,rfl,rfl⟩
  all_goals exact .inr ⟨_,rfl,rfl⟩

theorem loop_pending_frame {s s' : Shared} {pc : PendingPc} {pc' : LoopPc} {c : Choice}
    {new : List Thread} (hs : loopStep s (.pending pc) c = some (s',pc',new)) :
    new = [] ∧ ∃ b, s' = { s with park := { s.park with parkHeld := b } } := by
  obtain ⟨hn,⟨n,-,rfl,-⟩ | ⟨pc₁,hp,-⟩⟩ := loop_pending hs
  · exact ⟨hn,s'.park.parkHeld,rfl⟩
  · exact ⟨hn,pending_frame hp⟩

theorem loop_plan_frame {s s' : Shared} {pc : PendingPc} {pc' : LoopPc} {c : Choice}
    {new : List Thread} (hs : loopStep s (.plan pc) c = some (s',pc',new)) :
    new = [] ∧ ∃ b, s' = { s with park := { s.park with parkHeld := b } } := by
  obtain ⟨hn,⟨n,-,rfl,-⟩ | ⟨pc₁,hp,-⟩⟩ := loop_plan hs
  · exact ⟨hn,s'.park.parkHeld,rfl⟩
  · exact ⟨hn,pending_frame hp⟩

theorem wait_frame {s s' : Shared} {pc pc' : WaitPc} (hs : waitStep s pc = some (s',pc')) :
    ∃ b, s' = { s with park := { s.park with parkHeld := b } } := by
  cases pc with
  | pending n pc =>
    rcases wait_pending hs with ⟨m,-,rfl,-⟩ | ⟨pc₁,hp,-⟩
    · exact ⟨s'.park.parkHeld,rfl⟩
    · exact pending_frame hp
  | returned => cases hs
  | _ =>
    cases hs
    exact ⟨s.park.parkHeld,rfl⟩

def entry (s : Shared) : Thread → Bool
  | .add .new | .purge .bump | .queue (.flag _) | .lifecycle _ false => true
  | .close j false => s.accepted.contains j
  | .wait before .status => before = s.accepted
  | _ => false

def program : Program Shared Thread Choice := ⟨entry,step⟩

def newWorker (concurrency : ℕ) : World Shared Thread :=
  ⟨{ status := .initiated, job := fun _ => .created, fresh := 0, slots := [], claimed := [],
     curMx := false, paused := false, refusals := 0, gen := 0, park := Parked.empty,
     dispatched := 0, curProcessing := 0, busyWorkers := 0, concurrency := concurrency,
     accepted := [], started := [], ran := [], dropped := [] },[.loop .select]⟩

end Varmq.Dispatch
