import Mathlib.Logic.Function.Basic
import Varmq.Job.Basic
import Varmq.Park.Basic

namespace Varmq.Stats

open Interleaving

-- The handle is the memQueue the job's shared ackRef points to.
structure Job where
  id : ℕ
  handle : ℕ
  deriving DecidableEq,Repr

structure Worker where
  halting : Bool
  parkMx : Bool
  parked : Park.Parked Job
  dispatched : ℕ

-- One FIFO storage with its purge counter, the workers bound to it, and for every handle its
-- memQueue; accepted, ran and dropped are ghost: what storage took, what was run, and what left
-- without being run.
structure Shared where
  queue : List Job
  paused : Bool
  gen : ℕ
  status : ℕ → Jobs.Status
  made : ℕ
  workers : List Worker
  submitted : ℕ → ℤ
  completed : ℕ → ℕ
  failed : ℕ → ℕ
  processing : ℕ → ℤ
  accepted : List Job
  ran : List Job
  dropped : List Job

inductive Choice where
  | go
  | no
  | batch (k : ℕ)
  deriving DecidableEq,Repr

namespace Shared

def added (s : Shared) (m : ℕ) (n : ℤ) : Shared :=
  { s with submitted := Function.update s.submitted m (s.submitted m + n) }

def memTaken (s : Shared) (m : ℕ) (n : ℤ) : Shared :=
  { s with processing := Function.update s.processing m (s.processing m + n) }

def succeed (s : Shared) (j : Job) : Shared :=
  { s with completed := Function.update s.completed j.handle (s.completed j.handle + 1) }

def fail (s : Shared) (j : Job) : Shared :=
  { s with failed := Function.update s.failed j.handle (s.failed j.handle + 1) }

def changeStatus (s : Shared) (j : Job) (st : Jobs.Status) : Shared :=
  { s with status := Function.update s.status j.id st }

-- claimClose; what it returns is ignored
def close (s : Shared) (j : Job) : Shared :=
  if Jobs.closeable (s.status j.id) = none then s.changeStatus j .closed else s

def markQueued (s : Shared) (j : Job) : Shared :=
  if s.status j.id = .created then s.changeStatus j .queued else s

def drop (s : Shared) (j : Job) : Shared := { s with dropped := s.dropped ++ [j] }

def setWorker (s : Shared) (i : ℕ) (w : Worker) : Shared :=
  { s with workers := s.workers.set i w }

-- The storage's counter and pause as Park reads them: there is one of each.
def gens (s : Shared) : ℕ → ℕ := fun _ => s.gen

def pauses (s : Shared) : ℕ → Bool := fun _ => s.paused

end Shared

structure MemRun where
  m : Option ℕ
  n : ℤ
  deriving DecidableEq,Repr

namespace MemRun

def empty : MemRun := ⟨none,0⟩

def flush (r : MemRun) (s : Shared) : Shared × MemRun :=
  if r.n = 0 then (s,r)
  else
    match r.m with
    | none => (s,⟨none,0⟩)
    | some m => (s.memTaken m r.n,⟨some m,0⟩)

def add (r : MemRun) (s : Shared) (m : ℕ) (d : ℤ) : Shared × MemRun :=
  if r.m = some m then (s,⟨some m,r.n + d⟩)
  else ((r.flush s).1,⟨some m,(r.flush s).2.n + d⟩)

end MemRun

-- Add is AddAll of one item.
inductive AddPc where
  | count
  | store (j : Job)
  | markQueued (j : Job)
  | close (j : Job)
  | uncount
  | returned
  deriving DecidableEq,Repr

def nextItem : ℕ → ℕ × AddPc
  | 0 => (0,.returned)
  | n + 1 => (n,.count)

-- Whether the storage takes the job (its capacity, its ids, a Close) is free.
def addStep (s : Shared) (m n : ℕ) : AddPc → Choice → Option (Shared × ℕ × AddPc)
  | .count,_ =>
      some ({ s.added m 1 with
        made := s.made + 1, status := Function.update s.status s.made .created },n,
        .store ⟨s.made,m⟩)
  | .store j,.no => some (s,n,.close j)
  | .store j,_ =>
      some ({ s with queue := s.queue ++ [j], accepted := s.accepted ++ [j] },n,.markQueued j)
  | .markQueued j,_ => some (s.markQueued j,nextItem n)
  | .close j,_ => some (s.close j,n,.uncount)
  | .uncount,_ => some (s.added m (-1),nextItem n)
  | .returned,_ => none

inductive DispatchPc where
  | plan
  | unpark (sole : Bool) (k : ℕ)
  | next (sole : Bool) (k : ℕ) (buf : List Job) (run : MemRun)
  | took (sole : Bool) (k : ℕ) (buf : List Job) (run : MemRun) (j : Job)
  | flush (sole : Bool) (buf : List Job) (run : MemRun)
  | stamp (sole : Bool) (buf : List Job)
  | send (buf : List Job) (st : Park.Stamp)
  | returned

inductive BatchPc where
  | stale (i : ℕ) (jobs : List Job) (run : MemRun)
  | halting (i : ℕ) (j : Job) (jobs : List Job) (run : MemRun)
  | start (i : ℕ) (j : Job) (jobs : List Job) (run : MemRun)
  | work (i : ℕ) (j : Job) (jobs : List Job) (run : MemRun)
  | finish (i : ℕ) (j : Job) (jobs : List Job) (run : MemRun)
  | close (i : ℕ) (j : Job) (jobs : List Job) (run : MemRun)
  | count (i : ℕ) (j : Job) (jobs : List Job) (run : MemRun)
  | purged (i : ℕ) (j : Job) (jobs : List Job) (run : MemRun)
  | skip (i : ℕ) (j : Job) (jobs : List Job) (run : MemRun)
  | park (i : ℕ) (jobs : List Job) (run : MemRun)
  | parkClose (jobs : List Job) (run : MemRun)
  | parkTaken (j : Job) (jobs : List Job) (run : MemRun)
  | flush (run : MemRun)
  | returned

inductive PurgePc where
  | bump
  | hooks
  | drop (ws : List ℕ)
  | dropClose (w : ℕ) (jobs : List Job) (ws : List ℕ)
  | dropTaken (w : ℕ) (j : Job) (jobs : List Job) (ws : List ℕ)
  | values
  | close (jobs : List Job)
  | returned

inductive Thread where
  | add (m n : ℕ) (pc : AddPc)
  | dispatch (w : ℕ) (pc : DispatchPc)
  | batch (w : ℕ) (st : Park.Stamp) (pc : BatchPc)
  | purge (pc : PurgePc)
  | close (j : Job) (done : Bool)
  | bind (done : Bool)
  | setHalting (w : ℕ) (on done : Bool)
  | setPaused (on done : Bool)

-- processNextJob; sole says that its manager has this storage as the only source, which batches.
def dispatchStep (s : Shared) (w : ℕ) :
    DispatchPc → Choice → Option (Shared × DispatchPc × Option (Park.Stamp × List Job))
  -- planBatch and reserve
  | .plan,c =>
      match s.workers[w]? with
      | none => none
      | some wk =>
          if wk.halting then some (s,.returned,none)
          else
            match c with
            | .no => some (s,.returned,none)
            | .go => some (s,.unpark false 1,none)
            | .batch k => some (s,.unpark true k,none)
  | .unpark sole k,_ =>
      match s.workers[w]? with
      | none => none
      | some wk =>
          if wk.parked.nParked = 0 then some (s,.next sole k [] .empty,none)
          else if wk.parkMx then none
          else
            match Park.unpark s.pauses wk.parked k with
            | ([],_,parked) =>
                some (s.setWorker w { wk with parked := parked },.next sole k [] .empty,none)
            | (j :: js,st,parked) =>
                some (s.setWorker w { wk with parked := parked },.send (j :: js) st,none)
  -- fillBatch: full, another source picked, paused or empty, or the front job
  | .next sole k buf run,c =>
      if buf.length < k ∧ c ≠ .no ∧ s.paused = false then
        match s.queue with
        | [] => some (s,.flush sole buf run,none)
        | j :: queue => some ({ s with queue := queue },.took sole k buf run j,none)
      else some (s,.flush sole buf run,none)
  -- the job is of a type this worker cannot run
  | .took sole _ buf run j,.no => some (s.drop j,.flush sole buf run,none)
  | .took sole k buf run j,_ =>
      if s.status j.id = .closed then some (s.drop j,.next sole k buf run,none)
      else some ((run.add s j.handle 1).1,.next sole k (buf ++ [j]) (run.add s j.handle 1).2,none)
  | .flush sole buf run,_ => some ((run.flush s).1,.stamp sole buf,none)
  | .stamp _ [],_ => some (s,.returned,none)
  | .stamp false (j :: js),_ => some (s,.send (j :: js) .zero,none)
  | .stamp true (j :: js),_ =>
      match s.workers[w]? with
      | none => none
      | some wk =>
          some (s.setWorker w { wk with dispatched := wk.dispatched + (j :: js).length },
            .send (j :: js) ⟨some 0,s.gen,wk.dispatched,some ⟨0,true⟩⟩,none)
  | .send buf st,_ => some (s,.returned,some (st,buf))
  | .returned,_ => none

def batchStep (s : Shared) (w : ℕ) (st : Park.Stamp) : BatchPc → Choice → Option (Shared × BatchPc)
  | .stale _ [] run,_ => some (s,.flush run)
  | .stale i (j :: js) run,_ =>
      some (s,if st.stale s.gens then .purged i j js run else .halting i j js run)
  | .purged i j js run,_ => some (s.close j,.skip i j js run)
  | .halting i j js run,_ =>
      match s.workers[w]? with
      | none => none
      | some wk =>
          some (s,if 0 < i ∧ st.gen.isSome ∧ (wk.halting ∨ st.held s.pauses) then
            .park i (j :: js) run else .start i j js run)
  | .start i j js run,_ =>
      if Jobs.notClosed (s.status j.id) = none then
        some (s.changeStatus j .processing,.work i j js run)
      else some (s,.skip i j js run)
  -- workerFunc, which panics, fails or succeeds
  | .work i j js run,.no => some ({ s.fail j with ran := s.ran ++ [j] },.finish i j js run)
  | .work i j js run,_ => some ({ s.succeed j with ran := s.ran ++ [j] },.finish i j js run)
  | .finish i j js run,_ => some (s.changeStatus j .finished,.close i j js run)
  | .close i j js run,_ => some (s.close j,.count i j js run)
  | .count i j js run,_ =>
      some ((run.add s j.handle (-1)).1,.stale (i + 1) js (run.add s j.handle (-1)).2)
  | .skip i j js run,_ =>
      some ((run.add s j.handle (-1)).1.drop j,.stale (i + 1) js (run.add s j.handle (-1)).2)
  | .park i js run,_ =>
      match s.workers[w]? with
      | none => none
      | some wk =>
          if wk.parkMx then none
          else
            match Park.park s.gens s.pauses wk.parked js { st with seq := st.seq + i } with
            | (parked,[]) => some (s.setWorker w { wk with parked := parked },.flush run)
            | (parked,j :: js) =>
                some (s.setWorker w { wk with parkMx := true, parked := parked },
                  .parkClose (j :: js) run)
  | .parkClose [] run,_ =>
      match s.workers[w]? with
      | none => none
      | some wk => some (s.setWorker w { wk with parkMx := false },.flush run)
  | .parkClose (j :: js) run,_ => some (s.close j,.parkTaken j js run)
  | .parkTaken j js run,_ => some ((s.memTaken j.handle (-1)).drop j,.parkClose js run)
  | .flush run,_ => some ((run.flush s).1,.returned)
  | .returned,_ => none

def purgeStep (s : Shared) : PurgePc → Option (Shared × PurgePc)
  | .bump => some ({ s with gen := s.gen + 1 },.hooks)
  | .hooks => some (s,.drop (List.range s.workers.length))
  | .drop [] => some (s,.values)
  | .drop (w :: ws) =>
      match s.workers[w]? with
      | none => none
      | some wk =>
          if wk.parkMx then none
          else
            some (s.setWorker w { wk with parkMx := true, parked := (Park.dropParked 0 wk.parked).2 },
              .dropClose w (Park.dropParked 0 wk.parked).1 ws)
  | .dropClose w [] ws =>
      match s.workers[w]? with
      | none => none
      | some wk => some (s.setWorker w { wk with parkMx := false },.drop ws)
  | .dropClose w (j :: js) ws => some (s.close j,.dropTaken w j js ws)
  | .dropTaken w j js ws => some ((s.memTaken j.handle (-1)).drop j,.dropClose w js ws)
  | .values => some ({ s with queue := [], dropped := s.dropped ++ s.queue },.close s.queue)
  | .close [] => some (s,.returned)
  | .close (j :: js) => some (s.close j,.close js)
  | .returned => none

def entry (_ : Shared) : Thread → Bool
  | .add _ _ .count => true
  | .dispatch _ .plan => true
  | .purge .bump => true
  | .close _ false => true
  | .bind false => true
  | .setHalting _ _ false => true
  | .setPaused _ false => true
  | _ => false

def step (s : Shared) : Thread → Choice → Option (Shared × Thread × List Thread)
  | .add m n pc,c => (addStep s m n pc c).map fun (s',n',pc') => (s',.add m n' pc',[])
  | .dispatch w pc,c =>
      (dispatchStep s w pc c).map fun (s',pc',sent) =>
        (s',.dispatch w pc',(sent.map fun (st,buf) => .batch w st (.stale 0 buf .empty)).toList)
  | .batch w st pc,c => (batchStep s w st pc c).map fun (s',pc') => (s',.batch w st pc',[])
  | .purge pc,_ => (purgeStep s pc).map fun (s',pc') => (s',.purge pc',[])
  | .close j false,_ => some (s.close j,.close j true,[])
  | .bind false,_ =>
      some ({ s with workers := s.workers ++ [⟨false,false,.empty,0⟩] },.bind true,[])
  | .setHalting w on false,_ =>
      match s.workers[w]? with
      | none => none
      | some wk => some (s.setWorker w { wk with halting := on },.setHalting w on true,[])
  | .setPaused on false,_ => some ({ s with paused := on },.setPaused on true,[])
  | .close _ true,_ | .bind true,_ | .setHalting _ _ true,_ | .setPaused _ true,_ => none

def program : Program Shared Thread Choice := ⟨entry,step⟩

def init : World Shared Thread :=
  ⟨⟨[],false,0,fun _ => .created,0,[],fun _ => 0,fun _ => 0,fun _ => 0,fun _ => 0,[],[],[]⟩,[]⟩

def reached (w : World Shared Thread) : Prop := program.Reach always init w

end Varmq.Stats
