import Varmq.Job.Basic

namespace Varmq.Group

open Interleaving
open Varmq.Jobs (Status Error Outcome closeable notClosed)

inductive Kind where
  | result
  | error
  deriving DecidableEq, Repr

-- A result queue's channel carries Results, an error queue's the bare errors.
inductive Message (R : Type) where
  | data (jobId : String) (r : R)
  | failed (jobId : String) (e : String)
  | error (e : String)
  deriving DecidableEq, Repr

variable {R : Type}

def message (k : Kind) (jobId : String) (o : Outcome R) : Option (Message R) :=
  match k, o with
  | .result, .ok r => some (.data jobId r)
  | .result, .error e | .result, .panic e => some (.failed jobId e)
  | .error, .ok _ => none
  | .error, .error e | .error, .panic e => some (.error e)

inductive Fate where
  | ran
  | refused
  | purged
  deriving DecidableEq, Repr

-- `count` and `wg` are the WgCounter's, `buffer` and `closes` the shared channel's; the last three
-- fields are ghost state: the members counted off, the runs that returned, the values sent.
structure Shared (R : Type) where
  kind : Kind
  ids : List String
  count : ℕ
  wg : ℤ
  status : List Status
  stored : List ℕ
  buffer : List (Message R)
  closes : ℕ
  counted : List (ℕ × Fate)
  ran : List (ℕ × Outcome R)
  sent : List (ℕ × Message R)
  deriving DecidableEq, Repr

def Shared.statusOf (s : Shared R) (m : ℕ) : Status := s.status.getD m .created

def Shared.idOf (s : Shared R) (m : ℕ) : String := s.ids.getD m ""

def Shared.setStatus (s : Shared R) (m : ℕ) (q : Status) : Shared R :=
  { s with status := s.status.set m q }

def groupIdPrefixed : String := "g:"

def generateGroupId (id : String) : String := if id = "" then "" else groupIdPrefixed ++ id

def uint32Size : ℕ := 4294967296

-- count is a uint32; WaitGroup keeps an int32 and Add panics when it turns negative.
def newWgCounter (n : ℕ) : Option (ℕ × ℤ) :=
  if Int.bmod n uint32Size < 0 then none else some (n % uint32Size,Int.bmod n uint32Size)

def newGroupJob (k : Kind) (items : List String) : Option (Shared R) :=
  (newWgCounter items.length).map fun (count,wg) => {
    kind := k, ids := items.map generateGroupId, count, wg, status := [], stored := [], buffer := [],
    closes := if items.length = 0 then 1 else 0, counted := [], ran := [], sent := [] }

inductive ClosePc where
  | claimLoad
  | claimCas (s : Status)
  | doneLoad
  | doneCas (n : ℕ)
  | wgDone (last : Bool)
  | closeResp
  | returned (r : Option Error)
  | panicked
  deriving DecidableEq, Repr

def closeStep (s : Shared R) (m : ℕ) (f : Fate) : ClosePc → Option (Shared R × ClosePc)
  | .claimLoad =>
      match closeable (s.statusOf m) with
      | some e => some (s,.returned (some e))
      | none => some (s,.claimCas (s.statusOf m))
  | .claimCas q =>
      if s.statusOf m = q then some (s.setStatus m .closed,.doneLoad) else some (s,.claimLoad)
  | .doneLoad => some (s,if s.count = 0 then .returned none else .doneCas s.count)
  | .doneCas n =>
      if s.count = n then
        some ({ s with count := n - 1, counted := (m,f) :: s.counted },.wgDone (n = 1))
      else some (s,.doneLoad)
  | .wgDone last =>
      if s.wg - 1 < 0 then some (s,.panicked)
      else some ({ s with wg := s.wg - 1 },if last then .closeResp else .returned none)
  | .closeResp =>
      if 0 < s.closes then some (s,.panicked)
      else some ({ s with closes := s.closes + 1 },.returned none)
  | .returned _ | .panicked => none

inductive AddPc where
  | new (i : ℕ)
  | enqueue (i : ℕ)
  | mark (i : ℕ)
  | close (i : ℕ) (pc : ClosePc)
  | done
  deriving DecidableEq, Repr

inductive Choice (R : Type) where
  | go
  | flag (b : Bool)
  | take (m : ℕ)
  | ran (o : Outcome R)
  deriving DecidableEq, Repr

-- The flag says whether the storage took the member.
def addAllStep (s : Shared R) : AddPc → Choice R → Option (Shared R × AddPc)
  | .new i, .go =>
      if i < s.ids.length then some ({ s with status := s.status ++ [.created] },.enqueue i)
      else some (s,.done)
  | .enqueue i, .flag true => some ({ s with stored := s.stored ++ [i] },.mark i)
  | .enqueue i, .flag false => some (s,.close i .claimLoad)
  | .mark i, .go =>
      some (if s.statusOf i = .created then s.setStatus i .queued else s,.new (i + 1))
  | .close i (.returned _), .go => some (s,.new (i + 1))
  | .close i pc, .go => (closeStep s i .refused pc).map fun (s',pc') => (s',.close i pc')
  | _, _ => none

inductive RunPc (R : Type) where
  | check
  | stale
  | startLoad
  | startCas (s : Status)
  | exec
  | sendResult (r : R)
  | sendError (e : String)
  | finish
  | close (f : Fate) (pc : ClosePc)
  | done
  | panicked
  deriving DecidableEq, Repr

def Shared.send (s : Shared R) (m : ℕ) (x : Message R) : Shared R :=
  { s with buffer := s.buffer ++ [x], sent := (m,x) :: s.sent }

def failure (k : Kind) (jobId e : String) : Message R :=
  match k with
  | .result => .failed jobId e
  | .error => .error e

def closedSend : String := "send on closed channel"

-- The worker function runs inside WithSafe, and so does the send of its result. A send on a full
-- channel blocks.
def runStep (s : Shared R) (m : ℕ) : RunPc R → Choice R → Option (Shared R × RunPc R)
  | .check, .go => some (s,if s.statusOf m = .closed then .done else .stale)
  | .stale, .flag true => some (s,.close .purged .claimLoad)
  | .stale, .flag false => some (s,.startLoad)
  | .startLoad, .go =>
      match notClosed (s.statusOf m) with
      | some _ => some (s,.done)
      | none => some (s,.startCas (s.statusOf m))
  | .startCas q, .go =>
      if s.statusOf m = q then some (s.setStatus m .processing,.exec) else some (s,.startLoad)
  | .exec, .ran o =>
      some ({ s with ran := (m,o) :: s.ran },
        match s.kind, o with
        | .result, .ok r => .sendResult r
        | .error, .ok _ => .finish
        | _, .error e | _, .panic e => .sendError e)
  | .sendResult r, .go =>
      if 0 < s.closes then some (s,.sendError closedSend)
      else if s.buffer.length < s.ids.length then some (s.send m (.data (s.idOf m) r),.finish)
      else none
  | .sendError e, .go =>
      if 0 < s.closes then some (s,.panicked)
      else if s.buffer.length < s.ids.length then
        some (s.send m (failure s.kind (s.idOf m) e),.finish)
      else none
  | .finish, .go => some (s.setStatus m .finished,.close .ran .claimLoad)
  | .close _ (.returned _), .go => some (s,.done)
  | .close f pc, .go => (closeStep s m f pc).map fun (s',pc') => (s',.close f pc')
  | _, _ => none

inductive PurgePc where
  | values
  | next (rest : List ℕ)
  | close (m : ℕ) (rest : List ℕ) (pc : ClosePc)
  | done
  deriving DecidableEq, Repr

def purgeStep (s : Shared R) : PurgePc → Option (Shared R × PurgePc)
  | .values => some ({ s with stored := [] },.next s.stored)
  | .next [] => some (s,.done)
  | .next (m :: rest) => some (s,.close m rest .claimLoad)
  | .close _ rest (.returned _) => some (s,.next rest)
  | .close m rest pc => (closeStep s m .purged pc).map fun (s',pc') => (s',.close m rest pc')
  | .done => none

inductive Thread (R : Type) where
  | addAll (pc : AddPc)
  | dispatch
  | run (m : ℕ) (pc : RunPc R)
  | purge (pc : PurgePc)
  | read (received : Option (Message R))
  deriving DecidableEq, Repr

-- A dispatch takes any stored member: a priority queue's order is not the order of the items.
def step (s : Shared R) : Thread R → Choice R → Option (Shared R × Thread R × List (Thread R))
  | .addAll pc, c => (addAllStep s pc c).map fun (s',pc') => (s',.addAll pc',[])
  | .dispatch, .take m =>
      if m ∈ s.stored then some ({ s with stored := s.stored.erase m },.run m .check,[]) else none
  | .run m pc, c => (runStep s m pc c).map fun (s',pc') => (s',.run m pc',[])
  | .purge pc, .go => (purgeStep s pc).map fun (s',pc') => (s',.purge pc',[])
  | .read none, .go =>
      match s.buffer with
      | [] => none
      | x :: rest => some ({ s with buffer := rest },.read (some x),[])
  | _, _ => none

def entry (_ : Shared R) : Thread R → Bool
  | .dispatch | .purge .values | .read none => true
  | _ => false

def program (R : Type) : Program (Shared R) (Thread R) (Choice R) := ⟨entry,step⟩

def addAll (s : Shared R) : World (Shared R) (Thread R) := ⟨s,[.addAll (.new 0)]⟩

-- Who calls Close on a member.
inductive Caller where
  | addAll (i : ℕ)
  | run (m : ℕ) (f : Fate)
  | purge (m : ℕ) (rest : List ℕ)
  deriving DecidableEq, Repr

def Caller.member : Caller → ℕ
  | .addAll i => i
  | .run m _ => m
  | .purge m _ => m

def Caller.fate : Caller → Fate
  | .addAll _ => .refused
  | .run _ f => f
  | .purge _ _ => .purged

def Caller.thread : Caller → ClosePc → Thread R
  | .addAll i, pc => .addAll (.close i pc)
  | .run m f, pc => .run m (.close f pc)
  | .purge m rest, pc => .purge (.close m rest pc)

def Caller.after : Caller → Thread R
  | .addAll i => .addAll (.new (i + 1))
  | .run m _ => .run m .done
  | .purge _ rest => .purge (.next rest)

variable {s s' : Shared R} {l l' : Thread R} {c : Choice R} {new : List (Thread R)}

inductive Act (s : Shared R) : Thread R → Shared R → Thread R → Prop
  | close {k : Caller} {pc pc' : ClosePc} {s' : Shared R}
      (hp : closeStep s k.member k.fate pc = some (s',pc')) : Act s (k.thread pc) s' (k.thread pc')
  | closed {k : Caller} {r : Option Error} : Act s (k.thread (.returned r)) s k.after
  | new {i : ℕ} (hi : i < s.ids.length) :
      Act s (.addAll (.new i)) { s with status := s.status ++ [.created] } (.addAll (.enqueue i))
  | added {i : ℕ} (hi : ¬i < s.ids.length) : Act s (.addAll (.new i)) s (.addAll .done)
  | accept {i : ℕ} :
      Act s (.addAll (.enqueue i)) { s with stored := s.stored ++ [i] } (.addAll (.mark i))
  | refuse {i : ℕ} : Act s (.addAll (.enqueue i)) s (.addAll (.close i .claimLoad))
  | mark {i : ℕ} : Act s (.addAll (.mark i))
      (if s.statusOf i = .created then s.setStatus i .queued else s) (.addAll (.new (i + 1)))
  | take {m : ℕ} (hm : m ∈ s.stored) :
      Act s .dispatch { s with stored := s.stored.erase m } (.run m .check)
  | skip {m : ℕ} {pc : RunPc R} (hpc : pc = .check ∨ pc = .startLoad)
      (hq : s.statusOf m = .closed) : Act s (.run m pc) s (.run m .done)
  | checked {m : ℕ} : Act s (.run m .check) s (.run m .stale)
  | stale {m : ℕ} : Act s (.run m .stale) s (.run m (.close .purged .claimLoad))
  | fresh {m : ℕ} : Act s (.run m .stale) s (.run m .startLoad)
  | loaded {m : ℕ} : Act s (.run m .startLoad) s (.run m (.startCas (s.statusOf m)))
  | started {m : ℕ} : Act s (.run m (.startCas (s.statusOf m))) (s.setStatus m .processing) (.run m .exec)
  | raced {m : ℕ} {q : Status} : Act s (.run m (.startCas q)) s (.run m .startLoad)
  | ran {m : ℕ} {o : Outcome R} {pc : RunPc R}
      (hpc : (pc = .finish ∧ message s.kind (s.idOf m) o = none) ∨
        (∃ r, pc = .sendResult r ∧ message s.kind (s.idOf m) o = some (.data (s.idOf m) r)) ∨
        (∃ e, pc = .sendError e ∧ message s.kind (s.idOf m) o = some (failure s.kind (s.idOf m) e))) :
      Act s (.run m .exec) { s with ran := (m,o) :: s.ran } (.run m pc)
  | late {m : ℕ} {pc pc' : RunPc R} (hc : 0 < s.closes)
      (hpc : (∃ r, pc = .sendResult r) ∨ ∃ e, pc = .sendError e) : Act s (.run m pc) s (.run m pc')
  | sendResult {m : ℕ} {r : R} (hc : s.closes = 0) (hb : s.buffer.length < s.ids.length) :
      Act s (.run m (.sendResult r)) (s.send m (.data (s.idOf m) r)) (.run m .finish)
  | sendError {m : ℕ} {e : String} (hc : s.closes = 0) (hb : s.buffer.length < s.ids.length) :
      Act s (.run m (.sendError e)) (s.send m (failure s.kind (s.idOf m) e)) (.run m .finish)
  | finish {m : ℕ} :
      Act s (.run m .finish) (s.setStatus m .finished) (.run m (.close .ran .claimLoad))
  | values : Act s (.purge .values) { s with stored := [] } (.purge (.next s.stored))
  | purged : Act s (.purge (.next [])) s (.purge .done)
  | next {m : ℕ} {ms : List ℕ} : Act s (.purge (.next (m :: ms))) s (.purge (.close m ms .claimLoad))
  | read {x : Message R} {xs : List (Message R)} (hb : s.buffer = x :: xs) :
      Act s (.read none) { s with buffer := xs } (.read (some x))

theorem addAll_act {pc pc' : AddPc} (hs : addAllStep s pc c = some (s',pc')) :
    Act s (.addAll pc) s' (.addAll pc') := by
  cases pc with
  | new i =>
    cases c <;> simp only [addAllStep] at hs <;> try cases hs
    split at hs <;> cases hs
    · exact .new ‹_›
    · exact .added ‹_›
  | enqueue i =>
    cases c with
    | flag b =>
      cases b <;> cases hs
      · exact .refuse
      · exact .accept
    | _ => cases hs
  | mark i =>
    cases c <;> cases hs
    exact .mark
  | close i pc =>
    cases c with
    | go =>
      by_cases hr : ∃ r, pc = .returned r
      · obtain ⟨r,rfl⟩ := hr
        cases hs
        exact .closed (k := .addAll i)
      · have he : addAllStep s (.close i pc) .go =
            (closeStep s i .refused pc).map fun (s',pc') => (s',.close i pc') := by
          cases pc <;> first | rfl | exact absurd ⟨_,rfl⟩ hr
        rw [he,Option.map_eq_some_iff] at hs
        obtain ⟨⟨s₁,pc₁⟩,hp,heq⟩ := hs
        cases heq
        exact .close (k := .addAll i) hp
    | _ => cases pc <;> cases hs
  | done => cases c <;> cases hs

theorem purge_act {pc pc' : PurgePc} (hs : purgeStep s pc = some (s',pc')) :
    Act s (.purge pc) s' (.purge pc') := by
  cases pc with
  | values =>
    cases hs
    exact .values
  | next ms =>
    cases ms <;> cases hs
    · exact .purged
    · exact .next
  | close m ms pc =>
    by_cases hr : ∃ r, pc = .returned r
    · obtain ⟨r,rfl⟩ := hr
      cases hs
      exact .closed (k := .purge m ms)
    · have he : purgeStep s (.close m ms pc) =
          (closeStep s m .purged pc).map fun (s',pc') => (s',.close m ms pc') := by
        cases pc <;> first | rfl | exact absurd ⟨_,rfl⟩ hr
      rw [he,Option.map_eq_some_iff] at hs
      obtain ⟨⟨s₁,pc₁⟩,hp,heq⟩ := hs
      cases heq
      exact .close (k := .purge m ms) hp
  | done => cases hs

theorem run_act {m : ℕ} {pc pc' : RunPc R} (hs : runStep s m pc c = some (s',pc')) :
    Act s (.run m pc) s' (.run m pc') := by
  cases pc with
  | check =>
    cases c <;> cases hs
    split
    · exact .skip (.inl rfl) ‹_›
    · exact .checked
  | stale =>
    cases c with
    | flag b =>
      cases b <;> cases hs
      · exact .fresh
      · exact .stale
    | _ => cases hs
  | startLoad =>
    cases c <;> simp only [runStep] at hs <;> try cases hs
    split at hs <;> cases hs
    · refine .skip (.inr rfl) ?_
      revert ‹notClosed _ = _›
      cases s.statusOf m <;> simp [notClosed]
    · exact .loaded
  | startCas q =>
    cases c <;> simp only [runStep] at hs <;> try cases hs
    split at hs
    · rename_i hq
      cases hs
      subst hq
      exact .started
    · cases hs
      exact .raced
  | exec =>
    cases c with
    | ran o =>
      cases hs
      refine .ran ?_
      cases o <;> cases s.kind <;> simp [message,failure]
    | _ => cases hs
  | sendResult r =>
    cases c <;> simp only [runStep] at hs <;> try cases hs
    split at hs
    · cases hs
      exact .late ‹_› (.inl ⟨r,rfl⟩)
    · split at hs <;> cases hs
      exact .sendResult (by omega) ‹_›
  | sendError e =>
    cases c <;> simp only [runStep] at hs <;> try cases hs
    split at hs
    · cases hs
      exact .late ‹_› (.inr ⟨e,rfl⟩)
    · split at hs <;> cases hs
      exact .sendError (by omega) ‹_›
  | finish =>
    cases c <;> cases hs
    exact .finish
  | close f pc =>
    cases c with
    | go =>
      by_cases hr : ∃ r, pc = .returned r
      · obtain ⟨r,rfl⟩ := hr
        cases hs
        exact .closed (k := .run m f)
      · have he : runStep s m (.close f pc) .go =
            (closeStep s m f pc).map fun (s',pc') => (s',.close f pc') := by
          cases pc <;> first | rfl | exact absurd ⟨_,rfl⟩ hr
        rw [he,Option.map_eq_some_iff] at hs
        obtain ⟨⟨s₁,pc₁⟩,hp,heq⟩ := hs
        cases heq
        exact .close (k := .run m f) hp
    | _ => cases pc <;> cases hs
  | done => cases c <;> cases hs
  | panicked => cases c <;> cases hs

theorem step_act (hs : step s l c = some (s',l',new)) : Act s l s' l' ∧ new = [] := by
  cases l with
  | addAll pc =>
    obtain ⟨⟨s₁,pc'⟩,hp,heq⟩ := Option.map_eq_some_iff.mp hs
    cases heq
    exact ⟨addAll_act hp,rfl⟩
  | dispatch =>
    cases c <;> simp only [step] at hs <;> try cases hs
    split at hs <;> cases hs
    exact ⟨.take ‹_›,rfl⟩
  | run m pc =>
    obtain ⟨⟨s₁,pc'⟩,hp,heq⟩ := Option.map_eq_some_iff.mp hs
    cases heq
    exact ⟨run_act hp,rfl⟩
  | purge pc =>
    cases c with
    | go =>
      obtain ⟨⟨s₁,pc'⟩,hp,heq⟩ := Option.map_eq_some_iff.mp hs
      cases heq
      exact ⟨purge_act hp,rfl⟩
    | _ => cases hs
  | read r =>
    cases r with
    | none =>
      cases c <;> simp only [step] at hs <;> try cases hs
      split at hs <;> cases hs
      exact ⟨.read ‹_›,rfl⟩
    | some x => cases c <;> cases hs

end Varmq.Group
