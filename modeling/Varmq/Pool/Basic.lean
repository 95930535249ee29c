import Mathlib.Data.Int.Notation
import Mathlib.Logic.Function.Basic
import Varmq.Interleaving.World

namespace Varmq.Pool

open Interleaving

-- A node is its address. `stack` is the list that the calls have left in the pool, the top first,
-- and `landed` the nodes in the order their pushes landed; no step reads them.
structure Shared where
  head : Option ℕ
  next : ℕ → Option ℕ
  len : ℤ
  popMx : Bool
  stack : List ℕ
  landed : List ℕ

inductive PushPc where
  | len
  | load
  | store (h : Option ℕ)
  | cas (h : Option ℕ)
  | done
  deriving DecidableEq, Repr

inductive PopPc where
  | lock
  | load
  | next (h : ℕ)
  | cas (h : ℕ) (n : Option ℕ)
  | len (h : ℕ)
  | unlock (r : Option ℕ)
  | returned (r : Option ℕ)
  deriving DecidableEq, Repr

-- What Prune knows in its second loop: the nodes of its first loop, how many pushes had landed when
-- it loaded the top, the answers of drop and what it has removed; `left` is n - keep - i.
structure Scan where
  counted : List ℕ
  since : ℕ
  asked : List (ℕ × Bool)
  dropped : List ℕ
  left : ℕ
  prev : Option ℕ
  deriving DecidableEq, Repr

inductive PrunePc where
  | lock
  | load
  | count (top : ℕ) (counted : List ℕ) (since e : ℕ)
  | scan (sc : Scan) (e : Option ℕ)
  | drop (sc : Scan) (e : ℕ) (next : Option ℕ)
  | cas (sc : Scan) (e : ℕ) (next : Option ℕ)
  | searchHead (sc : Scan) (e : ℕ) (next : Option ℕ)
  | search (sc : Scan) (e : ℕ) (next prev : Option ℕ)
  | follow (sc : Scan) (e : ℕ) (next : Option ℕ) (prev : ℕ)
  | link (sc : Scan) (e : ℕ) (next : Option ℕ) (prev : ℕ)
  | len (sc : Scan) (e : ℕ) (next : Option ℕ)
  | unlock (sc : Scan)
  | returned (sc : Scan)
  | nilPointer
  deriving DecidableEq, Repr

inductive Thread where
  | pushNode (e : ℕ) (pc : PushPc)
  | popBack (pc : PopPc)
  | prune (keep : ℤ) (pc : PrunePc)
  deriving DecidableEq, Repr

inductive Choice where
  | go
  | drop (b : Bool)
  deriving DecidableEq, Repr

def pushStep (s : Shared) (e : ℕ) : PushPc → Option (Shared × PushPc)
  | .len => some ({ s with len := s.len + 1 },.load)
  | .load => some (s,.store s.head)
  | .store h => some ({ s with next := Function.update s.next e h },.cas h)
  | .cas h =>
      if s.head = h then
        some ({ s with head := some e, stack := e :: s.stack, landed := s.landed ++ [e] },.done)
      else some (s,.load)
  | .done => none

def popStep (s : Shared) : PopPc → Option (Shared × PopPc)
  | .lock => if s.popMx then none else some ({ s with popMx := true },.load)
  | .load =>
      match s.head with
      | none => some (s,.unlock none)
      | some h => some (s,.next h)
  | .next h => some (s,.cas h (s.next h))
  | .cas h n =>
      if s.head = some h then some ({ s with head := n, stack := s.stack.erase h },.len h)
      else some (s,.load)
  | .len h => some ({ s with len := s.len - 1 },.unlock (some h))
  | .unlock r => some ({ s with popMx := false },.returned r)
  | .returned _ => none

def scanFrom (keep : ℤ) (counted : List ℕ) (since : ℕ) : Scan :=
  { counted, since, asked := [], dropped := [], left := (counted.length - keep).toNat, prev := none }

def Scan.keepNode (sc : Scan) (e : ℕ) : Scan :=
  { sc with asked := sc.asked ++ [(e,false)], left := sc.left - 1, prev := some e }

def Scan.dropNode (sc : Scan) (e : ℕ) : Scan :=
  { sc with asked := sc.asked ++ [(e,true)], dropped := sc.dropped ++ [e], left := sc.left - 1 }

def pruneStep (s : Shared) (keep : ℤ) : PrunePc → Choice → Option (Shared × PrunePc)
  | .lock, .go => if s.popMx then none else some ({ s with popMx := true },.load)
  | .load, .go =>
      match s.head with
      | none => some (s,.scan (scanFrom keep [] s.landed.length) none)
      | some top => some (s,.count top [] s.landed.length top)
  | .count top counted since e, .go =>
      match s.next e with
      | none => some (s,.scan (scanFrom keep (counted ++ [e]) since) (some top))
      | some e' => some (s,.count top (counted ++ [e]) since e')
  | .scan sc none, .go => some (s,.unlock sc)
  | .scan sc (some e), .go => some (s,if 0 < sc.left then .drop sc e (s.next e) else .unlock sc)
  | .drop sc e next, .drop false => some (s,.scan (sc.keepNode e) next)
  | .drop sc e next, .drop true =>
      match sc.prev with
      | none => some (s,.cas sc e next)
      | some p => some (s,.link sc e next p)
  | .cas sc e next, .go =>
      if s.head = some e then some ({ s with head := next, stack := s.stack.erase e },.len sc e next)
      else some (s,.searchHead sc e next)
  | .searchHead sc e next, .go => some (s,.search sc e next s.head)
  | .search _ _ _ none, .go => some (s,.nilPointer)
  | .search sc e next (some p), .go =>
      some (s,if s.next p = some e then .link { sc with prev := some p } e next p
        else .follow sc e next p)
  | .follow sc e next p, .go => some (s,.search sc e next (s.next p))
  | .link sc e next p, .go =>
      some ({ s with next := Function.update s.next p next, stack := s.stack.erase e },.len sc e next)
  | .len sc e next, .go => some ({ s with len := s.len - 1 },.scan (sc.dropNode e) next)
  | .unlock sc, .go => some ({ s with popMx := false },.returned sc)
  | _, _ => none

def step (s : Shared) : Thread → Choice → Option (Shared × Thread × List Thread)
  | .pushNode e pc, .go => (pushStep s e pc).map fun (s',pc') => (s',.pushNode e pc',[])
  | .popBack pc, .go => (popStep s pc).map fun (s',pc') => (s',.popBack pc',[])
  | .prune keep pc, c => (pruneStep s keep pc c).map fun (s',pc') => (s',.prune keep pc',[])
  | _, _ => none

def entry (_ : Shared) : Thread → Bool
  | .pushNode _ .len | .popBack .lock | .prune _ .lock => true
  | _ => false

def program : Program Shared Thread Choice := ⟨entry,step⟩

def newPool : World Shared Thread :=
  ⟨{ head := none, next := fun _ => none, len := 0, popMx := false, stack := [], landed := [] },[]⟩

def pushes (v : ℕ) : Thread → Bool
  | .pushNode e pc => e = v && pc ≠ .done
  | _ => false

-- Whoever calls PushNode owns the node: it is neither in the stack nor in another push.
def owned : Guard Shared Thread Choice
  | w, .call (.pushNode e _) => !w.shared.stack.contains e && !w.threads.any (pushes e)
  | _, _ => true

end Varmq.Pool
