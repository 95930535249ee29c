import Mathlib.Tactic.Common
import Varmq.Pool.Basic

namespace Varmq.Pool

open Interleaving

variable {s s' : Shared} {keep : ℤ} {e : ℕ} {c : Choice} {t t' : Thread} {new : List Thread}

def Shared.land (s : Shared) (e : ℕ) : Shared :=
  { s with head := some e, stack := e :: s.stack, landed := s.landed ++ [e] }

def Shared.unhead (s : Shared) (e : ℕ) (n : Option ℕ) : Shared :=
  { s with head := n, stack := s.stack.erase e }

def Shared.unlink (s : Shared) (e : ℕ) (n : Option ℕ) (p : ℕ) : Shared :=
  { s with next := Function.update s.next p n, stack := s.stack.erase e }

inductive PushAct (s : Shared) (e : ℕ) : PushPc → Shared → PushPc → Prop
  | len : PushAct s e .len { s with len := s.len + 1 } .load
  | load : PushAct s e .load s (.store s.head)
  | store {h : Option ℕ} :
      PushAct s e (.store h) { s with next := Function.update s.next e h } (.cas h)
  | land : PushAct s e (.cas s.head) (s.land e) .done
  | retry {h : Option ℕ} : PushAct s e (.cas h) s .load

theorem push_act {pc pc' : PushPc} (hs : pushStep s e pc = some (s',pc')) :
    PushAct s e pc s' pc' := by
  cases pc with
  | len =>
    cases hs
    exact .len
  | load =>
    cases hs
    exact .load
  | store h =>
    cases hs
    exact .store
  | cas h =>
    simp only [pushStep] at hs
    split at hs <;> cases hs
    · rename_i hh
      exact hh ▸ .land
    · exact .retry
  | done => cases hs

inductive PopAct (s : Shared) : PopPc → Shared → PopPc → Prop
  | lock (hm : s.popMx = false) : PopAct s .lock { s with popMx := true } .load
  | empty (hh : s.head = none) : PopAct s .load s (.unlock none)
  | load {h : ℕ} (hh : s.head = some h) : PopAct s .load s (.next h)
  | next {h : ℕ} : PopAct s (.next h) s (.cas h (s.next h))
  | take {h : ℕ} {n : Option ℕ} (hh : s.head = some h) :
      PopAct s (.cas h n) (s.unhead h n) (.len h)
  | retry {h : ℕ} {n : Option ℕ} : PopAct s (.cas h n) s .load
  | len {h : ℕ} : PopAct s (.len h) { s with len := s.len - 1 } (.unlock (some h))
  | unlock {r : Option ℕ} : PopAct s (.unlock r) { s with popMx := false } (.returned r)

theorem pop_act {pc pc' : PopPc} (hs : popStep s pc = some (s',pc')) : PopAct s pc s' pc' := by
  cases pc with
  | lock =>
    simp only [popStep] at hs
    split at hs <;> cases hs
    exact .lock (by simpa using ‹¬s.popMx = true›)
  | load =>
    simp only [popStep] at hs
    split at hs <;> cases hs
    · exact .empty ‹_›
    · exact .load ‹_›
  | next h =>
    cases hs
    exact .next
  | cas h n =>
    simp only [popStep] at hs
    split at hs <;> cases hs
    · exact .take ‹_›
    · exact .retry
  | len h =>
    cases hs
    exact .len
  | unlock r =>
    cases hs
    exact .unlock
  | returned r => cases hs

inductive PruneAct (s : Shared) (keep : ℤ) : PrunePc → Shared → PrunePc → Prop
  | lock (hm : s.popMx = false) : PruneAct s keep .lock { s with popMx := true } .load
  | empty (hh : s.head = none) :
      PruneAct s keep .load s (.scan (scanFrom keep [] s.landed.length) none)
  | load {top : ℕ} (hh : s.head = some top) :
      PruneAct s keep .load s (.count top [] s.landed.length top)
  | counted {top since e : ℕ} {cs : List ℕ} (hn : s.next e = none) :
      PruneAct s keep (.count top cs since e) s (.scan (scanFrom keep (cs ++ [e]) since) (some top))
  | count {top since e e' : ℕ} {cs : List ℕ} (hn : s.next e = some e') :
      PruneAct s keep (.count top cs since e) s (.count top (cs ++ [e]) since e')
  | bottom {sc : Scan} : PruneAct s keep (.scan sc none) s (.unlock sc)
  | kept {sc : Scan} {e : ℕ} (hl : sc.left = 0) : PruneAct s keep (.scan sc (some e)) s (.unlock sc)
  | next {sc : Scan} {e : ℕ} (hl : 0 < sc.left) :
      PruneAct s keep (.scan sc (some e)) s (.drop sc e (s.next e))
  | keep {sc : Scan} {e : ℕ} {n : Option ℕ} :
      PruneAct s keep (.drop sc e n) s (.scan (sc.keepNode e) n)
  | first {sc : Scan} {e : ℕ} {n : Option ℕ} (hp : sc.prev = none) :
      PruneAct s keep (.drop sc e n) s (.cas sc e n)
  | below {sc : Scan} {e p : ℕ} {n : Option ℕ} (hp : sc.prev = some p) :
      PruneAct s keep (.drop sc e n) s (.link sc e n p)
  | take {sc : Scan} {e : ℕ} {n : Option ℕ} (hh : s.head = some e) :
      PruneAct s keep (.cas sc e n) (s.unhead e n) (.len sc e n)
  | pushed {sc : Scan} {e : ℕ} {n : Option ℕ} (hh : s.head ≠ some e) :
      PruneAct s keep (.cas sc e n) s (.searchHead sc e n)
  | searchHead {sc : Scan} {e : ℕ} {n : Option ℕ} :
      PruneAct s keep (.searchHead sc e n) s (.search sc e n s.head)
  | nilPointer {sc : Scan} {e : ℕ} {n : Option ℕ} :
      PruneAct s keep (.search sc e n none) s .nilPointer
  | found {sc : Scan} {e p : ℕ} {n : Option ℕ} (hp : s.next p = some e) :
      PruneAct s keep (.search sc e n (some p)) s (.link { sc with prev := some p } e n p)
  | miss {sc : Scan} {e p : ℕ} {n : Option ℕ} (hp : s.next p ≠ some e) :
      PruneAct s keep (.search sc e n (some p)) s (.follow sc e n p)
  | follow {sc : Scan} {e p : ℕ} {n : Option ℕ} :
      PruneAct s keep (.follow sc e n p) s (.search sc e n (s.next p))
  | link {sc : Scan} {e p : ℕ} {n : Option ℕ} :
      PruneAct s keep (.link sc e n p) (s.unlink e n p) (.len sc e n)
  | len {sc : Scan} {e : ℕ} {n : Option ℕ} :
      PruneAct s keep (.len sc e n) { s with len := s.len - 1 } (.scan (sc.dropNode e) n)
  | unlock {sc : Scan} : PruneAct s keep (.unlock sc) { s with popMx := false } (.returned sc)

theorem prune_act {pc pc' : PrunePc} (hs : pruneStep s keep pc c = some (s',pc')) :
    PruneAct s keep pc s' pc' := by
  unfold pruneStep at hs
  split at hs
  case h_1 =>
    split at hs <;> cases hs
    exact .lock (by simpa using ‹¬s.popMx = true›)
  case h_2 =>
    split at hs <;> cases hs
    · exact .empty ‹_›
    · exact .load ‹_›
  case h_3 =>
    split at hs <;> cases hs
    · exact .counted ‹_›
    · exact .count ‹_›
  case h_5 =>
    cases hs
    split
    · exact .next ‹_›
    · exact .kept (by omega)
  case h_7 =>
    split at hs <;> cases hs
    · exact .first ‹_›
    · exact .below ‹_›
  case h_8 =>
    split at hs <;> cases hs
    · exact .take ‹_›
    · exact .pushed ‹_›
  case h_11 =>
    cases hs
    split
    · exact .found ‹_›
    · exact .miss ‹_›
  case h_16 => cases hs
  all_goals
    cases hs
    constructor

inductive Act (s : Shared) : Thread → Shared → Thread → Prop
  | push {e : ℕ} {pc pc' : PushPc} {s' : Shared} (h : PushAct s e pc s' pc') :
      Act s (.pushNode e pc) s' (.pushNode e pc')
  | pop {pc pc' : PopPc} {s' : Shared} (h : PopAct s pc s' pc') :
      Act s (.popBack pc) s' (.popBack pc')
  | prune {keep : ℤ} {pc pc' : PrunePc} {s' : Shared} (h : PruneAct s keep pc s' pc') :
      Act s (.prune keep pc) s' (.prune keep pc')

theorem act (hs : program.step s t c = some (s',t',new)) : Act s t s' t' ∧ new = [] := by
  change step s t c = some (s',t',new) at hs
  cases t with
  | pushNode e pc =>
    cases c with
    | drop b => cases hs
    | go =>
      obtain ⟨⟨s₁,pc₁⟩,hp,heq⟩ := Option.map_eq_some_iff.mp hs
      cases heq
      exact ⟨.push (push_act hp),rfl⟩
  | popBack pc =>
    cases c with
    | drop b => cases hs
    | go =>
      obtain ⟨⟨s₁,pc₁⟩,hp,heq⟩ := Option.map_eq_some_iff.mp hs
      cases heq
      exact ⟨.pop (pop_act hp),rfl⟩
  | prune keep pc =>
    obtain ⟨⟨s₁,pc₁⟩,hp,heq⟩ := Option.map_eq_some_iff.mp hs
    cases heq
    exact ⟨.prune (prune_act hp),rfl⟩

end Varmq.Pool
