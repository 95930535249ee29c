import Mathlib.Data.List.Count
import Mathlib.Tactic.Linarith
import Varmq.Interleaving.Total
import Varmq.Pool.Linked
import Varmq.Pool.Step

namespace Varmq.Pool

open Interleaving LinkedStack

variable {s s' : Shared} {keep : ℤ} {e : ℕ} {n : Option ℕ} {sc : Scan} {above below rest : List ℕ}
  {t t' u : Thread} {ts xs ys : List Thread}

def Scan.kept (sc : Scan) : List ℕ := (sc.asked.filter (!·.2)).map Prod.fst

structure Since (s : Shared) (n : ℕ) (above : List ℕ) : Prop where
  le : n ≤ s.landed.length
  eq : above = (s.landed.drop n).reverse

-- `above` has been pushed since Prune loaded the top, `below` is left of its list and `rest` has not
-- been asked about.
structure Scanning (s : Shared) (keep : ℤ) (sc : Scan) (above below rest : List ℕ) : Prop where
  since : Since s sc.since above
  stack : s.stack = above ++ (sc.kept ++ below)
  counted : sc.counted = sc.asked.map Prod.fst ++ rest
  left : sc.asked.length + sc.left = (sc.counted.length - keep).toNat
  dropped : sc.dropped = (sc.asked.filter (·.2)).map Prod.fst
  first : sc.prev = none → sc.kept = []
  prev : ∀ p, sc.prev = some p → ∃ as, above ++ sc.kept = as ++ [p]

structure AtNode (s : Shared) (keep : ℤ) (sc : Scan) (e : ℕ) (n : Option ℕ) (above rest : List ℕ) :
    Prop where
  scanning : Scanning s keep sc above (e :: rest) (e :: rest)
  next : n = rest.head?
  left : 0 < sc.left

structure Pruned (keep : ℤ) (sc : Scan) : Prop where
  asked : sc.asked.map Prod.fst = sc.counted.take (sc.counted.length - keep).toNat
  dropped : sc.dropped = (sc.asked.filter (·.2)).map Prod.fst

def PruneAt (s : Shared) (keep : ℤ) : PrunePc → Prop
  | .lock | .load => True
  | .count top cs since e => ∃ above rest, Since s since above ∧
      s.stack = above ++ (cs ++ e :: rest) ∧ (cs ++ [e]).head? = some top
  | .scan sc o => ∃ above rest, Scanning s keep sc above rest rest ∧ o = rest.head?
  | .drop sc e n => ∃ above rest, AtNode s keep sc e n above rest
  | .cas sc e n => sc.prev = none ∧ ∃ above rest, AtNode s keep sc e n above rest
  | .searchHead sc e n => sc.prev = none ∧ ∃ above rest, AtNode s keep sc e n above rest ∧ above ≠ []
  | .search sc e n o => sc.prev = none ∧ ∃ as p bs rest,
      AtNode s keep sc e n (as ++ p :: bs) rest ∧ o = some p
  | .follow sc e n p => sc.prev = none ∧ ∃ as q bs rest, AtNode s keep sc e n (as ++ p :: q :: bs) rest
  | .link sc e n p => sc.prev = some p ∧ ∃ above rest, AtNode s keep sc e n above rest
  | .len sc e n => ∃ above rest, Scanning s keep sc above rest (e :: rest) ∧ n = rest.head? ∧
      0 < sc.left
  | .unlock sc => ∃ above rest, Scanning s keep sc above rest rest ∧ (rest = [] ∨ sc.left = 0)
  | .returned sc => Pruned keep sc
  | .nilPointer => False

def At (s : Shared) : Thread → Prop
  | .pushNode e (.cas h) => s.next e = h
  | .popBack (.next h) => h ∈ s.stack
  | .popBack (.cas h n) => h ∈ s.stack ∧ s.next h = n
  | .prune keep pc => PruneAt s keep pc
  | _ => True

def pushing (v : ℕ) (t : Thread) : ℕ := (pushes v t).toNat

def pushed (v : ℕ) : Thread → ℕ
  | .pushNode e .done => if e = v then 1 else 0
  | _ => 0

-- What a PopBack or a Prune has taken out of the stack, to return it or returned.
def taken : Thread → List ℕ
  | .popBack (.len h) | .popBack (.unlock (some h)) | .popBack (.returned (some h)) => [h]
  | .prune _ (.scan sc _) | .prune _ (.drop sc _ _) | .prune _ (.cas sc _ _) => sc.dropped
  | .prune _ (.searchHead sc _ _) | .prune _ (.search sc _ _ _) => sc.dropped
  | .prune _ (.follow sc _ _ _) | .prune _ (.link sc _ _ _) => sc.dropped
  | .prune _ (.len sc e _) => sc.dropped ++ [e]
  | .prune _ (.unlock sc) | .prune _ (.returned sc) => sc.dropped
  | _ => []

def takes (v : ℕ) (t : Thread) : ℕ := (taken t).count v

def holds : Thread → ℕ
  | .popBack .lock | .popBack (.returned _) => 0
  | .popBack _ => 1
  | .prune _ .lock | .prune _ (.returned _) => 0
  | .prune _ _ => 1
  | _ => 0

-- Between the counter and the link of a push, or the other way round in a removal.
def inFlight : Thread → ℕ
  | .pushNode _ .len | .pushNode _ .done => 0
  | .pushNode _ _ => 1
  | .popBack (.len _) => 1
  | .prune _ (.len _ _ _) => 1
  | _ => 0

structure Inv (s : Shared) (ts : List Thread) : Prop where
  linked : Linked s.next s.head s.stack
  single : ∀ v, s.stack.count v + total (pushing v) ts ≤ 1
  placed : ∀ v, total (pushed v) ts = s.stack.count v + total (takes v) ts
  mutex : total holds ts = s.popMx.toNat
  len : s.len = s.stack.length + total inFlight ts
  at_ : ∀ t ∈ ts, At s t

theorem Inv.nodup (h : Inv s ts) : s.stack.Nodup :=
  List.nodup_iff_count_le_one.mpr fun v => (Nat.le_add_right _ _).trans (h.single v)

theorem Inv.unlinked (h : Inv s (xs ++ t :: ys)) (ht : 0 < pushing e t) :
    e ∉ s.stack ∧ ∀ u ∈ xs ++ ys, pushing e u = 0 := by
  have hs := h.single e
  rw [total_split] at hs
  constructor
  · rw [← List.count_eq_zero]
    omega
  · exact total_eq_zero.mp (by omega)

theorem Inv.alone (h : Inv s (xs ++ t :: ys)) (ht : holds t = 1) :
    s.popMx = true ∧ ∀ u ∈ xs ++ ys, holds u = 0 := by
  have hm := h.mutex
  rw [total_split,ht] at hm
  have hle := Bool.toNat_le s.popMx
  refine ⟨?_,total_eq_zero.mp (by omega)⟩
  cases hp : s.popMx with
  | true => rfl
  | false =>
    rw [hp] at hm
    simp at hm

theorem erase_split {xs ys : List ℕ} (hn : (xs ++ e :: ys).Nodup) :
    (xs ++ e :: ys).erase e = xs ++ ys := by
  have hx : e ∉ xs := fun he => (List.nodup_append.mp hn).2.2 e he e List.mem_cons_self rfl
  rw [List.erase_append_right _ hx,List.erase_cons_head]

section Moves

-- What a step of one thread changes in the sums of the invariant.
structure Moves (s s' : Shared) (t t' : Thread) : Prop where
  single : ∀ v, s'.stack.count v + pushing v t' ≤ s.stack.count v + pushing v t
  placed : ∀ v, pushed v t' + (s.stack.count v + takes v t) =
    pushed v t + (s'.stack.count v + takes v t')
  mutex : s'.popMx.toNat + holds t = s.popMx.toNat + holds t'
  len : s'.len + s.stack.length + inFlight t = s.len + s'.stack.length + inFlight t'

theorem Moves.frame (h1 : s'.stack = s.stack) (h2 : s'.popMx = s.popMx) (h3 : s'.len = s.len)
    (hp : ∀ v, pushing v t' = pushing v t) (hd : ∀ v, pushed v t' = pushed v t)
    (ht : taken t' = taken t) (hm : holds t' = holds t) (hf : inFlight t' = inFlight t) :
    Moves s s' t t' :=
  ⟨fun v => by rw [h1,hp],fun v => by rw [h1,hd,takes,takes,ht],by rw [h2,hm],by rw [h1,h3,hf]⟩

theorem push_moves {pc pc' : PushPc} (ha : PushAct s e pc s' pc') :
    Moves s s' (.pushNode e pc) (.pushNode e pc') := by
  cases ha with
  | len =>
    refine ⟨fun v => Nat.le_refl _,fun v => rfl,rfl,?_⟩
    simp only [inFlight]
    omega
  | load => exact .frame rfl rfl rfl (fun _ => rfl) (fun _ => rfl) rfl rfl rfl
  | store => exact .frame rfl rfl rfl (fun _ => rfl) (fun _ => rfl) rfl rfl rfl
  | land =>
    refine ⟨fun v => ?_,fun v => ?_,rfl,?_⟩
    · simp only [Shared.land,List.count_cons,pushing,pushes]
      by_cases hv : e = v <;> simp [hv]
    · simp only [Shared.land,List.count_cons,pushed,takes,taken,List.count_nil,beq_iff_eq]
      omega
    · simp only [Shared.land,List.length_cons,inFlight]
      push_cast
      omega
  | retry => exact .frame rfl rfl rfl (fun _ => rfl) (fun _ => rfl) rfl rfl rfl

theorem erase_moves {e : ℕ} (he : e ∈ s.stack) (hs : s'.stack = s.stack.erase e)
    (hp : s'.popMx = s.popMx) (hl : s'.len = s.len) (h1 : ∀ v, pushing v t' = pushing v t)
    (h2 : ∀ v, pushed v t' = pushed v t) (h3 : taken t' = taken t ++ [e]) (h4 : holds t' = holds t)
    (h5 : inFlight t' = inFlight t + 1) : Moves s s' t t' := by
  have hperm := List.perm_cons_erase he
  have hcount : ∀ v, s.stack.count v = (s.stack.erase e).count v + [e].count v := fun v => by
    rw [hperm.count_eq,List.count_cons,List.count_cons,List.count_nil,Nat.zero_add]
  refine ⟨fun v => ?_,fun v => ?_,by rw [hp,h4],?_⟩
  · rw [hs,h1,hcount v]
    omega
  · rw [hs,h2,takes,takes,h3,List.count_append,hcount v]
    omega
  · have hlen := hperm.length_eq
    rw [List.length_cons] at hlen
    rw [hs,hl,h5,hlen]
    push_cast
    omega

theorem pop_moves {pc pc' : PopPc} (hl : Linked s.next s.head s.stack)
    (hm : holds (.popBack pc) = 1 → s.popMx = true) (ha : PopAct s pc s' pc') :
    Moves s s' (.popBack pc) (.popBack pc') := by
  cases ha with
  | lock hp => exact ⟨fun v => Nat.le_refl _,fun v => rfl,by simp [hp,holds],rfl⟩
  | empty => exact .frame rfl rfl rfl (fun _ => rfl) (fun _ => rfl) rfl rfl rfl
  | load => exact .frame rfl rfl rfl (fun _ => rfl) (fun _ => rfl) rfl rfl rfl
  | next => exact .frame rfl rfl rfl (fun _ => rfl) (fun _ => rfl) rfl rfl rfl
  | @take h n hh =>
    rw [hh] at hl
    obtain ⟨ys,hy,-⟩ := hl.of_some
    exact erase_moves (hy ▸ List.mem_cons_self) rfl rfl rfl (fun _ => rfl) (fun _ => rfl) rfl rfl rfl
  | retry => exact .frame rfl rfl rfl (fun _ => rfl) (fun _ => rfl) rfl rfl rfl
  | len =>
    refine ⟨fun v => Nat.le_refl _,fun v => rfl,rfl,?_⟩
    simp only [inFlight]
    omega
  | @unlock r =>
    have ht : taken (.popBack (.returned r)) = taken (.popBack (.unlock r)) := by cases r <;> rfl
    refine ⟨fun v => Nat.le_refl _,fun v => by rw [takes,takes,ht]; rfl,?_,rfl⟩
    simp [hm rfl,holds]

theorem AtNode.mem (h : AtNode s keep sc e n above rest) : e ∈ s.stack := by
  rw [h.scanning.stack]
  simp

theorem prune_moves {pc pc' : PrunePc} (hl : Linked s.next s.head s.stack) (hat : PruneAt s keep pc)
    (hm : holds (.prune keep pc) = 1 → s.popMx = true) (ha : PruneAct s keep pc s' pc') :
    Moves s s' (.prune keep pc) (.prune keep pc') := by
  cases ha with
  | lock hp => exact ⟨fun v => Nat.le_refl _,fun v => rfl,by simp [hp,holds],rfl⟩
  | take hh =>
    rw [hh] at hl
    obtain ⟨ys,hy,-⟩ := hl.of_some
    exact erase_moves (hy ▸ List.mem_cons_self) rfl rfl rfl (fun _ => rfl) (fun _ => rfl) rfl rfl rfl
  | link =>
    obtain ⟨-,above,rest,hat⟩ := hat
    exact erase_moves hat.mem rfl rfl rfl (fun _ => rfl) (fun _ => rfl) rfl rfl rfl
  | len =>
    refine ⟨fun v => Nat.le_refl _,fun v => rfl,rfl,?_⟩
    simp only [inFlight]
    omega
  | unlock =>
    refine ⟨fun v => Nat.le_refl _,fun v => rfl,?_,rfl⟩
    simp [hm rfl,holds]
  | nilPointer =>
    obtain ⟨-,as,p,bs,rest,-,ho⟩ := hat
    cases ho
  | _ => exact .frame rfl rfl rfl (fun _ => rfl) (fun _ => rfl) rfl rfl rfl

end Moves

end Varmq.Pool
