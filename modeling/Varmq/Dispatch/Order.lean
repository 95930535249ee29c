import Varmq.Park.Line
import Varmq.Dispatch.Single
import Varmq.Dispatch.Conservation

namespace Varmq.Dispatch

open Interleaving
open Varmq.Park (Stamp Parked ParkedBatch Lined jobsOf)

variable {s s' : Shared} {bs bs' : List (ParkedBatch ℕ)} {xs ys new ts : List Thread}
  {l l' : Thread} {c : Choice}

-- The jobs in hand that no workerFunc has been called on.
def unstarted : Thread → List ℕ
  | .loop pc => buffer pc
  | .batch b .run | .batch b .close => b.rest.tail
  | .batch b _ => b.rest
  | _ => []

-- Jobs with stamp st, n of them, come before every parked batch.
def Ahead (bs : List (ParkedBatch ℕ)) (st : Stamp) (n : ℕ) : Prop :=
  st.hold = some ⟨0,true⟩ ∧ ∀ x ∈ bs, st.seq + n ≤ x.stamp.seq

def Placed (s : Shared) (bs : List (ParkedBatch ℕ)) : Thread → Prop
  | .loop (.fillPaused _ buf) => bs = [] ∨ (s.paused = true ∧ buf = [])
  | .loop (.fillHead _ _) | .loop (.fillOffset _ _ _) | .loop (.epoch _ _) => bs = []
  | .loop (.refuse _ _ _) | .loop (.dequeue _ _ _) | .loop (.isClosed _ _ _) => bs = []
  | .loop (.emptyPaused _ _ _) | .loop (.emptyRefusals _ _ _) => bs = []
  | .loop (.shorten _ _ none _) | .loop (.stamp _ _) => bs = []
  | .loop (.shorten _ buf (some st) _) | .loop (.send buf st _) => Ahead bs st buf.length
  | .batch _ .free | .batch _ .release | .batch _ .finish | .batch _ .notify => True
  | .batch _ .done => True
  | .batch b _ => Ahead bs { b.stamp with seq := b.stamp.seq + b.i } b.rest.length
  | _ => True

structure Line (s : Shared) (ts : List Thread) (bs : List (ParkedBatch ℕ)) : Prop where
  lined : Lined s.park bs
  held : ∀ b ∈ bs, b.stamp.hold = some ⟨0,true⟩
  order : (s.started ++ ts.flatMap unstarted ++ jobsOf bs ++ s.slots.map Prod.fst).Sublist s.claimed
  placed : ∀ t ∈ ts, Placed s bs t

structure Same (s s' : Shared) : Prop where
  batches : s'.park.batches = s.park.batches
  unsorted : s'.park.unsorted = s.park.unsorted
  started : s'.started = s.started
  slots : s'.slots.map Prod.fst = s.slots.map Prod.fst
  claimed : s'.claimed = s.claimed
  paused : s'.paused = s.paused

theorem Same.refl (s : Shared) : Same s s := ⟨rfl,rfl,rfl,rfl,rfl,rfl⟩

theorem placed_congr (h : s'.paused = s.paused) (hp : Placed s bs l) : Placed s' bs l := by
  unfold Placed at hp ⊢
  rw [h]
  exact hp

theorem line_keep (h : Line s (xs ++ l :: ys) bs) (hs : Same s s')
    (hu : (unstarted l').Sublist (unstarted l)) (hp : Placed s bs l') :
    Line s' (xs ++ l' :: (ys ++ [])) bs := by
  refine ⟨h.lined.of_batches hs.batches hs.unsorted,h.held,?_,
    fun t ht => placed_congr hs.paused ?_⟩
  · have ho := h.order
    rw [hs.started,hs.claimed,hs.slots]
    refine .trans ?_ ho
    simp only [List.flatMap_append,List.flatMap_cons,List.append_nil]
    exact ((((hu.append_right _).append_left _).append_left _).append_right _).append_right _
  · rcases mem_act ht with ht | rfl | ht
    · exact h.placed t (mem_of_other ht)
    · exact hp
    · cases ht

theorem Line.keep (h : Line s (xs ++ l :: ys) bs) (hs : Same s s')
    (hu : (unstarted l').Sublist (unstarted l)) (hp : Placed s bs l') :
    ∃ bs', Line s' (xs ++ l' :: (ys ++ [])) bs' := ⟨bs,line_keep h hs hu hp⟩

structure Ordered (s : Shared) (ts : List Thread) : Prop where
  base : Base s ts
  single : Single s ts
  line : ∃ bs, Line s ts bs

section Pairs

variable {α : Type} {a b : α} {as : List α}

end Pairs

namespace Ordered

end Ordered

end Varmq.Dispatch
