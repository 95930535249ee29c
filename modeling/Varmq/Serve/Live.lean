import Varmq.Interleaving.Fair
import Varmq.Serve.Once

namespace Varmq.Serve

open Interleaving

def sends (n : ℕ) : Thread → Bool
  | .serve m .stop => m == n
  | .take _ (.sendBatch m) => m == n
  | .take _ (.send m) => m == n
  | .remove _ (.stop m) => m == n
  | .prune (.stop m _) => m == n
  | _ => false

variable {s s' : Shared} {l l' t : Thread} {xs ys ts new : List Thread} {n m k i j : ℕ} {p : Payload}

theorem serving_of_sends (h : sends n t = true) : n ∈ serving t := by
  unfold sends at h
  split at h <;> first | cases h | (simp only [beq_iff_eq] at h; subst h; simp [serving])

theorem ne_recv_of_sends (h : sends n t = true) (m : ℕ) : t ≠ .serve m .recv := by
  rintro rfl
  cases h

theorem offer_of_empty (h : s.chan n = none) (p : Payload) : (s.offer n p).isSome = true := by
  simp [Shared.offer,h]

-- Send, SendBatch and Stop wait for an empty channel and for nothing else.
theorem step_of_sends (h : sends n t = true) (hc : s.chan n = none) :
    (program.step s t .go).isSome = true := by
  have hstop := offer_of_empty hc ⟨0,none,false⟩
  have hbatch := offer_of_empty (s := { s with sent := s.sent + 1 }) hc ⟨0,some s.sent,true⟩
  have hsend := offer_of_empty (s := { s with sent := s.sent + 1 }) hc ⟨s.sent,none,true⟩
  unfold sends at h
  split at h <;> first | cases h | (simp only [beq_iff_eq] at h; subst h)
  · simpa [program,step,serveStep,Shared.stop] using hstop
  · simpa [program,step,takeStep,Shared.sendBatch] using hbatch
  · simpa [program,step,takeStep,Shared.send] using hsend
  · simpa [program,step,removeStep,Shared.stop] using hstop
  · simpa [program,step,pruneStep,Shared.stop] using hstop

theorem step_of_recv (hc : s.chan n = some p) :
    (program.step s (.serve n .recv) .go).isSome = true := by
  cases hp : p.ok <;> simp [program,step,serveStep,hc,hp]

-- A channel is filled by whoever holds its node, and emptied by a goroutine of the node.
theorem effect_chan (he : Effect s l s' l' new) (n : ℕ) :
    s'.chan n = s.chan n ∨ (s.chan n = none ∧ n ∈ serving l) ∨
      (l = .serve n .recv ∧ s'.chan n = none ∧
        ∃ p, s.chan n = some p ∧ (p.ok = true → p.items ∈ s'.ran)) := by
  have hoffer : ∀ {u : Shared} {m : ℕ} {p : Payload}, u.chan = s.chan → u.offer m p = some s' →
      Turn l l' [] [m] [] [] ∨ Turn l l' [] [m] [m] [] →
      s'.chan n = s.chan n ∨ (s.chan n = none ∧ n ∈ serving l) := by
    intro u m p hu ho ht
    obtain ⟨hc,rfl⟩ := offered ho
    by_cases hn : n = m
    · subst hn
      rw [hu] at hc
      refine .inr ⟨hc,List.count_pos_iff.mp ?_⟩
      have hcount : (serving l').count n + [n].count n = (serving l).count n + 0 := by
        rcases ht with ht | ht <;> exact ht.serving n
      rw [count_at_self] at hcount
      omega
    · left
      simp [hn,hu]
  have htake : ∀ {u : Shared} {m : ℕ} {p : Payload}, l = .serve m .recv → s.chan m = some p →
      u.chan = Function.update s.chan m none → (p.ok = true → p.items ∈ u.ran) →
      u.chan n = s.chan n ∨ (l = .serve n .recv ∧ u.chan n = none ∧
        ∃ p, s.chan n = some p ∧ (p.ok = true → p.items ∈ u.ran)) := by
    intro u m p hl hc hu hr
    by_cases hn : n = m
    · subst hn
      exact .inr ⟨hl,by simp [hu],p,hc,hr⟩
    · left
      simp [hu,hn]
  cases he with
  | quiet | pop | push | get | fresh | spawn | put => exact .inl rfl
  | stop ho ht => exact (hoffer rfl ho (.inr ht)).imp_right .inl
  | send _ _ ho ht =>
    exact (hoffer (u := { s with sent := s.sent + 1 }) rfl ho (.inl ht)).imp_right .inl
  | run hl hc _ => exact (htake hl hc rfl fun _ => by simp).imp_right .inr
  | leave hl hc hok => exact (htake hl hc rfl fun h => by simp [hok] at h).imp_right .inr

theorem alone (h : Counted s (xs ++ l :: ys)) (hl : n ∈ serving l) (ht : t ∈ xs ++ ys) :
    n ∉ serving t ∧ n ∉ unserved t := by
  have hp := h.places n
  rw [hands_split,bare_split] at hp
  have hpos := List.count_pos_iff.mpr hl
  have hhands : (serving t).count n ≤ hands n (xs ++ ys) :=
    le_total (f := fun t => (serving t).count n) ht
  have hbare : (unserved t).count n ≤ bare n (xs ++ ys) :=
    le_total (f := fun t => (unserved t).count n) ht
  simp only [made] at hp
  constructor <;> intro hmem <;> have := List.count_pos_iff.mpr hmem <;> split at hp <;> omega

-- Inside Serve and with nothing in its hands a goroutine waits for its next payload.
theorem recv_of_inside (hi : 0 < inside n t) (hs : n ∉ serving t) (hu : n ∉ unserved t) :
    t = .serve n .recv := by
  cases t with
  | serve m pc =>
    have hm : n = m := by
      by_contra hne
      cases pc <;> simp [inside,Ne.symm hne] at hi
    subst hm
    cases pc <;> first | rfl | simp [serving,unserved,inside] at hs hu hi
  | take | remove | prune => simp [inside] at hi

theorem inside_le_one (n : ℕ) (t : Thread) : inside n t ≤ 1 := by
  have hle : ∀ m : ℕ, [m].count n ≤ 1 := fun m => List.count_le_length
  cases t with
  | serve m pc => cases pc <;> first | exact hle m | exact Nat.zero_le 1
  | take | remove | prune => exact Nat.zero_le 1

theorem exists_recv_of_job (h : Counted s ts) (hj : jobIn s n = 1) :
    Thread.serve n .recv ∈ ts := by
  have hp := h.places n
  have hb := h.balance n
  simp only [made] at hp
  have hhands : hands n ts = 0 := by split at hp <;> omega
  have hbare : bare n ts = 0 := by split at hp <;> omega
  obtain ⟨t,ht,hin⟩ := exists_of_total (show 0 < total (inside n) ts by omega)
  have hs : (serving t).count n = 0 := total_eq_zero.mp hhands t ht
  have hu : (unserved t).count n = 0 := total_eq_zero.mp hbare t ht
  exact recv_of_inside hin (List.count_eq_zero.mp hs) (List.count_eq_zero.mp hu) ▸ ht

theorem exists_recv_of_stop (h : Counted s (xs ++ l :: ys)) (hl : n ∈ serving l)
    (hc : s.chan n = some p) : Thread.serve n .recv ∈ xs ++ ys := by
  have hp := h.places n
  have hb := h.balance n
  rw [hands_split] at hp hb
  rw [total_split] at hb
  have hpos := List.count_pos_iff.mpr hl
  have hone : jobIn s n + stopIn s n = 1 := by
    cases hok : p.ok <;> simp [jobIn,stopIn,hc,hok]
  simp only [made] at hp
  have hle := inside_le_one n l
  have hin : 0 < total (inside n) (xs ++ ys) := by split at hp <;> omega
  obtain ⟨t,ht,hin⟩ := exists_of_total hin
  obtain ⟨hs,hu⟩ := alone h hl ht
  exact recv_of_inside hin hs hu ▸ ht

end Varmq.Serve
