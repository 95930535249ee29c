import Varmq.Serve.Live

namespace Varmq.Serve

open Interleaving

variable {r : Run program init} {t : Thread} {n k i j g : ℕ} {p : Payload}

theorem run_effect (r : Run program init) (k : ℕ) :
    (r.world (k + 1)).shared = (r.world k).shared ∨
      ∃ xs l ys l' new c, r.event k = some (.act xs.length c) ∧
        (r.world k).threads = xs ++ l :: ys ∧
        Effect (r.world k).shared l (r.world (k + 1)).shared l' new := by
  cases he : r.event k with
  | none =>
    left
    rw [r.stays k he]
  | some e =>
    rcases Program.next_cases (r.steps k e he) with ⟨l,-,-,hw⟩ | ⟨xs,l,ys,c,s',l',new,rfl,hts,hs,hw⟩
    · left
      rw [hw]
    · refine .inr ⟨xs,l,ys,l',new,c,rfl,hts,?_⟩
      rw [hw]
      exact step_effect hs

theorem mem_of_other_act {xs ys : List Thread} {l : Thread} {c : Choice}
    (ht : (r.world k).threads[j]? = some t) (hts : (r.world k).threads = xs ++ l :: ys)
    (he : r.event k = some (.act xs.length c)) (ha : ¬r.Acts k j) : t ∈ xs ++ ys := by
  have hj : j ≠ xs.length := by
    rintro rfl
    exact ha ⟨c,he⟩
  rw [hts] at ht
  exact mem_of_getElem?_other hj ht

theorem counted_at (r : Run program init) (k : ℕ) :
    Counted (r.world k).shared (r.world k).threads := reached_counted (r.reach k)

-- Whoever is about to send on a node holds it, so nobody else sends on it meanwhile.
theorem empty_kept (ht : (r.world k).threads[j]? = some t) (hs : sends n t = true)
    (hc : (r.world k).shared.chan n = none) (ha : ¬r.Acts k j) :
    (r.world (k + 1)).shared.chan n = none := by
  rcases run_effect r k with h | ⟨xs,l,ys,l',new,c,he,hts,heff⟩
  · rw [h]
    exact hc
  · rcases effect_chan heff n with h | ⟨-,hl⟩ | ⟨-,h,-⟩
    · rw [h]
      exact hc
    · have hcounted := counted_at r k
      rw [hts] at hcounted
      obtain ⟨hno,-⟩ := alone hcounted hl (mem_of_other_act ht hts he ha)
      exact absurd (serving_of_sends hs) hno
    · exact h

theorem enabled_of_step {c : Choice} (ht : (r.world k).threads[j]? = some t)
    (hs : (program.step (r.world k).shared t c).isSome = true) :
    Enabled program (r.world k) j := by
  obtain ⟨⟨s',l',new⟩,h⟩ := Option.isSome_iff_exists.mp hs
  exact ⟨t,c,s',l',new,ht,h⟩

theorem acts_of_empty (hfair : r.Fair) (ht : (r.world i).threads[j]? = some t)
    (hs : sends n t = true) (hc : (r.world i).shared.chan n = none) : ∃ k, i ≤ k ∧ r.Acts k j := by
  obtain ⟨k,hk,-,ha⟩ := Run.acts_of_kept
    (I := fun w => w.threads[j]? = some t ∧ w.shared.chan n = none) hfair ⟨ht,hc⟩
    (fun k _ hI ha => ⟨Run.keeps_thread hI.1 ha,empty_kept hI.1 hs hI.2 ha⟩)
    (fun k hI => enabled_of_step hI.1 (step_of_sends hs hI.2))
  exact ⟨k,hk,ha⟩

theorem recv_acts (hg : (r.world k).threads[g]? = some (.serve n .recv)) (ha : r.Acts k g) :
    (r.world (k + 1)).shared.chan n = none ∧ ∀ p, (r.world k).shared.chan n = some p →
      p.ok = true → p.items ∈ (r.world (k + 1)).shared.ran := by
  obtain ⟨c,hc⟩ := ha
  have hnext := r.steps k _ hc
  simp only [Program.next,hg] at hnext
  split at hnext
  · cases hnext
  · rename_i s' l' new hs
    obtain ⟨⟨_,pc⟩,hserve,hq⟩ := Option.map_eq_some_iff.mp hs
    cases hq
    rw [← Option.some.inj hnext]
    have hs : serveStep (r.world k).shared n .recv c = some (s',pc) := hserve
    simp only [serveStep] at hs
    split at hs
    · cases hs
    · rename_i p hp
      split at hs
      case isTrue hok =>
        cases hs
        refine ⟨by simp [Shared.take],fun q hq _ => ?_⟩
        rw [hp] at hq
        cases hq
        simp
      case isFalse hok =>
        cases hs
        refine ⟨by simp [Shared.take],fun q hq hqok => ?_⟩
        rw [hp] at hq
        cases hq
        exact absurd hqok hok

theorem split_at {ts : List Thread} (h : ts[j]? = some t) : ∃ xs ys, ts = xs ++ t :: ys := by
  obtain ⟨xs,ys,hts,-⟩ := set_split h
  exact ⟨xs,ys,hts⟩

-- A full channel holds an old stop: some goroutine reads it, then the sender goes on.
theorem acts_of_sends (hfair : r.Fair) (ht : (r.world i).threads[j]? = some t)
    (hs : sends n t = true) : ∃ k, i ≤ k ∧ r.Acts k j := by
  cases hc : (r.world i).shared.chan n with
  | none => exact acts_of_empty hfair ht hs hc
  | some p =>
    by_contra hno
    have hstill : ∀ k, i ≤ k → ¬r.Acts k j := fun k hk ha => hno ⟨k,hk,ha⟩
    obtain ⟨xs,ys,hts⟩ := split_at ht
    have hcounted := counted_at r i
    rw [hts] at hcounted
    have hmem := mem_of_other (l := t) (exists_recv_of_stop hcounted (serving_of_sends hs) hc)
    rw [← hts] at hmem
    obtain ⟨g,hg⟩ := List.getElem?_of_mem hmem
    obtain ⟨k,hk,⟨⟨htk,hgk⟩,ha⟩ | ⟨htk,hck⟩⟩ := Run.acts_or
      (fun w => w.threads[j]? = some t ∧ w.shared.chan n = none)
      (I := fun w => w.threads[j]? = some t ∧ w.threads[g]? = some (Thread.serve n .recv) ∧
        ∃ p, w.shared.chan n = some p) hfair ⟨ht,hg,p,hc⟩
      (by
        rintro k hk ⟨htk,hgk,-⟩ ha
        have htk' := Run.keeps_thread htk (hstill k hk)
        cases hck : (r.world (k + 1)).shared.chan n with
        | none => exact .inr ⟨htk',rfl⟩
        | some q => exact .inl ⟨htk',Run.keeps_thread hgk ha,q,rfl⟩)
      (by
        rintro k ⟨-,hgk,q,hq⟩
        exact enabled_of_step hgk (step_of_recv hq))
    · have hck := (recv_acts hgk.1 ha).1
      obtain ⟨k',hk',ha'⟩ := acts_of_empty hfair (Run.keeps_thread htk (hstill k hk)) hs hck
      exact hstill k' (by omega) ha'
    · obtain ⟨k',hk',ha'⟩ := acts_of_empty hfair htk hs hck
      exact hstill k' (by omega) ha'

theorem jobIn_of_carries {s : Shared} (h : carries s n k) : jobIn s n = 1 := by
  obtain ⟨p,hp,hok,-⟩ := h
  simp [jobIn,hp,hok]

theorem carries_next (h : carries (r.world i).shared n k) :
    carries (r.world (i + 1)).shared n k ∨ k ∈ (r.world (i + 1)).shared.ran := by
  rcases run_effect r i with hsame | ⟨xs,l,ys,l',new,c,-,-,heff⟩
  · rw [hsame]
    exact .inl h
  · obtain ⟨p,hp,hok,hitems⟩ := h
    rcases effect_chan heff n with hsame | ⟨hnone,-⟩ | ⟨-,-,q,hq,hran⟩
    · exact .inl ⟨p,hsame.trans hp,hok,hitems⟩
    · rw [hp] at hnone
      cases hnone
    · rw [hp] at hq
      cases hq
      exact .inr (hitems ▸ hran hok)

theorem runs_of_carries (hfair : r.Fair) (h : carries (r.world i).shared n k) :
    ∃ i', i ≤ i' ∧ k ∈ (r.world i').shared.ran := by
  obtain ⟨g,hg⟩ := List.getElem?_of_mem (exists_recv_of_job (counted_at r i) (jobIn_of_carries h))
  obtain ⟨i',hi,⟨⟨hgk,p,hp,hok,hitems⟩,ha⟩ | hran⟩ := Run.acts_or
    (fun w => k ∈ w.shared.ran)
    (I := fun w => w.threads[g]? = some (Thread.serve n .recv) ∧ carries w.shared n k) hfair ⟨hg,h⟩
    (fun i' _ hI ha => (carries_next hI.2).imp_left fun hc => ⟨Run.keeps_thread hI.1 ha,hc⟩)
    (by
      rintro i' ⟨hgk,p,hp,-⟩
      exact enabled_of_step hgk (step_of_recv hp))
  · exact ⟨i' + 1,by omega,hitems ▸ (recv_acts hgk ha).2 p hp hok⟩
  · exact ⟨i',hi,hran⟩

theorem runs_of_sent (hfair : r.Fair) (h : k < (r.world i).shared.sent) :
    ∃ i', i ≤ i' ∧ k ∈ (r.world i').shared.ran := by
  rcases (reached_delivered (r.reach i)).all k h with hran | ⟨n,hn⟩
  · exact ⟨i,Nat.le_refl i,hran⟩
  · exact runs_of_carries hfair hn

def goroutines (w : World Shared Thread) (n : ℕ) : ℕ := total (inside n) w.threads

structure ServedByOne (w : World Shared Thread) : Prop where
  idle : ∀ n ∈ w.shared.idle, goroutines w n = stopIn w.shared n + 1
  taken : ∀ t ∈ w.threads, ∀ n ∈ serving t, goroutines w n = stopIn w.shared n + 1
  sent : ∀ n k, carries w.shared n k → goroutines w n = 1
  cached : ∀ n ∈ w.shared.cache, goroutines w n = stopIn w.shared n
  delivered : Delivered w.shared

theorem served_by_one : (∀ w, reached w → ServedByOne w) ∧
    ∀ r : Run program init, r.Fair →
      (∀ i j t n, (r.world i).threads[j]? = some t → sends n t = true →
        ∃ k, i ≤ k ∧ r.Acts k j) ∧
      ∀ i k, k < (r.world i).shared.sent → ∃ i', i ≤ i' ∧ k ∈ (r.world i').shared.ran := by
  refine ⟨fun w h => ?_,fun r hfair => ⟨fun i j t n ht hs => acts_of_sends hfair ht hs,
    fun i k h => runs_of_sent hfair h⟩⟩
  constructor
  · intro n hn
    exact served_of_idle h hn
  · intro t ht n hn
    exact served_of_taken h ht hn
  · intro n k hc
    obtain ⟨p,hp,hok,-⟩ := hc
    have hone := served_of_job h (n := n) (by simp [jobIn,hp,hok])
    simpa [goroutines,stopIn,hp,hok] using hone
  · intro n hn
    exact unserved_of_cached h hn
  · exact reached_delivered h

-- Node 0 is stopped, cached and taken again before its goroutine has read the stop; the new
-- goroutine reads it, and the old one runs the batch.
def reuse : List (Event Thread Choice) :=
  [.call (.take .start .get),.act 0 .go,.act 0 .go,.act 0 .go,
    .call (.remove .removeAllWorkers .popBack),.act 2 .go,.act 2 .go,.act 2 .go,
    .call (.take .processNextJob .popBack),.act 3 .go,.act 3 (.pick 0),.act 3 .go,.act 3 .go,
    .act 4 .go,.act 3 .go,.act 1 .go,.act 1 .go,.act 1 .go,.act 1 .go,
    .act 2 .go,.act 2 .go,.act 2 .go,.act 1 .go,.act 2 .go]

def finished : Thread → Bool
  | .serve _ .returned => true
  | .take _ .returned => true
  | .remove _ .returned => true
  | .prune .returned => true
  | _ => false

theorem step_of_finished (h : finished t = true) (s : Shared) (c : Choice) :
    program.step s t c = none := by
  unfold finished at h
  split at h <;> first | rfl | cases h

theorem reuse_runs : ∃ w, program.run always init reuse = some w ∧
    ∀ l ∈ w.threads, ∀ c, program.step w.shared l c = none := by
  have hany : (program.run always init reuse).any (fun w => w.threads.all finished) = true := by
    decide
  cases hw : program.run always init reuse with
  | none => simp [hw] at hany
  | some w =>
    rw [hw] at hany
    simp only [Option.any_some,List.all_eq_true] at hany
    exact ⟨w,rfl,fun l hl c => step_of_finished (hany l hl) _ c⟩

theorem served_by_one_reused : ∃ (r : Run program init) (i : ℕ),
    goroutines (r.world i) 0 = 2 ∧
    (r.world i).threads[3]? = some (.take .processNextJob (.sendBatch 0)) ∧
    (∃ k, i ≤ k ∧ r.Acts k 3) ∧ ∃ k, 0 ∈ (r.world k).shared.ran := by
  obtain ⟨w,hw,hend⟩ := reuse_runs
  have hfair := Run.fair_ofEvents hw hend
  have ht : ((Run.ofEvents reuse hw).world 13).threads[3]? =
      some (.take .processNextJob (.sendBatch 0)) := rfl
  have hserved := (served_by_one.1 _ ((Run.ofEvents reuse hw).reach 13)).taken _
    (List.mem_of_getElem? ht) 0 (by simp [serving])
  have hlive := served_by_one.2 _ hfair
  obtain ⟨k,-,hran⟩ := hlive.2 15 0
    (show 0 < (after program init reuse 15).shared.sent by decide)
  exact ⟨_,13,hserved,ht,hlive.1 13 3 _ 0 ht rfl,k,hran⟩

end Varmq.Serve
