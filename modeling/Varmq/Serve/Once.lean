import Varmq.Serve.Balance

namespace Varmq.Serve

open Interleaving

def carries (s : Shared) (n k : ℕ) : Prop := ∃ p, s.chan n = some p ∧ p.ok = true ∧ p.items = k

-- A payload waits in one channel until Serve takes it out and calls fn on it, once.
structure Delivered (s : Shared) : Prop where
  once : s.ran.Nodup
  numbered : ∀ k ∈ s.ran, k < s.sent
  waiting : ∀ n k, carries s n k → k < s.sent ∧ k ∉ s.ran
  apart : ∀ n m k, carries s n k → carries s m k → n = m
  all : ∀ k, k < s.sent → k ∈ s.ran ∨ ∃ n, carries s n k

variable {s s' : Shared} {n m k : ℕ} {p : Payload}

theorem delivered_congr (hcar : ∀ n k, carries s' n k ↔ carries s n k) (hs : s'.sent = s.sent)
    (hr : s'.ran = s.ran) (h : Delivered s) : Delivered s' := by
  constructor
  · rw [hr]
    exact h.once
  · rw [hr,hs]
    exact h.numbered
  · intro n k hk
    rw [hr,hs]
    exact h.waiting n k ((hcar n k).mp hk)
  · intro n m k hn hm
    exact h.apart n m k ((hcar n k).mp hn) ((hcar m k).mp hm)
  · intro k hk
    rw [hr]
    rw [hs] at hk
    exact (h.all k hk).imp_right fun ⟨n,hn⟩ => ⟨n,(hcar n k).mpr hn⟩

theorem carries_offer (h : s.offer n p = some s') (m k : ℕ) :
    carries s' m k ↔ carries s m k ∨ (m = n ∧ p.ok = true ∧ p.items = k) := by
  obtain ⟨hc,rfl⟩ := offered h
  by_cases hm : m = n
  · subst hm
    simp [carries,hc]
  · simp [carries,hm]

theorem carries_take (hc : s.chan n = some p) (m k : ℕ) :
    carries (s.take n) m k ↔ carries s m k ∧ m ≠ n := by
  by_cases hm : m = n
  · subst hm
    simp [carries,Shared.take]
  · simp [carries,Shared.take,hm]

theorem offer_counters (h : s.offer n p = some s') : s'.sent = s.sent ∧ s'.ran = s.ran := by
  obtain ⟨-,rfl⟩ := offered h
  exact ⟨rfl,rfl⟩

theorem delivered_stop (ho : s.stop n = some s') (h : Delivered s) : Delivered s' := by
  obtain ⟨hsent,hran⟩ := offer_counters ho
  refine delivered_congr ?_ hsent hran h
  intro m k
  rw [carries_offer ho]
  simp

theorem delivered_send (hok : p.ok = true) (hk : p.items = s.sent)
    (ho : { s with sent := s.sent + 1 }.offer n p = some s') (h : Delivered s) : Delivered s' := by
  obtain ⟨hsent,hran⟩ := offer_counters ho
  simp only at hsent hran
  have hcar : ∀ m j, carries s' m j ↔ carries s m j ∨ (m = n ∧ j = s.sent) := by
    intro m j
    rw [carries_offer ho,hk,eq_comm (a := j)]
    simp only [hok,true_and]
    exact Iff.rfl
  have hfresh : ∀ m, ¬carries s m s.sent := by
    intro m hm
    exact absurd (h.waiting m _ hm).1 (Nat.lt_irrefl _)
  constructor
  · rw [hran]
    exact h.once
  · rw [hran,hsent]
    intro j hj
    exact Nat.lt_succ_of_lt (h.numbered j hj)
  · intro m j hm
    rw [hran,hsent]
    rcases (hcar m j).mp hm with hm | ⟨-,rfl⟩
    · obtain ⟨hlt,hnot⟩ := h.waiting m j hm
      exact ⟨Nat.lt_succ_of_lt hlt,hnot⟩
    · exact ⟨Nat.lt_succ_self _,fun hj => absurd (h.numbered _ hj) (Nat.lt_irrefl _)⟩
  · intro m m' j hm hm'
    rcases (hcar m j).mp hm with hm | ⟨rfl,rfl⟩ <;> rcases (hcar m' _).mp hm' with hm' | ⟨rfl,he⟩
    · exact h.apart m m' j hm hm'
    · exact absurd (he ▸ hm) (hfresh m)
    · exact absurd hm' (hfresh m')
    · rfl
  · intro j hj
    rw [hran]
    rw [hsent] at hj
    rcases Nat.lt_succ_iff_lt_or_eq.mp hj with hj | rfl
    · exact (h.all j hj).imp_right fun ⟨m,hm⟩ => ⟨m,(hcar m j).mpr (.inl hm)⟩
    · exact .inr ⟨n,(hcar n _).mpr (.inr ⟨rfl,rfl⟩)⟩

theorem delivered_run (hc : s.chan n = some p) (hok : p.ok = true) (h : Delivered s) :
    Delivered { s.take n with ran := s.ran ++ [p.items] } := by
  have hin : carries s n p.items := ⟨p,hc,hok,rfl⟩
  obtain ⟨hlt,hnot⟩ := h.waiting n p.items hin
  have hcar : ∀ m j, carries { s.take n with ran := s.ran ++ [p.items] } m j ↔
      carries s m j ∧ m ≠ n := fun m j => carries_take hc m j
  constructor
  · simpa [List.nodup_append] using ⟨h.once,fun j hj he => hnot (he ▸ hj)⟩
  · intro j hj
    rcases List.mem_append.mp hj with hj | hj
    · exact h.numbered j hj
    · rw [List.mem_singleton.mp hj]
      exact hlt
  · intro m j hm
    obtain ⟨hm,hne⟩ := (hcar m j).mp hm
    obtain ⟨hj,hout⟩ := h.waiting m j hm
    refine ⟨hj,fun hj => ?_⟩
    rcases List.mem_append.mp hj with hj | hj
    · exact hout hj
    · exact hne (h.apart m n j hm (List.mem_singleton.mp hj ▸ hin))
  · intro m m' j hm hm'
    exact h.apart m m' j ((hcar m j).mp hm).1 ((hcar m' j).mp hm').1
  · intro j hj
    rcases h.all j hj with hj | ⟨m,hm⟩
    · exact .inl (List.mem_append_left _ hj)
    · by_cases hmn : m = n
      · subst hmn
        obtain ⟨q,hq,-,hqj⟩ := hm
        rw [hc] at hq
        cases hq
        exact .inl (List.mem_append_right _ (List.mem_singleton.mpr hqj.symm))
      · exact .inr ⟨m,(hcar m j).mpr ⟨hm,hmn⟩⟩

theorem delivered_leave (hc : s.chan n = some p) (hok : p.ok = false) (h : Delivered s) :
    Delivered (s.take n) := by
  refine delivered_congr (s := s) ?_ rfl rfl h
  intro m j
  rw [carries_take hc]
  refine and_iff_left_of_imp ?_
  rintro ⟨q,hq,hqok,-⟩ rfl
  rw [hc] at hq
  cases hq
  rw [hok] at hqok
  cases hqok

theorem delivered_effect {l l' : Thread} {new : List Thread} (he : Effect s l s' l' new)
    (h : Delivered s) : Delivered s' := by
  cases he with
  | quiet | spawn => exact h
  | pop | push | get | fresh | put =>
    exact delivered_congr (s := s) (fun _ _ => Iff.rfl) rfl rfl h
  | stop ho => exact delivered_stop ho h
  | send hok hk ho => exact delivered_send hok hk ho h
  | run _ hc hok => exact delivered_run hc hok h
  | leave _ hc hok => exact delivered_leave hc hok h

theorem reached_delivered {w : World Shared Thread} (h : reached w) : Delivered w.shared :=
  Program.reach_invariant (I := fun s _ => Delivered s)
    ⟨List.nodup_nil,by simp [init],by simp [init,carries],by simp [init,carries],by simp [init]⟩
    (fun _ _ _ hi _ _ => hi)
    (fun _ _ _ _ _ _ _ _ hi _ hs => delivered_effect (step_effect hs) hi) h

end Varmq.Serve
