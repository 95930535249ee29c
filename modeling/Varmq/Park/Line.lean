import Varmq.Park.Basic

namespace Varmq.Park

variable {J : Type} {p : Parked J} {bs : List (ParkedBatch J)}

-- The parked batches in dispatch order, whatever order they are stored in.
structure Lined (p : Parked J) (bs : List (ParkedBatch J)) : Prop where
  perm : bs.Perm p.batches
  sorted : p.unsorted = false → p.batches = bs
  apart : bs.Pairwise fun a b => a.stamp.seq + a.jobs.length ≤ b.stamp.seq
  whole : ∀ b ∈ bs, b.jobs ≠ []

theorem before_of_apart {a b : ParkedBatch J} (h : a.stamp.seq + a.jobs.length ≤ b.stamp.seq) :
    before a b = true := by
  simp only [before,decide_eq_true_eq]
  omega

namespace Lined

theorem of_batches {q : Parked J} (h : Lined p bs) (hb : q.batches = p.batches)
    (hu : q.unsorted = p.unsorted) : Lined q bs :=
  ⟨hb ▸ h.perm,fun hq => hb ▸ h.sorted (hu ▸ hq),h.apart,h.whole⟩

-- No two batches share a sequence number, so there is one sorted order.
theorem unique (h : Lined p bs) {a b : ParkedBatch J} (ha : a ∈ bs) (hb : b ∈ bs)
    (hab : before a b = true) (hba : before b a = true) : a = b := by
  have hseq : a.stamp.seq = b.stamp.seq := by
    simp only [before,decide_eq_true_eq] at hab hba
    omega
  by_contra hne
  obtain ⟨i,hi,rfl⟩ := List.getElem_of_mem ha
  obtain ⟨j,hj,rfl⟩ := List.getElem_of_mem hb
  have hlen : ∀ k (hk : k < bs.length), 0 < bs[k].jobs.length := fun k hk =>
    List.length_pos_iff.mpr (h.whole _ (List.getElem_mem hk))
  have hpw := List.pairwise_iff_getElem.mp h.apart
  rcases Nat.lt_trichotomy i j with hij | rfl | hij
  · have := hpw i j hi hj hij
    have := hlen i hi
    omega
  · exact hne rfl
  · have := hpw j i hj hi hij
    have := hlen j hj
    omega

theorem cut_held {paused : ℕ → Bool} {k : ℕ} (hh : ∀ b ∈ bs, b.stamp.held paused = true) :
    cut paused k bs = ([],Stamp.zero,bs) := by
  induction bs with
  | nil => rfl
  | cons b bs ih =>
    rw [cut,if_pos (hh b (by simp)),ih fun c hc => hh c (by simp [hc])]

end Lined

end Varmq.Park
