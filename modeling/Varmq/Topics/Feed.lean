import Varmq.Topics.Publishing

namespace Varmq.Topics.Fanout

open Interleaving

variable {T : Type} {s s' : Topic T} {l l' t u : Thread T} {xs ys ts : List (Thread T)}
  {c k o capacity : ℕ} {p : Publish T}

theorem reads_append {pc : AppendPc} (hp : p.pc = .append pc) : reads (.publish p) = true := by
  simp [reads,hp]

-- The answer of an Append, in the words of the topic.
theorem Feed.answered (h : Feed s ts capacity) (hu : .publish p ∈ ts) {n : ℕ}
    (hp : p.pc = .append (.returned n)) : Answered s p (decide (n ≠ 0)) := by
  have hph := (h.publish p hu).phase
  rw [hp] at hph
  obtain ⟨⟨ha,-⟩,hcl,hov⟩ := hph
  have hw := h.fan.no_writes hu (reads_append hp)
  have hlis := h.fan.listening hw
  have hov : Over s.log p.seq p.sawFull n := hov
  unfold Over at hov
  split at hov
  · rename_i hn
    obtain ⟨hseq,href⟩ := hov
    subst hn
    refine ⟨⟨(fun hf => by cases hf),fun ⟨_,hne,hfull⟩ => ?_⟩,by simp [hseq]⟩
    rcases href with ho | ⟨hl,hf⟩
    · rw [ha] at hne
      exact absurd (hlis.mp ho) hne
    · rw [hfull hl] at hf
      cases hf
  · rename_i hn
    obtain ⟨hseq,hf,ho⟩ := hov
    have hne : s.subs ≠ [] := fun he => ho (hlis.mpr he)
    refine ⟨?_,by simp [hseq,hn]⟩
    simp [hn,hcl,hf,ha,hne]

theorem Delivered.of_eq {q : Publish T} (h : Delivered s p o) (hd : q.data = p.data)
    (ha : q.audience = p.audience) : Delivered s q o :=
  ⟨h.claimed,by rw [hd]; exact h.payload,by rw [ha]; exact h.audience⟩

-- A Publish that claims nothing in a step keeps what it had.
theorem Told.keep {q : Publish T} (h : Told s p) (hf : Fan s (xs ++ l :: ys)) (hs : Act s l s' l')
    (hph : Phase s' q q.pc) (hd : q.data = p.data) (ha : q.audience = p.audience)
    (hq : q.seq = p.seq) : Told s' q := by
  refine ⟨hph,fun k hk => ?_,fun o ho => ?_⟩
  · rw [ha] at hk
    exact Nat.lt_of_lt_of_le (h.audience k hk) (length_grown (handles_grow hs))
  · rw [hq] at ho
    exact ((h.seq o ho).step h.audience hf hs).of_eq hd ha

end Varmq.Topics.Fanout
