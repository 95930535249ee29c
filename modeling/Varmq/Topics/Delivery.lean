import Varmq.Topics.Feed

namespace Varmq.Topics.Fanout

open Interleaving

variable {T : Type} {s s' : Topic T} {l l' t u : Thread T} {xs ys ts : List (Thread T)}
  {c k o capacity : ℕ} {p : Publish T} {w w' : World (Topic T) (Thread T)}

def startOf (s : Topic T) (k : ℕ) : ℕ := (s.log.cursor (s.cursorOf k)).start

def offsetOf (s : Topic T) (k : ℕ) : ℕ := (s.log.cursor (s.cursorOf k)).offset

-- Where a Publish is about to claim an offset, and where it looks for a cursor at the limit.
structure Checked (capacity : ℕ) (s : Topic T) (p : Publish T) : Prop where
  claim : ∀ b n t, p.pc = .append (.claim b n t) → p.audience = s.subs ∧ s.closed = false ∧
    s.subs ≠ [] ∧ (capacity ≠ 0 → ∀ k ∈ s.subs, s.unread k < capacity)
  full : ∀ c rest m, p.pc = .append (.full (c :: rest) m) → p.audience = s.subs ∧
    s.closed = false ∧ ∃ k ∈ s.subs, sawsFull s.log (.full (c :: rest) m) = decide (capacity ≤ s.unread k)

theorem Feed.checked (h : Feed s ts capacity) (hp : .publish p ∈ ts) : Checked capacity s p := by
  have hph := (h.publish p hp).phase
  have hlim := h.limit
  refine ⟨fun b n t hpc => ?_,fun c rest m hpc => ?_⟩
  · have hc := h.fan.cursors (h.fan.no_writes hp (reads_append hpc))
    have hlis := h.fan.listening (h.fan.no_writes hp (reads_append hpc))
    rw [hpc] at hph
    obtain ⟨⟨ha,hcl⟩,-,hpass,hn,h0⟩ := hph
    refine ⟨ha,hcl,fun he => ?_,fun hcap k hk => ?_⟩
    · rw [hlis.mpr he] at hn
      exact h0 hn
    · have hb : b = true := hpass.locked.mpr (by rw [hlim]; exact hcap)
      have hroom := (hpass.room hb).2 _ ((hc _).mpr (List.mem_map_of_mem hk))
      rw [hlim] at hroom
      exact hroom
  · have hc := h.fan.cursors (h.fan.no_writes hp (reads_append hpc))
    rw [hpc] at hph
    obtain ⟨⟨ha,hcl⟩,-,-,-,hscan⟩ := hph
    obtain ⟨k,hk,rfl⟩ := List.mem_map.mp ((hc c).mp (hscan.rest c List.mem_cons_self))
    exact ⟨ha,hcl,k,hk,by rw [← hlim]; rfl⟩

-- The cursor of the subscription is closed and has handed out nothing.
structure Unread (s : Topic T) (k : ℕ) : Prop where
  length : k < s.handles.length
  chunk : (s.log.cursor (s.cursorOf k)).chunk = none
  offset : offsetOf s k = startOf s k

theorem Unread.step (h : Unread s k) (hf : Fan s (xs ++ l :: ys)) (hs : Act s l s' l') :
    Unread s' k := by
  have hpre := handles_grow hs
  have hc := hf.owned _ (cursorOf_mem h.length)
  have hcur := cursorOf_grown hpre h.length
  have hon := (hf.framed hs).onward _ hc
  refine ⟨Nat.lt_of_lt_of_le h.length (length_grown hpre),?_,?_⟩
  · rw [hcur]
    exact (hf.framed hs).chunk _ hc h.chunk
  · unfold offsetOf startOf
    rw [hcur,hon.frozen h.chunk,hon.start]
    exact h.offset

theorem Unread.reach (h : Unread w.shared k) (hf : Fan w.shared w.threads)
    (hr : (program T).Reach always w w') : Fan w'.shared w'.threads ∧ Unread w'.shared k := by
  refine Program.reach_invariant (I := fun s ts => Fan s ts ∧ Unread s k) ⟨hf,h⟩
    (fun _ _ _ h _ he => ⟨fan_call h.1 he,h.2⟩) (fun s xs l ys u s' l' new h _ hs => ?_) hr
  obtain ⟨ha,rfl⟩ := step_act hs
  rw [List.append_nil]
  exact ⟨fan_act h.1 ha,h.2.step h.1 ha⟩

end Varmq.Topics.Fanout
