import Mathlib.Algebra.GroupWithZero.Nat
import Mathlib.Data.List.Basic
import Mathlib.Data.List.Nodup
import Mathlib.Tactic.Common

namespace Varmq.Queues

-- `m` are the keys of the map, nil or not.
structure IdMap where
  m : List String
  peak : ℕ
  deriving DecidableEq, Repr

def idsShrinkPeak : ℕ := 1024

def idShards : ℕ := 64

instance : NeZero idShards := ⟨by decide⟩

def idShardShrinkPeak : ℕ := idsShrinkPeak / idShards

namespace IdMap

def empty : IdMap := ⟨[],0⟩

def add (s : IdMap) (id : String) : IdMap × Bool :=
  if id ∈ s.m then (s,false) else (⟨id :: s.m,max s.peak (s.m.length + 1)⟩,true)

-- `shrink` is the peak above which a drained map is dropped.
def removeAbove (shrink : ℕ) (s : IdMap) (id : String) : IdMap :=
  let m := s.m.filter (· ≠ id)
  if m = [] ∧ shrink < s.peak then empty else { s with m := m }

def remove (s : IdMap) (id : String) : IdMap := s.removeAbove idShardShrinkPeak id

@[simp] theorem mem_add {s : IdMap} {id x : String} : x ∈ (s.add id).1.m ↔ x = id ∨ x ∈ s.m := by
  unfold add
  split
  · rename_i h
    exact ⟨.inr,fun hx => hx.elim (fun he => he ▸ h) fun hm => hm⟩
  · exact List.mem_cons

@[simp] theorem add_new {s : IdMap} {id : String} : (s.add id).2 = true ↔ id ∉ s.m := by
  unfold add
  split
  · simp [*]
  · simp [*]

@[simp] theorem mem_removeAbove {shrink : ℕ} {s : IdMap} {id x : String} :
    x ∈ (s.removeAbove shrink id).m ↔ x ∈ s.m ∧ x ≠ id := by
  simp only [removeAbove]
  split
  · rename_i h
    have hf : s.m.filter (· ≠ id) = [] := h.1
    have hx : x ∈ s.m.filter (· ≠ id) ↔ x ∈ s.m ∧ x ≠ id := by simp [List.mem_filter]
    rw [hf] at hx
    simpa [empty] using hx
  · simp [List.mem_filter]

@[simp] theorem mem_remove {s : IdMap} {id x : String} :
    x ∈ (s.remove id).m ↔ x ∈ s.m ∧ x ≠ id := mem_removeAbove

@[simp] theorem mem_empty {x : String} : x ∉ empty.m := List.not_mem_nil

end IdMap

end Varmq.Queues
