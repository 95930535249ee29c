import Varmq.Topics.Fifo

namespace Varmq.Topics

open Interleaving

variable {T : Type} {s s' : Log T} {l l' : Thread T} {x : T} {c o p : ℕ} {xs ys : List (Thread T)}

-- A cursor keeps its start, only moves on, and stays where it is once it has no chunk.
structure Onward (cur cur' : Cursor T) : Prop where
  start : cur'.start = cur.start
  offset : cur.offset ≤ cur'.offset
  frozen : cur.chunk = none → cur'.offset = cur.offset

theorem Onward.refl (cur : Cursor T) : Onward cur cur := ⟨rfl,Nat.le_refl _,fun _ => rfl⟩

theorem Placed.chunk_ne {cur : Cursor T} (h : Placed s cur o) : cur.chunk ≠ none := by
  obtain ⟨t,ht,-,-⟩ := h
  rw [ht]
  exact Option.some_ne_none t

theorem cursor_onward {pc pc' : CursorPc T} (hc : c < s.cursors.length)
    (hk : KnowsCursor s (s.cursor c) pc) (hs : CursorAct s c pc s' pc') :
    Onward (s.cursor c) (s'.cursor c) := by
  have hset : ∀ cur : Cursor T, (s.setCursor c cur).cursor c = cur := by
    intro cur
    rw [cursor_set,if_pos ⟨rfl,hc⟩]
  cases hs with
  | take hch =>
    split
    · rw [cursor_set,if_pos ⟨rfl,hc⟩]
      exact ⟨rfl,Nat.le_refl _,fun _ => rfl⟩
    · rw [hset]
      exact ⟨rfl,Nat.le_refl _,fun _ => rfl⟩
  | advance =>
    rw [hset]
    exact ⟨rfl,Nat.le_succ _,fun hn => absurd hn hk.1.chunk_ne⟩
  | clear =>
    rw [cursor_set,if_pos ⟨rfl,hc⟩]
    exact ⟨rfl,Nat.le_refl _,fun _ => rfl⟩
  | move =>
    rw [hset]
    refine ⟨rfl,?_,fun hn => absurd hn hk.1.placed.chunk_ne⟩
    exact Nat.le_trans (Follows.le hk.1.out) hk.1.stop
  | seek =>
    rw [hset]
    exact ⟨rfl,hk.2.2.2.1,fun hn => absurd hn hk.1.1.1.chunk_ne⟩
  | enter | close | gone | hop | shown | unlock =>
    rw [hset]
    exact ⟨rfl,Nat.le_refl _,fun _ => rfl⟩
  | _ => exact .refl _

theorem Inv.onward (h : Inv s (xs ++ l :: ys)) (hs : Act s l s' l') (hc : c < s.cursors.length) :
    Onward (s.cursor c) (s'.cursor c) := by
  rcases h.cursors hs hc with he | ⟨pc,pc',hl,-,ha,-⟩
  · rw [he]
    exact .refl _
  · have hmem : .cursor c pc ∈ xs ++ l :: ys := by simp [hl]
    exact cursor_onward hc (h.reader c pc hmem).2 ha

-- The only step on head is the claim of an Append.
theorem head_cases (hs : Act s l s' l') : (s'.head = s.head ∧ s'.claims = s.claims) ∨
    ∃ x b n t, l = .append x (.claim b n t) ∧ s'.head = s.head + 1 ∧ s'.claims = s.claims ++ [x] := by
  cases hs with
  | @append x pc pc' s' ha =>
    cases ha with
    | @claim b n t => exact .inr ⟨x,b,n,t,rfl,rfl,rfl⟩
    | _ => exact .inl ⟨rfl,rfl⟩
  | newCursor ha => cases ha <;> exact .inl ⟨rfl,rfl⟩
  | cursor ha =>
    cases ha with
    | take hc => split <;> exact .inl ⟨rfl,rfl⟩
    | _ => exact .inl ⟨rfl,rfl⟩
  | close => exact .inl ⟨rfl,rfl⟩

theorem limit_same (hs : Act s l s' l') : s'.limit = s.limit := by
  cases hs with
  | append ha => cases ha <;> rfl
  | newCursor ha => cases ha <;> rfl
  | cursor ha =>
    cases ha with
    | take hc => split <;> rfl
    | _ => rfl
  | close => rfl

theorem closed_same (hs : Act s l s' l') (hl : l ≠ .close false) : s'.closed = s.closed := by
  cases hs with
  | append ha => cases ha <;> rfl
  | newCursor ha => cases ha <;> rfl
  | cursor ha =>
    cases ha with
    | take hc => split <;> rfl
    | _ => rfl
  | close => exact absurd rfl hl

-- One call on the log is over and the next one begins.
theorem inv_swap (h : Inv s (xs ++ l :: ys)) (hl : Outside s l) (hl' : Outside s l') :
    Inv s (xs ++ l' :: ys) := by
  obtain ⟨h1,h2,h3,-,-,-⟩ := outside_quiet hl
  obtain ⟨k1,k2,k3,k4,k5,k6⟩ := outside_quiet hl'
  refine ⟨h.chain,h.open_,h.tail,fun o => ?_,?_,fun c hc => ?_,fun x pc hu => ?_,fun pc hu => ?_,
    fun c pc hu => ?_,h.sound,h.idle,h.kept,h.opened,h.listed,h.sole⟩
  · have := h.owned o
    rw [total_split,h1] at this
    rw [total_split,k1]
    exact this
  · have := h.log
    rw [total_split,h2] at this
    rw [total_split,k2]
    exact this
  · have := h.cursor c hc
    rw [total_split,h3] at this
    rw [total_split,k3]
    exact this
  · rcases mem_split hu with hu | hu
    · exact h.append x pc (mem_of_other hu)
    · exact k4 x pc hu.symm
  · rcases mem_split hu with hu | hu
    · exact h.new pc (mem_of_other hu)
    · exact k5 pc hu.symm
  · rcases mem_split hu with hu | hu
    · exact h.reader c pc (mem_of_other hu)
    · exact k6 c pc hu.symm

-- A goroutine that is done with the log is forgotten.
theorem inv_drop (h : Inv s (xs ++ l :: ys)) (hl : Outside s l) : Inv s (xs ++ ys) := by
  obtain ⟨h1,h2,h3,-,-,-⟩ := outside_quiet hl
  refine ⟨h.chain,h.open_,h.tail,fun o => ?_,?_,fun c hc => ?_,
    fun x pc hu => h.append x pc (mem_of_other hu),fun pc hu => h.new pc (mem_of_other hu),
    fun c pc hu => h.reader c pc (mem_of_other hu),h.sound,h.idle,h.kept,h.opened,h.listed,h.sole⟩
  · have := h.owned o
    rwa [total_split,h1] at this
  · have := h.log
    rwa [total_split,h2] at this
  · have := h.cursor c hc
    rwa [total_split,h3] at this

end Varmq.Topics
