import Varmq.Pool.Conserved

namespace Varmq.Pool

open Interleaving LinkedStack

variable {s s' : Shared} {keep : ℤ} {e : ℕ} {n : Option ℕ} {sc : Scan} {above below rest : List ℕ}
  {t t' u : Thread} {ts xs ys : List Thread}

section Land

theorem Since.land {k : ℕ} (h : Since s k above) : Since (s.land e) k (e :: above) := by
  have hle := h.le
  refine ⟨?_,?_⟩
  · simp only [Shared.land,List.length_append]
    omega
  · simp only [Shared.land]
    rw [List.drop_append_of_le_length hle,List.reverse_append,← h.eq]
    rfl

theorem Scanning.land (h : Scanning s keep sc above below rest) :
    Scanning (s.land e) keep sc (e :: above) below rest where
  since := h.since.land
  stack := congrArg (e :: ·) h.stack
  counted := h.counted
  left := h.left
  dropped := h.dropped
  first := h.first
  prev p hp := by
    obtain ⟨as,has⟩ := h.prev p hp
    exact ⟨e :: as,congrArg (e :: ·) has⟩

theorem AtNode.land {v : ℕ} (h : AtNode s keep sc v n above rest) :
    AtNode (s.land e) keep sc v n (e :: above) rest :=
  ⟨h.scanning.land,h.next,h.left⟩

-- A push that lands leaves everything below it where it is.
theorem PruneAt.land {pc : PrunePc} (h : PruneAt s keep pc) : PruneAt (s.land e) keep pc := by
  cases pc with
  | lock | load | returned | nilPointer => exact h
  | count top cs since v =>
    obtain ⟨above,rest,hs,hst,ht⟩ := h
    exact ⟨e :: above,rest,hs.land,congrArg (e :: ·) hst,ht⟩
  | scan sc o =>
    obtain ⟨above,rest,hs,ho⟩ := h
    exact ⟨e :: above,rest,hs.land,ho⟩
  | drop sc v n =>
    obtain ⟨above,rest,hs⟩ := h
    exact ⟨e :: above,rest,hs.land⟩
  | cas sc v n =>
    obtain ⟨hp,above,rest,hs⟩ := h
    exact ⟨hp,e :: above,rest,hs.land⟩
  | searchHead sc v n =>
    obtain ⟨hp,above,rest,hs,-⟩ := h
    exact ⟨hp,e :: above,rest,hs.land,List.cons_ne_nil _ _⟩
  | search sc v n o =>
    obtain ⟨hp,as,p,bs,rest,hs,ho⟩ := h
    exact ⟨hp,e :: as,p,bs,rest,hs.land,ho⟩
  | follow sc v n p =>
    obtain ⟨hp,as,q,bs,rest,hs⟩ := h
    exact ⟨hp,e :: as,q,bs,rest,hs.land⟩
  | link sc v n p =>
    obtain ⟨hp,above,rest,hs⟩ := h
    exact ⟨hp,e :: above,rest,hs.land⟩
  | len sc v n =>
    obtain ⟨above,rest,hs,hn,hl⟩ := h
    exact ⟨e :: above,rest,hs.land,hn,hl⟩
  | unlock sc =>
    obtain ⟨above,rest,hs,hend⟩ := h
    exact ⟨e :: above,rest,hs.land,hend⟩

theorem At.land (h : At s u) : At (s.land e) u := by
  cases u with
  | pushNode v pc => cases pc <;> exact h
  | popBack pc =>
    cases pc with
    | next => exact List.mem_cons_of_mem e h
    | cas => exact ⟨List.mem_cons_of_mem e h.1,h.2⟩
    | _ => trivial
  | prune keep pc => exact PruneAt.land h

end Land

theorem Scanning.frame (h1 : s'.stack = s.stack) (h2 : s'.landed = s.landed)
    (h : Scanning s keep sc above below rest) : Scanning s' keep sc above below rest :=
  { h with since := ⟨h2 ▸ h.since.le,h2 ▸ h.since.eq⟩, stack := h1.trans h.stack }

theorem PruneAt.frame {pc : PrunePc} (h1 : s'.stack = s.stack) (h2 : s'.landed = s.landed)
    (h : PruneAt s keep pc) : PruneAt s' keep pc := by
  have hnode : ∀ {sc v n above rest}, AtNode s keep sc v n above rest →
      AtNode s' keep sc v n above rest := fun hs => ⟨hs.scanning.frame h1 h2,hs.next,hs.left⟩
  cases pc with
  | lock | load | returned | nilPointer => exact h
  | count top cs since v =>
    obtain ⟨above,rest,hs,hst,ht⟩ := h
    exact ⟨above,rest,⟨h2 ▸ hs.le,h2 ▸ hs.eq⟩,h1.trans hst,ht⟩
  | scan sc o =>
    obtain ⟨above,rest,hs,ho⟩ := h
    exact ⟨above,rest,hs.frame h1 h2,ho⟩
  | drop sc v n =>
    obtain ⟨above,rest,hs⟩ := h
    exact ⟨above,rest,hnode hs⟩
  | cas sc v n | link sc v n p =>
    obtain ⟨hp,above,rest,hs⟩ := h
    exact ⟨hp,above,rest,hnode hs⟩
  | searchHead sc v n =>
    obtain ⟨hp,above,rest,hs,hne⟩ := h
    exact ⟨hp,above,rest,hnode hs,hne⟩
  | search sc v n o =>
    obtain ⟨hp,as,p,bs,rest,hs,ho⟩ := h
    exact ⟨hp,as,p,bs,rest,hnode hs,ho⟩
  | follow sc v n p =>
    obtain ⟨hp,as,q,bs,rest,hs⟩ := h
    exact ⟨hp,as,q,bs,rest,hnode hs⟩
  | len sc v n =>
    obtain ⟨above,rest,hs,hn,hl⟩ := h
    exact ⟨above,rest,hs.frame h1 h2,hn,hl⟩
  | unlock sc =>
    obtain ⟨above,rest,hs,hend⟩ := h
    exact ⟨above,rest,hs.frame h1 h2,hend⟩

theorem At.frame (h1 : s'.stack = s.stack) (h2 : s'.landed = s.landed) (h3 : s'.next = s.next)
    (h : At s u) : At s' u := by
  cases u with
  | pushNode v pc =>
    cases pc with
    | cas k => exact (congrFun h3 v).trans h
    | _ => trivial
  | popBack pc =>
    cases pc with
    | next k => exact (congrArg (k ∈ ·) h1).mpr h
    | cas k m => exact ⟨(congrArg (k ∈ ·) h1).mpr h.1,(congrFun h3 k).trans h.2⟩
    | _ => trivial
  | prune keep pc => exact PruneAt.frame h1 h2 h

theorem At.store {h : Option ℕ} (he : e ∉ s.stack) (hu : pushing e u = 0) (hat : At s u) :
    At { s with next := Function.update s.next e h } u := by
  cases u with
  | pushNode v pc =>
    cases pc with
    | cas k =>
      have hne : v ≠ e := by
        rintro rfl
        simp [pushing,pushes] at hu
      exact (Function.update_of_ne hne _ _).trans hat
    | _ => trivial
  | popBack pc =>
    cases pc with
    | next k => exact hat
    | cas k m =>
      have hne : k ≠ e := fun hk => he (hk ▸ hat.1)
      exact ⟨hat.1,(Function.update_of_ne hne _ _).trans hat.2⟩
    | _ => trivial
  | prune keep pc => exact PruneAt.frame (s := s) rfl rfl hat

-- Another thread while a remover changes the stack.
theorem At.removed (hu : holds u = 0) (hn : ∀ v, 0 < pushing v u → s'.next v = s.next v)
    (hat : At s u) : At s' u := by
  cases u with
  | pushNode v pc =>
    cases pc with
    | cas k => exact (hn v (by simp [pushing,pushes])).trans hat
    | _ => trivial
  | popBack pc =>
    cases pc with
    | lock | returned r => trivial
    | _ => cases hu
  | prune keep pc =>
    cases pc with
    | lock => trivial
    | returned sc => exact hat
    | _ => cases hu

section Own

variable {ks : List ℕ}

theorem AtNode.stack_eq (h : AtNode s keep sc e n above rest) :
    s.stack = (above ++ sc.kept) ++ e :: rest := by
  rw [h.scanning.stack,List.append_assoc]

theorem AtNode.unkept (h : AtNode s keep sc e n above rest) (hp : sc.prev = none) :
    s.stack = above ++ e :: rest := by
  rw [h.stack_eq,h.scanning.first hp,List.append_nil]

theorem AtNode.removed (hn : s.stack.Nodup) (h : AtNode s keep sc e n above rest)
    (h1 : s'.stack = s.stack.erase e) (h2 : s'.landed = s.landed) :
    PruneAt s' keep (.len sc e n) := by
  have hsc := h.scanning
  refine ⟨above,rest,{ hsc with since := ⟨h2 ▸ hsc.since.le,h2 ▸ hsc.since.eq⟩, stack := ?_ },h.next,
    h.left⟩
  have hst := h.stack_eq
  rw [hst] at hn h1
  rw [h1,erase_split hn,List.append_assoc]

theorem AtNode.keepNode (h : AtNode s keep sc e n above rest) :
    PruneAt s keep (.scan (sc.keepNode e) n) := by
  have hsc := h.scanning
  have hk : (sc.keepNode e).kept = sc.kept ++ [e] := by
    simp [Scan.kept,Scan.keepNode]
  refine ⟨above,rest,⟨hsc.since,?_,?_,?_,?_,?_,?_⟩,h.next⟩
  · rw [hsc.stack,hk]
    simp
  · simp [Scan.keepNode,hsc.counted]
  · have hl := hsc.left
    have hpos := h.left
    simp only [Scan.keepNode,List.length_append,List.length_singleton]
    omega
  · simp [Scan.keepNode,hsc.dropped]
  · intro hp
    cases hp
  · intro p hp
    cases hp
    exact ⟨above ++ sc.kept,by rw [hk,List.append_assoc]⟩

theorem dropNode (h : PruneAt s keep (.len sc e n)) : PruneAt s keep (.scan (sc.dropNode e) n) := by
  obtain ⟨above,rest,hsc,hn,hpos⟩ := h
  have hk : (sc.dropNode e).kept = sc.kept := by
    simp [Scan.kept,Scan.dropNode]
  refine ⟨above,rest,⟨hsc.since,?_,?_,?_,?_,?_,?_⟩,hn⟩
  · rw [hsc.stack,hk]
  · simp [Scan.dropNode,hsc.counted]
  · have hl := hsc.left
    simp only [Scan.dropNode,List.length_append,List.length_singleton]
    omega
  · simp [Scan.dropNode,hsc.dropped]
  · rw [hk]
    exact hsc.first
  · rw [hk]
    exact hsc.prev

theorem Scanning.pruned (h : Scanning s keep sc above rest rest) (hend : rest = [] ∨ sc.left = 0) :
    Pruned keep sc := by
  refine ⟨?_,h.dropped⟩
  have hl := h.left
  have hlen := congrArg List.length h.counted
  rw [List.length_append,List.length_map] at hlen
  rcases hend with rfl | hz
  · rw [List.take_of_length_le]
    · rw [h.counted,List.append_nil]
    · rw [List.length_nil] at hlen
      omega
  · rw [← hl,hz,h.counted]
    simp

theorem scanFrom_at {k : ℕ} {cs : List ℕ} (hs : Since s k above) (hst : s.stack = above ++ cs) :
    PruneAt s keep (.scan (scanFrom keep cs k) cs.head?) :=
  ⟨above,cs,⟨hs,hst,rfl,Nat.zero_add _,rfl,fun _ => rfl,fun _ hp => by cases hp⟩,rfl⟩

theorem prune_at {pc pc' : PrunePc} (hl : Linked s.next s.head s.stack) (hn : s.stack.Nodup)
    (hat : PruneAt s keep pc) (ha : PruneAct s keep pc s' pc') : PruneAt s' keep pc' := by
  have hnow : Since s s.landed.length [] := ⟨Nat.le_refl _,by simp⟩
  cases ha with
  | lock => trivial
  | empty hh =>
    rw [hh] at hl
    exact scanFrom_at hnow hl.of_none
  | @load top hh =>
    rw [hh] at hl
    obtain ⟨ys,hy,-⟩ := hl.of_some
    exact ⟨[],ys,hnow,hy,rfl⟩
  | @counted top since e cs hne =>
    obtain ⟨above,rest,hs,hst,ht⟩ := hat
    have hst' : s.stack = (above ++ cs) ++ e :: rest := by rw [hst,List.append_assoc]
    rw [hst'] at hl
    have hrest : rest = [] := by
      have := hl.next_eq
      rw [hne] at this
      exact List.head?_eq_none_iff.mp this.symm
    subst hrest
    exact ht ▸ scanFrom_at hs hst
  | @count top since e e' cs hne =>
    obtain ⟨above,rest,hs,hst,ht⟩ := hat
    have hst' : s.stack = (above ++ cs) ++ e :: rest := by rw [hst,List.append_assoc]
    rw [hst'] at hl
    have hrest := hl.next_eq
    rw [hne] at hrest
    obtain ⟨rest',rfl⟩ := List.head?_eq_some_iff.mp hrest.symm
    refine ⟨above,rest',hs,?_,?_⟩
    · rw [hst]
      simp
    · rw [List.head?_append,ht]
      rfl
  | bottom =>
    obtain ⟨above,rest,hs,ho⟩ := hat
    exact ⟨above,rest,hs,.inl (List.head?_eq_none_iff.mp ho.symm)⟩
  | kept hz =>
    obtain ⟨above,rest,hs,-⟩ := hat
    exact ⟨above,rest,hs,.inr hz⟩
  | next hpos =>
    obtain ⟨above,rest,hs,ho⟩ := hat
    obtain ⟨rest',rfl⟩ := List.head?_eq_some_iff.mp ho.symm
    have hst := hs.stack
    rw [← List.append_assoc] at hst
    rw [hst] at hl
    exact ⟨above,rest',hs,hl.next_eq,hpos⟩
  | keep =>
    obtain ⟨above,rest,hs⟩ := hat
    exact hs.keepNode
  | first hp => exact ⟨hp,hat⟩
  | below hp => exact ⟨hp,hat⟩
  | take =>
    obtain ⟨-,above,rest,hs⟩ := hat
    exact hs.removed hn rfl rfl
  | @pushed sc e n hh =>
    obtain ⟨hp,above,rest,hs⟩ := hat
    refine ⟨hp,above,rest,hs,?_⟩
    rintro rfl
    have hst := hs.unkept hp
    rw [hst] at hl
    exact hh hl.head_eq
  | searchHead =>
    obtain ⟨hp,above,rest,hs,hne⟩ := hat
    cases above with
    | nil => cases hne rfl
    | cons p bs =>
      have hst := hs.unkept hp
      rw [hst] at hl
      exact ⟨hp,[],p,bs,rest,hs,hl.head_eq⟩
  | nilPointer =>
    obtain ⟨-,as,p,bs,rest,-,ho⟩ := hat
    cases ho
  | @found sc e p n hpe =>
    obtain ⟨hp,as,q,bs,rest,hs,ho⟩ := hat
    cases ho
    have hst := hs.unkept hp
    have hsc := hs.scanning
    rw [hst,List.append_assoc,List.cons_append] at hl hn
    have hbs : bs = [] := by
      cases bs with
      | nil => rfl
      | cons b bs =>
        have hb := hl.next_eq
        rw [hpe] at hb
        cases hb
        simp [List.nodup_append] at hn
    subst hbs
    refine ⟨rfl,as ++ [p],rest,{ hsc with first := ?_, prev := ?_ },hs.next,hs.left⟩
    · intro h
      cases h
    · intro k hk
      cases hk
      refine ⟨as,?_⟩
      have hkept : Scan.kept { sc with prev := some p } = [] := hsc.first hp
      rw [hkept,List.append_nil]
  | @miss sc e p n hpe =>
    obtain ⟨hp,as,q,bs,rest,hs,ho⟩ := hat
    cases ho
    have hst := hs.unkept hp
    rw [hst,List.append_assoc,List.cons_append] at hl
    cases bs with
    | nil => cases hpe hl.next_eq
    | cons b bs => exact ⟨hp,as,b,bs,rest,hs⟩
  | @follow sc e p n =>
    obtain ⟨hp,as,q,bs,rest,hs⟩ := hat
    have hst := hs.unkept hp
    rw [hst,List.append_assoc,List.cons_append] at hl
    refine ⟨hp,as ++ [p],q,bs,rest,?_,hl.next_eq⟩
    rw [List.append_assoc]
    exact hs
  | link =>
    obtain ⟨-,above,rest,hs⟩ := hat
    exact hs.removed hn rfl rfl
  | len => exact dropNode (PruneAt.frame (s := s) rfl rfl hat)
  | unlock =>
    obtain ⟨above,rest,hs,hend⟩ := hat
    exact hs.pruned hend

end Own

end Varmq.Pool
