import Varmq.Fetch.Refusals

namespace Varmq.Fetch

open Interleaving
open Varmq.Queues (Queue PriorityQueue Stored idShards)
open Varmq.Sources (Source Strategy)

variable {T J : Type} {idOf : T → Option String} {hash : String → Fin idShards}
  {storage : ℕ → ℕ} {toJob : T → Option J} {strategy : ℕ → Strategy}
  {s s' : Shared T J} {l l' t : Thread T J} {xs ys ts new : List (Thread T J)} {c : Choice}
  {w n : ℕ} {src a : Source}

def Use.expected : Use → Option Source
  | .minLen _ best => best.map fun b => b.1
  | _ => none

-- The source a dispatch has found items in and not dequeued from yet.
def NextPc.expected : NextPc T → Option Source
  | .paused _ use | .len _ use => use.expected
  | .epoch src | .refuse src _ | .dequeue src _ => some src
  | _ => none

def expects (storage : ℕ → ℕ) (q : ℕ) : Thread T J → Bool
  | .loop _ (.fill _ _ _ pc) => pc.expected.any fun src => storage src.id = q
  | _ => false

-- The queue a step takes the last items from.
def empties (storage : ℕ → ℕ) (s : Shared T J) : Thread T J → Option ℕ
  | .loop _ (.fill _ _ _ (.dequeue src _)) =>
      if (queue storage s src).len = 1 then some (storage src.id) else none
  | .call q (some .purge) => if (s.queues q).len = 0 then none else some q
  | _ => none

-- Nobody else empties a queue that a dispatch has found items in.
def keepsFound (storage : ℕ → ℕ) : Guard (Shared T J) (Thread T J) Choice := fun w e => match e with
  | .call _ => true
  | .act i _ => (w.threads[i]?.bind (empties storage w.shared)).all fun q =>
      (w.threads.eraseIdx i).all fun t => !expects storage q t

def Found (storage : ℕ → ℕ) (s : Shared T J) (t : Thread T J) : Prop :=
  ∀ q, expects storage q t = true → 0 < (s.queues q).len

theorem first_expected {use : List Source → Use} (hu : ∀ rest, (use rest).expected = none)
    (srcs : List Source) : (first use srcs : NextPc T).expected = none := by
  cases srcs with
  | nil => rfl
  | cons a rest => exact hu rest

theorem maxNext_expected (best : Source) (rest : List Source) :
    (maxNext best rest : NextPc T).expected = none := by
  cases rest <;> rfl

theorem minOf_expected {best : Option (Source × ℕ)} (h : (minOf src n best).map Prod.fst = some a) :
    best.map Prod.fst = some a ∨ a = src ∧ 0 < n := by
  unfold minOf at h
  split at h
  · rename_i hn
    exact .inr ⟨(Option.some.inj h).symm,hn.1⟩
  · exact .inl h

theorem startNext_expected (m : Sources.SourceManager) (l : Loaded) :
    (startNext m l : NextPc T).expected = none := by
  cases l with
  | empty => rfl
  | direct src => rfl
  | strategy =>
    cases m with
    | strategy m st =>
      cases st with
      | maxLen =>
        simp only [startNext,pick]
        split
        · rfl
        · exact maxNext_expected _ _
      | _ => exact first_expected (fun _ => rfl) _
    | _ => rfl

theorem scanned_expected {use : Use} (h : (scanned src n use : NextPc T).expected = some a) :
    use.expected = some a ∨ a = src ∧ 0 < n := by
  cases use with
  | direct | maxLast =>
    simp only [scanned] at h
    split at h
    · cases h
    · exact .inr ⟨(Option.some.inj h).symm,by omega⟩
  | roundRobin rest | priority rest =>
    simp only [scanned] at h
    split at h
    · exact .inr ⟨(Option.some.inj h).symm,‹0 < n›⟩
    · rw [first_expected fun _ => rfl] at h
      cases h
  | minLen rest best =>
    refine minOf_expected ?_
    cases rest with
    | nil =>
      simp only [scanned] at h
      split at h
      · cases h
      · rename_i b k hb
        rw [hb]
        exact h
    | cons b rest => exact h
  | maxLeft best rest => cases h
  | maxRight b nb rest =>
    rw [scanned,maxNext_expected] at h
    cases h

-- Steps other than a Dequeue leave no queue with fewer items.
theorem next_expected {k : ℕ} {m : Loaded} {buf : List J} {pc pc' : NextPc T}
    (hs : nextStep idOf hash storage s w m pc = some (s',pc')) :
    (∀ src, pc'.expected = some src → pc.expected = some src ∨ 0 < (queue storage s src).len) ∧
    ∀ q, (s.queues q).len ≤ (s'.queues q).len ∨
      (s.queues q).len ≤ (s'.queues q).len + 1 ∧ pc'.expected = none ∧
      ((s.queues q).len = 1 →
        empties storage s (.loop w (.fill k m buf pc) : Thread T J) = some q) := by
  cases pc with
  | next =>
    cases hs
    refine ⟨fun src h => ?_,fun q => .inl (Nat.le_refl _)⟩
    rw [startNext_expected] at h
    cases h
  | paused src use =>
    cases hs
    refine ⟨fun a h => ?_,fun q => .inl (Nat.le_refl _)⟩
    split at h
    · exact .inl ((scanned_expected h).resolve_right fun h => absurd h.2 (Nat.lt_irrefl 0))
    · exact .inl h
  | len src use =>
    cases hs
    refine ⟨fun a h => ?_,fun q => .inl (Nat.le_refl _)⟩
    rcases scanned_expected h with h | ⟨rfl,hn⟩
    · exact .inl h
    · exact .inr hn
  | epoch src =>
    cases hs
    exact ⟨fun a h => .inl h,fun q => .inl (Nat.le_refl _)⟩
  | refuse src e =>
    cases hs
    refine ⟨fun a h => ?_,fun q => .inl (Nat.le_refl _)⟩
    split at h
    · cases h
    · exact .inl h
  | refused src e =>
    cases hs
    refine ⟨(fun a h => by cases h),fun q => .inl ?_⟩
    by_cases hq : q = storage src.id
    · subst hq
      simp [setQueue,Memory.len_countRefusal,queue]
    · simp [setQueue,Function.update_of_ne hq]
  | dequeue src e =>
    have ht := @Memory.took T idOf hash (queue storage s src)
    simp only [nextStep] at hs
    generalize (queue storage s src).take idOf hash = r at hs ht
    obtain ⟨q₀,x⟩ := r
    cases hs
    refine ⟨(fun a h => by cases x <;> cases h),fun q => ?_⟩
    by_cases hq : q = storage src.id
    · subst hq
      refine .inr ⟨by simpa [setQueue,queue] using ht.len,(by cases x <;> rfl),fun h1 => ?_⟩
      simp [empties,queue,h1]
    · exact .inl (by simp [setQueue,Function.update_of_ne hq])
  | emptyErr src e =>
    cases hs
    refine ⟨fun a h => ?_,fun q => .inl (Nat.le_refl _)⟩
    split at h <;> cases h
  | refusals src e =>
    cases hs
    exact ⟨(fun a h => by cases h),fun q => .inl (Nat.le_refl _)⟩
  | item x => cases hs
  | failed err => cases hs

theorem found_of_len (h : ∀ q, (s.queues q).len ≤ (s'.queues q).len) (ht : Found storage s t) :
    Found storage s' t := fun q hq => Nat.lt_of_lt_of_le (ht q hq) (h q)

-- What a step takes items from, and what it leaves for the others.
structure Leaves (storage : ℕ → ℕ) (s s' : Shared T J) (l l' : Thread T J) : Prop where
  mine : Found storage s l → Found storage s' l'
  len : ∀ q, (s.queues q).len ≤ (s'.queues q).len ∨
    ((s.queues q).len ≠ 0 → 0 < (s'.queues q).len ∨ empties storage s l = some q)

theorem leaves_of_len (h : ∀ q, (s.queues q).len ≤ (s'.queues q).len)
    (hl : ∀ q, expects storage q l' = true → expects storage q l = true) :
    Leaves storage s s' l l' :=
  ⟨fun hf q hq => Nat.lt_of_lt_of_le (hf q (hl q hq)) (h q),fun q => .inl (h q)⟩

theorem handOff_queues (buf : List J) : (handOff s w buf).queues = s.queues :=
  (handOff_same buf).1

theorem loop_leaves {pc pc' : LoopPc T J}
    (hs : loopStep idOf hash storage toJob s w pc c = some (s',pc')) :
    Leaves storage s s' (.loop w pc) (.loop w pc') := by
  have hnone : ∀ (pc₁ : LoopPc T J), (∀ q, expects storage q (.loop w pc₁ : Thread T J) = false) →
      ∀ s₁ : Shared T J, s₁.queues = s.queues → Leaves storage s s₁ (.loop w pc) (.loop w pc₁) := by
    intro pc₁ hpc s₁ hq
    refine leaves_of_len (fun q => by rw [hq]) fun q hx => ?_
    rw [hpc q] at hx
    cases hx
  unfold loopStep at hs
  split at hs
  · split at hs <;> cases hs
    exact hnone _ (fun _ => rfl) _ rfl
  · split at hs
    · cases hs
      exact hnone _ (fun _ => rfl) _ rfl
    · split at hs
      · cases hs
        exact hnone _ (fun _ => rfl) _ rfl
      · split at hs <;> cases hs
        · exact hnone _ (fun _ => rfl) _ rfl
        · exact hnone _ (fun _ => rfl) _ (handOff_queues _)
  · cases hs
    refine hnone _ (fun _ => ?_) _ (handOff_queues _)
    split <;> rfl
  · obtain ⟨⟨s₁,pc₁⟩,hn,heq⟩ := Option.map_eq_some_iff.mp hs
    cases heq
    obtain ⟨hexp,hlen⟩ := next_expected hn
    refine ⟨fun hf q hq => ?_,fun q => ?_⟩
    · obtain ⟨src,hsrc,rfl⟩ : ∃ src, pc₁.expected = some src ∧ storage src.id = q := by
        simpa [expects,Option.any_eq_true] using hq
      have hpos : 0 < (s.queues (storage src.id)).len := by
        rcases hexp src hsrc with h1 | h1
        · exact hf _ (by simp [expects,h1])
        · exact h1
      rcases hlen (storage src.id) with h1 | ⟨-,h1,-⟩
      · omega
      · rw [hsrc] at h1
        cases h1
    · rcases hlen q with h1 | ⟨hle,-,h1⟩
      · exact .inl h1
      · refine .inr fun hne => ?_
        by_cases hone : (s.queues q).len = 1
        · exact .inr (h1 hone)
        · exact .inl (by omega)
  · cases hs
    exact hnone _ (fun _ => rfl) _ rfl
  · cases hs

theorem step_leaves (hs : step idOf hash storage toJob strategy s l c = some (s',l',new)) :
    Leaves storage s s' l l' ∧ new = [] := by
  unfold step at hs
  split at hs
  · obtain ⟨⟨s₁,pc₁⟩,hp,heq⟩ := Option.map_eq_some_iff.mp hs
    cases heq
    exact ⟨loop_leaves hp,rfl⟩
  · rename_i q c
    cases hs
    refine ⟨⟨(fun _ n hx => by cases hx),fun n => ?_⟩,rfl⟩
    by_cases hn : n = q
    · subst hn
      by_cases hc : c = .purge
      · subst hc
        exact .inr fun hne => .inr (by simp [empties,hne])
      · left
        simpa [setQueue] using (Memory.run_kept c hc (s.queues n)).len
    · exact .inl (by simp [setQueue,Function.update_of_ne hn])
  · cases hs
    exact ⟨leaves_of_len (fun _ => Nat.le_refl _) fun q hx => (by cases hx),rfl⟩
  · cases hs

theorem Found.findsItem (h : Found storage s l) : findsItem storage s l = true := by
  unfold Fetch.findsItem
  split
  · rename_i src e
    have hpos : 0 < (s.queues (storage src.id)).len := h _ (by simp [expects,NextPc.expected])
    have hne : (queue storage s src).len ≠ 0 := Nat.pos_iff_ne_zero.mp hpos
    simp [hne]
  · rfl

variable {fifo : ℕ → Bool} {capacity : ℕ → ℕ}

theorem found_reach {wd : World (Shared T J) (Thread T J)}
    (h : (program idOf hash storage toJob strategy).Reach (keepsFound storage)
      (newWorkers fifo capacity) wd) : ∀ t ∈ wd.threads, Found storage wd.shared t := by
  have h0 : ∀ t ∈ (newWorkers fifo capacity : World (Shared T J) (Thread T J)).threads,
      Found storage (newWorkers fifo capacity : World (Shared T J) (Thread T J)).shared t :=
    fun t ht => by cases ht
  refine Program.reach_invariant (I := fun s ts => ∀ t ∈ ts, Found storage s t) h0 ?_ ?_ h
  · intro s ts l hi _ he
    refine forall_call hi fun q hq => ?_
    change entry s l = true at he
    unfold entry at he
    split at he <;> first | cases hq | cases he
  · intro s xs l ys c s' l' new hi hok hs
    obtain ⟨hl,rfl⟩ := step_leaves hs
    refine forall_act (fun t ht q hq => ?_) (hl.mine (hi l (by simp))) fun t ht => by cases ht
    have hpos := hi t (mem_of_other ht) q hq
    rcases hl.len q with h1 | h1
    · omega
    · rcases h1 (by omega) with h1 | h1
      · exact h1
      · have he : (xs ++ l :: ys).eraseIdx xs.length = xs ++ ys := by
          rw [List.eraseIdx_append_of_length_le (Nat.le_refl _)]
          simp
        simp only [keepsFound,getElem?_split,Option.bind_some,h1,Option.all_some,he,
          List.all_eq_true,Bool.not_eq_true'] at hok
        rw [hok t ht] at hq
        cases hq

-- A Dequeue comes back empty only where somebody else has emptied the queue since its Len.
theorem finds_of_keepsFound {wd : World (Shared T J) (Thread T J)}
    (h : (program idOf hash storage toJob strategy).Reach (keepsFound storage)
      (newWorkers fifo capacity) wd) :
    (program idOf hash storage toJob strategy).Reach (finds storage)
      (newWorkers fifo capacity) wd := by
  induction h with
  | refl => exact .refl
  | @tail u v e hr hok hn ih =>
    refine .tail ih ?_ hn
    cases e with
    | call l => rfl
    | act i c =>
      simp only [finds,Option.all_eq_true]
      intro t ht
      exact (found_reach hr t (List.mem_of_getElem? ht)).findsItem

end Varmq.Fetch
