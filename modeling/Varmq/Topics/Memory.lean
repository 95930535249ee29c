import Varmq.Topics.Readers

namespace Varmq.Topics

variable {T : Type} {s s' : Log T} {l l' : Thread T} {x : T} {c o p : ℕ} {cur : Cursor T}

-- The offset an Append has claimed and not published yet.
def inHand : AppendPc → Option ℕ
  | .next a _ _ | .link a _ _ | .grow a _ _ | .advance a _ _ _ | .write a _ | .publish a _ =>
      some a.offset
  | _ => none

def owns (o : ℕ) : Thread T → ℕ
  | .append _ pc => if inHand pc = some o then 1 else 0
  | _ => 0

def pub (s : Log T) (o : ℕ) : ℕ := if s.published o = true then 1 else 0

def claimedAt (s : Log T) (o : ℕ) : ℕ := if o < s.head then 1 else 0

theorem inHand_plain {pc : AppendPc} {b : Bool} (h : plain pc = some b) : inHand pc = none := by
  cases pc <;> first | rfl | cases h

theorem inHand_finish (b : Bool) (n : ℕ) : inHand (finish b n) = none := by
  cases b <;> rfl

-- A consuming reader takes the item of its first slot out of the log.
def Clears (s s' : Log T) (l : Thread T) (o : ℕ) : Prop :=
  ∃ c pc, l = .cursor c pc ∧ (s.cursor c).consume = true ∧ (s.cursor c).chunk.isSome = true ∧
    (s.cursor c).front = o ∧ s.published o = true ∧ (s'.cursor c).front = o + 1

structure Memory (s s' : Log T) (l l' : Thread T) : Prop where
  chain : Chain s'
  ext : Ext s s'
  moved : ∀ o, pub s' o + owns o l' + claimedAt s o = pub s o + owns o l + claimedAt s' o
  fresh : ∀ o, s'.published o = true → s.published o = true ∨ s'.slot o = s'.claims[o]?
  slot : ∀ o, s'.slot o = s.slot o ∨ owns o l = 1 ∨ Clears s s' l o

-- The step leaves the chain as it is.
theorem Memory.keep (h : Chain s) (h1 : s'.chunks = s.chunks) (h2 : s'.tail = s.tail)
    (h3 : s'.head = s.head) (h4 : s'.claims = s.claims) (ho : ∀ o, owns o l' = owns o l) :
    Memory s s' l l' := by
  have hch : ∀ u, s'.chunk u = s.chunk u := fun u => by rw [Log.chunk,Log.chunk,h1]
  have hslot : ∀ o, s'.slot o = s.slot o := fun o => slot_of_data (fun u => by rw [hch]) o
  have hpub : ∀ o, s'.published o = s.published o :=
    fun o => published_of_ready (fun u => by rw [hch]) o
  refine ⟨⟨?_,?_,?_,?_⟩,⟨?_,?_,?_,?_,?_⟩,fun o => ?_,fun o hp => ?_,fun o => .inl (hslot o)⟩
  · intro t ht
    rw [h1] at ht ⊢
    rw [hch]
    exact h.made t ht
  · intro t ht
    rw [h1,h3]
    rw [h2] at ht
    exact h.tail t ht
  · intro ht
    rw [h1,h3]
    rw [h2] at ht
    exact h.empty ht
  · rw [h3,h4]
    exact h.head
  · exact Nat.le_of_eq (by rw [h1])
  · exact Nat.le_of_eq h3.symm
  · exact ⟨[],by rw [List.append_nil,h4]⟩
  · rw [h2]
    exact id
  · intro o hp
    rw [hpub]
    exact hp
  · rw [pub,pub,hpub,claimedAt,claimedAt,h3,ho]
  · rw [hpub] at hp
    exact .inl hp

theorem Shaped.memory (h : Shaped s s') (he : s'.head = s.head)
    (ho : ∀ o, owns o l' = owns o l) : Memory s s' l l' := by
  refine ⟨h.chain,⟨h.length,Nat.le_of_eq he.symm,?_,h.tail,fun o hp => ?_⟩,fun o => ?_,fun o hp => ?_,
    fun o => .inl (h.slot o)⟩
  · exact ⟨[],by rw [List.append_nil,h.claims]⟩
  · rw [h.published]
    exact hp
  · rw [pub,pub,h.published,claimedAt,claimedAt,he,ho]
  · rw [h.published] at hp
    exact .inl hp

theorem claim_memory (h : Chain s) (hne : s.chunks ≠ []) {pc pc' : AppendPc} (h1 : inHand pc = none)
    (h2 : inHand pc' = some s.head) :
    Memory s { s with head := s.head + 1, claims := s.claims ++ [x] } (.append x pc)
      (.append x pc') := by
  refine ⟨⟨h.made,fun t ht => ?_,fun ht => ?_,?_⟩,
    ⟨Nat.le_refl _,Nat.le_succ _,List.prefix_append _ _,id,fun _ => id⟩,fun o => ?_,fun o hp => .inl hp,
    fun o => .inl rfl⟩
  · obtain ⟨h1,h2⟩ := h.tail t ht
    exact ⟨h1,Nat.le_succ_of_le h2⟩
  · exact absurd (h.empty ht).1 hne
  · simp [h.head]
  · have hp : pub { s with head := s.head + 1, claims := s.claims ++ [x] } o = pub s o := rfl
    simp only [hp,owns,h1,h2,claimedAt,Option.some.injEq,reduceCtorEq,if_false]
    split <;> split <;> split <;> omega

-- The slot of an offset in hand.
theorem Owned.slot {a : Claim} {t : ℕ} (h : Chain s) (ho : Owned s x a t)
    (hlt : a.offset < chunkCapacity * (t + 1)) : a.offset - (s.chunk t).base < chunkCapacity ∧
      chunkCapacity * t + (a.offset - (s.chunk t).base) = a.offset := by
  obtain ⟨-,-,ht,hle⟩ := ho
  rw [(h.made t ht).1]
  rw [Nat.mul_add,Nat.mul_one] at hlt
  exact ⟨by omega,by omega⟩

theorem write_memory (h : Chain s) {a : Claim} {t : ℕ} (ho : Owned s x a t)
    (hlt : a.offset < chunkCapacity * (t + 1)) :
    Memory s (s.setData t (a.offset - (s.chunk t).base) (some x)) (.append x (.write a t))
      (.append x (.publish a t)) := by
  obtain ⟨hi,hpos⟩ := ho.slot h hlt
  have hslot := slot_setData h ho.2.2.1 hi (some x)
  have hpub := published_setData s t (a.offset - (s.chunk t).base) (some x)
  refine ⟨h.set rfl List.length_set rfl rfl,
    ⟨Nat.le_of_eq List.length_set.symm,Nat.le_refl _,List.prefix_refl _,id,fun o hp => ?_⟩,
    fun o => ?_,fun o hp => ?_,fun o => ?_⟩
  · rw [hpub]
    exact hp
  · rw [pub,pub,hpub]
    rfl
  · rw [hpub] at hp
    exact .inl hp
  · rw [hslot,hpos]
    by_cases ho : o = a.offset
    · exact .inr (.inl (by simp [owns,inHand,ho]))
    · exact .inl (if_neg ho)

theorem publish_memory (h : Chain s) {a : Claim} {t : ℕ} (ho : Owned s x a t)
    (hlt : a.offset < chunkCapacity * (t + 1)) (hx : s.slot a.offset = some x)
    (hn : s.published a.offset = false) :
    Memory s (s.setReady t (a.offset - (s.chunk t).base)) (.append x (.publish a t))
      (.append x (finish a.locked a.n)) := by
  obtain ⟨hi,hpos⟩ := ho.slot h hlt
  have hslot := slot_setReady s t (a.offset - (s.chunk t).base)
  have hpub := published_setReady h ho.2.2.1 hi
  rw [hpos] at hpub
  refine ⟨h.set rfl rfl List.length_set rfl,
    ⟨Nat.le_of_eq List.length_set.symm,Nat.le_refl _,List.prefix_refl _,id,fun o hp => ?_⟩,
    fun o => ?_,fun o hp => ?_,fun o => .inl (hslot o)⟩
  · rw [hpub,hp]
    exact ite_self true
  · have hc : claimedAt (s.setReady t (a.offset - (s.chunk t).base)) o = claimedAt s o := rfl
    have hf : owns o (.append x (finish a.locked a.n) : Thread T) = 0 := by
      rw [owns,inHand_finish]
      rfl
    rw [hf,hc,pub,pub,hpub]
    by_cases ho : o = a.offset
    · subst ho
      simp [hn,owns,inHand]
    · simp [ho,owns,inHand,Ne.symm ho]
  · rw [hpub] at hp
    by_cases ho' : o = a.offset
    · rw [hslot,ho',hx]
      exact .inr ho.2.1.symm
    · rw [if_neg ho'] at hp
      exact .inl hp

theorem append_memory {pc pc' : AppendPc} (h : Chain s) (hk : KnowsAppend s x pc)
    (hn : ∀ o, inHand pc = some o → s.published o = false) (hs : AppendAct s x pc s' pc') :
    Memory s s' (.append x pc) (.append x pc') := by
  have same : ∀ {pc' : AppendPc}, inHand pc' = inHand pc →
      ∀ o, owns o (.append x pc' : Thread T) = owns o (.append x pc) := by
    intro pc' he o
    simp only [owns,he]
  cases hs with
  | plain h1 h2 =>
    exact .keep h rfl rfl rfl rfl (same (by rw [inHand_plain h1,inHand_plain h2]))
  | refuse => exact .keep h rfl rfl rfl rfl (same (inHand_finish _ _))
  | claim =>
    refine claim_memory h (fun hc => ?_) rfl rfl
    have ht := hk.2.1
    rw [hc] at ht
    exact absurd ht (Nat.not_lt_zero _)
  | linking => exact (shaped_linking h _).memory rfl (same rfl)
  | grow hnext => exact (shaped_linkNext h hk.1.2.2.1 hnext).memory rfl (same rfl)
  | @advance a t nx k =>
    obtain ⟨hown,hx,hle⟩ := hk
    have hlt : a.offset < s.head := by
      rw [h.head]
      exact (List.getElem?_eq_some_iff.mp hown.2.1).1
    exact (shaped_advance h hx (by omega)).memory rfl (same rfl)
  | write => exact write_memory h hk.1 hk.2
  | publish => exact publish_memory h hk.1 hk.2.1 hk.2.2 (hn _ rfl)
  | _ => exact .keep h rfl rfl rfl rfl (same rfl)

theorem new_memory {pc pc' : NewPc} (h : Chain s) (hs : NewAct s pc s' pc') :
    Memory s s' (.newCursor pc) (.newCursor pc') := by
  cases hs with
  | first ht => exact (shaped_firstChunk h ht).memory rfl fun _ => rfl
  | _ => exact .keep h rfl rfl rfl rfl fun _ => rfl

-- Taking the first slot of a consuming cursor out of the log.
theorem clear_memory {t i : ℕ} {pc pc' : CursorPc T} {cur : Cursor T} (h : Chain s)
    (ht : t < s.chunks.length) (hi : i < chunkCapacity) (hc : c < s.cursors.length)
    (hcons : (s.cursor c).consume = true) (hchunk : (s.cursor c).chunk.isSome = true)
    (hfront : (s.cursor c).front = chunkCapacity * t + i)
    (hpub : s.published (chunkCapacity * t + i) = true)
    (hcur : cur.front = (s.cursor c).front + 1) :
    Memory s ((s.setData t i none).setCursor c cur) (.cursor c pc) (.cursor c pc') := by
  have hslot : ∀ o, ((s.setData t i none).setCursor c cur).slot o = (s.setData t i none).slot o :=
    fun _ => rfl
  have hp : ∀ o, ((s.setData t i none).setCursor c cur).published o = s.published o :=
    published_setData s t i none
  refine ⟨?_,⟨Nat.le_of_eq List.length_set.symm,Nat.le_refl _,List.prefix_refl _,id,fun o ho => ?_⟩,
    fun o => ?_,fun o ho => ?_,fun o => ?_⟩
  · have hset : Chain (s.setData t i none) := h.set rfl List.length_set rfl rfl
    exact ⟨hset.made,hset.tail,hset.empty,hset.head⟩
  · rw [hp]
    exact ho
  · rw [pub,pub,hp]
    rfl
  · rw [hp] at ho
    exact .inl ho
  · rw [hslot,slot_setData h ht hi]
    by_cases ho : o = chunkCapacity * t + i
    · refine .inr (.inr ⟨c,pc,rfl,hcons,hchunk,by rw [ho,hfront],by rw [ho]; exact hpub,?_⟩)
      rw [cursor_set,if_pos ⟨rfl,hc⟩,hcur,hfront,ho]
    · exact .inl (if_neg ho)

theorem cursor_memory {pc pc' : CursorPc T} (h : Chain s) (hc : c < s.cursors.length)
    (hk : KnowsCursor s (s.cursor c) pc) (hs : CursorAct s c pc s' pc') :
    Memory s s' (.cursor c pc) (.cursor c pc') := by
  cases hs with
  | @take t hch =>
    obtain ⟨⟨⟨u,hu,hlt,hpos⟩,hfront⟩,hi,hpub⟩ := hk
    rw [hch] at hu
    cases hu
    split
    · refine clear_memory h hlt hi hc ‹_› (by rw [hch]; rfl) (by rw [hfront,hpos]) ?_ rfl
      rw [hpos]
      exact hpub
    · exact .keep h rfl rfl rfl rfl fun _ => rfl
  | @clear e =>
    obtain ⟨he,hlt,hi,hpub⟩ := hk
    obtain ⟨t,ht,-,-⟩ := he.placed
    refine clear_memory h he.chunk hi hc (he.consume rfl) (by rw [ht]; rfl) ?_ ?_ rfl
    · rw [he.front,he.off]
      rfl
    · rw [he.off]
      exact hpub
  | _ => exact .keep h rfl rfl rfl rfl fun _ => rfl

theorem step_memory (h : Chain s) (hs : Act s l s' l')
    (happ : ∀ x pc, l = .append x pc → KnowsAppend s x pc ∧
      ∀ o, inHand pc = some o → s.published o = false)
    (hcur : ∀ c pc, l = .cursor c pc → c < s.cursors.length ∧ KnowsCursor s (s.cursor c) pc) :
    Memory s s' l l' := by
  cases hs with
  | append ha =>
    obtain ⟨h1,h2⟩ := happ _ _ rfl
    exact append_memory h h1 h2 ha
  | newCursor ha => exact new_memory h ha
  | cursor ha =>
    obtain ⟨h1,h2⟩ := hcur _ _ rfl
    exact cursor_memory h h1 h2 ha
  | close => exact .keep h rfl rfl rfl rfl fun _ => rfl

end Varmq.Topics
