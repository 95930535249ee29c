import Varmq.Topics.Log

namespace Varmq.Topics

variable {T : Type} {s s' : Log T} {o t i : ℕ}

theorem capacity_pos : 0 < chunkCapacity := by decide

namespace Log

-- The slot of offset o in the chain.
def slot (s : Log T) (o : ℕ) : Option T :=
  (s.chunk (o / chunkCapacity)).data.getD (o % chunkCapacity) none

def published (s : Log T) (o : ℕ) : Bool :=
  (s.chunk (o / chunkCapacity)).ready.getD (o % chunkCapacity) false

end Log

theorem offset_eq (hi : i < chunkCapacity) :
    o = chunkCapacity * t + i ↔ o / chunkCapacity = t ∧ o % chunkCapacity = i := by
  constructor
  · rintro rfl
    exact ⟨by rw [Nat.mul_add_div capacity_pos,Nat.div_eq_of_lt hi,Nat.add_zero],
      by rw [Nat.mul_add_mod,Nat.mod_eq_of_lt hi]⟩
  · rintro ⟨rfl,rfl⟩
    exact (Nat.div_add_mod o chunkCapacity).symm

theorem slot_at (s : Log T) (hi : i < chunkCapacity) (ho : o = chunkCapacity * t + i) :
    (s.chunk t).data.getD i none = s.slot o := by
  obtain ⟨h1,h2⟩ := (offset_eq hi).mp ho
  rw [Log.slot,h1,h2]

theorem published_at (s : Log T) (hi : i < chunkCapacity) (ho : o = chunkCapacity * t + i) :
    (s.chunk t).ready.getD i false = s.published o := by
  obtain ⟨h1,h2⟩ := (offset_eq hi).mp ho
  rw [Log.published,h1,h2]

theorem getD_set {A : Type} (l : List A) (i j : ℕ) (x d : A) :
    (l.set i x).getD j d = if j = i ∧ i < l.length then x else l.getD j d := by
  simp only [List.getD_eq_getElem?_getD,List.getElem?_set]
  by_cases h : i = j
  · subst h
    by_cases hi : i < l.length
    · simp [hi]
    · simp [hi]
  · simp [h,Ne.symm h]

theorem getD_push {A : Type} (l : List A) (j : ℕ) (x d : A) :
    (l ++ [x]).getD j d = if j = l.length then x else l.getD j d := by
  simp only [List.getD_eq_getElem?_getD,List.getElem?_append,List.getElem?_singleton]
  rcases Nat.lt_trichotomy j l.length with h | h | h
  · simp [h,Nat.ne_of_lt h]
  · simp [h]
  · have h1 : ¬j < l.length := by omega
    have h2 : j ≠ l.length := by omega
    have h3 : j - l.length ≠ 0 := by omega
    simp [h1,h2,h3]

theorem chunk_set (s : Log T) (t u : ℕ) (ch : Chunk T) :
    (s.setChunk t ch).chunk u = if u = t ∧ t < s.chunks.length then ch else s.chunk u :=
  getD_set _ _ _ _ _

theorem cursor_set (s : Log T) (c d : ℕ) (cur : Cursor T) :
    (s.setCursor c cur).cursor d = if d = c ∧ c < s.cursors.length then cur else s.cursor d :=
  getD_set _ _ _ _ _

structure Chain (s : Log T) : Prop where
  made : ∀ t < s.chunks.length, (s.chunk t).base = chunkCapacity * t ∧
    (s.chunk t).data.length = chunkCapacity ∧ (s.chunk t).ready.length = chunkCapacity ∧
    (s.chunk t).next = if t + 1 < s.chunks.length then some (t + 1) else none
  tail : ∀ t, s.tail = some t → t < s.chunks.length ∧ chunkCapacity * t ≤ s.head
  empty : s.tail = none → s.chunks = [] ∧ s.head = 0
  head : s.head = s.claims.length

theorem Chain.end_ (h : Chain s) (ht : t < s.chunks.length) :
    (s.chunk t).end_ = chunkCapacity * t + chunkCapacity := by
  obtain ⟨h1,h2,-,-⟩ := h.made t ht
  rw [Chunk.end_,h1,h2]

theorem chain_new (limit : ℕ) : Chain (newBoundedLog limit : Log T) :=
  ⟨(fun _ h => absurd h (Nat.not_lt_zero _)),(fun _ h => by cases h),fun _ => ⟨rfl,rfl⟩,rfl⟩

-- The rest of a step that only rewrites one chunk and keeps its place in the chain.
theorem Chain.set (h : Chain s) {ch : Chunk T} (h1 : ch.base = (s.chunk t).base)
    (h2 : ch.data.length = (s.chunk t).data.length) (h3 : ch.ready.length = (s.chunk t).ready.length)
    (h4 : ch.next = (s.chunk t).next) : Chain (s.setChunk t ch) := by
  have hlen : (s.setChunk t ch).chunks.length = s.chunks.length := List.length_set
  refine ⟨fun u hu => ?_,fun u hu => ?_,fun hn => ?_,h.head⟩
  · rw [hlen] at hu ⊢
    rw [chunk_set]
    split
    · rename_i hut
      rw [h1,h2,h3,h4,← hut.1]
      exact h.made u hu
    · exact h.made u hu
  · rw [hlen]
    exact h.tail u hu
  · obtain ⟨hc,hh⟩ := h.empty hn
    exact ⟨by simp [Log.setChunk,hc],hh⟩

theorem length_linkNext (s : Log T) (t : ℕ) :
    (s.linkNext t).chunks.length = s.chunks.length + 1 := by
  simp [Log.linkNext]

theorem chunk_linkNext (s : Log T) (ht : t < s.chunks.length) (u : ℕ) :
    (s.linkNext t).chunk u = if u = s.chunks.length then newChunk (s.chunk t).end_
      else if u = t then { s.chunk t with next := some s.chunks.length } else s.chunk u := by
  have hset := getD_set s.chunks t u { s.chunk t with next := some s.chunks.length } (newChunk 0)
  simp only [Log.chunk,Log.linkNext,getD_push,List.length_set]
  split
  · rfl
  · refine hset.trans ?_
    simp only [ht,and_true]
    rfl

theorem Chain.last (h : Chain s) (ht : t < s.chunks.length) (hn : (s.chunk t).next = none) :
    t + 1 = s.chunks.length := by
  have hnext := (h.made t ht).2.2.2
  rw [hn] at hnext
  split at hnext
  · cases hnext
  · omega

theorem chain_linkNext (h : Chain s) (ht : t < s.chunks.length) (hn : (s.chunk t).next = none) :
    Chain (s.linkNext t) := by
  have hlast := h.last ht hn
  have hend := h.end_ ht
  refine ⟨fun u hu => ?_,fun u hu => ?_,(fun he => ?_),h.head⟩
  · rw [length_linkNext] at hu ⊢
    rw [chunk_linkNext s ht]
    split
    · rename_i hu'
      refine ⟨?_,by simp [newChunk],by simp [newChunk],?_⟩
      · rw [newChunk,hend,hu',← hlast,Nat.mul_add,Nat.mul_one]
      · rw [if_neg (by omega)]
        rfl
    · split
      · rename_i hut
        obtain ⟨h1,h2,h3,-⟩ := h.made t ht
        refine ⟨by rw [hut]; exact h1,h2,h3,?_⟩
        rw [if_pos (by omega),hut,hlast]
      · obtain ⟨h1,h2,h3,h4⟩ := h.made u (by omega)
        refine ⟨h1,h2,h3,?_⟩
        rw [h4,if_pos (by omega),if_pos (by omega)]
  · obtain ⟨h1,h2⟩ := h.tail u hu
    rw [length_linkNext]
    exact ⟨by omega,h2⟩
  · rw [(h.empty he).1] at ht
    exact absurd ht (Nat.not_lt_zero _)

theorem slot_of_data (h : ∀ u, (s'.chunk u).data = (s.chunk u).data) (o : ℕ) :
    s'.slot o = s.slot o := by
  rw [Log.slot,Log.slot,h]

theorem published_of_ready (h : ∀ u, (s'.chunk u).ready = (s.chunk u).ready) (o : ℕ) :
    s'.published o = s.published o := by
  rw [Log.published,Log.published,h]

theorem slot_setData (h : Chain s) (ht : t < s.chunks.length) (hi : i < chunkCapacity)
    (x : Option T) (o : ℕ) :
    (s.setData t i x).slot o = if o = chunkCapacity * t + i then x else s.slot o := by
  have hlen := (h.made t ht).2.1
  rw [Log.slot,Log.setData,chunk_set]
  simp only [offset_eq hi,ht,and_true]
  by_cases hq : o / chunkCapacity = t
  · rw [if_pos hq,getD_set,hlen]
    simp only [hi,and_true,hq,true_and]
    split
    · rfl
    · rw [Log.slot,hq]
  · rw [if_neg hq,if_neg (fun h => hq h.1)]
    rfl

theorem published_setData (s : Log T) (t i : ℕ) (x : Option T) (o : ℕ) :
    (s.setData t i x).published o = s.published o := by
  refine published_of_ready (fun u => ?_) o
  rw [Log.setData,chunk_set]
  split
  · rename_i hu
    rw [hu.1]
  · rfl

theorem published_setReady (h : Chain s) (ht : t < s.chunks.length) (hi : i < chunkCapacity)
    (o : ℕ) : (s.setReady t i).published o =
      if o = chunkCapacity * t + i then true else s.published o := by
  have hlen := (h.made t ht).2.2.1
  rw [Log.published,Log.setReady,chunk_set]
  simp only [offset_eq hi,ht,and_true]
  by_cases hq : o / chunkCapacity = t
  · rw [if_pos hq,getD_set,hlen]
    simp only [hi,and_true,hq,true_and]
    split
    · rfl
    · rw [Log.published,hq]
  · rw [if_neg hq,if_neg (fun h => hq h.1)]
    rfl

theorem slot_setReady (s : Log T) (t i o : ℕ) : (s.setReady t i).slot o = s.slot o := by
  refine slot_of_data (fun u => ?_) o
  rw [Log.setReady,chunk_set]
  split
  · rename_i hu
    rw [hu.1]
  · rfl

-- What a step that only works on the shape of the chain does.
structure Shaped (s s' : Log T) : Prop where
  chain : Chain s'
  length : s.chunks.length ≤ s'.chunks.length
  slot : ∀ o, s'.slot o = s.slot o
  published : ∀ o, s'.published o = s.published o
  claims : s'.claims = s.claims
  tail : s.tail.isSome = true → s'.tail.isSome = true

theorem Shaped.refl (h : Chain s) : Shaped s s :=
  ⟨h,Nat.le_refl _,fun _ => rfl,fun _ => rfl,rfl,id⟩

theorem shaped_linking (h : Chain s) (t : ℕ) :
    Shaped s (s.setChunk t { s.chunk t with linking := true }) := by
  have hch : ∀ u, ((s.setChunk t { s.chunk t with linking := true }).chunk u).data = (s.chunk u).data ∧
      ((s.setChunk t { s.chunk t with linking := true }).chunk u).ready = (s.chunk u).ready := by
    intro u
    rw [chunk_set]
    split
    · rename_i hu
      rw [hu.1]
      exact ⟨rfl,rfl⟩
    · exact ⟨rfl,rfl⟩
  exact ⟨h.set rfl rfl rfl rfl,Nat.le_of_eq List.length_set.symm,slot_of_data fun u => (hch u).1,
    published_of_ready fun u => (hch u).2,rfl,id⟩

theorem chunk_beyond (s : Log T) {u : ℕ} (hu : s.chunks.length ≤ u) : s.chunk u = newChunk 0 := by
  rw [Log.chunk,List.getD_eq_getElem?_getD,List.getElem?_eq_none hu]
  rfl

theorem shaped_linkNext (h : Chain s) (ht : t < s.chunks.length) (hn : (s.chunk t).next = none) :
    Shaped s (s.linkNext t) := by
  have hch : ∀ u, ((s.linkNext t).chunk u).data = (s.chunk u).data ∧
      ((s.linkNext t).chunk u).ready = (s.chunk u).ready := by
    intro u
    rw [chunk_linkNext s ht]
    split
    · rename_i hu
      rw [chunk_beyond s (Nat.le_of_eq hu.symm)]
      exact ⟨rfl,rfl⟩
    · split
      · rename_i hu
        rw [hu]
        exact ⟨rfl,rfl⟩
      · exact ⟨rfl,rfl⟩
  refine ⟨chain_linkNext h ht hn,?_,slot_of_data fun u => (hch u).1,
    published_of_ready fun u => (hch u).2,rfl,id⟩
  rw [length_linkNext]
  exact Nat.le_succ _

theorem shaped_firstChunk (h : Chain s) (hn : s.tail = none) : Shaped s s.firstChunk := by
  obtain ⟨hc,hh⟩ := h.empty hn
  have hch : ∀ u, (s.firstChunk.chunk u).data = (s.chunk u).data ∧
      (s.firstChunk.chunk u).ready = (s.chunk u).ready := by
    intro u
    rw [Log.chunk,Log.firstChunk,getD_push]
    split
    · rename_i hu
      rw [chunk_beyond s (Nat.le_of_eq hu.symm)]
      exact ⟨rfl,rfl⟩
    · exact ⟨rfl,rfl⟩
  have hone : s.firstChunk.chunks = [newChunk 0] := by simp [Log.firstChunk,hc,hh]
  refine ⟨⟨fun t ht => ?_,fun t ht => ?_,(fun he => by cases he),h.head⟩,by simp [hone,hc],
    slot_of_data fun u => (hch u).1,published_of_ready fun u => (hch u).2,rfl,fun _ => rfl⟩
  · rw [hone] at ht ⊢
    have ht : t = 0 := by
      simp only [List.length_cons,List.length_nil] at ht
      omega
    subst ht
    rw [Log.chunk,hone]
    exact ⟨rfl,List.length_replicate,List.length_replicate,rfl⟩
  · cases ht
    rw [hone,hc]
    exact ⟨Nat.one_pos,Nat.zero_le _⟩

theorem shaped_advance (h : Chain s) {nx : ℕ} (hx : nx < s.chunks.length)
    (hh : chunkCapacity * nx ≤ s.head) :
    Shaped s { s with tail := if s.tail = some t then some nx else s.tail } := by
  refine ⟨⟨h.made,fun u hu => ?_,fun he => ?_,h.head⟩,Nat.le_refl _,fun _ => rfl,fun _ => rfl,rfl,
    fun ht => ?_⟩
  · simp only at hu
    split at hu
    · cases hu
      exact ⟨hx,hh⟩
    · exact h.tail u hu
  · simp only at he
    split at he
    · cases he
    · exact h.empty he
  · simp only
    split
    · rfl
    · exact ht

end Varmq.Topics
