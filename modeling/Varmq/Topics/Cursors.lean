import Varmq.Topics.Memory

namespace Varmq.Topics

variable {T : Type} {s s' : Log T} {l l' : Thread T} {x : T} {c o p : ℕ} {cur cur' : Cursor T}

theorem Shows.length {out : List (Option T)} (h : Shows s o out p) : p = o + out.length := by
  induction out generalizing o with
  | nil =>
    have h : o = p := h
    simp [h]
  | cons x out ih =>
    have := ih (o := o + 1) h.2
    rw [this,List.length_cons]
    omega

-- What a step of one of its readers makes of a cursor.
structure Turned (s : Log T) (cur cur' : Cursor T) (pc' : CursorPc T) : Prop where
  sound : Sound s cur'
  knows : KnowsCursor s cur' pc'
  idle : cur'.mx = false → Idle s cur'
  consume : cur'.consume = cur.consume
  chunk : cur'.chunk.isSome = true → cur.chunk.isSome = true
  front : cur.front ≤ cur'.front

theorem Turned.same {pc' : CursorPc T} (hs : Sound s cur) (hm : cur.mx = true)
    (hk : KnowsCursor s cur pc') : Turned s cur cur pc' :=
  ⟨hs,hk,(fun h => by rw [hm] at h; cases h),rfl,id,Nat.le_refl _⟩

theorem Sound.copy (h : Sound s cur) (h1 : cur'.offset = cur.offset) (h2 : cur'.start = cur.start)
    (h3 : cur'.history = cur.history) (h4 : cur'.shown = cur.shown)
    (h5 : cur'.consume = cur.consume) : Sound s cur' := by
  refine ⟨?_,?_,?_,?_⟩
  · rw [h1]
    exact h.offset
  · rw [h1,h2,h3]
    exact h.history
  · rw [h4]
    exact h.shown
  · rw [h3,h5]
    exact h.consume

-- The next chunk of the chain.
theorem Chain.next (h : Chain s) {t nx i : ℕ} (ht : t < s.chunks.length)
    (hn : (s.chunk t).next = some nx) (hi : (s.chunk t).data.length ≤ i) :
    nx < s.chunks.length ∧
      chunkCapacity * nx + (i - (s.chunk t).data.length) = chunkCapacity * t + i := by
  obtain ⟨-,hlen,-,hnext⟩ := h.made t ht
  rw [hn] at hnext
  rw [hlen] at hi ⊢
  split at hnext
  · cases hnext
    rw [Nat.mul_add,Nat.mul_one]
    exact ⟨‹_›,by omega⟩
  · cases hnext

-- A published slot that the cursor still has in front of it.
theorem Kept.readable (h : Kept s p) (hlt : ∀ o, s.published o = true → o < s.head) (hc : Chain s)
    {t i : ℕ} (hi : i < chunkCapacity) (ho : chunkCapacity * t + i = o) (hp : p ≤ o)
    (hpub : s.published o = true) : Readable s o ((s.chunk t).data.getD i none) := by
  have hlo := hlt o hpub
  rw [hc.head] at hlo
  rw [slot_at s hi ho.symm,h o hp hpub]
  exact ⟨hpub,_,List.getElem?_eq_getElem hlo,List.getElem?_eq_getElem hlo⟩

theorem each_snoc {b : Bool} {e : Each T} (hc : Chain s) (he : EachAt s cur b e)
    (hlt : ∀ o, s.published o = true → o < s.head) (hk : Kept s cur.front)
    (hi : e.idx < chunkCapacity) (hpub : s.published e.off = true) :
    Shows s cur.offset (e.out ++ [(s.chunk e.chunk).data.getD e.idx none]) (e.off + 1) := by
  refine he.out.snoc (hk.readable hlt hc hi he.off ?_ hpub)
  have hle := Follows.le he.out
  rw [he.front]
  split <;> omega

theorem opened_knows {op : Op} (hop : op ≠ .close) (ha : At s cur) :
    KnowsCursor s { cur with mx := true } (opened cur op) := by
  cases op with
  | dequeue => exact ha
  | values => exact ⟨ha,fun h => by cases h⟩
  | purge =>
    simp only [opened]
    split
    · exact ⟨ha,fun _ => ‹_›⟩
    · exact ⟨ha,by simpa using ‹¬cur.consume = true›⟩
  | close => exact absurd rfl hop

theorem cursor_turned {pc pc' : CursorPc T} (h : Chain s) (hc : c < s.cursors.length)
    (hk : KnowsCursor s (s.cursor c) pc) (hsound : Sound s (s.cursor c))
    (hmx : (∀ op, pc ≠ .lock op) → (s.cursor c).mx = true)
    (hidle : (s.cursor c).mx = false → Idle s (s.cursor c))
    (hkept : (s.cursor c).chunk.isSome = true → Kept s (s.cursor c).front)
    (hlt : ∀ o, s.published o = true → o < s.head) (hs : CursorAct s c pc s' pc') :
    Turned s (s.cursor c) (s'.cursor c) pc' := by
  have hset : ∀ cur : Cursor T, (s.setCursor c cur).cursor c = cur := by
    intro cur
    rw [cursor_set,if_pos ⟨rfl,hc⟩]
  have hat : ∀ {t}, (s.cursor c).chunk = some t → (s.cursor c).mx = false → At s (s.cursor c) := by
    intro t ht hm
    rcases hidle hm with hn | ha
    · rw [hn] at ht
      cases ht
    · exact ha
  have hsome : ∀ {o}, Placed s (s.cursor c) o → Kept s (s.cursor c).front := by
    intro o hp
    obtain ⟨t,ht,-,-⟩ := hp
    exact hkept (by rw [ht]; rfl)
  cases hs with
  | enter hm hch hop =>
    rw [hset]
    exact ⟨hsound.copy rfl rfl rfl rfl rfl,opened_knows hop (hat hch hm),(fun h => by cases h),rfl,id,Nat.le_refl _⟩
  | close hm hch =>
    rw [hset]
    exact ⟨hsound.copy rfl rfl rfl rfl rfl,rfl,(fun h => by cases h),rfl,(fun h => by cases h),Nat.le_refl _⟩
  | gone hm hch =>
    rw [hset]
    exact ⟨hsound.copy rfl rfl rfl rfl rfl,.inl hch,(fun h => by cases h),rfl,id,Nat.le_refl _⟩
  | @hop t nx hch hi hn =>
    obtain ⟨⟨u,hu,hlen,hpos⟩,hfront⟩ := hk
    rw [hch] at hu
    cases hu
    obtain ⟨hnx,hnpos⟩ := h.next hlen hn hi
    have hm := hmx fun op hop => by cases hop
    rw [hset]
    exact ⟨hsound.copy rfl rfl rfl rfl rfl,⟨⟨nx,rfl,hnx,hnpos.trans hpos⟩,hfront⟩,(fun h => by rw [hm] at h; cases h),rfl,
      (fun _ => by rw [hch]; rfl),Nat.le_refl _⟩
  | wait => exact .same hsound (hmx fun op hop => by cases hop) hk
  | @found t hch hi hr =>
    obtain ⟨⟨u,hu,hlen,hpos⟩,hfront⟩ := hk
    rw [hch] at hu
    cases hu
    rw [(h.made t hlen).2.1] at hi
    rw [published_at s hi hpos.symm] at hr
    exact .same hsound (hmx fun op hop => by cases hop) ⟨⟨⟨t,hch,hlen,hpos⟩,hfront⟩,hi,hr⟩
  | again => exact .same hsound (hmx fun op hop => by cases hop) hk
  | empty => exact .same hsound (hmx fun op hop => by cases hop) (.inr hk)
  | @take t hch =>
    obtain ⟨⟨⟨u,hu,hlen,hpos⟩,hfront⟩,hi,hpub⟩ := hk
    rw [hch] at hu
    cases hu
    have hm := hmx fun op hop => by cases hop
    have hx := (hsome ⟨t,hch,hlen,hpos⟩).readable hlt h hi hpos (Nat.le_of_eq hfront) hpub
    have hcur : (((if (s.cursor c).consume then s.setData t (s.cursor c).idx none else s).setCursor c
        { s.cursor c with idx := (s.cursor c).idx + 1, front := (s.cursor c).front + 1 }).cursor c) =
        { s.cursor c with idx := (s.cursor c).idx + 1, front := (s.cursor c).front + 1 } := by
      split <;> rw [cursor_set,if_pos ⟨rfl,hc⟩]
    rw [hcur]
    exact ⟨hsound.copy rfl rfl rfl rfl rfl,
      ⟨⟨t,hch,hlen,by rw [← Nat.add_assoc,hpos]⟩,by rw [hfront],hx⟩,
      (fun h => by rw [hm] at h; cases h),rfl,id,Nat.le_succ _⟩
  | @advance x =>
    obtain ⟨hplaced,hfront,hx⟩ := hk
    have hm := hmx fun op hop => by cases hop
    rw [hset]
    refine ⟨⟨?_,hsound.history.append ⟨hx,rfl⟩,hsound.shown,fun hcons t ht => ?_⟩,
      .inr ⟨hplaced,hfront⟩,(fun h => by rw [hm] at h; cases h),rfl,id,Nat.le_refl _⟩
    · obtain ⟨-,y,hy,-⟩ := hx
      rw [h.head]
      exact (List.getElem?_eq_some_iff.mp hy).1
    · rcases List.mem_append.mp ht with ht | ht
      · exact hsound.consume hcons t ht
      · rw [List.mem_singleton.mp ht]
        exact ⟨x,rfl⟩
  | @loadEnd b t hch =>
    obtain ⟨⟨⟨u,hu,hlen,hpos⟩,hfront⟩,hcons⟩ := hk
    rw [hch] at hu
    cases hu
    refine .same hsound (hmx fun op hop => by cases hop)
      ⟨⟨t,hch,hlen,hpos⟩,hlen,hpos,hsound.offset,Nat.le_refl _,rfl,?_,hcons⟩
    rw [hfront]
    exact (ite_self _).symm
  | wound he => exact .same hsound (hmx fun op hop => by cases hop) ⟨hk,he⟩
  | @shown e he =>
    have hm := hmx fun op hop => by cases hop
    rw [hset]
    refine ⟨⟨hsound.offset,hsound.history,fun y hy => ?_,hsound.consume⟩,.inr ⟨hk.placed,hk.front⟩,
      (fun h => by rw [hm] at h; cases h),rfl,id,Nat.le_refl _⟩
    rcases List.mem_append.mp hy with hy | hy
    · exact hsound.shown y hy
    · rw [List.mem_singleton.mp hy]
      have hout := hk.out
      rw [hout.length] at hout
      exact hout
  | @eachHop b e nx hi hn =>
    obtain ⟨hnx,hnpos⟩ := h.next hk.chunk hn hi
    exact .same hsound (hmx fun op hop => by cases hop)
      ⟨hk.placed,hnx,hnpos.trans hk.off,hk.stop,hk.head,hk.out,hk.front,hk.consume⟩
  | eachWait => exact .same hsound (hmx fun op hop => by cases hop) hk
  | @eachFound b e he hi hr =>
    rw [(h.made _ hk.chunk).2.1] at hi
    rw [published_at s hi hk.off.symm] at hr
    exact .same hsound (hmx fun op hop => by cases hop) ⟨hk,he,hi,hr⟩
  | @clear e =>
    obtain ⟨he,hlt',hi,hpub⟩ := hk
    have hm := hmx fun op hop => by cases hop
    have hout := each_snoc h he hlt (hsome he.placed) hi hpub
    have hcur : ((s.setData e.chunk e.idx none).setCursor c { s.cursor c with
        front := (s.cursor c).front + 1 }).cursor c =
        { s.cursor c with front := (s.cursor c).front + 1 } := by
      rw [cursor_set,if_pos ⟨rfl,hc⟩]
    rw [hcur]
    refine ⟨hsound.copy rfl rfl rfl rfl rfl,
      ⟨he.placed,he.chunk,by rw [← Nat.add_assoc,he.off],hlt',he.head,hout,?_,he.consume⟩,
      (fun h => by rw [hm] at h; cases h),rfl,id,Nat.le_succ _⟩
    simp only [he.front,if_true]
  | @visit e =>
    obtain ⟨he,hlt',hi,hpub⟩ := hk
    have hout := each_snoc h he hlt (hsome he.placed) hi hpub
    exact .same hsound (hmx fun op hop => by cases hop)
      ⟨he.placed,he.chunk,by rw [← Nat.add_assoc,he.off],hlt',he.head,hout,he.front,he.consume⟩
  | @move e =>
    obtain ⟨he,hoff⟩ := hk
    have hm := hmx fun op hop => by cases hop
    have heq : e.off = e.stop := Nat.le_antisymm he.stop hoff
    have hout : Follows s (s.cursor c).offset (e.out.map .item) e.stop := by
      rw [← heq]
      exact he.out
    rw [hset]
    refine ⟨⟨he.head,hsound.history.append hout,hsound.shown,fun hcons t ht => ?_⟩,
      .inr ⟨⟨e.chunk,rfl,he.chunk,he.off.trans heq⟩,?_⟩,(fun h => by rw [hm] at h; cases h),rfl,
      (fun _ => ?_),Nat.le_refl _⟩
    · rcases List.mem_append.mp ht with ht | ht
      · exact hsound.consume hcons t ht
      · obtain ⟨y,-,rfl⟩ := List.mem_map.mp ht
        exact ⟨y,rfl⟩
    · exact he.front.trans heq
    · obtain ⟨t,ht,-,-⟩ := he.placed
      rw [ht]
      rfl
  | @seekTail t ht =>
    obtain ⟨h1,h2⟩ := h.tail t ht
    exact .same hsound (hmx fun op hop => by cases hop) ⟨hk,h1,h2⟩
  | seekHead =>
    exact .same hsound (hmx fun op hop => by cases hop)
      ⟨hk.1,hk.2.1,hk.2.2,hsound.offset,Nat.le_refl _⟩
  | @seek t p =>
    obtain ⟨⟨⟨⟨u,hu,-,-⟩,hfront⟩,hcons⟩,hlen,hle,hoff,hhead⟩ := hk
    have hm := hmx fun op hop => by cases hop
    have hbase := (h.made t hlen).1
    rw [hset]
    refine ⟨⟨hhead,hsound.history.append (q := (s.cursor c).offset) ?_,hsound.shown,
      fun hcons' => ?_⟩,.inr ⟨⟨t,rfl,hlen,?_⟩,rfl⟩,(fun h => by rw [hm] at h; cases h),rfl,
      (fun _ => by rw [hu]; rfl),?_⟩
    · exact Nat.add_sub_cancel' hoff
    · rw [hcons] at hcons'
      cases hcons'
    · simp only [hbase]
      omega
    · simp only [hfront]
      exact hoff
  | lockLog => exact .same hsound (hmx fun op hop => by cases hop) hk
  | remove => exact .same hsound (hmx fun op hop => by cases hop) hk
  | unlockLog => exact .same hsound (hmx fun op hop => by cases hop) (.inl hk)
  | unlock =>
    rw [hset]
    exact ⟨hsound.copy rfl rfl rfl rfl rfl,trivial,fun _ => hk,rfl,id,Nat.le_refl _⟩

end Varmq.Topics
