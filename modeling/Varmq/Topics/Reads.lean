import Varmq.Topics.Whole

namespace Varmq.Topics

open Interleaving

variable {T : Type} {s s' u : Log T} {r r' : Plain T} {rd rd' : Reader} {c d o p : ℕ} {v : Ret T}
  {out : List (Option T)} {Q : Log T → Ret T → Prop}

theorem ends_cursor {pc pc' : CursorPc T} (hi : Inv s [.cursor c pc])
    (hs : cursorStep s c pc = some (s',pc')) (k : Inv s' [.cursor c pc'] → Ends Q s' (.cursor c pc')) :
    Ends Q s (.cursor c pc) := by
  refine ends_step hi ?_ fun _ hi => k hi
  rw [step,hs]
  rfl

-- What a call on cursor c leaves alone.
structure Aside (c : ℕ) (s s' : Log T) : Prop where
  claims : s'.claims = s.claims
  limit : s'.limit = s.limit
  closed : s'.closed = s.closed
  head : s'.head = s.head
  length : s'.cursors.length = s.cursors.length
  others : ∀ d, d ≠ c → s'.cursor d = s.cursor d

theorem Aside.refl (c : ℕ) (s : Log T) : Aside c s s := ⟨rfl,rfl,rfl,rfl,rfl,fun _ _ => rfl⟩

theorem Aside.trans (h : Aside c s s') (k : Aside c s' u) : Aside c s u :=
  ⟨k.claims.trans h.claims,k.limit.trans h.limit,k.closed.trans h.closed,k.head.trans h.head,
    k.length.trans h.length,fun d hd => (k.others d hd).trans (h.others d hd)⟩

theorem aside_set (s : Log T) (c : ℕ) (cur : Cursor T) : Aside c s (s.setCursor c cur) := by
  refine ⟨rfl,rfl,rfl,rfl,List.length_set,fun d hd => ?_⟩
  rw [cursor_set,if_neg fun h => hd h.1]

-- And the reader it works for is where it was.
structure Rests (c : ℕ) (s s' : Log T) : Prop where
  aside : Aside c s s'
  opened : s'.opened = s.opened
  reader : reader (s'.cursor c) = reader (s.cursor c)
  slot : ∀ o, s'.slot o = s.slot o

theorem Rests.refl (c : ℕ) (s : Log T) : Rests c s s := ⟨.refl c s,rfl,rfl,fun _ => rfl⟩

theorem Rests.trans (h : Rests c s s') (k : Rests c s' u) : Rests c s u :=
  ⟨h.aside.trans k.aside,k.opened.trans h.opened,k.reader.trans h.reader,
    fun o => (k.slot o).trans (h.slot o)⟩

theorem rests_set {cur : Cursor T} (hc : c < s.cursors.length)
    (hr : reader cur = reader (s.cursor c)) : Rests c s (s.setCursor c cur) := by
  refine ⟨aside_set s c cur,rfl,?_,fun _ => rfl⟩
  rw [cursor_set,if_pos ⟨rfl,hc⟩]
  exact hr

theorem unlock_ends (hi : Inv s [.cursor c (.unlock out)])
    (hq : ∀ s', Rests c s s' → Q s' (.items out)) : Ends Q s (.cursor c (.unlock out)) := by
  obtain ⟨hc,-⟩ := hi.reader c _ List.mem_cons_self
  refine ends_cursor hi rfl fun hi => ends_done hi (hi.reader c _ List.mem_cons_self).1 rfl ?_
  exact hq _ (rests_set hc rfl)

theorem map_reader (h : Aside c s s') :
    s'.cursors.map reader = (s.cursors.map reader).set c (reader (s'.cursor c)) := by
  refine List.ext_getElem (by simp [h.length]) fun i h1 h2 => ?_
  rw [List.length_map] at h1
  rw [List.getElem_map,List.getElem_set,← cursor_at s' h1]
  split
  · rename_i he
    rw [he]
  · rename_i he
    rw [h.others i (Ne.symm he),cursor_at s (by rw [← h.length]; exact h1),List.getElem_map]

theorem opened_set (hc : c < r.readers.length) (rd : Reader) :
    ({ r with readers := r.readers.set c rd } : Plain T).opened = (List.range r.readers.length).filter
      fun d => if d = c then rd.isOpen else (r.readers.getD d noReader).isOpen := by
  simp only [Plain.opened,List.length_set]
  refine List.filter_congr fun d _ => ?_
  rw [getD_set]
  simp only [hc,and_true]
  split <;> rfl

theorem opened_same (hr : r.readers[c]? = some rd) (ho : rd'.isOpen = rd.isOpen) :
    ({ r with readers := r.readers.set c rd' } : Plain T).opened = r.opened := by
  obtain ⟨hc,hrd⟩ := List.getElem?_eq_some_iff.mp hr
  rw [opened_set hc]
  refine List.filter_congr fun d _ => ?_
  split
  · rename_i he
    rw [he,List.getD_eq_getElem?_getD,hr,ho]
    rfl
  · rfl

theorem opened_close (hr : r.readers[c]? = some rd) (ho : rd'.isOpen = false) :
    ({ r with readers := r.readers.set c rd' } : Plain T).opened = r.opened.filter (· ≠ c) := by
  obtain ⟨hc,hrd⟩ := List.getElem?_eq_some_iff.mp hr
  rw [opened_set hc,Plain.opened,List.filter_filter]
  refine List.filter_congr fun d _ => ?_
  split
  · rename_i he
    simp [he,ho]
  · rename_i he
    simp [he]

theorem Matches.turn (h : Matches s r) (hs : Aside c s s') (hr : r.readers[c]? = some rd)
    (hrd : reader (s'.cursor c) = rd') (hcons : rd'.consume = rd.consume)
    (ho : s'.opened = ({ r with readers := r.readers.set c rd' } : Plain T).opened)
    (hz : rd.consume = true → ∀ o < rd'.offset, s'.slot o = none) :
    Matches s' { r with readers := r.readers.set c rd' } := by
  obtain ⟨hc,hget⟩ := List.getElem?_eq_some_iff.mp hr
  have hmem : ∀ q ∈ r.readers.set c rd', q.consume = true → r.readers.length = 1 := by
    intro q hq hqc
    rcases List.mem_or_eq_of_mem_set hq with hq | rfl
    · exact h.sole q hq hqc
    · rw [hcons] at hqc
      exact h.sole rd (List.mem_of_getElem? hr) hqc
  refine ⟨hs.claims.trans h.items,hs.limit.trans h.limit,hs.closed.trans h.closed,?_,ho,
    fun d hd o hod => ?_,?_,fun he => ?_⟩
  · rw [map_reader hs,h.readers,hrd]
  · by_cases hdc : d = c
    · subst hdc
      have hdr : rd'.consume = true := by
        rw [← hrd]
        exact hd
      refine hz (hcons.symm.trans hdr) o ?_
      rw [← hrd]
      exact hod
    · rw [hs.others d hdc] at hd
      obtain ⟨q,hq,hqc⟩ := consume_reader h hd
      have hone := h.sole q hq hqc
      have hdl : d < r.readers.length := by
        by_contra hge
        have hnone : r.readers.getD d noReader = noReader := by
          rw [List.getD_eq_getElem?_getD,List.getElem?_eq_none (Nat.le_of_not_lt hge)]
          rfl
        have hrc : (reader (s.cursor d)).consume = true := hd
        rw [reader_cursor h,hnone] at hrc
        cases hrc
      omega
  · simp only [List.length_set]
    exact hmem
  · refine h.fresh (List.eq_nil_of_length_eq_zero ?_)
    have := congrArg List.length he
    simpa using this

theorem Matches.rest (h : Matches s r) (hs : Rests c s s') (hr : r.readers[c]? = some rd) :
    Matches s' r := by
  obtain ⟨hc,hget⟩ := List.getElem?_eq_some_iff.mp hr
  have hcur : reader (s.cursor c) = rd := by
    rw [reader_cursor h,List.getD_eq_getElem?_getD,hr]
    rfl
  have hset : r.readers.set c rd = r.readers := by
    rw [← hget]
    exact List.set_getElem_self hc
  have ht := h.turn hs.aside hr (hs.reader.trans hcur) rfl
    (by rw [opened_same hr rfl]; exact hs.opened.trans h.opened) fun hcons o ho => ?_
  · simpa only [hset] using ht
  · rw [← hcur] at hcons ho
    rw [hs.slot]
    exact h.cleared c hcons o ho

theorem published_made (h : s.published o = true) : o / chunkCapacity < s.chunks.length := by
  by_contra hge
  rw [Log.published,chunk_beyond s (Nat.le_of_not_lt hge),newChunk,List.getD_eq_getElem?_getD] at h
  cases hg : (List.replicate chunkCapacity false)[o % chunkCapacity]? with
  | none =>
    rw [hg] at h
    cases h
  | some b =>
    rw [hg,List.eq_of_mem_replicate (List.mem_of_getElem? hg)] at h
    cases h

-- With every claim published a reader waits only at the head.
theorem look_ends (hi : Inv s [.cursor c .look])
    (kt : ∀ s', Rests c s s' → (s'.cursor c).offset < s'.head → Inv s' [.cursor c .take] →
      Ends Q s' (.cursor c .take))
    (kn : ∀ s', Rests c s s' → s'.head ≤ (s'.cursor c).offset → Inv s' [.cursor c (.unlock [])] →
      Ends Q s' (.cursor c (.unlock []))) : Ends Q s (.cursor c .look) := by
  induction hm : (s.cursor c).idx using Nat.strongRecOn generalizing s with
  | ind m ih =>
    obtain ⟨hc,⟨t,ht,hlt,hpos⟩,hfront⟩ := hi.reader c _ List.mem_cons_self
    obtain ⟨hbase,hdata,hready,hnext⟩ := hi.chain.made t hlt
    have hall : s.published (s.cursor c).offset = true ↔ (s.cursor c).offset < s.head :=
      hi.all_published rfl
    have hnone : ¬(s.cursor c).offset < s.head → cursorStep s c .look = some (s,.claimed) →
        Ends Q s (.cursor c .look) := by
      intro hge hstep
      have hclaimed : cursorStep s c .claimed = some (s,.unlock []) := by
        rw [cursorStep,if_neg hge]
      exact ends_cursor hi hstep fun hi => ends_cursor hi hclaimed fun hi =>
        kn s (.refl c s) (Nat.le_of_not_lt hge) hi
    by_cases hidx : (s.chunk t).data.length ≤ (s.cursor c).idx
    · cases hn : (s.chunk t).next with
      | some nx =>
        have hstep : cursorStep s c .look = some (s.setCursor c { s.cursor c with
            chunk := some nx, idx := (s.cursor c).idx - (s.chunk t).data.length },.look) := by
          simp only [cursorStep,ht,hidx,if_true,hn]
        have hrests : Rests c s (s.setCursor c { s.cursor c with
            chunk := some nx, idx := (s.cursor c).idx - (s.chunk t).data.length }) := by
          refine rests_set hc ?_
          simp only [reader,ht]
          rfl
        refine ends_cursor hi hstep fun hi => ih _ ?_ hi (fun u hu => kt u (hrests.trans hu))
          (fun u hu => kn u (hrests.trans hu)) rfl
        rw [cursor_set,if_pos ⟨rfl,hc⟩]
        simp only
        have := capacity_pos
        omega
      | none =>
        refine hnone (fun hoff => ?_) (by simp only [cursorStep,ht,hidx,if_true,hn])
        have hlast := hi.chain.last hlt hn
        have hmade := published_made (hall.mpr hoff)
        rw [hdata] at hidx
        have hdiv : t + 1 ≤ (s.cursor c).offset / chunkCapacity := by
          rw [Nat.le_div_iff_mul_le capacity_pos,Nat.mul_comm,Nat.mul_add,Nat.mul_one]
          omega
        omega
    · have hi' : (s.cursor c).idx < chunkCapacity := by omega
      have hpub := published_at s hi' hpos.symm
      by_cases hoff : (s.cursor c).offset < s.head
      · have hstep : cursorStep s c .look = some (s,.take) := by
          simp only [cursorStep,ht,hidx,if_false,hpub,hall.mpr hoff,if_true]
        exact ends_cursor hi hstep fun hi => kt s (.refl c s) hoff hi
      · refine hnone hoff ?_
        have hfalse : s.published (s.cursor c).offset = false := by
          rw [← Bool.not_eq_true,hall]
          exact hoff
        simp only [cursorStep,ht,hidx,if_false,hpub,hfalse,Bool.false_eq_true]

theorem reader_at (h : Matches s r) (hr : r.readers[c]? = some rd) : reader (s.cursor c) = rd := by
  rw [reader_cursor h,List.getD_eq_getElem?_getD,hr]
  rfl

theorem length_at (h : Matches s r) (hr : r.readers[c]? = some rd) : c < s.cursors.length := by
  obtain ⟨hc,-⟩ := List.getElem?_eq_some_iff.mp hr
  rw [← h.readers,List.length_map] at hc
  exact hc

theorem turn_cases {f : Reader → Reader × List (Option T)} (hr : r.turn c f = some (r',v)) :
    ∃ rd, r.readers[c]? = some rd ∧ ((rd.isOpen = false ∧ r' = r ∧ v = .items []) ∨
      (rd.isOpen = true ∧ r' = { r with readers := r.readers.set c (f rd).1 } ∧
        v = .items (f rd).2)) := by
  obtain ⟨rd,hrd,heq⟩ := Option.map_eq_some_iff.mp hr
  refine ⟨rd,hrd,?_⟩
  split at heq <;> cases heq
  · exact .inr ⟨‹_›,rfl,rfl⟩
  · exact .inl ⟨by simpa using ‹¬rd.isOpen = true›,rfl,rfl⟩

-- A call on cursor c: nothing happens when it is closed, and otherwise it goes to work.
theorem turn_ends {f : Reader → Reader × List (Option T)} {op : Op} (h : Refines s r)
    (hr : r.turn c f = some (r',v))
    (k : ∀ rd, r.readers[c]? = some rd → reader (s.cursor c) = rd → rd.isOpen = true →
      c < s.cursors.length → Inv s [.cursor c (.lock op)] →
      Ends (fun s' w => w = .items (f rd).2 ∧
        Matches s' { r with readers := r.readers.set c (f rd).1 }) s (.cursor c (.lock op))) :
    Ends (fun s' w => w = v ∧ Matches s' r') s (.cursor c (.lock op)) := by
  obtain ⟨rd,hrd,⟨hclosed,rfl,rfl⟩ | ⟨hopen,rfl,rfl⟩⟩ := turn_cases hr
  · have hc := length_at h.view hrd
    have hcur := reader_at h.view hrd
    have hi : Inv s [.cursor c (.lock op)] := inv_call h.inv hc
    have hm := hi.freeCursor hc (by simp [holds,CursorPc.inside])
    have hnone : (s.cursor c).chunk = none := by
      rw [← hcur] at hclosed
      exact Option.not_isSome_iff_eq_none.mp (Bool.not_eq_true _ ▸ hclosed)
    have hstep : cursorStep s c (.lock op) =
        some (s.setCursor c { s.cursor c with mx := true },.unlock []) := by
      simp only [cursorStep,hm,Bool.false_eq_true,if_false,hnone,if_true]
    refine ends_cursor hi hstep fun hi => unlock_ends hi fun s' hs => ⟨rfl,h.view.rest (.trans ?_ hs) hrd⟩
    exact rests_set hc rfl
  · exact k rd hrd (reader_at h.view hrd) hopen (length_at h.view hrd)
      (inv_call h.inv (length_at h.view hrd))

theorem enter_ends {op : Op} (hi : Inv s [.cursor c (.lock op)]) (hc : c < s.cursors.length)
    (ho : (reader (s.cursor c)).isOpen = true) (hop : op ≠ .close)
    (k : ∀ s', Rests c s s' → Inv s' [.cursor c (opened (s.cursor c) op)] →
      Ends Q s' (.cursor c (opened (s.cursor c) op))) : Ends Q s (.cursor c (.lock op)) := by
  have hm := hi.freeCursor hc (by simp [holds,CursorPc.inside])
  have hne : (s.cursor c).chunk ≠ none := Option.isSome_iff_ne_none.mp ho
  have hstep : cursorStep s c (.lock op) =
      some (s.setCursor c { s.cursor c with mx := true },opened (s.cursor c) op) := by
    simp only [cursorStep,hm,Bool.false_eq_true,if_false,hne,hop]
  exact ends_cursor hi hstep fun hi => k _ (rests_set hc rfl) hi

-- The step that reads a slot, and the one that moves the offset past it.
structure Taken (c : ℕ) (s s' : Log T) : Prop where
  aside : Aside c s s'
  opened : s'.opened = s.opened
  reader : reader (s'.cursor c) = { reader (s.cursor c) with offset := (s.cursor c).offset + 1 }
  slot : ∀ o, s'.slot o = if o = (s.cursor c).offset ∧ (s.cursor c).consume = true then none
    else s.slot o

theorem take_ends (hi : Inv s [.cursor c .take])
    (k : ∀ s' y, s.claims[(s.cursor c).offset]? = some y → Taken c s s' →
      Inv s' [.cursor c (.unlock [some y])] → Ends Q s' (.cursor c (.unlock [some y]))) :
    Ends Q s (.cursor c .take) := by
  obtain ⟨hc,⟨⟨⟨t,ht,hlt,hpos⟩,-⟩,hidx,-⟩⟩ := hi.reader c _ List.mem_cons_self
  have hclear : ∃ w : Log T, cursorStep s c .take = some (w.setCursor c
      { s.cursor c with idx := (s.cursor c).idx + 1, front := (s.cursor c).front + 1 },
      .advance ((s.chunk t).data.getD (s.cursor c).idx none)) ∧ Aside c s w ∧
      w.opened = s.opened ∧ w.cursors = s.cursors ∧
      ∀ o, w.slot o = if o = (s.cursor c).offset ∧ (s.cursor c).consume = true then none
        else s.slot o := by
    by_cases hcons : (s.cursor c).consume = true
    · refine ⟨s.setData t (s.cursor c).idx none,?_,⟨rfl,rfl,rfl,rfl,rfl,fun _ _ => rfl⟩,rfl,rfl,
        fun o => ?_⟩
      · simp only [cursorStep,ht,hcons,if_true]
      · rw [slot_setData hi.chain hlt hidx,hpos]
        simp only [hcons,and_true]
    · refine ⟨s,?_,.refl c s,rfl,rfl,fun o => ?_⟩
      · simp only [cursorStep,ht,hcons,if_false,Bool.false_eq_true]
      · simp only [hcons,and_false,if_false,Bool.false_eq_true]
  obtain ⟨w,hstep,haside,hopened,hcursors,hslot⟩ := hclear
  refine ends_cursor hi hstep fun hi => ?_
  obtain ⟨hc',-,-,-,y,hy,hx⟩ := hi.reader c _ List.mem_cons_self
  have hcw : c < w.cursors.length := by rw [hcursors]; exact hc
  have hcur := cursor_set w c c
    { s.cursor c with idx := (s.cursor c).idx + 1, front := (s.cursor c).front + 1 }
  rw [if_pos ⟨rfl,hcw⟩] at hcur
  rw [hcur] at hy
  rw [hx] at hi ⊢
  refine ends_cursor hi rfl fun hi => k _ y ?_ ⟨?_,hopened,?_,hslot⟩ hi
  · rw [← haside.claims]
    exact hy
  · exact (haside.trans (aside_set w c _)).trans (aside_set _ c _)
  · rw [cursor_set,if_pos ⟨rfl,hc'⟩,hcur]
    rfl

theorem dequeue_ends (h : Refines s r) (hr : r.call (.dequeue c) = some (r',v)) :
    Ends (fun s' w => w = v ∧ Matches s' r') s (.cursor c (.lock .dequeue)) := by
  refine turn_ends h hr fun rd hrd hcur hopen hc hi => ?_
  refine enter_ends hi hc (by rw [hcur]; exact hopen) (by decide) fun s₁ hs₁ hi => ?_
  have hitems := h.view.items
  refine look_ends hi (fun s₂ hs₂ hlt hi => ?_) fun s₂ hs₂ hge hi => unlock_ends hi fun s₃ hs₃ => ?_
  · have hrests := hs₁.trans hs₂
    have hread : reader (s₂.cursor c) = rd := hrests.reader.trans hcur
    have hoff : (s₂.cursor c).offset = rd.offset := congrArg Reader.offset hread
    refine take_ends hi fun s₃ y hy hs₃ hi => unlock_ends hi fun s₄ hs₄ => ?_
    have hsome : r.items[rd.offset]? = some y := by
      rw [← hitems,← hrests.aside.claims,← hoff]
      exact hy
    simp only [hsome,true_and]
    refine h.view.turn ((hrests.aside.trans hs₃.aside).trans hs₄.aside) hrd ?_ rfl ?_ fun hcons o ho => ?_
    · rw [hs₄.reader,hs₃.reader,hread,hoff]
    · rw [hs₄.opened,hs₃.opened,hrests.opened,h.view.opened]
      refine Eq.symm (opened_same hrd ?_)
      rfl
    · rw [hs₄.slot,hs₃.slot,hrests.slot]
      split
      · rfl
      · rename_i hne
        have hcons₂ : (s₂.cursor c).consume = true := (congrArg Reader.consume hread).trans hcons
        have hlt : o < rd.offset := by
          have : o ≠ rd.offset := fun he => hne ⟨by rw [he,hoff],hcons₂⟩
          have : o < rd.offset + 1 := ho
          omega
        rw [← hcur] at hcons hlt
        exact h.view.cleared c hcons o hlt
  · have hrests := (hs₁.trans hs₂).trans hs₃
    have hoff : rd.offset = (s₂.cursor c).offset := by
      rw [← hcur,← (hs₁.trans hs₂).reader]
      rfl
    have hnone : r.items[rd.offset]? = none := by
      rw [List.getElem?_eq_none_iff,← hitems,← h.inv.chain.head,hoff,← (hs₁.trans hs₂).aside.head]
      exact hge
    have hset : r.readers.set c rd = r.readers := by
      obtain ⟨hlt,hget⟩ := List.getElem?_eq_some_iff.mp hrd
      rw [← hget]
      exact List.set_getElem_self hlt
    simp only [hnone,hset,true_and]
    exact h.view.rest hrests hrd

-- What `each` does on its way; only a consumer clears slots.
structure Walks (c : ℕ) (b : Bool) (s s' : Log T) : Prop where
  aside : Aside c s s'
  opened : s'.opened = s.opened
  reader : reader (s'.cursor c) = reader (s.cursor c)
  slot : b = false → ∀ o, s'.slot o = s.slot o

theorem Walks.refl (c : ℕ) (b : Bool) (s : Log T) : Walks c b s s :=
  ⟨.refl c s,rfl,rfl,fun _ _ => rfl⟩

theorem Walks.trans {b : Bool} (h : Walks c b s s') (k : Walks c b s' u) : Walks c b s u :=
  ⟨h.aside.trans k.aside,k.opened.trans h.opened,k.reader.trans h.reader,
    fun hb o => (k.slot hb o).trans (h.slot hb o)⟩

theorem visit_ends {b : Bool} {e : Each T} (hi : Inv s [.cursor c (.visit b e)])
    (hz : b = true → ∀ o < e.off, s.slot o = none)
    (k : ∀ s' x, Walks c b s s' → (b = true → ∀ o < e.off + 1, s'.slot o = none) →
      Inv s' [.cursor c (.each b { e with off := e.off + 1, idx := e.idx + 1, out := e.out ++ [x] })] →
      Ends Q s' (.cursor c (.each b { e with
        off := e.off + 1, idx := e.idx + 1, out := e.out ++ [x] }))) :
    Ends Q s (.cursor c (.visit b e)) := by
  obtain ⟨hc,hk,-,hidx,-⟩ := hi.reader c _ List.mem_cons_self
  have hpos := hk.off
  have hlt := hk.chunk
  cases b with
  | false => exact ends_cursor hi rfl fun hi => k s _ (.refl c false s) (fun h => by cases h) hi
  | true =>
    refine ends_cursor hi rfl fun hi => k _ _ ⟨?_,rfl,?_,fun h => by cases h⟩ (fun _ o ho => ?_) hi
    · have ha : Aside c s (s.setData e.chunk e.idx none) := ⟨rfl,rfl,rfl,rfl,rfl,fun _ _ => rfl⟩
      exact ha.trans (aside_set _ c _)
    · rw [cursor_set,if_pos ⟨rfl,hc⟩]
      rfl
    · have hslot := slot_setData ‹Inv s _›.chain hlt hidx none o
      refine Eq.trans hslot ?_
      split
      · rfl
      · exact hz rfl o (by omega)

theorem each_ends {b : Bool} {e : Each T} (hi : Inv s [.cursor c (.each b e)])
    (hstop : e.stop = s.head) (hz : b = true → ∀ o < e.off, s.slot o = none)
    (k : ∀ s' e', Walks c b s s' → e'.stop = s'.head → e'.stop ≤ e'.off →
      (b = true → ∀ o < e'.off, s'.slot o = none) → Inv s' [.cursor c (.each b e')] →
      Ends Q s' (.cursor c (.each b e'))) : Ends Q s (.cursor c (.each b e)) := by
  induction hm : 2 * (e.stop - e.off) + e.idx using Nat.strongRecOn generalizing s e with
  | ind m ih =>
    by_cases hend : e.stop ≤ e.off
    · exact k s e (.refl c b s) hstop hend hz hi
    · obtain ⟨hc,hk⟩ := hi.reader c _ List.mem_cons_self
      have hpos := hk.off
      have hlt := hk.chunk
      obtain ⟨-,hdata,-,hnext⟩ := hi.chain.made _ hlt
      have hpub : s.published e.off = true := (hi.all_published rfl).mpr (by omega)
      by_cases hidx : (s.chunk e.chunk).data.length ≤ e.idx
      · have hmade := published_made hpub
        rw [hdata] at hidx
        have hdiv : e.chunk + 1 ≤ e.off / chunkCapacity := by
          rw [Nat.le_div_iff_mul_le capacity_pos,Nat.mul_comm,Nat.mul_add,Nat.mul_one]
          omega
        rw [if_pos (by omega)] at hnext
        have hstep : cursorStep s c (.each b e) = some (s,.each b { e with
            chunk := e.chunk + 1, idx := e.idx - (s.chunk e.chunk).data.length }) := by
          simp only [cursorStep,hend,if_false,hdata,hidx,if_true,hnext]
        refine ends_cursor hi hstep fun hi => ih _ ?_ hi hstop hz k rfl
        have := capacity_pos
        simp only
        omega
      · have hready := published_at s (by omega) hpos.symm
        have hstep : cursorStep s c (.each b e) = some (s,.visit b e) := by
          simp only [cursorStep,hend,if_false,hidx,hready,hpub,if_true]
        refine ends_cursor hi hstep fun hi => visit_ends hi hz fun s' x hs hz hi => ?_
        refine ih _ ?_ hi (hstop.trans hs.aside.head.symm) hz (fun u e' hu => k u e' (hs.trans hu)) rfl
        simp only
        omega

theorem Shows.rest {out : List (Option T)} (h : Shows s o out p) (hp : p = s.claims.length) :
    out = (s.claims.drop o).map some := by
  induction out generalizing o with
  | nil =>
    have h : o = p := h
    rw [h,hp,List.drop_length]
    rfl
  | cons x out ih =>
    obtain ⟨⟨-,y,hy,rfl⟩,hrest⟩ := h
    obtain ⟨hlt,hget⟩ := List.getElem?_eq_some_iff.mp hy
    rw [List.drop_eq_getElem_cons hlt,List.map_cons,hget,← ih hrest]

-- `each` from where the reader is to the head shows the rest of the list.
theorem walk_ends {b : Bool} (hi : Inv s [.cursor c (.loadEnd b)])
    (hz : b = true → ∀ o < (s.cursor c).offset, s.slot o = none)
    (k : ∀ s' e, Walks c b s s' → e.stop = s'.head → e.stop ≤ e.off →
      e.out = (s.claims.drop (s.cursor c).offset).map some →
      (b = true → ∀ o < e.off, s'.slot o = none) → Inv s' [.cursor c (.each b e)] →
      Ends Q s' (.cursor c (.each b e))) : Ends Q s (.cursor c (.loadEnd b)) := by
  obtain ⟨hc,⟨⟨t,ht,-,-⟩,-⟩,-⟩ := hi.reader c _ List.mem_cons_self
  have hstep : cursorStep s c (.loadEnd b) =
      some (s,.each b ⟨s.head,(s.cursor c).offset,t,(s.cursor c).idx,[]⟩) := by
    rw [cursorStep,ht]
    rfl
  refine ends_cursor hi hstep fun hi => each_ends hi rfl hz fun s' e hs hstop hend hz hi => ?_
  refine k s' e hs hstop hend ?_ hz hi
  obtain ⟨-,hk⟩ := hi.reader c _ List.mem_cons_self
  have hoff : (s'.cursor c).offset = (s.cursor c).offset := congrArg Reader.offset hs.reader
  have hle := hk.stop
  have hhead := hi.chain.head
  have hout := hk.out.rest (by omega)
  rw [hoff,hs.aside.claims] at hout
  exact hout

theorem set_same (hr : r.readers[c]? = some rd) : r.readers.set c rd = r.readers := by
  obtain ⟨hlt,hget⟩ := List.getElem?_eq_some_iff.mp hr
  rw [← hget]
  exact List.set_getElem_self hlt

theorem rest_eq (h : Matches s r) (hs : Rests c s s') (hcur : reader (s.cursor c) = rd) :
    (s'.claims.drop (s'.cursor c).offset).map some = r.rest rd := by
  have hoff : (s'.cursor c).offset = rd.offset := congrArg Reader.offset (hs.reader.trans hcur)
  rw [hs.aside.claims,h.items,hoff]
  rfl

theorem values_ends (h : Refines s r) (hr : r.call (.values c) = some (r',v)) :
    Ends (fun s' w => w = v ∧ Matches s' r') s (.cursor c (.lock .values)) := by
  refine turn_ends h hr fun rd hrd hcur hopen hc hi => ?_
  refine enter_ends hi hc (by rw [hcur]; exact hopen) (by decide) fun s₁ hs₁ hi => ?_
  refine walk_ends hi (fun hb => by cases hb) fun s₂ e hs₂ hstop hend hout _ hi => ?_
  have hstep : cursorStep s₂ c (.each false e) = some (s₂.setCursor c { s₂.cursor c with
      shown := (s₂.cursor c).shown ++ [((s₂.cursor c).offset,e.out)] },.unlock e.out) := by
    simp only [cursorStep,hend,if_true,Bool.false_eq_true,if_false]
  obtain ⟨hc₂,-⟩ := hi.reader c _ List.mem_cons_self
  refine ends_cursor hi hstep fun hi => unlock_ends hi fun s₃ hs₃ => ?_
  have hw : Rests c s₁ s₂ := ⟨hs₂.aside,hs₂.opened,hs₂.reader,hs₂.slot rfl⟩
  simp only [set_same hrd]
  refine ⟨?_,h.view.rest (((hs₁.trans hw).trans ?_).trans hs₃) hrd⟩
  · rw [hout,rest_eq h.view hs₁ hcur]
  · exact rests_set hc₂ rfl

theorem purge_ends (h : Refines s r) (hr : r.call (.purge c) = some (r',v)) :
    Ends (fun s' w => w = v ∧ Matches s' r') s (.cursor c (.lock .purge)) := by
  refine turn_ends h hr fun rd hrd hcur hopen hc hi => ?_
  refine enter_ends hi hc (by rw [hcur]; exact hopen) (by decide) fun s₁ hs₁ hi => ?_
  have hcons : (s.cursor c).consume = rd.consume := congrArg Reader.consume hcur
  have hread := hs₁.reader.trans hcur
  have hlen : s₁.head = r.items.length := by rw [hi.chain.head,hs₁.aside.claims,h.view.items]
  unfold opened at hi ⊢
  simp only [hcons] at hi ⊢
  cases hb : rd.consume with
  | true =>
    rw [hb] at hi hcons
    have hz : ∀ o < (s₁.cursor c).offset, s₁.slot o = none := by
      intro o ho
      have hoff : (s₁.cursor c).offset = (s.cursor c).offset := congrArg Reader.offset hs₁.reader
      rw [hoff] at ho
      rw [hs₁.slot]
      exact h.view.cleared c hcons o ho
    refine walk_ends hi (fun _ => hz) fun s₂ e hs₂ hstop hend hout hz hi => ?_
    obtain ⟨hc₂,hk⟩ := hi.reader c _ List.mem_cons_self
    have hstep : cursorStep s₂ c (.each true e) = some (s₂,.move e) := by
      simp only [cursorStep,hend,if_true]
    refine ends_cursor hi hstep fun hi => ends_cursor hi rfl fun hi => unlock_ends hi fun s₃ hs₃ => ?_
    have hle := hk.stop
    refine ⟨?_,h.view.turn ((hs₁.aside.trans hs₂.aside).trans (.trans ?_ hs₃.aside)) hrd ?_ hb.symm ?_
      fun _ o ho => ?_⟩
    · rw [hout,rest_eq h.view hs₁ hcur]
      rfl
    · exact aside_set _ c _
    · rw [hs₃.reader,cursor_set,if_pos ⟨rfl,hc₂⟩]
      have hc₁ : (s₂.cursor c).consume = rd.consume :=
        congrArg Reader.consume (hs₂.reader.trans hread)
      have hhead : e.stop = r.items.length := by rw [hstop,hs₂.aside.head,hlen]
      simp only [reader,hhead,hc₁,hb,hopen,Option.isSome_some]
    · rw [hs₃.opened]
      refine (hs₂.opened.trans (hs₁.opened.trans h.view.opened)).trans ?_
      refine Eq.symm (opened_same hrd ?_)
      rfl
    · rw [hs₃.slot]
      refine hz rfl o ?_
      rw [← hlen] at ho
      have := hs₂.aside.head
      simp only at ho
      omega
  | false =>
    rw [hb] at hi
    obtain ⟨hc₁,⟨⟨⟨t,ht,-,-⟩,-⟩,-⟩⟩ := hi.reader c _ List.mem_cons_self
    have hlisted := hi.listed c hc₁ (by rw [ht]; rfl)
    obtain ⟨t,ht⟩ := Option.isSome_iff_exists.mp (hi.tail (List.ne_nil_of_mem hlisted))
    have hstep : cursorStep s₁ c .seekTail = some (s₁,.seekHead t) := by
      rw [cursorStep,ht]
      rfl
    refine ends_cursor hi hstep fun hi => ends_cursor hi rfl fun hi => ends_cursor hi rfl fun hi =>
      unlock_ends hi fun s₃ hs₃ => ⟨rfl,?_⟩
    refine h.view.turn (hs₁.aside.trans (.trans ?_ hs₃.aside)) hrd ?_ hb.symm ?_ fun hcons => ?_
    · exact aside_set _ c _
    · rw [hs₃.reader,cursor_set,if_pos ⟨rfl,hc₁⟩]
      have hcons₁ : (s₁.cursor c).consume = rd.consume := congrArg Reader.consume hread
      simp only [reader,hlen,hcons₁,hb,hopen,Option.isSome_some]
    · rw [hs₃.opened]
      refine (hs₁.opened.trans h.view.opened).trans ?_
      refine Eq.symm (opened_same hrd ?_)
      rfl
    · rw [hb] at hcons
      cases hcons

theorem close_ends (h : Refines s r) (hr : r.call (.closeCursor c) = some (r',v)) :
    Ends (fun s' w => w = v ∧ Matches s' r') s (.cursor c (.lock .close)) := by
  refine turn_ends h hr fun rd hrd hcur hopen hc hi => ?_
  have hm := hi.freeCursor hc (by simp [holds,CursorPc.inside])
  have hne : (s.cursor c).chunk ≠ none := by
    rw [← hcur] at hopen
    exact Option.isSome_iff_ne_none.mp hopen
  have hstep : cursorStep s c (.lock .close) =
      some (s.setCursor c { s.cursor c with mx := true, chunk := none },.lockLog) := by
    simp only [cursorStep,hm,Bool.false_eq_true,if_false,hne,if_true]
    rfl
  refine ends_cursor hi hstep fun hi => ?_
  have hfree := hi.free rfl
  have hlock : ∀ {u : Log T}, u.mx = false →
      cursorStep u c .lockLog = some ({ u with mx := true },.remove) := by
    intro u hu
    rw [cursorStep,hu]
    rfl
  refine ends_cursor hi (hlock hfree) fun hi => ends_cursor hi rfl fun hi => ends_cursor hi rfl fun hi =>
    unlock_ends hi fun u hu => ⟨rfl,?_⟩
  have ha : Aside c s (s.setCursor c { s.cursor c with mx := true, chunk := none }) := aside_set s c _
  refine h.view.turn (.trans ?_ hu.aside) hrd ?_ rfl ?_ fun hcons o ho => ?_
  · exact ⟨ha.claims,ha.limit,ha.closed,ha.head,ha.length,ha.others⟩
  · rw [hu.reader]
    refine (congrArg reader (cursor_set s c c _)).trans ?_
    rw [if_pos ⟨rfl,hc⟩,← hcur]
    rfl
  · rw [hu.opened]
    refine Eq.trans ?_ (opened_close hrd rfl).symm
    rw [← h.view.opened]
    rfl
  · rw [hu.slot]
    rw [← hcur] at hcons ho
    exact h.view.cleared c hcons o ho

end Varmq.Topics
