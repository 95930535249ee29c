import Varmq.Topics.Subscribers

namespace Varmq.Topics.Fanout

open Interleaving

variable {T : Type} {s s' : Topic T} {l l' t u : Thread T} {xs ys ts : List (Thread T)} {c k : ℕ}

theorem cursorOf_eq (s : Topic T) (k : ℕ) :
    s.cursorOf k = (s.handles.map Subscription.cursor).getD k 0 := by
  simp only [Topic.cursorOf,Topic.handle,List.getD_eq_getElem?_getD,List.getElem?_map]
  cases s.handles[k]? <;> rfl

theorem cursorOf_grown (h : s.handles.map Subscription.cursor <+: s'.handles.map Subscription.cursor)
    (hk : k < s.handles.length) : s'.cursorOf k = s.cursorOf k := by
  obtain ⟨zs,hz⟩ := h
  rw [cursorOf_eq,cursorOf_eq,← hz,List.getD_eq_getElem?_getD,List.getElem?_append_left (by simpa using hk),
    List.getD_eq_getElem?_getD]

theorem length_grown (h : s.handles.map Subscription.cursor <+: s'.handles.map Subscription.cursor) :
    s.handles.length ≤ s'.handles.length := by
  simpa using h.length_le

-- What a writer under t.mx can rely on while the others work on.
structure Still (s s' : Topic T) : Prop where
  handles : s'.handles.map Subscription.cursor = s.handles.map Subscription.cursor
  opened : s'.log.opened = s.log.opened
  head : s'.log.head = s.log.head
  chunk : ∀ c < s.log.cursors.length, (s.log.cursor c).chunk.isSome = true →
    (s'.log.cursor c).chunk.isSome = true

theorem Own.stay (h : Own s c) (hf : Framed s.log s'.log) (hs : Still s s') : Own s' c := by
  refine ⟨Nat.lt_of_lt_of_le h.length hf.length,?_,?_⟩
  · rw [hs.handles]
    exact h.fresh
  · rw [(hf.onward c h.length).start,hs.head]
    exact h.start

theorem Opened.stay (h : Opened s c) (hf : Framed s.log s'.log) (hs : Still s s') : Opened s' c :=
  ⟨h.own.stay hf hs,by rw [hs.opened]; exact h.listed,hs.chunk c h.own.length h.chunk⟩

theorem Closes.stay {pc : CursorPc T} (h : Closes s.log c pc) (hc : c < s.log.cursors.length)
    (hf : Framed s.log s'.log) (hs : Still s s') : Closes s'.log c pc := by
  cases pc with
  | unlockLog | unlock r | returned r =>
    exact ⟨by rw [hs.opened]; exact h.1,hf.chunk c hc h.2⟩
  | _ => exact h

theorem facts_stay (h : Facts s u) (hp : s.handles.map Subscription.cursor <+:
      s'.handles.map Subscription.cursor)
    (hown : ∀ c ∈ s.handles.map Subscription.cursor, c < s.log.cursors.length)
    (hf : Framed s.log s'.log) (hs : writes u = true → Still s s') : Facts s' u := by
  have hlen := length_grown hp
  cases u with
  | publish p => trivial
  | subscribe w pc =>
    cases pc with
    | new pc =>
      cases pc with
      | register b t p => exact Eq.trans h (hs rfl).head.symm
      | unlock c | returned c => exact Opened.stay h hf (hs rfl)
      | _ => trivial
    | attach c => exact Opened.stay h hf (hs rfl)
    | inert c pc => exact ⟨h.1.stay hf (hs rfl),h.2.stay h.1.length hf (hs rfl)⟩
    | _ => trivial
  | unsubscribe k rest pc =>
    obtain ⟨⟨hk,hrest⟩,hpc⟩ := h
    refine ⟨⟨Nat.lt_of_lt_of_le hk hlen,fun i hi => Nat.lt_of_lt_of_le (hrest i hi) hlen⟩,?_⟩
    have hc := hown _ (cursorOf_mem hk)
    cases pc with
    | close c pc =>
      obtain ⟨rfl,hpc⟩ := hpc
      exact ⟨(cursorOf_grown hp hk).symm,hpc.stay hc hf (hs rfl)⟩
    | delete =>
      have hst := hs rfl
      simp only [cursorOf_grown hp hk,hst.opened]
      exact ⟨hpc.1,hf.chunk _ hc hpc.2⟩
    | _ => trivial
  | close pc =>
    cases pc with
    | unlock subs => exact fun i hi => Nat.lt_of_lt_of_le (h i hi) hlen
    | _ => trivial
  | purge c pc => exact ⟨hp.subset h.1,h.2⟩
  | read c pc => exact ⟨hp.subset h.1,h.2⟩

-- The log's side of a step: its own invariant goes on and the others' facts stay.
theorem Fan.logged (h : Fan s (xs ++ l :: ys)) (hs : Act s l s' l') : Logged s l s' l' := by
  have hf := h.facts l (by simp)
  have hreader : ∀ {c pc}, proj l = .cursor c pc → c < s.log.cursors.length := by
    intro c pc hp
    exact (h.split.reader c pc (by simp [← hp])).1
  cases hs with
  | append hp ha =>
    refine .inl ?_
    rw [proj_publish hp,proj_publish rfl]
    exact .append (append_act ha)
  | new ha => exact .inl (.newCursor ha)
  | inert ha => exact .inl (.cursor ha)
  | close ha => exact .inl (.cursor ha)
  | purge ha => exact .inl (.cursor ha)
  | read ha => exact .inl (.cursor ha)
  | rlock hp => exact .inr ⟨rfl,by rw [proj_publish_outside (by simp [hp])]; trivial,trivial⟩
  | shut hp => exact .inr ⟨rfl,by rw [proj_publish_outside (by simp [hp])]; trivial,trivial⟩
  | open_ hp => exact .inr ⟨rfl,by rw [proj_publish_outside (by simp [hp])]; trivial,trivial⟩
  | refused hp => exact .inr ⟨rfl,by rw [proj_publish hp]; trivial,trivial⟩
  | accepted hp => exact .inr ⟨rfl,by rw [proj_publish hp]; trivial,trivial⟩
  | notify hp => exact .inr ⟨rfl,by rw [proj_publish_outside (by simp [hp])]; trivial,trivial⟩
  | runlock hp => exact .inr ⟨rfl,by rw [proj_publish_outside (by simp [hp])]; trivial,trivial⟩
  | late => exact .inr ⟨rfl,trivial,hf.own.length⟩
  | drop => exact .inr ⟨rfl,hf.1.length,trivial⟩
  | unlock => exact .inr ⟨rfl,trivial,h.owned _ (cursorOf_mem hf.1.1)⟩
  | closed => exact .inr ⟨rfl,hreader rfl,trivial⟩
  | unlockClose => exact .inr ⟨rfl,trivial,by rw [proj_start]; trivial⟩
  | _ => exact .inr ⟨rfl,trivial,trivial⟩

theorem Fan.inv_log (h : Fan s (xs ++ l :: ys)) (hs : Act s l s' l') :
    Inv s'.log ((xs ++ l' :: ys).map proj) := by
  rw [List.map_append,List.map_cons]
  rcases h.logged hs with ha | ⟨he,ho,ho'⟩
  · exact inv_act h.split ha
  · rw [he]
    exact inv_swap h.split ho ho'

theorem Fan.framed (h : Fan s (xs ++ l :: ys)) (hs : Act s l s' l') : Framed s.log s'.log := by
  rcases h.logged hs with ha | ⟨he,-,-⟩
  · exact framed_act h.split ha
  · rw [he]
    exact .refl _

theorem set_getD {A : Type} (xs : List A) (k : ℕ) (d : A) : xs.set k (xs.getD k d) = xs := by
  by_cases hk : k < xs.length
  · rw [List.getD_eq_getElem?_getD,List.getElem?_eq_getElem hk]
    exact List.set_getElem_self hk
  · exact List.set_eq_of_length_le (Nat.le_of_not_lt hk)

-- The subscriptions there are after a step.
theorem handles_cases (hs : Act s l s' l') :
    (s'.handles.map Subscription.cursor = s.handles.map Subscription.cursor) ∨
    ∃ w c e, (l = .subscribe w (.attach c) ∨ ∃ r, l = .subscribe w (.inert c (.returned r))) ∧
      s'.handles = s.handles ++ [⟨w,c,.fresh,e⟩] := by
  have hset : ∀ k h, h.cursor = s.cursorOf k → (s.setHandle k h).handles.map Subscription.cursor =
      s.handles.map Subscription.cursor := by
    intro k h hh
    rw [Topic.setHandle,List.map_set,hh,cursorOf_eq]
    exact set_getD _ _ _
  cases hs with
  | attach => exact .inr ⟨_,_,_,.inl rfl,rfl⟩
  | drop => exact .inr ⟨_,_,_,.inr ⟨_,rfl⟩,rfl⟩
  | once => exact .inl (hset _ _ rfl)
  | removeSource => exact .inl (hset _ _ rfl)
  | delete => exact .inl (hset _ _ rfl)
  | _ => exact .inl rfl

theorem handles_grow (hs : Act s l s' l') :
    s.handles.map Subscription.cursor <+: s'.handles.map Subscription.cursor := by
  rcases handles_cases hs with he | ⟨w,c,e,-,he⟩
  · exact ⟨[],by rw [List.append_nil,he]⟩
  · rw [he,List.map_append]
    exact List.prefix_append _ _

theorem Fan.still (h : Fan s (xs ++ l :: ys)) (hs : Act s l s' l') (hw : writes l = false)
    (hr : reads l = false) : Still s s' := by
  refine ⟨?_,?_,?_,?_⟩
  · rcases handles_cases hs with he | ⟨w,c,e,rfl | ⟨r,rfl⟩,-⟩
    · exact he
    · cases hw
    · cases hw
  · rcases h.logged hs with ha | ⟨he,-,-⟩
    · exact (h.frozen hw ha).1
    · rw [he]
  · rcases h.logged hs with ha | ⟨he,-,-⟩
    · exact (head_same hr ha).1
    · rw [he]
  · rcases h.logged hs with ha | ⟨he,-,-⟩
    · exact (h.frozen hw ha).2
    · rw [he]
      exact fun _ _ => id

-- Close goes on: whoever listed a cursor without its chunk is removing it.
theorem closes_step {pc pc' : CursorPc T} {log : Log T} (h : Closes s.log c pc)
    (hn : pc = .remove → (s.log.cursor c).chunk = none) (hc : c < s.log.cursors.length)
    (hl : c ∈ s.log.opened → pc = .lock .close → (s.log.cursor c).chunk.isSome = true)
    (hs : CursorAct s.log c pc log pc') : Closes log c pc' := by
  cases hs with
  | enter hm hch hop => exact absurd h hop
  | close hm hch => trivial
  | gone hm hch =>
    have h : _ = Op.close := h
    subst h
    refine ⟨fun ho => ?_,?_⟩
    · have := hl ho rfl
      rw [hch] at this
      cases this
    · rw [cursor_set,if_pos ⟨rfl,hc⟩]
      exact hch
  | lockLog => trivial
  | remove =>
    refine ⟨?_,hn rfl⟩
    simp [Log.remove]
  | unlockLog => exact h
  | unlock =>
    refine ⟨h.1,?_⟩
    rw [cursor_set,if_pos ⟨rfl,hc⟩]
    exact h.2
  | _ => exact h.elim

theorem removing_writes (hf : Facts s t) (hr : removing c t) : writes t = true := by
  cases hw : writes t
  · rcases proj_plain hf hw with hp | ⟨x,pc,hp⟩ | ⟨d,pc,hp,hc⟩
    · rcases hr with hr | hr <;> rw [hp] at hr <;> cases hr
    · rcases hr with hr | hr <;> rw [hp] at hr <;> cases hr
    · rcases hr with hr | hr <;> rw [hp] at hr <;> cases hr <;> cases hc
  · rfl

-- A writer that is not removing the cursor finds it with its chunk if it is listed.
theorem Fan.lively (h : Fan s (xs ++ l :: ys)) (hw : writes l = true) (hr : ¬removing c l)
    (hc : c ∈ s.log.opened) : (s.log.cursor c).chunk.isSome = true := by
  rcases h.live c hc with h1 | ⟨t,ht,hrm⟩
  · exact h1
  · rcases mem_split ht with ht | rfl
    · have hwt := removing_writes (h.facts t (mem_of_other ht)) hrm
      rw [h.alone ht hwt] at hw
      cases hw
    · exact absurd hrm hr

theorem Fan.closes_own (h : Fan s (xs ++ l :: ys)) (hw : writes l = true) {pc pc' : CursorPc T}
    {log : Log T} (hp : proj l = .cursor c pc) (hk : Closes s.log c pc)
    (hs : CursorAct s.log c pc log pc') : Closes log c pc' := by
  obtain ⟨hc,hkn⟩ := h.split.reader c pc (by simp [← hp])
  refine closes_step hk (fun he => ?_) hc (fun ho he => ?_) hs
  · subst he
    exact hkn
  · subst he
    refine h.lively hw (fun hr => ?_) ho
    rcases hr with hr | hr <;> rw [hp] at hr <;> cases hr

theorem closes_plain {pc pc' : CursorPc T} {log log' : Log T} (hs : CursorAct log c pc log' pc')
    (h : closes pc = false) : closes pc' = false := by
  cases hs with
  | @enter op t hm hch hop =>
    cases op with
    | purge =>
      simp only [opened]
      split <;> rfl
    | close => exact absurd rfl hop
    | _ => rfl
  | close => cases h
  | lockLog => cases h
  | remove => cases h
  | _ => rfl

theorem Fan.opened_own (h : Fan s (xs ++ l :: ys)) {w : ℕ} {pc pc' : NewPc} {log : Log T}
    (hl : l = .subscribe w (.new pc)) (hs : NewAct s.log pc log pc') :
    Facts { s with log } (.subscribe w (.new pc') : Thread T) := by
  have hf := h.facts l (by simp)
  subst hl
  cases hs with
  | seekHead => rfl
  | @register b t p =>
    have hf : p = s.log.head := hf
    refine ⟨⟨?_,fun hc => ?_,?_⟩,?_,?_⟩
    · simp [Log.register]
    · exact Nat.lt_irrefl _ (h.owned _ hc)
    · simp only [cursor_fresh]
      exact hf
    · simp [Log.register]
    · simp only [cursor_fresh]
      rfl
  | unlock => exact ⟨⟨hf.own.length,hf.own.fresh,hf.own.start⟩,hf.listed,hf.chunk⟩
  | _ => trivial

theorem Fan.facts_own (h : Fan s (xs ++ l :: ys)) (hs : Act s l s' l') : Facts s' l' := by
  have hf := h.facts l (by simp)
  have hlen := length_grown (handles_grow hs)
  cases hs with
  | new ha => exact h.opened_own rfl ha
  | made => exact hf
  | late => exact ⟨hf.own,rfl⟩
  | @inert w c pc pc' log ha =>
    obtain ⟨hown,hc⟩ := hf
    refine ⟨⟨?_,hown.fresh,?_⟩,h.closes_own rfl rfl hc ha⟩
    · exact Nat.lt_of_lt_of_le hown.length (h.framed (.inert ha)).length
    · rw [((h.framed (.inert ha)).onward _ hown.length).start]
      exact hown.start.trans (head_same (l := .subscribe w (.inert c pc)) rfl (.cursor ha)).1.symm
  | once => exact ⟨⟨Nat.lt_of_lt_of_le hf.1.1 hlen,fun i hi => Nat.lt_of_lt_of_le (hf.1.2 i hi) hlen⟩,trivial⟩
  | again => exact ⟨hf.1,trivial⟩
  | unlock => exact ⟨hf.1,rfl,rfl⟩
  | close ha =>
    obtain ⟨hk,hc,hcl⟩ := hf
    exact ⟨hk,hc,h.closes_own rfl rfl hcl ha⟩
  | closed =>
    obtain ⟨hk,hc,hcl⟩ := hf
    rw [hc] at hcl
    exact ⟨hk,hcl⟩
  | delete => exact ⟨⟨Nat.lt_of_lt_of_le hf.1.1 hlen,fun i hi => Nat.lt_of_lt_of_le (hf.1.2 i hi) hlen⟩,trivial⟩
  | left => exact ⟨hf.1,trivial⟩
  | removeSource =>
    exact ⟨⟨Nat.lt_of_lt_of_le hf.1.1 hlen,fun i hi => Nat.lt_of_lt_of_le (hf.1.2 i hi) hlen⟩,trivial⟩
  | last => exact ⟨hf.1,trivial⟩
  | next =>
    obtain ⟨⟨-,hrest⟩,-⟩ := hf
    exact ⟨⟨hrest _ List.mem_cons_self,fun i hi => hrest i (List.mem_cons_of_mem _ hi)⟩,trivial⟩
  | setClosed =>
    intro i hi
    split at hi
    · cases hi
    · exact h.subs i hi
  | @unlockClose subs =>
    cases subs with
    | nil => trivial
    | cons k rest =>
      have hf : ∀ i ∈ k :: rest, i < s.handles.length := hf
      exact ⟨⟨hf k List.mem_cons_self,fun i hi => hf i (List.mem_cons_of_mem _ hi)⟩,trivial⟩
  | purge ha => exact ⟨hf.1,closes_plain ha hf.2⟩
  | read ha => exact ⟨hf.1,closes_plain ha hf.2⟩
  | _ => trivial

theorem Fan.facts_step (h : Fan s (xs ++ l :: ys)) (hs : Act s l s' l') :
    ∀ t ∈ xs ++ l' :: ys, Facts s' t := by
  intro t ht
  rcases mem_split ht with ht | rfl
  · refine facts_stay (h.facts t (mem_of_other ht)) (handles_grow hs) h.owned (h.framed hs) fun hw => ?_
    exact h.still hs (h.alone ht hw) (h.no_reads (mem_of_other ht) hw (by simp))
  · exact h.facts_own hs

end Varmq.Topics.Fanout
