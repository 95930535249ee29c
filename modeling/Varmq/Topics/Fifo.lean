import Varmq.Topics.Locks

namespace Varmq.Topics

open Interleaving

variable {T : Type} {s s' : Log T} {l l' : Thread T} {x : T} {c d o p f : ℕ} {cur cur' : Cursor T}
  {xs ys ts : List (Thread T)}

structure Inv (s : Log T) (ts : List (Thread T)) : Prop where
  chain : Chain s
  open_ : s.nOpen = s.opened.length
  tail : s.opened ≠ [] → s.tail.isSome = true
  owned : ∀ o, pub s o + total (owns o) ts = claimedAt s o
  log : one s.mx = total (fun t => one (holdsLog t)) ts
  cursor : ∀ c < s.cursors.length, one (s.cursor c).mx = total (fun t => one (holds c t)) ts
  append : ∀ x pc, .append x pc ∈ ts → KnowsAppend s x pc
  new : ∀ pc, .newCursor pc ∈ ts → KnowsNew s pc
  reader : ∀ c pc, .cursor c pc ∈ ts → c < s.cursors.length ∧ KnowsCursor s (s.cursor c) pc
  sound : ∀ c < s.cursors.length, Sound s (s.cursor c)
  idle : ∀ c < s.cursors.length, (s.cursor c).mx = false → Idle s (s.cursor c)
  kept : ∀ c < s.cursors.length, (s.cursor c).chunk.isSome = true → Kept s (s.cursor c).front
  opened : ∀ c ∈ s.opened, c < s.cursors.length
  listed : ∀ c < s.cursors.length, (s.cursor c).chunk.isSome = true → c ∈ s.opened
  sole : ∀ c ∈ s.opened, (s.cursor c).consume = true → ∀ d ∈ s.opened, d = c

theorem claimedAt_le (s : Log T) (o : ℕ) : claimedAt s o ≤ 1 := by
  unfold claimedAt
  split <;> omega

theorem pub_one (h : s.published o = true) : pub s o = 1 := if_pos h

theorem Inv.claimed (h : Inv s ts) (hp : s.published o = true) : o < s.head := by
  have h1 := h.owned o
  rw [pub_one hp] at h1
  by_contra hlt
  rw [claimedAt,if_neg hlt] at h1
  omega

theorem owns_one {pc : AppendPc} (h : inHand pc = some o) : owns o (.append x pc : Thread T) = 1 :=
  if_pos h

-- An offset in hand is not published.
theorem Inv.unpublished (h : Inv s ts) (hl : l ∈ ts) (ho : owns o l = 1) : s.published o = false := by
  have h1 := h.owned o
  have h2 := le_total (f := owns o) hl
  have h3 := claimedAt_le s o
  cases hp : s.published o
  · rfl
  · rw [pub_one hp] at h1
    omega

theorem one_eq_zero {b : Bool} (h : one b = 0) : b = false := by
  cases b
  · rfl
  · cases h

theorem one_le (b : Bool) : one b ≤ 1 := by
  cases b <;> decide

theorem Inv.logLocked (h : Inv s ts) (hl : l ∈ ts) (hh : holdsLog l = true) : s.mx = true := by
  have h1 := h.log
  have h2 := le_total (f := fun t => one (holdsLog t)) hl
  simp only [hh,one_true] at h2
  cases hm : s.mx
  · rw [hm,one_false] at h1
    omega
  · rfl

theorem Inv.curLocked (h : Inv s ts) (hl : l ∈ ts) (hc : c < s.cursors.length)
    (hh : holds c l = true) : (s.cursor c).mx = true := by
  have h1 := h.cursor c hc
  have h2 := le_total (f := fun t => one (holds c t)) hl
  simp only [hh,one_true] at h2
  cases hm : (s.cursor c).mx
  · rw [hm,one_false] at h1
    omega
  · rfl

theorem Inv.memory (h : Inv s (xs ++ l :: ys)) (hs : Act s l s' l') : Memory s s' l l' := by
  have hl : l ∈ xs ++ l :: ys := by simp
  refine step_memory h.chain hs (fun x pc he => ?_) (fun c pc he => ?_)
  · subst he
    exact ⟨h.append x pc hl,fun o ho => h.unpublished hl (owns_one ho)⟩
  · subst he
    exact h.reader c pc hl

theorem Inv.locked (h : Inv s (xs ++ l :: ys)) (hs : Act s l s' l') : Locked s s' l l' := by
  have hl : l ∈ xs ++ l :: ys := by simp
  cases hs with
  | append ha => exact append_locked ha fun hh => h.logLocked hl hh
  | newCursor ha => exact new_locked ha fun hh => h.logLocked hl hh
  | @cursor c pc pc' s' ha =>
    obtain ⟨hc,-⟩ := h.reader _ _ hl
    refine cursor_locked hc ha (fun hh => h.logLocked hl hh) fun hh => h.curLocked hl hc ?_
    simp [holds,hh]
  | close => exact .keep rfl rfl rfl rfl rfl fun _ => rfl

-- A reader that is not inside the cursor's lock yet finds it free.
theorem outside_free {pc pc' : CursorPc T} (hs : CursorAct s c pc s' pc') (hp : pc.inside = false) :
    (s.cursor c).mx = false := by
  cases hs <;> first | assumption | cases hp

theorem inside_of_ne {pc pc' : CursorPc T} (hs : CursorAct s c pc s' pc') (hp : ∀ op, pc ≠ .lock op) :
    pc.inside = true := by
  cases hs <;> first | rfl | exact absurd rfl (hp _)

theorem Inv.turned (h : Inv s (xs ++ l :: ys)) {pc pc' : CursorPc T} (hl : l = .cursor c pc)
    (hs : CursorAct s c pc s' pc') : Turned s (s.cursor c) (s'.cursor c) pc' := by
  have hmem : .cursor c pc ∈ xs ++ l :: ys := by simp [hl]
  obtain ⟨hc,hk⟩ := h.reader c pc hmem
  refine cursor_turned h.chain hc hk (h.sound c hc) (fun hp => h.curLocked hmem hc ?_) (h.idle c hc)
    (h.kept c hc) (fun o => h.claimed) hs
  simp [holds,inside_of_ne hs hp]

-- What a step makes of the cursors there were.
theorem Inv.cursors (h : Inv s (xs ++ l :: ys)) (hs : Act s l s' l') (hc : c < s.cursors.length) :
    s'.cursor c = s.cursor c ∨
    ∃ pc pc', l = .cursor c pc ∧ l' = .cursor c pc' ∧ CursorAct s c pc s' pc' ∧
      Turned s (s.cursor c) (s'.cursor c) pc' := by
  rcases (h.locked hs).other c hc with he | ⟨pc,rfl⟩
  · exact .inl he
  · cases hs with
    | cursor ha => exact .inr ⟨pc,_,rfl,rfl,ha,h.turned rfl ha⟩

theorem Inv.stays (h : Inv s (xs ++ l :: ys)) (hs : Act s l s' l') (hc : c < s.cursors.length) :
    (s'.cursor c).consume = (s.cursor c).consume ∧
    ((s'.cursor c).chunk.isSome = true → (s.cursor c).chunk.isSome = true) := by
  rcases h.cursors hs hc with he | ⟨pc,pc',-,-,-,ht⟩
  · rw [he]
    exact ⟨rfl,id⟩
  · exact ⟨ht.consume,ht.chunk⟩

theorem Kept.step (hk : Kept s p) (hmem : Memory s s' l l') (hle : p ≤ f)
    (hlt : ∀ o, s.published o = true → o < s.claims.length)
    (hn : ∀ o, s.published o = true → owns o l ≠ 1)
    (hf : ∀ o, Clears s s' l o → o < f) : Kept s' f := by
  intro o ho hp
  rcases hmem.fresh o hp with hold | hnew
  · have hslot := hk o (Nat.le_trans hle ho) hold
    rcases hmem.slot o with he | he | he
    · rw [he,hslot]
      have hlo := hlt o hold
      rw [List.getElem?_eq_getElem hlo]
      exact (hmem.ext.claim (List.getElem?_eq_getElem hlo)).symm
    · exact absurd he (hn o hold)
    · exact absurd (hf o he) (Nat.not_lt_of_le ho)
  · exact hnew

theorem Inv.kept_step (h : Inv s (xs ++ l :: ys)) (hs : Act s l s' l') (hk : Kept s p)
    (hle : p ≤ f) (hf : ∀ o, Clears s s' l o → o < f) : Kept s' f := by
  have hl : l ∈ xs ++ l :: ys := by simp
  refine hk.step (h.memory hs) hle (fun o ho => ?_) (fun o ho hown => ?_) hf
  · rw [← h.chain.head]
    exact h.claimed ho
  · rw [h.unpublished hl hown] at ho
    cases ho

theorem knows_plain {pc : AppendPc} {b : Bool} (h : plain pc = some b) : KnowsAppend s x pc := by
  cases pc <;> trivial

theorem Inv.append_own {pc pc' : AppendPc} (h : Inv s (xs ++ l :: ys)) (hl : l = .append x pc)
    (hs : AppendAct s x pc s' pc') : KnowsAppend s' x pc' := by
  have hk := h.append x pc (by simp [hl])
  cases hs with
  | plain h1 h2 => exact knows_plain h2
  | lock => trivial
  | loadOpen =>
    intro hn
    rw [h.open_] at hn
    exact h.tail fun ho => hn (by rw [ho]; rfl)
  | refuse => exact knows_plain (plain_finish _ _)
  | accept hn => exact ⟨hn,hk hn⟩
  | loadTail ht => exact ⟨hk.1,h.chain.tail _ ht⟩
  | claim =>
    refine ⟨hk.1,?_,hk.2.1,hk.2.2⟩
    simp [h.chain.head]
  | found ha =>
    rw [h.chain.end_ hk.2.2.1] at ha
    exact ⟨hk,by rw [Nat.mul_add,Nat.mul_one]; exact ha⟩
  | past ha =>
    rw [h.chain.end_ hk.2.2.1] at ha
    exact ⟨hk,by rw [Nat.mul_add,Nat.mul_one]; exact ha⟩
  | hop ha hn =>
    obtain ⟨-,hlen,-,hnext⟩ := h.chain.made _ hk.2.2.1
    rw [h.chain.end_ hk.2.2.1] at ha
    rw [hn] at hnext
    split at hnext
    · cases hnext
      exact ⟨hk,‹_›,by rw [Nat.mul_add,Nat.mul_one]; exact ha⟩
    · cases hnext
  | linking =>
    exact ⟨⟨hk.1.1,hk.1.2.1,Nat.lt_of_lt_of_eq hk.1.2.2.1 List.length_set.symm,hk.1.2.2.2⟩,hk.2⟩
  | spun => exact hk
  | spin => exact hk.1
  | grow hn =>
    refine ⟨hk.1.1,hk.1.2.1,?_,hk.1.2.2.2⟩
    rw [length_linkNext]
    exact Nat.lt_succ_of_lt hk.1.2.2.1
  | grown => exact hk.1
  | advance => exact ⟨hk.1.1,hk.1.2.1,hk.2.1,hk.2.2⟩
  | write =>
    obtain ⟨hi,hpos⟩ := hk.1.slot h.chain hk.2
    refine ⟨⟨hk.1.1,hk.1.2.1,Nat.lt_of_lt_of_eq hk.1.2.2.1 List.length_set.symm,hk.1.2.2.2⟩,hk.2,?_⟩
    rw [slot_setData h.chain hk.1.2.2.1 hi,if_pos hpos.symm]
  | publish => exact knows_plain (plain_finish _ _)
  | unlock => trivial

theorem may_of_mayOpen {b : Bool} (h : mayOpen s b = true) : May s b := by
  cases b with
  | true => exact ⟨fun _ => by simpa [mayOpen] using h,fun hb => by cases hb⟩
  | false =>
    refine ⟨(fun hb => by cases hb),fun _ c hc => ?_⟩
    simp only [mayOpen,Bool.false_eq_true,if_false,List.all_eq_true,Bool.not_eq_true'] at h
    exact h c hc

theorem Inv.new_own {pc pc' : NewPc} (h : Inv s (xs ++ l :: ys)) (hl : l = .newCursor pc)
    (hs : NewAct s pc s' pc') : KnowsNew s' pc' := by
  have hk := h.new pc (by simp [hl])
  cases hs with
  | lock hm hb => exact may_of_mayOpen hb
  | first => exact ⟨hk,rfl⟩
  | ensured ht => exact ⟨hk,ht⟩
  | seekTail ht => exact ⟨hk.1,h.chain.tail _ ht⟩
  | seekHead =>
    refine ⟨hk.1,hk.2.1,hk.2.2,Nat.le_refl _,fun o ho hp => ?_⟩
    exact absurd (h.claimed hp) (Nat.not_lt_of_le ho)
  | register => trivial
  | unlock => trivial

-- How a step changes the open cursors.
theorem opened_cases (hs : Act s l s' l') :
    (s'.opened = s.opened ∧ s'.nOpen = s.nOpen ∧ s'.cursors.length = s.cursors.length) ∨
    (∃ b t p, l = .newCursor (.register b t p) ∧ l' = .newCursor (.unlock s.cursors.length) ∧
      s' = s.register b t p) ∨
    ∃ c, l = .cursor c .remove ∧ l' = .cursor c .unlockLog ∧ s' = s.remove c := by
  cases hs with
  | append ha => cases ha <;> exact .inl ⟨rfl,rfl,rfl⟩
  | newCursor ha =>
    cases ha with
    | @register b t p => exact .inr (.inl ⟨b,t,p,rfl,rfl,rfl⟩)
    | _ => exact .inl ⟨rfl,rfl,rfl⟩
  | @cursor c pc pc' s' ha =>
    cases ha with
    | remove => exact .inr (.inr ⟨c,rfl,rfl,rfl⟩)
    | take hc =>
      split
      · exact .inl ⟨rfl,rfl,List.length_set⟩
      · exact .inl ⟨rfl,rfl,List.length_set⟩
    | _ => exact .inl ⟨rfl,rfl,by first | rfl | exact List.length_set⟩
  | close => exact .inl ⟨rfl,rfl,rfl⟩

-- Only the one open cursor can be a consuming one.
theorem Inv.clears (h : Inv s (xs ++ l :: ys)) (hc : Clears s s' l o) :
    ∃ c ∈ s.opened, (s.cursor c).consume = true ∧ (∀ d ∈ s.opened, d = c) ∧
      (s'.cursor c).front = o + 1 := by
  obtain ⟨c,pc,hl,hcons,hchunk,-,-,hfront⟩ := hc
  obtain ⟨hlen,-⟩ := h.reader c pc (by simp [hl])
  have hmem := h.listed c hlen hchunk
  exact ⟨c,hmem,hcons,h.sole c hmem hcons,hfront⟩

theorem Inv.new_other {pc : NewPc} (h : Inv s (xs ++ l :: ys)) (hs : Act s l s' l')
    (hu : .newCursor pc ∈ xs ++ ys) : KnowsNew s' pc := by
  have hk := h.new pc (mem_of_other hu)
  have hmem := h.memory hs
  by_cases hp : pc.locked = true
  · have hlog : holdsLog l = false := by
      refine one_eq_zero (eq_zero_of_other (f := fun t => one (holdsLog t)) ?_ hu ?_)
      · rw [← h.log]
        exact one_le _
      · simp [holdsLog,hp]
    have hop : s'.opened = s.opened := by
      rcases opened_cases hs with ⟨h1,-⟩ | ⟨b,t,p,rfl,-⟩ | ⟨c,rfl,-⟩
      · exact h1
      · cases hlog
      · cases hlog
    have hmay : ∀ {b}, May s b → May s' b := by
      intro b hb
      refine ⟨fun hb' => hop.trans (hb.1 hb'),fun hb' c hc => ?_⟩
      rw [hop] at hc
      rw [(h.stays hs (h.opened c hc)).1]
      exact hb.2 hb' c hc
    cases pc with
    | ensure b => exact hmay hk
    | seekTail b => exact ⟨hmay hk.1,hmem.ext.tail hk.2⟩
    | seekHead b t =>
      exact ⟨hmay hk.1,Nat.lt_of_lt_of_le hk.2.1 hmem.ext.length,Nat.le_trans hk.2.2 hmem.ext.head⟩
    | register b t p =>
      obtain ⟨h1,h2,h3,h4,h5⟩ := hk
      refine ⟨hmay h1,Nat.lt_of_lt_of_le h2 hmem.ext.length,h3,Nat.le_trans h4 hmem.ext.head,
        h.kept_step hs h5 (Nat.le_refl _) fun o hc => ?_⟩
      obtain ⟨c,hc,hcons,-,-⟩ := h.clears hc
      cases b with
      | true =>
        rw [h1.1 rfl] at hc
        cases hc
      | false =>
        rw [h1.2 rfl c hc] at hcons
        cases hcons
    | _ => trivial
  · cases pc <;> trivial

theorem Inv.append_other {pc : AppendPc} (h : Inv s (xs ++ l :: ys)) (hs : Act s l s' l')
    (hu : .append x pc ∈ xs ++ ys) : KnowsAppend s' x pc := by
  have hmem := h.memory hs
  refine (h.append x pc (mem_of_other hu)).mono hmem.ext fun a t hp => ?_
  have hown : owns a.offset (.append x pc : Thread T) = 1 := owns_one (by rw [hp]; rfl)
  rcases hmem.slot a.offset with he | he | ⟨c,pc',-,-,-,-,hpub,-⟩
  · exact he
  · have h1 := h.owned a.offset
    rw [total_split] at h1
    have h2 := le_total (f := owns a.offset) hu
    have h3 := claimedAt_le s a.offset
    omega
  · rw [h.unpublished (mem_of_other hu) hown] at hpub
    cases hpub

theorem Inv.reader_other {pc : CursorPc T} (h : Inv s (xs ++ l :: ys)) (hs : Act s l s' l')
    (hu : .cursor c pc ∈ xs ++ ys) :
    c < s'.cursors.length ∧ KnowsCursor s' (s'.cursor c) pc := by
  have hmem := h.memory hs
  obtain ⟨hc,hk⟩ := h.reader c pc (mem_of_other hu)
  refine ⟨Nat.lt_of_lt_of_le hc (h.locked hs).length,?_⟩
  by_cases hp : pc.inside = true
  · have hm := h.curLocked (mem_of_other hu) hc (by simp [holds,hp])
    rcases h.cursors hs hc with he | ⟨pcl,pcl',rfl,-,ha,-⟩
    · rw [he]
      exact hk.mono hmem.ext
    · have hout : holds c (.cursor c pcl : Thread T) = false := by
        refine one_eq_zero (eq_zero_of_other (f := fun t => one (holds c t)) ?_ hu ?_)
        · rw [← h.cursor c hc]
          exact one_le _
        · simp [holds,hp]
      rw [outside_free ha (by simpa [holds] using hout)] at hm
      cases hm
  · cases pc <;> trivial

theorem cursor_fresh (s : Log T) (b : Bool) (t p : ℕ) :
    (s.register b t p).cursor s.cursors.length =
      ⟨false,some t,p - (s.chunk t).base,p,b,p,p,[],[]⟩ := by
  rw [Log.cursor,Log.register,getD_push,if_pos rfl]

-- A cursor of the next state is one there was or the one a NewCursor just made.
theorem made (hs : Act s l s' l') (hc : c < s'.cursors.length) :
    c < s.cursors.length ∨ ∃ b t p, l = .newCursor (.register b t p) ∧
      c = s.cursors.length ∧ s' = s.register b t p ∧
      s'.cursor c = ⟨false,some t,p - (s.chunk t).base,p,b,p,p,[],[]⟩ := by
  rcases opened_cases hs with ⟨-,-,he⟩ | ⟨b,t,p,hl,-,rfl⟩ | ⟨d,-,-,rfl⟩
  · exact .inl (Nat.lt_of_lt_of_eq hc he)
  · by_cases hlt : c < s.cursors.length
    · exact .inl hlt
    · have hlen : (s.register b t p).cursors.length = s.cursors.length + 1 := by
        simp [Log.register]
      obtain rfl : c = s.cursors.length := by omega
      exact .inr ⟨b,t,p,hl,rfl,rfl,cursor_fresh s b t p⟩
  · exact .inl hc

theorem Inv.reader_own {pc : CursorPc T} (h : Inv s (xs ++ l :: ys)) (hs : Act s l s' l')
    (hl : l' = .cursor c pc) : c < s'.cursors.length ∧ KnowsCursor s' (s'.cursor c) pc := by
  subst hl
  cases hs with
  | @cursor d pc₀ pc' s' ha =>
    obtain ⟨hc,-⟩ := h.reader c pc₀ (by simp)
    exact ⟨Nat.lt_of_lt_of_le hc (h.locked (.cursor ha)).length,
      (h.turned rfl ha).knows.mono (h.memory (.cursor ha)).ext⟩

theorem Inv.own_append {pc : AppendPc} (h : Inv s (xs ++ l :: ys)) (hs : Act s l s' l')
    (hl : l' = .append x pc) : KnowsAppend s' x pc := by
  subst hl
  cases hs with
  | append ha => exact h.append_own rfl ha

theorem Inv.own_new {pc : NewPc} (h : Inv s (xs ++ l :: ys)) (hs : Act s l s' l')
    (hl : l' = .newCursor pc) : KnowsNew s' pc := by
  subst hl
  cases hs with
  | newCursor ha => exact h.new_own rfl ha

theorem Inv.sole_step (h : Inv s (xs ++ l :: ys)) (hs : Act s l s' l') :
    ∀ c ∈ s'.opened, (s'.cursor c).consume = true → ∀ d ∈ s'.opened, d = c := by
  intro c hc hcons d hd
  rcases opened_cases hs with ⟨he,-,-⟩ | ⟨b,t,p,rfl,-,rfl⟩ | ⟨e,-,-,rfl⟩
  · rw [he] at hc hd
    rw [(h.stays hs (h.opened c hc)).1] at hcons
    exact h.sole c hc hcons d hd
  · obtain ⟨hmay,-⟩ := h.new _ (by simp : Thread.newCursor (.register b t p) ∈ xs ++ .newCursor (.register b t p) :: ys)
    rcases List.mem_append.mp hc with hold | hnew
    · rw [cursor_register _ _ _ (h.opened c hold)] at hcons
      cases b with
      | true =>
        rw [hmay.1 rfl] at hold
        cases hold
      | false =>
        rw [hmay.2 rfl c hold] at hcons
        cases hcons
    · rw [List.mem_singleton.mp hnew,cursor_fresh] at hcons
      have hb : b = true := hcons
      rcases List.mem_append.mp hd with hold | hd
      · rw [hmay.1 hb] at hold
        cases hold
      · rw [List.mem_singleton.mp hnew,List.mem_singleton.mp hd]
  · exact h.sole c (List.mem_filter.mp hc).1 hcons d (List.mem_filter.mp hd).1

theorem Inv.listed_step (h : Inv s (xs ++ l :: ys)) (hs : Act s l s' l') (hc : c < s'.cursors.length)
    (hchunk : (s'.cursor c).chunk.isSome = true) : c ∈ s'.opened := by
  rcases made hs hc with hlt | ⟨b,t,p,-,rfl,rfl,-⟩
  · have hold := h.listed c hlt ((h.stays hs hlt).2 hchunk)
    rcases opened_cases hs with ⟨he,-,-⟩ | ⟨b,t,p,-,-,rfl⟩ | ⟨e,rfl,-,rfl⟩
    · rw [he]
      exact hold
    · exact List.mem_append_left _ hold
    · refine List.mem_filter.mpr ⟨hold,?_⟩
      have hnone : (s.cursor e).chunk = none := (h.reader e .remove (by simp)).2
      simp only [ne_eq,decide_not,Bool.not_eq_true',decide_eq_false_iff_not]
      rintro rfl
      have hchunk : (s.cursor c).chunk.isSome = true := hchunk
      rw [hnone] at hchunk
      cases hchunk
  · exact List.mem_append_right _ List.mem_cons_self

theorem inv_act (h : Inv s (xs ++ l :: ys)) (hs : Act s l s' l') : Inv s' (xs ++ l' :: ys) := by
  have hmem := h.memory hs
  have hlock := h.locked hs
  have hl : l ∈ xs ++ l :: ys := by simp
  refine ⟨hmem.chain,?_,?_,fun o => ?_,?_,fun c hc => ?_,fun x pc hu => ?_,fun pc hu => ?_,
    fun c pc hu => ?_,fun c hc => ?_,fun c hc hm => ?_,fun c hc hch => ?_,fun c hc => ?_,
    fun c hc => h.listed_step hs hc,h.sole_step hs⟩
  · rcases opened_cases hs with ⟨h1,h2,-⟩ | ⟨b,t,p,-,-,rfl⟩ | ⟨c,-,-,rfl⟩
    · rw [h1,h2,h.open_]
    · simp [Log.register,h.open_]
    · rfl
  · rcases opened_cases hs with ⟨h1,-,-⟩ | ⟨b,t,p,rfl,-,rfl⟩ | ⟨c,-,-,rfl⟩
    · rw [h1]
      exact fun ho => hmem.ext.tail (h.tail ho)
    · intro _
      obtain ⟨-,hlt,-⟩ := h.new _ hl
      cases ht : s.tail with
      | none =>
        rw [(h.chain.empty ht).1] at hlt
        exact absurd hlt (Nat.not_lt_zero _)
      | some u => exact hmem.ext.tail (by rw [ht]; rfl)
    · intro ho
      refine hmem.ext.tail (h.tail fun he => ho ?_)
      simp [Log.remove,he]
  · have h1 := h.owned o
    have h2 := hmem.moved o
    rw [total_split] at h1 ⊢
    omega
  · have h1 := h.log
    have h2 := hlock.log
    rw [total_split] at h1 ⊢
    omega
  · rcases made hs hc with hlt | ⟨b,t,p,rfl,rfl,rfl,hcur⟩
    · have h1 := h.cursor c hlt
      have h2 := hlock.cursor c hlt
      rw [total_split] at h1 ⊢
      omega
    · have hl' : holds s.cursors.length l' = false := by
        cases hs
        rfl
      rw [hcur,total_split,hl']
      refine (total_eq_zero.mpr fun u hu => ?_).symm
      cases u with
      | cursor d pc =>
        have := (h.reader d pc (mem_of_other hu)).1
        simp [holds,Nat.ne_of_lt this]
      | _ => rfl
  · rcases mem_split hu with hu | hu
    · exact h.append_other hs hu
    · exact h.own_append hs hu.symm
  · rcases mem_split hu with hu | hu
    · exact h.new_other hs hu
    · exact h.own_new hs hu.symm
  · rcases mem_split hu with hu | hu
    · exact h.reader_other hs hu
    · exact h.reader_own hs hu.symm
  · rcases made hs hc with hlt | ⟨b,t,p,rfl,rfl,rfl,hcur⟩
    · rcases h.cursors hs hlt with he | ⟨pc,pc',-,-,-,ht⟩
      · rw [he]
        exact (h.sound c hlt).mono hmem.ext
      · exact ht.sound.mono hmem.ext
    · obtain ⟨-,-,-,hp,-⟩ := h.new _ hl
      rw [hcur]
      exact ⟨hp,rfl,(fun y hy => by cases hy),fun _ t ht => by cases ht⟩
  · rcases made hs hc with hlt | ⟨b,t,p,rfl,rfl,rfl,hcur⟩
    · rcases h.cursors hs hlt with he | ⟨pc,pc',-,-,-,ht⟩
      · rw [he] at hm ⊢
        exact (h.idle c hlt hm).mono hmem.ext
      · exact (ht.idle hm).mono hmem.ext
    · obtain ⟨-,hlt,hle,-,-⟩ := h.new _ hl
      rw [hcur]
      refine .inr ⟨⟨t,rfl,hlt,?_⟩,rfl⟩
      rw [(h.chain.made t hlt).1]
      simp only
      omega
  · rcases made hs hc with hlt | ⟨b,t,p,rfl,rfl,rfl,hcur⟩
    · have hold := (h.stays hs hlt).2 hch
      have hclear : ∀ o, Clears s s' l o → o < (s'.cursor c).front := by
        intro o ho
        obtain ⟨e,-,-,hone,hfront⟩ := h.clears ho
        rw [hone c (h.listed c hlt hold),hfront]
        exact Nat.lt_succ_self o
      rcases h.cursors hs hlt with he | ⟨pc,pc',-,-,-,ht⟩
      · rw [he] at hclear ⊢
        exact h.kept_step hs (h.kept c hlt hold) (Nat.le_refl _) hclear
      · exact h.kept_step hs (h.kept c hlt hold) ht.front hclear
    · obtain ⟨-,-,-,-,hk⟩ := h.new _ hl
      rw [hcur]
      exact hk
  · rcases opened_cases hs with ⟨h1,-,h3⟩ | ⟨b,t,p,-,-,rfl⟩ | ⟨e,-,-,rfl⟩
    · rw [h3]
      rw [h1] at hc
      exact h.opened c hc
    · have hlen : (s.register b t p).cursors.length = s.cursors.length + 1 := by
        simp [Log.register]
      rw [hlen]
      rcases List.mem_append.mp hc with hc | hc
      · exact Nat.lt_succ_of_lt (h.opened c hc)
      · rw [List.mem_singleton.mp hc]
        exact Nat.lt_succ_self _
    · exact h.opened c (List.mem_filter.mp hc).1

-- A goroutine that is not in the middle of a call on the log.
def Outside (s : Log T) : Thread T → Prop
  | .append _ .loadLimit | .append _ (.returned _) | .newCursor (.lock _) | .newCursor (.returned _)
  | .close _ => True
  | .cursor c (.lock _) | .cursor c (.returned _) => c < s.cursors.length
  | _ => False

theorem outside_quiet (h : Outside s l) : (∀ o, owns o l = 0) ∧ holdsLog l = false ∧
    (∀ c, holds c l = false) ∧ (∀ x pc, l = .append x pc → KnowsAppend s x pc) ∧
    (∀ pc, l = .newCursor pc → KnowsNew s pc) ∧
    ∀ c pc, l = .cursor c pc → c < s.cursors.length ∧ KnowsCursor s (s.cursor c) pc := by
  unfold Outside at h
  split at h
  · exact ⟨fun _ => rfl,rfl,fun _ => rfl,(fun _ _ he => by cases he; trivial),
      (fun _ he => by cases he),fun _ _ he => by cases he⟩
  · exact ⟨fun _ => rfl,rfl,fun _ => rfl,(fun _ _ he => by cases he; trivial),
      (fun _ he => by cases he),fun _ _ he => by cases he⟩
  · exact ⟨fun _ => rfl,rfl,fun _ => rfl,(fun _ _ he => by cases he),
      (fun _ he => by cases he; trivial),fun _ _ he => by cases he⟩
  · exact ⟨fun _ => rfl,rfl,fun _ => rfl,(fun _ _ he => by cases he),
      (fun _ he => by cases he; trivial),fun _ _ he => by cases he⟩
  · exact ⟨fun _ => rfl,rfl,fun _ => rfl,(fun _ _ he => by cases he),(fun _ he => by cases he),
      fun _ _ he => by cases he⟩
  · refine ⟨fun _ => rfl,rfl,(fun _ => by simp [holds,CursorPc.inside]),(fun _ _ he => by cases he),
      (fun _ he => by cases he),fun _ _ he => ?_⟩
    cases he
    exact ⟨h,trivial⟩
  · refine ⟨fun _ => rfl,rfl,(fun _ => by simp [holds,CursorPc.inside]),(fun _ _ he => by cases he),
      (fun _ he => by cases he),fun _ _ he => ?_⟩
    cases he
    exact ⟨h,trivial⟩
  · exact h.elim

theorem entry_outside (he : entry s l = true) : Outside s l := by
  unfold entry at he
  split at he
  · trivial
  · trivial
  · trivial
  · simpa [Outside] using he
  · cases he

theorem inv_call (h : Inv s ts) (ho : Outside s l) : Inv s (ts ++ [l]) := by
  obtain ⟨h1,h2,h3,h4,h5,h6⟩ := outside_quiet ho
  refine ⟨h.chain,h.open_,h.tail,fun o => ?_,?_,fun c hc => ?_,fun x pc hu => ?_,fun pc hu => ?_,
    fun c pc hu => ?_,h.sound,h.idle,h.kept,h.opened,h.listed,h.sole⟩
  · rw [total_call,h1]
    exact h.owned o
  · rw [total_call,h2]
    exact h.log
  · rw [total_call,h3]
    exact h.cursor c hc
  · rcases List.mem_append.mp hu with hu | hu
    · exact h.append x pc hu
    · exact h4 x pc (List.mem_singleton.mp hu).symm
  · rcases List.mem_append.mp hu with hu | hu
    · exact h.new pc hu
    · exact h5 pc (List.mem_singleton.mp hu).symm
  · rcases List.mem_append.mp hu with hu | hu
    · exact h.reader c pc hu
    · exact h6 c pc (List.mem_singleton.mp hu).symm

theorem inv_new (limit : ℕ) : Inv (newBoundedLog limit : Log T) [] := by
  have hnone : ∀ c, ¬c < (newBoundedLog limit : Log T).cursors.length := Nat.not_lt_zero
  refine ⟨chain_new limit,rfl,(fun h => absurd rfl h),fun o => ?_,rfl,fun c hc => absurd hc (hnone c),
    (fun _ _ h => by cases h),(fun _ h => by cases h),(fun _ _ h => by cases h),
    fun c hc => absurd hc (hnone c),fun c hc => absurd hc (hnone c),fun c hc => absurd hc (hnone c),
    (fun _ h => by cases h),(fun c hc => absurd hc (hnone c)),fun _ h => by cases h⟩
  have hp : (newBoundedLog limit : Log T).published o = false := by
    rw [Log.published,chunk_beyond _ (Nat.zero_le _),newChunk,List.getD_eq_getElem?_getD]
    cases h : (List.replicate chunkCapacity false)[o % chunkCapacity]? with
    | none => rfl
    | some v => exact List.eq_of_mem_replicate (List.mem_of_getElem? h)
  rw [pub,hp,claimedAt]
  simp [newBoundedLog]

theorem inv_reach {limit : ℕ} {w : World (Log T) (Thread T)}
    (h : (program T).Reach always (start (newBoundedLog limit)) w) : Inv w.shared w.threads := by
  refine Program.reach_invariant (inv_new limit) (fun _ _ _ h _ he => inv_call h (entry_outside he))
    (fun s xs l ys u s' l' new h _ hs => ?_) h
  obtain ⟨ha,rfl⟩ := step_act hs
  rw [List.append_nil]
  exact inv_act h ha

theorem Follows.items {turns : List (Turn T)} (h : Follows s o turns p)
    (hi : ∀ t ∈ turns, ∃ y, t = .item y) :
    turns = ((s.claims.drop o).take (p - o)).map fun x => .item (some x) := by
  induction turns generalizing o with
  | nil =>
    have h : o = p := h
    rw [h,Nat.sub_self]
    rfl
  | cons t turns ih =>
    obtain ⟨y,rfl⟩ := hi t List.mem_cons_self
    obtain ⟨⟨-,x,hx,rfl⟩,hrest⟩ := h
    obtain ⟨hlt,hx⟩ := List.getElem?_eq_some_iff.mp hx
    have hle := hrest.le
    have hsub : p - o = (p - (o + 1)) + 1 := by omega
    rw [List.drop_eq_getElem_cons hlt,hsub,List.take_succ_cons,List.map_cons,hx,
      ← ih hrest fun t ht => hi t (List.mem_cons_of_mem _ ht)]

-- The log as one sequence of claimed items, and what its readers have made of it.
structure Fifo (s : Log T) (ts : List (Thread T)) : Prop where
  head : s.head = s.claims.length
  slots : ∀ o, pub s o + total (owns o) ts = claimedAt s o
  cursor : ∀ c < s.cursors.length, (s.cursor c).offset ≤ s.head ∧
    Follows s (s.cursor c).start (s.cursor c).history (s.cursor c).offset
  consumer : ∀ c < s.cursors.length, (s.cursor c).consume = true → (s.cursor c).history =
    ((s.claims.drop (s.cursor c).start).take ((s.cursor c).offset - (s.cursor c).start)).map
      fun x => .item (some x)
  shown : ∀ c < s.cursors.length, ∀ y ∈ (s.cursor c).shown, Shows s y.1 y.2 (y.1 + y.2.length)

theorem cursors_follow_claims {limit : ℕ} {w : World (Log T) (Thread T)}
    (h : (program T).Reach always (start (newBoundedLog limit)) w) : Fifo w.shared w.threads := by
  have hi := inv_reach h
  refine ⟨hi.chain.head,hi.owned,fun c hc => ⟨(hi.sound c hc).offset,(hi.sound c hc).history⟩,
    fun c hc hcons => ?_,fun c hc => (hi.sound c hc).shown⟩
  exact (hi.sound c hc).history.items ((hi.sound c hc).consume hcons)

-- A consumer is opened, 7 is appended and dequeued.
def dequeueRun : List (Event (Thread ℕ) Unit) :=
  .call (.newCursor (.lock true)) :: (List.replicate 6 (.act 0 ()) : Events (Thread ℕ) Unit) ++
  .call (.append 7 .loadLimit) :: (List.replicate 8 (.act 1 ()) : Events (Thread ℕ) Unit) ++
  .call (.cursor 0 (.lock .dequeue)) :: (List.replicate 5 (.act 2 ()) : Events (Thread ℕ) Unit)

def handedOut : List (Turn T) → List (Option T)
  | .item x :: turns => x :: handedOut turns
  | _ => []

theorem cursors_follow_claims_dequeue :
    ∃ w, (program ℕ).Reach always (start newLog) w ∧ w.shared.claims = [7] ∧
      handedOut (w.shared.cursor 0).history = [some 7] ∧ Fifo w.shared w.threads := by
  obtain ⟨w,hr,hp⟩ := Program.exists_reach_of_run (program ℕ) always (start newLog) dequeueRun
    (fun w => w.shared.claims = [7] && handedOut (w.shared.cursor 0).history = [some 7])
    (by decide +kernel)
  simp only [Bool.and_eq_true,decide_eq_true_eq] at hp
  exact ⟨w,hr,hp.1,hp.2,cursors_follow_claims hr⟩

end Varmq.Topics
