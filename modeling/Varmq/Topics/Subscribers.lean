import Varmq.Topics.Sections

namespace Varmq.Topics.Fanout

open Interleaving

variable {T : Type} {s s' : Topic T} {l l' t : Thread T} {xs ys ts : List (Thread T)} {c k : ℕ}

-- What a goroutine is doing on the log.
def proj : Thread T → Topics.Thread T
  | .publish p =>
      match p.pc with
      | .append pc => .append p.data pc
      | _ => .close true
  | .subscribe _ (.new pc) => .newCursor pc
  | .subscribe _ (.inert c pc) | .unsubscribe _ _ (.close c pc) | .purge c pc | .read c pc =>
      .cursor c pc
  | _ => .close true

def writes : Thread T → Bool
  | .subscribe _ .lock | .subscribe _ (.returned _) => false
  | .subscribe _ _ => true
  | .unsubscribe _ _ (.close _ _) | .unsubscribe _ _ .delete | .unsubscribe _ _ .unlock => true
  | .close .close | .close (.unlock _) => true
  | _ => false

def reads : Thread T → Bool
  | .publish p =>
      match p.pc with
      | .rlock | .returned _ => false
      | _ => true
  | _ => false

@[simp] theorem proj_start (subs : List ℕ) : proj (start subs : Thread T) = .close true := by
  cases subs <;> rfl

@[simp] theorem writes_start (subs : List ℕ) : writes (start subs : Thread T) = false := by
  cases subs <;> rfl

@[simp] theorem reads_start (subs : List ℕ) : reads (start subs : Thread T) = false := by
  cases subs <;> rfl

theorem proj_publish {p : Publish T} {pc : AppendPc} (hp : p.pc = .append pc) :
    proj (.publish p) = .append p.data pc := by
  simp [proj,hp]

theorem proj_publish_outside {p : Publish T} (hp : ∀ pc, p.pc ≠ .append pc) :
    proj (.publish p) = .close true := by
  cases hpc : p.pc with
  | append pc => exact absurd hpc (hp pc)
  | _ => simp [proj,hpc]

-- Either a step of the log's own or none of the log's business.
def Logged (s : Topic T) (l : Thread T) (s' : Topic T) (l' : Thread T) : Prop :=
  Topics.Act s.log (proj l) s'.log (proj l') ∨
    s'.log = s.log ∧ Outside s.log (proj l) ∧ Outside s.log (proj l')

structure Sections (s s' : Topic T) (l l' : Thread T) : Prop where
  writer : one s'.writer + one (writes l) = one s.writer + one (writes l')
  readers : s'.readers + one (reads l) = s.readers + one (reads l')
  apart : (s.writer = true → s.readers = 0) → s'.writer = true → s'.readers = 0

theorem Sections.keep (h1 : s'.writer = s.writer) (h2 : s'.readers = s.readers)
    (hw : writes l' = writes l) (hr : reads l' = reads l) : Sections s s' l l' :=
  ⟨by rw [h1,hw],by rw [h2,hr],fun h hw' => by rw [h2]; exact h (h1 ▸ hw')⟩

theorem Sections.lock (hw : s.writer = false) (hr : s.readers = 0) (h1 : s'.writer = true)
    (h2 : s'.readers = s.readers) (k1 : writes l = false) (k2 : writes l' = true)
    (k3 : reads l' = reads l) : Sections s s' l l' :=
  ⟨by rw [hw,h1,k1,k2]; rfl,by rw [h2,k3],fun _ _ => h2.trans hr⟩

theorem Sections.unlock (hw : s.writer = true) (h1 : s'.writer = false)
    (h2 : s'.readers = s.readers) (k1 : writes l = true) (k2 : writes l' = false)
    (k3 : reads l' = reads l) : Sections s s' l l' :=
  ⟨by rw [hw,h1,k1,k2]; rfl,by rw [h2,k3],fun _ h => by rw [h1] at h; cases h⟩

theorem act_sections (hw : writes l = true → s.writer = true) (hr : reads l = true → 0 < s.readers)
    (hs : Act s l s' l') : Sections s s' l l' := by
  cases hs with
  | rlock hp hfree =>
    refine ⟨rfl,by simp [reads,hp],fun _ h => ?_⟩
    rw [show s.writer = true from h] at hfree
    cases hfree
  | shut hp => exact .keep rfl rfl rfl (by simp [reads,hp])
  | open_ hp => exact .keep rfl rfl rfl (by simp [reads,hp])
  | append hp => exact .keep rfl rfl rfl (by simp [reads,hp])
  | refused hp => exact .keep rfl rfl rfl (by simp [reads,hp])
  | accepted hp => exact .keep rfl rfl rfl (by simp [reads,hp])
  | notify hp => exact .keep rfl rfl rfl (by simp [reads,hp])
  | runlock hp =>
    have := hr (by simp [reads,hp])
    refine ⟨rfl,?_,fun h hw' => ?_⟩
    · simp only [reads,hp,one_true,one_false]
      omega
    · have := h hw'
      simp only
      omega
  | lock h1 h2 => exact .lock h1 h2 rfl rfl rfl rfl rfl
  | subscribed => exact .unlock (hw rfl) rfl rfl rfl rfl rfl
  | unlock h1 h2 => exact .lock h1 h2 rfl rfl rfl rfl rfl
  | left => exact .unlock (hw rfl) rfl rfl rfl rfl rfl
  | lockClose h1 h2 => exact .lock h1 h2 rfl rfl rfl rfl rfl
  | @unlockClose subs =>
    exact .unlock (hw rfl) rfl rfl rfl (writes_start subs) (reads_start subs)
  | _ => exact .keep rfl rfl rfl rfl

-- The control points of a cursor's Close, and those of the other operations.
def closes : CursorPc T → Bool
  | .lock .close | .lockLog | .remove | .unlockLog => true
  | _ => false

-- Where a Close of cursor c is.
def Closes (s : Log T) (c : ℕ) : CursorPc T → Prop
  | .lock op => op = .close
  | .lockLog | .remove => True
  | .unlockLog | .unlock _ | .returned _ => c ∉ s.opened ∧ (s.cursor c).chunk = none
  | _ => False

-- The cursor a subscribe has opened and not handed to a subscription yet.
structure Own (s : Topic T) (c : ℕ) : Prop where
  length : c < s.log.cursors.length
  fresh : c ∉ s.handles.map Subscription.cursor
  start : (s.log.cursor c).start = s.log.head

structure Opened (s : Topic T) (c : ℕ) : Prop where
  own : Own s c
  listed : c ∈ s.log.opened
  chunk : (s.log.cursor c).chunk.isSome = true

def Facts (s : Topic T) : Thread T → Prop
  | .subscribe _ (.new (.register _ _ h)) => h = s.log.head
  | .subscribe _ (.new (.unlock c)) | .subscribe _ (.new (.returned c)) | .subscribe _ (.attach c) =>
      Opened s c
  | .subscribe _ (.inert c pc) => Own s c ∧ Closes s.log c pc
  | .unsubscribe k rest pc => (k < s.handles.length ∧ ∀ i ∈ rest, i < s.handles.length) ∧
      match pc with
      | .close c pc => c = s.cursorOf k ∧ Closes s.log c pc
      | .delete => s.cursorOf k ∉ s.log.opened ∧ (s.log.cursor (s.cursorOf k)).chunk = none
      | _ => True
  | .close (.unlock subs) => ∀ i ∈ subs, i < s.handles.length
  | .purge c pc | .read c pc => c ∈ s.handles.map Subscription.cursor ∧ closes pc = false
  | _ => True

-- The cursor is closed and the subscription is still in t.subs.
def closing (k : ℕ) : Thread T → Bool
  | .unsubscribe i _ (.close _ .unlockLog) | .unsubscribe i _ (.close _ (.unlock _))
  | .unsubscribe i _ (.close _ (.returned _)) | .unsubscribe i _ .delete => i = k
  | _ => false

-- The cursor is opened and belongs to no subscription yet.
def fresh (c : ℕ) : Thread T → Bool
  | .subscribe _ (.new (.unlock d)) | .subscribe _ (.new (.returned d)) | .subscribe _ (.attach d)
  | .subscribe _ (.inert d _) => d = c
  | _ => false

-- The cursor has lost its chunk and is still listed as open.
def removing (c : ℕ) (t : Thread T) : Prop :=
  proj t = .cursor c .lockLog ∨ proj t = .cursor c .remove

structure Fan (s : Topic T) (ts : List (Thread T)) : Prop where
  log : Inv s.log (ts.map proj)
  writer : one s.writer = total (fun t => one (writes t)) ts
  readers : s.readers = total (fun t => one (reads t)) ts
  apart : s.writer = true → s.readers = 0
  owned : ∀ c ∈ s.handles.map Subscription.cursor, c < s.log.cursors.length
  distinct : (s.handles.map Subscription.cursor).Nodup
  facts : ∀ t ∈ ts, Facts s t
  subs : ∀ k ∈ s.subs, k < s.handles.length
  member : ∀ k < s.handles.length, k ∈ s.subs ↔ (s.handle k).ended = none
  listed : ∀ k < s.handles.length, (∀ t ∈ ts, closing k t = false) →
    (s.cursorOf k ∈ s.log.opened ↔ k ∈ s.subs)
  opened : ∀ c ∈ s.log.opened, c ∈ s.handles.map Subscription.cursor ∨ ∃ t ∈ ts, fresh c t = true
  live : ∀ c ∈ s.log.opened, (s.log.cursor c).chunk.isSome = true ∨ ∃ t ∈ ts, removing c t
  ended : ∀ k < s.handles.length, ∀ e, (s.handle k).ended = some e →
    (s.log.cursor (s.cursorOf k)).chunk = none ∧ (s.log.cursor (s.cursorOf k)).offset ≤ e ∧
      e ≤ s.log.head

theorem cursorOf_mem (hk : k < s.handles.length) : s.cursorOf k ∈ s.handles.map Subscription.cursor := by
  rw [Topic.cursorOf,Topic.handle,List.getD_eq_getElem?_getD,List.getElem?_eq_getElem hk]
  exact List.mem_map_of_mem (List.getElem_mem hk)

theorem cursorOf_inj (hd : (s.handles.map Subscription.cursor).Nodup) {i : ℕ}
    (hk : k < s.handles.length) (hi : i < s.handles.length) (h : s.cursorOf k = s.cursorOf i) :
    k = i := by
  have hk' : k < (s.handles.map Subscription.cursor).length := by simpa using hk
  have hi' : i < (s.handles.map Subscription.cursor).length := by simpa using hi
  have he : (s.handles.map Subscription.cursor)[k] = (s.handles.map Subscription.cursor)[i] := by
    simpa [Topic.cursorOf,Topic.handle,List.getD_eq_getElem?_getD,hk,hi] using h
  exact (List.getElem_inj hd).mp he

theorem Fan.writing (h : Fan s ts) (ht : t ∈ ts) (hw : writes t = true) :
    s.writer = true ∧ s.readers = 0 := by
  have hwr : s.writer = true := by
    have h1 := h.writer
    have h2 := le_total (f := fun t => one (writes t)) ht
    simp only [hw,one_true] at h2
    cases hm : s.writer
    · rw [hm,one_false] at h1
      omega
    · rfl
  exact ⟨hwr,h.apart hwr⟩

theorem Fan.reading (h : Fan s ts) (ht : t ∈ ts) (hr : reads t = true) : 0 < s.readers := by
  have h1 := h.readers
  have h2 := le_total (f := fun t => one (reads t)) ht
  simp only [hr,one_true] at h2
  omega

theorem Fan.no_reads (h : Fan s ts) (ht : t ∈ ts) (hw : writes t = true) {u : Thread T} (hu : u ∈ ts) :
    reads u = false := by
  cases hr : reads u
  · rfl
  · have h1 := h.reading hu hr
    have h2 := (h.writing ht hw).2
    omega

-- One goroutine at most writes under t.mx.
theorem Fan.alone (h : Fan s (xs ++ l :: ys)) {u : Thread T} (hu : u ∈ xs ++ ys)
    (hw : writes u = true) : writes l = false := by
  refine one_eq_zero (eq_zero_of_other (f := fun t => one (writes t)) ?_ hu ?_)
  · rw [← h.writer]
    exact one_le _
  · simp [hw]

-- What a goroutine outside the write sections may do on the log.
theorem proj_plain (hf : Facts s l) (hw : writes l = false) : proj l = .close true ∨
    (∃ x pc, proj l = .append x pc) ∨ ∃ c pc, proj l = .cursor c pc ∧ closes pc = false := by
  cases l with
  | publish p =>
    cases hpc : p.pc with
    | append pc => exact .inr (.inl ⟨p.data,pc,proj_publish hpc⟩)
    | _ => exact .inl (by simp [proj,hpc])
  | subscribe w pc => cases pc <;> first | exact .inl rfl | cases hw
  | unsubscribe k rest pc => cases pc <;> first | exact .inl rfl | cases hw
  | close pc => exact .inl rfl
  | purge c pc => exact .inr (.inr ⟨c,pc,rfl,hf.2⟩)
  | read c pc => exact .inr (.inr ⟨c,pc,rfl,hf.2⟩)

-- What the steps leave alone on the log, whoever makes them.
structure Framed (s s' : Log T) : Prop where
  length : s.cursors.length ≤ s'.cursors.length
  onward : ∀ c < s.cursors.length, Onward (s.cursor c) (s'.cursor c)
  chunk : ∀ c < s.cursors.length, (s.cursor c).chunk = none → (s'.cursor c).chunk = none
  head : s.head ≤ s'.head

theorem Framed.refl (s : Log T) : Framed s s :=
  ⟨Nat.le_refl _,fun _ _ => .refl _,fun _ _ => id,Nat.le_refl _⟩

theorem framed_act {log log' : Log T} {as bs : List (Topics.Thread T)} {t t' : Topics.Thread T}
    (h : Inv log (as ++ t :: bs)) (hs : Topics.Act log t log' t') : Framed log log' := by
  refine ⟨(h.locked hs).length,fun c hc => h.onward hs hc,fun c hc hn => ?_,(h.memory hs).ext.head⟩
  cases hn' : (log'.cursor c).chunk with
  | none => rfl
  | some u =>
    have := (h.stays hs hc).2 (by rw [hn']; rfl)
    rw [hn] at this
    cases this

-- Only a Close takes the chunk of a cursor.
theorem chunk_kept {log log' : Log T} {as bs : List (Topics.Thread T)} {t t' : Topics.Thread T}
    (h : Inv log (as ++ t :: bs)) (hs : Topics.Act log t log' t') (hc : c < log.cursors.length)
    (hn : ∀ pc, t = .cursor c pc → closes pc = false) (hch : (log.cursor c).chunk.isSome = true) :
    (log'.cursor c).chunk.isSome = true := by
  have hset : ∀ cur : Cursor T, (log.setCursor c cur).cursor c = cur := by
    intro cur
    rw [cursor_set,if_pos ⟨rfl,hc⟩]
  rcases h.cursors hs hc with he | ⟨pc,pc',rfl,-,ha,-⟩
  · rw [he]
    exact hch
  · have hpc := hn pc rfl
    cases ha with
    | close => cases hpc
    | take hc' =>
      split
      · rw [cursor_set,if_pos ⟨rfl,hc⟩]
        exact hch
      · rw [hset]
        exact hch
    | clear =>
      rw [cursor_set,if_pos ⟨rfl,hc⟩]
      exact hch
    | hop | move | seek =>
      rw [hset]
      rfl
    | enter | gone | advance | shown | unlock =>
      rw [hset]
      exact hch
    | _ => exact hch

theorem Fan.split (h : Fan s (xs ++ l :: ys)) :
    Inv s.log (xs.map proj ++ proj l :: ys.map proj) := by
  have := h.log
  rwa [List.map_append,List.map_cons] at this

-- A step of another goroutine, as a writer under t.mx sees it.
theorem Fan.frozen (h : Fan s (xs ++ l :: ys)) (hw : writes l = false)
    (hs : Topics.Act s.log (proj l) s'.log (proj l')) : s'.log.opened = s.log.opened ∧
      ∀ c < s.log.cursors.length, (s.log.cursor c).chunk.isSome = true →
        (s'.log.cursor c).chunk.isSome = true := by
  have hl := proj_plain (h.facts l (by simp)) hw
  refine ⟨?_,fun c hc hch => chunk_kept h.split hs hc (fun pc hp => ?_) hch⟩
  · rcases opened_cases hs with ⟨h1,-,-⟩ | ⟨b,t,p,h1,-,-⟩ | ⟨c,h1,-,-⟩
    · exact h1
    · rw [h1] at hl
      rcases hl with hl | ⟨x,pc,hl⟩ | ⟨c,pc,hl,-⟩ <;> cases hl
    · rw [h1] at hl
      rcases hl with hl | ⟨x,pc,hl⟩ | ⟨c,pc,hl,hc⟩
      · cases hl
      · cases hl
      · cases hl
        cases hc
  · rw [hp] at hl
    rcases hl with hl | ⟨x,pc,hl⟩ | ⟨c,pc,hl,hc⟩
    · cases hl
    · cases hl
    · cases hl
      exact hc

-- Only a publisher moves the head.
theorem head_same {log : Log T} {r : Topics.Thread T} (h : reads l = false)
    (hs : Topics.Act s.log (proj l) log r) : log.head = s.log.head ∧ log.claims = s.log.claims := by
  rcases head_cases hs with he | ⟨x,b,n,t,hl,-,-⟩
  · exact he
  · cases l with
    | publish p =>
      cases hpc : p.pc with
      | append pc => simp [reads,hpc] at h
      | _ => simp [proj,hpc] at hl
    | subscribe w pc => cases pc <;> cases hl
    | unsubscribe k rest pc => cases pc <;> cases hl
    | _ => cases hl

end Varmq.Topics.Fanout
