import Varmq.Topics.Step

namespace Varmq.Topics

variable {T : Type} {s s' : Log T} {x : T} {c o p : ℕ} {cur : Cursor T}

-- What no step takes back.
structure Ext (s s' : Log T) : Prop where
  length : s.chunks.length ≤ s'.chunks.length
  head : s.head ≤ s'.head
  claims : s.claims <+: s'.claims
  tail : s.tail.isSome = true → s'.tail.isSome = true
  published : ∀ o, s.published o = true → s'.published o = true

theorem Ext.refl (s : Log T) : Ext s s :=
  ⟨Nat.le_refl _,Nat.le_refl _,List.prefix_refl _,id,fun _ => id⟩

theorem Ext.claim (h : Ext s s') (ho : s.claims[o]? = some x) : s'.claims[o]? = some x := by
  obtain ⟨ys,hys⟩ := h.claims
  obtain ⟨hlt,hx⟩ := List.getElem?_eq_some_iff.mp ho
  rw [← hys,List.getElem?_append_left hlt]
  exact ho

-- The item of a claimed and published offset, as a reader sees it.
def Readable (s : Log T) (o : ℕ) (x : Option T) : Prop :=
  s.published o = true ∧ ∃ y, s.claims[o]? = some y ∧ x = some y

theorem Readable.mono (h : Ext s s') {x : Option T} (hr : Readable s o x) : Readable s' o x := by
  obtain ⟨hp,y,hy,hx⟩ := hr
  exact ⟨h.published o hp,y,h.claim hy,hx⟩

-- From o on the turns hand out the items of the next offsets one by one, up to offset p.
def Follows (s : Log T) : ℕ → List (Turn T) → ℕ → Prop
  | o, [], p => o = p
  | o, .item x :: turns, p => Readable s o x ∧ Follows s (o + 1) turns p
  | o, .skip n :: turns, p => Follows s (o + n) turns p

theorem Follows.mono (h : Ext s s') {turns : List (Turn T)} (hf : Follows s o turns p) :
    Follows s' o turns p := by
  induction turns generalizing o with
  | nil => exact hf
  | cons t turns ih =>
    cases t with
    | item x => exact ⟨hf.1.mono h,ih hf.2⟩
    | skip n => exact ih (o := o + n) hf

theorem Follows.append {q : ℕ} {turns more : List (Turn T)} (hf : Follows s o turns q)
    (hm : Follows s q more p) : Follows s o (turns ++ more) p := by
  induction turns generalizing o with
  | nil =>
    have hf : o = q := hf
    rw [hf]
    exact hm
  | cons t turns ih =>
    cases t with
    | item x => exact ⟨hf.1,ih hf.2⟩
    | skip n => exact ih (o := o + n) hf

theorem Follows.le {turns : List (Turn T)} (hf : Follows s o turns p) : o ≤ p := by
  induction turns generalizing o with
  | nil => exact Nat.le_of_eq hf
  | cons t turns ih =>
    cases t with
    | item x => exact Nat.le_of_succ_le (ih hf.2)
    | skip n => exact Nat.le_trans (Nat.le_add_right o n) (ih (o := o + n) hf)

-- The items of the offsets from o on, as far as the list goes.
def Shows (s : Log T) (o : ℕ) (out : List (Option T)) (p : ℕ) : Prop :=
  Follows s o (out.map .item) p

theorem Shows.snoc {out : List (Option T)} {x : Option T} (h : Shows s o out p)
    (hx : Readable s p x) : Shows s o (out ++ [x]) (p + 1) := by
  rw [Shows,List.map_append]
  exact Follows.append h ⟨hx,rfl⟩

-- From f on every published slot still holds its item.
def Kept (s : Log T) (f : ℕ) : Prop := ∀ o, f ≤ o → s.published o = true → s.slot o = s.claims[o]?

def Owned (s : Log T) (x : T) (a : Claim) (t : ℕ) : Prop :=
  a.n ≠ 0 ∧ s.claims[a.offset]? = some x ∧ t < s.chunks.length ∧ chunkCapacity * t ≤ a.offset

theorem Owned.mono {a : Claim} {t : ℕ} (h : Ext s s') (ho : Owned s x a t) : Owned s' x a t :=
  ⟨ho.1,h.claim ho.2.1,Nat.lt_of_lt_of_le ho.2.2.1 h.length,ho.2.2.2⟩

def KnowsAppend (s : Log T) (x : T) : AppendPc → Prop
  | .loadClosed _ n => n ≠ 0 → s.tail.isSome = true
  | .loadTail _ n => n ≠ 0 ∧ s.tail.isSome = true
  | .claim _ n t => n ≠ 0 ∧ t < s.chunks.length ∧ chunkCapacity * t ≤ s.head
  | .next a t _ => Owned s x a t
  | .link a t _ | .grow a t _ => Owned s x a t ∧ chunkCapacity * (t + 1) ≤ a.offset
  | .advance a t nx _ => Owned s x a t ∧ nx < s.chunks.length ∧ chunkCapacity * nx ≤ a.offset
  | .write a t => Owned s x a t ∧ a.offset < chunkCapacity * (t + 1)
  | .publish a t => Owned s x a t ∧ a.offset < chunkCapacity * (t + 1) ∧ s.slot a.offset = some x
  | _ => True

def May (s : Log T) (consume : Bool) : Prop :=
  (consume = true → s.opened = []) ∧
  (consume = false → ∀ c ∈ s.opened, (s.cursor c).consume = false)

def KnowsNew (s : Log T) : NewPc → Prop
  | .ensure b => May s b
  | .seekTail b => May s b ∧ s.tail.isSome = true
  | .seekHead b t => May s b ∧ t < s.chunks.length ∧ chunkCapacity * t ≤ s.head
  | .register b t h => May s b ∧ t < s.chunks.length ∧ chunkCapacity * t ≤ h ∧ h ≤ s.head ∧ Kept s h
  | _ => True

-- The cursor's private position is that of offset o.
def Placed (s : Log T) (cur : Cursor T) (o : ℕ) : Prop :=
  ∃ t, cur.chunk = some t ∧ t < s.chunks.length ∧ chunkCapacity * t + cur.idx = o

def At (s : Log T) (cur : Cursor T) : Prop := Placed s cur cur.offset ∧ cur.front = cur.offset

def Idle (s : Log T) (cur : Cursor T) : Prop := cur.chunk = none ∨ At s cur

structure EachAt (s : Log T) (cur : Cursor T) (b : Bool) (e : Each T) : Prop where
  placed : Placed s cur cur.offset
  chunk : e.chunk < s.chunks.length
  off : chunkCapacity * e.chunk + e.idx = e.off
  stop : e.off ≤ e.stop
  head : e.stop ≤ s.head
  out : Shows s cur.offset e.out e.off
  front : cur.front = if b then e.off else cur.offset
  consume : b = true → cur.consume = true

def KnowsCursor (s : Log T) (cur : Cursor T) : CursorPc T → Prop
  | .lock _ | .returned _ => True
  | .look | .claimed => At s cur
  | .seekTail => At s cur ∧ cur.consume = false
  | .loadEnd b => At s cur ∧ (b = true → cur.consume = true)
  | .take => At s cur ∧ cur.idx < chunkCapacity ∧ s.published cur.offset = true
  | .advance x => Placed s cur (cur.offset + 1) ∧ cur.front = cur.offset + 1 ∧ Readable s cur.offset x
  | .each b e => EachAt s cur b e
  | .visit b e => EachAt s cur b e ∧ e.off < e.stop ∧ e.idx < chunkCapacity ∧ s.published e.off = true
  | .move e => EachAt s cur true e ∧ e.stop ≤ e.off
  | .seekHead t => (At s cur ∧ cur.consume = false) ∧ t < s.chunks.length ∧
      chunkCapacity * t ≤ s.head
  | .seek t h => (At s cur ∧ cur.consume = false) ∧ t < s.chunks.length ∧
      chunkCapacity * t ≤ h ∧ cur.offset ≤ h ∧ h ≤ s.head
  | .lockLog | .remove | .unlockLog => cur.chunk = none
  | .unlock _ => Idle s cur

-- What holds of a cursor whoever works on it.
structure Sound (s : Log T) (cur : Cursor T) : Prop where
  offset : cur.offset ≤ s.head
  history : Follows s cur.start cur.history cur.offset
  shown : ∀ y ∈ cur.shown, Shows s y.1 y.2 (y.1 + y.2.length)
  consume : cur.consume = true → ∀ t ∈ cur.history, ∃ y, t = .item y

theorem Placed.mono (h : Ext s s') (hp : Placed s cur o) : Placed s' cur o := by
  obtain ⟨t,h1,h2,h3⟩ := hp
  exact ⟨t,h1,Nat.lt_of_lt_of_le h2 h.length,h3⟩

theorem At.mono (h : Ext s s') (ha : At s cur) : At s' cur := ⟨ha.1.mono h,ha.2⟩

theorem Idle.mono (h : Ext s s') (hi : Idle s cur) : Idle s' cur := hi.imp_right fun ha => ha.mono h

theorem EachAt.mono (h : Ext s s') {b : Bool} {e : Each T} (he : EachAt s cur b e) :
    EachAt s' cur b e :=
  ⟨he.placed.mono h,Nat.lt_of_lt_of_le he.chunk h.length,he.off,he.stop,
    Nat.le_trans he.head h.head,Follows.mono h he.out,he.front,he.consume⟩

theorem Sound.mono (h : Ext s s') (hs : Sound s cur) : Sound s' cur :=
  ⟨Nat.le_trans hs.offset h.head,hs.history.mono h,fun y hy => Follows.mono h (hs.shown y hy),
    hs.consume⟩

theorem KnowsCursor.mono (h : Ext s s') {pc : CursorPc T} (hk : KnowsCursor s cur pc) :
    KnowsCursor s' cur pc := by
  cases pc with
  | look | claimed => exact At.mono h hk
  | seekTail | loadEnd b => exact ⟨hk.1.mono h,hk.2⟩
  | take => exact ⟨hk.1.mono h,hk.2.1,h.published _ hk.2.2⟩
  | advance x => exact ⟨hk.1.mono h,hk.2.1,hk.2.2.mono h⟩
  | each b e => exact EachAt.mono h hk
  | visit b e => exact ⟨hk.1.mono h,hk.2.1,hk.2.2.1,h.published _ hk.2.2.2⟩
  | move e => exact ⟨hk.1.mono h,hk.2⟩
  | seekHead t =>
    exact ⟨⟨hk.1.1.mono h,hk.1.2⟩,Nat.lt_of_lt_of_le hk.2.1 h.length,Nat.le_trans hk.2.2 h.head⟩
  | seek t p =>
    obtain ⟨⟨h1,h2⟩,h3,h4,h5,h6⟩ := hk
    exact ⟨⟨h1.mono h,h2⟩,Nat.lt_of_lt_of_le h3 h.length,h4,h5,Nat.le_trans h6 h.head⟩
  | unlock r => exact Idle.mono h hk
  | _ => exact hk

theorem KnowsAppend.mono (h : Ext s s') {pc : AppendPc} (hk : KnowsAppend s x pc)
    (hslot : ∀ a t, pc = .publish a t → s'.slot a.offset = s.slot a.offset) :
    KnowsAppend s' x pc := by
  cases pc with
  | loadClosed b n => exact fun hn => h.tail (hk hn)
  | loadTail b n => exact ⟨hk.1,h.tail hk.2⟩
  | claim b n t =>
    exact ⟨hk.1,Nat.lt_of_lt_of_le hk.2.1 h.length,Nat.le_trans hk.2.2 h.head⟩
  | next a t k => exact Owned.mono h hk
  | link a t k | grow a t k => exact ⟨hk.1.mono h,hk.2⟩
  | advance a t nx k => exact ⟨hk.1.mono h,Nat.lt_of_lt_of_le hk.2.1 h.length,hk.2.2⟩
  | write a t => exact ⟨hk.1.mono h,hk.2⟩
  | publish a t => exact ⟨hk.1.mono h,hk.2.1,(hslot a t rfl).trans hk.2.2⟩
  | _ => exact hk

end Varmq.Topics
