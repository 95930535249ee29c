import Varmq.Topics.Cursors

namespace Varmq.Topics

variable {T : Type} {s s' : Log T} {l l' : Thread T} {x : T} {c d o p : ℕ} {cur cur' : Cursor T}

def AppendPc.locked : AppendPc → Bool
  | .check | .full _ _ | .unlock _ => true
  | .loadOpen b | .loadClosed b _ | .loadTail b _ | .claim b _ _ => b
  | .next a _ _ | .link a _ _ | .grow a _ _ | .advance a _ _ _ | .write a _ | .publish a _ => a.locked
  | _ => false

def NewPc.locked : NewPc → Bool
  | .lock _ | .returned _ => false
  | _ => true

def CursorPc.locked : CursorPc T → Bool
  | .remove | .unlockLog => true
  | _ => false

def CursorPc.inside : CursorPc T → Bool
  | .lock _ | .returned _ => false
  | _ => true

def holdsLog : Thread T → Bool
  | .append _ pc => pc.locked
  | .newCursor pc => pc.locked
  | .cursor _ pc => pc.locked
  | .close _ => false

def holds (c : ℕ) : Thread T → Bool
  | .cursor d pc => d = c && pc.inside
  | _ => false

def one (b : Bool) : ℕ := if b then 1 else 0

@[simp] theorem one_true : one true = 1 := rfl

@[simp] theorem one_false : one false = 0 := rfl

theorem locked_plain {pc : AppendPc} {b : Bool} (h : plain pc = some b) : pc.locked = b := by
  cases pc <;> simp_all [plain,AppendPc.locked]

theorem locked_finish (b : Bool) (n : ℕ) : (finish b n).locked = b := by
  cases b <;> rfl

theorem inside_opened (cur : Cursor T) (op : Op) : (opened cur op).inside = true := by
  cases op <;> simp only [opened] <;> try rfl
  split <;> rfl

theorem locked_opened (cur : Cursor T) (op : Op) : (opened cur op).locked = false := by
  cases op <;> simp only [opened] <;> try rfl
  split <;> rfl

-- What a step does to the two locks, and who may change the open cursors.
structure Locked (s s' : Log T) (l l' : Thread T) : Prop where
  log : one s'.mx + one (holdsLog l) = one s.mx + one (holdsLog l')
  cursor : ∀ c < s.cursors.length,
    one (s'.cursor c).mx + one (holds c l) = one (s.cursor c).mx + one (holds c l')
  opened : (s'.opened = s.opened ∧ s'.nOpen = s.nOpen) ∨ holdsLog l = true
  length : s.cursors.length ≤ s'.cursors.length
  other : ∀ c < s.cursors.length, s'.cursor c = s.cursor c ∨ ∃ pc, l = .cursor c pc

theorem Locked.keep (h1 : s'.mx = s.mx) (h2 : s'.cursors = s.cursors) (h3 : s'.opened = s.opened)
    (h4 : s'.nOpen = s.nOpen) (hl : holdsLog l' = holdsLog l) (hc : ∀ c, holds c l' = holds c l) :
    Locked s s' l l' := by
  have hcur : ∀ c, s'.cursor c = s.cursor c := fun c => by rw [Log.cursor,Log.cursor,h2]
  exact ⟨by rw [h1,hl],fun c _ => by rw [hcur,hc],.inl ⟨h3,h4⟩,Nat.le_of_eq (by rw [h2]),
    fun c _ => .inl (hcur c)⟩

theorem append_locked {pc pc' : AppendPc} (hs : AppendAct s x pc s' pc')
    (hm : pc.locked = true → s.mx = true) : Locked s s' (.append x pc) (.append x pc') := by
  cases hs with
  | plain h1 h2 =>
    exact .keep rfl rfl rfl rfl ((locked_plain h2).trans (locked_plain h1).symm) fun _ => rfl
  | lock hmx =>
    refine ⟨?_,fun c _ => rfl,.inl ⟨rfl,rfl⟩,Nat.le_refl _,fun c _ => .inl rfl⟩
    simp [hmx,holdsLog,AppendPc.locked]
  | unlock =>
    refine ⟨?_,fun c _ => rfl,.inl ⟨rfl,rfl⟩,Nat.le_refl _,fun c _ => .inl rfl⟩
    simp [hm rfl,holdsLog,AppendPc.locked]
  | refuse => exact .keep rfl rfl rfl rfl (locked_finish _ _) fun _ => rfl
  | publish => exact .keep rfl rfl rfl rfl (locked_finish _ _) fun _ => rfl
  | _ => exact .keep rfl rfl rfl rfl rfl fun _ => rfl

theorem cursor_register (b : Bool) (t h : ℕ) (hc : c < s.cursors.length) :
    (s.register b t h).cursor c = s.cursor c := by
  rw [Log.cursor,Log.register,getD_push,if_neg (by omega)]
  rfl

theorem new_locked {pc pc' : NewPc} (hs : NewAct s pc s' pc')
    (hm : pc.locked = true → s.mx = true) : Locked s s' (.newCursor pc) (.newCursor pc') := by
  cases hs with
  | lock hmx hb =>
    refine ⟨?_,fun c _ => rfl,.inl ⟨rfl,rfl⟩,Nat.le_refl _,fun c _ => .inl rfl⟩
    simp [hmx,holdsLog,NewPc.locked]
  | unlock =>
    refine ⟨?_,fun c _ => rfl,.inl ⟨rfl,rfl⟩,Nat.le_refl _,fun c _ => .inl rfl⟩
    simp [hm rfl,holdsLog,NewPc.locked]
  | register =>
    refine ⟨rfl,fun c hc => ?_,.inr rfl,?_,fun c hc => .inl ?_⟩
    · rw [cursor_register _ _ _ hc]
      rfl
    · simp [Log.register]
    · exact cursor_register _ _ _ hc
  | _ => exact .keep rfl rfl rfl rfl rfl fun _ => rfl

-- A reader's step on its own cursor.
theorem set_locked {pc pc' : CursorPc T} (hc : c < s.cursors.length) (h1 : s'.mx = s.mx)
    (h2 : s'.cursors = s.cursors.set c cur) (h3 : s'.opened = s.opened) (h4 : s'.nOpen = s.nOpen)
    (hl : pc'.locked = pc.locked)
    (hm : one cur.mx + one pc.inside = one (s.cursor c).mx + one pc'.inside) :
    Locked s s' (.cursor c pc) (.cursor c pc') := by
  have hcur : ∀ d, s'.cursor d = if d = c then cur else s.cursor d := by
    intro d
    have := cursor_set s c d cur
    rw [Log.cursor,h2]
    simp only [hc,and_true] at this
    exact this
  refine ⟨by rw [h1,holdsLog,holdsLog,hl],fun d _ => ?_,.inl ⟨h3,h4⟩,?_,fun d _ => ?_⟩
  · rw [hcur]
    by_cases hd : d = c
    · subst hd
      simpa [holds] using hm
    · simp [hd,holds,Ne.symm hd]
  · exact Nat.le_of_eq (by rw [h2,List.length_set])
  · by_cases hd : d = c
    · exact .inr ⟨pc,by rw [hd]⟩
    · exact .inl (by rw [hcur,if_neg hd])

theorem cursor_locked {pc pc' : CursorPc T} (hc : c < s.cursors.length)
    (hs : CursorAct s c pc s' pc') (hm : pc.locked = true → s.mx = true)
    (hmx : pc.inside = true → (s.cursor c).mx = true) :
    Locked s s' (.cursor c pc) (.cursor c pc') := by
  cases hs with
  | enter hfree hch hop =>
    refine set_locked hc rfl rfl rfl rfl (locked_opened _ _) ?_
    rw [inside_opened,hfree]
    rfl
  | close hfree hch =>
    refine set_locked hc rfl rfl rfl rfl rfl ?_
    rw [hfree]
    rfl
  | gone hfree hch =>
    refine set_locked hc rfl rfl rfl rfl rfl ?_
    rw [hfree]
    rfl
  | hop hch hi hn => exact set_locked hc rfl rfl rfl rfl rfl rfl
  | take hch =>
    split
    · exact set_locked hc rfl rfl rfl rfl rfl rfl
    · exact set_locked hc rfl rfl rfl rfl rfl rfl
  | advance => exact set_locked hc rfl rfl rfl rfl rfl rfl
  | shown he => exact set_locked hc rfl rfl rfl rfl rfl rfl
  | clear => exact set_locked hc rfl rfl rfl rfl rfl rfl
  | move => exact set_locked hc rfl rfl rfl rfl rfl rfl
  | seek => exact set_locked hc rfl rfl rfl rfl rfl rfl
  | lockLog hl =>
    refine ⟨?_,fun d _ => rfl,.inl ⟨rfl,rfl⟩,Nat.le_refl _,fun d _ => .inl rfl⟩
    simp [hl,holdsLog,CursorPc.locked]
  | unlockLog =>
    refine ⟨?_,fun d _ => rfl,.inl ⟨rfl,rfl⟩,Nat.le_refl _,fun d _ => .inl rfl⟩
    simp [hm rfl,holdsLog,CursorPc.locked]
  | remove => exact ⟨rfl,fun d _ => rfl,.inr rfl,Nat.le_refl _,fun d _ => .inl rfl⟩
  | unlock =>
    refine set_locked hc rfl rfl rfl rfl rfl ?_
    rw [hmx rfl]
    rfl
  | _ => exact .keep rfl rfl rfl rfl rfl fun _ => rfl

end Varmq.Topics
