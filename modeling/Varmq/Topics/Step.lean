import Varmq.Topics.Chain

namespace Varmq.Topics

open Interleaving

variable {T : Type} {s s' : Log T} {x : T} {c : ℕ}

-- The control points of Append that carry no fact, and whether l.mx is held there.
def plain : AppendPc → Option Bool
  | .loadLimit | .lock | .returned _ => some false
  | .check | .full _ _ | .unlock _ => some true
  | .loadOpen b => some b
  | _ => none

@[simp] theorem plain_finish (b : Bool) (n : ℕ) : plain (finish b n) = some b := by
  cases b <;> rfl

inductive AppendAct (s : Log T) (x : T) : AppendPc → Log T → AppendPc → Prop
  | plain {pc pc' : AppendPc} {b : Bool} (h : plain pc = some b) (h' : Topics.plain pc' = some b) :
      AppendAct s x pc s pc'
  | lock (hm : s.mx = false) : AppendAct s x .lock { s with mx := true } .check
  | loadOpen {b : Bool} : AppendAct s x (.loadOpen b) s (.loadClosed b s.nOpen)
  | refuse {b : Bool} {n : ℕ} : AppendAct s x (.loadClosed b n) s (finish b 0)
  | accept {b : Bool} {n : ℕ} (hn : n ≠ 0) : AppendAct s x (.loadClosed b n) s (.loadTail b n)
  | loadTail {b : Bool} {n t : ℕ} (ht : s.tail = some t) :
      AppendAct s x (.loadTail b n) s (.claim b n t)
  | claim {b : Bool} {n t : ℕ} : AppendAct s x (.claim b n t)
      { s with head := s.head + 1, claims := s.claims ++ [x] } (.next ⟨b,n,s.head⟩ t 0)
  | found {a : Claim} {t k : ℕ} (ha : a.offset < (s.chunk t).end_) :
      AppendAct s x (.next a t k) s (.write a t)
  | past {a : Claim} {t k : ℕ} (ha : (s.chunk t).end_ ≤ a.offset) (hn : (s.chunk t).next = none) :
      AppendAct s x (.next a t k) s (.link a t k)
  | hop {a : Claim} {t nx k : ℕ} (ha : (s.chunk t).end_ ≤ a.offset)
      (hn : (s.chunk t).next = some nx) : AppendAct s x (.next a t k) s (.advance a t nx k)
  | linking {a : Claim} {t k : ℕ} : AppendAct s x (.link a t k)
      (s.setChunk t { s.chunk t with linking := true }) (.grow a t k)
  | spun {a : Claim} {t k : ℕ} : AppendAct s x (.link a t k) s (.grow a t k)
  | spin {a : Claim} {t k : ℕ} (hk : k ≠ linkSpins) :
      AppendAct s x (.link a t k) s (.next a t (k + 1))
  | grow {a : Claim} {t k : ℕ} (hn : (s.chunk t).next = none) :
      AppendAct s x (.grow a t k) (s.linkNext t) (.next a t k)
  | grown {a : Claim} {t k : ℕ} (hn : (s.chunk t).next ≠ none) :
      AppendAct s x (.grow a t k) s (.next a t k)
  | advance {a : Claim} {t nx k : ℕ} : AppendAct s x (.advance a t nx k)
      { s with tail := if s.tail = some t then some nx else s.tail } (.next a nx k)
  | write {a : Claim} {t : ℕ} : AppendAct s x (.write a t)
      (s.setData t (a.offset - (s.chunk t).base) (some x)) (.publish a t)
  | publish {a : Claim} {t : ℕ} : AppendAct s x (.publish a t)
      (s.setReady t (a.offset - (s.chunk t).base)) (finish a.locked a.n)
  | unlock {n : ℕ} : AppendAct s x (.unlock n) { s with mx := false } (.returned n)

theorem append_act {pc pc' : AppendPc} (hs : appendStep s x pc = some (s',pc')) :
    AppendAct s x pc s' pc' := by
  cases pc with
  | loadLimit =>
    cases hs
    split <;> exact .plain rfl rfl
  | lock =>
    simp only [appendStep] at hs
    split at hs <;> cases hs
    exact .lock (by simpa using ‹¬s.mx = true›)
  | check =>
    cases hs
    split <;> exact .plain rfl rfl
  | full rest m =>
    cases rest with
    | nil =>
      cases hs
      split <;> exact .plain rfl rfl
    | cons d rest =>
      cases hs
      exact .plain rfl rfl
  | loadOpen b =>
    cases hs
    exact .loadOpen
  | loadClosed b n =>
    cases hs
    split
    · exact .refuse
    · rename_i h
      exact .accept fun hn => h (.inr hn)
  | loadTail b n =>
    obtain ⟨t,ht,heq⟩ := Option.map_eq_some_iff.mp hs
    cases heq
    exact .loadTail ht
  | claim b n t =>
    cases hs
    exact .claim
  | next a t k =>
    simp only [appendStep] at hs
    split at hs
    · cases hs
      exact .found ‹_›
    · rename_i ha
      split at hs <;> cases hs
      · exact .past (Nat.le_of_not_lt ha) ‹_›
      · exact .hop (Nat.le_of_not_lt ha) ‹_›
  | link a t k =>
    simp only [appendStep] at hs
    split at hs
    · cases hs
      exact .linking
    · split at hs <;> cases hs
      · exact .spun
      · exact .spin ‹_›
  | grow a t k =>
    cases hs
    split
    · exact .grow ‹_›
    · exact .grown ‹_›
  | advance a t nx k =>
    cases hs
    exact .advance
  | write a t =>
    cases hs
    exact .write
  | publish a t =>
    cases hs
    exact .publish
  | unlock n =>
    cases hs
    exact .unlock
  | returned n => cases hs

inductive NewAct (s : Log T) : NewPc → Log T → NewPc → Prop
  | lock {b : Bool} (hm : s.mx = false) (hb : mayOpen s b = true) :
      NewAct s (.lock b) { s with mx := true } (.ensure b)
  | first {b : Bool} (ht : s.tail = none) : NewAct s (.ensure b) s.firstChunk (.seekTail b)
  | ensured {b : Bool} (ht : s.tail.isSome = true) : NewAct s (.ensure b) s (.seekTail b)
  | seekTail {b : Bool} {t : ℕ} (ht : s.tail = some t) : NewAct s (.seekTail b) s (.seekHead b t)
  | seekHead {b : Bool} {t : ℕ} : NewAct s (.seekHead b t) s (.register b t s.head)
  | register {b : Bool} {t h : ℕ} :
      NewAct s (.register b t h) (s.register b t h) (.unlock s.cursors.length)
  | unlock {c : ℕ} : NewAct s (.unlock c) { s with mx := false } (.returned c)

theorem new_act {pc pc' : NewPc} (hs : newStep s pc = some (s',pc')) : NewAct s pc s' pc' := by
  cases pc with
  | lock b =>
    simp only [newStep] at hs
    split at hs <;> cases hs
    rename_i h
    simp only [Bool.or_eq_true,Bool.not_eq_true',not_or,Bool.not_eq_true,Bool.not_eq_false] at h
    exact .lock h.1 h.2
  | ensure b =>
    cases hs
    split
    · exact .first ‹_›
    · exact .ensured (Option.isSome_iff_ne_none.mpr ‹_›)
  | seekTail b =>
    obtain ⟨t,ht,heq⟩ := Option.map_eq_some_iff.mp hs
    cases heq
    exact .seekTail ht
  | seekHead b t =>
    cases hs
    exact .seekHead
  | register b t h =>
    cases hs
    exact .register
  | unlock c =>
    cases hs
    exact .unlock
  | returned c => cases hs

inductive CursorAct (s : Log T) (c : ℕ) : CursorPc T → Log T → CursorPc T → Prop
  | enter {op : Op} {t : ℕ} (hm : (s.cursor c).mx = false) (hc : (s.cursor c).chunk = some t)
      (hop : op ≠ .close) : CursorAct s c (.lock op)
        (s.setCursor c { s.cursor c with mx := true }) (opened (s.cursor c) op)
  | close {t : ℕ} (hm : (s.cursor c).mx = false) (hc : (s.cursor c).chunk = some t) :
      CursorAct s c (.lock .close) (s.setCursor c { s.cursor c with mx := true, chunk := none })
        .lockLog
  | gone {op : Op} (hm : (s.cursor c).mx = false) (hc : (s.cursor c).chunk = none) :
      CursorAct s c (.lock op) (s.setCursor c { s.cursor c with mx := true }) (.unlock [])
  | hop {t nx : ℕ} (hc : (s.cursor c).chunk = some t)
      (hi : (s.chunk t).data.length ≤ (s.cursor c).idx) (hn : (s.chunk t).next = some nx) :
      CursorAct s c .look (s.setCursor c { s.cursor c with
        chunk := some nx, idx := (s.cursor c).idx - (s.chunk t).data.length }) .look
  | wait : CursorAct s c .look s .claimed
  | found {t : ℕ} (hc : (s.cursor c).chunk = some t)
      (hi : (s.cursor c).idx < (s.chunk t).data.length)
      (hr : (s.chunk t).ready.getD (s.cursor c).idx false = true) : CursorAct s c .look s .take
  | again : CursorAct s c .claimed s .look
  | empty : CursorAct s c .claimed s (.unlock [])
  | take {t : ℕ} (hc : (s.cursor c).chunk = some t) :
      CursorAct s c .take ((if (s.cursor c).consume then s.setData t (s.cursor c).idx none else s).setCursor
        c { s.cursor c with idx := (s.cursor c).idx + 1, front := (s.cursor c).front + 1 })
        (.advance ((s.chunk t).data.getD (s.cursor c).idx none))
  | advance {x : Option T} : CursorAct s c (.advance x) (s.setCursor c { s.cursor c with
      offset := (s.cursor c).offset + 1, history := (s.cursor c).history ++ [.item x] }) (.unlock [x])
  | loadEnd {b : Bool} {t : ℕ} (hc : (s.cursor c).chunk = some t) : CursorAct s c (.loadEnd b) s
      (.each b ⟨s.head,(s.cursor c).offset,t,(s.cursor c).idx,[]⟩)
  | wound {e : Each T} (he : e.stop ≤ e.off) : CursorAct s c (.each true e) s (.move e)
  | shown {e : Each T} (he : e.stop ≤ e.off) : CursorAct s c (.each false e)
      (s.setCursor c { s.cursor c with
        shown := (s.cursor c).shown ++ [((s.cursor c).offset,e.out)] }) (.unlock e.out)
  | eachHop {b : Bool} {e : Each T} {nx : ℕ} (hi : (s.chunk e.chunk).data.length ≤ e.idx)
      (hn : (s.chunk e.chunk).next = some nx) : CursorAct s c (.each b e) s
        (.each b { e with chunk := nx, idx := e.idx - (s.chunk e.chunk).data.length })
  | eachWait {b : Bool} {e : Each T} : CursorAct s c (.each b e) s (.each b e)
  | eachFound {b : Bool} {e : Each T} (he : e.off < e.stop)
      (hi : e.idx < (s.chunk e.chunk).data.length)
      (hr : (s.chunk e.chunk).ready.getD e.idx false = true) :
      CursorAct s c (.each b e) s (.visit b e)
  | clear {e : Each T} : CursorAct s c (.visit true e)
      ((s.setData e.chunk e.idx none).setCursor c { s.cursor c with
        front := (s.cursor c).front + 1 })
      (.each true { e with
        off := e.off + 1, idx := e.idx + 1, out := e.out ++ [(s.chunk e.chunk).data.getD e.idx none] })
  | visit {e : Each T} : CursorAct s c (.visit false e) s
      (.each false { e with
        off := e.off + 1, idx := e.idx + 1, out := e.out ++ [(s.chunk e.chunk).data.getD e.idx none] })
  | move {e : Each T} : CursorAct s c (.move e) (s.setCursor c { s.cursor c with
      chunk := some e.chunk, idx := e.idx, offset := e.stop,
      history := (s.cursor c).history ++ e.out.map .item }) (.unlock e.out)
  | seekTail {t : ℕ} (ht : s.tail = some t) : CursorAct s c .seekTail s (.seekHead t)
  | seekHead {t : ℕ} : CursorAct s c (.seekHead t) s (.seek t s.head)
  | seek {t h : ℕ} : CursorAct s c (.seek t h) (s.setCursor c { s.cursor c with
      chunk := some t, idx := h - (s.chunk t).base, offset := h, front := h,
      history := (s.cursor c).history ++ [.skip (h - (s.cursor c).offset)] }) (.unlock [])
  | lockLog (hm : s.mx = false) : CursorAct s c .lockLog { s with mx := true } .remove
  | remove : CursorAct s c .remove (s.remove c) .unlockLog
  | unlockLog : CursorAct s c .unlockLog { s with mx := false } (.unlock [])
  | unlock {r : List (Option T)} : CursorAct s c (.unlock r)
      (s.setCursor c { s.cursor c with mx := false }) (.returned r)

theorem cursor_act {pc pc' : CursorPc T} (hs : cursorStep s c pc = some (s',pc')) :
    CursorAct s c pc s' pc' := by
  cases pc with
  | lock op =>
    simp only [cursorStep] at hs
    split at hs
    · cases hs
    · rename_i hm
      simp only [Bool.not_eq_true] at hm
      split at hs
      · cases hs
        exact .gone hm ‹_›
      · rename_i hc
        obtain ⟨t,ht⟩ := Option.ne_none_iff_exists'.mp hc
        cases hs
        by_cases hop : op = .close
        · subst hop
          exact .close hm ht
        · rw [if_neg hop]
          exact .enter hm ht hop
  | look =>
    simp only [cursorStep] at hs
    split at hs
    · cases hs
    · rename_i t hc
      split at hs
      · split at hs <;> cases hs
        · exact .wait
        · exact .hop hc ‹_› ‹_›
      · rename_i hi
        cases hs
        split
        · exact .found hc (Nat.lt_of_not_le hi) ‹_›
        · exact .wait
  | claimed =>
    cases hs
    split
    · exact .again
    · exact .empty
  | take =>
    simp only [cursorStep] at hs
    split at hs
    · cases hs
    · rename_i t hc
      cases hs
      exact .take hc
  | advance x =>
    cases hs
    exact .advance
  | loadEnd b =>
    obtain ⟨t,hc,heq⟩ := Option.map_eq_some_iff.mp hs
    cases heq
    exact .loadEnd hc
  | each b e =>
    simp only [cursorStep] at hs
    split at hs
    · rename_i he
      split at hs <;> cases hs
      · rename_i hb
        rw [hb]
        exact .wound he
      · rename_i hb
        rw [Bool.not_eq_true] at hb
        rw [hb]
        exact .shown he
    · rename_i he
      split at hs
      · split at hs <;> cases hs
        · exact .eachWait
        · exact .eachHop ‹_› ‹_›
      · rename_i hi
        cases hs
        split
        · exact .eachFound (Nat.lt_of_not_le he) (Nat.lt_of_not_le hi) ‹_›
        · exact .eachWait
  | visit b e =>
    cases b <;> cases hs
    · exact .visit
    · exact .clear
  | move e =>
    cases hs
    exact .move
  | seekTail =>
    obtain ⟨t,ht,heq⟩ := Option.map_eq_some_iff.mp hs
    cases heq
    exact .seekTail ht
  | seekHead t =>
    cases hs
    exact .seekHead
  | seek t h =>
    cases hs
    exact .seek
  | lockLog =>
    simp only [cursorStep] at hs
    split at hs <;> cases hs
    exact .lockLog (by simpa using ‹¬s.mx = true›)
  | remove =>
    cases hs
    exact .remove
  | unlockLog =>
    cases hs
    exact .unlockLog
  | unlock r =>
    cases hs
    exact .unlock
  | returned r => cases hs

inductive Act (s : Log T) : Thread T → Log T → Thread T → Prop
  | append {x : T} {pc pc' : AppendPc} {s' : Log T} (h : AppendAct s x pc s' pc') :
      Act s (.append x pc) s' (.append x pc')
  | newCursor {pc pc' : NewPc} {s' : Log T} (h : NewAct s pc s' pc') :
      Act s (.newCursor pc) s' (.newCursor pc')
  | cursor {c : ℕ} {pc pc' : CursorPc T} {s' : Log T} (h : CursorAct s c pc s' pc') :
      Act s (.cursor c pc) s' (.cursor c pc')
  | close : Act s (.close false) { s with closed := true } (.close true)

theorem step_act {l l' : Thread T} {u : Unit} {new : List (Thread T)}
    (hs : step s l u = some (s',l',new)) : Act s l s' l' ∧ new = [] := by
  cases l with
  | append x pc =>
    obtain ⟨⟨s₁,pc'⟩,h,heq⟩ := Option.map_eq_some_iff.mp hs
    cases heq
    exact ⟨.append (append_act h),rfl⟩
  | newCursor pc =>
    obtain ⟨⟨s₁,pc'⟩,h,heq⟩ := Option.map_eq_some_iff.mp hs
    cases heq
    exact ⟨.newCursor (new_act h),rfl⟩
  | cursor c pc =>
    obtain ⟨⟨s₁,pc'⟩,h,heq⟩ := Option.map_eq_some_iff.mp hs
    cases heq
    exact ⟨.cursor (cursor_act h),rfl⟩
  | close done =>
    cases done <;> cases hs
    exact ⟨.close,rfl⟩

end Varmq.Topics
