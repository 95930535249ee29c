import Varmq.Topics.Topic

namespace Varmq.Topics.Fanout

open Interleaving

variable {T : Type} {s s' : Topic T} {l l' : Thread T} {ts : List (Thread T)}

inductive Act (s : Topic T) : Thread T → Topic T → Thread T → Prop
  | rlock {p : Publish T} (hp : p.pc = .rlock) (hw : s.writer = false) : Act s (.publish p)
      { s with readers := s.readers + 1 } (.publish { p with pc := .check, audience := s.subs })
  | shut {p : Publish T} (hp : p.pc = .check) (hc : s.closed = true) : Act s (.publish p) s
      (.publish { p with pc := .runlock false, sawClosed := true })
  | open_ {p : Publish T} (hp : p.pc = .check) (hc : s.closed = false) : Act s (.publish p) s
      (.publish { p with pc := .append .loadLimit, sawClosed := false })
  | append {p : Publish T} {pc pc' : AppendPc} {log : Log T} (hp : p.pc = .append pc)
      (hs : appendStep s.log p.data pc = some (log,pc')) : Act s (.publish p) { s with log }
        (.publish { p with pc := .append pc', sawFull := p.sawFull || sawsFull s.log pc,
                           seq := (claims s.log pc).orElse fun _ => p.seq })
  | refused {p : Publish T} (hp : p.pc = .append (.returned 0)) : Act s (.publish p) s
      (.publish { p with pc := .runlock false })
  | accepted {p : Publish T} {n : ℕ} (hp : p.pc = .append (.returned n)) (hn : n ≠ 0) :
      Act s (.publish p) s (.publish { p with pc := .notify })
  | notify {p : Publish T} (hp : p.pc = .notify) : Act s (.publish p) s
      (.publish { p with pc := .runlock true })
  | runlock {p : Publish T} {r : Bool} (hp : p.pc = .runlock r) : Act s (.publish p)
      { s with readers := s.readers - 1 } (.publish { p with pc := .returned r })
  | lock {w : ℕ} (hw : s.writer = false) (hr : s.readers = 0) :
      Act s (.subscribe w .lock) { s with writer := true } (.subscribe w .scan)
  | twice {w : ℕ} : Act s (.subscribe w .scan) s (.subscribe w (.unlock none))
  | scan {w : ℕ} : Act s (.subscribe w .scan) s (.subscribe w (.new (.lock false)))
  | new {w : ℕ} {pc pc' : NewPc} {log : Log T} (hs : NewAct s.log pc log pc') :
      Act s (.subscribe w (.new pc)) { s with log } (.subscribe w (.new pc'))
  | made {w c : ℕ} : Act s (.subscribe w (.new (.returned c))) s (.subscribe w (.attach c))
  | attach {w c : ℕ} (hc : s.closed = false) : Act s (.subscribe w (.attach c)) { s with
      handles := s.handles ++ [⟨w,c,.fresh,none⟩], subs := s.subs ++ [s.handles.length] }
      (.subscribe w (.unlock (some s.handles.length)))
  | late {w c : ℕ} : Act s (.subscribe w (.attach c)) s (.subscribe w (.inert c (.lock .close)))
  | inert {w c : ℕ} {pc pc' : CursorPc T} {log : Log T} (hs : CursorAct s.log c pc log pc') :
      Act s (.subscribe w (.inert c pc)) { s with log } (.subscribe w (.inert c pc'))
  | drop {w c : ℕ} {r : List (Option T)} : Act s (.subscribe w (.inert c (.returned r)))
      { s with handles := s.handles ++ [⟨w,c,.fresh,some s.log.head⟩] }
      (.subscribe w (.unlock (some s.handles.length)))
  | subscribed {w : ℕ} {r : Option ℕ} :
      Act s (.subscribe w (.unlock r)) { s with writer := false } (.subscribe w (.returned r))
  | once {k : ℕ} {rest : List ℕ} (ho : (s.handle k).once = .fresh) : Act s (.unsubscribe k rest .once)
      (s.setHandle k { s.handle k with once := .running }) (.unsubscribe k rest .lock)
  | again {k : ℕ} {rest : List ℕ} : Act s (.unsubscribe k rest .once) s (.unsubscribe k rest .next)
  | unlock {k : ℕ} {rest : List ℕ} (hw : s.writer = false) (hr : s.readers = 0) :
      Act s (.unsubscribe k rest .lock) { s with writer := true }
        (.unsubscribe k rest (.close (s.cursorOf k) (.lock .close)))
  | close {k c : ℕ} {rest : List ℕ} {pc pc' : CursorPc T} {log : Log T}
      (hs : CursorAct s.log c pc log pc') : Act s (.unsubscribe k rest (.close c pc)) { s with log }
        (.unsubscribe k rest (.close c pc'))
  | closed {k c : ℕ} {rest : List ℕ} {r : List (Option T)} :
      Act s (.unsubscribe k rest (.close c (.returned r))) s (.unsubscribe k rest .delete)
  | delete {k : ℕ} {rest : List ℕ} : Act s (.unsubscribe k rest .delete)
      { s.setHandle k { s.handle k with
          ended := if k ∈ s.subs then some s.log.head else (s.handle k).ended } with
        subs := s.subs.filter (· ≠ k) } (.unsubscribe k rest .unlock)
  | left {k : ℕ} {rest : List ℕ} : Act s (.unsubscribe k rest .unlock) { s with writer := false }
      (.unsubscribe k rest .removeSource)
  | removeSource {k : ℕ} {rest : List ℕ} : Act s (.unsubscribe k rest .removeSource)
      (s.setHandle k { s.handle k with once := .done }) (.unsubscribe k rest .next)
  | last {k : ℕ} : Act s (.unsubscribe k [] .next) s (.unsubscribe k [] .returned)
  | next {k i : ℕ} {rest : List ℕ} :
      Act s (.unsubscribe k (i :: rest) .next) s (.unsubscribe i rest .once)
  | lockClose (hw : s.writer = false) (hr : s.readers = 0) :
      Act s (.close .lock) { s with writer := true } (.close .close)
  | setClosed : Act s (.close .close) { s with closed := true }
      (.close (.unlock (if s.closed then [] else s.subs)))
  | unlockClose {subs : List ℕ} :
      Act s (.close (.unlock subs)) { s with writer := false } (start subs)
  | purge {c : ℕ} {pc pc' : CursorPc T} {log : Log T} (hs : CursorAct s.log c pc log pc') :
      Act s (.purge c pc) { s with log } (.purge c pc')
  | read {c : ℕ} {pc pc' : CursorPc T} {log : Log T} (hs : CursorAct s.log c pc log pc') :
      Act s (.read c pc) { s with log } (.read c pc')

theorem publish_act {p p' : Publish T} (hs : publishStep s p = some (s',p')) :
    Act s (.publish p) s' (.publish p') := by
  unfold publishStep at hs
  split at hs
  · rename_i hp
    split at hs <;> cases hs
    exact .rlock hp (by simpa using ‹¬s.writer = true›)
  · rename_i hp
    cases hs
    cases hc : s.closed
    · exact .open_ hp hc
    · exact .shut hp hc
  · rename_i n hp
    cases hs
    split
    · rename_i hn
      rw [hn] at hp
      exact .refused hp
    · exact .accepted hp ‹_›
  · rename_i pc _ hp
    obtain ⟨⟨log,pc'⟩,ha,heq⟩ := Option.map_eq_some_iff.mp hs
    cases heq
    exact .append hp ha
  · cases hs
    exact .notify ‹_›
  · cases hs
    exact .runlock ‹_›
  · cases hs

theorem free {b : Bool} {n : ℕ} (h : ¬(b || decide (n ≠ 0)) = true) : b = false ∧ n = 0 := by
  simpa using h

theorem subscribe_act {w : ℕ} {pc pc' : SubscribePc T}
    (hs : subscribeStep s w pc = some (s',pc')) : Act s (.subscribe w pc) s' (.subscribe w pc') := by
  unfold subscribeStep at hs
  split at hs
  · split at hs <;> cases hs
    obtain ⟨h1,h2⟩ := free ‹_›
    exact .lock h1 h2
  · cases hs
    split
    · exact .twice
    · exact .scan
  · cases hs
    exact .made
  · obtain ⟨⟨log,pc'⟩,ha,heq⟩ := Option.map_eq_some_iff.mp hs
    cases heq
    exact .new (new_act ha)
  · split at hs <;> cases hs
    · exact .late
    · exact .attach (by simpa using ‹¬s.closed = true›)
  · cases hs
    exact .drop
  · obtain ⟨⟨log,pc'⟩,ha,heq⟩ := Option.map_eq_some_iff.mp hs
    cases heq
    exact .inert (cursor_act ha)
  · cases hs
    exact .subscribed
  · cases hs

theorem unsubscribe_act {k : ℕ} {rest : List ℕ} {pc pc' : UnsubscribePc T}
    (hs : unsubscribeStep s k pc = some (s',pc')) :
    Act s (.unsubscribe k rest pc) s' (.unsubscribe k rest pc') := by
  unfold unsubscribeStep at hs
  split at hs
  · split at hs <;> cases hs
    · exact .once ‹_›
    · exact .again
  · split at hs <;> cases hs
    obtain ⟨h1,h2⟩ := free ‹_›
    exact .unlock h1 h2
  · cases hs
    exact .closed
  · obtain ⟨⟨log,pc'⟩,ha,heq⟩ := Option.map_eq_some_iff.mp hs
    cases heq
    exact .close (cursor_act ha)
  · cases hs
    exact .delete
  · cases hs
    exact .left
  · cases hs
    exact .removeSource
  · cases hs
  · cases hs

theorem step_act {u : Unit} {new : List (Thread T)} (hs : step s l u = some (s',l',new)) :
    Act s l s' l' ∧ new = [] := by
  unfold step at hs
  split at hs
  · obtain ⟨⟨s₁,p'⟩,ha,heq⟩ := Option.map_eq_some_iff.mp hs
    cases heq
    exact ⟨publish_act ha,rfl⟩
  · obtain ⟨⟨s₁,pc'⟩,ha,heq⟩ := Option.map_eq_some_iff.mp hs
    cases heq
    exact ⟨subscribe_act ha,rfl⟩
  · rename_i k rest
    cases hs
    cases rest with
    | nil => exact ⟨.last,rfl⟩
    | cons i rest => exact ⟨.next,rfl⟩
  · obtain ⟨⟨s₁,pc'⟩,ha,heq⟩ := Option.map_eq_some_iff.mp hs
    cases heq
    exact ⟨unsubscribe_act ha,rfl⟩
  · cases hs
    exact ⟨.unlockClose,rfl⟩
  · rename_i pc hne
    obtain ⟨⟨s₁,pc'⟩,ha,heq⟩ := Option.map_eq_some_iff.mp hs
    cases heq
    cases pc with
    | lock =>
      simp only [closeStep] at ha
      split at ha <;> cases ha
      obtain ⟨h1,h2⟩ := free ‹_›
      exact ⟨.lockClose h1 h2,rfl⟩
    | close =>
      cases ha
      exact ⟨.setClosed,rfl⟩
    | unlock subs => exact (hne subs rfl).elim
    | returned => cases ha
  · obtain ⟨⟨log,pc'⟩,ha,heq⟩ := Option.map_eq_some_iff.mp hs
    cases heq
    exact ⟨.purge (cursor_act ha),rfl⟩
  · obtain ⟨⟨log,pc'⟩,ha,heq⟩ := Option.map_eq_some_iff.mp hs
    cases heq
    exact ⟨.read (cursor_act ha),rfl⟩

end Varmq.Topics.Fanout
