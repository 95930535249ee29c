import Varmq.InMemory.Basic

namespace Varmq.InMemory

open Interleaving Topics Queues

variable {T : Type} {s s' : Queue T} {idOf : T → Option String} {hash : String → Fin idShards}
  {x : T} {id : String} {l l' : Thread T}

namespace Queue

theorem lock_eq {i : Fin idShards} (h : s.lock i = some s') :
    s.ids.isSome = true ∧ (s.shard i).mu = false ∧ s' = s.setMu i true := by
  simp only [lock] at h
  split at h
  · cases h
  · rename_i hn
    simp only [Bool.or_eq_true,not_or,Bool.not_eq_true] at hn
    refine ⟨?_,hn.2,(Option.some.inj h).symm⟩
    cases hi : s.ids
    · rw [hi] at hn
      cases hn.1
    · rfl

-- What the CompareAndSwap leaves behind.
def makeIds (s : Queue T) : Queue T := { s with ids := some (s.ids.getD newIdSet) }

end Queue

inductive IdSetAct (s : Queue T) : IdSetPc → Queue T → Option IdSetPc → Prop
  | found (h : s.ids.isSome = true) : IdSetAct s .load s none
  | absent : IdSetAct s .load s (some .cas)
  | cas : IdSetAct s .cas s.makeIds (some .reload)
  | reload : IdSetAct s .reload s none

theorem idSet_act {pc : IdSetPc} : IdSetAct s pc (idSetStep s pc).1 (idSetStep s pc).2 := by
  cases pc with
  | load =>
    simp only [idSetStep]
    split
    · exact .found ‹_›
    · exact .absent
  | cas =>
    have he : (if s.ids.isSome = true then s else { s with ids := some newIdSet }) = s.makeIds := by
      cases hi : s.ids with
      | none => simp [Queue.makeIds,hi]
      | some ids =>
        simp only [Queue.makeIds,hi,Option.isSome_some,if_true,Option.getD_some]
        rw [← hi]
    simp only [idSetStep]
    rw [he]
    exact .cas
  | reload => exact .reload

inductive Act (idOf : T → Option String) (hash : String → Fin idShards) (s : Queue T) :
    Thread T → Queue T → Thread T → Prop
  | enqueue {x : T} {pc pc' : AppendPc} {log : Log T} (hs : appendStep s.log x pc = some (log,pc')) :
      Act idOf hash s (.enqueue x pc) { s with log } (.enqueue x pc')
  | onceSet {x : T} {id : String} {pc pc' : IdSetPc} {s' : Queue T}
      (hs : IdSetAct s pc s' (some pc')) :
      Act idOf hash s (.enqueueOnce x id (.idSet pc)) s' (.enqueueOnce x id (.idSet pc'))
  | onceReady {x : T} {id : String} {pc : IdSetPc} {s' : Queue T} (hs : IdSetAct s pc s' none) :
      Act idOf hash s (.enqueueOnce x id (.idSet pc)) s' (.enqueueOnce x id .loadOn)
  | onceOn {x : T} {id : String} (hon : s.idsOn = true) :
      Act idOf hash s (.enqueueOnce x id .loadOn) s (.enqueueOnce x id .lock)
  | onceOff {x : T} {id : String} :
      Act idOf hash s (.enqueueOnce x id .loadOn) s (.enqueueOnce x id .storeOn)
  | storeOn {x : T} {id : String} : Act idOf hash s (.enqueueOnce x id .storeOn)
      { s with idsOn := true } (.enqueueOnce x id .lock)
  | onceLock {x : T} {id : String} (hi : s.ids.isSome = true) (hm : (s.shard (hash id)).mu = false) :
      Act idOf hash s (.enqueueOnce x id .lock) (s.setMu (hash id) true) (.enqueueOnce x id .add)
  | add {x : T} {id : String} (hn : ((s.shard (hash id)).ids.add id).2 = true) :
      Act idOf hash s (.enqueueOnce x id .add)
        (s.setIds (hash id) ((s.shard (hash id)).ids.add id).1)
        (.enqueueOnce x id (.append .loadLimit))
  | repeated {x : T} {id : String} (hn : ((s.shard (hash id)).ids.add id).2 = false) :
      Act idOf hash s (.enqueueOnce x id .add)
        (s.setIds (hash id) ((s.shard (hash id)).ids.add id).1) (.enqueueOnce x id (.unlock false))
  | append {x : T} {id : String} {pc pc' : AppendPc} {log : Log T}
      (hs : appendStep s.log x pc = some (log,pc')) :
      Act idOf hash s (.enqueueOnce x id (.append pc)) { s with log }
        (.enqueueOnce x id (.append pc'))
  | refused {x : T} {id : String} : Act idOf hash s (.enqueueOnce x id (.append (.returned 0))) s
      (.enqueueOnce x id .remove)
  | stored {x : T} {id : String} {n : ℕ} (hn : n ≠ 0) :
      Act idOf hash s (.enqueueOnce x id (.append (.returned n))) s
        (.enqueueOnce x id (.unlock true))
  | onceRemove {x : T} {id : String} : Act idOf hash s (.enqueueOnce x id .remove)
      (s.setIds (hash id) ((s.shard (hash id)).ids.remove id)) (.enqueueOnce x id (.unlock false))
  | onceUnlock {x : T} {id : String} {r : Bool} : Act idOf hash s (.enqueueOnce x id (.unlock r))
      (s.setMu (hash id) false) (.enqueueOnce x id (.returned r))
  | refuse : Act idOf hash s (.dequeue .refuse) { s with refusals := s.refusals + 1 }
      (.dequeue (.returned none))
  | running : Act idOf hash s (.dequeue .refuse) s (.dequeue (.cursor (.lock .dequeue)))
  | dequeue {pc pc' : CursorPc T} {log : Log T} (hs : CursorAct s.log 0 pc log pc') :
      Act idOf hash s (.dequeue (.cursor pc)) { s with log } (.dequeue (.cursor pc'))
  | empty : Act idOf hash s (.dequeue (.cursor (.returned []))) s (.dequeue (.returned none))
  | took {v : Option T} {vs : List (Option T)} :
      Act idOf hash s (.dequeue (.cursor (.returned (v :: vs)))) s (.dequeue (.loadOn v))
  | named {v : Option T} {id : String} (hon : s.idsOn = true) (hv : v.bind idOf = some id)
      (hne : id ≠ "") : Act idOf hash s (.dequeue (.loadOn v)) s (.dequeue (.lock v id))
  | unnamed {v : Option T} (hv : s.idsOn = true → ∀ id, v.bind idOf = some id → id = "") :
      Act idOf hash s (.dequeue (.loadOn v)) s (.dequeue (.returned (some v)))
  | dequeueLock {v : Option T} {id : String} (hi : s.ids.isSome = true)
      (hm : (s.shard (hash id)).mu = false) : Act idOf hash s (.dequeue (.lock v id))
        (s.setMu (hash id) true) (.dequeue (.remove v id))
  | dequeueRemove {v : Option T} {id : String} : Act idOf hash s (.dequeue (.remove v id))
      (s.setIds (hash id) ((s.shard (hash id)).ids.remove id)) (.dequeue (.unlock v id))
  | dequeueUnlock {v : Option T} {id : String} : Act idOf hash s (.dequeue (.unlock v id))
      (s.setMu (hash id) false) (.dequeue (.returned (some v)))
  | values {pc pc' : CursorPc T} {log : Log T} (hs : CursorAct s.log 0 pc log pc') :
      Act idOf hash s (.values pc) { s with log } (.values pc')
  | purgeSet {pc pc' : IdSetPc} {s' : Queue T} (hs : IdSetAct s pc s' (some pc')) :
      Act idOf hash s (.purgeValues (.idSet pc)) s' (.purgeValues (.idSet pc'))
  | purgeReady {pc : IdSetPc} {s' : Queue T} (hs : IdSetAct s pc s' none) :
      Act idOf hash s (.purgeValues (.idSet pc)) s' (.purgeValues (.lock 0))
  | purgeLock {i : ℕ} (h : i < idShards) (hi : s.ids.isSome = true)
      (hm : (s.shard ⟨i,h⟩).mu = false) : Act idOf hash s (.purgeValues (.lock i))
        (s.setMu ⟨i,h⟩ true) (.purgeValues (.lock (i + 1)))
  | lockedAll {i : ℕ} (h : idShards ≤ i) : Act idOf hash s (.purgeValues (.lock i)) s
      (.purgeValues (.cursor (.lock .purge)))
  | purge {pc pc' : CursorPc T} {log : Log T} (hs : CursorAct s.log 0 pc log pc') :
      Act idOf hash s (.purgeValues (.cursor pc)) { s with log } (.purgeValues (.cursor pc'))
  | purged {vals : List (Option T)} : Act idOf hash s (.purgeValues (.cursor (.returned vals))) s
      (.purgeValues (.reset 0 vals))
  | reset {i : ℕ} {vals : List (Option T)} (h : i < idShards) :
      Act idOf hash s (.purgeValues (.reset i vals)) (s.setIds ⟨i,h⟩ .empty)
        (.purgeValues (.unlock ⟨i,h⟩ vals))
  | resetAll {i : ℕ} {vals : List (Option T)} (h : idShards ≤ i) :
      Act idOf hash s (.purgeValues (.reset i vals)) s (.purgeValues (.returned vals))
  | purgeUnlock {i : Fin idShards} {vals : List (Option T)} :
      Act idOf hash s (.purgeValues (.unlock i vals)) (s.setMu i false)
        (.purgeValues (.reset (i + 1) vals))
  | close : Act idOf hash s (.close false) { s with log := { s.log with closed := true } }
      (.close true)
  | setPaused {on : Bool} : Act idOf hash s (.setPaused on false) { s with paused := on }
      (.setPaused on true)

theorem once_act {pc pc' : OncePc} (hs : onceStep hash s x id pc = some (s',pc')) :
    Act idOf hash s (.enqueueOnce x id pc) s' (.enqueueOnce x id pc') := by
  unfold onceStep at hs
  split at hs
  · rename_i pc
    have ha : IdSetAct s pc (idSetStep s pc).1 (idSetStep s pc).2 := idSet_act
    cases hn : (idSetStep s pc).2 with
    | none =>
      rw [hn] at ha hs
      cases hs
      exact .onceReady ha
    | some pc' =>
      rw [hn] at ha hs
      cases hs
      exact .onceSet ha
  · cases hs
    split
    · exact .onceOn ‹_›
    · exact .onceOff
  · cases hs
    exact .storeOn
  · obtain ⟨s₁,h1,heq⟩ := Option.map_eq_some_iff.mp hs
    cases heq
    obtain ⟨hi,hm,rfl⟩ := Queue.lock_eq h1
    exact .onceLock hi hm
  · simp only [Option.some.injEq,Prod.mk.injEq] at hs
    obtain ⟨rfl,rfl⟩ := hs
    cases hn : ((s.shard (hash id)).ids.add id).2
    · exact .repeated hn
    · exact .add hn
  · rename_i n
    cases hs
    split
    · rename_i hn
      rw [hn]
      exact .refused
    · exact .stored ‹_›
  · obtain ⟨⟨log,pc'⟩,ha,heq⟩ := Option.map_eq_some_iff.mp hs
    cases heq
    exact .append ha
  · cases hs
    exact .onceRemove
  · cases hs
    exact .onceUnlock
  · cases hs

theorem dequeue_act {pc pc' : DequeuePc T} (hs : dequeueStep idOf hash s pc = some (s',pc')) :
    Act idOf hash s (.dequeue pc) s' (.dequeue pc') := by
  unfold dequeueStep at hs
  split at hs
  · split at hs <;> cases hs
    · exact .refuse
    · exact .running
  · cases hs
    exact .empty
  · cases hs
    exact .took
  · obtain ⟨⟨log,pc'⟩,ha,heq⟩ := Option.map_eq_some_iff.mp hs
    cases heq
    exact .dequeue (cursor_act ha)
  · rename_i v
    cases hs
    split
    · rename_i hon
      split
      · rename_i hf
        refine .unnamed fun _ id hv => ?_
        simpa [hv,Option.filter] using hf
      · rename_i id hf
        obtain ⟨hv,hne⟩ := Option.filter_eq_some_iff.mp hf
        exact .named hon hv (by simpa using hne)
    · rename_i hon
      exact .unnamed fun h => absurd h hon
  · obtain ⟨s₁,h1,heq⟩ := Option.map_eq_some_iff.mp hs
    cases heq
    obtain ⟨hi,hm,rfl⟩ := Queue.lock_eq h1
    exact .dequeueLock hi hm
  · cases hs
    exact .dequeueRemove
  · cases hs
    exact .dequeueUnlock
  · cases hs

theorem purge_act {pc pc' : PurgePc T} (hs : purgeStep s pc = some (s',pc')) :
    Act idOf hash s (.purgeValues pc) s' (.purgeValues pc') := by
  unfold purgeStep at hs
  split at hs
  · rename_i pc
    have ha : IdSetAct s pc (idSetStep s pc).1 (idSetStep s pc).2 := idSet_act
    cases hn : (idSetStep s pc).2 with
    | none =>
      rw [hn] at ha hs
      cases hs
      exact .purgeReady ha
    | some pc' =>
      rw [hn] at ha hs
      cases hs
      exact .purgeSet ha
  · split at hs
    · obtain ⟨s₁,h1,heq⟩ := Option.map_eq_some_iff.mp hs
      cases heq
      obtain ⟨hi,hm,rfl⟩ := Queue.lock_eq h1
      exact .purgeLock ‹_› hi hm
    · cases hs
      exact .lockedAll (Nat.le_of_not_lt ‹_›)
  · cases hs
    exact .purged
  · obtain ⟨⟨log,pc'⟩,ha,heq⟩ := Option.map_eq_some_iff.mp hs
    cases heq
    exact .purge (cursor_act ha)
  · split at hs <;> cases hs
    · exact .reset ‹_›
    · exact .resetAll (Nat.le_of_not_lt ‹_›)
  · cases hs
    exact .purgeUnlock
  · cases hs

theorem step_act {u : Unit} {new : List (Thread T)}
    (hs : step idOf hash s l u = some (s',l',new)) : Act idOf hash s l s' l' ∧ new = [] := by
  cases l with
  | enqueue x pc =>
    obtain ⟨⟨log,pc'⟩,h,heq⟩ := Option.map_eq_some_iff.mp hs
    cases heq
    exact ⟨.enqueue h,rfl⟩
  | enqueueOnce x id pc =>
    obtain ⟨⟨s₁,pc'⟩,h,heq⟩ := Option.map_eq_some_iff.mp hs
    cases heq
    exact ⟨once_act h,rfl⟩
  | dequeue pc =>
    obtain ⟨⟨s₁,pc'⟩,h,heq⟩ := Option.map_eq_some_iff.mp hs
    cases heq
    exact ⟨dequeue_act h,rfl⟩
  | values pc =>
    obtain ⟨⟨log,pc'⟩,h,heq⟩ := Option.map_eq_some_iff.mp hs
    cases heq
    exact ⟨.values (cursor_act h),rfl⟩
  | purgeValues pc =>
    obtain ⟨⟨s₁,pc'⟩,h,heq⟩ := Option.map_eq_some_iff.mp hs
    cases heq
    exact ⟨purge_act h,rfl⟩
  | close done =>
    cases done <;> cases hs
    exact ⟨.close,rfl⟩
  | setPaused on done =>
    cases done <;> cases hs
    exact ⟨.setPaused,rfl⟩

end Varmq.InMemory
