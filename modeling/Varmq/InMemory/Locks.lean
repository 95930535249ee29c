import Varmq.InMemory.Step
import Varmq.Topics.Subscribers

namespace Varmq.InMemory

open Interleaving Topics Queues

variable {T : Type} {s s' : Queue T} {idOf : T → Option String} {hash : String → Fin idShards}
  {l l' : Thread T} {xs ys ts : List (Thread T)} {i j : Fin idShards}

-- What a goroutine is doing on the log.
def proj : Thread T → Topics.Thread T
  | .enqueue x pc | .enqueueOnce x _ (.append pc) => .append x pc
  | .dequeue (.cursor pc) | .values pc | .purgeValues (.cursor pc) => .cursor 0 pc
  | .close done => .close done
  | _ => .close true

-- The control points of an operation on the queue's cursor.
def within (op : Op) : CursorPc T → Bool
  | .lock op' => op' = op
  | .look | .claimed | .take | .advance _ => op = .dequeue
  | .loadEnd b | .each b _ | .visit b _ => op = if b then .purge else .values
  | .move _ => op = .purge
  | .unlock _ | .returned _ => true
  | _ => false

def Runs : Thread T → Prop
  | .dequeue (.cursor pc) => within .dequeue pc = true
  | .values pc => within .values pc = true
  | .purgeValues (.cursor pc) => within .purge pc = true
  | _ => True

def holdsShard (hash : String → Fin idShards) (i : Fin idShards) : Thread T → Bool
  | .enqueueOnce _ id .add | .enqueueOnce _ id (.append _) | .enqueueOnce _ id .remove
  | .enqueueOnce _ id (.unlock _) | .dequeue (.remove _ id) | .dequeue (.unlock _ id) => hash id = i
  | .purgeValues (.lock j) => i.val < j
  | .purgeValues (.cursor _) => true
  | .purgeValues (.reset j _) => j ≤ i.val
  | .purgeValues (.unlock j _) => j ≤ i
  | _ => false

-- Where the id set is known to be there.
def needsIds : Thread T → Bool
  | .enqueueOnce _ _ (.idSet pc) | .purgeValues (.idSet pc) => pc = .reload
  | .enqueueOnce _ _ _ | .purgeValues _ => true
  | .dequeue (.lock _ _) | .dequeue (.remove _ _) | .dequeue (.unlock _ _) => true
  | _ => false

namespace Queue

theorem setMu_mu (h : s.ids.isSome = true) (b : Bool) :
    ((s.setMu i b).shard j).mu = if j = i then b else (s.shard j).mu := by
  obtain ⟨ids,hi⟩ := Option.isSome_iff_exists.mp h
  simp only [setMu,setShard,shard,hi,Option.map_some,Option.getD_some]
  split <;> rfl

theorem setMu_ids (s : Queue T) (i j : Fin idShards) (b : Bool) :
    ((s.setMu i b).shard j).ids = (s.shard j).ids := by
  cases hi : s.ids with
  | none => simp [setMu,setShard,shard,hi]
  | some ids =>
    simp only [setMu,setShard,shard,hi,Option.map_some,Option.getD_some]
    split
    · rename_i he
      rw [he]
    · rfl

theorem setIds_mu (s : Queue T) (i j : Fin idShards) (m : IdMap) :
    ((s.setIds i m).shard j).mu = (s.shard j).mu := by
  cases hi : s.ids with
  | none => simp [setIds,setShard,shard,hi]
  | some ids =>
    simp only [setIds,setShard,shard,hi,Option.map_some,Option.getD_some]
    split
    · rename_i he
      rw [he]
    · rfl

theorem setIds_ids (h : s.ids.isSome = true) (m : IdMap) :
    ((s.setIds i m).shard j).ids = if j = i then m else (s.shard j).ids := by
  obtain ⟨ids,hi⟩ := Option.isSome_iff_exists.mp h
  simp only [setIds,setShard,shard,hi,Option.map_some,Option.getD_some]
  split <;> rfl

@[simp] theorem makeIds_shard (s : Queue T) (i : Fin idShards) : s.makeIds.shard i = s.shard i := by
  simp [makeIds,shard]

@[simp] theorem makeIds_isSome (s : Queue T) : s.makeIds.ids.isSome = true := rfl

@[simp] theorem setMu_isSome (s : Queue T) (i : Fin idShards) (b : Bool) :
    (s.setMu i b).ids.isSome = s.ids.isSome := by
  simp [setMu,setShard]

@[simp] theorem setIds_isSome (s : Queue T) (i : Fin idShards) (m : IdMap) :
    (s.setIds i m).ids.isSome = s.ids.isSome := by
  simp [setIds,setShard]

end Queue

theorem idSet_shard {pc : IdSetPc} {r : Option IdSetPc} (hs : IdSetAct s pc s' r)
    (i : Fin idShards) : s'.shard i = s.shard i := by
  cases hs with
  | cas => exact Queue.makeIds_shard s i
  | _ => rfl

theorem idSet_kept {pc : IdSetPc} {r : Option IdSetPc} (hs : IdSetAct s pc s' r) :
    s'.log = s.log ∧ s'.idsOn = s.idsOn ∧ (s.ids.isSome = true → s'.ids.isSome = true) := by
  cases hs with
  | cas => exact ⟨rfl,rfl,fun _ => rfl⟩
  | _ => exact ⟨rfl,rfl,id⟩

theorem idSet_known {pc : IdSetPc} {r : Option IdSetPc} (hs : IdSetAct s pc s' r)
    (hp : pc = .reload → s.ids.isSome = true) (hr : r = none ∨ r = some .reload) :
    s'.ids.isSome = true := by
  cases hs with
  | found h => exact h
  | absent => rcases hr with hr | hr <;> cases hr
  | cas => rfl
  | reload => exact hp rfl

theorem within_opened {op : Op} {cur : Cursor T} (hop : op ≠ .close) (hc : cur.consume = true) :
    within op (opened cur op) = true := by
  cases op with
  | close => exact absurd rfl hop
  | purge => simp [opened,hc,within]
  | _ => rfl

theorem within_act {log log' : Log T} {op : Op} {pc pc' : CursorPc T} (hop : op ≠ .close)
    (hc : (log.cursor 0).consume = true) (hw : within op pc = true)
    (hs : CursorAct log 0 pc log' pc') : within op pc' = true := by
  cases hs with
  | enter =>
    have he := of_decide_eq_true hw
    subst he
    exact within_opened hop hc
  | close => exact absurd (of_decide_eq_true hw).symm hop
  | seekTail => cases hw
  | seek => rfl
  | lockLog => cases hw
  | remove => cases hw
  | gone | empty | advance | shown | move | unlockLog | unlock => rfl
  | _ => exact hw

theorem closes_within {op : Op} {pc : CursorPc T} (hop : op ≠ .close) (hw : within op pc = true) :
    Fanout.closes pc = false := by
  cases pc with
  | lock op' =>
    have he := of_decide_eq_true hw
    subst he
    cases op' <;> first | rfl | exact absurd rfl hop
  | lockLog | remove | unlockLog => cases hw
  | _ => rfl

theorem proj_closes (hr : Runs l) {c : ℕ} {pc : CursorPc T} (hp : proj l = .cursor c pc) :
    Fanout.closes pc = false := by
  unfold proj at hp
  split at hp <;> cases hp
  · exact closes_within (by decide) hr
  · exact closes_within (by decide) hr
  · exact closes_within (by decide) hr

-- Either a step of the log's own or none of the log's business.
def Logged (s : Queue T) (l : Thread T) (s' : Queue T) (l' : Thread T) : Prop :=
  Topics.Act s.log (proj l) s'.log (proj l') ∨
    s'.log = s.log ∧ Outside s.log (proj l) ∧ Outside s.log (proj l')

theorem act_logged (hc : 0 < s.log.cursors.length) (hs : Act idOf hash s l s' l') :
    Logged s l s' l' := by
  cases hs with
  | enqueue ha => exact .inl (.append (append_act ha))
  | append ha => exact .inl (.append (append_act ha))
  | dequeue ha => exact .inl (.cursor ha)
  | values ha => exact .inl (.cursor ha)
  | purge ha => exact .inl (.cursor ha)
  | close => exact .inl .close
  | onceSet ha => exact .inr ⟨(idSet_kept ha).1,trivial,trivial⟩
  | onceReady ha => exact .inr ⟨(idSet_kept ha).1,trivial,trivial⟩
  | purgeSet ha => exact .inr ⟨(idSet_kept ha).1,trivial,trivial⟩
  | purgeReady ha => exact .inr ⟨(idSet_kept ha).1,trivial,trivial⟩
  | running | lockedAll => exact .inr ⟨rfl,trivial,hc⟩
  | empty | took | purged => exact .inr ⟨rfl,hc,trivial⟩
  | _ => exact .inr ⟨rfl,trivial,trivial⟩

-- Taking and giving back the lock of one shard.
theorem shard_taken (hi : s.ids.isSome = true) (hm : (s.shard j).mu = false)
    (hl : ∀ i, holdsShard hash i l' = (holdsShard hash i l || decide (i = j)))
    (hj : holdsShard hash j l = false) (i : Fin idShards) :
    one ((s.setMu j true).shard i).mu + one (holdsShard hash i l) =
      one (s.shard i).mu + one (holdsShard hash i l') := by
  rw [Queue.setMu_mu hi,hl]
  by_cases he : i = j
  · subst he
    simp [hm,hj]
  · simp [he]

theorem shard_given (hi : s.ids.isSome = true) (hm : (s.shard j).mu = true)
    (hl : ∀ i, holdsShard hash i l = (holdsShard hash i l' || decide (i = j)))
    (hj : holdsShard hash j l' = false) (i : Fin idShards) :
    one ((s.setMu j false).shard i).mu + one (holdsShard hash i l) =
      one (s.shard i).mu + one (holdsShard hash i l') := by
  rw [Queue.setMu_mu hi,hl]
  by_cases he : i = j
  · subst he
    simp [hm,hj]
  · simp [he]

theorem act_shards (hi : needsIds l = true → s.ids.isSome = true)
    (hm : ∀ i, holdsShard hash i l = true → (s.shard i).mu = true)
    (hs : Act idOf hash s l s' l') (i : Fin idShards) :
    one (s'.shard i).mu + one (holdsShard hash i l) =
      one (s.shard i).mu + one (holdsShard hash i l') := by
  cases hs with
  | onceSet ha => rw [idSet_shard ha]; rfl
  | onceReady ha => rw [idSet_shard ha]; rfl
  | purgeSet ha => rw [idSet_shard ha]; rfl
  | purgeReady ha =>
    rw [idSet_shard ha]
    simp [holdsShard]
  | onceLock h1 h2 => exact shard_taken h1 h2 (fun i => by simp [holdsShard,eq_comm]) rfl i
  | dequeueLock h1 h2 => exact shard_taken h1 h2 (fun i => by simp [holdsShard,eq_comm]) rfl i
  | purgeLock h h1 h2 =>
    refine shard_taken h1 h2 (fun i => ?_) (by simp [holdsShard]) i
    simp only [holdsShard,Fin.ext_iff]
    rw [← Bool.decide_or]
    exact decide_eq_decide.mpr Nat.lt_succ_iff_lt_or_eq
  | onceUnlock =>
    exact shard_given (hi rfl) (hm _ (by simp [holdsShard])) (fun i => by simp [holdsShard,eq_comm])
      rfl i
  | dequeueUnlock =>
    exact shard_given (hi rfl) (hm _ (by simp [holdsShard])) (fun i => by simp [holdsShard,eq_comm])
      rfl i
  | @purgeUnlock k vals =>
    refine shard_given (hi rfl) (hm k (by simp [holdsShard])) (fun i => ?_) (by simp [holdsShard]) i
    simp only [holdsShard,Fin.ext_iff,Fin.le_def]
    rw [← Bool.decide_or]
    exact decide_eq_decide.mpr (by omega)
  | add => rw [Queue.setIds_mu]; rfl
  | repeated => rw [Queue.setIds_mu]; rfl
  | onceRemove => rw [Queue.setIds_mu]; rfl
  | dequeueRemove => rw [Queue.setIds_mu]; rfl
  | reset h =>
    rw [Queue.setIds_mu]
    simp [holdsShard,Fin.le_def]
  | lockedAll h =>
    have := Nat.lt_of_lt_of_le i.isLt h
    simp [holdsShard,this]
  | resetAll h =>
    have := Nat.lt_of_lt_of_le i.isLt h
    simp [holdsShard,Nat.not_le_of_lt this]
  | purged => simp [holdsShard]
  | _ => rfl

structure Held (hash : String → Fin idShards) (s : Queue T) (ts : List (Thread T)) : Prop where
  log : Inv s.log (ts.map proj)
  cursor : 0 < s.log.cursors.length
  consume : (s.log.cursor 0).consume = true
  chunk : (s.log.cursor 0).chunk.isSome = true
  ids : ∀ t ∈ ts, needsIds t = true → s.ids.isSome = true
  on : s.idsOn = true → s.ids.isSome = true
  shards : ∀ i, one (s.shard i).mu = total (fun t => one (holdsShard hash i t)) ts
  runs : ∀ t ∈ ts, Runs t

theorem Held.split (h : Held hash s (xs ++ l :: ys)) :
    Inv s.log (xs.map proj ++ proj l :: ys.map proj) := by
  have := h.log
  rwa [List.map_append,List.map_cons] at this

theorem Held.locked (h : Held hash s ts) (hl : l ∈ ts) (hh : holdsShard hash i l = true) :
    (s.shard i).mu = true := by
  have h1 := h.shards i
  have h2 := le_total (f := fun t => one (holdsShard hash i t)) hl
  simp only [hh,one_true] at h2
  cases hm : (s.shard i).mu
  · rw [hm,one_false] at h1
    omega
  · rfl

-- One goroutine at most is inside a shard's lock.
theorem Held.alone (h : Held hash s (xs ++ l :: ys)) {t : Thread T} (ht : t ∈ xs ++ ys)
    (hh : holdsShard hash i t = true) : holdsShard hash i l = false := by
  refine one_eq_zero (eq_zero_of_other (f := fun t => one (holdsShard hash i t)) ?_ ht ?_)
  · rw [← h.shards]
    exact one_le _
  · simp [hh]

theorem Held.logged (h : Held hash s (xs ++ l :: ys)) (hs : Act idOf hash s l s' l') :
    Logged s l s' l' := act_logged h.cursor hs

theorem Held.inv_log (h : Held hash s (xs ++ l :: ys)) (hs : Act idOf hash s l s' l') :
    Inv s'.log ((xs ++ l' :: ys).map proj) := by
  rw [List.map_append,List.map_cons]
  rcases h.logged hs with ha | ⟨he,ho,ho'⟩
  · exact inv_act h.split ha
  · rw [he]
    exact inv_swap h.split ho ho'

theorem act_ids (hs : Act idOf hash s l s' l') (hi : s.ids.isSome = true) :
    s'.ids.isSome = true := by
  cases hs with
  | onceSet ha | onceReady ha | purgeSet ha | purgeReady ha => exact (idSet_kept ha).2.2 hi
  | onceLock | add | repeated | onceRemove | onceUnlock | dequeueLock | dequeueRemove | dequeueUnlock
  | purgeLock | reset | purgeUnlock => simpa using hi
  | _ => exact hi

theorem act_needs (hn : needsIds l = true → s.ids.isSome = true)
    (hon : s.idsOn = true → s.ids.isSome = true) (hs : Act idOf hash s l s' l')
    (hl : needsIds l' = true) : s'.ids.isSome = true := by
  cases hs with
  | onceSet ha =>
    exact idSet_known ha (fun hp => hn (by simp [needsIds,hp])) (.inr (by rw [of_decide_eq_true hl]))
  | onceReady ha => exact idSet_known ha (fun hp => hn (by simp [needsIds,hp])) (.inl rfl)
  | purgeSet ha =>
    exact idSet_known ha (fun hp => hn (by simp [needsIds,hp])) (.inr (by rw [of_decide_eq_true hl]))
  | purgeReady ha => exact idSet_known ha (fun hp => hn (by simp [needsIds,hp])) (.inl rfl)
  | named h => exact hon h
  | onceLock h | dequeueLock h | purgeLock _ h => simpa using h
  | add | repeated | onceRemove | onceUnlock | dequeueRemove | dequeueUnlock | reset | purgeUnlock =>
    simpa using hn rfl
  | enqueue | refuse | running | dequeue | empty | took | unnamed | values | close | setPaused =>
    cases hl
  | _ => exact hn rfl

theorem act_on (hn : needsIds l = true → s.ids.isSome = true)
    (hon : s.idsOn = true → s.ids.isSome = true) (hs : Act idOf hash s l s' l')
    (h' : s'.idsOn = true) : s'.ids.isSome = true := by
  cases hs with
  | onceSet ha | onceReady ha | purgeSet ha | purgeReady ha =>
    obtain ⟨-,h2,h3⟩ := idSet_kept ha
    exact h3 (hon (h2 ▸ h'))
  | storeOn => exact hn rfl
  | onceLock | add | repeated | onceRemove | onceUnlock | dequeueLock | dequeueRemove | dequeueUnlock
  | purgeLock | reset | purgeUnlock => simpa using hon h'
  | _ => exact hon h'

theorem act_runs (hr : Runs l) (hc : (s.log.cursor 0).consume = true)
    (hs : Act idOf hash s l s' l') : Runs l' := by
  cases hs with
  | dequeue ha => exact within_act (by decide) hc hr ha
  | values ha => exact within_act (by decide) hc hr ha
  | purge ha => exact within_act (by decide) hc hr ha
  | running => rfl
  | lockedAll => rfl
  | _ => trivial

theorem held_act (h : Held hash s (xs ++ l :: ys)) (hs : Act idOf hash s l s' l') :
    Held hash s' (xs ++ l' :: ys) := by
  have hl : l ∈ xs ++ l :: ys := by simp
  have hrun := h.runs l hl
  have hcur : 0 < s'.log.cursors.length ∧ (s'.log.cursor 0).consume = true ∧
      (s'.log.cursor 0).chunk.isSome = true := by
    rcases h.logged hs with ha | ⟨he,-,-⟩
    · refine ⟨Nat.lt_of_lt_of_le h.cursor (h.split.locked ha).length,?_,?_⟩
      · rw [(h.split.stays ha h.cursor).1]
        exact h.consume
      · exact Fanout.chunk_kept h.split ha h.cursor (fun pc hp => proj_closes hrun hp) h.chunk
    · rw [he]
      exact ⟨h.cursor,h.consume,h.chunk⟩
  refine ⟨h.inv_log hs,hcur.1,hcur.2.1,hcur.2.2,fun t ht hn => ?_,act_on (h.ids l hl) h.on hs,
    fun i => ?_,fun t ht => ?_⟩
  · rcases mem_split ht with ht | rfl
    · exact act_ids hs (h.ids t (mem_of_other ht) hn)
    · exact act_needs (h.ids l hl) h.on hs hn
  · have h1 := h.shards i
    have h2 := act_shards (h.ids l hl) (fun i hh => h.locked hl hh) hs i
    rw [total_split] at h1 ⊢
    omega
  · rcases mem_split ht with ht | rfl
    · exact h.runs t (mem_of_other ht)
    · exact act_runs hrun h.consume hs

theorem entry_begins (he : entry s l = true) (hc : 0 < s.log.cursors.length) :
    Outside s.log (proj l) ∧ needsIds l = false ∧ (∀ i, holdsShard hash i l = false) ∧ Runs l := by
  unfold entry at he
  split at he
  · exact ⟨trivial,rfl,fun _ => rfl,trivial⟩
  · exact ⟨trivial,rfl,fun _ => rfl,trivial⟩
  · exact ⟨trivial,rfl,fun _ => rfl,trivial⟩
  · exact ⟨hc,rfl,fun _ => rfl,rfl⟩
  · exact ⟨trivial,rfl,fun _ => rfl,trivial⟩
  · exact ⟨trivial,rfl,fun _ => rfl,trivial⟩
  · exact ⟨trivial,rfl,fun _ => rfl,trivial⟩
  · cases he

theorem held_call (h : Held hash s ts) (he : entry s l = true) : Held hash s (ts ++ [l]) := by
  obtain ⟨ho,hn,hh,hr⟩ : Outside s.log (proj l) ∧ needsIds l = false ∧
      (∀ i, holdsShard hash i l = false) ∧ Runs l := entry_begins he h.cursor
  refine ⟨?_,h.cursor,h.consume,h.chunk,forall_call h.ids fun h' => ?_,h.on,fun i => ?_,
    forall_call h.runs hr⟩
  · rw [List.map_append]
    exact inv_call h.log ho
  · rw [hn] at h'
    cases h'
  · rw [total_call,hh]
    exact h.shards i

-- The log after the NewCursor of NewConsumer, whose goroutine is gone.
theorem inv_newQueue (capacity : ℕ) : Inv (newQueue capacity : Queue T).log [] := by
  have step : ∀ {s s' : Log T} {pc pc' : NewPc}, Inv s ([] ++ .newCursor pc :: []) →
      newStep s pc = some (s',pc') → Inv s' ([] ++ .newCursor pc' :: []) :=
    fun h hs => inv_act h (.newCursor (new_act hs))
  have h1 : Inv (newBoundedLog capacity : Log T) ([] ++ .newCursor (.lock true) :: []) :=
    inv_call (inv_new capacity) trivial
  have h2 : Inv (newQueue capacity : Queue T).log ([] ++ .newCursor (.returned 0) :: []) :=
    step (step (step (step (step (step h1 rfl) rfl) rfl) rfl) rfl) rfl
  exact inv_drop h2 trivial

theorem held_start (capacity : ℕ) : Held hash (newQueue capacity : Queue T) [] :=
  ⟨inv_newQueue capacity,Nat.one_pos,rfl,rfl,fun t ht => (by cases ht),(fun h => by cases h),
    fun _ => rfl,fun t ht => by cases ht⟩

theorem held_reach {ok : Guard (Queue T) (Thread T) Unit} {capacity : ℕ}
    {w : World (Queue T) (Thread T)} (h : (program idOf hash).Reach ok (start capacity) w) :
    Held hash w.shared w.threads := by
  refine Program.reach_invariant (held_start capacity) (fun _ _ _ h _ he => held_call h he)
    (fun s xs l ys u s' l' new h _ hs => ?_) h
  obtain ⟨ha,rfl⟩ := step_act hs
  rw [List.append_nil]
  exact held_act h ha

end Varmq.InMemory
