import Varmq.InMemory.Locks

namespace Varmq.InMemory

open Interleaving Topics Queues

variable {T : Type} {s s' : Queue T} {idOf : T → Option String} {hash : String → Fin idShards}
  {once : String → Bool} {x : T} {id d : String} {l l' : Thread T} {xs ys ts : List (Thread T)}

def listed (hash : String → Fin idShards) (s : Queue T) (id : String) : Bool :=
  id ∈ (s.shard (hash id)).ids.m

-- How many of the items have the id.
def among (idOf : T → Option String) (id : String) (vs : List (Option T)) : ℕ :=
  vs.countP fun v => v.bind idOf = some id

def unread (idOf : T → Option String) (id : String) (log : Log T) : ℕ :=
  (log.claims.drop (log.cursor 0).front).countP fun x => idOf x = some id

-- The items a reader has taken out of the log.
def inHands : CursorPc T → List (Option T)
  | .advance v => [v]
  | .each _ e | .visit _ e | .move e => e.out
  | .unlock r | .returned r => r
  | _ => []

-- The Append has not claimed an offset for its item, or has refused it.
def carries : AppendPc → Bool
  | .loadLimit | .lock | .check | .full _ _ | .loadOpen _ | .loadClosed _ _ | .loadTail _ _
  | .claim _ _ _ => true
  | .unlock n | .returned n => n = 0
  | _ => false

def carrying (id : String) : Thread T → ℕ
  | .enqueueOnce _ d (.append pc) => one (d = id && carries pc)
  | .enqueueOnce _ d .remove => one (d = id)
  | _ => 0

-- The items with the id in the hands of a call that still has to free the id.
def owed (idOf : T → Option String) (hash : String → Fin idShards) (id : String) : Thread T → ℕ
  | .dequeue (.cursor pc) | .purgeValues (.cursor pc) => among idOf id (inHands pc)
  | .dequeue (.loadOn v) | .dequeue (.lock v _) | .dequeue (.remove v _) => among idOf id [v]
  | .purgeValues (.reset i vals) => if i ≤ (hash id).val then among idOf id vals else 0
  | .purgeValues (.unlock i vals) => if i < hash id then among idOf id vals else 0
  | _ => 0

def bears (idOf : T → Option String) (hash : String → Fin idShards) (id : String) (t : Thread T) :
    ℕ := carrying id t + owed idOf hash id t

-- What the callers promise about the ids, and what a goroutine knows of the item in its hands.
def Named (idOf : T → Option String) (once : String → Bool) : Thread T → Prop
  | .enqueue x _ => ∀ d, idOf x = some d → once d = false
  | .enqueueOnce x d _ => idOf x = some d ∧ once d = true ∧ d ≠ ""
  | .dequeue (.cursor (.unlock r)) | .dequeue (.cursor (.returned r)) => r.length ≤ 1
  | .dequeue (.lock v d) | .dequeue (.remove v d) => v.bind idOf = some d
  | _ => True

theorem among_cons (v : Option T) (vs : List (Option T)) :
    among idOf id (v :: vs) = among idOf id vs + if v.bind idOf = some id then 1 else 0 := by
  simp [among,List.countP_cons]

theorem among_append (vs ws : List (Option T)) :
    among idOf id (vs ++ ws) = among idOf id vs + among idOf id ws := by
  simp [among]

theorem listed_setIds (hash : String → Fin idShards) (id : String) (hi : s.ids.isSome = true)
    (i : Fin idShards) (m : IdMap) :
    listed hash (s.setIds i m) id = if hash id = i then decide (id ∈ m.m) else listed hash s id := by
  simp only [listed,Queue.setIds_ids hi]
  split <;> rfl

theorem listed_setMu (i : Fin idShards) (b : Bool) :
    listed hash (s.setMu i b) id = listed hash s id := by
  simp only [listed,Queue.setMu_ids]

theorem listed_add (id d : String) (hi : s.ids.isSome = true) :
    listed hash (s.setIds (hash d) ((s.shard (hash d)).ids.add d).1) id =
      (decide (id = d) || listed hash s id) := by
  rw [listed_setIds hash id hi]
  split
  · rename_i he
    simp [listed,he]
  · rename_i hne
    have : id ≠ d := fun he => hne (by rw [he])
    simp [this]

theorem listed_remove (hash : String → Fin idShards) (id d : String) (hi : s.ids.isSome = true) :
    listed hash (s.setIds (hash d) ((s.shard (hash d)).ids.remove d)) id =
      (listed hash s id && decide (id ≠ d)) := by
  rw [listed_setIds hash id hi]
  split
  · rename_i he
    simp [listed,he]
  · rename_i hne
    have : id ≠ d := fun he => hne (by rw [he])
    simp [this]

-- What Append does to the items claimed, with its own item in hand.
theorem append_claims {log log' : Log T} {pc pc' : AppendPc} (hk : KnowsAppend log x pc)
    (hs : appendStep log x pc = some (log',pc')) : log'.cursors = log.cursors ∧
      ((log'.claims = log.claims ∧ carries pc' = carries pc) ∨
        (log'.claims = log.claims ++ [x] ∧ carries pc = true ∧ carries pc' = false)) := by
  have hfin : ∀ b n, carries (finish b n) = decide (n = 0) := by
    intro b n
    cases b <;> rfl
  cases pc with
  | loadLimit =>
    cases hs
    split <;> exact ⟨rfl,.inl ⟨rfl,rfl⟩⟩
  | lock =>
    simp only [appendStep] at hs
    split at hs <;> cases hs
    exact ⟨rfl,.inl ⟨rfl,rfl⟩⟩
  | check =>
    cases hs
    split <;> exact ⟨rfl,.inl ⟨rfl,rfl⟩⟩
  | full rest m =>
    cases rest with
    | nil =>
      cases hs
      split <;> exact ⟨rfl,.inl ⟨rfl,rfl⟩⟩
    | cons c rest =>
      cases hs
      exact ⟨rfl,.inl ⟨rfl,rfl⟩⟩
  | loadClosed b n =>
    cases hs
    split
    · exact ⟨rfl,.inl ⟨rfl,hfin b 0⟩⟩
    · exact ⟨rfl,.inl ⟨rfl,rfl⟩⟩
  | loadTail b n =>
    obtain ⟨t,ht,heq⟩ := Option.map_eq_some_iff.mp hs
    cases heq
    exact ⟨rfl,.inl ⟨rfl,rfl⟩⟩
  | claim b n t =>
    cases hs
    exact ⟨rfl,.inr ⟨rfl,rfl,rfl⟩⟩
  | next a t k =>
    simp only [appendStep] at hs
    split at hs
    · cases hs
      exact ⟨rfl,.inl ⟨rfl,rfl⟩⟩
    · split at hs <;> cases hs <;> exact ⟨rfl,.inl ⟨rfl,rfl⟩⟩
  | link a t k =>
    simp only [appendStep] at hs
    split at hs
    · cases hs
      exact ⟨rfl,.inl ⟨rfl,rfl⟩⟩
    · split at hs <;> cases hs <;> exact ⟨rfl,.inl ⟨rfl,rfl⟩⟩
  | grow a t k =>
    cases hs
    split <;> exact ⟨rfl,.inl ⟨rfl,rfl⟩⟩
  | publish a t =>
    cases hs
    refine ⟨rfl,.inl ⟨rfl,(hfin _ _).trans ?_⟩⟩
    exact decide_eq_false hk.1.1
  | returned n => cases hs
  | _ =>
    cases hs
    exact ⟨rfl,.inl ⟨rfl,rfl⟩⟩

theorem unread_same (idOf : T → Option String) (id : String) {log log' : Log T} (h1 : log'.claims = log.claims)
    (h2 : (log'.cursor 0).front = (log.cursor 0).front) : unread idOf id log' = unread idOf id log := by
  rw [unread,unread,h1,h2]

theorem unread_claim (idOf : T → Option String) (id : String) {log log' : Log T} (hle : (log.cursor 0).front ≤ log.claims.length)
    (h1 : log'.claims = log.claims ++ [x]) (h2 : log'.cursors = log.cursors) :
    unread idOf id log' = unread idOf id log + if idOf x = some id then 1 else 0 := by
  have hc : log'.cursor 0 = log.cursor 0 := by rw [Log.cursor,Log.cursor,h2]
  rw [unread,unread,h1,hc,List.drop_append_of_le_length hle,List.countP_append]
  simp [List.countP_cons]

theorem unread_taken (idOf : T → Option String) (id : String) {log log' : Log T} (h1 : log'.claims = log.claims)
    (h2 : log.claims[(log.cursor 0).front]? = some x)
    (h3 : (log'.cursor 0).front = (log.cursor 0).front + 1) :
    unread idOf id log' + among idOf id [some x] = unread idOf id log := by
  obtain ⟨hlt,hx⟩ := List.getElem?_eq_some_iff.mp h2
  rw [unread,unread,h1,h3,List.drop_eq_getElem_cons hlt,hx,List.countP_cons]
  simp [among]

-- What one reader's step takes out of the log.
inductive Taken (log log' : Log T) (pc pc' : CursorPc T) : Prop
  | none (hf : (log'.cursor 0).front = (log.cursor 0).front) (hh : inHands pc' = inHands pc)
  | one (x : T) (hx : log.claims[(log.cursor 0).front]? = some x)
      (hf : (log'.cursor 0).front = (log.cursor 0).front + 1)
      (hh : inHands pc' = inHands pc ++ [some x])

theorem inHands_opened (cur : Cursor T) (op : Op) : inHands (opened cur op) = [] := by
  cases op <;> simp only [opened] <;> first | rfl | split <;> rfl

theorem readable_front {log : Log T} {o t i : ℕ} {v : Option T} (hi : Chain log)
    (hlt : ∀ o, log.published o = true → o < log.head) (hk : Kept log (log.cursor 0).front)
    (ho : o = (log.cursor 0).front) (hpos : chunkCapacity * t + i = o) (hidx : i < chunkCapacity)
    (hpub : log.published o = true) (hv : (log.chunk t).data.getD i none = v) :
    ∃ x, log.claims[(log.cursor 0).front]? = some x ∧ v = some x := by
  obtain ⟨-,y,hy,hx⟩ := hk.readable hlt hi hidx hpos (Nat.le_of_eq ho.symm) hpub
  exact ⟨y,ho ▸ hy,hv.symm.trans hx⟩

theorem cursor_taken {log log' : Log T} {op : Op} {pc pc' : CursorPc T} (hi : Chain log)
    (hlen : 0 < log.cursors.length)
    (hlt : ∀ o, log.published o = true → o < log.head) (hkept : Kept log (log.cursor 0).front)
    (hk : KnowsCursor log (log.cursor 0) pc) (hop : op = .dequeue ∨ op = .purge)
    (hw : within op pc = true) (hs : CursorAct log 0 pc log' pc') :
    log'.claims = log.claims ∧ Taken log log' pc pc' := by
  have hset : ∀ cur : Cursor T, (log.setCursor 0 cur).cursor 0 = cur := by
    intro cur
    rw [cursor_set,if_pos ⟨rfl,hlen⟩]
  cases hs with
  | enter =>
    refine ⟨rfl,.none ?_ (inHands_opened _ _)⟩
    rw [hset]
  | close | gone | hop | advance | unlock | move | shown =>
    refine ⟨rfl,.none ?_ rfl⟩
    rw [hset]
  | @take t hc =>
    obtain ⟨⟨⟨u,hu,hlen',hpos⟩,hfront⟩,hidx,hpub⟩ := hk
    rw [hc] at hu
    cases hu
    obtain ⟨x,hx,hv⟩ := readable_front hi hlt hkept hfront.symm hpos hidx hpub rfl
    have hcur : (((if (log.cursor 0).consume then log.setData t (log.cursor 0).idx none else log).setCursor
        0 { log.cursor 0 with idx := (log.cursor 0).idx + 1, front := (log.cursor 0).front + 1 }).cursor
          0) = { log.cursor 0 with
            idx := (log.cursor 0).idx + 1, front := (log.cursor 0).front + 1 } := by
      split <;> rw [cursor_set,if_pos ⟨rfl,hlen⟩]
    refine ⟨by split <;> rfl,.one x hx ?_ ?_⟩
    · rw [hcur]
    · rw [inHands,hv]
      rfl
  | @clear e =>
    obtain ⟨he,-,hidx,hpub⟩ := hk
    have hoff : e.off = (log.cursor 0).front := by
      rw [he.front]
      rfl
    obtain ⟨x,hx,hv⟩ := readable_front hi hlt hkept hoff he.off hidx hpub rfl
    refine ⟨rfl,.one x hx ?_ ?_⟩
    · rw [cursor_set,if_pos ⟨rfl,hlen⟩]
    · simp only [inHands,hv]
  | visit =>
    rcases hop with rfl | rfl <;> cases hw
  | seekTail | lockLog | remove | unlockLog => cases hw
  | seek => cases hw
  | _ => exact ⟨rfl,.none rfl rfl⟩

theorem values_front {log log' : Log T} {pc pc' : CursorPc T} (hlen : 0 < log.cursors.length)
    (hw : within .values pc = true) (hs : CursorAct log 0 pc log' pc') :
    log'.claims = log.claims ∧ (log'.cursor 0).front = (log.cursor 0).front := by
  have hset : ∀ cur : Cursor T, (log.setCursor 0 cur).cursor 0 = cur := by
    intro cur
    rw [cursor_set,if_pos ⟨rfl,hlen⟩]
  cases hs with
  | enter | close | gone | hop | advance | unlock | shown =>
    refine ⟨rfl,?_⟩
    rw [hset]
  | take | clear | move | seek => cases hw
  | _ => exact ⟨rfl,rfl⟩

-- A goroutine's step moves the items with an id between the log and its hands, or frees the id.
inductive Moved (idOf : T → Option String) (hash : String → Fin idShards) (id : String)
    (s s' : Queue T) (l l' : Thread T) : Prop
  | kept (h : one (listed hash s' id) + (unread idOf id s.log + bears idOf hash id l) =
      one (listed hash s id) + (unread idOf id s'.log + bears idOf hash id l'))
  | freed (h : listed hash s' id = false) (hu : unread idOf id s'.log = unread idOf id s.log)
      (h1 : bears idOf hash id l = 1) (h0 : bears idOf hash id l' = 0)
  | reset (vals : List (Option T)) (hl : l = .purgeValues (.reset (hash id) vals))
      (h : listed hash s' id = false) (hu : unread idOf id s'.log = unread idOf id s.log)
      (h0 : bears idOf hash id l' = 0)

theorem Moved.same (h1 : listed hash s' id = listed hash s id) (h2 : s'.log = s.log)
    (h3 : bears idOf hash id l' = bears idOf hash id l) : Moved idOf hash id s s' l l' :=
  .kept (by rw [h1,h2,h3])

theorem Moved.read (h1 : s'.ids = s.ids) (hc : s'.log.claims = s.log.claims)
    {pc pc' : CursorPc T} (h : Taken s.log s'.log pc pc')
    (hl : bears idOf hash id l = among idOf id (inHands pc))
    (hl' : bears idOf hash id l' = among idOf id (inHands pc')) : Moved idOf hash id s s' l l' := by
  have hlist : listed hash s' id = listed hash s id := by
    rw [listed,listed,Queue.shard,Queue.shard,h1]
  refine .kept ?_
  rw [hlist,hl,hl']
  cases h with
  | none hf hh => rw [unread_same idOf id hc hf,hh]
  | one x hx hf hh =>
    have := unread_taken idOf id hc hx hf
    rw [hh,among_append]
    omega

theorem Held.front_le (h : Held hash s ts) : (s.log.cursor 0).front ≤ s.log.claims.length := by
  rw [← h.log.chain.head]
  have hat : ∀ {cur : Cursor T}, At s.log cur → Sound s.log cur → cur.front ≤ s.log.head :=
    fun ha hs => Nat.le_trans (Nat.le_of_eq ha.2) hs.offset
  have hsound := h.log.sound 0 h.cursor
  have hidle : Idle s.log (s.log.cursor 0) → (s.log.cursor 0).front ≤ s.log.head := by
    rintro (hn | ha)
    · have := h.chunk
      rw [hn] at this
      cases this
    · exact hat ha hsound
  cases hm : (s.log.cursor 0).mx with
  | false => exact hidle (h.log.idle 0 h.cursor hm)
  | true =>
    have h1 := h.log.cursor 0 h.cursor
    have hne : ¬∀ t ∈ ts.map proj, one (holds 0 t) = 0 := fun hz => by
      rw [hm,total_eq_zero.mpr hz] at h1
      cases h1
    push Not at hne
    obtain ⟨p,hp,hh⟩ := hne
    obtain ⟨t,ht,rfl⟩ := List.mem_map.mp hp
    cases hpt : proj t with
    | cursor c pc =>
      have hcl := proj_closes (h.runs t ht) hpt
      rw [hpt] at hp hh
      obtain ⟨hin,rfl⟩ : pc.inside = true ∧ c = 0 := by
        simp only [holds] at hh
        cases hin : pc.inside
        · simp [hin] at hh
        · exact ⟨rfl,by simpa [hin,one] using hh⟩
      have hk := (h.log.reader 0 pc hp).2
      cases pc with
      | look | claimed => exact hat hk hsound
      | take => exact hat hk.1 hsound
      | loadEnd b => exact hat hk.1 hsound
      | seekTail => exact hat hk.1 hsound
      | seekHead t => exact hat hk.1.1 hsound
      | seek t p => exact hat hk.1.1 hsound
      | advance v =>
        obtain ⟨-,hf,-,y,hy,-⟩ := hk
        have hlt := (List.getElem?_eq_some_iff.mp hy).1
        rw [← h.log.chain.head] at hlt
        rw [hf]
        exact hlt
      | each b e =>
        rw [hk.front]
        have := hk.stop
        have := hk.head
        have := hsound.offset
        split <;> omega
      | visit b e =>
        rw [hk.1.front]
        have := hk.1.stop
        have := hk.1.head
        have := hsound.offset
        split <;> omega
      | move e =>
        rw [hk.1.front]
        exact Nat.le_trans hk.1.stop hk.1.head
      | unlock r => exact hidle hk
      | lock op | returned r => cases hin
      | lockLog | remove | unlockLog => cases hcl
    | append x pc | newCursor pc | close done =>
      rw [hpt] at hh
      exact absurd rfl hh

theorem act_moved (h : Held hash s (xs ++ l :: ys)) (hn : Named idOf once l)
    (hid : once id = true) (hne : id ≠ "")
    (hon : 0 < bears idOf hash id l → s.idsOn = true)
    (hs : Act idOf hash s l s' l') : Moved idOf hash id s s' l l' := by
  have hl : l ∈ xs ++ l :: ys := by simp
  have hids := h.ids l hl
  have hle := h.front_le
  have reads : ∀ {op : Op} {pc pc' : CursorPc T} {log : Log T}, proj l = .cursor 0 pc →
      op = .dequeue ∨ op = .purge → within op pc = true → CursorAct s.log 0 pc log pc' →
      log.claims = s.log.claims ∧ Taken s.log log pc pc' := by
    intro op pc pc' log hp hop hw ha
    have hmem : .cursor 0 pc ∈ (xs ++ l :: ys).map proj := by
      rw [← hp]
      exact List.mem_map_of_mem hl
    exact cursor_taken h.log.chain h.cursor (fun o => h.log.claimed) (h.log.kept 0 h.cursor h.chunk)
      (h.log.reader 0 pc hmem).2 hop hw ha
  have fresh : ∀ {x : T} {pc : AppendPc}, proj l = .append x pc → KnowsAppend s.log x pc := by
    intro x pc hp
    refine h.log.append x pc ?_
    rw [← hp]
    exact List.mem_map_of_mem hl
  have alike : ∀ {log : Log T}, log.cursors = s.log.cursors →
      (log.cursor 0).front = (s.log.cursor 0).front := by
    intro log hc
    rw [Log.cursor,Log.cursor,hc]
  cases hs with
  | @enqueue x pc pc' log ha =>
    obtain ⟨hc,h1⟩ := append_claims (fresh rfl) ha
    have hx : idOf x ≠ some id := fun he => by
      have := hn id he
      rw [hid] at this
      cases this
    refine .kept ?_
    rcases h1 with ⟨h1,-⟩ | ⟨h1,-,-⟩
    · rw [unread_same idOf id h1 (alike hc)]
      rfl
    · rw [unread_claim idOf id hle h1 hc,if_neg hx]
      rfl
  | onceSet ha | onceReady ha | purgeSet ha | purgeReady ha =>
    refine .same ?_ (idSet_kept ha).1 rfl
    rw [listed,listed,idSet_shard ha]
  | onceLock | onceUnlock | dequeueLock | dequeueUnlock | purgeLock =>
    exact .same (listed_setMu _ _) rfl rfl
  | @add x d hnew =>
    have hd : d ∉ (s.shard (hash d)).ids.m := IdMap.add_new.mp hnew
    refine .kept ?_
    rw [listed_add id d (hids rfl)]
    by_cases he : id = d
    · subst he
      simp only [listed,hd,bears,carrying,owed,carries,decide_true,decide_false,Bool.or_false,
        Bool.and_self,one_true,one_false]
      rw [show (s.setIds (hash id) ((s.shard (hash id)).ids.add id).1).log = s.log from rfl]
      omega
    · simp only [bears,carrying,owed,carries,he,Ne.symm he,decide_false,Bool.false_or,Bool.false_and,
        one_false]
      rfl
  | @repeated x d hold =>
    have hd : d ∈ (s.shard (hash d)).ids.m := by
      by_contra hd
      rw [IdMap.add_new.mpr hd] at hold
      cases hold
    refine .same ?_ rfl rfl
    rw [listed_add id d (hids rfl)]
    by_cases he : id = d
    · subst he
      simp [listed,hd]
    · simp [he]
  | @append x d pc pc' log ha =>
    obtain ⟨hc,h1⟩ := append_claims (fresh rfl) ha
    refine .kept ?_
    rcases h1 with ⟨h1,h2⟩ | ⟨h1,h2,h3⟩
    · rw [unread_same idOf id h1 (alike hc)]
      simp only [bears,carrying,owed,h2]
      rfl
    · rw [unread_claim idOf id hle h1 hc]
      simp only [bears,carrying,owed,h2,h3,Bool.and_true,Bool.and_false,one_false,hn.1,
        Option.some.injEq]
      change one (listed hash s id) + _ = one (listed hash s id) + _
      by_cases he : d = id
      · simp [he]
      · simp [he]
  | @refused x d => exact .same rfl rfl (by simp [bears,carrying,owed,carries])
  | @stored x d n hn0 => exact .same rfl rfl (by simp [bears,carrying,owed,carries,hn0])
  | @onceRemove x d =>
    have hrem := listed_remove hash id d (hids rfl)
    by_cases he : d = id
    · refine .freed ?_ rfl ?_ rfl
      · rw [hrem]
        simp [he]
      · simp [bears,carrying,owed,he]
    · refine .same ?_ rfl ?_
      · rw [hrem]
        simp [Ne.symm he]
      · simp [bears,carrying,owed,he]
  | @dequeue pc pc' log ha =>
    obtain ⟨hc,ht⟩ := reads rfl (.inl rfl) (h.runs _ hl) ha
    exact .read rfl hc ht (by simp [bears,carrying,owed]) (by simp [bears,carrying,owed])
  | @took v vs =>
    refine .same rfl rfl ?_
    have hvs : vs = [] := by
      have : (v :: vs).length ≤ 1 := hn
      simpa using this
    subst hvs
    rfl
  | named => exact .same rfl rfl rfl
  | @unnamed v hv =>
    refine .same rfl rfl ?_
    have hz : ¬v.bind idOf = some id := fun he => by
      refine hne (hv (hon ?_) id he)
      simp [bears,owed,among,he]
    simp [bears,carrying,owed,among,hz]
  | @dequeueRemove v d =>
    have hrem := listed_remove hash id d (hids rfl)
    have hv : v.bind idOf = some d := hn
    by_cases he : d = id
    · refine .freed ?_ rfl ?_ rfl
      · rw [hrem]
        simp [he]
      · simp [bears,carrying,owed,among,hv,he]
    · refine .same ?_ rfl ?_
      · rw [hrem]
        simp [Ne.symm he]
      · simp [bears,carrying,owed,among,hv,he]
  | @values pc pc' log ha =>
    obtain ⟨hc,hf⟩ := values_front h.cursor (h.runs _ hl) ha
    refine .kept ?_
    rw [unread_same idOf id hc hf]
    rfl
  | @purge pc pc' log ha =>
    obtain ⟨hc,ht⟩ := reads rfl (.inr rfl) (h.runs _ hl) ha
    exact .read rfl hc ht (by simp [bears,carrying,owed]) (by simp [bears,carrying,owed])
  | purged => exact .same rfl rfl (by simp [bears,carrying,owed,inHands])
  | @reset i vals hi =>
    have hres := listed_setIds hash id (hids rfl) ⟨i,hi⟩ .empty
    by_cases he : hash id = ⟨i,hi⟩
    · refine .reset vals ?_ ?_ rfl ?_
      · rw [he]
      · rw [hres,if_pos he]
        simp
      · simp [bears,carrying,owed,he]
    · refine .same ?_ rfl ?_
      · rw [hres,if_neg he]
      · have hne : (hash id).val ≠ i := fun hv => he (Fin.ext hv)
        have hiff : i ≤ (hash id).val ↔ (⟨i,hi⟩ : Fin idShards) < hash id := by
          rw [Fin.lt_def]
          simp only
          omega
        simp [bears,carrying,owed,hiff]
  | @resetAll i vals hi =>
    refine .same rfl rfl ?_
    have := (hash id).isLt
    have hlt : ¬i ≤ (hash id).val := by omega
    simp [bears,carrying,owed,hlt]
  | @purgeUnlock i vals =>
    refine .same (listed_setMu _ _) rfl ?_
    have hiff : i < hash id ↔ i.val + 1 ≤ (hash id).val := by
      rw [Fin.lt_def,Nat.succ_le_iff]
    simp only [bears,carrying,owed,hiff]
  | close => exact .kept rfl
  | _ => exact .same rfl rfl rfl

end Varmq.InMemory
