import Varmq.InMemory.Exact
import Varmq.InMemory.Priority

namespace Varmq.InMemory

open Interleaving Topics Queues

variable {T : Type} {s s' : Queue T} {idOf : T → Option String} {hash : String → Fin idShards}
  {x : T} {l l' t u : Thread T} {xs ys ts : List (Thread T)}

def isPurge : Thread T → Bool
  | .purgeValues _ => true
  | _ => false

def isClose : Thread T → Bool
  | .close _ => true
  | _ => false

def hasClosed : Thread T → Bool
  | .close done => done
  | _ => false

-- One goroutine calls Close and then PurgeValues while others enqueue.
def closing : Guard (Queue T) (Thread T) Unit := fun w e =>
  match e with
  | .call (.enqueue _ _) | .call (.enqueueOnce _ _ _) => true
  | .call (.close _) => w.threads.all fun t => !isClose t
  | .call (.purgeValues _) => (w.threads.all fun t => !isPurge t) && w.threads.any hasClosed
  | .call _ => false
  | .act _ _ => true

-- Append is past its last look at closed and has not claimed an offset.
def unclaimed : AppendPc → Bool
  | .loadTail _ _ | .claim _ _ _ => true
  | _ => false

def late : Thread T → Bool
  | .enqueue _ pc | .enqueueOnce _ _ (.append pc) => unclaimed pc
  | _ => false

def readsHead : Thread T → Bool
  | .purgeValues (.cursor (.loadEnd _)) => true
  | _ => false

def settled : Guard (Queue T) (Thread T) Unit := fun w e =>
  closing w e &&
    match e with
    | .act i _ => !(w.threads[i]?.any readsHead) || w.threads.all fun t => !late t
    | .call _ => true

def len (s : Queue T) : ℕ := s.log.head - (s.log.cursor 0).offset

-- The item of an enqueue that has claimed its offset.
def claimant : Thread T → Option T
  | .enqueue x pc | .enqueueOnce x _ (.append pc) => if carries pc then none else some x
  | .enqueueOnce x _ (.unlock r) | .enqueueOnce x _ (.returned r) => if r then some x else none
  | _ => none

def accepted : Thread T → Option T
  | .enqueue x (.returned n) => if n = 0 then none else some x
  | .enqueueOnce x _ (.returned r) => if r then some x else none
  | _ => none

-- PurgeValues has read the head.
def past : Thread T → Bool
  | .purgeValues (.cursor (.each _ _)) | .purgeValues (.cursor (.visit _ _))
  | .purgeValues (.cursor (.move _)) | .purgeValues (.cursor (.unlock _))
  | .purgeValues (.cursor (.returned _)) | .purgeValues (.reset _ _) | .purgeValues (.unlock _ _)
  | .purgeValues (.returned _) => true
  | _ => false

def KnowsPurge (s : Queue T) : Thread T → Prop
  | .purgeValues (.cursor (.each _ e)) | .purgeValues (.cursor (.visit _ e))
  | .purgeValues (.cursor (.move e)) => (s.log.cursor 0).offset = 0 ∧ e.stop = s.log.head
  | .purgeValues (.cursor (.unlock vals)) | .purgeValues (.cursor (.returned vals))
  | .purgeValues (.reset _ vals) | .purgeValues (.unlock _ vals) | .purgeValues (.returned vals) =>
      vals = s.log.claims.map some ∧ (s.log.cursor 0).offset = s.log.head
  | .purgeValues _ => (s.log.cursor 0).offset = 0
  | _ => True

def reads : Thread T → Bool
  | .dequeue _ | .values _ => true
  | _ => false

structure Closing (hash : String → Fin idShards) (s : Queue T) (ts : List (Thread T)) : Prop where
  held : Held hash s ts
  only : ∀ t ∈ ts, reads t = false
  sole : total (fun t => one (isPurge t)) ts ≤ 1
  shut : ∀ t ∈ ts, isPurge t = true ∨ hasClosed t = true → s.log.closed = true
  claims : (ts.filterMap claimant).Perm s.log.claims
  sealed : ∀ t ∈ ts, past t = true → ∀ u ∈ ts, late u = false
  unread : (∀ t ∈ ts, isPurge t = false) → (s.log.cursor 0).offset = 0
  knows : ∀ t ∈ ts, KnowsPurge s t

theorem past_isPurge (h : past t = true) : isPurge t = true := by
  unfold past at h
  split at h <;> first | rfl | cases h

theorem act_isPurge (hs : Act idOf hash s l s' l') :
    isPurge l' = isPurge l ∧ reads l' = reads l := by
  cases hs <;> exact ⟨rfl,rfl⟩

theorem proj_purge {pc : CursorPc T} (hr : reads t = false) (hp : proj t = .cursor 0 pc) :
    isPurge t = true := by
  unfold proj at hp
  split at hp <;> cases hp
  · cases hr
  · cases hr
  · rfl

theorem act_closed (hs : Act idOf hash s l s' l') (hc : s.log.closed = true) :
    s'.log.closed = true := by
  have same : ∀ {log : Log T} {t t' : Topics.Thread T}, Topics.Act s.log t log t' →
      t ≠ .close false → log.closed = true := fun ha hne => (closed_same ha hne).trans hc
  cases hs with
  | enqueue ha => exact same (.append (append_act ha)) (fun h => by cases h)
  | append ha => exact same (.append (append_act ha)) (fun h => by cases h)
  | dequeue ha => exact same (.cursor ha) (fun h => by cases h)
  | values ha => exact same (.cursor ha) (fun h => by cases h)
  | purge ha => exact same (.cursor ha) (fun h => by cases h)
  | onceSet ha | onceReady ha | purgeSet ha | purgeReady ha =>
    rw [(idSet_kept ha).1]
    exact hc
  | close => rfl
  | _ => exact hc

-- Once closed is set, no Append comes past its last look at it.
theorem unclaimed_step {log log' : Log T} {pc pc' : AppendPc} (hc : log.closed = true)
    (hl : unclaimed pc = false) (hs : appendStep log x pc = some (log',pc')) :
    unclaimed pc' = false := by
  have hfin : ∀ b n, unclaimed (finish b n) = false := by
    intro b n
    cases b <;> rfl
  have ha := append_act hs
  cases ha with
  | plain _ h' =>
    cases pc' <;> first | rfl | cases h'
  | @accept b n hn =>
    simp only [appendStep,hc,true_or,if_true] at hs
    cases b <;> cases hs
  | refuse | publish => exact hfin _ _
  | loadTail => cases hl
  | _ => rfl

theorem act_late (hc : s.log.closed = true) (hl : late l = false)
    (hs : Act idOf hash s l s' l') : late l' = false := by
  cases hs with
  | enqueue ha => exact unclaimed_step hc hl ha
  | append ha => exact unclaimed_step hc hl ha
  | _ => rfl

theorem cursor_claims {log log' : Log T} {pc pc' : CursorPc T} (hs : CursorAct log 0 pc log' pc') :
    log'.claims = log.claims := by
  cases hs with
  | take => split <;> rfl
  | _ => rfl

-- A step of an enqueue claims an offset for its item or leaves the claims alone.
theorem act_claimant (hk : ∀ {x : T} {pc : AppendPc}, proj l = .append x pc →
      KnowsAppend s.log x pc) (hs : Act idOf hash s l s' l') :
    (claimant l' = claimant l ∧ s'.log.claims = s.log.claims) ∨
      ∃ x, claimant l = none ∧ claimant l' = some x ∧ s'.log.claims = s.log.claims ++ [x] := by
  have append : ∀ {x : T} {pc pc' : AppendPc} {log : Log T}, KnowsAppend s.log x pc →
      appendStep s.log x pc = some (log,pc') →
      ((if carries pc' then none else some x) = (if carries pc then none else some x) ∧
        log.claims = s.log.claims) ∨
      ((if carries pc then none else some x) = none ∧
        (if carries pc' then none else some x) = some x ∧ log.claims = s.log.claims ++ [x]) := by
    intro x pc pc' log hk ha
    rcases (append_claims hk ha).2 with ⟨h1,h2⟩ | ⟨h1,h2,h3⟩
    · exact .inl ⟨by rw [h2],h1⟩
    · exact .inr ⟨by rw [h2]; rfl,by rw [h3]; rfl,h1⟩
  cases hs with
  | enqueue ha =>
    rcases append (hk rfl) ha with ha | ha
    · exact .inl ha
    · exact .inr ⟨_,ha⟩
  | append ha =>
    rcases append (hk rfl) ha with ha | ha
    · exact .inl ha
    · exact .inr ⟨_,ha⟩
  | onceSet ha | onceReady ha | purgeSet ha | purgeReady ha =>
    exact .inl ⟨rfl,by rw [(idSet_kept ha).1]⟩
  | dequeue ha | values ha | purge ha => exact .inl ⟨rfl,cursor_claims ha⟩
  | stored hn => exact .inl ⟨by simp [claimant,carries,hn],rfl⟩
  | _ => exact .inl ⟨rfl,rfl⟩

-- Others than PurgeValues leave the cursor alone.
theorem act_cursor (hk : ∀ {x : T} {pc : AppendPc}, proj l = .append x pc → KnowsAppend s.log x pc)
    (hn : ∀ pc, proj l ≠ .cursor 0 pc) (hs : Act idOf hash s l s' l') :
    s'.log.cursors = s.log.cursors := by
  cases hs with
  | enqueue ha => exact (append_claims (hk rfl) ha).1
  | append ha => exact (append_claims (hk rfl) ha).1
  | dequeue | values | purge => exact absurd rfl (hn _)
  | onceSet ha | onceReady ha | purgeSet ha | purgeReady ha => rw [(idSet_kept ha).1]
  | _ => rfl

theorem Shows.all {log : Log T} {out : List (Option T)} (h : Chain log)
    (hs : Shows log 0 out log.head) : out = log.claims.map some := by
  have hi := Follows.items hs fun t ht => by
    obtain ⟨y,-,rfl⟩ := List.mem_map.mp ht
    exact ⟨y,rfl⟩
  rw [Nat.sub_zero,List.drop_zero,h.head,List.take_length] at hi
  have hinj : Function.Injective (Turn.item : Option T → Turn T) := fun a b hab => by
    cases hab
    rfl
  refine List.map_injective_iff.mpr hinj ?_
  rw [hi,List.map_map]
  rfl

theorem knows_cursor {log log' : Log T} {pc pc' : CursorPc T} (hi : Chain log)
    (hlen : 0 < log.cursors.length) (hch : (log.cursor 0).chunk.isSome = true)
    (hk : KnowsCursor log (log.cursor 0) pc) (hw : within .purge pc = true)
    (hs : CursorAct log 0 pc log' pc')
    (hp : KnowsPurge { s with log } (.purgeValues (.cursor pc))) :
    KnowsPurge { s with log := log' } (.purgeValues (.cursor pc')) := by
  have hset : ∀ cur : Cursor T, (log.setCursor 0 cur).cursor 0 = cur := by
    intro cur
    rw [cursor_set,if_pos ⟨rfl,hlen⟩]
  cases hs with
  | enter hm ht hop =>
    have he := of_decide_eq_true hw
    subst he
    simp only [opened]
    split
    · simp only [KnowsPurge,hset]
      exact hp
    · simp only [KnowsPurge,hset]
      exact hp
  | gone hm hn =>
    rw [hn] at hch
    cases hch
  | close => cases hw
  | loadEnd => exact ⟨hp,rfl⟩
  | @clear e =>
    simp only [KnowsPurge]
    rw [cursor_set,if_pos ⟨rfl,hlen⟩]
    exact hp
  | @move e =>
    obtain ⟨hoff,hstop⟩ := hp
    have heq : e.off = log.head := (Nat.le_antisymm hk.1.stop hk.2).trans hstop
    have hout : Shows log 0 e.out log.head := by
      have ho := hk.1.out
      have hoff : (log.cursor 0).offset = 0 := hoff
      rwa [hoff,heq] at ho
    simp only [KnowsPurge,hset]
    have hall : e.out = log.claims.map some := Shows.all hi hout
    exact ⟨hall,hstop⟩
  | unlock =>
    simp only [KnowsPurge,hset]
    exact hp
  | wound | eachHop | eachWait | eachFound => exact hp
  | hop | wait | found | again | take | seekTail | lockLog | remove | empty | advance | shown
  | seekHead | seek | unlockLog | visit => cases hw

theorem knows_own (h : Held hash s (xs ++ l :: ys)) (hk : KnowsPurge s l)
    (hs : Act idOf hash s l s' l') : KnowsPurge s' l' := by
  have hl : l ∈ xs ++ l :: ys := by simp
  cases hs with
  | purgeSet ha =>
    simp only [KnowsPurge,(idSet_kept ha).1]
    exact hk
  | purgeReady ha =>
    simp only [KnowsPurge,(idSet_kept ha).1]
    exact hk
  | @purge pc pc' log ha =>
    have hmem : .cursor 0 pc ∈ (xs ++ .purgeValues (.cursor pc) :: ys).map proj := by simp [proj]
    exact knows_cursor h.log.chain h.cursor h.chunk (h.log.reader 0 pc hmem).2 (h.runs _ hl) ha hk
  | purgeLock | lockedAll | purged | reset | resetAll | purgeUnlock => exact hk
  | _ => trivial

-- What PurgeValues knows holds on while the others leave the cursor and, later, the head alone.
theorem knows_other (hc : s'.log.cursors = s.log.cursors)
    (hh : past u = true → s'.log.head = s.log.head ∧ s'.log.claims = s.log.claims)
    (hk : KnowsPurge s u) : KnowsPurge s' u := by
  have hcur : s'.log.cursor 0 = s.log.cursor 0 := by rw [Log.cursor,Log.cursor,hc]
  cases u with
  | purgeValues pc =>
    cases pc with
    | cursor pc =>
      cases pc with
      | each b e | visit b e | move e =>
        obtain ⟨h1,h2⟩ := hh rfl
        exact ⟨by rw [hcur]; exact hk.1,by rw [h1]; exact hk.2⟩
      | unlock r | returned r =>
        obtain ⟨h1,h2⟩ := hh rfl
        exact ⟨by rw [h2]; exact hk.1,by rw [hcur,h1]; exact hk.2⟩
      | _ =>
        simp only [KnowsPurge,hcur] at hk ⊢
        exact hk
    | reset i vals | unlock i vals | returned vals =>
      obtain ⟨h1,h2⟩ := hh rfl
      exact ⟨by rw [h2]; exact hk.1,by rw [hcur,h1]; exact hk.2⟩
    | idSet pc | lock i =>
      simp only [KnowsPurge,hcur] at hk ⊢
      exact hk
  | _ => trivial

theorem act_past (hc : (s.log.cursor 0).chunk.isSome = true) (hr : Runs l)
    (hs : Act idOf hash s l s' l') (hp : past l' = true) : past l = true ∨ readsHead l = true := by
  cases hs with
  | @purge pc pc' log ha =>
    cases ha with
    | enter _ _ hop =>
      have he := of_decide_eq_true hr
      subst he
      simp only [opened] at hp
      split at hp <;> cases hp
    | gone _ hn =>
      rw [hn] at hc
      cases hc
    | loadEnd => exact .inr rfl
    | wound | eachHop | eachWait | eachFound | clear | visit | move | unlock => exact .inl rfl
    | empty | advance | shown | seek | unlockLog => cases hr
    | close | hop | wait | found | again | take | seekTail | seekHead | lockLog | remove => cases hp
  | purged | reset | resetAll | purgeUnlock => exact .inl rfl
  | _ => cases hp

theorem Held.same_head (h : Held hash s (xs ++ l :: ys)) (hl : late l = false)
    (hs : Act idOf hash s l s' l') :
    s'.log.head = s.log.head ∧ s'.log.claims = s.log.claims := by
  rcases h.logged hs with ha | ⟨he,-,-⟩
  · rcases head_cases ha with he | ⟨x,b,n,t,hp,-,-⟩
    · exact he
    · unfold proj at hp
      split at hp <;> cases hp <;> cases hl
  · exact ⟨by rw [he],by rw [he]⟩

theorem Closing.knows_step (h : Closing hash s (xs ++ l :: ys)) (hs : Act idOf hash s l s' l')
    (hu : u ∈ xs ++ ys) : KnowsPurge s' u := by
  have hl : l ∈ xs ++ l :: ys := by simp
  have hku := h.knows u (mem_of_other hu)
  cases hp : isPurge u with
  | false => cases u <;> trivial
  | true =>
    have hlp : isPurge l = false := by
      refine one_eq_zero (eq_zero_of_other (f := fun t => one (isPurge t)) h.sole hu ?_)
      simp [hp]
    have hcur : s'.log.cursors = s.log.cursors := by
      refine act_cursor (fun he => ?_) (fun pc hpc => ?_) hs
      · exact h.held.log.append _ _ (by rw [← he]; exact List.mem_map_of_mem hl)
      · rw [proj_purge (h.only l hl) hpc] at hlp
        cases hlp
    exact knows_other hcur (fun hpast => h.held.same_head (h.sealed u (mem_of_other hu) hpast l hl) hs)
      hku

theorem closing_act (h : Closing hash s (xs ++ l :: ys))
    (hok : readsHead l = true → ∀ u ∈ xs ++ l :: ys, late u = false)
    (hs : Act idOf hash s l s' l') : Closing hash s' (xs ++ l' :: ys) := by
  have hl : l ∈ xs ++ l :: ys := by simp
  obtain ⟨hpurge,hreads⟩ := act_isPurge hs
  have hshut : ∀ t ∈ xs ++ l :: ys, past t = true → s.log.closed = true :=
    fun t ht hp => h.shut t ht (.inl (past_isPurge hp))
  have hsealed : ∀ u ∈ xs ++ l' :: ys, ∀ t ∈ xs ++ l :: ys, past t = true → late u = false := by
    intro u hu t ht hp
    rcases mem_split hu with hu | rfl
    · exact h.sealed t ht hp u (mem_of_other hu)
    · exact act_late (hshut t ht hp) (h.sealed t ht hp l hl) hs
  refine ⟨held_act h.held hs,fun t ht => ?_,?_,fun t ht hc => ?_,?_,fun t ht hp u hu => ?_,
    fun hn => ?_,fun t ht => ?_⟩
  · rcases mem_split ht with ht | rfl
    · exact h.only t (mem_of_other ht)
    · exact hreads.trans (h.only l hl)
  · have := h.sole
    rw [total_split] at this ⊢
    rw [hpurge]
    exact this
  · rcases mem_split ht with ht | rfl
    · exact act_closed hs (h.shut t (mem_of_other ht) hc)
    · rcases hc with hc | hc
      · rw [hpurge] at hc
        exact act_closed hs (h.shut l hl (.inl hc))
      · cases hs <;> first | rfl | cases hc
  · rcases act_claimant (fun he => h.held.log.append _ _ (by
      rw [← he]
      exact List.mem_map_of_mem hl)) hs with ⟨h1,h2⟩ | ⟨x,h1,h2,h3⟩
    · rw [h2,filterMap_same h1]
      exact h.claims
    · rw [h3]
      exact filterMap_claim h.claims h1 h2
  · rcases mem_split ht with ht | rfl
    · exact hsealed u hu t (mem_of_other ht) hp
    · rcases act_past h.held.chunk (h.held.runs l hl) hs hp with hp | hr
      · exact hsealed u hu l hl hp
      · rcases mem_split hu with hu | rfl
        · exact hok hr u (mem_of_other hu)
        · cases u <;> first | rfl | cases hp
  · have hlp : isPurge l = false := by
      rw [← hpurge]
      exact hn l' (by simp)
    have hold : ∀ t ∈ xs ++ l :: ys, isPurge t = false := by
      intro t ht
      rcases mem_split ht with ht | rfl
      · exact hn t (mem_of_other ht)
      · exact hlp
    have hcur : s'.log.cursors = s.log.cursors := by
      refine act_cursor (fun he => ?_) (fun pc hpc => ?_) hs
      · exact h.held.log.append _ _ (by rw [← he]; exact List.mem_map_of_mem hl)
      · rw [proj_purge (h.only l hl) hpc] at hlp
        cases hlp
    have hsame : s'.log.cursor 0 = s.log.cursor 0 := by rw [Log.cursor,Log.cursor,hcur]
    rw [hsame]
    exact h.unread hold
  · rcases mem_split ht with ht | rfl
    · exact h.knows_step hs ht
    · exact knows_own h.held (h.knows l hl) hs

theorem closing_call (h : Closing hash s ts) (hok : closing ⟨s,ts⟩ (.call l) = true)
    (he : entry s l = true) : Closing hash s (ts ++ [l]) := by
  have hbegin : claimant l = none ∧ late l = false ∧ past l = false ∧ hasClosed l = false := by
    unfold entry at he
    split at he <;> first | exact ⟨rfl,rfl,rfl,rfl⟩ | cases he
  obtain ⟨hclaim,hlate,hpast,hclosed⟩ := hbegin
  have hpurge : isPurge l = true → (∀ t ∈ ts, isPurge t = false) ∧ s.log.closed = true := by
    intro hp
    cases l with
    | purgeValues pc =>
      simp only [closing,Bool.and_eq_true,List.all_eq_true,List.any_eq_true,
        Bool.not_eq_true'] at hok
      obtain ⟨h1,t,ht,hc⟩ := hok
      exact ⟨h1,h.shut t ht (.inr hc)⟩
    | _ => cases hp
  refine ⟨held_call h.held he,forall_call h.only ?_,?_,forall_call h.shut fun hc => ?_,?_,
    fun t ht hp u hu => ?_,fun hn => ?_,forall_call h.knows ?_⟩
  · cases l <;> first | rfl | cases hok
  · rw [total_call]
    cases hp : isPurge l
    · simpa using h.sole
    · have hz : total (fun t => one (isPurge t)) ts = 0 :=
        total_eq_zero.mpr fun t ht => by rw [(hpurge hp).1 t ht]; rfl
      simp [hz]
  · rcases hc with hc | hc
    · exact (hpurge hc).2
    · rw [hclosed] at hc
      cases hc
  · simpa [List.filterMap_append,hclaim] using h.claims
  · rcases List.mem_append.mp ht with ht | ht
    · rcases List.mem_append.mp hu with hu | hu
      · exact h.sealed t ht hp u hu
      · rw [List.mem_singleton.mp hu]
        exact hlate
    · rw [List.mem_singleton.mp ht,hpast] at hp
      cases hp
  · exact h.unread fun t ht => hn t (List.mem_append_left _ ht)
  · cases hp : isPurge l with
    | false => cases l <;> trivial
    | true =>
      have hz := h.unread (hpurge hp).1
      unfold entry at he
      split at he <;> first | exact hz | cases hp | cases he

theorem closing_start (capacity : ℕ) : Closing hash (newQueue capacity : Queue T) [] :=
  ⟨held_start capacity,fun t ht => (by cases ht),Nat.zero_le 1,fun t ht => (by cases ht),.nil,
    fun t ht => (by cases ht),fun _ => rfl,fun t ht => by cases ht⟩

theorem closing_reach {capacity : ℕ} {w : World (Queue T) (Thread T)}
    (h : (program idOf hash).Reach settled (start capacity) w) :
    Closing hash w.shared w.threads := by
  refine Program.reach_invariant (closing_start capacity) (fun _ _ _ h hok he => ?_)
    (fun s xs l ys u s' l' new h hok hs => ?_) h
  · simp only [settled,Bool.and_true] at hok
    exact closing_call h hok he
  · obtain ⟨ha,rfl⟩ := step_act hs
    rw [List.append_nil]
    refine closing_act h (fun hr => ?_) ha
    simpa only [settled,closing,Bool.true_and,getElem?_split,Option.any_some,hr,Bool.not_true,
      Bool.false_or,List.all_eq_true,Bool.not_eq_true'] using hok

theorem Held.front_quiet (h : Held hash s ts) (hf : ∀ t ∈ ts, finished t = true) :
    (s.log.cursor 0).front = (s.log.cursor 0).offset := by
  have hm : (s.log.cursor 0).mx = false := by
    cases hm : (s.log.cursor 0).mx
    · rfl
    · obtain ⟨u,hu,hfu,-⟩ := h.reader hm
      rw [hf u hu] at hfu
      cases hfu
  rcases h.log.idle 0 h.cursor hm with hn | ha
  · have := h.chunk
    rw [hn] at this
    cases this
  · exact ha.2

theorem accepted_claimant (hf : finished t = true) : accepted t = claimant t := by
  unfold finished at hf
  split at hf
  · simp [accepted,claimant,carries]
  · rfl
  · rfl
  · rfl
  · rfl
  · rfl
  · rfl
  · cases hf

-- The queue after all calls have returned.
def Landed (s : Queue T) (ts : List (Thread T)) (vals : List (Option T)) : Prop :=
  len s = 0 ∧ storedItems s = [] ∧ ((ts.filterMap accepted).map some).Perm vals

theorem Closing.landed (h : Closing hash s ts) (hf : ∀ t ∈ ts, finished t = true)
    {vals : List (Option T)} (hp : .purgeValues (.returned vals) ∈ ts) : Landed s ts vals := by
  obtain ⟨hv,ho⟩ := h.knows _ hp
  have hfront := h.held.front_quiet hf
  refine ⟨?_,?_,?_⟩
  · rw [len,ho,Nat.sub_self]
  · rw [h.held.stored_quiet hf,hfront,ho,h.held.log.chain.head,List.drop_length]
  · rw [hv,List.filterMap_congr fun t ht => accepted_claimant (hf t ht)]
    exact h.claims.map some

theorem nothing_lands_after_purge :
    (∀ (capacity : ℕ) (w : World (Queue T) (Thread T)) (vals : List (Option T)),
      (program idOf hash).Reach settled (start capacity) w →
      (∀ t ∈ w.threads, finished t = true) → .purgeValues (.returned vals) ∈ w.threads →
      Landed w.shared w.threads vals) ∧
    ∀ (capacity : ℕ) (w : World (Priority.Shared T) (Priority.Thread T)) (vals : List T),
      (Priority.program T).Reach Priority.closing (Priority.start capacity) w →
      (∀ t ∈ w.threads, Priority.finished t = true) →
      .purgeValues (.returned vals) ∈ w.threads → Priority.Landed w.shared w.threads vals :=
  ⟨fun _ _ _ h hf hp => (closing_reach h).landed hf hp,
    fun _ _ _ h hf hp => (Priority.inv_reach h).landed hf hp⟩

def purgeTest : List (Event (Thread ℕ) Unit) :=
  .call (.close false) :: .act 1 () :: .call (.purgeValues (.idSet .load)) ::
    List.replicate 203 (.act 2 ())

-- An Enqueue has stored its item, then the queue is closed and purged.
def closedRun : List (Event (Thread ℕ) Unit) :=
  .call (.enqueue 7 .loadLimit) :: (List.replicate 8 (.act 0 ()) : Events (Thread ℕ) Unit) ++
  purgeTest ++ (List.replicate 2 (.act 2 ()) : Events (Thread ℕ) Unit)

def closedPriorityRun : List (Event (Priority.Thread ℕ) Unit) :=
  .call (.enqueue 7 0 "" .lock) ::
    (List.replicate 3 (.act 0 ()) : Events (Priority.Thread ℕ) Unit) ++
  .call (.close false) :: .act 1 () :: .call (.purgeValues .lock) :: .act 0 () ::
    (List.replicate 3 (.act 2 ()) : Events (Priority.Thread ℕ) Unit)

def returned : Thread T → List (Option T)
  | .purgeValues (.returned vals) => vals
  | _ => []

def returnedPriority : Priority.Thread T → List T
  | .purgeValues (.returned vals) => vals
  | _ => []

theorem returned_mem {vals : List (Option T)} (ht : t ∈ ts) (hf : finished t = true)
    (hp : isPurge t = true) (hv : returned t = vals) : .purgeValues (.returned vals) ∈ ts := by
  cases t with
  | purgeValues pc =>
    cases pc with
    | returned v =>
      have hv : v = vals := hv
      exact hv ▸ ht
    | _ => cases hf
  | _ => cases hp

theorem returnedPriority_mem {t : Priority.Thread T} {ts : List (Priority.Thread T)} {vals : List T}
    (ht : t ∈ ts) (hf : Priority.finished t = true) (hp : Priority.isPurge t = true)
    (hv : returnedPriority t = vals) : .purgeValues (.returned vals) ∈ ts := by
  cases t with
  | purgeValues pc =>
    cases pc with
    | returned v =>
      have hv : v = vals := hv
      exact hv ▸ ht
    | _ => cases hf
  | _ => cases hp

theorem nothing_lands_after_purge_stored :
    (∃ w, (program idOfTest hashTest).Reach settled (start 0) w ∧
      w.threads.flatMap returned = [some 7] ∧ Landed w.shared w.threads [some 7]) ∧
    ∃ w, (Priority.program ℕ).Reach Priority.closing (Priority.start 0) w ∧
      w.threads.flatMap returnedPriority = [7] ∧ Priority.Landed w.shared w.threads [7] := by
  refine ⟨?_,?_⟩
  · obtain ⟨w,hr,hp⟩ := Program.exists_reach_of_run (program idOfTest hashTest) settled (start 0)
      closedRun
      (fun w => w.threads.all finished && w.threads.any (fun t => isPurge t && returned t = [some 7])
        && w.threads.flatMap returned = [some 7]) (by decide +kernel)
    simp only [Bool.and_eq_true,decide_eq_true_eq,List.all_eq_true,List.any_eq_true] at hp
    obtain ⟨⟨hf,t,ht,hpt,hv⟩,hvals⟩ := hp
    refine ⟨w,hr,hvals,nothing_lands_after_purge.1 0 w _ hr hf ?_⟩
    exact returned_mem ht (hf t ht) hpt hv
  · obtain ⟨w,hr,hp⟩ := Program.exists_reach_of_run (Priority.program ℕ) Priority.closing
      (Priority.start 0) closedPriorityRun
      (fun w => w.threads.all Priority.finished &&
        w.threads.any (fun t => Priority.isPurge t && returnedPriority t = [7])
        && w.threads.flatMap returnedPriority = [7]) (by decide +kernel)
    simp only [Bool.and_eq_true,decide_eq_true_eq,List.all_eq_true,List.any_eq_true] at hp
    obtain ⟨⟨hf,t,ht,hpt,hv⟩,hvals⟩ := hp
    refine ⟨w,hr,hvals,(@nothing_lands_after_purge ℕ idOfTest hashTest).2 0 w _ hr hf ?_⟩
    exact returnedPriority_mem ht (hf t ht) hpt hv

-- An Enqueue is past its last look at closed when the queue is closed and purged; its item lands
-- afterwards, on an unbounded queue and on a bounded one.
def lateRun (before after : ℕ) : List (Event (Thread ℕ) Unit) :=
  .call (.enqueue 7 .loadLimit) :: (List.replicate before (.act 0 ()) : Events (Thread ℕ) Unit) ++
  purgeTest ++ (List.replicate after (.act 0 ()) : Events (Thread ℕ) Unit)

def landedLate (w : World (Queue ℕ) (Thread ℕ)) : Bool :=
  w.threads.all finished && w.threads.filterMap accepted = [7] &&
    w.threads.any (fun t => isPurge t && returned t = []) && len w.shared = 1 &&
    storedItems w.shared = [7]

def LandsLate (capacity : ℕ) : Prop :=
  ∃ w, (program idOfTest hashTest).Reach closing (start capacity) w ∧
    (∀ t ∈ w.threads, finished t = true) ∧ w.threads.filterMap accepted = [7] ∧
    .purgeValues (.returned []) ∈ w.threads ∧ len w.shared = 1 ∧ storedItems w.shared = [7]

theorem lands_late {capacity : ℕ} {w : World (Queue ℕ) (Thread ℕ)} (hp : landedLate w = true)
    (hr : (program idOfTest hashTest).Reach closing (start capacity) w) : LandsLate capacity := by
  simp only [landedLate,Bool.and_eq_true,decide_eq_true_eq,List.all_eq_true,List.any_eq_true] at hp
  obtain ⟨⟨⟨⟨hf,hacc⟩,t,ht,hpt,hv⟩,hlen⟩,hst⟩ := hp
  exact ⟨w,hr,hf,hacc,returned_mem ht (hf t ht) hpt hv,hlen,hst⟩

theorem lands_after_purge : LandsLate 0 ∧ LandsLate 1 := by
  constructor
  · obtain ⟨w,hr,hp⟩ := Program.exists_reach_of_run (program idOfTest hashTest) closing (start 0)
      (lateRun 4 4) landedLate (by decide +kernel)
    exact lands_late hp hr
  · obtain ⟨w,hr,hp⟩ := Program.exists_reach_of_run (program idOfTest hashTest) closing (start 1)
      (lateRun 8 5) landedLate (by decide +kernel)
    exact lands_late hp hr

end Varmq.InMemory
