import Varmq.InMemory.Ids

namespace Varmq.InMemory

open Interleaving Topics Queues

variable {T : Type} {s s' : Queue T} {idOf : T → Option String} {hash : String → Fin idShards}
  {once : String → Bool} {x : T} {id d : String} {l l' t u : Thread T} {xs ys ts : List (Thread T)}

def beyond (idOf : T → Option String) (id : String) (log : Log T) (o : ℕ) : ℕ :=
  (log.claims.drop o).countP fun x => idOf x = some id

-- What a PurgeValues that has read the head knows of the items it leaves in the log.
def Clean (idOf : T → Option String) (hash : String → Fin idShards) (once : String → Bool)
    (s : Queue T) : Thread T → Prop
  | .purgeValues (.cursor (.each _ e)) | .purgeValues (.cursor (.visit _ e))
  | .purgeValues (.cursor (.move e)) =>
      e.stop ≤ s.log.claims.length ∧ ∀ id, once id = true → beyond idOf id s.log e.stop = 0
  | .purgeValues (.cursor (.unlock _)) | .purgeValues (.cursor (.returned _)) =>
      ∀ id, once id = true → unread idOf id s.log = 0
  | .purgeValues (.reset i _) =>
      ∀ id, once id = true → i ≤ (hash id).val → unread idOf id s.log = 0
  | .purgeValues (.unlock i _) => ∀ id, once id = true → i < hash id → unread idOf id s.log = 0
  | _ => True

structure Exact (idOf : T → Option String) (hash : String → Fin idShards) (once : String → Bool)
    (s : Queue T) (ts : List (Thread T)) : Prop where
  tallied : Tallied idOf hash once s ts
  eq : ∀ id, once id = true → id ≠ "" → one (listed hash s id) = tokens idOf hash id s ts
  apart : ∀ t ∈ ts, ∀ u ∈ ts, dequeuing t = true → purging u = false
  clean : ∀ t ∈ ts, Clean idOf hash once s t

-- The steps of others leave the items with an id alone while the id's shard is locked.
structure Frozen (idOf : T → Option String) (id : String) (s s' : Queue T) : Prop where
  claims : s'.log.claims = s.log.claims ∨ ∃ x, s'.log.claims = s.log.claims ++ [x] ∧ idOf x ≠ some id
  front : (s.log.cursor 0).front ≤ (s'.log.cursor 0).front

theorem Frozen.beyond_same (h : Frozen idOf id s s') {o : ℕ} (ho : o ≤ s.log.claims.length) :
    beyond idOf id s'.log o = beyond idOf id s.log o := by
  rcases h.claims with he | ⟨x,he,hx⟩
  · rw [beyond,beyond,he]
  · rw [beyond,beyond,he,List.drop_append_of_le_length ho,List.countP_append]
    simp [hx]

theorem countP_drop_le {A : Type} (p : A → Bool) (as : List A) {m n : ℕ} (h : m ≤ n) :
    (as.drop n).countP p ≤ (as.drop m).countP p := by
  obtain ⟨k,rfl⟩ := Nat.exists_eq_add_of_le h
  rw [← List.drop_drop]
  exact (List.drop_sublist k _).countP_le

theorem Frozen.unread_zero (h : Frozen idOf id s s')
    (hf : (s.log.cursor 0).front ≤ s.log.claims.length) (hz : unread idOf id s.log = 0) :
    unread idOf id s'.log = 0 := by
  have h1 : unread idOf id s'.log ≤ beyond idOf id s'.log (s.log.cursor 0).front :=
    countP_drop_le _ _ h.front
  rw [h.beyond_same hf] at h1
  have h2 : beyond idOf id s.log (s.log.cursor 0).front = unread idOf id s.log := rfl
  omega

theorem Held.frozen (h : Held hash s (xs ++ l :: ys)) (hn : Named idOf once l)
    (hid : once id = true) (hfree : holdsShard hash (hash id) l = false)
    (hs : Act idOf hash s l s' l') : Frozen idOf id s s' := by
  refine ⟨?_,?_⟩
  · rcases h.claim_cases hs with he | ⟨x,he,hx⟩
    · exact .inl he
    · refine .inr ⟨x,he,fun hxd => ?_⟩
      rcases hx with ⟨pc,rfl⟩ | ⟨d,pc,rfl⟩
      · rw [hn id hxd] at hid
        cases hid
      · have hd := hn.1
        rw [hxd] at hd
        cases hd
        simp [holdsShard] at hfree
  · rcases h.logged hs with ha | ⟨he,-,-⟩
    · rcases h.split.cursors ha h.cursor with he | ⟨pc,pc',-,-,-,ht⟩
      · exact Nat.le_of_eq (by rw [he])
      · exact ht.front
    · exact Nat.le_of_eq (by rw [he])

-- The ids a PurgeValues answers for are in shards it holds.
theorem clean_other (h : Held hash s (xs ++ l :: ys)) (hn : Named idOf once l)
    (hs : Act idOf hash s l s' l') (hu : u ∈ xs ++ ys) (hc : Clean idOf hash once s u) :
    Clean idOf hash once s' u := by
  have hle := h.front_le
  have frozen : ∀ {id}, once id = true → holdsShard hash (hash id) u = true → Frozen idOf id s s' :=
    fun hid hh => h.frozen hn hid (h.alone hu hh) hs
  have after : ∀ {o : ℕ}, (∀ id, holdsShard hash (hash id) u = true) →
      (o ≤ s.log.claims.length ∧ ∀ id, once id = true → beyond idOf id s.log o = 0) →
      o ≤ s'.log.claims.length ∧ ∀ id, once id = true → beyond idOf id s'.log o = 0 := by
    intro o hh ho
    refine ⟨?_,fun id hid => ?_⟩
    · rcases h.logged hs with ha | ⟨he,-,-⟩
      · exact Nat.le_trans ho.1 (h.split.memory ha).ext.claims.length_le
      · rw [he]
        exact ho.1
    · rw [(frozen hid (hh id)).beyond_same ho.1]
      exact ho.2 id hid
  cases u with
  | purgeValues pc =>
    cases pc with
    | cursor pc =>
      cases pc with
      | each b e | visit b e | move e => exact after (fun _ => rfl) hc
      | unlock r | returned r => exact fun id hid => (frozen hid rfl).unread_zero hle (hc id hid)
      | _ => trivial
    | reset i vals =>
      intro id hid hi
      exact (frozen hid (by simpa [holdsShard] using hi)).unread_zero hle (hc id hid hi)
    | unlock i vals =>
      intro id hid hi
      exact (frozen hid (by simpa [holdsShard] using Fin.le_of_lt hi)).unread_zero hle (hc id hid hi)
    | _ => trivial
  | _ => trivial

theorem clean_cursor {log log' : Log T} {pc pc' : CursorPc T} (hi : Chain log)
    (hlen : 0 < log.cursors.length) (hch : (log.cursor 0).chunk.isSome = true)
    (hk : KnowsCursor log (log.cursor 0) pc) (hw : within .purge pc = true)
    (hs : CursorAct log 0 pc log' pc')
    (hc : Clean idOf hash once { s with log } (.purgeValues (.cursor pc))) :
    Clean idOf hash once { s with log := log' } (.purgeValues (.cursor pc')) := by
  have hset : ∀ cur : Cursor T, (log.setCursor 0 cur).cursor 0 = cur := by
    intro cur
    rw [cursor_set,if_pos ⟨rfl,hlen⟩]
  cases hs with
  | enter hm ht hop =>
    have he := of_decide_eq_true hw
    rw [he]
    simp only [opened]
    split <;> trivial
  | gone hm hn =>
    rw [hn] at hch
    cases hch
  | close | hop | wait | found | again | take | seekTail | seekHead | lockLog | remove => trivial
  | empty | advance | shown | seek | unlockLog => cases hw
  | loadEnd =>
    have hh : log.head = log.claims.length := hi.head
    refine ⟨Nat.le_of_eq hh,fun id _ => ?_⟩
    simp only [beyond,hh,List.drop_length]
    rfl
  | @move e =>
    intro id hid
    have hz := hc.2 id hid
    have hf : (log.cursor 0).front = e.stop := by
      rw [hk.1.front]
      exact Nat.le_antisymm hk.1.stop hk.2
    have hfr : ((log.setCursor 0 { log.cursor 0 with
        chunk := some e.chunk, idx := e.idx, offset := e.stop,
        history := (log.cursor 0).history ++ e.out.map .item }).cursor 0).front = e.stop := by
      rw [hset]
      exact hf
    simp only [unread,hfr]
    exact hz
  | unlock =>
    intro id hid
    have hz := hc id hid
    have hfr : ((log.setCursor 0 { log.cursor 0 with mx := false }).cursor 0).front =
        (log.cursor 0).front := by rw [hset]
    simp only [unread,hfr]
    exact hz
  | wound | eachHop | eachWait | eachFound | clear | visit => exact hc

theorem clean_own (h : Held hash s (xs ++ l :: ys)) (hc : Clean idOf hash once s l)
    (hs : Act idOf hash s l s' l') : Clean idOf hash once s' l' := by
  have hl : l ∈ xs ++ l :: ys := by simp
  cases hs with
  | @purge pc pc' log ha =>
    have hmem : .cursor 0 pc ∈ (xs ++ .purgeValues (.cursor pc) :: ys).map proj := by simp [proj]
    exact clean_cursor h.log.chain h.cursor h.chunk (h.log.reader 0 pc hmem).2 (h.runs _ hl) ha hc
  | purged => exact fun id hid _ => hc id hid
  | @reset i vals hi => exact fun id hid hlt => hc id hid (Nat.le_of_lt hlt)
  | @purgeUnlock i vals => exact fun id hid hlt => hc id hid hlt
  | _ => trivial

theorem act_kind (hs : Act idOf hash s l s' l') :
    (dequeuing l' = true → dequeuing l = true) ∧ (purging l' = true → purging l = true) := by
  cases hs <;> constructor <;> intro h <;> first | exact h | rfl

theorem bears_zero (hh : holdsShard hash (hash id) t = false) (hd : dequeuing t = false) :
    bears idOf hash id t = 0 := by
  cases t with
  | enqueueOnce x d pc =>
    have hne : ∀ {b : Bool}, decide (hash d = hash id) = false → (decide (d = id) && b) = false := by
      intro b hn
      have hdi : d ≠ id := fun he => of_decide_eq_false hn (by rw [he])
      simp [hdi]
    cases pc with
    | append pc => simp [bears,carrying,owed,hne hh]
    | remove =>
      have := hne (b := true) hh
      rw [Bool.and_true] at this
      simp [bears,carrying,owed,this]
    | _ => rfl
  | dequeue pc => cases pc <;> first | rfl | cases hd
  | purgeValues pc =>
    cases pc with
    | cursor pc => cases hh
    | reset i vals =>
      have hi : ¬i ≤ (hash id).val := of_decide_eq_false hh
      simp [bears,carrying,owed,hi]
    | unlock i vals =>
      have hi : ¬i ≤ hash id := of_decide_eq_false hh
      have hlt : ¬i < hash id := fun hlt => hi (Fin.le_of_lt hlt)
      simp [bears,carrying,owed,hlt]
    | _ => rfl
  | _ => rfl

theorem exact_act (h : Exact idOf hash once s (xs ++ l :: ys)) (hs : Act idOf hash s l s' l') :
    Exact idOf hash once s' (xs ++ l' :: ys) := by
  have hl : l ∈ xs ++ l :: ys := by simp
  have hheld := h.tallied.held
  have hn := h.tallied.named l hl
  have kind : ∀ {t : Thread T}, t ∈ xs ++ l' :: ys → ∃ t₀ ∈ xs ++ l :: ys,
      (dequeuing t = true → dequeuing t₀ = true) ∧ (purging t = true → purging t₀ = true) := by
    intro t ht
    rcases mem_split ht with ht | rfl
    · exact ⟨t,mem_of_other ht,id,id⟩
    · exact ⟨l,hl,act_kind hs⟩
  refine ⟨tallied_act h.tallied hs,fun id hid hne => ?_,fun t ht u hu hd => ?_,fun t ht => ?_⟩
  · have heq := h.eq id hid hne
    have hm := h.tallied.moved hid hne hs
    have hlist := one_le (listed hash s id)
    simp only [tokens,total_split] at heq ⊢
    cases hm with
    | kept hk => omega
    | freed hf hu h1 h0 =>
      rw [hf,one_false]
      omega
    | reset vals hl' hf hu h0 =>
      -- Every shard lock is still held, so nobody else has an item with the id.
      have hz : unread idOf id s.log = 0 := by
        have hc := h.clean l hl
        rw [hl'] at hc
        exact hc id hid (Nat.le_refl _)
      have hlock : holdsShard hash (hash id) l = true := by
        rw [hl']
        simp [holdsShard]
      have hothers : total (bears idOf hash id) (xs ++ ys) = 0 := by
        refine total_eq_zero.mpr fun u hu' => bears_zero ?_ ?_
        · cases hh : holdsShard hash (hash id) u
          · rfl
          · rw [hheld.alone hu' hh] at hlock
            cases hlock
        · cases hd : dequeuing u
          · rfl
          · have := h.apart u (mem_of_other hu') l hl hd
            rw [hl'] at this
            cases this
      rw [hf,one_false,hu,hz,hothers,h0]
  · obtain ⟨t₀,ht₀,h1,-⟩ := kind ht
    obtain ⟨u₀,hu₀,-,h2⟩ := kind hu
    cases hp : purging u
    · rfl
    · have := h.apart t₀ ht₀ u₀ hu₀ (h1 hd)
      rw [h2 hp] at this
      cases this
  · rcases mem_split ht with ht | rfl
    · exact clean_other hheld hn hs ht (h.clean t (mem_of_other ht))
    · exact clean_own hheld (h.clean l hl) hs

theorem clean_begin (he : entry s l = true) : Clean idOf hash once s l := by
  unfold entry at he
  split at he <;> trivial

theorem exact_call (h : Exact idOf hash once s ts) (hok : apart idOf once ⟨s,ts⟩ (.call l) = true)
    (he : entry s l = true) : Exact idOf hash once s (ts ++ [l]) := by
  simp only [apart,Bool.and_eq_true] at hok
  refine ⟨tallied_call h.tallied he (named_promised hok.1 he),fun id hid hne => ?_,
    fun t ht u hu hd => ?_,forall_call h.clean (clean_begin he)⟩
  · rw [h.eq id hid hne,tokens,tokens,total_call,(bears_begin he).1,Nat.add_zero]
  · rcases List.mem_append.mp ht with hold | ht
    · rcases List.mem_append.mp hu with hu | hu
      · exact h.apart t hold u hu hd
      · rw [List.mem_singleton.mp hu]
        cases l with
        | purgeValues pc =>
          have := List.all_eq_true.mp hok.2 t hold
          rw [hd] at this
          cases this
        | _ => rfl
    · rw [List.mem_singleton.mp ht] at hd
      cases l with
      | dequeue pc =>
        rcases List.mem_append.mp hu with hold | hu
        · simpa using List.all_eq_true.mp hok.2 u hold
        · rw [List.mem_singleton.mp hu]
          rfl
      | _ => cases hd

theorem exact_start (capacity : ℕ) : Exact idOf hash once (newQueue capacity : Queue T) [] :=
  ⟨tallied_start capacity,fun _ _ _ => rfl,fun t ht => (by cases ht),fun t ht => by cases ht⟩

theorem exact_reach {capacity : ℕ} {w : World (Queue T) (Thread T)}
    (h : (program idOf hash).Reach (apart idOf once) (start capacity) w) :
    Exact idOf hash once w.shared w.threads := by
  refine Program.reach_invariant (exact_start capacity)
    (fun _ _ _ h hok he => exact_call h hok he) (fun s xs l ys u s' l' new h _ hs => ?_) h
  obtain ⟨ha,rfl⟩ := step_act hs
  rw [List.append_nil]
  exact exact_act h ha

theorem bears_finished (hf : finished t = true) : bears idOf hash id t = 0 := by
  unfold finished at hf
  split at hf <;> first | rfl | cases hf

theorem exists_unread (h : 0 < unread idOf id s.log) :
    ∃ o x, (s.log.cursor 0).front ≤ o ∧ s.log.claims[o]? = some x ∧ idOf x = some id := by
  obtain ⟨x,hx,hid⟩ := List.countP_pos_iff.mp h
  obtain ⟨k,hk,hx⟩ := List.getElem_of_mem hx
  rw [List.getElem_drop] at hx
  exact ⟨_,x,Nat.le_add_right _ k,List.getElem?_eq_some_iff.mpr ⟨_,hx⟩,of_decide_eq_true hid⟩

theorem inHand_claim {log : Log T} {pc : AppendPc} {o : ℕ} (hk : KnowsAppend log x pc)
    (ho : inHand pc = some o) : log.claims[o]? = some x := by
  cases pc with
  | next a t k =>
    cases ho
    exact hk.2.1
  | link a t k | grow a t k | advance a t n k | write a t | publish a t =>
    cases ho
    exact hk.1.2.1
  | _ => cases ho

theorem Held.slot (h : Held hash s ts) {o : ℕ} (ho : (s.log.cursor 0).front ≤ o)
    (hp : s.log.published o = true) : s.log.slot o = s.log.claims[o]? :=
  h.log.kept 0 h.cursor h.chunk o ho hp

-- An unread item with the id of an EnqueueOnce is published or on its way.
theorem Tallied.placed (h : Tallied idOf hash once s ts) (hid : once id = true)
    (hu : 0 < unread idOf id s.log) :
    stored idOf s id = true ∨ ∃ t ∈ ts, inserting id t = true := by
  obtain ⟨o,x,ho,hx,hxid⟩ := exists_unread hu
  have hlt : o < s.log.head := by
    rw [h.held.log.chain.head]
    exact (List.getElem?_eq_some_iff.mp hx).1
  cases hp : s.log.published o with
  | true =>
    refine .inl (List.any_eq_true.mpr ⟨x,List.mem_filterMap.mpr ⟨o,?_,?_⟩,decide_eq_true hxid⟩)
    · rw [List.mem_range'_1]
      omega
    · rw [if_pos hp,h.held.slot ho hp]
      exact hx
  | false =>
    have h1 := h.held.log.owned o
    rw [pub,hp,claimedAt,if_pos hlt,total_map] at h1
    have hne : ¬∀ u ∈ ts, owns o (proj u) = 0 := fun hz => by
      rw [total_eq_zero.mpr hz] at h1
      cases h1
    push Not at hne
    obtain ⟨t,ht,hown⟩ := hne
    have hn := h.named t ht
    have hmem : proj t ∈ ts.map proj := List.mem_map_of_mem ht
    have hand : ∀ {y : T} {pc : AppendPc}, proj t = .append y pc → y = x := by
      intro y pc hp
      rw [hp] at hown hmem
      have hin : inHand pc = some o := by
        by_contra hne
        exact hown (if_neg hne)
      have := inHand_claim (h.held.log.append y pc hmem) hin
      rw [hx] at this
      exact (Option.some.inj this).symm
    cases t with
    | enqueue y pc =>
      have hy := @hand y pc rfl
      rw [hn id (hy ▸ hxid)] at hid
      cases hid
    | enqueueOnce y d pc =>
      cases pc with
      | append pc =>
        have hy := @hand y pc rfl
        have hd := hn.1
        rw [hy,hxid] at hd
        cases hd
        exact .inr ⟨_,ht,by simp [inserting]⟩
      | _ => exact absurd rfl hown
    | dequeue pc => cases pc <;> exact absurd rfl hown
    | purgeValues pc => cases pc <;> exact absurd rfl hown
    | _ => exact absurd rfl hown

theorem carrying_place (hc : 0 < carrying id t) : inserting id t = true ∨ refusing id t = true := by
  unfold carrying at hc
  split at hc
  · rename_i x d pc
    refine .inl ?_
    by_cases hd : d = id
    · simp [inserting,hd]
    · simp [hd] at hc
  · rename_i x d
    refine .inr ?_
    by_cases hd : d = id
    · simp [refusing,hd]
    · simp [hd] at hc
  · cases hc

theorem Tallied.belongs (h : Tallied idOf hash once s ts) {i : Fin idShards}
    (hm : id ∈ (s.shard i).ids.m) : belongs idOf hash s ts id = true := by
  obtain ⟨hi,hid,hne⟩ := h.ids i id hm
  have hl : listed hash s id = true := by
    rw [listed,hi]
    exact decide_eq_true hm
  have hle := h.le id hid hne
  rw [hl,one_true,tokens] at hle
  simp only [InMemory.belongs,Bool.or_eq_true,List.any_eq_true,decide_eq_true_eq]
  by_cases hu : 0 < unread idOf id s.log
  · rcases h.placed hid hu with hs | ⟨t,ht,hins⟩
    · exact .inl hs
    · exact .inr ⟨t,ht,.inl (.inl hins)⟩
  · have hne : ¬∀ t ∈ ts, bears idOf hash id t = 0 := fun hz => by
      rw [total_eq_zero.mpr hz] at hle
      omega
    push Not at hne
    obtain ⟨t,ht,hb⟩ := hne
    by_cases hc : 0 < carrying id t
    · exact .inr ⟨t,ht,.inl (carrying_place hc)⟩
    · refine .inr ⟨t,ht,.inr ?_⟩
      simp only [bears] at hb
      omega

theorem Tallied.quiet (h : Tallied idOf hash once s ts) (hf : ∀ t ∈ ts, finished t = true)
    {i : Fin idShards} (hm : id ∈ (s.shard i).ids.m) : stored idOf s id = true := by
  have hb := h.belongs hm
  simp only [InMemory.belongs,Bool.or_eq_true,List.any_eq_true,decide_eq_true_eq] at hb
  rcases hb with hs | ⟨t,ht,hp⟩
  · exact hs
  · have hfin := hf t ht
    unfold finished at hfin
    split at hfin <;> first | (rcases hp with (hp | hp) | hp <;> cases hp) | cases hfin

-- The ids of the stored items that an EnqueueOnce has put there.
def onceIds (idOf : T → Option String) (once : String → Bool) (s : Queue T) : List String :=
  (storedItems s).filterMap fun x => (idOf x).filter once

theorem range'_getElem? {A : Type} (as : List A) : ∀ n f, f + n = as.length →
    (List.range' f n).filterMap (fun o => as[o]?) = as.drop f
  | 0, f, h => by
      have hf : as.length ≤ f := Nat.le_of_eq h.symm
      rw [List.drop_eq_nil_of_le hf]
      rfl
  | n + 1, f, h => by
      have hf : f < as.length := by omega
      rw [List.range'_succ,List.filterMap_cons,List.getElem?_eq_getElem hf,
        List.drop_eq_getElem_cons hf]
      rw [range'_getElem? as n (f + 1) (by omega)]

theorem Held.stored_quiet (h : Held hash s ts) (hf : ∀ t ∈ ts, finished t = true) :
    storedItems s = s.log.claims.drop (s.log.cursor 0).front := by
  have hle := h.front_le
  have hhead := h.log.chain.head
  have hall : ∀ o < s.log.head, s.log.published o = true := by
    intro o ho
    cases hp : s.log.published o
    · obtain ⟨u,hu,hfu,-⟩ := h.writer ho hp
      rw [hf u hu] at hfu
      cases hfu
    · rfl
  rw [storedItems,← range'_getElem? s.log.claims (s.log.head - (s.log.cursor 0).front)
    (s.log.cursor 0).front (by omega)]
  refine List.filterMap_congr fun o ho => ?_
  have hr := List.mem_range'_1.mp ho
  have hp := hall o (by omega)
  rw [if_pos hp,h.slot hr.1 hp]

theorem Exact.count (h : Exact idOf hash once s ts) (hf : ∀ t ∈ ts, finished t = true)
    (hid : once id = true) (hne : id ≠ "") :
    (onceIds idOf once s).count id = one (listed hash s id) := by
  have hz : total (bears idOf hash id) ts = 0 :=
    total_eq_zero.mpr fun t ht => bears_finished (hf t ht)
  rw [h.eq id hid hne,tokens,hz,Nat.add_zero,onceIds,h.tallied.held.stored_quiet hf,
    List.count_filterMap,InMemory.unread]
  refine List.countP_congr fun x _ => ?_
  cases hx : idOf x with
  | none => simp
  | some d =>
    by_cases hd : d = id
    · subst hd
      simp [Option.filter,hid]
    · have hdf : Option.filter once (some d) ≠ some id := by
        intro he
        obtain ⟨he,-⟩ := Option.filter_eq_some_iff.mp he
        exact hd (Option.some.inj he)
      simp [hd,hdf]

theorem Exact.named (h : Exact idOf hash once s ts) (hf : ∀ t ∈ ts, finished t = true)
    (hm : id ∈ onceIds idOf once s) : once id = true ∧ id ≠ "" := by
  obtain ⟨x,hx,hid⟩ := List.mem_filterMap.mp hm
  rw [h.tallied.held.stored_quiet hf] at hx
  obtain ⟨hxd,ho⟩ := Option.filter_eq_some_iff.mp hid
  exact ⟨ho,h.tallied.claimed x (List.mem_of_mem_drop hx) id hxd ho⟩

theorem Exact.quiet (h : Exact idOf hash once s ts) (hf : ∀ t ∈ ts, finished t = true) :
    (∀ id, (∃ i, id ∈ (s.shard i).ids.m) ↔ id ∈ onceIds idOf once s) ∧
      (onceIds idOf once s).Nodup := by
  refine ⟨fun id => ⟨fun ⟨i,hm⟩ => ?_,fun hm => ?_⟩,List.nodup_iff_count_le_one.mpr fun id => ?_⟩
  · obtain ⟨hi,hid,hne⟩ := h.tallied.ids i id hm
    have hl : listed hash s id = true := by
      rw [listed,hi]
      exact decide_eq_true hm
    refine List.count_pos_iff.mp ?_
    rw [h.count hf hid hne,hl]
    exact Nat.one_pos
  · obtain ⟨hid,hne⟩ := h.named hf hm
    have hc := List.count_pos_iff.mpr hm
    rw [h.count hf hid hne] at hc
    refine ⟨hash id,?_⟩
    cases hl : listed hash s id
    · rw [hl] at hc
      cases hc
    · exact of_decide_eq_true hl
  · by_cases hm : id ∈ onceIds idOf once s
    · obtain ⟨hid,hne⟩ := h.named hf hm
      rw [h.count hf hid hne]
      exact one_le _
    · rw [List.count_eq_zero_of_not_mem hm]
      exact Nat.zero_le 1

theorem no_id_leaks {capacity : ℕ} {w : World (Queue T) (Thread T)}
    (h : (program idOf hash).Reach (named idOf once) (start capacity) w) :
    (∀ i, ∀ id ∈ (w.shared.shard i).ids.m, belongs idOf hash w.shared w.threads id = true) ∧
      ((∀ t ∈ w.threads, finished t = true) →
        ∀ i, ∀ id ∈ (w.shared.shard i).ids.m, stored idOf w.shared id = true) ∧
      ((program idOf hash).Reach (apart idOf once) (start capacity) w →
        (∀ t ∈ w.threads, finished t = true) →
        (∀ id, (∃ i, id ∈ (w.shared.shard i).ids.m) ↔ id ∈ onceIds idOf once w.shared) ∧
          (onceIds idOf once w.shared).Nodup) := by
  have ht := tallied_reach h
  exact ⟨fun i id hm => ht.belongs hm,fun hf i id hm => ht.quiet hf hm,
    fun ha hf => (exact_reach ha).quiet hf⟩

def idOfJob : ℕ → Option String
  | 7 => some "a"
  | 9 => some ""
  | _ => none

def onceTest (id : String) : Bool := id = "a" || id = ""

def enqueuedOnce (x : ℕ) (id : String) : List (Event (Thread ℕ) Unit) :=
  .call (.enqueueOnce x id (.idSet .load)) :: List.replicate 17 (.act 0 ())

theorem no_id_leaks_stored : ∃ w,
    (program idOfJob hashTest).Reach (named idOfJob onceTest) (start 0) w ∧
      (∀ t ∈ w.threads, finished t = true) ∧ onceIds idOfJob onceTest w.shared = ["a"] ∧
      (∀ id, (∃ i, id ∈ (w.shared.shard i).ids.m) ↔ id ∈ onceIds idOfJob onceTest w.shared) := by
  obtain ⟨w,hr,hp⟩ := Program.exists_reach_of_run (program idOfJob hashTest) (apart idOfJob onceTest)
    (start 0) (enqueuedOnce 7 "a")
    (fun w => w.threads.all finished && onceIds idOfJob onceTest w.shared = ["a"])
    (by decide +kernel)
  simp only [Bool.and_eq_true,decide_eq_true_eq,List.all_eq_true] at hp
  have hn : (program idOfJob hashTest).Reach (named idOfJob onceTest) (start 0) w := by
    refine Program.reach_mono (fun w e hok => ?_) hr
    simp only [apart,Bool.and_eq_true] at hok
    exact hok.1
  exact ⟨w,hn,hp.1,hp.2,((no_id_leaks hn).2.2 hr hp.1).1⟩

-- PurgeValues has taken the item out of the log and not reset the shards yet.
def purgedRun : List (Event (Thread ℕ) Unit) :=
  enqueuedOnce 7 "a" ++
  .call (.purgeValues (.idSet .load)) :: (List.replicate 72 (.act 1 ()) : Events (Thread ℕ) Unit)

-- The queue is full: the Append of EnqueueOnce has returned, its id is still to be taken back.
def fullRun : List (Event (Thread ℕ) Unit) :=
  .call (.enqueue 8 .loadLimit) :: (List.replicate 13 (.act 0 ()) : Events (Thread ℕ) Unit) ++
  .call (.enqueueOnce 7 "a" (.idSet .load)) ::
    (List.replicate 14 (.act 1 ()) : Events (Thread ℕ) Unit)

-- A Dequeue frees no empty id.
def emptyRun : List (Event (Thread ℕ) Unit) :=
  enqueuedOnce 9 "" ++
  .call (.dequeue .refuse) :: (List.replicate 8 (.act 1 ()) : Events (Thread ℕ) Unit)

theorem id_out_of_place :
    (∃ w, (program idOfJob hashTest).Reach (promised idOfJob onceTest) (start 0) w ∧
      "a" ∈ (w.shared.shard 0).ids.m ∧ inPlace idOfJob hashTest w.shared w.threads "a" = false) ∧
    (∃ w, (program idOfJob hashTest).Reach (promised idOfJob onceTest) (start 1) w ∧
      "a" ∈ (w.shared.shard 0).ids.m ∧ inPlace idOfJob hashTest w.shared w.threads "a" = false) ∧
    ∃ w, (program idOfJob hashTest).Reach (promised idOfJob onceTest) (start 0) w ∧
      (∀ t ∈ w.threads, finished t = true) ∧ "" ∈ (w.shared.shard 0).ids.m ∧
      stored idOfJob w.shared "" = false := by
  refine ⟨?_,?_,?_⟩
  · obtain ⟨w,hr,hp⟩ := Program.exists_reach_of_run (program idOfJob hashTest)
      (promised idOfJob onceTest) (start 0) purgedRun
      (fun w => decide ("a" ∈ (w.shared.shard 0).ids.m) &&
        !inPlace idOfJob hashTest w.shared w.threads "a") (by decide +kernel)
    simp only [Bool.and_eq_true,decide_eq_true_eq,Bool.not_eq_true'] at hp
    exact ⟨w,hr,hp.1,hp.2⟩
  · obtain ⟨w,hr,hp⟩ := Program.exists_reach_of_run (program idOfJob hashTest)
      (promised idOfJob onceTest) (start 1) fullRun
      (fun w => decide ("a" ∈ (w.shared.shard 0).ids.m) &&
        !inPlace idOfJob hashTest w.shared w.threads "a") (by decide +kernel)
    simp only [Bool.and_eq_true,decide_eq_true_eq,Bool.not_eq_true'] at hp
    exact ⟨w,hr,hp.1,hp.2⟩
  · obtain ⟨w,hr,hp⟩ := Program.exists_reach_of_run (program idOfJob hashTest)
      (promised idOfJob onceTest) (start 0) emptyRun
      (fun w => w.threads.all finished && decide ("" ∈ (w.shared.shard 0).ids.m) &&
        !stored idOfJob w.shared "") (by decide +kernel)
    simp only [Bool.and_eq_true,decide_eq_true_eq,Bool.not_eq_true',List.all_eq_true] at hp
    exact ⟨w,hr,hp.1.1,hp.1.2,hp.2⟩

end Varmq.InMemory
