import Varmq.InMemory.Tokens
import Varmq.InMemory.Progress

namespace Varmq.InMemory

open Interleaving Topics Queues

variable {T : Type} {s s' : Queue T} {idOf : T → Option String} {hash : String → Fin idShards}
  {once : String → Bool} {x : T} {id d : String} {l l' t : Thread T} {xs ys ts : List (Thread T)}

-- Every item gives the id it is enqueued under, and no plainly enqueued one an id of an EnqueueOnce.
def promised (idOf : T → Option String) (once : String → Bool) : Guard (Queue T) (Thread T) Unit :=
  fun _ e =>
    match e with
    | .call (.enqueue x _) => (idOf x).all fun d => !once d
    | .call (.enqueueOnce x d _) => idOf x = some d && once d
    | _ => true

def named (idOf : T → Option String) (once : String → Bool) : Guard (Queue T) (Thread T) Unit :=
  fun w e => promised idOf once w e &&
    match e with
    | .call (.enqueueOnce _ d _) => d ≠ ""
    | _ => true

def dequeuing : Thread T → Bool
  | .dequeue (.returned _) => false
  | .dequeue _ => true
  | _ => false

def purging : Thread T → Bool
  | .purgeValues (.returned _) => false
  | .purgeValues _ => true
  | _ => false

-- No PurgeValues overlaps an unfinished Dequeue.
def apart (idOf : T → Option String) (once : String → Bool) : Guard (Queue T) (Thread T) Unit :=
  fun w e => named idOf once w e &&
    match e with
    | .call (.dequeue _) => w.threads.all fun t => !purging t
    | .call (.purgeValues _) => w.threads.all fun t => !dequeuing t
    | _ => true

def storedItems (s : Queue T) : List T :=
  (List.range' (s.log.cursor 0).front (s.log.head - (s.log.cursor 0).front)).filterMap fun o =>
    if s.log.published o then s.log.slot o else none

def stored (idOf : T → Option String) (s : Queue T) (id : String) : Bool :=
  (storedItems s).any fun x => idOf x = some id

def inserting (id : String) : Thread T → Bool
  | .enqueueOnce _ d (.append _) => d = id
  | _ => false

def refusing (id : String) : Thread T → Bool
  | .enqueueOnce _ d .remove => d = id
  | _ => false

-- The three places of an id without those of a refused EnqueueOnce and of a PurgeValues.
def inPlace (idOf : T → Option String) (hash : String → Fin idShards) (s : Queue T)
    (ts : List (Thread T)) (id : String) : Bool :=
  stored idOf s id || ts.any fun t =>
    inserting id t || (dequeuing t && decide (0 < owed idOf hash id t))

def belongs (idOf : T → Option String) (hash : String → Fin idShards) (s : Queue T)
    (ts : List (Thread T)) (id : String) : Bool :=
  stored idOf s id || ts.any fun t =>
    inserting id t || refusing id t || decide (0 < owed idOf hash id t)

def tokens (idOf : T → Option String) (hash : String → Fin idShards) (id : String) (s : Queue T)
    (ts : List (Thread T)) : ℕ := unread idOf id s.log + total (bears idOf hash id) ts

-- Past the point where EnqueueOnce knows idsOn to be set.
def needsOn : Thread T → Bool
  | .enqueueOnce _ _ (.idSet _) | .enqueueOnce _ _ .loadOn | .enqueueOnce _ _ .storeOn => false
  | .enqueueOnce _ _ _ => true
  | _ => false

structure Tallied (idOf : T → Option String) (hash : String → Fin idShards) (once : String → Bool)
    (s : Queue T) (ts : List (Thread T)) : Prop where
  held : Held hash s ts
  named : ∀ t ∈ ts, Named idOf once t
  needed : ∀ t ∈ ts, needsOn t = true → s.idsOn = true
  on : ∀ id, once id = true → id ≠ "" → 0 < tokens idOf hash id s ts → s.idsOn = true
  ids : ∀ i, ∀ id ∈ (s.shard i).ids.m, hash id = i ∧ once id = true ∧ id ≠ ""
  le : ∀ id, once id = true → id ≠ "" → one (listed hash s id) ≤ tokens idOf hash id s ts
  claimed : ∀ x ∈ s.log.claims, ∀ d, idOf x = some d → once d = true → d ≠ ""

-- Only an Append of Enqueue or EnqueueOnce claims an offset.
theorem Held.claim_cases (h : Held hash s (xs ++ l :: ys)) (hs : Act idOf hash s l s' l') :
    s'.log.claims = s.log.claims ∨ ∃ x, s'.log.claims = s.log.claims ++ [x] ∧
      ((∃ pc, l = .enqueue x pc) ∨ ∃ d pc, l = .enqueueOnce x d (.append pc)) := by
  rcases h.logged hs with ha | ⟨he,-,-⟩
  · rcases head_cases ha with ⟨-,he⟩ | ⟨x,b,n,t,hp,-,he⟩
    · exact .inl he
    · refine .inr ⟨x,he,?_⟩
      unfold proj at hp
      split at hp <;> cases hp
      · exact .inl ⟨_,rfl⟩
      · exact .inr ⟨_,_,rfl⟩
  · exact .inl (by rw [he])

theorem one_hand {log log' : Log T} {pc pc' : CursorPc T} (hw : within .dequeue pc = true)
    (hn : Named idOf once (.dequeue (.cursor pc))) (hs : CursorAct log 0 pc log' pc') :
    Named idOf once (.dequeue (.cursor pc')) := by
  cases hs with
  | enter _ _ hop =>
    have he := of_decide_eq_true hw
    rw [he]
    trivial
  | gone | empty => exact Nat.zero_le 1
  | advance => exact Nat.le_refl 1
  | shown | move | seek | unlockLog => cases hw
  | unlock => exact hn
  | _ => trivial

theorem act_named (hr : Runs l) (hn : Named idOf once l) (hs : Act idOf hash s l s' l') :
    Named idOf once l' := by
  cases hs with
  | dequeue ha => exact one_hand hr hn ha
  | named hon hv hne => exact hv
  | enqueue | onceSet | onceReady | onceOn | onceOff | storeOn | onceLock | add | repeated | append
  | refused | stored | onceRemove | onceUnlock | dequeueLock => exact hn
  | _ => trivial

theorem act_idsOn (hs : Act idOf hash s l s' l') (hon : s.idsOn = true) : s'.idsOn = true := by
  cases hs with
  | onceSet ha | onceReady ha | purgeSet ha | purgeReady ha => exact (idSet_kept ha).2.1 ▸ hon
  | storeOn => rfl
  | _ => exact hon

theorem act_needed (hn : needsOn l = true → s.idsOn = true) (hs : Act idOf hash s l s' l')
    (hl : needsOn l' = true) : s'.idsOn = true := by
  cases hs with
  | onceOn hon => exact hon
  | storeOn => rfl
  | onceLock | add | repeated | append | refused | stored | onceRemove | onceUnlock => exact hn rfl
  | _ => cases hl

-- Only EnqueueOnce puts ids into the set.
theorem act_listed (hi : needsIds l = true → s.ids.isSome = true) (hs : Act idOf hash s l s' l')
    {i : Fin idShards} (hm : id ∈ (s'.shard i).ids.m) :
    id ∈ (s.shard i).ids.m ∨ ∃ x, l = .enqueueOnce x id .add ∧ i = hash id := by
  have fewer : ∀ {j : Fin idShards} {m : IdMap}, s.ids.isSome = true →
      (∀ y ∈ m.m, y ∈ (s.shard j).ids.m) → id ∈ ((s.setIds j m).shard i).ids.m →
      id ∈ (s.shard i).ids.m := by
    intro j m hi hle hm
    rw [Queue.setIds_ids hi] at hm
    split at hm
    · rename_i he
      rw [he]
      exact hle id hm
    · exact hm
  cases hs with
  | onceSet ha | onceReady ha | purgeSet ha | purgeReady ha =>
    rw [idSet_shard ha] at hm
    exact .inl hm
  | onceLock | onceUnlock | dequeueLock | dequeueUnlock | purgeLock | purgeUnlock =>
    rw [Queue.setMu_ids] at hm
    exact .inl hm
  | @add x d =>
    rw [Queue.setIds_ids (hi rfl)] at hm
    split at hm
    · rename_i he
      rcases IdMap.mem_add.mp hm with rfl | hm
      · exact .inr ⟨x,rfl,he⟩
      · exact .inl (he ▸ hm)
    · exact .inl hm
  | @repeated x d =>
    rw [Queue.setIds_ids (hi rfl)] at hm
    split at hm
    · rename_i he
      rcases IdMap.mem_add.mp hm with rfl | hm
      · exact .inr ⟨x,rfl,he⟩
      · exact .inl (he ▸ hm)
    · exact .inl hm
  | onceRemove => exact .inl (fewer (hi rfl) (fun y hy => (IdMap.mem_remove.mp hy).1) hm)
  | dequeueRemove => exact .inl (fewer (hi rfl) (fun y hy => (IdMap.mem_remove.mp hy).1) hm)
  | reset h => exact .inl (fewer (hi rfl) (fun y hy => absurd hy IdMap.mem_empty) hm)
  | _ => exact .inl hm

theorem Tallied.moved (h : Tallied idOf hash once s (xs ++ l :: ys)) (hid : once id = true)
    (hne : id ≠ "") (hs : Act idOf hash s l s' l') : Moved idOf hash id s s' l l' := by
  have hl : l ∈ xs ++ l :: ys := by simp
  refine act_moved h.held (h.named l hl) hid hne (fun hb => h.on id hid hne ?_) hs
  have := le_total (f := bears idOf hash id) hl
  rw [tokens]
  omega

theorem tallied_act (h : Tallied idOf hash once s (xs ++ l :: ys)) (hs : Act idOf hash s l s' l') :
    Tallied idOf hash once s' (xs ++ l' :: ys) := by
  have hl : l ∈ xs ++ l :: ys := by simp
  have hneeds := h.needed l hl
  refine ⟨held_act h.held hs,fun t ht => ?_,fun t ht hn => ?_,fun id hid hne hpos => ?_,
    fun i id hm => ?_,fun id hid hne => ?_,fun x hx d hd hid => ?_⟩
  · rcases mem_split ht with ht | rfl
    · exact h.named t (mem_of_other ht)
    · exact act_named (h.held.runs l hl) (h.named l hl) hs
  · rcases mem_split ht with ht | rfl
    · exact act_idsOn hs (h.needed t (mem_of_other ht) hn)
    · exact act_needed hneeds hs hn
  · by_cases hold : 0 < tokens idOf hash id s (xs ++ l :: ys)
    · exact act_idsOn hs (h.on id hid hne hold)
    · have hle := h.le id hid hne
      have hm := h.moved hid hne hs
      simp only [tokens,total_split] at hold hpos hle
      cases hm with
      | kept hk =>
        refine act_idsOn hs ?_
        have hlist : one (listed hash s' id) = 1 := by
          have := one_le (listed hash s' id)
          omega
        have hin : listed hash s' id = true := by
          cases hb : listed hash s' id
          · rw [hb] at hlist
            cases hlist
          · rfl
        have hin' : id ∈ (s'.shard (hash id)).ids.m := of_decide_eq_true hin
        rcases act_listed (h.held.ids l hl) hs hin' with hin | ⟨x,hx,-⟩
        · have : listed hash s id = true := decide_eq_true hin
          rw [this,one_true] at hle
          omega
        · exact hneeds (by rw [hx]; rfl)
      | freed _ hu h1 h0 => omega
      | reset vals _ _ hu h0 => omega
  · rcases act_listed (h.held.ids l hl) hs hm with hm | ⟨x,hx,hi⟩
    · exact h.ids i id hm
    · have hn := h.named l hl
      rw [hx] at hn
      exact ⟨hi.symm,hn.2⟩
  · have hle := h.le id hid hne
    have hm := h.moved hid hne hs
    simp only [tokens,total_split] at hle ⊢
    cases hm with
    | kept hk => omega
    | freed hf => simp [hf]
    | reset vals _ hf => simp [hf]
  · rcases h.held.claim_cases hs with he | ⟨y,he,hy⟩
    · rw [he] at hx
      exact h.claimed x hx d hd hid
    · rw [he] at hx
      rcases List.mem_append.mp hx with hx | hx
      · exact h.claimed x hx d hd hid
      · obtain rfl := List.mem_singleton.mp hx
        have hn := h.named l hl
        rcases hy with ⟨pc,rfl⟩ | ⟨d',pc,rfl⟩
        · rw [hn d hd] at hid
          cases hid
        · rw [hn.1] at hd
          cases hd
          exact hn.2.2

theorem bears_begin (he : entry s l = true) :
    bears idOf hash id l = 0 ∧ needsOn l = false := by
  unfold entry at he
  split at he <;> first | exact ⟨rfl,rfl⟩ | cases he

theorem tallied_call (h : Tallied idOf hash once s ts) (he : entry s l = true)
    (hn : Named idOf once l) : Tallied idOf hash once s (ts ++ [l]) := by
  have hb : ∀ id, bears idOf hash id l = 0 := fun id => (bears_begin he).1
  have hsame : ∀ id, tokens idOf hash id s (ts ++ [l]) = tokens idOf hash id s ts := by
    intro id
    rw [tokens,tokens,total_call,hb,Nat.add_zero]
  refine ⟨held_call h.held he,forall_call h.named hn,forall_call h.needed fun hl => ?_,
    fun id hid hne hpos => ?_,h.ids,fun id hid hne => ?_,h.claimed⟩
  · have hbegin : bears idOf hash "" l = 0 ∧ needsOn l = false := bears_begin he
    rw [hbegin.2] at hl
    cases hl
  · rw [hsame] at hpos
    exact h.on id hid hne hpos
  · rw [hsame]
    exact h.le id hid hne

theorem named_promised {w : World (Queue T) (Thread T)} (h : named idOf once w (.call l) = true)
    (he : entry w.shared l = true) : Named idOf once l := by
  unfold entry at he
  split at he
  · intro d hd
    simpa [named,promised,hd] using h
  · simp only [named,promised,Bool.and_eq_true,decide_eq_true_eq] at h
    exact ⟨h.1.1,h.1.2,h.2⟩
  · trivial
  · trivial
  · trivial
  · trivial
  · trivial
  · cases he

theorem tallied_start (capacity : ℕ) :
    Tallied idOf hash once (newQueue capacity : Queue T) [] :=
  ⟨held_start capacity,fun t ht => (by cases ht),fun t ht => (by cases ht),
    fun id _ _ hpos => absurd hpos (Nat.lt_irrefl 0),
    fun i id hm => absurd hm IdMap.mem_empty,fun id _ _ => Nat.zero_le _,fun x hx => by cases hx⟩

theorem tallied_reach {capacity : ℕ} {w : World (Queue T) (Thread T)}
    (h : (program idOf hash).Reach (named idOf once) (start capacity) w) :
    Tallied idOf hash once w.shared w.threads := by
  refine Program.reach_invariant (tallied_start capacity)
    (fun _ _ _ h hok he => tallied_call h he (named_promised hok he))
    (fun s xs l ys u s' l' new h _ hs => ?_) h
  obtain ⟨ha,rfl⟩ := step_act hs
  rw [List.append_nil]
  exact tallied_act h ha

end Varmq.InMemory
