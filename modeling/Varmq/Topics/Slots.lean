import Varmq.Topics.Frame
import Mathlib.Logic.Relation
import Mathlib.Data.Nat.Init

namespace Varmq.Topics

open Interleaving

variable {T : Type} {s s' : Log T} {l l' : Thread T} {x y : T} {o i j t u : ℕ}
  {xs ys ts : List (Thread T)} {w w' : World (Log T) (Thread T)} {e : Event (Thread T) Unit}
  {pc pc' : AppendPc} {limit : ℕ}

-- What an Append on its way along the chain knows without looking at the log.
def OnWay : Thread T → Prop
  | .append _ (.next _ _ k) | .append _ (.link _ _ k) | .append _ (.grow _ _ k) => k ≤ linkSpins
  | .append _ (.advance _ t nx k) => nx = t + 1 ∧ k ≤ linkSpins
  | _ => True

theorem Chain.next_eq (h : Chain s) (hn : (s.chunk t).next = some u) :
    u = t + 1 ∧ t + 1 < s.chunks.length := by
  by_cases ht : t < s.chunks.length
  · rw [(h.made t ht).2.2.2] at hn
    split at hn
    · cases hn
      exact ⟨rfl,‹_›⟩
    · cases hn
  · rw [chunk_beyond s (Nat.le_of_not_lt ht)] at hn
    cases hn

theorem Chain.next_of_lt (h : Chain s) (ht : t + 1 < s.chunks.length) :
    (s.chunk t).next = some (t + 1) := by
  rw [(h.made t (Nat.lt_of_succ_lt ht)).2.2.2,if_pos ht]

theorem plain_onWay {b : Bool} (h : plain pc = some b) : OnWay (.append x pc) := by
  cases pc <;> trivial

theorem append_onWay (h : Chain s) (hl : OnWay (.append x pc)) (hs : AppendAct s x pc s' pc') :
    OnWay (.append x pc') := by
  cases hs with
  | plain _ h2 => exact plain_onWay h2
  | refuse | publish => exact plain_onWay (plain_finish _ _)
  | claim => exact Nat.zero_le _
  | hop _ hn => exact ⟨(h.next_eq hn).1,hl⟩
  | advance => exact hl.2
  | past | linking | spun | grow | grown => exact hl
  | spin hk => exact Nat.lt_of_le_of_ne hl hk
  | _ => trivial

theorem act_onWay (h : Chain s) (hl : OnWay l) (hs : Act s l s' l') : OnWay l' := by
  cases hs with
  | append ha => exact append_onWay h hl ha
  | _ => trivial

theorem entry_onWay (he : entry s l = true) : OnWay l := by
  cases l with
  | append x pc => cases pc <;> trivial
  | _ => trivial

theorem reach_onWay (h : (program T).Reach always (start (newBoundedLog limit)) w) :
    Inv w.shared w.threads ∧ ∀ l ∈ w.threads, OnWay l := by
  refine Program.reach_invariant (I := fun s ts => Inv s ts ∧ ∀ l ∈ ts, OnWay l)
    ⟨inv_new limit,(fun _ h => by cases h)⟩ (fun s ts l h _ he => ?_)
    (fun s xs l ys u s' l' new h _ hs => ?_) h
  · exact ⟨inv_call h.1 (entry_outside he),forall_call h.2 (entry_onWay he)⟩
  · obtain ⟨ha,rfl⟩ := step_act hs
    refine ⟨?_,forall_act (fun t ht => h.2 t (mem_of_other ht)) ?_ (fun t ht => by cases ht)⟩
    · rw [List.append_nil]
      exact inv_act h.1 ha
    · exact act_onWay h.1.chain (h.2 l (by simp)) ha

-- A chunk's next is never set again, and tail goes on by one chunk at most.
structure Grows (s s' : Log T) : Prop where
  ext : Ext s s'
  next : ∀ t u, (s.chunk t).next = some u → (s'.chunk t).next = some u
  tail : ∀ t, s.tail = some t → ∃ u, s'.tail = some u ∧ t ≤ u ∧ (u = t ∨ chunkCapacity * u < s'.head)

theorem next_kept (h : Chain s) (h' : Chain s') (he : Ext s s') (hn : (s.chunk t).next = some u) :
    (s'.chunk t).next = some u := by
  obtain ⟨rfl,hlt⟩ := h.next_eq hn
  exact h'.next_of_lt (Nat.lt_of_lt_of_le hlt he.length)

theorem Grows.refl (s : Log T) : Grows s s :=
  ⟨.refl s,fun _ _ => id,fun t ht => ⟨t,ht,Nat.le_refl t,.inl rfl⟩⟩

theorem Ext.trans {s'' : Log T} (h : Ext s s') (k : Ext s' s'') : Ext s s'' :=
  ⟨Nat.le_trans h.length k.length,Nat.le_trans h.head k.head,h.claims.trans k.claims,
    fun ht => k.tail (h.tail ht),fun o ho => k.published o (h.published o ho)⟩

theorem Grows.trans {s'' : Log T} (h : Grows s s') (k : Grows s' s'') : Grows s s'' := by
  refine ⟨h.ext.trans k.ext,fun t u ht => k.next t u (h.next t u ht),fun t ht => ?_⟩
  obtain ⟨u,hu,htu,hu'⟩ := h.tail t ht
  obtain ⟨v,hv,huv,hv'⟩ := k.tail u hu
  refine ⟨v,hv,Nat.le_trans htu huv,?_⟩
  rcases hv' with rfl | hv'
  · exact hu'.imp_right fun hlt => Nat.lt_of_lt_of_le hlt k.ext.head
  · exact .inr hv'

theorem Inv.tail_step (h : Inv s (xs ++ l :: ys)) (hl : OnWay l) (hs : Act s l s' l')
    (ht : s.tail = some t) :
    ∃ u, s'.tail = some u ∧ t ≤ u ∧ (u = t ∨ chunkCapacity * u < s'.head) := by
  have same : s'.tail = s.tail →
      ∃ u, s'.tail = some u ∧ t ≤ u ∧ (u = t ∨ chunkCapacity * u < s'.head) :=
    fun he => ⟨t,he.trans ht,Nat.le_refl t,.inl rfl⟩
  cases hs with
  | @append x pc pc' s' ha =>
    cases ha with
    | @advance a t' nx k =>
      obtain ⟨rfl,-⟩ := hl
      obtain ⟨hown,-,hle⟩ : KnowsAppend s x (.advance a t' (t' + 1) k) := h.append _ _ (by simp)
      by_cases hst : s.tail = some t'
      · rw [ht] at hst
        cases hst
        refine ⟨t + 1,by simp [ht],Nat.le_succ t,.inr ?_⟩
        have hlt := (List.getElem?_eq_some_iff.mp hown.2.1).1
        rw [← h.chain.head] at hlt
        exact Nat.lt_of_le_of_lt hle hlt
      · exact same (by simp [hst])
    | _ => exact same rfl
  | newCursor ha =>
    cases ha with
    | first hn =>
      rw [ht] at hn
      cases hn
    | _ => exact same rfl
  | cursor ha =>
    cases ha with
    | take hc => exact same (by split <;> rfl)
    | _ => exact same rfl
  | close => exact same rfl

theorem Inv.grows (h : Inv s (xs ++ l :: ys)) (hl : OnWay l) (hs : Act s l s' l') : Grows s s' := by
  have he := (h.memory hs).ext
  exact ⟨he,fun t u hn => next_kept h.chain (h.memory hs).chain he hn,
    fun t ht => h.tail_step hl hs ht⟩

-- A step of the program is a call or the step of one goroutine.
theorem call_or_act (hn : (program T).next w e = some w') :
    (∃ l, w' = ⟨w.shared,w.threads ++ [l]⟩ ∧ ∀ i, e ≠ .act i ()) ∨
    ∃ s xs l ys s' l', w = ⟨s,xs ++ l :: ys⟩ ∧ e = .act xs.length () ∧ Act s l s' l' ∧
      w' = ⟨s',xs ++ l' :: ys⟩ := by
  rcases Program.next_cases hn with ⟨l,rfl,-,rfl⟩ | ⟨xs,l,ys,c,s',l',new,rfl,hts,hs,rfl⟩
  · exact .inl ⟨l,rfl,fun i hi => by cases hi⟩
  · obtain ⟨s,ts⟩ := w
    obtain ⟨ha,rfl⟩ := step_act hs
    simp only at hts ha
    subst hts
    exact .inr ⟨s,xs,l,ys,s',l',rfl,rfl,ha,by rw [List.append_nil]⟩

theorem next_grows (h : (program T).Reach always (start (newBoundedLog limit)) w)
    (hn : (program T).next w e = some w') : Grows w.shared w'.shared := by
  obtain ⟨hi,hl⟩ := reach_onWay h
  rcases call_or_act hn with ⟨l,rfl,-⟩ | ⟨s,xs,l,ys,s',l',rfl,rfl,ha,rfl⟩
  · exact .refl _
  · exact hi.grows (hl l (by simp)) ha

theorem run_grows (h : (program T).Reach always (start (newBoundedLog limit)) w)
    (h' : (program T).Reach always w w') : Grows w.shared w'.shared := by
  induction h' with
  | refl => exact .refl _
  | tail h' _ hn ih => exact ih.trans (next_grows (Program.reach_trans h h') hn)

theorem Chain.along (h : Chain s) (htu : t ≤ u) (hu : u < s.chunks.length) :
    Relation.ReflTransGen (fun t u => (s.chunk t).next = some u) t u := by
  induction u, htu using Nat.le_induction with
  | base => exact .refl
  | succ u htu ih => exact .tail (ih (Nat.lt_of_succ_lt hu)) (h.next_of_lt hu)

-- Two goroutines do not have one offset in hand.
theorem Inv.sole_owner (h : Inv s ts) (hi : ts[i]? = some l) (hj : ts[j]? = some l')
    (ho : owns o l = 1) (ho' : owns o l' = 1) : i = j := by
  obtain ⟨xs,ys,rfl,rfl,-⟩ := set_split hi
  by_contra hne
  have hone : total (owns o) (xs ++ l :: ys) ≤ 1 := by
    have h1 := h.owned o
    have h2 := claimedAt_le s o
    omega
  have hmem := mem_of_getElem?_other (Ne.symm hne) hj
  have hzero := eq_zero_of_other hone hmem (by omega)
  omega

theorem Inv.hand_step (h : Inv s (xs ++ l :: ys)) (hs : Act s l s' l') (ho : owns o l = 1) :
    owns o l' = 1 ∨ s'.published o = true := by
  have hl : l ∈ xs ++ l :: ys := by simp
  have hmem := h.memory hs
  by_cases hp : s'.published o = true
  · exact .inr hp
  · left
    have hpub : pub s o = 0 := if_neg (by simp [h.unpublished hl ho])
    have hpub' : pub s' o = 0 := if_neg hp
    have hmoved := hmem.moved o
    have howned := h.owned o
    have hle := le_total (f := owns o) hl
    have hclaimed : claimedAt s o ≤ claimedAt s' o := by
      have := hmem.ext.head
      unfold claimedAt
      split <;> split <;> omega
    have h1 := claimedAt_le s o
    have h2 := claimedAt_le s' o
    omega

-- An offset stays with the Append that claimed it until that one has published it.
def Has (o i : ℕ) (w : World (Log T) (Thread T)) : Prop :=
  (∃ l, w.threads[i]? = some l ∧ owns o l = 1) ∨ w.shared.published o = true

theorem next_has (h : (program T).Reach always (start (newBoundedLog limit)) w)
    (hn : (program T).next w e = some w') (hh : Has o i w) : Has o i w' := by
  rcases hh with ⟨l,hi,ho⟩ | hp
  · rcases call_or_act hn with ⟨l',rfl,-⟩ | ⟨s,xs,m,ys,s',m',rfl,rfl,ha,rfl⟩
    · obtain ⟨hlt,-⟩ := List.getElem?_eq_some_iff.mp hi
      exact .inl ⟨l,(List.getElem?_append_left hlt).trans hi,ho⟩
    · by_cases hix : i = xs.length
      · subst hix
        cases (getElem?_split xs ys m).symm.trans hi
        exact ((reach_onWay h).1.hand_step ha ho).imp_left fun ho' => ⟨m',getElem?_split xs ys m',ho'⟩
      · have hother := (@getElem?_other _ xs ys [] m m' l i hix hi).1
        rw [List.append_nil] at hother
        exact .inl ⟨l,hother,ho⟩
  · exact .inr ((next_grows h hn).ext.published o hp)

theorem run_has (h : (program T).Reach always (start (newBoundedLog limit)) w)
    (h' : (program T).Reach always w w') (hh : Has o i w) : Has o i w' := by
  induction h' with
  | refl => exact hh
  | tail h' _ hn ih => exact next_has (Program.reach_trans h h') hn ih

-- Bounds how often an Append still steps until it stands at its chunk.
def walk (s : Log T) : AppendPc → ℕ
  | .next a t k => 8 * (a.offset / chunkCapacity - t) + 3 * (linkSpins - k) +
      if (s.chunk t).next = none then 5 else 2
  | .link a t k => 8 * (a.offset / chunkCapacity - t) + 3 * (linkSpins - k) + 4
  | .grow a t k => 8 * (a.offset / chunkCapacity - t) + 3 * (linkSpins - k) + 3
  | .advance a t _ k => 8 * (a.offset / chunkCapacity - t) + 3 * (linkSpins - k) + 1
  | _ => 0

theorem walk_mono (h : Grows s s') (pc : AppendPc) : walk s' pc ≤ walk s pc := by
  cases pc with
  | next a t k =>
    simp only [walk]
    cases hn : (s.chunk t).next with
    | none => split <;> simp
    | some u => simp [h.next t u hn]
  | _ => exact Nat.le_refl _

theorem walk_plain {b : Bool} (h : plain pc = some b) : walk s pc = 0 := by
  cases pc <;> first | rfl | cases h

theorem walk_next_le (s : Log T) (a : Claim) (t k : ℕ) : walk s (.next a t k) ≤
    8 * (a.offset / chunkCapacity - t) + 3 * (linkSpins - k) + 5 := by
  rw [walk]
  split <;> omega

theorem walk_step (hk : KnowsAppend s x pc) (hw : OnWay (.append x pc))
    (hpos : 0 < walk s pc) (hs : AppendAct s x pc s' pc') :
    inHand pc' = inHand pc ∧ walk s' pc' < walk s pc := by
  cases hs with
  | plain h1 _ =>
    rw [walk_plain h1] at hpos
    exact absurd hpos (Nat.lt_irrefl 0)
  | found => exact ⟨rfl,hpos⟩
  | past _ hn | grown hn => exact ⟨rfl,by simp [walk,hn]⟩
  | @hop a t nx k _ hn => exact ⟨rfl,by simp [walk,hn]⟩
  | linking | spun => exact ⟨rfl,Nat.lt_succ_self _⟩
  | @spin a t k hne =>
    have hlt : k < linkSpins := Nat.lt_of_le_of_ne hw hne
    refine ⟨rfl,Nat.lt_of_le_of_lt (walk_next_le _ a t (k + 1)) ?_⟩
    rw [walk]
    omega
  | @grow a t k hn =>
    have hnext := chunk_linkNext s hk.1.2.2.1 t
    rw [if_neg (Nat.ne_of_lt hk.1.2.2.1),if_pos rfl] at hnext
    exact ⟨rfl,by simp [walk,hnext]⟩
  | @advance a t nx k =>
    obtain ⟨rfl,-⟩ := hw
    have hle : t + 1 ≤ a.offset / chunkCapacity := by
      rw [Nat.le_div_iff_mul_le capacity_pos,Nat.mul_comm]
      exact hk.2.2
    refine ⟨rfl,Nat.lt_of_le_of_lt (walk_next_le _ a (t + 1) k) ?_⟩
    rw [walk]
    omega
  | _ => exact absurd hpos (Nat.lt_irrefl 0)

theorem walk_moves (s : Log T) (x : T) (hpos : 0 < walk s pc) : (appendStep s x pc).isSome = true := by
  cases pc with
  | next a t k =>
    rw [appendStep]
    split
    · rfl
    · split <;> rfl
  | link a t k =>
    rw [appendStep]
    split
    · rfl
    · split <;> rfl
  | grow | advance => rfl
  | _ => exact absurd hpos (Nat.lt_irrefl 0)

-- The chain of chunks in one state, and where Appends and cursors stand on it.
structure Slots (s : Log T) (ts : List (Thread T)) : Prop where
  bases : ∀ t u, (s.chunk t).next = some u →
    u < s.chunks.length ∧ (s.chunk u).base = (s.chunk t).base + chunkCapacity
  loaded : ∀ x b n t, .append x (.claim b n t) ∈ ts →
    t < s.chunks.length ∧ (s.chunk t).base ≤ s.head
  found : ∀ x pc a t, .append x pc ∈ ts → pc = .write a t ∨ pc = .publish a t →
    ((s.chunk t).base ≤ a.offset ∧ a.offset < (s.chunk t).base + chunkCapacity) ∧
    a.offset - (s.chunk t).base < (s.chunk t).data.length ∧
    a.offset - (s.chunk t).base < (s.chunk t).ready.length ∧
    ∀ u < s.chunks.length, (s.chunk u).base ≤ a.offset → a.offset < (s.chunk u).base + chunkCapacity →
      u = t
  cursor : ∀ c < s.cursors.length, (s.cursor c).mx = false → ∀ t, (s.cursor c).chunk = some t →
    t < s.chunks.length ∧ (s.chunk t).base + (s.cursor c).idx = (s.cursor c).offset ∧
    (s.cursor c).offset ≤ s.head

theorem Chain.base_eq (h : Chain s) (ht : t < s.chunks.length) :
    (s.chunk t).base = chunkCapacity * t := (h.made t ht).1

theorem slots_found (h : Chain s) {a : Claim} (ho : Owned s x a t)
    (hlt : a.offset < chunkCapacity * (t + 1)) :
    ((s.chunk t).base ≤ a.offset ∧ a.offset < (s.chunk t).base + chunkCapacity) ∧
    a.offset - (s.chunk t).base < (s.chunk t).data.length ∧
    a.offset - (s.chunk t).base < (s.chunk t).ready.length ∧
    ∀ u < s.chunks.length, (s.chunk u).base ≤ a.offset → a.offset < (s.chunk u).base + chunkCapacity →
      u = t := by
  obtain ⟨hbase,hdata,hready,-⟩ := h.made t ho.2.2.1
  obtain ⟨hi,-⟩ := ho.slot h hlt
  have hle := ho.2.2.2
  rw [hdata,hready]
  rw [Nat.mul_add,Nat.mul_one] at hlt
  refine ⟨⟨by omega,by omega⟩,hi,hi,fun u hu h1 h2 => ?_⟩
  rw [h.base_eq hu] at h1 h2
  have hu' := (offset_eq (o := a.offset) (t := u) (i := a.offset - chunkCapacity * u) (by omega)).mp (by omega)
  have ht' := (offset_eq (o := a.offset) (t := t) (i := a.offset - chunkCapacity * t) (by omega)).mp (by omega)
  exact hu'.1.symm.trans ht'.1

theorem Inv.slots (h : Inv s ts) : Slots s ts := by
  refine ⟨fun t u hn => ?_,fun x b n t hl => ?_,fun x pc a t hl hpc => ?_,fun c hc hm t ht => ?_⟩
  · obtain ⟨rfl,hlt⟩ := h.chain.next_eq hn
    rw [h.chain.base_eq hlt,h.chain.base_eq (Nat.lt_of_succ_lt hlt)]
    exact ⟨hlt,rfl⟩
  · obtain ⟨-,hlt,hle⟩ := h.append _ _ hl
    rw [h.chain.base_eq hlt]
    exact ⟨hlt,hle⟩
  · have hk := h.append x pc hl
    rcases hpc with rfl | rfl
    · exact slots_found h.chain hk.1 hk.2
    · exact slots_found h.chain hk.1 hk.2.1
  · rcases h.idle c hc hm with hn | ⟨⟨u,hu,hlt,hpos⟩,-⟩
    · rw [hn] at ht
      cases ht
    · cases hu.symm.trans ht
      rw [h.chain.base_eq hlt]
      exact ⟨hlt,hpos,(h.sound c hc).offset⟩

-- From w to a later w': next is set once, tail goes on along the chain to a claimed base, and no
-- slot is written by two Appends.
structure Later (w w' : World (Log T) (Thread T)) : Prop where
  next : ∀ t u, (w.shared.chunk t).next = some u → (w'.shared.chunk t).next = some u
  tail : ∀ t, w.shared.tail = some t → ∃ u, w'.shared.tail = some u ∧
    Relation.ReflTransGen (fun t u => (w'.shared.chunk t).next = some u) t u ∧
    (u = t ∨ (w'.shared.chunk u).base < w'.shared.head)
  alone : ∀ (i j : ℕ) (x y : T) (a b : Claim) (t u : ℕ), w.threads[i]? = some (.append x (.write a t)) →
    w'.threads[j]? = some (.append y (.write b u)) →
    (t,a.offset - (w.shared.chunk t).base) = (u,b.offset - (w'.shared.chunk u).base) → i = j

-- An Append that has claimed an offset and is not at its chunk yet gets there by its own steps.
structure Walking (w : World (Log T) (Thread T)) (i : ℕ) (x : T) (pc : AppendPc) : Prop where
  moves : ((program T).next w (.act i ())).isSome = true
  own : ∀ w', (program T).next w (.act i ()) = some w' → ∃ pc',
    w'.threads[i]? = some (.append x pc') ∧ inHand pc' = inHand pc ∧ walk w'.shared pc' < walk w.shared pc
  other : ∀ e w', e ≠ .act i () → (program T).next w e = some w' →
    w'.threads[i]? = some (.append x pc) ∧ walk w'.shared pc ≤ walk w.shared pc

theorem later (h : (program T).Reach always (start (newBoundedLog limit)) w)
    (h' : (program T).Reach always w w') : Later w w' := by
  obtain ⟨hi,-⟩ := reach_onWay h
  obtain ⟨hi',-⟩ := reach_onWay (Program.reach_trans h h')
  have hg := run_grows h h'
  refine ⟨hg.next,fun t ht => ?_,fun i j x y a b t u hw hw' heq => ?_⟩
  · obtain ⟨u,hu,htu,hclaimed⟩ := hg.tail t ht
    have hlt := (hi'.chain.tail u hu).1
    refine ⟨u,hu,hi'.chain.along htu hlt,hclaimed.imp_right fun hlt' => ?_⟩
    rw [hi'.chain.base_eq hlt]
    exact hlt'
  · obtain ⟨rfl,heq⟩ := Prod.mk.inj heq
    obtain ⟨hown,-⟩ := hi.append x _ (List.mem_of_getElem? hw)
    obtain ⟨hown',-⟩ := hi'.append y _ (List.mem_of_getElem? hw')
    rw [hi.chain.base_eq hown.2.2.1,hi'.chain.base_eq hown'.2.2.1] at heq
    have ho : a.offset = b.offset := by
      have h1 := hown.2.2.2
      have h2 := hown'.2.2.2
      omega
    have hb : owns a.offset (.append y (.write b t) : Thread T) = 1 := owns_one (by rw [inHand,ho])
    rcases run_has h h' (.inl ⟨_,hw,owns_one rfl⟩) with ⟨l,hl,hl'⟩ | hp
    · exact hi'.sole_owner hl hw' hl' hb
    · rw [hi'.unpublished (List.mem_of_getElem? hw') hb] at hp
      cases hp

theorem walking (h : (program T).Reach always (start (newBoundedLog limit)) w)
    (hi : w.threads[i]? = some (.append x pc)) (hpos : 0 < walk w.shared pc) : Walking w i x pc := by
  obtain ⟨hinv,hway⟩ := reach_onWay h
  obtain ⟨xs,ys,hts,rfl,-⟩ := set_split hi
  obtain ⟨s,ts⟩ := w
  simp only at hts
  subst hts
  have hmem : (.append x pc : Thread T) ∈ xs ++ .append x pc :: ys := by simp
  refine ⟨?_,fun w' hn => ?_,fun e w' he hn => ?_⟩
  · obtain ⟨r,hr⟩ := Option.isSome_iff_exists.mp (walk_moves s x hpos)
    have hstep : (program T).step s (.append x pc) () = some (r.1,.append x r.2,[]) := by
      simp [program,step,hr]
    rw [Program.next_of_step hstep]
    rfl
  · obtain ⟨s',l',new,hs,rfl⟩ := Program.next_act hn
    have hs : step s (.append x pc) () = some (s',l',new) := hs
    obtain ⟨ha,rfl⟩ := step_act hs
    cases ha with
    | @append _ _ pc' _ ha =>
      obtain ⟨h1,h2⟩ := walk_step (hinv.append x pc hmem) (hway _ hmem) hpos ha
      exact ⟨pc',getElem?_split xs _ _,h1,h2⟩
  · refine ⟨?_,walk_mono (next_grows h hn) pc⟩
    rcases call_or_act hn with ⟨l,rfl,-⟩ | ⟨s₁,xs₁,l,ys₁,s',l',heq,rfl,ha,rfl⟩
    · exact (List.getElem?_append_left (by simp)).trans hi
    · obtain ⟨-,heq⟩ := World.mk.inj heq
      have hne : xs.length ≠ xs₁.length := fun hlen => he (by rw [hlen])
      have hother := (@getElem?_other _ xs₁ ys₁ [] l l' _ _ hne (heq ▸ hi)).1
      rwa [List.append_nil] at hother

theorem arrived_or_walks (s : Log T) (ho : inHand pc = some o) :
    (∃ a t, a.offset = o ∧ (pc = .write a t ∨ pc = .publish a t)) ∨ 0 < walk s pc := by
  cases pc with
  | write a t => exact .inl ⟨a,t,Option.some.inj ho,.inl rfl⟩
  | publish a t => exact .inl ⟨a,t,Option.some.inj ho,.inr rfl⟩
  | next a t k =>
    right
    rw [walk]
    split <;> omega
  | link | grow | advance => exact .inr (Nat.succ_pos _)
  | _ => cases ho

theorem appends_write_own_slots (h : (program T).Reach always (start (newBoundedLog limit)) w) :
    Slots w.shared w.threads ∧ (∀ w', (program T).Reach always w w' → Later w w') ∧
    ∀ i x pc o, w.threads[i]? = some (.append x pc) → inHand pc = some o →
      (∃ a t, a.offset = o ∧ (pc = .write a t ∨ pc = .publish a t)) ∨ Walking w i x pc := by
  refine ⟨(reach_onWay h).1.slots,fun w' h' => later h h',fun i x pc o hi ho => ?_⟩
  exact (arrived_or_walks w.shared ho).imp_right fun hpos => walking h hi hpos

-- A consumer is open, 7 has claimed offset 0 and 8 is on its way along the chain.
def appendRun : List (Event (Thread ℕ) Unit) :=
  .call (.newCursor (.lock true)) :: (List.replicate 6 (.act 0 ()) : Events (Thread ℕ) Unit) ++
  .call (.append 7 .loadLimit) :: (List.replicate 6 (.act 1 ()) : Events (Thread ℕ) Unit) ++
  .call (.append 8 .loadLimit) :: (List.replicate 5 (.act 2 ()) : Events (Thread ℕ) Unit)

theorem appends_write_own_slots_appending :
    ∃ w, (program ℕ).Reach always (start newLog) w ∧
      (w.shared.head = 2 ∧ w.shared.chunks.length = 1 ∧ w.shared.published 0 = false) ∧
      Slots w.shared w.threads ∧ (∀ w', (program ℕ).Reach always w w' → Later w w') ∧
      ∀ i x pc o, w.threads[i]? = some (.append x pc) → inHand pc = some o →
        (∃ a t, a.offset = o ∧ (pc = .write a t ∨ pc = .publish a t)) ∨ Walking w i x pc := by
  obtain ⟨w,hr,hp⟩ := Program.exists_reach_of_run (program ℕ) always (start newLog) appendRun
    (fun w => w.shared.head = 2 && w.shared.chunks.length = 1 && w.shared.published 0 = false)
    (by decide +kernel)
  simp only [Bool.and_eq_true,decide_eq_true_eq] at hp
  exact ⟨w,hr,⟨hp.1.1,hp.1.2,hp.2⟩,appends_write_own_slots hr⟩

end Varmq.Topics
