import Varmq.InMemory.Locks

namespace Varmq.InMemory

open Interleaving Topics Queues

variable {T : Type} {s : Queue T} {idOf : T → Option String} {hash : String → Fin idShards}
  {t : Thread T} {ts : List (Thread T)} {i : Fin idShards}

def finished : Thread T → Bool
  | .enqueue _ (.returned _) | .enqueueOnce _ _ (.returned _) | .dequeue (.returned _)
  | .values (.returned _) | .purgeValues (.returned _) | .close true | .setPaused _ true => true
  | _ => false

-- The slot a reader looks at is not published yet, or its chunk is not linked.
def missing (log : Log T) (t i : ℕ) : Bool :=
  if (log.chunk t).data.length ≤ i then (log.chunk t).next.isNone
  else !(log.chunk t).ready.getD i false

-- The waits of a reader: for the slot of an offset that is claimed.
def spins (log : Log T) : CursorPc T → Bool
  | .look | .claimed =>
      (log.cursor 0).offset < log.head &&
        (log.cursor 0).chunk.all fun t => missing log t (log.cursor 0).idx
  | .each _ e => e.off < e.stop && missing log e.chunk e.idx
  | _ => false

def waits (s : Queue T) : Thread T → Bool
  | .dequeue (.cursor pc) | .values pc | .purgeValues (.cursor pc) => spins s.log pc
  | _ => false

def blocked (idOf : T → Option String) (hash : String → Fin idShards) (s : Queue T) (t : Thread T) :
    Bool := (step idOf hash s t ()).isNone || waits s t

-- Whoever waits, waits for a goroutine of lower rank.
def appendRank : AppendPc → ℕ
  | .lock => 1
  | _ => 0

def cursorRank : CursorPc T → ℕ
  | .lock _ => 3
  | _ => 2

def rank : Thread T → ℕ
  | .enqueue _ pc | .enqueueOnce _ _ (.append pc) => appendRank pc
  | .dequeue (.cursor pc) | .values pc | .purgeValues (.cursor pc) => cursorRank pc
  | .purgeValues (.lock i) => 4 + (idShards - i)
  | .enqueueOnce _ _ .lock | .dequeue (.lock _ _) => 5 + idShards
  | _ => 0

theorem appendRank_le (pc : AppendPc) : appendRank pc ≤ 1 := by
  cases pc <;> simp [appendRank]

theorem cursorRank_le (pc : CursorPc T) : cursorRank pc ≤ 3 := by
  cases pc <;> simp [cursorRank]

theorem cursorRank_pos (pc : CursorPc T) : 0 < cursorRank pc := by
  cases pc <;> simp [cursorRank]

theorem cursorRank_inside {pc : CursorPc T} (h : pc.inside = true) : cursorRank pc < 3 := by
  cases pc <;> first | exact Nat.lt_succ_self 2 | cases h

theorem exists_of_one {p : Thread T → Bool} {b : Bool}
    (h : one b = total (fun t => one (p t)) ts) (hb : b = true) : ∃ u ∈ ts, p u = true := by
  obtain ⟨u,hu,hone⟩ := exists_of_total (f := fun t => one (p t)) (by rw [← h,hb]; exact Nat.one_pos)
  refine ⟨u,hu,?_⟩
  by_contra hp
  simp [one,hp] at hone

theorem total_map {L M : Type} (f : M → ℕ) (g : L → M) (ts : List L) :
    total f (ts.map g) = total (fun t => f (g t)) ts := by
  induction ts with
  | nil => rfl
  | cons t ts ih => simp [ih]

theorem proj_append {x : T} {pc : AppendPc} (hp : proj t = .append x pc) :
    rank t = appendRank pc ∧ ((∀ n, pc ≠ .returned n) → finished t = false) := by
  unfold proj at hp
  split at hp <;> cases hp
  · exact ⟨rfl,fun hn => by cases pc <;> first | rfl | exact absurd rfl (hn _)⟩
  · exact ⟨rfl,fun _ => rfl⟩

theorem proj_cursor {c : ℕ} {pc : CursorPc T} (hp : proj t = .cursor c pc) :
    c = 0 ∧ rank t = cursorRank pc ∧ ((∀ r, pc ≠ .returned r) → finished t = false) := by
  unfold proj at hp
  split at hp <;> cases hp
  · exact ⟨rfl,rfl,fun _ => rfl⟩
  · exact ⟨rfl,rfl,fun hn => by cases pc <;> first | rfl | exact absurd rfl (hn _)⟩
  · exact ⟨rfl,rfl,fun _ => rfl⟩

theorem append_some {log : Log T} {x : T} {pc : AppendPc} (hk : KnowsAppend log x pc)
    (hl : pc = .lock → log.mx = false) (hr : ∀ n, pc ≠ .returned n) :
    (appendStep log x pc).isSome = true := by
  cases pc with
  | lock => simp [appendStep,hl rfl]
  | full rest m => cases rest <;> rfl
  | loadTail b n =>
    obtain ⟨t,ht⟩ := Option.isSome_iff_exists.mp hk.2
    simp [appendStep,ht]
  | next a t k =>
    simp only [appendStep]
    split
    · rfl
    · split <;> rfl
  | link a t k =>
    simp only [appendStep]
    split
    · rfl
    · split <;> rfl
  | returned n => exact absurd rfl (hr n)
  | _ => rfl

theorem Placed.some {log : Log T} {cur : Cursor T} {o : ℕ} (h : Placed log cur o) :
    ∃ t, cur.chunk = some t := by
  obtain ⟨t,ht,-,-⟩ := h
  exact ⟨t,ht⟩

theorem cursor_some {log : Log T} {op : Op} {pc : CursorPc T} (hk : KnowsCursor log (log.cursor 0) pc)
    (hw : within op pc = true) (hl : ∀ op, pc = .lock op → (log.cursor 0).mx = false) (hr : ∀ r, pc ≠ .returned r) :
    (cursorStep log 0 pc).isSome = true := by
  cases pc with
  | lock op' =>
    simp only [cursorStep,hl op' rfl,Bool.false_eq_true,if_false]
    split <;> rfl
  | look =>
    obtain ⟨t,ht⟩ := Placed.some hk.1
    simp only [cursorStep,ht]
    split
    · split <;> rfl
    · rfl
  | take =>
    obtain ⟨t,ht⟩ := Placed.some hk.1.1
    simp [cursorStep,ht]
  | loadEnd b =>
    obtain ⟨t,ht⟩ := Placed.some hk.1.1
    simp [cursorStep,ht]
  | each b e =>
    simp only [cursorStep]
    split
    · split <;> rfl
    · split
      · split <;> rfl
      · rfl
  | visit b e => cases b <;> rfl
  | seekTail | lockLog => cases hw
  | returned r => exact absurd rfl (hr r)
  | _ => rfl

theorem unpublished_beyond {log : Log T} {o : ℕ} (h : log.chunks.length ≤ o / chunkCapacity) :
    log.published o = false := by
  rw [Log.published,chunk_beyond log h,newChunk,List.getD_eq_getElem?_getD]
  cases hr : (List.replicate chunkCapacity false)[o % chunkCapacity]? with
  | none => rfl
  | some v => exact List.eq_of_mem_replicate (List.mem_of_getElem? hr)

theorem unpublished_missing {log : Log T} {t i o : ℕ} (h : Chain log) (ht : t < log.chunks.length)
    (ho : chunkCapacity * t + i = o) (hm : missing log t i = true) : log.published o = false := by
  have hlen := (h.made t ht).2.1
  simp only [missing,hlen] at hm
  split at hm
  · have hlast := h.last ht (Option.isNone_iff_eq_none.mp hm)
    refine unpublished_beyond ?_
    rw [← hlast,Nat.le_div_iff_mul_le capacity_pos,← ho,Nat.add_mul,Nat.one_mul,Nat.mul_comm t]
    omega
  · rename_i hi
    rw [published_at log (Nat.lt_of_not_le hi) ho.symm] at hm
    simpa using hm

-- The goroutine that has claimed an offset and not published it.
theorem Held.writer (h : Held hash s ts) {o : ℕ} (ho : o < s.log.head)
    (hp : s.log.published o = false) : ∃ u ∈ ts, finished u = false ∧ rank u = 0 := by
  have h1 := h.log.owned o
  rw [pub,hp,claimedAt,if_pos ho,total_map] at h1
  have hne : ¬∀ u ∈ ts, owns o (proj u) = 0 := fun hz => by
    rw [total_eq_zero.mpr hz] at h1
    cases h1
  push Not at hne
  obtain ⟨u,hu,hown⟩ := hne
  cases hpu : proj u with
  | append x pc =>
    obtain ⟨hr,hf⟩ := proj_append hpu
    rw [hpu] at hown
    refine ⟨u,hu,hf fun n hn => ?_,?_⟩
    · rw [hn] at hown
      exact hown rfl
    · rw [hr]
      cases pc <;> first | rfl | exact absurd rfl hown
  | newCursor pc | cursor c pc | close done =>
    rw [hpu] at hown
    exact absurd rfl hown

theorem Held.mutator (h : Held hash s ts) (hm : s.log.mx = true) :
    ∃ u ∈ ts, finished u = false ∧ rank u = 0 := by
  have h1 := h.log.log
  rw [total_map] at h1
  obtain ⟨u,hu,hh⟩ := exists_of_one h1 hm
  cases hpu : proj u with
  | append x pc =>
    obtain ⟨hr,hf⟩ := proj_append hpu
    rw [hpu] at hh
    refine ⟨u,hu,hf fun n hn => ?_,?_⟩
    · rw [hn] at hh
      cases hh
    · rw [hr]
      cases pc <;> first | rfl | cases hh
  | cursor c pc =>
    have hc := proj_closes (h.runs u hu) hpu
    rw [hpu] at hh
    revert hh hc
    cases pc <;> simp [holdsLog,CursorPc.locked,Fanout.closes]
  | newCursor pc =>
    unfold proj at hpu
    split at hpu <;> cases hpu
  | close done =>
    rw [hpu] at hh
    cases hh

theorem Held.reader (h : Held hash s ts) (hm : (s.log.cursor 0).mx = true) :
    ∃ u ∈ ts, finished u = false ∧ rank u < 3 := by
  have h1 := h.log.cursor 0 h.cursor
  rw [total_map] at h1
  obtain ⟨u,hu,hh⟩ := exists_of_one h1 hm
  cases hpu : proj u with
  | cursor c pc =>
    obtain ⟨-,hr,hf⟩ := proj_cursor hpu
    rw [hpu] at hh
    have hin : pc.inside = true := by
      simp only [holds,Bool.and_eq_true] at hh
      exact hh.2
    refine ⟨u,hu,hf fun r hp => ?_,?_⟩
    · rw [hp] at hin
      cases hin
    · rw [hr]
      exact cursorRank_inside hin
  | append x pc | newCursor pc | close done =>
    rw [hpu] at hh
    cases hh

theorem holder_rank (hh : holdsShard hash i t = true) :
    finished t = false ∧ rank t < 4 + (idShards - i) := by
  have hi := i.isLt
  unfold holdsShard at hh
  split at hh
  · exact ⟨rfl,by simp only [rank]; omega⟩
  · rename_i x id pc
    have := appendRank_le pc
    exact ⟨rfl,by simp only [rank]; omega⟩
  · exact ⟨rfl,by simp only [rank]; omega⟩
  · exact ⟨rfl,by simp only [rank]; omega⟩
  · exact ⟨rfl,by simp only [rank]; omega⟩
  · exact ⟨rfl,by simp only [rank]; omega⟩
  · rename_i j
    have hj := of_decide_eq_true hh
    exact ⟨rfl,by simp only [rank]; omega⟩
  · rename_i pc
    have := cursorRank_le pc
    exact ⟨rfl,by simp only [rank]; omega⟩
  · exact ⟨rfl,by simp only [rank]; omega⟩
  · exact ⟨rfl,by simp only [rank]; omega⟩
  · cases hh

theorem Held.sharer (h : Held hash s ts) (hm : (s.shard i).mu = true) :
    ∃ u ∈ ts, finished u = false ∧ rank u < 4 + (idShards - i) := by
  obtain ⟨u,hu,hh⟩ := exists_of_one (h.shards i) hm
  exact ⟨u,hu,holder_rank hh⟩

theorem lock_isSome (hi : s.ids.isSome = true) (hm : (s.shard i).mu = false) :
    (s.lock i).isSome = true := by
  have hn : s.ids.isNone = false := by
    cases h : s.ids
    · rw [h] at hi
      cases hi
    · rfl
  simp [Queue.lock,hn,hm]

theorem Held.append_waits (h : Held hash s ts) {x : T} {pc : AppendPc} (ht : t ∈ ts)
    (hp : proj t = .append x pc) (hn : (appendStep s.log x pc).isNone = true)
    (hr : ∀ n, pc ≠ .returned n) : ∃ u ∈ ts, finished u = false ∧ rank u < rank t := by
  have hk := h.log.append x pc (by rw [← hp]; exact List.mem_map_of_mem ht)
  have hlock : pc = .lock ∧ s.log.mx = true := by
    by_contra hc
    have hs := append_some hk (fun he => by simpa [he] using hc) hr
    cases ha : appendStep s.log x pc
    · rw [ha] at hs
      cases hs
    · rw [ha] at hn
      cases hn
  obtain ⟨u,hu,hf,h0⟩ := h.mutator hlock.2
  refine ⟨u,hu,hf,?_⟩
  rw [(proj_append hp).1,hlock.1,h0]
  exact Nat.one_pos

theorem Held.cursor_waits (h : Held hash s ts) {op : Op} {pc : CursorPc T} (ht : t ∈ ts)
    (hp : proj t = .cursor 0 pc) (hw : within op pc = true)
    (hb : (cursorStep s.log 0 pc).isNone = true ∨ spins s.log pc = true)
    (hr : ∀ r, pc ≠ .returned r) : ∃ u ∈ ts, finished u = false ∧ rank u < rank t := by
  obtain ⟨-,hk⟩ := h.log.reader 0 pc (by rw [← hp]; exact List.mem_map_of_mem ht)
  have hrank := (proj_cursor hp).2.1
  rcases hb with hn | hspin
  · have hlock : ∃ op', pc = .lock op' ∧ (s.log.cursor 0).mx = true := by
      by_contra hc
      have hs := cursor_some hk hw (fun op' he => by
        by_contra hmx
        exact hc ⟨op',he,by simpa using hmx⟩) hr
      cases ha : cursorStep s.log 0 pc
      · rw [ha] at hs
        cases hs
      · rw [ha] at hn
        cases hn
    obtain ⟨op',rfl,hmx⟩ := hlock
    obtain ⟨u,hu,hf,hlt⟩ := h.reader hmx
    exact ⟨u,hu,hf,by rw [hrank]; exact hlt⟩
  · have hslot : ∃ o, o < s.log.head ∧ s.log.published o = false := by
      have front : At s.log (s.log.cursor 0) →
          ((s.log.cursor 0).offset < s.log.head &&
            (s.log.cursor 0).chunk.all fun t => missing s.log t (s.log.cursor 0).idx) = true →
          ∃ o, o < s.log.head ∧ s.log.published o = false := by
        intro hat hs
        obtain ⟨⟨t,hch,hlt,ho⟩,-⟩ := hat
        simp only [hch,Option.all_some,Bool.and_eq_true,decide_eq_true_eq] at hs
        exact ⟨_,hs.1,unpublished_missing h.log.chain hlt ho hs.2⟩
      cases pc with
      | look => exact front hk hspin
      | claimed => exact front hk hspin
      | each b e =>
        simp only [spins,Bool.and_eq_true,decide_eq_true_eq] at hspin
        exact ⟨e.off,Nat.lt_of_lt_of_le hspin.1 hk.head,
          unpublished_missing h.log.chain hk.chunk hk.off hspin.2⟩
      | _ => cases hspin
    obtain ⟨o,ho,hpub⟩ := hslot
    obtain ⟨u,hu,hf,h0⟩ := h.writer ho hpub
    refine ⟨u,hu,hf,?_⟩
    rw [hrank,h0]
    exact cursorRank_pos pc

theorem map_isNone {A B : Type} {f : A → B} {o : Option A} (h : (o.map f).isNone = true) :
    o.isNone = true := by
  rwa [Option.isNone_map] at h

theorem Held.lock_waits (h : Held hash s ts) (hi : s.ids.isSome = true)
    (hn : (s.lock i).isNone = true) :
    ∃ u ∈ ts, finished u = false ∧ rank u < 4 + (idShards - i) := by
  refine h.sharer ?_
  by_contra hm
  have hs := lock_isSome hi (by simpa using hm)
  cases hl : s.lock i
  · rw [hl] at hs
    cases hs
  · rw [hl] at hn
    cases hn

theorem onceStep_append {x : T} {id : String} {pc : AppendPc} (h : ∀ n, pc ≠ .returned n) :
    onceStep hash s x id (.append pc) =
      (appendStep s.log x pc).map fun (log,pc') => ({ s with log },.append pc') := by
  cases pc <;> first | rfl | exact absurd rfl (h _)

theorem dequeueStep_cursor {pc : CursorPc T} (h : ∀ r, pc ≠ .returned r) :
    dequeueStep idOf hash s (.cursor pc) =
      (cursorStep s.log 0 pc).map fun (log,pc') => ({ s with log },.cursor pc') := by
  cases pc <;> first | rfl | exact absurd rfl (h _)

theorem purgeStep_cursor {pc : CursorPc T} (h : ∀ r, pc ≠ .returned r) :
    purgeStep s (.cursor pc) =
      (cursorStep s.log 0 pc).map fun (log,pc') => ({ s with log },.cursor pc') := by
  cases pc <;> first | rfl | exact absurd rfl (h _)

-- A blocked call waits for one of lower rank.
theorem Held.waits_lower (h : Held hash s ts) (ht : t ∈ ts) (hf : finished t = false)
    (hb : blocked idOf hash s t = true) : ∃ u ∈ ts, finished u = false ∧ rank u < rank t := by
  have hrun := h.runs t ht
  have hids := h.ids t ht
  simp only [blocked,Bool.or_eq_true] at hb
  cases t with
  | enqueue x pc =>
    refine h.append_waits ht rfl ?_ fun n hn => ?_
    · rcases hb with hb | hb
      · exact map_isNone hb
      · cases hb
    · rw [hn] at hf
      cases hf
  | enqueueOnce x id pc =>
    have hb : (onceStep hash s x id pc).isNone = true := by
      rcases hb with hb | hb
      · exact map_isNone hb
      · cases hb
    cases pc with
    | lock =>
      obtain ⟨u,hu,hfu,hlt⟩ := h.lock_waits (hids rfl) (map_isNone hb)
      refine ⟨u,hu,hfu,?_⟩
      change rank u < 5 + idShards
      omega
    | append pc =>
      have hret : ∀ n, pc ≠ .returned n := by
        rintro n rfl
        cases hb
      rw [onceStep_append hret] at hb
      exact h.append_waits ht rfl (map_isNone hb) hret
    | returned r => cases hf
    | _ => cases hb
  | dequeue pc =>
    cases pc with
    | lock v id =>
      have hb : (dequeueStep idOf hash s (.lock v id)).isNone = true := by
        rcases hb with hb | hb
        · exact map_isNone hb
        · cases hb
      obtain ⟨u,hu,hfu,hlt⟩ := h.lock_waits (hids rfl) (map_isNone hb)
      refine ⟨u,hu,hfu,?_⟩
      change rank u < 5 + idShards
      omega
    | cursor pc =>
      have hret : ∀ r, pc ≠ .returned r := by
        rintro r rfl
        rcases hb with hb | hb
        · cases r <;> cases hb
        · cases hb
      refine h.cursor_waits ht rfl hrun (hb.imp_left fun hb => ?_) hret
      have hb := map_isNone hb
      rw [dequeueStep_cursor hret] at hb
      exact map_isNone hb
    | returned v => cases hf
    | refuse | loadOn v | remove v id | unlock v id =>
      rcases hb with hb | hb <;> cases hb
  | values pc =>
    refine h.cursor_waits ht rfl hrun (hb.imp_left fun hb => map_isNone hb) fun r hr => ?_
    rw [hr] at hf
    cases hf
  | purgeValues pc =>
    cases pc with
    | lock i =>
      have hb : (purgeStep s (.lock i)).isNone = true := by
        rcases hb with hb | hb
        · exact map_isNone hb
        · cases hb
      simp only [purgeStep] at hb
      split at hb
      · exact h.lock_waits (hids rfl) (map_isNone hb)
      · cases hb
    | cursor pc =>
      have hret : ∀ r, pc ≠ .returned r := by
        rintro r rfl
        rcases hb with hb | hb <;> cases hb
      refine h.cursor_waits ht rfl hrun (hb.imp_left fun hb => ?_) hret
      have hb := map_isNone hb
      rw [purgeStep_cursor hret] at hb
      exact map_isNone hb
    | returned vals => cases hf
    | idSet pc | reset i vals | unlock i vals =>
      rcases hb with hb | hb <;> cases hb
  | close done =>
    cases done
    · rcases hb with hb | hb <;> cases hb
    · cases hf
  | setPaused on done =>
    cases done
    · rcases hb with hb | hb <;> cases hb
    · cases hf

theorem never_deadlocked {capacity : ℕ} {w : World (Queue T) (Thread T)}
    (h : (program idOf hash).Reach always (start capacity) w) :
    ¬((∃ t ∈ w.threads, finished t = false) ∧
      ∀ t ∈ w.threads, finished t = false → blocked idOf hash w.shared t = true) := by
  rintro ⟨⟨t,ht,hf⟩,hall⟩
  have held := held_reach h
  obtain ⟨u,hu,hfu,hb⟩ := @exists_unblocked _ (fun t => finished t = false)
    (fun t => blocked idOf hash w.shared t = true) _ rank
    (fun t ht hf hb => held.waits_lower ht hf hb) t ht hf
  exact hb (hall u hu hfu)

-- An EnqueueOnce has claimed a slot under its shard's lock; PurgeValues waits for that lock and a
-- Dequeue for that slot.
def parkedRun : List (Event (Thread ℕ) Unit) :=
  .call (.enqueueOnce 7 "a" (.idSet .load)) ::
    (List.replicate 12 (.act 0 ()) : Events (Thread ℕ) Unit) ++
  .call (.purgeValues (.idSet .load)) :: (List.replicate 1 (.act 1 ()) : Events (Thread ℕ) Unit) ++
  .call (.dequeue .refuse) :: (List.replicate 4 (.act 2 ()) : Events (Thread ℕ) Unit)

def idOfTest (_ : ℕ) : Option String := some "a"

def hashTest (_ : String) : Fin idShards := 0

theorem never_deadlocked_parked :
    ∃ w, (program idOfTest hashTest).Reach always (start 0) w ∧
      (∀ i < 3, (w.threads[i]?).any (fun t => blocked idOfTest hashTest w.shared t) = decide (0 < i)) ∧
      ¬((∃ t ∈ w.threads, finished t = false) ∧
        ∀ t ∈ w.threads, finished t = false → blocked idOfTest hashTest w.shared t = true) := by
  obtain ⟨w,hr,hp⟩ := Program.exists_reach_of_run (program idOfTest hashTest) always (start 0)
    parkedRun
    (fun w => decide (∀ i < 3,
      (w.threads[i]?).any (fun t => blocked idOfTest hashTest w.shared t) = decide (0 < i)))
    (by decide +kernel)
  exact ⟨w,hr,of_decide_eq_true hp,never_deadlocked hr⟩

end Varmq.InMemory
