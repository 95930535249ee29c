import Varmq.Stats.Sweep

namespace Varmq.Stats

open Interleaving Topics

variable {s s' : Shared} {l l' t : Thread} {new xs ys ts : List Thread} {j : Job} {c : Choice}
  {e i v : ℕ} {st : Park.Stamp} {wk : Worker}

-- What a goroutine holds, but for the job it has checked the counter for.
def barred : Thread → List Job
  | .batch _ _ (.halting _ _ jobs _) => jobs
  | .batch _ _ (.start _ _ jobs _) => jobs
  | .batch _ _ (.work _ _ jobs _) => jobs
  | t => hand t

def spent (e : ℕ) (st : Park.Stamp) : Prop := st.gen = some 0 ∧ st.epoch < e

def Bars (e : ℕ) (j : Job) (t : Thread) : Prop :=
  j ∈ barred t ∧ ((∃ pc, t = .purge pc) ∨ ∃ st, stampOf t = some st ∧ spent e st)

inductive Doomed (e : ℕ) (j : Job) (s : Shared) (ts : List Thread) : Prop
  | parked {v : ℕ} {wk : Worker} {b : Park.ParkedBatch Job} (hv : s.workers[v]? = some wk)
      (hb : b ∈ wk.parked.batches) (hj : j ∈ b.jobs) (hst : spent e b.stamp)
  | held {t : Thread} (ht : t ∈ ts) (hb : Bars e j t)
  | dropped (hj : j ∈ s.dropped) (hst : s.status j.id = .closed)

theorem barred_hand (h : j ∈ barred t) : j ∈ hand t := by
  unfold barred at h
  split at h <;> first | exact List.mem_cons_of_mem _ h | exact h

theorem barred_idle (h : j ∈ barred t) (hn : (hand t).count j ≤ 1) : runs t ≠ [j] := by
  intro hr
  cases t with
  | batch w st pc =>
    cases pc with
    | work i a js r =>
      cases hr
      have hjs : j ∈ js := h
      have hpos := List.count_pos_iff.mpr hjs
      simp only [hand,List.count_cons_self] at hn
      omega
    | _ => cases hr
  | _ => cases hr

theorem mem_parkedJobs {b : Park.ParkedBatch Job} (hv : s.workers[v]? = some wk)
    (hb : b ∈ wk.parked.batches) (hj : j ∈ b.jobs) : j ∈ s.parkedJobs :=
  List.mem_flatMap.mpr ⟨wk,List.mem_of_getElem? hv,List.mem_flatMap.mpr ⟨b,hb,hj⟩⟩

theorem placed_unrun (h : Books s ts) (hj : j ∈ s.parkedJobs ∨ j ∈ s.dropped) :
    j ∈ s.accepted ∧ j ∉ s.ran ∧ ∀ t ∈ ts, runs t ≠ [j] := by
  have honce := h.once j
  have hpos : 0 < s.parkedJobs.count j + s.dropped.count j := by
    rcases hj with hj | hj <;> have := List.count_pos_iff.mpr hj <;> omega
  refine ⟨h.placed_accepted hj,fun hran => ?_,fun t ht hr => ?_⟩
  · have := List.count_pos_iff.mpr hran
    omega
  · have := List.count_pos_iff.mpr (runs_hand hr)
    have := @le_total _ (fun t => (hand t).count j) ts t ht
    omega

theorem barred_unrun (h : Books s ts) (hu : t ∈ ts) (hj : j ∈ barred t) :
    j ∈ s.accepted ∧ j ∉ s.ran ∧ ∀ t ∈ ts, runs t ≠ [j] := by
  refine ⟨h.hand_accepted hu (barred_hand hj),h.hand_unrun hu (barred_hand hj),fun u ht hr => ?_⟩
  have honce := h.once j
  have hpos := List.count_pos_iff.mpr (barred_hand hj)
  by_cases he : u = t
  · subst he
    have := @le_total _ (fun t => (hand t).count j) ts u ht
    exact barred_idle hj (by omega) hr
  · have := List.count_pos_iff.mpr (runs_hand hr)
    have := @add_le_total _ (fun t => (hand t).count j) ts u t ht hu he
    omega

namespace Doomed

theorem unrun (h : Doomed e j s ts) (hb : Books s ts) :
    j ∈ s.accepted ∧ j ∉ s.ran ∧ ∀ t ∈ ts, runs t ≠ [j] := by
  cases h with
  | parked hv hbp hj hst => exact placed_unrun hb (.inl (mem_parkedJobs hv hbp hj))
  | held hu hbars => exact barred_unrun hb hu hbars.1
  | dropped hj hst => exact placed_unrun hb (.inr hj)

end Doomed

-- A batch that is behind the counter closes what it still has, or parks nothing of it.
theorem batch_bars {w : ℕ} {pc pc' : BatchPc} (hst : spent e st) (he : e ≤ s.gen)
    (h : batchStep s w st pc c = some (s',pc')) (hj : j ∈ barred (.batch w st pc)) :
    j ∈ barred (.batch w st pc') ∨ j ∈ skips (.batch w st pc) ∧ j ∈ s'.dropped := by
  obtain ⟨hg,hlt⟩ := hst
  have hstale : st.stale s.gens = true := (stale_iff hg).mpr (by omega)
  cases pc with
  | stale i jobs r =>
    cases jobs with
    | nil => cases hj
    | cons a js =>
      simp only [batchStep,hstale,if_true] at h
      cases h
      exact .inl hj
  | halting i a js r =>
    simp only [batchStep] at h
    split at h
    · cases h
    · split at h
      · cases h
        exact .inl (List.mem_cons_of_mem a hj)
      · cases h
        exact .inl hj
  | start i a js r =>
    simp only [batchStep] at h
    split at h
    · cases h
      exact .inl hj
    · cases h
      exact .inl (List.mem_cons_of_mem a hj)
  | work i a js r => cases c <;> cases h <;> exact .inl hj
  | purged i a js r | finish i a js r | close i a js r | count i a js r =>
    cases h
    exact .inl hj
  | skip i a js r =>
    cases h
    rcases List.mem_cons.mp hj with rfl | hj
    · exact .inr ⟨List.mem_singleton_self j,List.mem_append_right _ (List.mem_singleton_self j)⟩
    · exact .inl hj
  | park i jobs r =>
    have hstale' : Park.Stamp.stale s.gens { st with seq := st.seq + i } = true := hstale
    simp only [batchStep] at h
    split at h
    · cases h
    · split at h
      · cases h
      · rw [Park.park,if_pos hstale'] at h
        cases jobs with
        | nil => cases hj
        | cons a js =>
          cases h
          exact .inl hj
  | parkClose jobs r =>
    cases jobs with
    | nil => cases hj
    | cons a js =>
      cases h
      exact .inl hj
  | parkTaken a js r =>
    cases h
    rcases List.mem_cons.mp hj with rfl | hj
    · exact .inr ⟨List.mem_singleton_self j,List.mem_append_right _ (List.mem_singleton_self j)⟩
    · exact .inl hj
  | flush r => cases hj
  | returned => cases h

theorem purge_bars {pc pc' : PurgePc} (h : purgeStep s pc = some (s',pc')) (hj : j ∈ barred (.purge pc)) :
    j ∈ barred (.purge pc') ∨ j ∈ skips (.purge pc) ∧ j ∈ s'.dropped := by
  cases pc with
  | dropClose w jobs ws =>
    cases jobs with
    | nil => cases hj
    | cons a js =>
      cases h
      exact .inl hj
  | dropTaken w a js ws =>
    cases h
    rcases List.mem_cons.mp hj with rfl | hj
    · exact .inr ⟨List.mem_singleton_self j,List.mem_append_right _ (List.mem_singleton_self j)⟩
    · exact .inl hj
  | _ => cases hj

theorem bars_act (he : e ≤ s.gen) (hs : program.step s l c = some (s',l',new)) (hb : Bars e j l) :
    Bars e j l' ∨ (∃ t ∈ new, Bars e j t) ∨ j ∈ skips l ∧ j ∈ s'.dropped := by
  obtain ⟨hj,⟨pc,rfl⟩ | ⟨st,hst,hspent⟩⟩ := hb
  · obtain ⟨⟨u,pc'⟩,hu,hq⟩ := Option.map_eq_some_iff.mp hs
    cases hq
    exact (purge_bars hu hj).imp (fun h => ⟨h,.inl ⟨pc',rfl⟩⟩) .inr
  · cases l with
    | dispatch w pc =>
      cases pc with
      | send buf st' =>
        cases hst
        cases hs
        exact .inr (.inl ⟨_,List.mem_singleton_self _,hj,.inr ⟨st,rfl,hspent⟩⟩)
      | _ => cases hst
    | batch w st' pc =>
      cases hst
      obtain ⟨⟨u,pc'⟩,hu,hq⟩ := Option.map_eq_some_iff.mp hs
      cases hq
      exact (batch_bars hspent he hu hj).imp (fun h => ⟨h,.inr ⟨st,rfl,hspent⟩⟩) .inr
    | _ => cases hst

theorem parked_act {b : Park.ParkedBatch Job} (hs : program.step s l c = some (s',l',new))
    (hv : s.workers[v]? = some wk) (hb : b ∈ wk.parked.batches) (hj : j ∈ b.jobs)
    (hst : spent e b.stamp) :
    Bars e j l' ∨ ∃ wk b, s'.workers[v]? = some wk ∧ b ∈ wk.parked.batches ∧ j ∈ b.jobs ∧ spent e b.stamp := by
  obtain ⟨wk',hv',hr⟩ := (step_reparks hs).kept v wk hv
  have hkeep : ∀ {sole : Bool} {k : ℕ}, l = .dispatch v (.unpark sole k) →
      j ∈ (Park.unpark s.pauses wk.parked k).1 ∧ spent e (Park.unpark s.pauses wk.parked k).2.1 ∨
      ∃ c ∈ (Park.unpark s.pauses wk.parked k).2.2.batches, j ∈ c.jobs ∧ spent e c.stamp :=
    fun {_ k} _ => Park.unpark_keeps (Q := spent e) (fun _ _ h => h) hb hj hst k
  generalize wk.parked = p at hb hr hkeep
  generalize hp' : wk'.parked = p' at hr
  cases hr with
  | same => exact .inr ⟨wk',b,hv',hp' ▸ hb,hj,hst⟩
  | nothing hu =>
    have hcut := hkeep rfl
    rw [hu] at hcut
    rcases hcut with ⟨hjs,-⟩ | ⟨b',hb',hj',hst'⟩
    · cases hjs
    · exact .inr ⟨wk',b',hv',hp' ▸ hb',hj',hst'⟩
  | @unpark sole k jobs st p p' hu =>
    have hcut := hkeep rfl
    rw [hu] at hcut
    rcases hcut with ⟨hjs,hst'⟩ | ⟨b',hb',hj',hst'⟩
    · exact .inl ⟨hjs,.inr ⟨st,rfl,hst'⟩⟩
    · exact .inr ⟨wk',b',hv',hp' ▸ hb',hj',hst'⟩
  | @park st i jobs rest r l' p p' hstale hpark =>
    refine .inr ⟨wk',b,hv',hp' ▸ ?_,hj,hst⟩
    unfold Park.park at hpark
    split at hpark <;> cases hpark
    · exact hb
    · exact List.mem_append_left _ hb
  | drop =>
    have hmem : b ∈ p.batches.filter fun b => b.stamp.gen = some 0 :=
      List.mem_filter.mpr ⟨hb,by simp [hst.1]⟩
    exact .inl ⟨List.mem_flatMap.mpr ⟨b,hmem,hj⟩,.inl ⟨_,rfl⟩⟩

structure Condemned (e : ℕ) (j : Job) (s : Shared) (ts : List Thread) : Prop where
  sound : Sound s ts
  bumped : e ≤ s.gen
  doomed : Doomed e j s ts

theorem Condemned.act (h : Condemned e j s (xs ++ l :: ys))
    (hs : program.step s l c = some (s',l',new)) : Condemned e j s' (xs ++ l' :: (ys ++ new)) := by
  have hm := step_moved hs
  obtain ⟨hacc,hran,-⟩ := h.doomed.unrun h.sound.books
  refine ⟨h.sound.act hs,by rw [hm.gen]; exact h.bumped.trans (Nat.le_add_right _ _),?_⟩
  have hbars : Bars e j l' → Doomed e j s' (xs ++ l' :: (ys ++ new)) :=
    fun hb => .held (by simp) hb
  cases h.doomed with
  | parked hv hb hj hst =>
    rcases parked_act hs hv hb hj hst with hb | ⟨wk,b,hv,hb,hj,hst⟩
    · exact hbars hb
    · exact .parked hv hb hj hst
  | held ht hb =>
    rcases mem_split ht with ht | rfl
    · exact .held (mem_of_act ht) hb
    · rcases bars_act h.bumped hs hb with hb | ⟨t,ht,hb⟩ | ⟨hskip,hdrop⟩
      · exact hbars hb
      · exact .held (by simp [ht]) hb
      · exact .dropped hdrop (h.sound.stays_closed hs hacc hran (h.sound.shut _ (by simp) j hskip))
  | dropped hj hst =>
    obtain ⟨d,hd,-⟩ := hm.dropped
    refine .dropped ?_ (h.sound.stays_closed hs hacc hran hst)
    rw [hd]
    exact List.mem_append_left _ hj

theorem Condemned.call (h : Condemned e j s ts) (he : entry s l = true) :
    Condemned e j s (ts ++ [l]) := by
  refine ⟨h.sound.call he,h.bumped,?_⟩
  cases h.doomed with
  | parked hv hb hj hst => exact .parked hv hb hj hst
  | held ht hb => exact .held (List.mem_append_left _ ht) hb
  | dropped hj hst => exact .dropped hj hst

-- A parked job, or one in a batch that was sent and has not come to it.
def Taken (w : World Shared Thread) (j : Job) : Prop :=
  j ∈ w.shared.parkedJobs ∨
    ∃ t ∈ w.threads, ∃ st, stampOf t = some st ∧ st.gen ≠ none ∧ j ∈ barred t

theorem condemned_bump {w w₂ : World Shared Thread} (h : reached w)
    (hi : w.threads[i]? = some (.purge .bump)) (hn : program.next w (.act i c) = some w₂)
    (hj : Taken w j) : Condemned (w.shared.gen + 1) j w₂.shared w₂.threads := by
  have hsound := reached_sound h
  obtain ⟨hshared,hthreads⟩ := bump_next hi hn
  refine ⟨reached_sound (.tail h rfl hn),by rw [hshared],?_⟩
  rcases hj with hj | ⟨t,ht,st,hst,hg,hj⟩
  · obtain ⟨wk,hwk,hj⟩ := List.mem_flatMap.mp hj
    obtain ⟨b,hb,hj⟩ := List.mem_flatMap.mp hj
    obtain ⟨hgen,he⟩ := hsound.tagged.parks wk hwk b hb j hj
    obtain ⟨v,hv⟩ := List.getElem?_of_mem hwk
    refine .parked (by rw [hshared]; exact hv) hb hj ⟨hgen,Nat.lt_succ_of_le (he ?_)⟩
    rw [hgen]
    exact Option.some_ne_none 0
  · obtain ⟨hm,he⟩ := hsound.tagged.hands t ht st hst j (barred_hand hj)
    have hgen : st.gen = some 0 := hm.resolve_right fun hno => hg hno.1
    refine .held ?_ ⟨hj,.inr ⟨st,hst,hgen,Nat.lt_succ_of_le (he hg)⟩⟩
    obtain ⟨xs,ys,hts,-,hset⟩ := set_split hi
    rw [hthreads,hset]
    rw [hts] at ht
    refine mem_of_other ((mem_split ht).resolve_right ?_)
    rintro rfl
    cases hst

theorem purge_closes_taken {w w₂ w₃ : World Shared Thread} (h : reached w)
    (hi : w.threads[i]? = some (.purge .bump)) (hn : program.next w (.act i c) = some w₂)
    (hr : program.Reach always w₂ w₃) (hj : Taken w j) :
    j ∉ w₃.shared.ran ∧ (w₃.threads[i]? = some (.purge .returned) → (∀ t ∈ w₃.threads, j ∉ hand t) →
      w₃.shared.status j.id = .closed) := by
  have hend : Condemned (w.shared.gen + 1) j w₃.shared w₃.threads :=
    Program.reach_invariant (I := Condemned (w.shared.gen + 1) j) (condemned_bump h hi hn hj)
      (fun _ _ _ hi _ he => hi.call he) (fun _ _ _ _ _ _ _ _ hi _ hs => hi.act hs) hr
  refine ⟨(hend.doomed.unrun hend.sound.books).2.1,fun hp hno => ?_⟩
  cases hend.doomed with
  | @parked v wk b hv hb hj hst =>
    -- The walk has been to this worker, and nothing so old was parked since.
    have hsweep : Sweeping (w.shared.gen + 1) i w₃.shared w₃.threads :=
      Program.reach_invariant (I := Sweeping (w.shared.gen + 1) i) (sweeping_bump h hi hn)
        (fun _ _ _ hi _ he => hi.call he) (fun _ _ _ _ _ _ _ _ hi _ hs => hi.act hs) hr
    obtain ⟨pc,hpc,hswept⟩ := hsweep.swept
    cases hp.symm.trans hpc
    exact absurd hst.2 (Nat.not_lt.mpr (hswept v wk hv List.not_mem_nil b hb j hj))
  | held ht hb => exact absurd (barred_hand hb.1) (hno _ ht)
  | dropped hj hst => exact hst

-- The first job of the batch has been checked when the counter is bumped, the other two have not.
def oneChecked : List (Event Thread Choice) :=
  [.call (.bind false),.act 0 .go,.call (.add 7 2 .count),.act 1 .go,.act 1 .go,.act 1 .go,
    .act 1 .go,.act 1 .go,.act 1 .go,.act 1 .go,.act 1 .go,.act 1 .go,
    .call (.dispatch 0 .plan),.act 2 (.batch 3),.act 2 .go,.act 2 .go,.act 2 .go,.act 2 .go,
    .act 2 .go,.act 2 .go,.act 2 .go,.act 2 .go,.act 2 .go,.act 2 .go,.act 2 .go,
    .act 3 .go,.act 3 .go,.call (.purge .bump)]

def restClosed : List (Event Thread Choice) :=
  [.act 3 .go,.act 3 .go,.act 3 .go,.act 3 .go,.act 3 .go,.act 3 .go,.act 3 .go,.act 3 .go,
    .act 3 .go,.act 3 .go,.act 3 .go,
    .act 4 .go,.act 4 .go,.act 4 .go,.act 4 .go,.act 4 .go,.act 4 .go]

def returning : PurgePc → Bool
  | .returned => true
  | _ => false

theorem returning_returned {pc : PurgePc} (h : returning pc = true) : pc = .returned := by
  cases pc <;> first | rfl | cases h

def emptying : PurgePc → Bool
  | .values => true
  | _ => false

theorem emptying_values {pc : PurgePc} (h : emptying pc = true) : pc = .values := by
  cases pc <;> first | rfl | cases h

theorem purge_closes_taken_checked : ∃ w, reached w ∧ (⟨0,7⟩ : Job) ∈ w.shared.ran ∧
    (⟨2,7⟩ : Job) ∉ w.shared.ran ∧ w.shared.status 2 = .closed := by
  have hrun : ((program.run always init oneChecked).any fun w =>
      (purging 4 bumping w && w.threads.any fun t =>
        (stampOf t).any (fun st => st.gen.isSome) && decide (⟨2,7⟩ ∈ barred t)) &&
      (program.next w (.act 4 .go)).any fun w₂ => (program.run always w₂ restClosed).any fun w₃ =>
        purging 4 returning w₃ && ((w₃.threads.all fun t => decide (⟨2,7⟩ ∉ hand t)) &&
          decide (⟨0,7⟩ ∈ w₃.shared.ran))) = true := by decide
  obtain ⟨w,hw,hrun⟩ := (Option.any_eq_true _ _).mp hrun
  simp only [Bool.and_eq_true,List.any_eq_true,Option.any_eq_true] at hrun
  obtain ⟨⟨hi,t,ht,⟨st,hst,hg⟩,hj⟩,w₂,hw₂,w₃,hw₃,hp,hno,hran⟩ := hrun
  obtain ⟨pc,hi,hpc⟩ := purging_thread hi
  cases bumping_bump hpc
  obtain ⟨pc,hp,hd⟩ := purging_thread hp
  cases returning_returned hd
  have hreach := Program.reach_of_run hw
  have hclosed := purge_closes_taken hreach hi hw₂ (Program.reach_of_run hw₃)
    (.inr ⟨t,ht,st,hst,Option.isSome_iff_ne_none.mp hg,of_decide_eq_true hj⟩)
  refine ⟨w₃,Program.reach_trans (.tail hreach rfl hw₂) (Program.reach_of_run hw₃),
    of_decide_eq_true hran,hclosed.1,hclosed.2 hp fun t ht => ?_⟩
  exact of_decide_eq_true (List.all_eq_true.mp hno t ht)

-- The storage was emptied of j, and the Purge that did closes it.
structure Emptied (i : ℕ) (j : Job) (s : Shared) (ts : List Thread) : Prop where
  sound : Sound s ts
  dropped : j ∈ s.dropped
  shut : s.status j.id = .closed ∨ ∃ jobs, ts[i]? = some (.purge (.close jobs)) ∧ j ∈ jobs

theorem Emptied.act (h : Emptied i j s (xs ++ l :: ys))
    (hs : program.step s l c = some (s',l',new)) : Emptied i j s' (xs ++ l' :: (ys ++ new)) := by
  obtain ⟨hacc,hran,hidle⟩ := placed_unrun h.sound.books (.inr h.dropped)
  refine ⟨h.sound.act hs,?_,?_⟩
  · obtain ⟨d,hd,-⟩ := (step_moved hs).dropped
    rw [hd]
    exact List.mem_append_left _ h.dropped
  · rcases h.shut with hst | ⟨jobs,hi,hj⟩
    · exact .inl (h.sound.stays_closed hs hacc hran hst)
    · by_cases he : i = xs.length
      · subst he
        rw [getElem?_split] at hi
        cases hi
        cases jobs with
        | nil => cases hj
        | cons a js =>
          cases hs
          rcases List.mem_cons.mp hj with rfl | hj
          · exact .inl (close_shut (h.sound.idle hacc hran hidle))
          · exact .inr ⟨js,getElem?_split xs _ _,hj⟩
      · exact .inr ⟨jobs,(getElem?_other he hi).1,hj⟩

theorem Emptied.call (h : Emptied i j s ts) (he : entry s l = true) : Emptied i j s (ts ++ [l]) := by
  refine ⟨h.sound.call he,h.dropped,h.shut.imp_right ?_⟩
  rintro ⟨jobs,hi,hj⟩
  refine ⟨jobs,?_,hj⟩
  rw [List.getElem?_append_left (List.getElem?_eq_some_iff.mp hi).1,hi]

theorem purge_closes_stored {w w₂ w₃ : World Shared Thread} (h : reached w)
    (hi : w.threads[i]? = some (.purge .values)) (hn : program.next w (.act i c) = some w₂)
    (hr : program.Reach always w₂ w₃) (hj : j ∈ w.shared.queue) :
    j ∉ w₃.shared.ran ∧ (w₃.threads[i]? = some (.purge .returned) → w₃.shared.status j.id = .closed) := by
  have hstart : Emptied i j w₂.shared w₂.threads := by
    have hsound := reached_sound (.tail h rfl hn)
    simp only [Program.next,hi] at hn
    cases hn
    refine ⟨hsound,List.mem_append_right _ hj,.inr ⟨w.shared.queue,?_,hj⟩⟩
    rw [List.append_nil,List.getElem?_set_self (List.getElem?_eq_some_iff.mp hi).1]
  have hend : Emptied i j w₃.shared w₃.threads :=
    Program.reach_invariant (I := Emptied i j) hstart (fun _ _ _ hi _ he => hi.call he)
      (fun _ _ _ _ _ _ _ _ hi _ hs => hi.act hs) hr
  refine ⟨(placed_unrun hend.sound.books (.inr hend.dropped)).2.1,fun hp => ?_⟩
  rcases hend.shut with hst | ⟨jobs,hclose,-⟩
  · exact hst
  · cases hp.symm.trans hclose

-- A job is stored after the walk over the workers.
def storedMeanwhile : List (Event Thread Choice) :=
  [.call (.bind false),.act 0 .go,.call (.purge .bump),.act 1 .go,.act 1 .go,.act 1 .go,.act 1 .go,
    .act 1 .go,.call (.add 7 0 .count),.act 2 .go,.act 2 .go,.act 2 .go]

theorem purge_closes_stored_meanwhile : ∃ w, reached w ∧ (⟨0,7⟩ : Job) ∉ w.shared.ran ∧
    w.shared.status 0 = .closed := by
  have hrun : ((program.run always init storedMeanwhile).any fun w =>
      (purging 1 emptying w && decide (⟨0,7⟩ ∈ w.shared.queue)) &&
      (program.next w (.act 1 .go)).any fun w₂ =>
        (program.run always w₂ [.act 1 .go,.act 1 .go]).any fun w₃ => purging 1 returning w₃) = true := by
    decide
  obtain ⟨w,hw,hrun⟩ := (Option.any_eq_true _ _).mp hrun
  simp only [Bool.and_eq_true,Option.any_eq_true] at hrun
  obtain ⟨⟨hi,hj⟩,w₂,hw₂,w₃,hw₃,hp⟩ := hrun
  obtain ⟨pc,hi,hpc⟩ := purging_thread hi
  cases emptying_values hpc
  obtain ⟨pc,hp,hd⟩ := purging_thread hp
  cases returning_returned hd
  have hreach := Program.reach_of_run hw
  have hclosed := purge_closes_stored hreach hi hw₂ (Program.reach_of_run hw₃) (of_decide_eq_true hj)
  exact ⟨w₃,Program.reach_trans (.tail hreach rfl hw₂) (Program.reach_of_run hw₃),hclosed.1,
    hclosed.2 hp⟩

end Varmq.Stats
