import Varmq.Park.Order
import Varmq.Stats.Balance

namespace Varmq.Stats

open Interleaving Topics

variable {s s' : Shared} {l l' t : Thread} {new xs ys ts : List Thread} {j : Job} {v w : ℕ}
  {c : Choice} {wk wk' : Worker} {st : Park.Stamp} {R : Park.Stamp → Job → Prop}

-- The stamp the jobs in a goroutine's hands went out with.
def stampOf : Thread → Option Park.Stamp
  | .dispatch _ (.send _ st) => some st
  | .batch _ st _ => some st
  | _ => none

def parking : Thread → Bool
  | .batch _ _ (.park _ _ _) => true
  | _ => false

-- What a step makes of the parked jobs of worker v.
inductive Reparks (s : Shared) (v : ℕ) : Thread → Thread → Park.Parked Job → Park.Parked Job → Prop
  | same {l l' : Thread} {p : Park.Parked Job} : Reparks s v l l' p p
  | nothing {sole : Bool} {k : ℕ} {l' : Thread} {st : Park.Stamp} {p p' : Park.Parked Job}
      (h : Park.unpark s.pauses p k = ([],st,p')) :
      Reparks s v (.dispatch v (.unpark sole k)) l' p p'
  | unpark {sole : Bool} {k : ℕ} {jobs : List Job} {st : Park.Stamp} {p p' : Park.Parked Job}
      (h : Park.unpark s.pauses p k = (jobs,st,p')) :
      Reparks s v (.dispatch v (.unpark sole k)) (.dispatch v (.send jobs st)) p p'
  | park {st : Park.Stamp} {i : ℕ} {jobs rest : List Job} {r : MemRun} {l' : Thread}
      {p p' : Park.Parked Job} (h : st.stale s.gens = false)
      (hp : Park.park s.gens s.pauses p jobs { st with seq := st.seq + i } = (p',rest)) :
      Reparks s v (.batch v st (.park i jobs r)) l' p p'
  | drop {ws : List ℕ} {p : Park.Parked Job} :
      Reparks s v (.purge (.drop (v :: ws))) (.purge (.dropClose v (Park.dropParked 0 p).1 ws)) p
        (Park.dropParked 0 p).2

structure Reparked (s s' : Shared) (l l' : Thread) : Prop where
  kept : ∀ (v : ℕ) (wk : Worker), s.workers[v]? = some wk →
    ∃ wk', s'.workers[v]? = some wk' ∧ Reparks s v l l' wk.parked wk'.parked
  bound : ∀ (v : ℕ) (wk : Worker), s'.workers[v]? = some wk → s.workers[v]? = none →
    wk.parked = .empty

theorem reparked_same (h : s'.workers = s.workers) : Reparked s s' l l' := by
  refine ⟨fun v wk hv => ⟨wk,by rw [h,hv],.same⟩,fun v wk hv hn => ?_⟩
  rw [h,hn] at hv
  cases hv

theorem reparked_set (hw : s.workers[w]? = some wk) (hr : Reparks s w l l' wk.parked wk'.parked) :
    Reparked s (s.setWorker w wk') l l' := by
  obtain ⟨hlt,-⟩ := List.getElem?_eq_some_iff.mp hw
  constructor
  · intro v u hv
    by_cases he : w = v
    · subst he
      cases hw.symm.trans hv
      exact ⟨wk',by simp [Shared.setWorker,hlt],hr⟩
    · exact ⟨u,by simp only [Shared.setWorker]; rw [List.getElem?_set_ne he,hv],.same⟩
  · intro v u hv hn
    simp only [Shared.setWorker] at hv
    by_cases he : w = v
    · subst he
      rw [hw] at hn
      cases hn
    · rw [List.getElem?_set_ne he,hn] at hv
      cases hv

theorem reparked_keep (hw : s.workers[w]? = some wk) (hp : wk'.parked = wk.parked) :
    Reparked s (s.setWorker w wk') l l' := by
  refine reparked_set hw ?_
  rw [hp]
  exact .same

theorem park_reparks {i : ℕ} {jobs rest : List Job} {r : MemRun} {p p' : Park.Parked Job}
    (hp : Park.park s.gens s.pauses p jobs { st with seq := st.seq + i } = (p',rest)) :
    Reparks s w (.batch w st (.park i jobs r)) l' p p' := by
  cases hstale : st.stale s.gens with
  | false => exact .park hstale hp
  | true =>
    have hstale' : Park.Stamp.stale s.gens { st with seq := st.seq + i } = true := hstale
    rw [Park.park,if_pos hstale'] at hp
    cases hp
    exact .same

theorem stale_iff (hg : st.gen = some 0) : st.stale s.gens = true ↔ s.gen ≠ st.epoch := by
  rw [Park.Stamp.stale,hg]
  exact decide_eq_true_iff

theorem close_workers (s : Shared) (j : Job) : (s.close j).workers = s.workers := (close_apart s j).workers

theorem add_workers (r : MemRun) (s : Shared) (h : ℕ) (d : ℤ) :
    (r.add s h d).1.workers = s.workers := by rw [add_rest]

theorem flush_workers (r : MemRun) (s : Shared) : (r.flush s).1.workers = s.workers := by
  rw [flush_rest]

theorem add_reparks {m n n' : ℕ} {pc pc' : AddPc} (h : addStep s m n pc c = some (s',n',pc')) :
    s'.workers = s.workers := by
  cases pc with
  | store j => cases c <;> cases h <;> rfl
  | markQueued j =>
    simp only [addStep,Option.some.injEq,Prod.mk.injEq] at h
    obtain ⟨rfl,-⟩ := h
    exact (markQueued_apart s j).workers
  | close j =>
    cases h
    exact close_workers s j
  | count =>
    cases h
    rfl
  | uncount =>
    simp only [addStep,Option.some.injEq,Prod.mk.injEq] at h
    obtain ⟨rfl,-⟩ := h
    rfl
  | returned => cases h

theorem dispatch_reparks {pc pc' : DispatchPc} {sent : Option (Park.Stamp × List Job)}
    (h : dispatchStep s w pc c = some (s',pc',sent)) :
    Reparked s s' (.dispatch w pc) (.dispatch w pc') := by
  cases pc with
  | plan =>
    simp only [dispatchStep] at h
    split at h
    · cases h
    · split at h
      · cases h
        exact reparked_same rfl
      · cases c <;> cases h <;> exact reparked_same rfl
  | unpark sole k =>
    simp only [dispatchStep] at h
    split at h
    · cases h
    · rename_i wk hw
      split at h
      · cases h
        exact reparked_same rfl
      · split at h
        · cases h
        · split at h
          · rename_i he
            cases h
            exact reparked_set hw (.nothing he)
          · rename_i he
            cases h
            exact reparked_set hw (.unpark he)
  | next sole k buf r =>
    simp only [dispatchStep] at h
    split at h
    · split at h <;> cases h <;> exact reparked_same rfl
    · cases h
      exact reparked_same rfl
  | took sole k buf r j =>
    cases c with
    | no =>
      cases h
      exact reparked_same rfl
    | go | batch =>
      simp only [dispatchStep] at h
      split at h
      · cases h
        exact reparked_same rfl
      · cases h
        exact reparked_same (add_workers r s j.handle 1)
  | flush sole buf r =>
    cases h
    exact reparked_same (flush_workers r s)
  | stamp sole buf =>
    cases buf with
    | nil =>
      cases h
      exact reparked_same rfl
    | cons j js =>
      cases sole with
      | false =>
        cases h
        exact reparked_same rfl
      | true =>
        simp only [dispatchStep] at h
        split at h
        · cases h
        · rename_i wk hw
          cases h
          exact reparked_keep hw rfl
  | send buf st =>
    cases h
    exact reparked_same rfl
  | returned => cases h

theorem batch_reparks {pc pc' : BatchPc} (h : batchStep s w st pc c = some (s',pc')) :
    Reparked s s' (.batch w st pc) (.batch w st pc') := by
  cases pc with
  | stale i jobs r =>
    cases jobs with
    | nil =>
      cases h
      exact reparked_same rfl
    | cons j js =>
      cases h
      exact reparked_same rfl
  | halting i j js r =>
    simp only [batchStep] at h
    split at h
    · cases h
    · cases h
      exact reparked_same rfl
  | start i j js r =>
    simp only [batchStep] at h
    split at h <;> cases h <;> exact reparked_same rfl
  | work i j js r => cases c <;> cases h <;> exact reparked_same rfl
  | purged i j js r | close i j js r =>
    cases h
    exact reparked_same (close_workers s j)
  | finish i j js r | parkTaken j js r =>
    cases h
    exact reparked_same rfl
  | count i j js r | skip i j js r =>
    cases h
    exact reparked_same (add_workers r s j.handle (-1))
  | park i jobs r =>
    simp only [batchStep] at h
    split at h
    · cases h
    · rename_i wk hw
      split at h
      · cases h
      · split at h
        · rename_i he
          cases h
          exact reparked_set hw (park_reparks he)
        · rename_i he
          cases h
          exact reparked_set hw (park_reparks he)
  | parkClose jobs r =>
    cases jobs with
    | nil =>
      simp only [batchStep] at h
      split at h
      · cases h
      · rename_i wk hw
        cases h
        exact reparked_keep hw rfl
    | cons j js =>
      cases h
      exact reparked_same (close_workers s j)
  | flush r =>
    cases h
    exact reparked_same (flush_workers r s)
  | returned => cases h

theorem purge_reparks {pc pc' : PurgePc} (h : purgeStep s pc = some (s',pc')) :
    Reparked s s' (.purge pc) (.purge pc') := by
  cases pc with
  | bump | hooks | dropTaken | values =>
    cases h
    exact reparked_same rfl
  | drop ws =>
    cases ws with
    | nil =>
      cases h
      exact reparked_same rfl
    | cons w ws =>
      simp only [purgeStep] at h
      split at h
      · cases h
      · rename_i wk hw
        split at h
        · cases h
        · cases h
          exact reparked_set hw .drop
  | dropClose w jobs ws =>
    cases jobs with
    | nil =>
      simp only [purgeStep] at h
      split at h
      · cases h
      · rename_i wk hw
        cases h
        exact reparked_keep hw rfl
    | cons j js =>
      cases h
      exact reparked_same (close_workers s j)
  | close jobs =>
    cases jobs with
    | nil =>
      cases h
      exact reparked_same rfl
    | cons j js =>
      cases h
      exact reparked_same (close_workers s j)
  | returned => cases h

theorem step_reparks (h : program.step s l c = some (s',l',new)) : Reparked s s' l l' := by
  cases l with
  | add m n pc =>
    obtain ⟨u,hu,hq⟩ := Option.map_eq_some_iff.mp h
    cases hq
    exact reparked_same (add_reparks hu)
  | dispatch w pc =>
    obtain ⟨u,hu,hq⟩ := Option.map_eq_some_iff.mp h
    cases hq
    exact dispatch_reparks hu
  | batch w st pc =>
    obtain ⟨u,hu,hq⟩ := Option.map_eq_some_iff.mp h
    cases hq
    exact batch_reparks hu
  | purge pc =>
    obtain ⟨u,hu,hq⟩ := Option.map_eq_some_iff.mp h
    cases hq
    exact purge_reparks hu
  | close j done =>
    cases done <;> cases h
    exact reparked_same (close_workers s j)
  | bind done =>
    cases done <;> cases h
    refine ⟨fun v wk hv => ⟨wk,?_,.same⟩,fun v wk' hv hn => ?_⟩
    · obtain ⟨hlt,-⟩ := List.getElem?_eq_some_iff.mp hv
      rw [List.getElem?_append_left hlt,hv]
    · rw [List.getElem?_append_right (List.getElem?_eq_none_iff.mp hn)] at hv
      obtain rfl := List.mem_singleton.mp (List.mem_of_getElem? hv)
      rfl
  | setHalting w on done =>
    cases done with
    | true => cases h
    | false =>
      simp only [program,step] at h
      split at h
      · cases h
      · rename_i wk hw
        cases h
        exact reparked_keep hw rfl
  | setPaused on done =>
    cases done <;> cases h
    exact reparked_same rfl

-- How a stamped job came into the hands it is in.
inductive Came (s : Shared) (l l' : Thread) (st : Park.Stamp) (j : Job) : Prop
  | carried (hl : stampOf l = some st) (hj : j ∈ hand l) (hp : parking l' = true → st.gen ≠ none)
  | stamped (hp : parking l' = false) (hst : st.gen = none ∨ st.gen = some 0 ∧ st.epoch = s.gen)
  | unparked {w : ℕ} {wk : Worker} {sole : Bool} {k : ℕ} {p : Park.Parked Job}
      (hl : l = .dispatch w (.unpark sole k)) (hp : parking l' = false)
      (hw : s.workers[w]? = some wk) (hu : Park.unpark s.pauses wk.parked k = (hand l',st,p))

theorem dispatch_came {pc pc' : DispatchPc} {sent : Option (Park.Stamp × List Job)}
    (h : dispatchStep s w pc c = some (s',pc',sent)) (hst : stampOf (.dispatch w pc') = some st) :
    Came s (.dispatch w pc) (.dispatch w pc') st j := by
  cases pc with
  | plan =>
    simp only [dispatchStep] at h
    split at h
    · cases h
    · split at h
      · cases h
        cases hst
      · cases c <;> cases h <;> cases hst
  | unpark sole k =>
    simp only [dispatchStep] at h
    split at h
    · cases h
    · rename_i wk hw
      split at h
      · cases h
        cases hst
      · split at h
        · cases h
        · split at h
          · cases h
            cases hst
          · rename_i hu
            cases h
            cases hst
            exact .unparked rfl rfl hw hu
  | next sole k buf r =>
    simp only [dispatchStep] at h
    split at h
    · split at h <;> cases h <;> cases hst
    · cases h
      cases hst
  | took sole k buf r j =>
    cases c with
    | no =>
      cases h
      cases hst
    | go | batch =>
      simp only [dispatchStep] at h
      split at h <;> cases h <;> cases hst
  | flush sole buf r =>
    cases h
    cases hst
  | stamp sole buf =>
    cases buf with
    | nil =>
      cases h
      cases hst
    | cons j js =>
      cases sole with
      | false =>
        cases h
        cases hst
        exact .stamped rfl (.inl rfl)
      | true =>
        simp only [dispatchStep] at h
        split at h
        · cases h
        · cases h
          cases hst
          exact .stamped rfl (.inr ⟨rfl,rfl⟩)
  | send buf st =>
    cases h
    cases hst
  | returned => cases h

-- A batch's jobs are never more than those it was sent with.
theorem batch_carries {pc pc' : BatchPc} (h : batchStep s w st pc c = some (s',pc'))
    (hj : j ∈ hand (.batch w st pc')) :
    j ∈ hand (.batch w st pc) ∧ (parking (.batch w st pc') = true → st.gen ≠ none) := by
  cases pc with
  | stale i jobs r =>
    cases jobs with
    | nil =>
      cases h
      cases hj
    | cons a js =>
      simp only [batchStep,Option.some.injEq,Prod.mk.injEq] at h
      obtain ⟨-,rfl⟩ := h
      cases hstale : st.stale s.gens with
      | false =>
        rw [hstale] at hj
        exact ⟨hj,fun hp => by cases hp⟩
      | true =>
        rw [hstale] at hj
        exact ⟨hj,fun hp => by cases hp⟩
  | halting i a js r =>
    simp only [batchStep] at h
    split at h
    · cases h
    · split at h
      · rename_i hpark
        cases h
        refine ⟨hj,fun _ hn => ?_⟩
        rw [hn] at hpark
        cases hpark.2.1
      · cases h
        exact ⟨hj,fun hp => by cases hp⟩
  | start i a js r =>
    simp only [batchStep] at h
    split at h <;> cases h <;> exact ⟨hj,fun hp => by cases hp⟩
  | work i a js r => cases c <;> cases h <;> exact ⟨List.mem_cons_of_mem a hj,fun hp => by cases hp⟩
  | purged i a js r | finish i a js r | close i a js r | count i a js r | parkTaken a js r =>
    cases h
    refine ⟨?_,fun hp => by cases hp⟩
    first | exact hj | exact List.mem_cons_of_mem a hj
  | skip i a js r =>
    cases h
    exact ⟨List.mem_cons_of_mem a hj,fun hp => by cases hp⟩
  | park i jobs r =>
    simp only [batchStep] at h
    split at h
    · cases h
    · split at h
      · cases h
      · split at h
        · cases h
          cases hj
        · rename_i he
          cases h
          have hjobs := congrArg Prod.snd he
          refine ⟨?_,fun hp => by cases hp⟩
          unfold Park.park at hjobs
          split at hjobs
          · rw [show jobs = _ from hjobs]
            exact hj
          · cases hjobs
  | parkClose jobs r =>
    cases jobs with
    | nil =>
      simp only [batchStep] at h
      split at h <;> cases h
      cases hj
    | cons a js =>
      cases h
      exact ⟨hj,fun hp => by cases hp⟩
  | flush r =>
    cases h
    cases hj
  | returned => cases h

theorem step_came (h : program.step s l c = some (s',l',new)) (hst : stampOf l' = some st)
    (hj : j ∈ hand l') : Came s l l' st j := by
  cases l with
  | add m n pc =>
    obtain ⟨u,hu,hq⟩ := Option.map_eq_some_iff.mp h
    cases hq
    cases hst
  | dispatch w pc =>
    obtain ⟨u,hu,hq⟩ := Option.map_eq_some_iff.mp h
    cases hq
    exact dispatch_came hu hst
  | batch w st pc =>
    obtain ⟨u,hu,hq⟩ := Option.map_eq_some_iff.mp h
    cases hq
    cases hst
    obtain ⟨hj,hp⟩ := batch_carries hu hj
    exact .carried rfl hj hp
  | purge pc =>
    obtain ⟨u,hu,hq⟩ := Option.map_eq_some_iff.mp h
    cases hq
    cases hst
  | close j done | bind done | setPaused on done =>
    cases done <;> cases h
    cases hst
  | setHalting w on done =>
    cases done with
    | true => cases h
    | false =>
      simp only [program,step] at h
      split at h <;> cases h
      cases hst

theorem step_sent (h : program.step s l c = some (s',l',new)) (ht : t ∈ new) :
    ∃ w buf st, l = .dispatch w (.send buf st) ∧ t = .batch w st (.stale 0 buf .empty) := by
  cases l with
  | dispatch w pc =>
    obtain ⟨⟨u,pc',sent⟩,hu,hq⟩ := Option.map_eq_some_iff.mp h
    cases hq
    obtain ⟨⟨st,buf⟩,hsent,rfl⟩ := Option.map_eq_some_iff.mp (Option.mem_toList.mp ht)
    subst hsent
    cases pc with
    | send buf st =>
      cases hu
      exact ⟨w,_,_,rfl,rfl⟩
    | plan =>
      simp only [dispatchStep] at hu
      split at hu
      · cases hu
      · split at hu
        · cases hu
        · cases c <;> cases hu
    | unpark sole k =>
      simp only [dispatchStep] at hu
      split at hu
      · cases hu
      · split at hu
        · cases hu
        · split at hu
          · cases hu
          · split at hu <;> cases hu
    | next sole k buf r =>
      simp only [dispatchStep] at hu
      split at hu
      · split at hu <;> cases hu
      · cases hu
    | took sole k buf r j =>
      cases c with
      | no => cases hu
      | go | batch =>
        simp only [dispatchStep] at hu
        split at hu <;> cases hu
    | flush sole buf r => cases hu
    | stamp sole buf =>
      cases buf with
      | nil => cases hu
      | cons j js =>
        cases sole with
        | false => cases hu
        | true =>
          simp only [dispatchStep] at hu
          split at hu <;> cases hu
    | returned => cases hu
  | add | batch | purge =>
    obtain ⟨u,hu,hq⟩ := Option.map_eq_some_iff.mp h
    cases hq
    cases ht
  | close j done | bind done | setPaused on done =>
    cases done <;> cases h
    cases ht
  | setHalting w on done =>
    cases done with
    | true => cases h
    | false =>
      simp only [program,step] at h
      split at h <;> cases h
      cases ht

def Marked (t : Thread) (st : Park.Stamp) : Prop :=
  st.gen = some 0 ∨ st.gen = none ∧ parking t = false

theorem Marked.parks (h : Marked t st) (hp : parking t = true) : st.gen = some 0 := by
  rcases h with h | ⟨-,h⟩
  · exact h
  · rw [hp] at h
    cases h

theorem Reparks.all {p p' : Park.Parked Job} (h : Reparks s v l l' p p')
    (hR : ∀ st n j, R st j → R { st with seq := n } j)
    (hl : ∀ st, stampOf l = some st → parking l = true → st.stale s.gens = false → ∀ j ∈ hand l, R st j)
    (hp : ∀ b ∈ p.batches, ∀ j ∈ b.jobs, R b.stamp j) :
    ∀ b ∈ p'.batches, ∀ j ∈ b.jobs, R b.stamp j := by
  cases h with
  | same => exact hp
  | @nothing sole k l' st p p' hu | @unpark sole k jobs st p p' hu =>
    have hall := (@Park.unpark_forall _ p s.pauses _ hR hp k).2
    rw [hu] at hall
    exact hall
  | @park st i jobs rest r l' p p' hstale hpark =>
    have hfalse : ¬Park.Stamp.stale s.gens { st with seq := st.seq + i } = true := by
      rw [Bool.not_eq_true]
      exact hstale
    rw [Park.park,if_neg hfalse] at hpark
    cases hpark
    intro b hb j hj
    rcases List.mem_append.mp hb with hb | hb
    · exact hp b hb j hj
    · cases List.mem_singleton.mp hb
      exact hR st _ j (hl st rfl rfl hstale j hj)
  | drop => exact fun b hb => hp b (List.mem_of_mem_filter hb)

-- Every stamped job is in R to its stamp; what is parked carries the counter.
structure Tagged (R : Park.Stamp → Job → Prop) (s : Shared) (ts : List Thread) : Prop where
  hands : ∀ t ∈ ts, ∀ st, stampOf t = some st → ∀ j ∈ hand t, Marked t st ∧ R st j
  parks : ∀ wk ∈ s.workers, ∀ b ∈ wk.parked.batches, ∀ j ∈ b.jobs, b.stamp.gen = some 0 ∧ R b.stamp j

theorem Tagged.act (h : Tagged R s (xs ++ l :: ys)) (hR : ∀ st n j, R st j → R { st with seq := n } j)
    (hnow : ∀ st j, st.gen = none ∨ st.epoch = s.gen → R st j)
    (hs : program.step s l c = some (s',l',new)) : Tagged R s' (xs ++ l' :: (ys ++ new)) := by
  have hseq : ∀ (st : Park.Stamp) n (j : Job), st.gen = some 0 ∧ R st j →
      ({ st with seq := n } : Park.Stamp).gen = some 0 ∧ R { st with seq := n } j :=
    fun st n j hr => ⟨hr.1,hR st n j hr.2⟩
  have hl := h.hands l (by simp)
  constructor
  · refine forall_act (fun t ht => h.hands t (mem_of_other ht)) (fun st hst j hj => ?_) fun t ht => ?_
    · cases step_came hs hst hj with
      | carried hlst hlj hp =>
        obtain ⟨hm,hr⟩ := hl st hlst j hlj
        refine ⟨?_,hr⟩
        rcases hm with hm | ⟨hm,-⟩
        · exact .inl hm
        · exact .inr ⟨hm,Bool.eq_false_iff.mpr fun hpark => hp hpark hm⟩
      | stamped hp hst =>
        rcases hst with hst | ⟨hst,he⟩
        · exact ⟨.inr ⟨hst,hp⟩,hnow st j (.inl hst)⟩
        · exact ⟨.inl hst,hnow st j (.inr he)⟩
      | @unparked w wk sole k p hl hp hw hu =>
        have hall := (@Park.unpark_forall _ wk.parked s.pauses _ hseq
          (h.parks wk (List.mem_of_getElem? hw)) k).1
        rw [hu] at hall
        obtain ⟨hm,hr⟩ := hall j hj
        exact ⟨.inl hm,hr⟩
    · obtain ⟨w,buf,st,rfl,rfl⟩ := step_sent hs ht
      intro st' hst j hj
      cases hst
      obtain ⟨hm,hr⟩ := hl st rfl j hj
      exact ⟨hm.imp_right fun hn => ⟨hn.1,rfl⟩,hr⟩
  · intro wk hwk
    obtain ⟨v,hv⟩ := List.getElem?_of_mem hwk
    obtain ⟨hkept,hbound⟩ := step_reparks hs
    cases hold : s.workers[v]? with
    | none =>
      intro b hb
      rw [hbound v wk hv hold] at hb
      cases hb
    | some old =>
      obtain ⟨wk',hv',hr⟩ := hkept v old hold
      cases hv.symm.trans hv'
      refine hr.all hseq (fun st hst hp _ j hj => ?_) (h.parks old (List.mem_of_getElem? hold))
      obtain ⟨hm,hr⟩ := hl st hst j hj
      exact ⟨hm.parks hp,hr⟩

theorem Tagged.call (h : Tagged R s ts) (he : entry s l = true) : Tagged R s (ts ++ [l]) := by
  refine ⟨forall_call h.hands fun st hst j hj => ?_,h.parks⟩
  rw [(entered he).1] at hj
  cases hj

theorem Tagged.mono {R' : Park.Stamp → Job → Prop} (h : Tagged R s ts) (hw : s'.workers = s.workers)
    (hr : ∀ st j, R st j → R' st j) : Tagged R' s' ts where
  hands t ht st hst j hj := (h.hands t ht st hst j hj).imp_right (hr st j)
  parks wk hwk b hb j hj := (h.parks wk (hw ▸ hwk) b hb j hj).imp_right (hr b.stamp j)

end Varmq.Stats
