import Varmq.Pause.Raised

namespace Varmq.Pause

open Interleaving
open Varmq.Park (Stamp Holder ParkedBatch Parked mayHold rest jobsOf)

variable {J : Type} {notifies : ℕ → Bool} {s s' : Shared J} {l l' t : Thread J}
  {xs ys ts new : List (Thread J)} {c : Choice} {q : ℕ} {hold : Option Holder}

def holdsPark : Thread J → Bool
  | .park _ _ pc => pc ≠ .lock ∧ pc ≠ .returned
  | .unpark _ pc => pc ≠ .lock ∧ pc ≠ .returned
  | .purge _ pc => pc ≠ .bump ∧ pc ≠ .lock ∧ pc ≠ .returned
  | .pending .clear | .pending (.scan _ _ _) | .pending (.store _) | .pending (.unlock _) => true
  | _ => false

-- The jobs a park has appended and not counted yet.
def uncounted : Thread J → ℕ
  | .park jobs _ .held | .park jobs _ .store | .park jobs _ .count => jobs.length
  | _ => 0

theorem holds_of_uncounted (h : 0 < uncounted t) : holdsPark t = true := by
  unfold uncounted at h
  split at h <;> first | rfl | omega

@[simp] theorem Frame.holds {on : Bool} {f : Option NotifyPc → Thread J} (hf : Frame q on f)
    (pc : Option NotifyPc) : holdsPark (f pc) = false := by
  cases hf <;> rfl

theorem Frame.uncounted {on : Bool} {f : Option NotifyPc → Thread J} (hf : Frame q on f)
    (pc : Option NotifyPc) : uncounted (f pc) = 0 := by
  cases hf <;> rfl

-- What a step does to the lock, and to the count where no other thread has jobs to count.
structure Keeps (s s' : Shared J) (l l' : Thread J) : Prop where
  locked : s'.parkMx.toNat + (holdsPark l).toNat = s.parkMx.toNat + (holdsPark l').toNat
  counted : s.parked.nParked + uncounted l = s.parked.jobs.length →
    s'.parked.nParked + uncounted l' = s'.parked.jobs.length
  outside : holdsPark l = false → s'.parked.batches = s.parked.batches ∧
    s'.parked.nParked = s.parked.nParked ∧ uncounted l' = 0

theorem change_keeps {on : Bool} {f : Option NotifyPc → Thread J} {pc : Option NotifyPc}
    {pc' : NotifyPc} (hf : Frame q on f) (hc : ChangeAct notifies s q on pc s' pc') :
    Keeps s s' (f pc) (f (some pc')) := by
  have hp : s'.parked.batches = s.parked.batches ∧ s'.parked.nParked = s.parked.nParked ∧
      s'.parkMx = s.parkMx := by
    cases hc <;> exact ⟨rfl,rfl,rfl⟩
  refine ⟨by rw [hf.holds,hf.holds,hp.2.2],fun h => ?_,fun _ => ⟨hp.1,hp.2.1,hf.uncounted _⟩⟩
  rw [hf.uncounted] at h ⊢
  rw [Parked.jobs,hp.1,hp.2.1]
  exact h

theorem park_keeps {jobs : List J} {stamp : Stamp} {pc pc' : ParkPc}
    (hs : parkStep s jobs stamp pc = some (s',pc'))
    (hm : holdsPark (.park jobs stamp pc) = true → s.parkMx = true) :
    Keeps s s' (.park jobs stamp pc) (.park jobs stamp pc') := by
  cases pc with
  | lock =>
    simp only [parkStep] at hs
    split at hs <;> cases hs
    rename_i hl
    exact ⟨by simp [holdsPark,lockPark,hl],fun h => h,fun _ => ⟨rfl,rfl,rfl⟩⟩
  | stale =>
    cases hs
    refine ⟨?_,fun h => ?_,fun h => by simp [holdsPark] at h⟩
    · split <;> simp [holdsPark]
    · split <;> exact h
  | append =>
    cases hs
    refine ⟨rfl,fun h => ?_,fun h => by simp [holdsPark] at h⟩
    simp only [uncounted,Parked.jobs,setParked,Park.jobsOf_append,List.length_append,
      Park.jobsOf_cons,Park.jobsOf_nil,List.length_nil] at h ⊢
    omega
  | held =>
    cases hs
    refine ⟨?_,fun h => ?_,fun h => by simp [holdsPark] at h⟩
    · split <;> simp [holdsPark]
    · split <;> exact h
  | store =>
    cases hs
    exact ⟨rfl,fun h => h,fun h => by simp [holdsPark] at h⟩
  | count =>
    cases hs
    exact ⟨rfl,fun h => h,fun h => by simp [holdsPark] at h⟩
  | unlock =>
    cases hs
    have := hm (by simp [holdsPark])
    exact ⟨by simp [holdsPark,unlockPark,this],fun h => h,fun h => by simp [holdsPark] at h⟩
  | returned => cases hs

theorem take_length {bs : List (ParkedBatch J)} {b : ParkedBatch J} {i : ℕ} (h : bs[i]? = some b)
    (k : ℕ) : (jobsOf (bs.take i ++ rest b k ++ bs.drop (i + 1))).length + (b.jobs.take k).length =
      (jobsOf bs).length := by
  obtain ⟨xs,ys,rfl,rfl,-⟩ := set_split h
  simp only [Park.jobsOf_append,Park.rest_jobs,Park.jobsOf_cons,List.length_append,
    List.take_left,List.length_drop,List.length_take]
  rw [List.drop_append]
  simp only [List.drop_of_length_le (Nat.le_succ _),Nat.add_sub_cancel_left,List.drop_succ_cons,
    List.drop_zero,List.nil_append]
  omega

theorem unpark_keeps {k : ℕ} {pc pc' : UnparkPc} (hs : unparkStep s k pc = some (s',pc'))
    (hm : holdsPark (.unpark k pc : Thread J) = true → s.parkMx = true) :
    Keeps s s' (.unpark k pc) (.unpark k pc') := by
  cases pc with
  | lock =>
    simp only [unparkStep] at hs
    split at hs <;> cases hs
    rename_i hl
    exact ⟨by simp [holdsPark,lockPark,hl],fun h => h,fun _ => ⟨rfl,rfl,rfl⟩⟩
  | sort =>
    simp only [unparkStep] at hs
    split at hs <;> cases hs
    · exact ⟨rfl,fun h => h,fun h => by simp [holdsPark] at h⟩
    · refine ⟨rfl,fun h => ?_,fun h => by simp [holdsPark] at h⟩
      have hp := (Park.jobsOf_perm (Park.sorted_perm s.parked)).length_eq
      simp only [uncounted,Parked.jobs,setParked] at h ⊢
      omega
  | held i =>
    cases hs
    refine ⟨?_,fun h => h,fun h => by simp [holdsPark] at h⟩
    cases s.parked.batches[i]? with
    | none => rfl
    | some b => dsimp only; split <;> simp [holdsPark]
  | take i =>
    simp only [unparkStep] at hs
    split at hs <;> cases hs
    rename_i b hb
    refine ⟨rfl,fun h => ?_,fun h => by simp [holdsPark] at h⟩
    have hl := take_length hb k
    simp only [uncounted,Parked.jobs,setParked] at h ⊢
    omega
  | unlock =>
    cases hs
    have := hm (by simp [holdsPark])
    exact ⟨by simp [holdsPark,unlockPark,this],fun h => h,fun h => by simp [holdsPark] at h⟩
  | returned => cases hs

theorem purge_keeps {gen : ℕ} {pc pc' : PurgePc} (hs : purgeStep s gen pc = some (s',pc'))
    (hm : holdsPark (.purge gen pc : Thread J) = true → s.parkMx = true) :
    Keeps s s' (.purge gen pc) (.purge gen pc') := by
  cases pc with
  | bump =>
    cases hs
    exact ⟨rfl,fun h => h,fun _ => ⟨rfl,rfl,rfl⟩⟩
  | lock =>
    simp only [purgeStep] at hs
    split at hs <;> cases hs
    rename_i hl
    exact ⟨by simp [holdsPark,lockPark,hl],fun h => h,fun _ => ⟨rfl,rfl,rfl⟩⟩
  | drop =>
    cases hs
    exact ⟨rfl,fun h => Park.dropParked_counted h,fun h => by simp [holdsPark] at h⟩
  | unlock =>
    cases hs
    have := hm (by simp [holdsPark])
    exact ⟨by simp [holdsPark,unlockPark,this],fun h => h,fun h => by simp [holdsPark] at h⟩
  | returned => cases hs

theorem pending_keeps {pc pc' : PendingPc J} (hs : pendingStep s pc = some (s',pc'))
    (hm : holdsPark (.pending pc) = true → s.parkMx = true) :
    Keeps s s' (.pending pc) (.pending pc') := by
  have hp : s'.parked.batches = s.parked.batches ∧ s'.parked.nParked = s.parked.nParked := by
    unfold pendingStep at hs
    split at hs <;> try split at hs
    all_goals cases hs <;> exact ⟨rfl,rfl⟩
  refine ⟨?_,fun h => ?_,fun _ => ⟨hp.1,hp.2,rfl⟩⟩
  · unfold pendingStep at hs
    split at hs
    · cases hs
      split <;> rfl
    · cases hs
      split <;> rfl
    · split at hs <;> cases hs
      rename_i hl
      simp [holdsPark,lockPark,hl]
    · cases hs
      rfl
    · cases hs
      split <;> rfl
    · cases hs
      split <;> rfl
    · cases hs
      rfl
    · cases hs
      have := hm rfl
      simp [holdsPark,unlockPark,this]
    · cases hs
  · rw [Parked.jobs,hp.1,hp.2]
    exact h

theorem act_keeps (hs : Act notifies s l s' l') (hm : holdsPark l = true → s.parkMx = true) :
    Keeps s s' l l' := by
  cases hs with
  | change hf hc => exact change_keeps hf hc
  | register => exact ⟨rfl,fun h => h,fun _ => ⟨rfl,rfl,rfl⟩⟩
  | cancel => exact ⟨rfl,fun h => h,fun _ => ⟨rfl,rfl,rfl⟩⟩
  | park hs => exact park_keeps hs hm
  | unpark hs => exact unpark_keeps hs hm
  | purge hs => exact purge_keeps hs hm
  | pending hs => exact pending_keeps hs hm

structure Inv (notifies : ℕ → Bool) (s : Shared J) (ts : List (Thread J)) : Prop where
  locked : total (fun t => (holdsPark t).toNat) ts = s.parkMx.toNat
  counted : s.parked.nParked + total uncounted ts = s.parked.jobs.length
  bound : ∀ b ∈ s.parked.batches, Bound notifies s b.stamp.hold
  told : ∀ t ∈ ts, Told notifies s t
  raised : ∀ b ∈ s.parked.batches, flagged s.paused b.stamp.hold = true →
    s.parked.parkHeld = true ∨ ∃ t ∈ ts, raises b.stamp.hold t = true

theorem inv_new : Inv notifies (newWorker (J := J)).shared (newWorker (J := J)).threads where
  locked := rfl
  counted := rfl
  bound _ h := by cases h
  told _ h := by cases h
  raised _ h := by cases h

theorem told_kept (hs : Act notifies s l s' l') (hl : Told notifies s l) (ht : Told notifies s t) :
    Told notifies s' t := by
  cases t with
  | pause q pc | resume q pc =>
    cases pc with
    | none => trivial
    | some pc => exact ⟨ht.1,fun k hk hko => hooks_kept hs hl hko (ht.2 k hk hko)⟩
  | cancel q h =>
    cases h with
    | none => trivial
    | some h => exact ht
  | park jobs stamp pc => exact Bound.kept hs hl ht
  | _ => trivial

theorem change_told {on : Bool} {pc : Option NotifyPc} {pc' : NotifyPc}
    (hc : ChangeAct notifies s q on pc s' pc')
    (ht : ∀ p, pc = some p → p ≠ .returned → notifies q = true)
    (hl : ∀ p, pc = some p → ∀ k ∈ p.listed, k.ours = true → k ∈ s.hooks q) :
    (pc' ≠ .returned → notifies q = true) ∧ ∀ k ∈ pc'.listed, k.ours = true → k ∈ s'.hooks q := by
  cases hc with
  | same => exact ⟨fun h => absurd rfl h,fun k hk => by cases hk⟩
  | set hp =>
    cases hn : notifies q with
    | true => exact ⟨fun _ => rfl,fun k hk => by cases hk⟩
    | false => exact ⟨fun h => absurd rfl h,fun k hk => by cases hk⟩
  | copy => exact ⟨fun _ => ht _ rfl (by simp),fun k hk _ => hk⟩
  | live => exact ⟨fun _ => ht _ rfl (by simp),fun k hk => hl _ rfl k (List.mem_of_mem_erase hk)⟩
  | cancelled =>
    exact ⟨fun _ => ht _ rfl (by simp),fun k hk => hl _ rfl k (List.mem_of_mem_erase hk)⟩
  | raise => exact ⟨fun _ => ht _ rfl (by simp),fun k hk => hl _ rfl k hk⟩
  | call => exact ⟨fun _ => ht _ rfl (by simp),fun k hk => hl _ rfl k hk⟩
  | unlock => exact ⟨fun h => absurd rfl h,fun k hk => by cases hk⟩
  | _ => exact ⟨fun _ => ht _ rfl (by simp),fun k hk => by cases hk⟩

theorem told_step (hs : Act notifies s l s' l') (hl : Told notifies s l) : Told notifies s' l' := by
  cases hs with
  | @change q on f pc s' pc' hf hc =>
    rw [hf.told]
    refine change_told hc (fun p hp => ?_) fun p hp => ?_
    all_goals
      subst hp
      rw [hf.told] at hl
    · exact hl.1
    · exact hl.2
  | register => trivial
  | cancel => trivial
  | park hs => exact Bound.kept (.park hs) hl hl
  | unpark => trivial
  | purge => trivial
  | pending => trivial

theorem Inv.act (h : Inv notifies s (xs ++ l :: ys)) (hs : Act notifies s l s' l') :
    Inv notifies s' (xs ++ l' :: (ys ++ [])) := by
  have hl := h.told l (by simp)
  have hheld : ∀ t ∈ xs ++ l :: ys, holdsPark t = true → s.parkMx = true := by
    intro t ht hh
    have hle := le_total (f := fun t => (holdsPark t).toNat) ht
    rw [h.locked,hh] at hle
    exact Bool.eq_true_of_not_eq_false fun hm => by simp [hm] at hle
  have hk := act_keeps hs (hheld l (by simp))
  refine ⟨?_,?_,?_,?_,?_⟩
  · have hlk := h.locked
    have hw := hk.locked
    rw [total_split] at hlk
    rw [total_act,total_nil]
    omega
  · have hct := h.counted
    rw [total_split] at hct
    rw [total_act,total_nil]
    cases hh : holdsPark l with
    | false =>
      obtain ⟨hb,hn,hu⟩ := hk.outside hh
      have hu₀ : uncounted l = 0 := by
        by_contra hne
        rw [holds_of_uncounted (by omega)] at hh
        cases hh
      rw [hn,Parked.jobs,hb]
      rw [Parked.jobs] at hct
      omega
    | true =>
      have hz : total uncounted (xs ++ ys) = 0 := by
        refine total_eq_zero.mpr fun t ht => ?_
        by_contra hne
        have hle : total (fun t => (holdsPark t).toNat) (xs ++ l :: ys) ≤ 1 := by
          rw [h.locked]
          exact Bool.toNat_le _
        have := eq_zero_of_other hle ht (by simp [holds_of_uncounted (Nat.pos_of_ne_zero hne)])
        simp [hh] at this
      have := hk.counted (by omega)
      omega
  · intro b hb
    rcases batch_origin hs hb with ⟨a,ha,he⟩ | ⟨jobs,stamp,rfl,-,he⟩
    · rw [← he]
      exact Bound.kept hs hl (h.bound a ha)
    · rw [← he]
      exact Bound.kept hs hl hl
  · exact forall_act (fun t ht => told_kept hs hl (h.told t (mem_of_other ht))) (told_step hs hl)
      fun t ht => by cases ht
  · intro b hb hf
    rcases batch_origin hs hb with ⟨a,ha,he⟩ | ⟨jobs,stamp,rfl,rfl,he⟩
    case inr => exact .inr ⟨.park jobs stamp .held,by simp,by simp [raises,he]⟩
    rw [← he] at hf ⊢
    rcases flag_step hs (h.bound a ha) hf with hf₀ | hr
    case inr => exact .inr ⟨l',by simp,hr⟩
    rcases h.raised a ha hf₀ with hheld | hw
    · rcases held_lowered hs hheld with h1 | ⟨rfl,-⟩
      · exact .inl h1
      · refine .inr ⟨.pending (.scan s.parked.batches 0 false),by simp,?_⟩
        simpa [raises] using ⟨a,ha,rfl⟩
    · by_cases hp : s'.parked.parkHeld = true
      · exact .inl hp
      · refine .inr (exists_act hw fun hr => ?_)
        exact (raises_step hs hl (h.bound a ha) hf₀ hr).resolve_right hp

theorem entry_told (he : entry notifies s l = true) : Told notifies s l := by
  unfold entry at he
  split at he <;> try trivial
  · simpa [Told] using he
  · rename_i jobs stamp
    intro h hh
    have hk : h.notifies = notifies h.id ∧
        (h.notifies = false ∨ ∃ k ∈ s.hooks h.id, k.ours = true) := by
      simpa [taken,hh] using he
    exact ⟨hk.1,fun hn => hk.2.resolve_left (by simp [hn])⟩

theorem entry_outside (he : entry notifies s l = true) : holdsPark l = false ∧ uncounted l = 0 := by
  unfold entry at he
  split at he <;> first | exact ⟨rfl,rfl⟩ | cases he

theorem Inv.call (h : Inv notifies s ts) (he : entry notifies s l = true) :
    Inv notifies s (ts ++ [l]) where
  locked := by rw [total_call,h.locked,(entry_outside he).1]; rfl
  counted := by rw [total_call,(entry_outside he).2]; exact h.counted
  bound := h.bound
  told := forall_call h.told (entry_told he)
  raised b hb hf := (h.raised b hb hf).imp_right fun ⟨t,ht,hr⟩ => ⟨t,List.mem_append_left _ ht,hr⟩

theorem inv_reach {w : World (Shared J) (Thread J)}
    (h : (program notifies).Reach always newWorker w) : Inv notifies w.shared w.threads := by
  refine Program.reach_invariant inv_new (fun _ _ _ hi _ he => hi.call he) ?_ h
  intro s xs l ys c s' l' new hi _ hs
  obtain ⟨ha,rfl⟩ := step_act hs
  exact hi.act ha

theorem not_raises (h : inProgress t = false) (hold : Option Holder) : raises hold t = false := by
  cases t with
  | pause q pc | resume q pc =>
    cases pc with
    | none => rfl
    | some pc =>
      have hp : pc = .returned := by simpa [inProgress] using h
      simp [raises,hp,NotifyPc.tells]
  | park jobs stamp pc =>
    have hp : pc = .returned := by simpa [inProgress] using h
    simp [raises,hp]
  | pending pc => cases pc <;> first | rfl | cases h
  | _ => rfl

theorem not_uncounted (h : inProgress t = false) : uncounted t = 0 := by
  cases t with
  | park jobs stamp pc =>
    have hp : pc = .returned := by simpa [inProgress] using h
    rw [hp]
    rfl
  | _ => rfl

-- Only that thread steps.
def alone (i : ℕ) : Guard (Shared J) (Thread J) Choice := fun _ e => match e with
  | .call _ => false
  | .act j _ => j = i

def unheldJobs (paused : ℕ → Bool) (bs : List (ParkedBatch J)) : ℕ :=
  (jobsOf (bs.filter fun b => !b.stamp.held paused)).length

theorem unheldJobs_cons (paused : ℕ → Bool) (b : ParkedBatch J) (bs : List (ParkedBatch J)) :
    unheldJobs paused (b :: bs) =
      (if b.stamp.held paused then 0 else b.jobs.length) + unheldJobs paused bs := by
  cases hh : b.stamp.held paused <;> simp [unheldJobs,List.filter_cons,hh]

theorem unheldJobs_all {paused : ℕ → Bool} {bs : List (ParkedBatch J)}
    (h : ∀ b ∈ bs, b.stamp.held paused = false) : unheldJobs paused bs = (jobsOf bs).length := by
  rw [unheldJobs,List.filter_eq_self.mpr fun b hb => by simp [h b hb]]

-- A state in which pending, running alone, meets what the last Pause, Resume or park left.
structure Settled (s : Shared J) : Prop where
  counted : s.parked.nParked = s.parked.jobs.length
  held : s.parked.parkHeld = false → ∀ b ∈ s.parked.batches, b.stamp.held s.paused = false

theorem Settled.none (h : Settled s) (hn : s.parked.nParked = 0) :
    unheldJobs s.paused s.parked.batches = 0 := by
  have hz : jobsOf s.parked.batches = [] := List.length_eq_zero_iff.mp (h.counted.symm.trans hn)
  have hall : ∀ b ∈ s.parked.batches, b.jobs = [] := List.flatMap_eq_nil_iff.mp hz
  rw [unheldJobs,List.length_eq_zero_iff]
  exact List.flatMap_eq_nil_iff.mpr fun b hb => hall b (List.mem_filter.mp hb).1

def Counting (s s' : Shared J) : PendingPc J → Prop
  | .nParked => s'.parked.parkHeld = s.parked.parkHeld
  | .parkHeld n => n = s.parked.nParked ∧ s'.parked.parkHeld = s.parked.parkHeld
  | .scan todo n _ => n + unheldJobs s.paused todo = unheldJobs s.paused s.parked.batches
  | .store n | .unlock n | .returned n => n = unheldJobs s.paused s.parked.batches
  | _ => True

structure Solo (s : Shared J) (ts : List (Thread J)) (s' : Shared J) (ts' : List (Thread J)) : Prop where
  threads : ∃ pc, ts' = ts ++ [.pending pc] ∧ Counting s s' pc
  batches : s'.parked.batches = s.parked.batches
  nParked : s'.parked.nParked = s.parked.nParked
  paused : s'.paused = s.paused

theorem counting_step {s₀ : Shared J} (h : Settled s₀) {pc pc' : PendingPc J}
    (hs : pendingStep s pc = some (s',pc')) (hb : s.parked.batches = s₀.parked.batches)
    (hn : s.parked.nParked = s₀.parked.nParked) (hp : s.paused = s₀.paused) (hc : Counting s₀ s pc) :
    Counting s₀ s' pc' := by
  unfold pendingStep at hs
  split at hs
  · cases hs
    split
    · exact ⟨hn,hc⟩
    · rename_i hz
      have hz : s₀.parked.nParked = 0 := by omega
      simp only [Counting,hn,hz]
      exact (h.none hz).symm
  · rename_i n
    cases hs
    split
    · trivial
    · rename_i hf
      rw [hc.2,Bool.not_eq_true] at hf
      simp only [Counting]
      rw [unheldJobs_all (h.held hf),hc.1]
      exact h.counted
  · split at hs <;> cases hs
    trivial
  · cases hs
    simp [Counting,hb]
  · rename_i b todo n held
    cases hs
    simp only [Counting,unheldJobs_cons] at hc
    rw [hp]
    split
    · rename_i hh
      simpa [Counting,hh] using hc
    · rename_i hh
      rw [if_neg hh] at hc
      simp only [Counting]
      omega
  · rename_i n held
    cases hs
    have hc : n = unheldJobs s₀.paused s₀.parked.batches := by simpa [Counting,unheldJobs] using hc
    split <;> exact hc
  · cases hs
    exact hc
  · cases hs
    exact hc
  · cases hs

theorem solo_reach (h : Settled s) {w : World (Shared J) (Thread J)}
    (hr : (program notifies).Reach (alone ts.length) ⟨s,ts ++ [.pending .nParked]⟩ w) :
    Solo s ts w.shared w.threads := by
  have h0 : Solo s ts s (ts ++ [.pending .nParked]) := ⟨⟨.nParked,rfl,rfl⟩,rfl,rfl,rfl⟩
  refine Program.reach_invariant h0 ?_ ?_ hr
  · intro _ _ _ _ hok
    cases hok
  · intro s₁ xs l ys c s₂ l' new hi hok hs
    have hlen : xs.length = ts.length := of_decide_eq_true hok
    obtain ⟨pc,hts,hc⟩ := hi.threads
    obtain ⟨rfl,hlast⟩ := List.append_inj hts hlen
    obtain ⟨rfl,rfl⟩ := List.cons.inj hlast
    cases c with
    | hook => cases hs
    | go =>
      obtain ⟨⟨s₃,pc'⟩,hp,heq⟩ := Option.map_eq_some_iff.mp hs
      cases heq
      have hfix : s₂.parked.batches = s₁.parked.batches ∧ s₂.parked.nParked = s₁.parked.nParked := by
        unfold pendingStep at hp
        split at hp <;> try split at hp
        all_goals cases hp <;> exact ⟨rfl,rfl⟩
      exact ⟨⟨pc',rfl,counting_step h hp hi.batches hi.nParked hi.paused hc⟩,
        hfix.1.trans hi.batches,hfix.2.trans hi.nParked,(pending_frame hp).2.trans hi.paused⟩

theorem solo_step {w₀ : World (Shared J) (Thread J)} {pc pc' : PendingPc J}
    (hr : (program notifies).Reach (alone ts.length) w₀ ⟨s,ts ++ [.pending pc]⟩)
    (hs : pendingStep s pc = some (s',pc')) :
    (program notifies).Reach (alone ts.length) w₀ ⟨s',ts ++ [.pending pc']⟩ := by
  refine .tail hr (e := .act ts.length .go) (by simp [alone]) ?_
  have hp : (program notifies).step s (.pending pc) .go = some (s',.pending pc',[]) := by
    simp [program,step,hs]
  exact Program.next_of_step hp

theorem solo_scan {w₀ : World (Shared J) (Thread J)} (todo : List (ParkedBatch J)) (n : ℕ)
    (held : Bool)
    (hr : (program notifies).Reach (alone ts.length) w₀ ⟨s,ts ++ [.pending (.scan todo n held)]⟩) :
    ∃ n' held', (program notifies).Reach (alone ts.length) w₀
      ⟨s,ts ++ [.pending (.scan [] n' held')]⟩ := by
  induction todo generalizing n held with
  | nil => exact ⟨n,held,hr⟩
  | cons b todo ih =>
    by_cases hh : b.stamp.held s.paused = true
    · exact ih n true (solo_step hr (by simp [pendingStep,hh]))
    · exact ih (n + b.jobs.length) (held || mayHold b.stamp) (solo_step hr (by simp [pendingStep,hh]))

theorem solo_returns (hm : s.parkMx = false) :
    ∃ s' n, (program notifies).Reach (alone ts.length) ⟨s,ts ++ [.pending .nParked]⟩
      ⟨s',ts ++ [.pending (.returned n)]⟩ := by
  have h0 : (program notifies).Reach (alone ts.length) ⟨s,ts ++ [.pending .nParked]⟩
      ⟨s,ts ++ [.pending .nParked]⟩ := .refl
  by_cases hn : 0 < s.parked.nParked
  case neg => exact ⟨_,_,solo_step h0 (by rw [pendingStep,if_neg hn])⟩
  have h1 := solo_step h0 (by rw [pendingStep,if_pos hn])
  by_cases hh : s.parked.parkHeld = true
  case neg => exact ⟨_,_,solo_step h1 (by rw [pendingStep,if_neg hh])⟩
  have h2 := solo_step h1 (by rw [pendingStep,if_pos hh])
  have h3 := solo_step h2 (by rw [pendingStep,if_neg (by simp [hm])])
  obtain ⟨n,held,h4⟩ := solo_scan _ _ _ (solo_step h3 rfl)
  have h5 := solo_step h4 rfl
  cases held with
  | true => exact ⟨_,_,solo_step (solo_step h5 rfl) rfl⟩
  | false => exact ⟨_,_,solo_step h5 rfl⟩

theorem settled {w : World (Shared J) (Thread J)} (h : (program notifies).Reach always newWorker w)
    (hq : ∀ t ∈ w.threads, inProgress t = false) : Settled w.shared where
  counted := by
    have hi := inv_reach h
    have hz : total uncounted w.threads = 0 := total_eq_zero.mpr fun t ht => not_uncounted (hq t ht)
    have := hi.counted
    omega
  held hf b hb := by
    by_contra hh
    have hfl : flagged w.shared.paused b.stamp.hold = true := by
      rw [flagged_iff,Bool.or_eq_true]
      exact .inl (by simpa using hh)
    rcases (inv_reach h).raised b hb hfl with h1 | ⟨t,ht,hr⟩
    · simp [hf] at h1
    · simp [not_raises (hq t ht)] at hr

theorem held_left_out {w : World (Shared J) (Thread J)}
    (h : (program notifies).Reach always newWorker w)
    (hq : ∀ t ∈ w.threads, inProgress t = false) :
    (∀ b ∈ w.shared.parked.batches, b.stamp.held w.shared.paused = true →
      w.shared.parked.parkHeld = true) ∧
    (w.shared.parked.parkHeld = false →
      ∀ b ∈ w.shared.parked.batches, b.stamp.held w.shared.paused = false) ∧
    (∀ s' n, (program notifies).Reach (alone w.threads.length)
        ⟨w.shared,w.threads ++ [.pending .nParked]⟩ ⟨s',w.threads ++ [.pending (.returned n)]⟩ →
      n = (jobsOf (w.shared.parked.batches.filter fun b => !b.stamp.held w.shared.paused)).length) ∧
    (w.shared.parkMx = false → ∃ s' n, (program notifies).Reach (alone w.threads.length)
      ⟨w.shared,w.threads ++ [.pending .nParked]⟩ ⟨s',w.threads ++ [.pending (.returned n)]⟩) := by
  have hs := settled h hq
  refine ⟨fun b hb hh => ?_,hs.held,fun s' n hr => ?_,fun hm => solo_returns hm⟩
  · by_contra hf
    simp [hs.held (by simpa using hf) b hb] at hh
  · obtain ⟨pc,hts,hc⟩ := (solo_reach hs hr).threads
    have hpc : Thread.pending (.returned n) = .pending pc := by simpa using hts
    cases hpc
    exact hc

-- One job is parked and its queue is paused afterwards.
def pausedRun : List (Event (Thread ℕ) Choice) :=
  .call (.onPauseChange 0 (some ⟨true,0⟩)) :: .act 0 .go :: .call (.park [7] ⟨none,0,0,some ⟨0,
    true⟩⟩ .lock) :: (List.replicate 6 (.act 1 .go) : Events (Thread ℕ) Choice) ++
  .call (.pause 0 none) :: (List.replicate 4 (.act 2 .go) : Events (Thread ℕ) Choice) ++
  .act 2 (.hook ⟨true,0⟩) :: (List.replicate 3 (.act 2 .go) : Events (Thread ℕ) Choice)

theorem held_left_out_paused :
    ∃ w, (program fun _ => true).Reach always newWorker w ∧
      (∀ t ∈ w.threads, inProgress t = false) ∧
      w.shared.parked.jobs = [7] ∧ w.shared.parked.parkHeld = true ∧
      ∃ s', (program fun _ => true).Reach (alone w.threads.length)
        ⟨w.shared,w.threads ++ [.pending .nParked]⟩ ⟨s',w.threads ++ [.pending (.returned 0)]⟩ := by
  obtain ⟨w,hr,hp⟩ := Program.exists_reach_of_run (program fun _ => true) always newWorker pausedRun
    (fun w => w.threads.all (fun t => !inProgress t) && w.shared.paused 0 &&
      w.shared.parked.batches = [⟨[7],⟨none,0,0,some ⟨0,true⟩⟩⟩] && !w.shared.parkMx)
    (by decide +kernel)
  simp only [Bool.and_eq_true,decide_eq_true_eq,List.all_eq_true,Bool.not_eq_true'] at hp
  obtain ⟨⟨⟨hq,hpaused⟩,hb⟩,hm⟩ := hp
  obtain ⟨hheld,-,hn,hex⟩ := held_left_out hr hq
  obtain ⟨s',n,hreach⟩ := hex hm
  have hz := hn s' n hreach
  rw [hb] at hheld hz
  have hzero : n = 0 := by simpa [Stamp.held,hpaused] using hz
  subst hzero
  exact ⟨w,hr,hq,by simp [Parked.jobs,hb],
    hheld _ List.mem_cons_self (by simp [Stamp.held,hpaused]),s',hreach⟩

end Varmq.Pause
