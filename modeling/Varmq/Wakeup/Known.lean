import Varmq.Wakeup.Signal

namespace Varmq.Wakeup

open Interleaving
open Varmq.Dispatch (Batch PendingPc Choice Base)

variable {cfg : Config} {s s' : Shared} {c : Choice} {l l' : Thread} {new ts ts' xs ys : List Thread}

def isLoop : Thread → ℕ
  | .loop _ => 1
  | _ => 0

-- A step of the dispatcher makes no work for itself.
theorem dispatch_shrinks {d d' : Dispatch.Shared} {pc pc' : Dispatch.LoopPc}
    {new : List Dispatch.Thread} (hs : Dispatch.loopStep d pc c = some (d',pc',new)) :
    (d'.status.isActive = true → d.status.isActive = true) ∧ d'.paused = d.paused ∧
    d'.claimed = d.claimed ∧ (d'.slots ≠ [] → d.slots ≠ []) ∧
    (d'.park.jobs ≠ [] → d.park.jobs ≠ []) := by
  cases pc with
  | pending pc =>
    obtain ⟨-,b,rfl⟩ := Dispatch.loop_pending_frame hs
    exact ⟨fun h => h,rfl,rfl,fun h => h,fun h => h⟩
  | plan pc =>
    obtain ⟨-,b,rfl⟩ := Dispatch.loop_plan_frame hs
    exact ⟨fun h => h,rfl,rfl,fun h => h,fun h => h⟩
  | unpark k =>
    cases c with
    | go =>
      simp only [Dispatch.loopStep,Option.some.injEq,Prod.mk.injEq] at hs
      obtain ⟨rfl,-,-⟩ := hs
      refine ⟨fun h => h,rfl,rfl,fun h => h,fun hn hz => hn ?_⟩
      have hperm := Park.unpark_perm d.pauses d.park k
      rw [hz] at hperm
      exact (List.append_eq_nil_iff.mp hperm.eq_nil).2
    | flag b => cases hs
    | pick n => cases hs
  | claim k =>
    cases c <;> simp only [Dispatch.loopStep] at hs <;> try cases hs
    split at hs <;> cases hs
    · rename_i hi
      exact ⟨fun _ => by rw [hi]; rfl,rfl,rfl,fun h => h,fun h => h⟩
    · exact ⟨fun h => h,rfl,rfl,fun h => h,fun h => h⟩
  | _ => cases c <;> simp only [Dispatch.loopStep] at hs <;> grind

theorem carries_loop {pc pc' : LoopPc} (hsig : s'.signal = s.signal) (hl : Live s' → Live s)
    (hc : s'.core.claimed = s.core.claimed) (hq : s'.core.slots ≠ [] → s.core.slots ≠ [])
    (hk : s'.core.park.jobs ≠ [] → s.core.park.jobs ≠ []) :
    Carries s (xs ++ .loop pc :: ys) s' (xs ++ .loop pc' :: (ys ++ new)) := by
  refine ⟨fun h => .inl (hl h),?_,.inl hc,fun h => .inl (hq h),fun h => .inl (hk h)⟩
  rintro (h | ⟨t,ht,ho⟩) -
  · exact .inl (hsig.trans h)
  · rcases mem_split ht with ht | rfl
    · exact .inr ⟨t,mem_of_act ht,ho⟩
    · cases ho

theorem carries_pc {pc pc' : LoopPc} :
    Carries s (xs ++ .loop pc :: ys) s (xs ++ .loop pc' :: (ys ++ new)) :=
  carries_loop rfl (fun h => h) rfl (fun h => h) fun h => h

theorem carries_on {d : Dispatch.Shared} {pc pc₁ : Dispatch.LoopPc} {new₁ : List Dispatch.Thread}
    {p q : LoopPc} (hs : Dispatch.loopStep s.core pc c = some (d,pc₁,new₁)) :
    Carries s (xs ++ .loop p :: ys) { s with core := d } (xs ++ .loop q :: (ys ++ new)) := by
  obtain ⟨h1,h2,h3,h4,h5⟩ := dispatch_shrinks hs
  exact carries_loop rfl (fun h => ⟨h1 h.1,h2 ▸ h.2⟩) h3 h4 h5

theorem carries_releaseWaiters {pc pc' : LoopPc} :
    Carries s (xs ++ .loop pc :: ys) { s with core := releaseWaiters s.core }
      (xs ++ .loop pc' :: (ys ++ new)) := by
  have h : (releaseWaiters s.core).paused = s.core.paused ∧
      ((releaseWaiters s.core).status.isActive = true → s.core.status.isActive = true) := by
    unfold releaseWaiters
    split
    · split
      · rename_i hr
        exact ⟨rfl,fun _ => by rw [hr]; rfl⟩
      · split
        · exact ⟨rfl,fun h => by cases h⟩
        · exact ⟨rfl,fun h => h⟩
    · exact ⟨rfl,fun h => h⟩
  obtain ⟨q,n,b,he⟩ := alike_releaseWaiters s.core
  refine carries_loop rfl (fun hl => ⟨h.2 hl.1,h.1 ▸ hl.2⟩) ?_ ?_ ?_ <;> simp only [he]
  · exact fun h => h
  · exact fun h => h

-- A busy count that is not the dispatcher's own is a batch, which ends with a signal.
theorem busy_owed {pc : LoopPc} (hc : Core s (xs ++ .loop pc :: ys))
    (h1 : total isLoop (xs ++ .loop pc :: ys) ≤ 1)
    (hz : Dispatch.busyOf (proj (.loop pc)) = 0) (hb : 0 < s.core.busyWorkers) :
    ∃ t ∈ xs ++ ys, owes t = true := by
  have hbusy := hc.base.charged.busy
  rw [List.map_append,List.map_cons,total_split,hz,← List.map_append] at hbusy
  rw [total_split] at h1
  have hne : ¬∀ u ∈ (xs ++ ys).map proj, Dispatch.busyOf u = 0 := by
    intro hall
    have := total_eq_zero.mpr hall
    omega
  push Not at hne
  obtain ⟨u,hu,hbu⟩ := hne
  obtain ⟨t,ht,rfl⟩ := List.mem_map.mp hu
  refine ⟨t,ht,?_⟩
  have hlt := le_total (f := isLoop) ht
  cases t with
  | loop pc =>
    simp only [isLoop] at hlt h1
    omega
  | batch b ran pc =>
    cases pc with
    | on pc => cases pc <;> first | rfl | exact absurd rfl hbu
    | _ => rfl
  | _ => exact absurd rfl hbu

theorem no_slots {d : Dispatch.Shared} {h : ℕ} (hst : Dispatch.Stocked d) (hq : d.slots ≠ [])
    (ho : h - d.offset = 0) : h < d.claimed.length := by
  have hlen := hst.suffix.length_le
  rw [List.length_map] at hlen
  have hpos := List.length_pos_iff.mpr hq
  simp only [Dispatch.Shared.offset] at ho
  omega

theorem safe_of_parts {h : ℕ} (hst : Dispatch.Stocked s.core) (hp : SafeParked s ts)
    (hb : SafeBeyond h s ts) (ho : h - s.core.offset = 0) : Safe s ts := by
  rintro hl (hq | hk)
  · exact hb hl (no_slots hst hq ho)
  · exact hp hl hk

theorem safeParked_empty (h : s.core.park.jobs = []) : SafeParked s ts :=
  fun _ hn => absurd h hn

theorem parked_empty (hst : Dispatch.Stocked s.core) (h : ¬0 < s.core.park.nParked) :
    s.core.park.jobs = [] := by
  have := hst.parked
  exact List.length_eq_zero_iff.mp (by rw [← this]; omega)

theorem pending_known {d : Dispatch.Shared} {pc pc' : PendingPc} (hst : Dispatch.Stocked s.core)
    (h : PendingKnown s ts pc) (hs : Dispatch.pendingStep s.core pc = some (d,pc'))
    (hc : Carries s ts { s with core := d } ts') : PendingKnown { s with core := d } ts' pc' := by
  cases pc with
  | parked =>
    cases hs
    split
    · assumption
    · exact fun _ => safeParked_empty (parked_empty hst ‹_›)
  | held n =>
    cases hs
    split
    · trivial
    · intro hn
      simp only [PendingKnown] at h
      omega
  | unheld =>
    cases hs
    intro hn
    by_cases hp : s.core.paused = true
    · exact fun hl => absurd hl (not_live_of_paused hp)
    · have hall : ∀ i, s.core.pauses i = false := fun _ => Bool.eq_false_iff.mpr hp
      refine safeParked_empty (List.length_eq_zero_iff.mp ?_)
      exact (Park.unheld_all (p := s.core.park) hall).symm.trans hn
  | paused n =>
    cases hs
    split
    case isTrue hp => exact fun _ => safe_of_not_live (not_live_of_paused hp)
    case isFalse => exact fun hn => (h hn).carry hc
  | head n =>
    cases hs
    exact ⟨fun hn => (h hn).carry hc,fun _ hlt => absurd hlt (Nat.lt_irrefl _)⟩
  | offset n m =>
    cases hs
    intro hn
    have ho : m - s.core.offset = 0 := by omega
    exact safe_of_parts hst ((h.1 (by omega)).carry hc) (h.2.carry hc) ho
  | done n => cases hs

theorem known_filled {k : ℕ} {buf : List ℕ} {cont : Bool} (h : buf = [] → cont = false → Safe s ts) :
    Known s ts (enter (Dispatch.filled k buf cont)) := by
  unfold Dispatch.filled
  split
  · exact h ‹_›
  · split <;> trivial

theorem known_again {cont : Bool} (h : cont = false → Safe s ts) :
    KnownOn s ts (Dispatch.again cont) := by
  cases cont
  · exact h rfl
  · trivial

theorem known_unparked {k : ℕ} {js : List ℕ} {st : Park.Stamp} (h : js = [] → SafeParked s ts) :
    Known s ts (enter (Dispatch.unparked k js st)) := by
  unfold Dispatch.unparked
  split
  · exact fun _ => h ‹_›
  · split <;> trivial

-- After a decrement of the processing count, through releaseWaiters or not.
theorem known_next {d : Dispatch.Shared} {pc : Dispatch.LoopPc} (h : KnownOn s ts pc) :
    Known s ts (if d.curProcessing = 0 then .releaseWaiters pc else .on pc) := by
  split <;> exact h

theorem on_known {d : Dispatch.Shared} {pc pc₁ : Dispatch.LoopPc} {new₁ : List Dispatch.Thread}
    (hcore : Core s (xs ++ .loop (.on pc) :: ys))
    (hk : KnownOn s (xs ++ .loop (.on pc) :: ys) pc) (h1 : pc ≠ .select) (h2 : pc ≠ .limit)
    (h3 : ∀ n, pc ≠ .pick n)
    (hs : Dispatch.loopStep s.core pc c = some (d,pc₁,new₁)) :
    Known { s with core := d } (xs ++ .loop (next d pc pc₁) :: (ys ++ new₁.flatMap spawned))
      (next d pc pc₁) := by
  have hst := hcore.base.stocked
  have hcar : ∀ q, Carries s (xs ++ .loop (.on pc) :: ys) { s with core := d }
      (xs ++ .loop q :: (ys ++ new₁.flatMap spawned)) := fun q => carries_on hs
  cases pc with
  | select => exact absurd rfl h1
  | limit => exact absurd rfl h2
  | active =>
    cases c <;> cases hs
    split
    case isTrue => trivial
    case isFalse ha => exact safe_of_not_live fun hl => ha hl.1
  | pending pc =>
    obtain ⟨rfl,⟨n,rfl,rfl,rfl⟩ | ⟨pc₂,hp,rfl⟩⟩ := Dispatch.loop_pending hs
    · split
      case isTrue => trivial
      case isFalse hn => exact (hk (by omega)).carry (hcar _)
    · exact pending_known hst hk hp (hcar _)
  | plan pc =>
    obtain ⟨rfl,⟨n,rfl,rfl,rfl⟩ | ⟨pc₂,hp,rfl⟩⟩ := Dispatch.loop_plan hs <;> trivial
  | pick n => exact absurd rfl (h3 n)
  | take k | count k =>
    cases c <;> cases hs
    trivial
  | reserve k =>
    cases c <;> simp only [Dispatch.loopStep] at hs <;> try cases hs
    split at hs
    · cases hs
      trivial
    · split at hs <;> cases hs
      · trivial
      · refine fun _ => safe_of_not_live fun hl => ?_
        have ha := hl.1
        cases hq : s.core.status <;> simp_all [Worker.Status.isActive]
  | claim k =>
    cases c <;> simp only [Dispatch.loopStep] at hs <;> try cases hs
    split at hs <;> cases hs <;> trivial
  | release k cont =>
    cases c <;> cases hs
    exact fun hn => (hk hn).carry (hcar _)
  | giveBack k cont =>
    cases c <;> cases hs
    exact known_next (known_again fun hn => (hk hn).carry (hcar _))
  | parked k =>
    cases c <;> cases hs
    split
    case isTrue => trivial
    case isFalse hn => exact fun _ => safeParked_empty (parked_empty hst hn)
  | unpark k =>
    cases c with
    | go =>
      simp only [Dispatch.loopStep,Option.some.injEq,Prod.mk.injEq] at hs
      obtain ⟨rfl,rfl,rfl⟩ := hs
      refine known_unparked fun hj => ?_
      have hkpos : 0 < k := hcore.base.charged.fits (.loop (.unpark k)) (by simp [proj])
      rcases (Dispatch.filed_unpark hcore.stamped.parked).2.2 hkpos hj with hp | hp
      · exact fun hl => absurd hl (not_live_of_paused hp)
      · exact safeParked_empty hp
    | flag b => cases hs
    | pick n => cases hs
  | fillPaused k buf =>
    cases c <;> cases hs
    split
    case isTrue hp => exact known_filled fun _ _ => safe_of_not_live (not_live_of_paused hp)
    case isFalse => exact fun hb => (hk hb).carry (hcar _)
  | fillHead k buf =>
    cases c <;> cases hs
    exact ⟨fun hb => (hk hb).carry (hcar _),fun _ hlt => absurd hlt (Nat.lt_irrefl _)⟩
  | fillOffset k buf n =>
    cases c <;> cases hs
    split
    case isTrue ho =>
      refine known_filled fun hb _ => ?_
      exact safe_of_parts hst ((hk.1 hb).carry (hcar _)) (hk.2.carry (hcar _)) ho
    case isFalse => exact fun hb => (hk.1 hb).carry (hcar _)
  | epoch k buf =>
    cases c <;> cases hs
    exact ⟨fun hb => (hk hb).carry (hcar _),rfl⟩
  | refuse k buf e =>
    cases c <;> simp only [Dispatch.loopStep] at hs <;> try cases hs
    split at hs <;> cases hs
    · rename_i hp
      exact fun _ => safe_of_not_live (not_live_of_paused hp)
    · exact ⟨fun hb => (hk.1 hb).carry (hcar _),hk.2⟩
  | dequeue k buf e =>
    cases c <;> simp only [Dispatch.loopStep] at hs <;> try cases hs
    split at hs
    · cases hs
    · split at hs <;> cases hs
      · exact fun hn => absurd hk.2 hn
      · exact fun hb => (hk.1 hb).carry (hcar _)
  | isClosed k buf j =>
    cases c <;> simp only [Dispatch.loopStep] at hs <;> try cases hs
    split at hs <;> cases hs
    · exact fun hb => (hk hb).carry (hcar _)
    · split
      · exact fun hb => absurd hb (by simp)
      · exact known_filled fun hb => absurd hb (by simp)
  | emptyPaused k buf e =>
    cases c <;> cases hs
    split
    case isTrue hp => exact known_filled fun _ _ => safe_of_not_live (not_live_of_paused hp)
    case isFalse => exact fun hn => (hk hn).carry (hcar _)
  | emptyRefusals k buf e =>
    cases c <;> cases hs
    exact known_filled fun _ hn => (hk (by simpa using hn)).carry (hcar _)
  | shorten m buf st cont =>
    cases c <;> cases hs
    refine known_next ?_
    cases st <;> trivial
  | stamp buf cont =>
    cases c <;> cases hs
    trivial
  | send buf st cont =>
    cases c <;> cases hs
    have ho : ∀ q, Owed s (xs ++ .loop q :: (ys ++ [Dispatch.Thread.batch
        ⟨buf.length,st,0,buf⟩ .stale].flatMap spawned)) :=
      fun q => .inr ⟨.batch ⟨buf.length,st,0,buf⟩ 0 (.on .stale),by simp [spawned],rfl⟩
    cases cont
    · exact safe_of_owed (ho _)
    · trivial

structure Awake (s : Shared) (ts : List Thread) : Prop where
  core : Core s ts
  pooled : Pooled s ts
  limit : 0 < s.core.concurrency
  stores : ∀ old safe, .tunePool (.store old safe) ∈ ts → 0 < safe
  loops : total isLoop ts ≤ 1
  known : ∀ pc, .loop pc ∈ ts → Known s ts pc

-- The length counts a node that is not there: with no batch to push it back, a TunePool has it.
theorem taking_of_counted {pc : LoopPc} (ha : Awake s (xs ++ .loop pc :: ys))
    (hf : inFlight (.loop pc) = 0) (hb : s.core.busyWorkers = 0) (hn : s.nodes = 0)
    (hl : 0 < s.len) : (xs ++ .loop pc :: ys).any taking = true := by
  have hcount := ha.pooled.count
  have hloops := ha.loops
  rw [total_split] at hcount hloops
  have hne : ¬∀ t ∈ xs ++ ys, inFlight t = 0 := by
    intro hall
    have := total_eq_zero.mpr hall
    omega
  push Not at hne
  obtain ⟨t,ht,hft⟩ := hne
  have hmem : t ∈ xs ++ .loop pc :: ys := mem_of_other ht
  have hlt := le_total (f := isLoop) ht
  cases t with
  | loop q =>
    simp only [isLoop] at hlt hloops
    omega
  | batch b ran q =>
    have hbusy := ha.core.base.charged.busy
    have hle := le_total (f := Dispatch.busyOf) (List.mem_map_of_mem (f := proj) hmem)
    cases q with
    | pushNode =>
      simp only [proj,Dispatch.busyOf] at hle
      omega
    | _ => exact absurd rfl hft
  | tunePool q =>
    cases q with
    | popLen shrink m => exact List.any_eq_true.mpr ⟨_,hmem,rfl⟩
    | _ => exact absurd rfl hft
  | prune q =>
    have hsp := ha.pooled.spares _ hmem
    cases q with
    | scanLen keep left =>
      obtain ⟨h1,h2⟩ := hsp
      omega
    | _ => exact absurd rfl hft
  | _ => exact absurd rfl hft

theorem busy_safe {pc pc' : LoopPc} (ha : Awake s (xs ++ .loop pc :: ys))
    (hz : Dispatch.busyOf (proj (.loop pc)) = 0) (hb : 0 < s.core.busyWorkers) :
    Safe s (xs ++ .loop pc' :: (ys ++ [])) := by
  obtain ⟨t,ht,ho⟩ := busy_owed ha.core ha.loops hz hb
  exact safe_of_owed (.inr ⟨t,mem_of_act ht,ho⟩)

theorem plan_len {n busy : ℕ} (ha : Awake s (xs ++ .loop (.planLen n busy) :: ys))
    (hok : keepsCounted ⟨s,xs ++ .loop (.planLen n busy) :: ys⟩ (.act xs.length c) = true)
    (hb : busy = 0) :
    s.core.busyWorkers = 0 ∧
      (worthSpawning n s.jobNanos (busy + s.len) = true ∨ 0 < s.nodes) := by
  subst hb
  have hbusy := (ha.known (.planLen n 0) (by simp)).2 rfl
  refine ⟨hbusy,?_⟩
  by_contra hnot
  obtain ⟨hw,hn⟩ := not_or.mp hnot
  have hlen : 0 < s.len := by
    rcases Nat.eq_zero_or_pos s.len with hz | hz
    · exact absurd (by simp [worthSpawning,hz]) hw
    · exact hz
  have hnodes : s.nodes = 0 := by omega
  have htake := taking_of_counted ha rfl hbusy hnodes hlen
  simp only [keepsCounted,getElem?_split,htake,hnodes,decide_true,Bool.true_and,Bool.not_not] at hok
  exact hw hok

theorem loop_known {pc pc' : LoopPc} (ha : Awake s (xs ++ .loop pc :: ys))
    (hok : keepsCounted ⟨s,xs ++ .loop pc :: ys⟩ (.act xs.length c) = true)
    (hs : loopStep s pc c = some (s',pc',new)) :
    Known s' (xs ++ .loop pc' :: (ys ++ new)) pc' := by
  have hk := ha.known pc (by simp)
  cases pc with
  | on pc =>
    rcases loop_on hs with ⟨rfl,-,rfl,rfl,rfl⟩ | ⟨rfl,rfl,rfl,rfl⟩ | ⟨h1,h2,h3,d,pc₁,new₁,hp,rfl,rfl,rfl⟩
    · trivial
    · exact fun hb => busy_safe ha rfl hb
    · exact on_known ha.core hk h1 h2 h3 hp
  | limit busy =>
    cases c <;> cases hs
    split
    case isTrue => trivial
    case isFalse hb =>
      have := ha.limit
      exact Safe.carry (hk (by omega)) carries_pc
  | planBusy n =>
    cases c <;> cases hs
    exact ⟨fun hb => busy_safe ha rfl hb,fun hb => hb⟩
  | planLen n busy =>
    cases c <;> cases hs
    exact ⟨fun hb => Safe.carry (hk.1 hb) carries_pc,plan_len ha hok⟩
  | planShares n busy alive =>
    cases c <;> cases hs
    exact ⟨fun hb => Safe.carry (hk.1 hb) carries_pc,hk.2⟩
  | planGrow n busy alive shares =>
    cases c <;> cases hs
    exact ⟨fun hb => Safe.carry (hk.1 hb) carries_pc,fun hb => (hk.2 hb).2⟩
  | popBack n busy alive shares grow =>
    cases c <;> simp only [loopStep] at hs <;> try cases hs
    split at hs
    · cases hs
    · split at hs <;> cases hs
      · cases grow with
        | true => trivial
        | false =>
          refine Safe.carry (hk.1 ?_) carries_pc
          have := hk.2
          rcases Nat.eq_zero_or_pos busy with hb | hb
          · rcases hk.2 hb with hg | hg
            · cases hg
            · omega
          · exact hb
      · trivial
  | popLen n alive shares | initPoolNode n alive shares | budgetNanos n alive shares =>
    cases c <;> cases hs
    trivial
  | budget n alive shares =>
    cases c <;> cases hs
    split <;> trivial
  | pushLen k cont | pushNode k cont =>
    cases c <;> cases hs
    exact fun hn => Safe.carry (hk hn) (carries_loop rfl (fun h => h) rfl (fun h => h) fun h => h)
  | releaseWaiters pc =>
    cases c <;> cases hs
    refine KnownOn.carry hk carries_releaseWaiters ?_
    obtain ⟨q,n,b,he⟩ := alike_releaseWaiters s.core
    simp only [he]

end Varmq.Wakeup
