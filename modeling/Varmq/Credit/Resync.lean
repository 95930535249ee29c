import Varmq.Lifecycle.Counters
import Varmq.Credit.Hint

namespace Varmq.Credit

open Interleaving
open Varmq.Worker (Status)
open Varmq.Lifecycle (LoopPc)

-- A pending timer, or a callback that has not found a reason to stop.
def armed (s : Source) : Thread → Bool
  | .resync .timer | .resync .active | .resync (.ready .remaining) | .resync (.ready .pokes) => true
  | .resync (.ready (.dryAt p)) => p = s.pokes
  | .resync .sole | .resync .len | .resync (.arm _) => true
  | _ => false

def Rested (s : Shared) (ts : List Thread) : Prop :=
  s.core.status.isActive = true → s.src.sole = true →
    Covered s ts ∨ Wet s.src ∨ ∃ t ∈ ts, armed s.src t = true

variable {s s' : Shared} {c : Choice} {l l' t : Thread} {new : List Thread} {xs ys ts : List Thread}

theorem armed_congr {a b : Source} (h : b.pokes = a.pokes) (t : Thread) : armed b t = armed a t := by
  unfold armed
  split <;> simp only [h]

theorem Rested.step (h : Rested s (xs ++ l :: ys)) (hc : Calm s s' l l') (hp : Past s.src)
    (ha : armed s.src l = true → Rested s' (xs ++ l' :: (ys ++ new))) :
    Rested s' (xs ++ l' :: (ys ++ new)) := by
  intro hact hsole
  by_cases ho : owes l' = true
  · exact .inl (covered_own ho)
  · have hact' := (hc.active hact).resolve_right ho
    have hsole' := (hc.sole hsole).resolve_right ho
    have hpokes : s'.src.pokes = s.src.pokes := hc.pokes.resolve_right fun hq => ho hq.2
    rcases h hact' hsole' with hcov | hwet | ⟨t,ht,harm⟩
    · exact .inl (hc.covered hcov)
    · exact .inr (.inl (hc.wet hp hwet))
    · rcases mem_split ht with ht | rfl
      · exact .inr (.inr ⟨t,mem_of_act ht,by rw [armed_congr hpokes]; exact harm⟩)
      · exact ha harm hact hsole

theorem Rested.call (h : Rested s ts) : Rested s (ts ++ [l]) := by
  intro hact hsole
  rcases h hact hsole with (hsig | ⟨t,ht,ho⟩) | hwet | ⟨t,ht,ha⟩
  · exact .inl (.inl hsig)
  · exact .inl (.inr ⟨t,List.mem_append_left _ ht,ho⟩)
  · exact .inr (.inl hwet)
  · exact .inr (.inr ⟨t,List.mem_append_left _ ht,ha⟩)

-- The timer of the CompareAndSwap that stored resyncing.
def Clocked (s : Source) (ts : List Thread) : Prop := s.resyncing = true → .resync .timer ∈ ts

theorem cas_timer {src : Source} (h : Clocked src (xs ++ l :: ys)) (hl : l ≠ .resync .timer) :
    .resync .timer ∈ xs ++ l' :: (ys ++ (armStep src .cas).2.2) := by
  simp only [armStep]
  split
  · rcases mem_split (h ‹_›) with hm | hm
    · exact mem_of_act hm
    · exact absurd hm.symm hl
  · simp

theorem Clocked.keep (h : Clocked s.src (xs ++ l :: ys)) (hl : l ≠ .resync .timer)
    (hr : s'.src.resyncing = s.src.resyncing) : Clocked s'.src (xs ++ l' :: (ys ++ new)) := by
  intro he
  rcases mem_split (h (by rw [← hr]; exact he)) with hm | hm
  · exact mem_of_act hm
  · exact absurd hm.symm hl

theorem Clocked.arm {pc : ArmPc} (h : Clocked s.src (xs ++ l :: ys)) (hl : l ≠ .resync .timer) :
    Clocked (armStep s.src pc).1 (xs ++ l' :: (ys ++ (armStep s.src pc).2.2)) := by
  cases pc with
  | load => exact @Clocked.keep s s l l' [] xs ys h hl rfl
  | cas => exact fun _ => cas_timer h hl

theorem look_resyncing {t : Lifecycle.Thread} {look look' : Look} {src : Source}
    (hp : lookStep s.src t look c = some (src,look',new)) :
    src.resyncing = s.src.resyncing ∨
      ∃ pc, src = (armStep s.src pc).1 ∧ new = (armStep s.src pc).2.2 := by
  have hcheck : ∀ {b}, checkStep s.src b look c = some (src,look',new) →
      src.resyncing = s.src.resyncing ∨
        ∃ pc, src = (armStep s.src pc).1 ∧ new = (armStep s.src pc).2.2 := by
    intro b hs
    unfold checkStep at hs
    split at hs
    · obtain ⟨pc,-,heq⟩ := Option.map_eq_some_iff.mp hs
      cases heq
      exact .inl rfl
    · split at hs <;> cases hs
      exact .inl rfl
    · obtain ⟨pc,-,heq⟩ := Option.map_eq_some_iff.mp hs
      cases heq
      exact .inl rfl
    · cases hs
      exact .inr ⟨_,rfl,rfl⟩
    · cases hs
  unfold lookStep at hp
  split at hp
  · split at hp <;> cases hp
    exact .inl rfl
  · split at hp <;> cases hp
    exact .inl rfl
  · exact hcheck hp
  · exact hcheck hp
  · unfold fetchStep at hp
    split at hp
    case h_2 =>
      obtain ⟨⟨src',h'⟩,hpop,heq⟩ := Option.map_eq_some_iff.mp hp
      cases heq
      simp only [popStep] at hpop
      split at hpop <;> cases hpop
      exact .inl rfl
    case h_7 =>
      cases hp
      exact .inr ⟨_,rfl,rfl⟩
    all_goals
      cases hp <;> exact .inl rfl
  · unfold nextStep at hp
    split at hp
    · cases hp
      exact .inl rfl
    · split at hp <;> cases hp <;> exact .inl rfl
    · split at hp <;> cases hp
      exact .inl rfl
    · split at hp <;> cases hp
      exact .inl rfl
    · cases hp
  · cases hp

theorem add_resyncing {pc pc' : AddPc} (hs : addStep s pc = some (s',pc')) :
    s'.src.resyncing = s.src.resyncing := by
  cases pc <;> cases hs <;> rfl

theorem Clocked.act (h : Clocked s.src (xs ++ l :: ys)) (hs : Act s c l s' l' new) :
    Clocked s'.src (xs ++ l' :: (ys ++ new)) := by
  cases hs with
  | core => exact h.keep (fun he => by cases he) rfl
  | look hp =>
    rcases look_resyncing hp with hr | ⟨pc,rfl,rfl⟩
    · exact h.keep (fun he => by cases he) hr
    · exact h.arm (fun he => by cases he)
  | add hp => exact h.keep (fun he => by cases he) (add_resyncing hp)
  | enqueue => exact h.keep (fun he => by cases he) rfl
  | announce hp => exact h.keep (fun he => by cases he) (add_resyncing (announce_add hp).1)
  | @resync pc pc' s' new hp =>
    cases pc with
    | timer =>
      cases hp
      exact fun he => by cases he
    | ready pc =>
      obtain ⟨pc',-,heq⟩ := Option.map_eq_some_iff.mp hp
      cases heq
      exact h.keep (fun he => by cases he) rfl
    | arm pc =>
      cases hp
      exact h.arm (fun he => by cases he)
    | _ => cases hp <;> exact h.keep (fun he => by cases he) rfl
  | @len pc pc' s' new hp =>
    unfold lenStep at hp
    split at hp
    · cases hp
      exact h.keep (fun he => by cases he) rfl
    · obtain ⟨pc',-,heq⟩ := Option.map_eq_some_iff.mp hp
      cases heq
      exact h.keep (fun he => by cases he) rfl
    · cases hp
      exact h.arm (fun he => by cases he)
    · cases hp
  | @other pc pc' s' hp =>
    have hr : s'.src.resyncing = s.src.resyncing := by
      cases pc <;> simp only [otherStep] at hp
      case bindLock => split at hp <;> cases hp; rfl
      case removeLock => split at hp <;> cases hp; rfl
      case remove =>
        split at hp
        · cases hp
          rfl
        · split at hp <;> cases hp <;> rfl
      all_goals cases hp <;> rfl
    exact h.keep (fun he => by cases he) hr
  | @distributed pc pc' s' hp =>
    have hr : s'.src.resyncing = s.src.resyncing := by
      cases pc <;> simp only [distributedStep] at hp
      case lock => split at hp <;> cases hp; rfl
      all_goals cases hp <;> rfl
    exact h.keep (fun he => by cases he) hr

-- A callback goes on, pokes, or finds a reason to stop.
theorem resync_rested {pc pc' : ResyncPc} (hb : s.src.batch = true) (hsub : s.src.subscribed = false)
    (ht : Clocked s.src (xs ++ .resync pc :: ys)) (ha : armed s.src (.resync pc) = true)
    (hs : resyncStep s pc = some (s',pc',new)) : Rested s' (xs ++ .resync pc' :: (ys ++ new)) := by
  intro hact hsole
  have hgo : armed s'.src (.resync pc') = true →
      Covered s' (xs ++ .resync pc' :: (ys ++ new)) ∨ Wet s'.src ∨
        ∃ t ∈ xs ++ .resync pc' :: (ys ++ new), armed s'.src t = true :=
    fun ha => .inr (.inr ⟨_,by simp,ha⟩)
  cases pc with
  | timer =>
    cases hs
    exact hgo rfl
  | active =>
    cases hs
    exact hgo (by rw [if_pos hact]; rfl)
  | ready pc =>
    obtain ⟨q,hq,heq⟩ := Option.map_eq_some_iff.mp hs
    cases heq
    cases pc with
    | remaining =>
      cases hq
      by_cases hr : 0 < s.src.remaining
      · exact .inr (.inl (.inl hr))
      · exact hgo (by rw [if_neg hr]; rfl)
    | pokes =>
      cases hq
      exact hgo (decide_eq_true rfl)
    | dryAt p =>
      cases hq
      have hp : p = s.src.pokes := of_decide_eq_true ha
      by_cases hd : s.src.dryAt = some p
      · exact hgo (by rw [hd,decide_eq_false (not_not_intro rfl)]; rfl)
      · exact .inr (.inl (.inr (hp ▸ hd)))
    | done r => cases hq
  | sole =>
    cases hs
    exact hgo (by simp only [hsole,hb,Bool.and_self,if_true]; rfl)
  | len =>
    cases hs
    by_cases hn : 0 < s.src.storage
    · exact .inl (covered_own (by rw [if_pos hn]; rfl))
    · exact hgo (by rw [if_neg hn]; rfl)
  | arm pc =>
    cases hs
    cases pc with
    | load => exact hgo (by simp only [hsub,Bool.false_eq_true,if_false]; rfl)
    | cas => exact .inr (.inr ⟨_,cas_timer ht (fun he => by cases he),rfl⟩)
  | poke | signal | done => cases ha

-- The event loop has received a signal and has not found out yet what the hint says.
def looking : LoopPc → Look → Bool
  | .active, .manager => true
  | .creditActive, _ => true
  | .creditReady, .armed => false
  | .creditReady, _ => true
  | .emit _, .emit _ | .emit _, .erred => false
  | .emit _, _ => true
  | _, _ => false

theorem rested_pass {k k' : ℕ} {pc pc' : LoopPc} {look look' : Look} {core : Lifecycle.Shared}
    (h : Rested s (xs ++ .worker (.loop k pc) look :: ys)) (hp : Passes s.core core) :
    Rested { s with core } (xs ++ .worker (.loop k' pc') look' :: (ys ++ new)) := by
  intro hact hsole
  rcases h (hp.active hact) hsole with hcov | hwet | ⟨t,ht,ha⟩
  · exact .inl (covered_act hp.signal (fun ho => by cases ho) hcov)
  · exact .inr (.inl hwet)
  · rcases mem_split ht with ht | rfl
    · exact .inr (.inr ⟨t,mem_of_act ht,ha⟩)
    · cases ha

-- A step of the loop ends its look with the worker inactive or the hint wet.
theorem loop_turns {k k' : ℕ} {pc pc' : LoopPc} {look look' : Look} {d : Lifecycle.Choice}
    {core : Lifecycle.Shared} {new : List Lifecycle.Thread}
    (ha : advance s (.loop k pc) look d = some look')
    (hp : Lifecycle.step s.core (.loop k pc) d = some (core,.loop k' pc',new)) :
    looking pc' look' = true ∨ loopOver pc' = true ∨ pc ≠ .select ∧ looking pc look = false ∨
      core.status.isActive = false ∨ look = .ready (.done true) := by
  obtain ⟨⟨s₁,pc₁,new₁⟩,hl,heq⟩ := Option.map_eq_some_iff.mp hp
  cases heq
  cases pc with
  | select =>
    cases d with
    | done =>
      simp only [Lifecycle.loopStep] at hl
      split at hl <;> cases hl
      exact .inr (.inl rfl)
    | signal credit =>
      simp only [Lifecycle.loopStep] at hl
      split at hl <;> cases hl
      cases ha
      cases credit <;> exact .inl rfl
    | _ => cases hl
  | active =>
    simp only [advance] at ha
    split at ha <;> cases ha
    rename_i hi
    rw [hi]
    exact .inr (.inr (.inl ⟨(fun he => by cases he),rfl⟩))
  | creditActive =>
    simp only [advance] at ha
    split at ha <;> cases ha
    cases d <;> simp only [Lifecycle.loopStep] at hl <;> cases hl
    by_cases hact : s.core.status.isActive = true
    · rw [if_pos hact]
      exact .inl rfl
    · exact .inr (.inr (.inr (.inl (by simpa using hact))))
  | creditReady =>
    cases look with
    | armed => exact .inr (.inr (.inl ⟨(fun he => by cases he),rfl⟩))
    | ready pc =>
      cases pc with
      | done r =>
        cases r with
        | true => exact .inr (.inr (.inr (.inr rfl)))
        | false => simp [advance] at ha
      | _ => simp [advance] at ha
    | _ => simp [advance] at ha
  | emit left =>
    cases look with
    | emit n => exact .inr (.inr (.inl ⟨(fun he => by cases he),rfl⟩))
    | erred => exact .inr (.inr (.inl ⟨(fun he => by cases he),rfl⟩))
    | _ => simp [advance] at ha
  | _ => exact .inr (.inr (.inl ⟨(fun he => by cases he),rfl⟩))

-- A look that leaves the hint as it was.
structure Untouched (a b : Source) : Prop where
  batch : b.batch = a.batch
  remaining : b.remaining = a.remaining
  pokes : b.pokes = a.pokes
  dryAt : b.dryAt = a.dryAt
  sole : b.sole = a.sole

theorem Untouched.same (a : Source) : Untouched a a := ⟨rfl,rfl,rfl,rfl,rfl⟩

theorem arm_untouched (a : Source) (pc : ArmPc) : Untouched a (armStep a pc).1 := by
  rcases armStep_src a pc with he | he <;> rw [he] <;> exact ⟨rfl,rfl,rfl,rfl,rfl⟩

namespace Untouched

variable {a b src : Source} {h : Look}

theorem past (hu : Untouched a b) (hp : Past a) : Past b := by
  intro d hd
  rw [hu.pokes]
  exact hp d (by rw [← hu.dryAt]; exact hd)

theorem wet (hu : Untouched a b) (hw : Wet a) : Wet b := by
  unfold Wet
  rw [hu.remaining,hu.dryAt,hu.pokes]
  exact hw

theorem calm (hu : Untouched s.src src) (hl : owes l = true → owes l' = true) :
    Calm s { s with src } l l' :=
  .keep rfl hu.batch hu.remaining hu.pokes hu.dryAt (fun he => by rw [← hu.sole]; exact he) hl

theorem known (hu : Untouched a b) (hk : Known a h) : Known b h := by
  unfold Known at *
  split
  · rw [hu.pokes,hu.dryAt]
    exact hk
  · exact hu.wet hk
  · rw [hu.pokes]
    exact hk
  · rw [hu.pokes]
    exact hk
  · rw [hu.pokes]
    exact hk
  · rw [hu.pokes]
    exact hk
  · trivial

theorem rested {k : ℕ} {pc : LoopPc} {look look' : Look} (hu : Untouched s.src src)
    (hp : Past s.src) (h : Rested s (xs ++ .worker (.loop k pc) look :: ys)) :
    Rested { s with src } (xs ++ .worker (.loop k pc) look' :: (ys ++ new)) :=
  h.step (hu.calm fun ho => by cases ho) hp fun ha => by cases ha

end Untouched

-- What a look makes of the hint, of what the loop knows and of what is left of its duty.
structure Looks (s : Shared) (src : Source) (k : ℕ) (pc : LoopPc) (look' : Look)
    (ts : List Thread) : Prop where
  past : Past src
  known : Known src look'
  rested : looking pc look' = false → Rested { s with src } ts

section Looking

variable {k : ℕ} {pc : LoopPc} {look look' : Look} {src : Source}

theorem Looks.untouched (hu : Untouched s.src src) (hp : Past s.src) (hk : Known src look')
    (hl : looking pc look' = false → looking pc look = false)
    (hr : looking pc look = false → Rested s (xs ++ .worker (.loop k pc) look :: ys)) :
    Looks s src k pc look' (xs ++ .worker (.loop k pc) look' :: (ys ++ new)) :=
  ⟨hu.past hp,hk,fun h => hu.rested hp (hr (hl h))⟩

-- The loop knows a wet hint when it sees one.
theorem ready_known {pc pc' : ReadyPc} (hp : Past s.src) (hk : Known s.src (.ready pc))
    (hs : readyStep s.src pc = some pc') : Known s.src (.ready pc') := by
  cases pc with
  | remaining =>
    cases hs
    split
    · exact .inl ‹_›
    · trivial
  | pokes =>
    cases hs
    exact ⟨Nat.le_refl _,hp⟩
  | dryAt p =>
    cases hs
    by_cases hd : s.src.dryAt = some p
    · rw [hd,decide_eq_false (not_not_intro rfl)]
      trivial
    · rw [decide_eq_true hd]
      refine .inr fun he => ?_
      have hle := hk.2 _ he
      have hge := hk.1
      exact hd (by rw [he,Nat.le_antisymm hle hge])
  | done r => cases hs

theorem rested_timer (h : .resync .timer ∈ ts) : Rested s ts :=
  fun _ _ => .inr (.inr ⟨_,h,rfl⟩)

theorem check_known (a : Source) (o : Option ArmPc) : Known a (afterCheck o) := by
  cases o <;> trivial

theorem check_looks {b : Bool} (hp : Past s.src) (hk : Known s.src look)
    (hsub : s.src.subscribed = false) (hc : Clocked s.src (xs ++ .worker (.loop k pc) look :: ys))
    (hready : ∀ q, looking pc (.ready q) = false → looking pc look = false)
    (harm : ∀ q, looking pc (.arm q) = false → looking pc look = false)
    (hr : looking pc look = false → Rested s (xs ++ .worker (.loop k pc) look :: ys))
    (hs : checkStep s.src b look c = some (src,look',new)) :
    Looks s src k pc look' (xs ++ .worker (.loop k pc) look' :: (ys ++ new)) := by
  unfold checkStep at hs
  split at hs
  · obtain ⟨q,hq,heq⟩ := Option.map_eq_some_iff.mp hs
    cases heq
    exact .untouched (.same _) hp (@ready_known s .remaining q hp trivial hq) (hready q) hr
  · split at hs <;> cases hs
    exact .untouched (.same _) hp trivial (harm _) hr
  · obtain ⟨q,hq,heq⟩ := Option.map_eq_some_iff.mp hs
    cases heq
    exact .untouched (.same _) hp (ready_known hp hk hq) (hready q) hr
  · rename_i q
    cases hs
    cases q with
    | load =>
      refine .untouched (.same _) hp ?_ ?_ hr
      · simp only [hsub]
        trivial
      · simp only [hsub]
        exact harm _
    | cas =>
      exact ⟨(arm_untouched s.src .cas).past hp,check_known _ _,
        fun _ => rested_timer (cas_timer hc fun he => by cases he)⟩
  · cases hs

theorem pop_untouched {a : Source} {want g r : ℕ} (hs : popStep a want g r = some (src,look')) :
    Untouched a src ∧ ∃ n r short, look' = .popped ⟨g,n,r,short,false⟩ := by
  simp only [popStep] at hs
  split at hs <;> cases hs
  exact ⟨⟨rfl,rfl,rfl,rfl,rfl⟩,_,_,_,rfl⟩

theorem after_known (a : Source) (p : Pop) (o : Option ArmPc) : Known a (afterArm p o) := by
  cases o with
  | some pc => trivial
  | none =>
    simp only [afterArm]
    split <;> trivial

theorem fetch_looks {left : ℕ} (hp : Past s.src) (hk : Known s.src look)
    (hsub : s.src.subscribed = false)
    (hc : Clocked s.src (xs ++ .worker (.loop k (.emit left)) look :: ys))
    (hr : looking (.emit left) look = false → Rested s (xs ++ .worker (.loop k (.emit left)) look :: ys))
    (hs : fetchStep s.src left look c = some (src,look',new)) :
    Looks s src k (.emit left) look' (xs ++ .worker (.loop k (.emit left)) look' :: (ys ++ new)) := by
  unfold fetchStep at hs
  split at hs
  · cases hs
    exact .untouched (.same _) hp (Nat.le_refl _) (fun he => by cases he) hr
  · obtain ⟨⟨a,h⟩,hpop,heq⟩ := Option.map_eq_some_iff.mp hs
    cases heq
    obtain ⟨hu,n,r,short,rfl⟩ := pop_untouched hpop
    refine .untouched hu hp ?_ (fun he => by cases he) hr
    rw [Known,hu.pokes]
    exact hk
  · cases hs
    exact .untouched (.same _) hp hk (fun he => by cases he) hr
  · cases hs
    exact ⟨hp,hk,fun he => by cases he⟩
  · cases hs
    refine .untouched (.same _) hp ?_ ?_ hr
    · split
      · exact hk
      · trivial
    · split <;> exact id
  · cases hs
    refine ⟨fun d hd => ?_,trivial,fun he => by cases he⟩
    cases hd
    exact hk
  · rename_i q p
    cases hs
    cases q with
    | load =>
      refine .untouched (.same _) hp ?_ ?_ hr
      · simp only [hsub]
        trivial
      · simp only [hsub]
        exact id
    | cas =>
      exact ⟨(arm_untouched s.src .cas).past hp,after_known _ _ _,
        fun _ => rested_timer (cas_timer hc fun he => by cases he)⟩
  · cases hs
    refine ⟨(fun d hd => by cases hd),trivial,fun _ _ _ => .inr (.inl (.inr fun he => by cases he))⟩
  · cases hs
    exact .untouched (.same _) hp trivial (fun _ => rfl) hr
  · cases hs

theorem next_looks (hp : Past s.src) (hpc : ∀ h, looking pc h = false)
    (hr : looking pc look = false → Rested s (xs ++ .worker (.loop k pc) look :: ys))
    (hs : nextStep s.src look c = some (src,look',new)) :
    Looks s src k pc look' (xs ++ .worker (.loop k pc) look' :: (ys ++ new)) := by
  have hu : Untouched s.src src ∧ ∀ a, Known a look' := by
    unfold nextStep at hs
    split at hs
    · cases hs
      refine ⟨.same _,fun a => ?_⟩
      split <;> trivial
    · split at hs <;> cases hs <;> exact ⟨⟨rfl,rfl,rfl,rfl,rfl⟩,fun _ => trivial⟩
    · split at hs <;> cases hs
      exact ⟨⟨rfl,rfl,rfl,rfl,rfl⟩,fun _ => trivial⟩
    · split at hs <;> cases hs
      exact ⟨⟨rfl,rfl,rfl,rfl,rfl⟩,fun _ => trivial⟩
    · cases hs
  exact .untouched hu.1 hp (hu.2 src) (fun _ => hpc look) hr

theorem look_looks (hb : s.src.batch = true) (hp : Past s.src) (hk : Known s.src look)
    (hsub : s.src.subscribed = false) (hc : Clocked s.src (xs ++ .worker (.loop k pc) look :: ys))
    (hr : looking pc look = false → Rested s (xs ++ .worker (.loop k pc) look :: ys))
    (hs : lookStep s.src (.loop k pc) look c = some (src,look',new)) :
    Looks s src k pc look' (xs ++ .worker (.loop k pc) look' :: (ys ++ new)) := by
  unfold lookStep at hs
  split at hs
  · rename_i heq
    cases heq
    split at hs <;> cases hs
    rename_i hn
    refine ⟨hp,trivial,fun _ _ hsole => absurd ?_ hn⟩
    rw [hb,Bool.and_true]
    exact hsole
  · rename_i heq
    cases heq
    split at hs <;> cases hs
    exact ⟨hp,trivial,fun he => by cases he⟩
  · rename_i heq
    cases heq
    exact check_looks hp hk hsub hc (fun _ he => by cases he) (fun _ he => by cases he) hr hs
  · rename_i heq
    cases heq
    exact check_looks hp hk hsub hc (fun _ _ => rfl) (fun _ _ => rfl) hr hs
  · rename_i heq
    cases heq
    exact fetch_looks hp hk hsub hc hr hs
  · rename_i heq
    cases heq
    exact next_looks hp (fun _ => rfl) hr hs
  · cases hs

end Looking

structure At (s : Shared) (ts : List Thread) (pc : LoopPc) (look : Look) : Prop where
  known : Known s.src look
  rested : looking pc look = false → Rested s ts

-- Neither a TunePool nor a bind of a distributed queue.
def stays : Thread → Bool
  | .worker (.tunePool _ _) _ | .distributed _ => false
  | _ => true

structure Resynced (s : Shared) (ts : List Thread) : Prop where
  core : Lifecycle.Inv s.core (ts.map coreOf)
  batch : s.src.batch = true
  subscribed : s.src.subscribed = false
  stays : ∀ t ∈ ts, stays t = true
  past : Past s.src
  clocked : Clocked s.src ts
  loops : ∀ k pc look, .worker (.loop k pc) look ∈ ts → loopOver pc = false → At s ts pc look

theorem stays_bystander (h : stays l = true) (hl : serving l = false) : bystander l = true := by
  unfold bystander
  split
  · unfold serving at hl
    simpa using hl
  · cases h
  · rfl

theorem bystander_serves (hb : bystander l = true) (hs : Act s c l s' l' new) :
    serving l' = false := by
  cases hs with
  | @core t t' look look' d core new hc ha hp =>
    cases Lifecycle.step_act hp with
    | loop hp => simp only [serving,(over_plain hb hp).2,Bool.not_true]
    | _ => rfl
  | @look t look look' src new hp =>
    cases t with
    | loop k pc => simpa [serving,bystander] using hb
    | _ => rfl
  | _ => rfl

theorem stays_act (h : stays l = true) (hs : Act s c l s' l' new) :
    stays l' = true ∧ ∀ t ∈ new, stays t = true := by
  have htimer : (∀ t ∈ new, t = .resync .timer) → ∀ t ∈ new, stays t = true :=
    fun hn t ht => by rw [hn t ht]; rfl
  cases hs with
  | @core t t' look look' d core new hc ha hp =>
    obtain ⟨htl,htn⟩ := Lifecycle.tunes_step hp
    have hstays : ∀ u look, Lifecycle.tunes u = false → stays (.worker u look) = true := by
      intro u look hu
      cases u <;> first | rfl | cases hu
    refine ⟨hstays _ _ ?_,fun u hu => ?_⟩
    · rw [htl]
      cases t <;> first | rfl | cases h
    · obtain ⟨v,hv,rfl⟩ := List.mem_map.mp hu
      exact hstays _ _ (htn v hv)
  | @look t look look' src new hp =>
    refine ⟨?_,htimer (lookStep_new hp)⟩
    cases t <;> first | rfl | cases h
  | enqueue =>
    refine ⟨rfl,fun t ht => ?_⟩
    unfold announcements at ht
    split at ht
    · rw [List.mem_singleton.mp ht]
      rfl
    · cases ht
  | resync hp => exact ⟨rfl,htimer (resync_new hp).2⟩
  | len hp => exact ⟨rfl,htimer (len_new hp).2⟩
  | distributed hp => cases h
  | _ => exact ⟨rfl,fun t ht => by cases ht⟩

theorem At.bystand {pc : LoopPc} {look : Look} (h : At s (xs ++ l :: ys) pc look)
    (hc : Calm s s' l l') (hp : Past s.src)
    (ha : armed s.src l = true → Rested s' (xs ++ l' :: (ys ++ new))) :
    At s' (xs ++ l' :: (ys ++ new)) pc look :=
  ⟨hc.known hp h.known,fun hl => (h.rested hl).step hc hp ha⟩

theorem Resynced.armed_step (h : Resynced s (xs ++ l :: ys)) (hs : Act s c l s' l' new)
    (ha : armed s.src l = true) : Rested s' (xs ++ l' :: (ys ++ new)) := by
  cases hs with
  | resync hp => exact resync_rested h.batch h.subscribed h.clocked ha hp
  | _ => cases ha

theorem advance_known {t : Lifecycle.Thread} {look look' : Look} {d : Lifecycle.Choice}
    (hk : Known s.src look) (ha : advance s t look d = some look') : Known s.src look' := by
  unfold advance at ha
  split at ha
  all_goals
    first
      | (cases ha <;> trivial)
      | (split at ha <;> cases ha; trivial)

theorem loop_at {k : ℕ} {pc : LoopPc} {look : Look}
    (h : Resynced s (xs ++ .worker (.loop k pc) look :: ys)) (ho : loopOver pc = false)
    (hs : Act s c (.worker (.loop k pc) look) s' l' new) :
    Past s'.src ∧ ∀ k' pc' look', l' = .worker (.loop k' pc') look' → loopOver pc' = false →
      At s' (xs ++ l' :: (ys ++ new)) pc' look' := by
  have hat := h.loops k pc look (by simp) ho
  cases hs with
  | @core t t' _ look' d core new hc ha hp =>
    refine ⟨h.past,?_⟩
    rintro k' pc' _ ⟨⟩ ho'
    refine ⟨@advance_known s _ _ _ _ hat.known ha,fun hl => ?_⟩
    have hpass : pc ≠ .select → Passes s.core core := by
      intro hne
      obtain ⟨⟨s₁,pc₁,new₁⟩,hstep,heq⟩ := Option.map_eq_some_iff.mp hp
      cases heq
      exact loop_passes hne hstep
    rcases loop_turns ha hp with he | he | ⟨hne,hl'⟩ | hi | rfl
    · rw [hl] at he
      cases he
    · rw [ho'] at he
      cases he
    · exact rested_pass (hat.rested hl') (hpass hne)
    · intro hact
      rw [hi] at hact
      cases hact
    · exact fun _ _ => .inr (.inl hat.known)
  | look hp =>
    have hl := look_looks h.batch h.past hat.known h.subscribed h.clocked hat.rested hp
    refine ⟨hl.past,?_⟩
    rintro k' pc' look' ⟨⟩ -
    exact ⟨hl.known,hl.rested⟩

theorem Resynced.act (h : Resynced s (xs ++ l :: ys)) (hs : Act s c l s' l' new) :
    Resynced s' (xs ++ l' :: (ys ++ new)) := by
  have hstay := h.stays l (by simp)
  obtain ⟨hl',hnew⟩ := stays_act hstay hs
  have hkind := act_kind (fun pc he => by rw [he] at hstay; cases hstay) hs
  have hpast : Past s'.src := by
    cases hserve : serving l with
    | true =>
      obtain ⟨k,pc,look,rfl,ho⟩ := serving_loop hserve
      exact (loop_at h ho hs).1
    | false => exact (act_calm (stays_bystander hstay hserve) hs).past h.past
  refine ⟨core_act h.core hs,hkind.batch.trans h.batch,hkind.subscribed.trans h.subscribed,
    forall_act (fun t ht => h.stays t (mem_of_other ht)) hl' hnew,hpast,h.clocked.act hs,
    serving_act h.core hs (fun hf => bystander_serves (stays_bystander hstay hf) hs) ?_ ?_ ?_⟩
  · rintro k pc look rfl ho
    exact (loop_at h ho hs).2
  · intro hf k pc look hm ho
    exact (h.loops k pc look (mem_of_other hm) ho).bystand (act_calm (stays_bystander hstay hf) hs) h.past
      (h.armed_step hs)
  · refine fun hi => ⟨trivial,fun _ hact => ?_⟩
    rw [hi] at hact
    cases hact

theorem Resynced.call (h : Resynced s ts) (he : entry s l = true) : Resynced s (ts ++ [l]) := by
  have hl : Credit.stays l = true ∧ ∀ k pc look, l ≠ .worker (.loop k pc) look := by
    unfold entry at he
    split at he
    · rename_i t
      cases t <;> first | cases he | exact ⟨rfl,fun k pc look hn => by cases hn⟩
    · exact ⟨rfl,fun k pc look hn => by cases hn⟩
    · exact ⟨rfl,fun k pc look hn => by cases hn⟩
    · exact ⟨rfl,fun k pc look hn => by cases hn⟩
    · exact ⟨rfl,fun k pc look hn => by cases hn⟩
    · exact ⟨rfl,fun k pc look hn => by cases hn⟩
    · cases he
  refine ⟨core_call h.core he,h.batch,h.subscribed,forall_call h.stays hl.1,h.past,
    fun hr => List.mem_append_left _ (h.clocked hr),fun k pc look hm ho => ?_⟩
  rcases List.mem_append.mp hm with hm | hm
  · have hat := h.loops k pc look hm ho
    exact ⟨hat.known,fun hl => (hat.rested hl).call⟩
  · exact absurd (List.mem_singleton.mp hm).symm (hl.2 k pc look)

theorem started_core (n : ℕ) (signal : Bool) :
    Lifecycle.Inv (newCore n signal) [.loop 0 .select] :=
  ⟨by constructor <;> simp [newCore,Lifecycle.Weights.zero,Lifecycle.weights,
    Lifecycle.loopWeights,Lifecycle.Weights.add],fun t ht => by
      rw [List.mem_singleton.mp ht]
      trivial⟩

theorem resynced_reach {n m : ℕ} {w : World Shared Thread}
    (h : program.Reach always (persistent n m) w) : Resynced w.shared w.threads := by
  refine Program.reach_invariant ?_ (fun _ _ _ h _ he => h.call he)
    (fun _ _ _ _ _ _ _ _ h _ hs => h.act (step_act hs)) h
  refine ⟨started_core n true,rfl,rfl,fun t ht => ?_,(fun d hd => by cases hd),(fun hr => by cases hr),
    fun k pc look hm ho => ?_⟩
  · rw [List.mem_singleton.mp ht]
    rfl
  · cases List.mem_singleton.mp hm
    exact ⟨trivial,fun _ _ _ => .inl (.inl rfl)⟩

-- The worker is idle or running, this source is its only one, ready() is 0, the event loop is blocked
-- on an empty signal channel and no other goroutine is about to signal it.
structure Blocked (s : Shared) (ts : List Thread) : Prop where
  active : s.core.status = .idle ∨ s.core.status = .running
  sole : s.src.sole = true
  dry : ¬Wet s.src
  loop : ∃ k look, .worker (.loop k .select) look ∈ ts
  signal : s.core.signal = false
  quiet : ∀ t ∈ ts, owes t = false

theorem resync_never_lost {n m : ℕ} {w : World Shared Thread}
    (h : program.Reach always (persistent n m) w) (hb : Blocked w.shared w.threads) :
    ∃ t ∈ w.threads, armed w.shared.src t = true := by
  obtain ⟨k,look,hm⟩ := hb.loop
  have hat := (resynced_reach h).loops k _ look hm rfl
  have hact : w.shared.core.status.isActive = true := by
    rcases hb.active with he | he <;> rw [he] <;> rfl
  rcases hat.rested rfl hact hb.sole with (hs | ⟨t,ht,ho⟩) | hw | ha
  · rw [hb.signal] at hs
    cases hs
  · rw [hb.quiet t ht] at ho
    cases ho
  · exact absurd hw hb.dry
  · exact ha

def acts (cs : List Choice) : List (Event Thread Choice) := cs.map (.act 0)

-- The first pass over an empty storage.
def emptyPass : List (Event Thread Choice) := acts
  [.core (.signal true),.go,.core .go,.go,.go,.go,.core (.flag true),.core .go,.core .go,.core .go,
    .core .go,.core .go,.go,.pop 0,.go,.go,.go,.go,.go,.core (.flag false),.core .go,.core .go,
    .core .go,.core .go,.core .go,.core .go,.core .go,.go,.go,.go,.core (.flag false)]

theorem resync_never_lost_idle : ∃ w, program.Reach always (persistent 1 0) w ∧
    Blocked w.shared w.threads ∧ ∃ t ∈ w.threads, armed w.shared.src t = true := by
  obtain ⟨w,hw,hp⟩ := Program.exists_reach_of_run program always (persistent 1 0) emptyPass
    (fun w => w.shared.core.status = .idle && w.shared.src.sole && w.shared.src.remaining = 0 &&
      w.shared.src.dryAt = some w.shared.src.pokes && !w.shared.core.signal &&
      w.threads.contains eventLoop && w.threads.all fun t => !owes t) (by decide)
  simp only [Bool.and_eq_true,decide_eq_true_eq,List.contains_iff_mem,List.all_eq_true,
    Bool.not_eq_true'] at hp
  obtain ⟨⟨⟨⟨⟨⟨hidle,hsole⟩,hr⟩,hd⟩,hsig⟩,hm⟩,hq⟩ := hp
  have hdry : ¬Wet w.shared.src := by
    rintro (hw | hw)
    · exact absurd hr (Nat.ne_of_gt hw)
    · exact hw hd
  have hb : Blocked w.shared w.threads := ⟨.inl hidle,hsole,hdry,⟨0,.idle,hm⟩,hsig,hq⟩
  exact ⟨w,hw,hb,resync_never_lost hw hb⟩

end Varmq.Credit
