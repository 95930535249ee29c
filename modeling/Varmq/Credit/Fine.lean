import Varmq.Credit.Resync

namespace Varmq.Credit

open Interleaving
open Varmq.Worker (Status)
open Varmq.Lifecycle (FinishPc LoopPc BatchPc)

-- A goroutine that has its signal still to send; `r` says whether a callback of the timer counts.
def strong (r : Bool) : Thread → Bool
  | .add .poke | .add .signal | .announce .poke | .announce .signal => true
  | .worker (.batch (.finish _)) _ | .worker (.batch .notify) _ => true
  | .distributed .unlock | .distributed .notify => true
  | .resync .signal => r
  | _ => false

-- A goroutine that has its poke still to make.
def poking : Thread → Bool
  | .add .poke | .announce .poke => true
  | _ => false

-- A timer or a callback that finds the items now in the storage. One that reads the hint, or arms,
-- does so only if the loop holds no pop whose result is not in the hint yet, and one that is about to
-- arm only while the source is not subscribed.
def rescues (src : Source) (popped : Bool) : Thread → Bool
  | .resync .timer | .resync .active | .resync (.ready .remaining) | .resync (.ready .pokes) => !popped
  | .resync (.ready (.dryAt p)) => !popped && p = src.pokes
  | .resync .sole | .resync .len | .resync .poke => true
  | .resync (.arm .load) => !popped && !src.subscribed
  | .resync (.arm .cas) => !popped
  | _ => false

def joins (r : Bool) : Thread → Bool
  | .worker (.loop _ _) _ | .worker (.batch _) _ | .worker (.broadcast _) _ => true
  | .add _ | .resync _ => true
  | .enqueue _ | .announce _ | .distributed _ => r
  | _ => false

-- What a step of a goroutine that is not the event loop does to what a blocked loop relies on.
structure Side (r : Bool) (s s' : Shared) (l l' : Thread) : Prop where
  signal : s.core.signal = true → s'.core.signal = true
  kept : strong r l = true → strong r l' = true ∨ s'.core.signal = true
  active : s'.core.status.isActive = true → s.core.status.isActive = true
  busy : s.core.busyWorkers ≤ s'.core.busyWorkers ∨ strong r l' = true
  limit : s'.core.concurrency = s.core.concurrency
  batch : s'.src.batch = s.src.batch
  remaining : s'.src.remaining = s.src.remaining
  pokes : s'.src.pokes = s.src.pokes ∨ s'.src.pokes = s.src.pokes + 1
  dryAt : s'.src.dryAt = s.src.dryAt ∨ s'.src.dryAt = none ∧ strong r l' = true
  poked : poking l = true → poking l' = true ∨ s'.src.pokes = s.src.pokes + 1
  told : r = true → s'.src.pokes = s.src.pokes ∨ strong r l' = true
  sole : s'.src.sole = true → s.src.sole = true ∨ strong r l' = true ∧ s'.src.dryAt = none
  stored : s'.src.storage ≤ s.src.storage ∨ poking l' = true ∨ (s.src.batch = false ∧ strong r l' = true) ∨
    l = .enqueue false
  lone : s.src.sole = true → s'.src.sole = true
  subscribed : s'.src.subscribed = s.src.subscribed ∨ l = .distributed .subscribed

variable {r : Bool} {s s' : Shared} {c : Choice} {l l' t : Thread} {new : List Thread}
  {xs ys ts : List Thread}

-- A step that changes nothing but the core, or a flag that no one here reads.
theorem Side.core {core : Lifecycle.Shared} (h1 : s.core.signal = true → core.signal = true)
    (h2 : strong r l = true → strong r l' = true ∨ core.signal = true)
    (h3 : core.status.isActive = true → s.core.status.isActive = true)
    (h4 : s.core.busyWorkers ≤ core.busyWorkers ∨ strong r l' = true)
    (h5 : core.concurrency = s.core.concurrency) (hp : poking l = true → poking l' = true) :
    Side r s { s with core } l l' :=
  ⟨h1,h2,h3,h4,h5,rfl,rfl,.inl rfl,.inl rfl,fun h => .inl (hp h),fun _ => .inl rfl,.inl,.inl (Nat.le_refl _),
    id,.inl rfl⟩

theorem Side.keep {src : Source} (h1 : src.batch = s.src.batch) (h2 : src.remaining = s.src.remaining)
    (h3 : src.pokes = s.src.pokes) (h4 : src.dryAt = s.src.dryAt) (h5 : src.sole = s.src.sole)
    (h6 : src.storage = s.src.storage)
    (h7 : src.subscribed = s.src.subscribed ∨ l = .distributed .subscribed)
    (hl : strong r l = true → strong r l' = true) (hp : poking l = true → poking l' = true) :
    Side r s { s with src } l l' :=
  ⟨id,fun h => .inl (hl h),id,.inl (Nat.le_refl _),rfl,h1,h2,.inl h3,.inl h4,fun h => .inl (hp h),
    fun _ => .inl h3,fun h => .inl (by rw [← h5]; exact h),.inl (Nat.le_of_eq h6),fun h => h5.trans h,h7⟩

theorem Side.still (hl : strong r l = true → strong r l' = true)
    (hp : poking l = true → poking l' = true) : Side r s s l l' :=
  .keep rfl rfl rfl rfl rfl rfl (.inl rfl) hl hp

theorem Side.fired (hp : poking l = true → poking l' = true) :
    Side r s { s with core.signal := true } l l' :=
  .core (fun _ => rfl) (fun _ => .inr rfl) id (.inl (Nat.le_refl _)) rfl hp

theorem Side.poke (hl : strong r l = true → strong r l' = true) (ho : r = true → strong r l' = true) :
    Side r s { s with src.pokes := s.src.pokes + 1 } l l' :=
  ⟨id,fun h => .inl (hl h),id,.inl (Nat.le_refl _),rfl,rfl,rfl,.inr rfl,.inl rfl,fun _ => .inr rfl,
    fun h => .inr (ho h),.inl,.inl (Nat.le_refl _),id,.inl rfl⟩

theorem Side.arm (pc : ArmPc) (hl : strong r l = true → strong r l' = true)
    (hp : poking l = true → poking l' = true) :
    Side r s { s with src := (armStep s.src pc).1 } l l' := by
  rcases armStep_src s.src pc with he | he
  · rw [he]
    exact .still hl hp
  · rw [he]
    exact .keep rfl rfl rfl rfl rfl rfl (.inl rfl) hl hp

theorem batch_active {a b : Lifecycle.Shared} {d : Lifecycle.Choice} {pc pc' : BatchPc}
    (hs : Lifecycle.batchStep a pc d = some (b,pc')) (h : b.status.isActive = true) :
    a.status.isActive = true := by
  cases pc with
  | finish pc =>
    cases d <;> simp only [Lifecycle.batchStep] at hs <;> try cases hs
    split at hs <;> cases hs <;> exact (finish_plain ‹_›).active h
  | check n i =>
    cases d <;> simp only [Lifecycle.batchStep] at hs <;> try cases hs
    all_goals
      split at hs <;> cases hs
      exact h
  | _ => cases d <;> cases hs <;> exact h

theorem strong_batch (pc : BatchPc) (look : Look) :
    strong r (.worker (.batch pc) look) = owesCore (.batch pc) := by
  cases pc <;> rfl

theorem core_side {t t' : Lifecycle.Thread} {look look' : Look} {d : Lifecycle.Choice}
    {core : Lifecycle.Shared} {new : List Lifecycle.Thread} (hj : joins r (.worker t look) = true)
    (hb : bystander (.worker t look) = true) (hp : Lifecycle.step s.core t d = some (core,t',new)) :
    Side r s { s with core } (.worker t look) (.worker t' look') := by
  have hplain : ∀ {u u' : Lifecycle.Thread}, strong r (.worker u look) = false → Plain s.core core →
      Side r s { s with core } (.worker u look) (.worker u' look') := by
    intro u u' hu he
    refine .core (fun h => he.signal.trans h) (fun h => ?_) he.active (.inl (Nat.le_of_eq he.busy.symm))
      he.limit fun h => by cases h
    rw [hu] at h
    cases h
  cases Lifecycle.step_act hp with
  | loop hq => exact hplain rfl (over_plain hb hq).1
  | @batch pc pc' s' hq =>
    have hb := batch_bystand hq
    refine .core hb.signal ?_ (batch_active hq) ?_ hb.limit fun h => by cases h
    · rw [strong_batch,strong_batch]
      exact hb.kept
    · rw [strong_batch]
      exact hb.busy
  | @broadcast pc pc' s' hq =>
    refine hplain rfl ?_
    cases pc <;> simp only [Lifecycle.broadcastStep] at hq
    case lock =>
      split at hq <;> cases hq
      exact ⟨rfl,rfl,rfl,id⟩
    all_goals
      cases hq <;> exact ⟨rfl,rfl,rfl,id⟩
  | _ => cases hj

theorem add_side {pc pc' : AddPc} (hs : addStep s pc = some (s',pc')) :
    Side r s s' (.add pc) (.add pc') := by
  cases pc with
  | store =>
    cases hs
    refine ⟨id,(fun h => by cases h),id,.inl (Nat.le_refl _),rfl,rfl,rfl,.inl rfl,.inl rfl,
      (fun h => by cases h),fun _ => .inl rfl,.inl,.inr ?_,id,.inl rfl⟩
    cases hb : s.src.batch with
    | true => exact .inl rfl
    | false => exact .inr (.inl ⟨rfl,rfl⟩)
  | poke =>
    cases hs
    exact .poke (fun _ => rfl) fun _ => rfl
  | signal =>
    cases hs
    exact .fired fun h => by cases h
  | returned => cases hs

theorem announce_side {pc pc' : AddPc} (hs : announceStep s pc = some (s',pc')) :
    Side r s s' (.announce pc) (.announce pc') := by
  cases pc with
  | store => cases hs
  | poke =>
    cases hs
    exact .poke (fun _ => rfl) fun _ => rfl
  | signal =>
    cases hs
    exact .fired fun h => by cases h
  | returned => cases hs

theorem resync_side {pc pc' : ResyncPc} (hs : resyncStep s pc = some (s',pc',new)) :
    Side r s s' (.resync pc) (.resync pc') := by
  cases pc with
  | ready pc =>
    obtain ⟨pc',-,heq⟩ := Option.map_eq_some_iff.mp hs
    cases heq
    exact .still (fun h => by cases h) fun h => by cases h
  | arm pc =>
    cases hs
    exact .arm pc (fun h => by cases h) fun h => by cases h
  | poke =>
    cases hs
    exact .poke (fun h => by cases h) id
  | signal =>
    cases hs
    exact .fired fun h => by cases h
  | timer =>
    cases hs
    exact .keep rfl rfl rfl rfl rfl rfl (.inl rfl) (fun h => by cases h) fun h => by cases h
  | _ => cases hs <;> exact .still (fun h => by cases h) fun h => by cases h

theorem distributed_side {pc pc' : DistributedPc} (hs : distributedStep s pc = some (s',pc')) :
    Side r s s' (.distributed pc) (.distributed pc') := by
  cases pc <;> simp only [distributedStep] at hs
  case lock =>
    split at hs <;> cases hs
    exact .keep rfl rfl rfl rfl rfl rfl (.inl rfl) (fun h => by cases h) fun h => by cases h
  case store =>
    cases hs
    exact ⟨id,(fun h => by cases h),id,.inl (Nat.le_refl _),rfl,rfl,rfl,.inl rfl,.inr ⟨rfl,rfl⟩,
      (fun h => by cases h),fun _ => .inl rfl,fun _ => .inr ⟨rfl,rfl⟩,.inl (Nat.le_refl _),
      (fun _ => rfl),.inl rfl⟩
  case unlock =>
    cases hs
    exact .keep rfl rfl rfl rfl rfl rfl (.inl rfl) (fun _ => rfl) fun h => by cases h
  case notify =>
    cases hs
    exact .fired fun h => by cases h
  case subscribed =>
    cases hs
    exact .keep rfl rfl rfl rfl rfl rfl (.inr rfl) (fun h => by cases h) fun h => by cases h
  all_goals
    cases hs <;> exact .keep rfl rfl rfl rfl rfl rfl (.inl rfl) (fun h => by cases h) fun h => by cases h

theorem act_side (hj : joins r l = true) (hb : bystander l = true) (hs : Act s c l s' l' new) :
    Side r s s' l l' := by
  cases hs with
  | core hc ha hp => exact core_side hj hb hp
  | @look t look look' src new hp =>
    unfold lookStep at hp
    split at hp <;> first | cases hb | cases hp
  | add hp => exact add_side hp
  | enqueue =>
    exact ⟨id,(fun h => by cases h),id,.inl (Nat.le_refl _),rfl,rfl,rfl,.inl rfl,.inl rfl,
      (fun h => by cases h),fun _ => .inl rfl,.inl,.inr (.inr (.inr rfl)),id,.inl rfl⟩
  | announce hp => exact announce_side hp
  | resync hp => exact resync_side hp
  | distributed hp => exact distributed_side hp
  | len hp => cases hj
  | other hp => cases hj

def Strong (r : Bool) (s : Shared) (ts : List Thread) : Prop :=
  s.core.signal = true ∨ ∃ t ∈ ts, strong r t = true

def popping : Look → Bool
  | .popped _ | .check _ | .mark _ | .wet _ => true
  | _ => false

-- The loop has popped and not yet handed out what it got.
def fetching : Look → Bool
  | .markArm _ _ => true
  | look => popping look

-- The loop is about to arm the timer.
def arming (s : Source) : Look → Bool
  | .popped _ | .check _ | .mark _ | .markArm .load _ => !s.subscribed
  | .markArm .cas _ => true
  | _ => false

-- The hint as the loop is about to leave it.
def Promise (s : Source) : Look → Prop
  | .popped p | .check p | .mark p => 0 < p.r ∨ p.g < s.pokes
  | .wet _ => True
  | _ => Wet s

def Saved (s : Shared) (ts : List Thread) (popped : Bool) : Prop :=
  ∃ t ∈ ts, rescues s.src popped t = true

-- Items in the storage are in the hint, or on their way into it, or the timer is going to find them.
def Found (r : Bool) (s : Shared) (ts : List Thread) (look : Look) : Prop :=
  Promise s.src look ∨ (∃ t ∈ ts, poking t = true) ∨
    r = true ∧ (arming s.src look = true ∨ Saved s ts (popping look))

-- While the source is not subscribed an item may land any time.
def Expects (r : Bool) (s : Source) : Prop := 0 < s.storage ∨ r = true ∧ s.subscribed = false

def Shown (r : Bool) (s : Shared) (ts : List Thread) (look : Look) : Prop :=
  s.core.status.isActive = true → s.src.sole = true → Expects r s.src → Found r s ts look

structure Covers (r : Bool) (s : Shared) (ts : List Thread) : Prop where
  wet : r = true → Wet s.src → Strong r s ts
  stored : 0 < s.src.storage → Strong r s ts ∨ r = true ∧ Saved s ts false

-- The loop may wait for a signal, whatever slots are free.
def Sure (r : Bool) (s : Shared) (ts : List Thread) : Prop :=
  s.core.status.isActive = true → s.src.sole = true → Covers r s ts

def Fine (r : Bool) (s : Shared) (ts : List Thread) : Prop :=
  s.core.busyWorkers < s.core.concurrency → Sure r s ts

-- An item that lands is announced or found, and so is one that waits when the flag is set.
structure Heeds (r : Bool) (s s' : Shared) (l : Thread) (ts : List Thread) (look : Look) : Prop where
  landed : l = .enqueue false → r = true ∧
    (s.core.status.isActive = true → s.src.sole = true → s.src.registered = true ∨ Found r s ts look)
  flagged : l = .distributed .subscribed → r = true ∧
    (s'.core.status.isActive = true → s'.src.sole = true → 0 < s'.src.storage → Found r s' ts look)

-- What the storage and the bind do so that nothing is missed: before Subscribe an item may land, and
-- the flag be set, only while something is going to find it.
structure Heard (r : Bool) (s s' : Shared) (l : Thread) (ts : List Thread) (look : Look) : Prop where
  landed : l = .enqueue false → r = true ∧ (s.src.sole = true →
    s.src.registered = true ∨ s.src.subscribed = false ∨ Found r s ts look)
  flagged : l = .distributed .subscribed → r = true ∧
    (s'.src.sole = true → 0 < s'.src.storage → Found r s' ts look)

theorem Heard.heeds {look : Look} (h : Heard r s s' l ts look) (hs : Shown r s ts look) :
    Heeds r s s' l ts look := by
  refine ⟨fun he => ⟨(h.landed he).1,fun hact hsole => ?_⟩,fun he => ⟨(h.flagged he).1,fun _ => (h.flagged he).2⟩⟩
  rcases (h.landed he).2 hsole with hreg | hsub | hf
  · exact .inl hreg
  · exact .inr (hs hact hsole (.inr ⟨(h.landed he).1,hsub⟩))
  · exact .inr hf

theorem Promise.wet {a : Source} {look : Look} (hp : popping look = false) (h : Promise a look) :
    Wet a := by
  cases look <;> first | exact h | cases hp

theorem Wet.promise {a : Source} {look : Look} (hp : popping look = false) (h : Wet a) :
    Promise a look := by
  cases look <;> first | exact h | cases hp

theorem fetching_popping {look : Look} (h : fetching look = false) : popping look = false := by
  cases look <;> first | exact h | cases h

theorem fetching_arming {a : Source} {look : Look} (h : fetching look = false) :
    arming a look = false := by
  cases look <;> first | rfl | cases h

theorem arming_congr {a b : Source} (h : b.subscribed = a.subscribed) (look : Look) :
    arming b look = arming a look := by
  unfold arming
  split <;> simp only [h]

-- A pop leads to a wet hint, or to the timer while the source is not subscribed.
theorem popping_found {look : Look} (hl : popping look = true) (hr : r = true)
    (hsub : s.src.subscribed = false) : Found r s ts look := by
  have harm : arming s.src look = true ∨ Promise s.src look := by
    cases look with
    | popped p | check p | mark p => exact .inl (by simp only [arming,hsub,Bool.not_false])
    | wet p => exact .inr trivial
    | _ => cases hl
  rcases harm with h | h
  · exact .inr (.inr ⟨hr,.inl h⟩)
  · exact .inl h

theorem poked_promise {a b : Source} {look : Look} (hk : Known a look) (hp : Past a)
    (hpokes : b.pokes = a.pokes + 1) (hd : b.dryAt = a.dryAt ∨ b.dryAt = none) : Promise b look := by
  have hwet : Wet b := by
    refine .inr fun he => ?_
    rcases hd with hd | hd
    · have hle := hp _ (by rw [← hd]; exact he)
      omega
    · rw [hd] at he
      cases he
  cases look with
  | popped p => exact .inr (by rw [hpokes]; exact Nat.lt_succ_of_le hk)
  | check p => exact .inr (by rw [hpokes]; exact Nat.lt_succ_of_le hk)
  | mark p => exact .inr (by rw [hpokes]; exact Nat.lt_succ_of_le hk)
  | wet p => trivial
  | _ => exact hwet

theorem Promise.congr {a b : Source} {look : Look} (h : Promise a look)
    (hr : b.remaining = a.remaining) (hp : b.pokes = a.pokes)
    (hd : b.dryAt = a.dryAt ∨ b.dryAt = none) : Promise b look := by
  have hwet : Wet a → Wet b := by
    rintro (hw | hw)
    · exact .inl (by rw [hr]; exact hw)
    · refine .inr fun he => ?_
      rcases hd with hd | hd
      · exact hw (by rw [← hd,← hp]; exact he)
      · rw [hd] at he
        cases he
  cases look with
  | popped p => rw [Promise,hp]; exact h
  | check p => rw [Promise,hp]; exact h
  | mark p => rw [Promise,hp]; exact h
  | wet p => trivial
  | _ => exact hwet h

theorem rescues_congr {a b : Source} {popped : Bool} (hp : b.pokes = a.pokes)
    (hsub : b.subscribed = a.subscribed) (t : Thread) : rescues b popped t = rescues a popped t := by
  unfold rescues
  split <;> simp only [hp,hsub]

theorem rescues_mono {a : Source} {popped : Bool} {t : Thread} (h : rescues a popped t = true) :
    rescues a false t = true := by
  unfold rescues at *
  split at h <;> simp_all

-- A callback goes on, pokes, or sees a wet hint.
theorem rescue_step {pc pc' : ResyncPc} {popped : Bool} (hb : s.src.batch = true)
    (hc : Clocked s.src (xs ++ .resync pc :: ys)) (ha : rescues s.src popped (.resync pc) = true)
    (hs : resyncStep s pc = some (s',pc',new)) (hact : s'.core.status.isActive = true)
    (hsole : s'.src.sole = true)
    (hn : 0 < s'.src.storage ∨ s'.src.subscribed = false ∧ popped = false) :
    Saved s' (xs ++ .resync pc' :: (ys ++ new)) popped ∨ popped = false ∧ Wet s'.src ∨
      s'.src.pokes = s.src.pokes + 1 := by
  have hgo : rescues s'.src popped (.resync pc') = true →
      Saved s' (xs ++ .resync pc' :: (ys ++ new)) popped := fun h => ⟨_,by simp,h⟩
  cases pc with
  | timer =>
    cases hs
    exact .inl (hgo ha)
  | active =>
    cases hs
    exact .inl (hgo (by rw [if_pos hact]; exact ha))
  | ready pc =>
    obtain ⟨q,hq,heq⟩ := Option.map_eq_some_iff.mp hs
    cases heq
    cases pc with
    | remaining =>
      cases hq
      by_cases hr : 0 < s.src.remaining
      · exact .inr (.inl ⟨by simpa [rescues] using ha,.inl hr⟩)
      · exact .inl (hgo (by rw [if_neg hr]; exact ha))
    | pokes =>
      cases hq
      exact .inl (hgo (by simpa [afterReady,rescues] using ha))
    | dryAt p =>
      cases hq
      obtain ⟨hpop,hp⟩ : popped = false ∧ p = s.src.pokes := by simpa [rescues] using ha
      by_cases hd : s.src.dryAt = some p
      · refine .inl (hgo ?_)
        rw [hd,decide_eq_false (not_not_intro rfl)]
        rfl
      · exact .inr (.inl ⟨hpop,.inr (hp ▸ hd)⟩)
    | done r => cases hq
  | sole =>
    cases hs
    exact .inl (hgo (by simp only [hsole,hb,Bool.and_self,if_true]; rfl))
  | len =>
    cases hs
    by_cases hpos : 0 < s.src.storage
    · exact .inl (hgo (by rw [if_pos hpos]; rfl))
    · obtain ⟨hsub,rfl⟩ := hn.resolve_left hpos
      exact .inl (hgo (by rw [if_neg hpos]; simp only [rescues,hsub,Bool.not_false,Bool.and_self]))
  | poke =>
    cases hs
    exact .inr (.inr rfl)
  | arm pc =>
    cases pc with
    | load =>
      cases hs
      obtain ⟨rfl,hsub⟩ : popped = false ∧ s.src.subscribed = false := by simpa [rescues] using ha
      exact .inl (hgo (by simp only [hsub,Bool.false_eq_true,if_false]; rfl))
    | cas =>
      cases hs
      exact .inl ⟨_,cas_timer hc (fun he => by cases he),ha⟩
  | signal | done => cases ha

theorem strong_own (ho : strong r l' = true) : Strong r s' (xs ++ l' :: (ys ++ new)) :=
  .inr ⟨l',by simp,ho⟩

theorem poking_strong (h : poking t = true) : strong r t = true := by
  unfold poking at h
  split at h <;> first | rfl | cases h

theorem Strong.step (h : Strong r s (xs ++ l :: ys))
    (hsig : s.core.signal = true → s'.core.signal = true)
    (hkept : strong r l = true → strong r l' = true ∨ s'.core.signal = true) :
    Strong r s' (xs ++ l' :: (ys ++ new)) := by
  rcases h with h | ⟨t,ht,ho⟩
  · exact .inl (hsig h)
  · rcases mem_split ht with ht | rfl
    · exact .inr ⟨t,mem_of_act ht,ho⟩
    · rcases hkept ho with ho | h
      · exact strong_own ho
      · exact .inl h

theorem Side.strong (hs : Side r s s' l l') (h : Strong r s (xs ++ l :: ys)) :
    Strong r s' (xs ++ l' :: (ys ++ new)) := h.step hs.signal hs.kept

theorem Side.hint (hs : Side r s s' l l') : s'.src.dryAt = s.src.dryAt ∨ s'.src.dryAt = none :=
  hs.dryAt.imp id And.left

theorem Side.past (hs : Side r s s' l l') (h : Past s.src) : Past s'.src := by
  intro d hd
  have hp : s.src.pokes ≤ s'.src.pokes := by
    rcases hs.pokes with hp | hp <;> omega
  rcases hs.hint with he | he
  · exact Nat.le_trans (h d (by rw [← he]; exact hd)) hp
  · rw [he] at hd
    cases hd

theorem Side.known {look : Look} (hs : Side r s s' l l') (hp : Past s.src) (hk : Known s.src look) :
    Known s'.src look := by
  have hle : s.src.pokes ≤ s'.src.pokes := by
    rcases hs.pokes with hp | hp <;> omega
  unfold Known at *
  split
  · refine ⟨Nat.le_trans hk.1 hle,fun d hd => ?_⟩
    rcases hs.hint with he | he
    · exact hk.2 d (by rw [← he]; exact hd)
    · rw [he] at hd
      cases hd
  · rcases hs.pokes with hq | hq
    · exact Promise.wet rfl (@Promise.congr s.src s'.src .idle hk hs.remaining hq hs.hint)
    · exact Promise.wet rfl (@poked_promise s.src s'.src .idle trivial hp hq hs.hint)
  · exact Nat.le_trans hk hle
  · exact Nat.le_trans hk hle
  · exact Nat.le_trans hk hle
  · exact Nat.le_trans hk hle
  · trivial

theorem announced (hb : s.src.batch = true) (hr : s.src.registered = true) :
    ∃ t ∈ xs ++ l' :: (ys ++ announcements s.src), poking t = true := by
  refine ⟨.announce .poke,?_,rfl⟩
  simp [announcements,hr,hb]

theorem lands_act (hs : Act s c (.enqueue false) s' l' new) : s' =
    { s with src.storage := s.src.storage + 1 } ∧ l' = .enqueue true ∧ new = announcements s.src := by
  cases hs with
  | enqueue => exact ⟨rfl,rfl,rfl⟩

theorem flag_act (hs : Act s c (.distributed .subscribed) s' l' new) : s' =
    { s with src.subscribed := true } ∧ l' = .distributed .subscribe ∧ new = [] := by
  cases hs with
  | distributed hp =>
    cases hp
    exact ⟨rfl,rfl,rfl⟩

theorem Saved.other {popped : Bool} (hl : ∀ a, rescues a popped l = false)
    (hp : s'.src.pokes = s.src.pokes) (hsub : s'.src.subscribed = s.src.subscribed)
    (h : Saved s (xs ++ l :: ys) popped) : Saved s' (xs ++ l' :: (ys ++ new)) popped := by
  obtain ⟨t,ht,ha⟩ := h
  rcases mem_split ht with ht | rfl
  · exact ⟨t,mem_of_act ht,by rw [rescues_congr hp hsub]; exact ha⟩
  · rw [hl] at ha
    cases ha

theorem Saved.act {popped : Bool} (hb : s.src.batch = true) (hc : Clocked s.src (xs ++ l :: ys))
    (hs : Act s c l s' l' new) (hact : s'.core.status.isActive = true) (hsole : s'.src.sole = true)
    (hn : 0 < s'.src.storage ∨ s'.src.subscribed = false ∧ popped = false)
    (hp : s'.src.pokes = s.src.pokes) (hsub : s'.src.subscribed = s.src.subscribed)
    (h : Saved s (xs ++ l :: ys) popped) :
    Saved s' (xs ++ l' :: (ys ++ new)) popped ∨ popped = false ∧ Wet s'.src := by
  obtain ⟨t,ht,ha⟩ := h
  rcases mem_split ht with ht | rfl
  · exact .inl ⟨t,mem_of_act ht,by rw [rescues_congr hp hsub]; exact ha⟩
  · cases hs with
    | resync hq =>
      rcases rescue_step hb hc ha hq hact hsole hn with h | h | h
      · exact .inl h
      · exact .inr h
      · omega
    | _ => cases ha

-- A step that is not one of a timer callback keeps what finds the items.
theorem Found.other {look : Look} (h : Found r s (xs ++ l :: ys) look)
    (hl : ∀ a popped, rescues a popped l = false) (hpoke : poking l = false)
    (hr : s'.src.remaining = s.src.remaining) (hp : s'.src.pokes = s.src.pokes)
    (hd : s'.src.dryAt = s.src.dryAt) (hsub : s'.src.subscribed = s.src.subscribed) :
    Found r s' (xs ++ l' :: (ys ++ new)) look := by
  rcases h with h | ⟨t,ht,ho⟩ | ⟨he,h⟩
  · exact .inl (h.congr hr hp (.inl hd))
  · rcases mem_split ht with ht | rfl
    · exact .inr (.inl ⟨t,mem_of_act ht,ho⟩)
    · rw [hpoke] at ho
      cases ho
  · rw [← arming_congr hsub] at h
    exact .inr (.inr ⟨he,h.imp_right (Saved.other (fun a => hl a _) hp hsub)⟩)

-- With no pop under way the items are in the hint, about to be poked, or left to the timer.
theorem Found.rest {look : Look} (h : Found r s ts look) (hl : fetching look = false) :
    Wet s.src ∨ Strong r s ts ∨ r = true ∧ Saved s ts false := by
  have hpop := fetching_popping hl
  rcases h with h | ⟨t,ht,ho⟩ | ⟨hr,h | h⟩
  · exact .inl (h.wet hpop)
  · exact .inr (.inl (.inr ⟨t,ht,poking_strong ho⟩))
  · rw [fetching_arming hl] at h
    cases h
  · rw [hpop] at h
    exact .inr (.inr ⟨hr,h⟩)

theorem Sure.side {look : Look} (h : Sure r s (xs ++ l :: ys)) (hs : Side r s s' l l')
    (ha : Act s c l s' l' new) (hb : s.src.batch = true) (hc : Clocked s.src (xs ++ l :: ys))
    (hlook : fetching look = false) (hh : Heeds r s s' l (xs ++ l :: ys) look) :
    Sure r s' (xs ++ l' :: (ys ++ new)) := by
  intro hact hsole
  by_cases ho : strong r l' = true
  · exact ⟨fun _ _ => strong_own ho,fun _ => .inl (strong_own ho)⟩
  · have hsole' : s.src.sole = true := (hs.sole hsole).resolve_right fun h => ho h.1
    have hcov := h (hs.active hact) hsole'
    have hdry : s'.src.dryAt = s.src.dryAt := hs.dryAt.resolve_right fun h => ho h.2
    have hpokes : r = true → s'.src.pokes = s.src.pokes := fun hr => (hs.told hr).resolve_right ho
    have hwet : r = true → Wet s'.src → Strong r s' (xs ++ l' :: (ys ++ new)) := by
      intro hr hw
      refine hs.strong (hcov.wet hr ?_)
      have hw' : Wet s.src := by
        unfold Wet at hw ⊢
        rw [hs.remaining,hdry,hpokes hr] at hw
        exact hw
      exact hw'
    refine ⟨hwet,fun hn => ?_⟩
    rcases hs.subscribed with hsub | rfl
    · have hold : 0 < s.src.storage → Strong r s' (xs ++ l' :: (ys ++ new)) ∨
          r = true ∧ Saved s' (xs ++ l' :: (ys ++ new)) false := by
        intro hn'
        rcases hcov.stored hn' with h | ⟨hr,h⟩
        · exact .inl (hs.strong h)
        · rcases h.act hb hc ha hact hsole (.inl hn) (hpokes hr) hsub with h | ⟨-,hw⟩
          · exact .inr ⟨hr,h⟩
          · exact .inl (hwet hr hw)
      rcases hs.stored with hle | hp | ⟨-,hp⟩ | rfl
      · exact hold (Nat.lt_of_lt_of_le hn hle)
      · exact .inl (strong_own (poking_strong hp))
      · exact .inl (strong_own hp)
      · obtain ⟨hr,hl⟩ := hh.landed rfl
        obtain ⟨rfl,rfl,rfl⟩ := lands_act ha
        rcases hl hact hsole with hreg | hf
        · obtain ⟨t,ht,hp⟩ := @announced s (.enqueue true) xs ys hb hreg
          exact .inl (.inr ⟨t,ht,poking_strong hp⟩)
        · rcases hf.rest hlook with hw | hst | ⟨-,hsv⟩
          · exact .inl (hwet hr hw)
          · exact .inl (hs.strong hst)
          · exact .inr ⟨hr,hsv.other (fun _ => rfl) rfl rfl⟩
    · obtain ⟨hr,hf⟩ := hh.flagged rfl
      obtain ⟨rfl,rfl,rfl⟩ := flag_act ha
      rcases (hf hact hsole hn).rest hlook with hw | hst | ⟨-,hsv⟩
      · exact .inl (hwet hr hw)
      · exact .inl (hst.step id fun h => by cases h)
      · exact .inr ⟨hr,hsv.other (fun _ => rfl) rfl rfl⟩

theorem Fine.side {look : Look} (h : Fine r s (xs ++ l :: ys)) (hs : Side r s s' l l')
    (ha : Act s c l s' l' new) (hb : s.src.batch = true) (hc : Clocked s.src (xs ++ l :: ys))
    (hlook : fetching look = false) (hh : Heeds r s s' l (xs ++ l :: ys) look) :
    Fine r s' (xs ++ l' :: (ys ++ new)) := by
  intro hfree
  rw [hs.limit] at hfree
  rcases hs.busy with hle | ho
  · exact (h (Nat.lt_of_le_of_lt hle hfree)).side hs ha hb hc hlook hh
  · exact fun _ _ => ⟨fun _ _ => strong_own ho,fun _ => .inl (strong_own ho)⟩

-- A bystander that leaves both the hint and the flag alone.
theorem Found.side {look : Look} (h : Found r s (xs ++ l :: ys) look) (hs : Side r s s' l l')
    (ha : Act s c l s' l' new) (hb : s.src.batch = true) (hc : Clocked s.src (xs ++ l :: ys))
    (hact : s'.core.status.isActive = true) (hsole : s'.src.sole = true)
    (hn : 0 < s'.src.storage ∨ s'.src.subscribed = false ∧ popping look = false)
    (hpokes : s'.src.pokes = s.src.pokes) (hsub : s'.src.subscribed = s.src.subscribed)
    (ho : poking l' = false) : Found r s' (xs ++ l' :: (ys ++ new)) look := by
  rcases h with h | ⟨t,ht,ht'⟩ | ⟨hr,h | h⟩
  · exact .inl (h.congr hs.remaining hpokes hs.hint)
  · rcases mem_split ht with ht | rfl
    · exact .inr (.inl ⟨t,mem_of_act ht,ht'⟩)
    · rcases hs.poked ht' with hl | hl
      · rw [ho] at hl
        cases hl
      · omega
  · exact .inr (.inr ⟨hr,.inl (by rw [arming_congr hsub]; exact h)⟩)
  · rcases h.act hb hc ha hact hsole hn hpokes hsub with h | ⟨hl,hw⟩
    · exact .inr (.inr ⟨hr,.inr h⟩)
    · exact .inl (hw.promise hl)

theorem Shown.side {look : Look} (h : Shown r s (xs ++ l :: ys) look) (hs : Side r s s' l l')
    (ha : Act s c l s' l' new) (hb : s.src.batch = true) (hc : Clocked s.src (xs ++ l :: ys))
    (hp : Past s.src) (hk : Known s.src look) (hsole' : popping look = true → s.src.sole = true)
    (hh : Heeds r s s' l (xs ++ l :: ys) look) : Shown r s' (xs ++ l' :: (ys ++ new)) look := by
  intro hact hsole hexp
  by_cases ho : poking l' = true
  · exact .inr (.inl ⟨l',by simp,ho⟩)
  have ho : poking l' = false := by simpa using ho
  rcases hs.pokes with hpokes | hpokes
  · by_cases hold : s.src.sole = true
    · rcases hs.subscribed with hsub | rfl
      · have hcase : Expects r s.src → (0 < s'.src.storage ∨
            s'.src.subscribed = false ∧ popping look = false) →
            Found r s' (xs ++ l' :: (ys ++ new)) look := fun he hn =>
          (h (hs.active hact) hold he).side hs ha hb hc hact hsole hn hpokes hsub ho
        rcases hexp with hn | ⟨hr,hf⟩
        · rcases hs.stored with hle | hl | ⟨hf,-⟩ | rfl
          · exact hcase (.inl (Nat.lt_of_lt_of_le hn hle)) (.inl hn)
          · rw [ho] at hl
            cases hl
          · rw [hb] at hf
            cases hf
          · obtain ⟨-,hl⟩ := hh.landed rfl
            obtain ⟨rfl,rfl,rfl⟩ := lands_act ha
            rcases hl hact hsole with hreg | hf
            · exact .inr (.inl (announced hb hreg))
            · exact hf.other (fun _ _ => rfl) rfl rfl rfl rfl rfl
        · cases hpop : popping look with
          | true => exact popping_found hpop hr hf
          | false => exact hcase (.inr ⟨hr,hsub.symm.trans hf⟩) (.inr ⟨hf,hpop⟩)
      · obtain ⟨hr,hf⟩ := hh.flagged rfl
        obtain ⟨rfl,rfl,rfl⟩ := flag_act ha
        rcases hexp with hn | ⟨-,hf'⟩
        · exact (hf hact hsole hn).other (fun _ _ => rfl) rfl rfl rfl rfl rfl
        · cases hf'
    · obtain ⟨-,hd⟩ := (hs.sole hsole).resolve_left hold
      have hlook : popping look = false := by
        by_contra hl
        exact hold (hsole' (by simpa using hl))
      exact .inl (Wet.promise hlook (.inr fun he => by rw [hd] at he; cases he))
  · exact .inl (poked_promise hk hp hpokes hs.hint)

end Varmq.Credit
