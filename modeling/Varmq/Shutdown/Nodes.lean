import Varmq.Shutdown.Basic
import Varmq.Lifecycle.Launch

namespace Varmq.Shutdown

open Interleaving
open Varmq.Worker (Status)
open Varmq.Lifecycle (LoopPc BatchPc StartPc RestartPc weights busyOf)
open Varmq.Wakeup (Config)

variable {cfg : Config} {s s' : Shared} {l l' : Thread} {c : Choice} {new xs ys ts : List Thread}

def Hand.held : Hand → List ℕ
  | .unlinked id | .node id | .freeLen id _ | .idleLen id | .minIdle id _ => [id]
  | .keep id | .drop id | .counted id => [id]
  | _ => []

-- The nodes a TunePool or a Prune has taken out of the pool and not sent their Stop payload yet.
def removed : Thread → List ℕ
  | .tunePool (.popLen _ _ id) | .tunePool (.stop _ _ id) => [id]
  | .prune (.scan _ dropped) | .prune (.scanLen _ dropped) | .prune (.stop dropped) => dropped
  | .prune (.put _ dropped) => dropped
  | _ => []

def owned : Thread → List ℕ
  | .call _ h => h.held
  | t => removed t

def removing (id : ℕ) (t : Thread) : ℕ := (removed t).count id

def owns (id : ℕ) (t : Thread) : ℕ := (owned t).count id

-- Each goroutine of the pool is stopped or its node is in one place.
def Accounted (s : Shared) (ts : List Thread) : Prop :=
  ∀ id, s.spawned.count id = s.stops.count id + s.idle.count id + total (owns id) ts

-- A step moves nodes between the places and leaves every count right.
def Moves (s s' : Shared) (before after : List ℕ) : Prop :=
  ∀ id, s'.spawned.count id + (s.stops.count id + s.idle.count id + before.count id) =
    s.spawned.count id + (s'.stops.count id + s'.idle.count id + after.count id)

theorem popBack_moves {h : Hand} (hs : popBack s = some (s',h)) : Moves s s' [] h.held := by
  unfold popBack at hs
  split at hs
  · cases hs
  · split at hs <;> cases hs
    · exact fun _ => rfl
    · rename_i id rest hi
      intro i
      simp only [hi,Hand.held,List.count_cons,List.count_nil]
      omega

theorem initPoolNode_moves {o : Option ℕ} {h : Hand} (hs : initPoolNode s o = some (s',h)) :
    Moves s s' [] h.held := by
  cases o with
  | none =>
    cases hs
    intro i
    simp only [Hand.held,List.count_cons,List.count_nil]
    omega
  | some id =>
    simp only [initPoolNode] at hs
    split at hs <;> cases hs
    intro i
    simp only [Hand.held,List.count_cons,List.count_nil]
    omega

theorem hand_moves {p : Point} {h h' : Hand} (hs : handStep cfg s p h c = some (s',h')) :
    Moves s s' h.held h'.held := by
  unfold handStep at hs
  split at hs
  case h_1 =>
    split at hs
    case h_4 => cases hs
    all_goals exact popBack_moves hs
  case h_2 =>
    split at hs
    · exact initPoolNode_moves hs
    · cases hs
  case h_3 =>
    split at hs
    · exact initPoolNode_moves hs
    · cases hs
  case h_5 =>
    split at hs <;> cases hs <;> exact fun _ => rfl
  case h_6 =>
    split at hs <;> cases hs
    exact fun _ => rfl
  case h_7 =>
    cases hs
    split <;> exact fun _ => rfl
  case h_9 =>
    cases hs
    split <;> exact fun _ => rfl
  case h_11 =>
    cases hs
    intro i
    simp only [Hand.held,List.count_cons,List.count_nil]
    omega
  case h_12 =>
    cases hs
    intro i
    simp only [Hand.held,List.count_cons,List.count_nil]
    omega
  case h_13 =>
    cases hs
    split <;> exact fun _ => rfl
  case h_14 => cases hs
  all_goals
    cases hs
    exact fun _ => rfl

theorem tunePool_moves {pc pc' : TunePc} (hs : tunePoolStep cfg s pc = some (s',pc')) :
    Moves s s' (removed (.tunePool pc)) (removed (.tunePool pc')) := by
  cases pc with
  | active n | load n | store old safe | len shrink m =>
    cases hs
    repeat' split
    all_goals exact fun _ => rfl
  | popBack shrink m =>
    simp only [tunePoolStep] at hs
    split at hs
    · cases hs
    · split at hs <;> cases hs
      · exact fun _ => rfl
      · rename_i id rest hi
        intro i
        simp only [hi,removed,List.count_cons,List.count_nil]
        omega
  | stop shrink m id =>
    cases hs
    intro i
    simp only [removed,List.count_cons,List.count_nil]
    omega
  | returned r => cases hs
  | _ =>
    cases hs
    exact fun _ => rfl

-- What a Prune has still to look at is in the pool.
def Scanning (s : Shared) : Thread → Prop
  | .prune (.scan todo _) | .prune (.scanLen todo _) => ∀ id, todo.count id ≤ s.idle.count id
  | _ => True

theorem prune_moves {pc pc' : PrunePc} (hs : pruneStep cfg s pc c = some (s',pc'))
    (hi : Scanning s (.prune pc)) :
    Moves s s' (removed (.prune pc)) (removed (.prune pc')) ∧ Scanning s' (.prune pc') := by
  unfold pruneStep at hs
  split at hs
  case h_2 =>
    cases hs
    split <;> exact ⟨fun _ => rfl,trivial⟩
  case h_3 keep _ =>
    split at hs <;> cases hs
    exact ⟨fun _ => rfl,fun id => (List.take_sublist _ _).count_le id⟩
  case h_4 =>
    cases hs
    exact ⟨fun _ => rfl,fun id => Nat.le_trans List.count_le_count_cons (hi id)⟩
  case h_5 id todo dropped =>
    cases hs
    refine ⟨fun i => ?_,fun i => ?_⟩
    · have := hi i
      simp only [removed,List.count_append,List.count_cons,List.count_nil,List.count_erase] at this ⊢
      split <;> simp_all
      omega
    · have := hi i
      simp only [List.count_cons,List.count_erase] at this ⊢
      omega
  case h_6 =>
    cases hs
    exact ⟨fun _ => rfl,hi⟩
  case h_8 =>
    cases hs
    refine ⟨fun i => ?_,trivial⟩
    simp only [removed,List.count_cons]
    omega
  case h_11 => cases hs
  all_goals
    cases hs
    exact ⟨fun _ => rfl,trivial⟩

def popping : Thread → ℕ
  | .call _ (.unlinked _) | .tunePool (.popLen _ _ _) => 1
  | .prune (.scan _ _) | .prune (.scanLen _ _) => 1
  | _ => 0

-- Only the holder of popMx takes nodes out of the pool.
structure Locks (s s' : Shared) (before after : ℕ) : Prop where
  popMx : (after = before ∧ s'.popMx = s.popMx) ∨
    (before = 0 ∧ after = 1 ∧ s.popMx = false ∧ s'.popMx = true) ∨
    (before = 1 ∧ after = 0 ∧ s'.popMx = false)
  kept : before = 0 → s.popMx = true → ∀ id, s.idle.count id ≤ s'.idle.count id

theorem Locks.off {n m : ℕ} (hm : m = n) (hp : s'.popMx = s.popMx) (hi : s'.idle = s.idle) :
    Locks s s' n m :=
  ⟨.inl ⟨hm,hp⟩,fun _ _ _ => Nat.le_of_eq (by rw [hi])⟩

theorem popBack_locks {t : Lifecycle.Thread} {h : Hand} (hs : popBack s = some (s',h)) :
    Locks s s' 0 (popping (.call t h)) := by
  unfold popBack at hs
  split at hs
  · cases hs
  · rename_i hp
    split at hs <;> cases hs
    · exact .off rfl rfl rfl
    · exact ⟨.inr (.inl ⟨rfl,rfl,by simpa using hp,rfl⟩),fun _ h => absurd h hp⟩

theorem initPoolNode_locks {t : Lifecycle.Thread} {o : Option ℕ} {h : Hand}
    (hs : initPoolNode s o = some (s',h)) : Locks s s' 0 (popping (.call t h)) := by
  cases o with
  | none =>
    cases hs
    exact .off rfl rfl rfl
  | some id =>
    simp only [initPoolNode] at hs
    split at hs <;> cases hs
    exact .off rfl rfl rfl

theorem hand_locks {p : Point} {t : Lifecycle.Thread} {h h' : Hand}
    (hs : handStep cfg s p h c = some (s',h')) :
    Locks s s' (popping (.call t h)) (popping (.call t h')) := by
  unfold handStep at hs
  split at hs
  case h_1 =>
    split at hs
    case h_4 => cases hs
    all_goals exact popBack_locks hs
  case h_2 =>
    split at hs
    · exact initPoolNode_locks hs
    · cases hs
  case h_3 =>
    split at hs
    · exact initPoolNode_locks hs
    · cases hs
  case h_4 =>
    cases hs
    exact ⟨.inr (.inr ⟨rfl,rfl,rfl⟩),fun h => by cases h⟩
  case h_5 =>
    split at hs <;> cases hs <;> exact .off rfl rfl rfl
  case h_6 =>
    split at hs <;> cases hs
    exact .off rfl rfl rfl
  case h_7 =>
    cases hs
    split <;> exact .off rfl rfl rfl
  case h_9 =>
    cases hs
    split <;> exact .off rfl rfl rfl
  case h_11 =>
    cases hs
    exact ⟨.inl ⟨rfl,rfl⟩,fun _ _ _ => List.count_le_count_cons⟩
  case h_13 =>
    cases hs
    split <;> exact .off rfl rfl rfl
  case h_14 => cases hs
  all_goals
    cases hs
    exact .off rfl rfl rfl

theorem tunePool_locks {pc pc' : TunePc} (hs : tunePoolStep cfg s pc = some (s',pc')) :
    Locks s s' (popping (.tunePool pc)) (popping (.tunePool pc')) := by
  cases pc with
  | active n | load n | store old safe | len shrink m =>
    cases hs
    repeat' split
    all_goals exact .off rfl rfl rfl
  | popBack shrink m =>
    simp only [tunePoolStep] at hs
    split at hs
    · cases hs
    · rename_i hp
      split at hs <;> cases hs
      · exact .off rfl rfl rfl
      · exact ⟨.inr (.inl ⟨rfl,rfl,by simpa using hp,rfl⟩),fun _ h => absurd h hp⟩
  | popLen shrink m id =>
    cases hs
    exact ⟨.inr (.inr ⟨rfl,rfl,rfl⟩),fun h => by cases h⟩
  | returned r => cases hs
  | _ =>
    cases hs
    exact .off rfl rfl rfl

theorem prune_locks {pc pc' : PrunePc} (hs : pruneStep cfg s pc c = some (s',pc')) :
    Locks s s' (popping (.prune pc)) (popping (.prune pc')) := by
  unfold pruneStep at hs
  split at hs
  case h_2 =>
    cases hs
    split <;> exact .off rfl rfl rfl
  case h_3 =>
    split at hs
    · cases hs
    · rename_i hp
      cases hs
      exact ⟨.inr (.inl ⟨rfl,rfl,by simpa using hp,rfl⟩),fun _ h => absurd h hp⟩
  case h_5 =>
    cases hs
    exact ⟨.inl ⟨rfl,rfl⟩,fun h => by cases h⟩
  case h_7 =>
    cases hs
    exact ⟨.inr (.inr ⟨rfl,rfl,rfl⟩),fun h => by cases h⟩
  case h_11 => cases hs
  all_goals
    cases hs
    exact .off rfl rfl rfl

def Hand.isNode : Hand → Bool
  | .node _ => true
  | _ => false

def Hand.popped : Hand → Bool
  | .empty | .missed | .unlinked _ | .node _ => true
  | _ => false

def Hand.pushing : Hand → Bool
  | .node _ | .keep _ | .counted _ | .released => true
  | _ => false

def Hand.freeing : Hand → Bool
  | .empty | .missed | .unlinked _ => false
  | _ => true

def Hand.clearing : Hand → Bool
  | .empty | .missed | .unlinked _ | .node _ | .drop _ | .stopped _ => true
  | _ => false

-- The goroutine holds a node from the pop to the hand-off or to the end of the batch.
def carries : Lifecycle.Thread → Bool
  | .loop _ (.take _) | .loop _ (.count .batch _) | .loop _ (.reserve .batch _) => true
  | .loop _ (.claim .batch _) | .loop _ (.fill _) | .loop _ (.finish _ (.send _ _)) => true
  | .batch (.check _ _) | .batch (.exec _ _) => true
  | _ => false

def fits (t : Lifecycle.Thread) (h : Hand) : Bool :=
  match point t with
  | .off => if carries t then h.isNode else h = .empty
  | .plan | .emit => h.popped
  | .send => h.isNode
  | .giveBack => h.pushing
  | .free => h.freeing
  | .init => h = .empty || h.pushing
  | .clear => h.clearing

theorem popBack_hand {h : Hand} (hs : popBack s = some (s',h)) :
    (h = .missed ∧ s' = s ∧ s.idle = []) ∨ ∃ id, h = .unlinked id := by
  unfold popBack at hs
  split at hs
  · cases hs
  · split at hs <;> cases hs
    · exact .inl ⟨rfl,rfl,‹_›⟩
    · exact .inr ⟨_,rfl⟩

theorem initPoolNode_hand {o : Option ℕ} {h : Hand} (hs : initPoolNode s o = some (s',h)) :
    ∃ id, h = .node id := by
  cases o with
  | none =>
    cases hs
    exact ⟨_,rfl⟩
  | some id =>
    simp only [initPoolNode] at hs
    split at hs <;> cases hs
    exact ⟨id,rfl⟩

theorem fits_hand {t : Lifecycle.Thread} {h h' : Hand} (hf : fits t h = true)
    (hs : handStep cfg s (point t) h c = some (s',h')) : fits t h' = true := by
  unfold fits at hf ⊢
  unfold handStep at hs
  generalize point t = p at hf hs
  split at hs
  case h_1 =>
    cases p <;> try cases hs
    all_goals
      obtain ⟨rfl,-,-⟩ | ⟨id,rfl⟩ := popBack_hand hs <;> rfl
  case h_2 =>
    split at hs
    case isFalse => cases hs
    case isTrue hp =>
      obtain ⟨id,rfl⟩ := initPoolNode_hand hs
      rw [hp]
      rfl
  case h_3 =>
    split at hs
    case isFalse => cases hs
    case isTrue hp =>
      obtain ⟨id,rfl⟩ := initPoolNode_hand hs
      rcases hp with rfl | rfl <;> rfl
  case h_14 => cases hs
  all_goals
    cases p <;> simp only [Hand.isNode,Hand.popped,Hand.pushing,Hand.freeing,Hand.clearing] at hf <;>
      grind [Hand.isNode,Hand.popped,Hand.pushing,Hand.freeing,Hand.clearing]

theorem fits_off {t : Lifecycle.Thread} {h : Hand} (hp : point t = .off) (hc : carries t = false)
    (hf : fits t h = true) : h = .empty := by
  simpa [fits,hp,hc] using hf

theorem isNode_eq {h : Hand} (hf : h.isNode = true) : ∃ id, h = .node id := by
  cases h with
  | node id => exact ⟨id,rfl⟩
  | _ => cases hf

theorem fits_carries {t : Lifecycle.Thread} {h : Hand} (hp : point t = .off) (hc : carries t = true)
    (hf : fits t h = true) : ∃ id, h = .node id := by
  refine isNode_eq ?_
  simpa [fits,hp,hc] using hf

theorem fits_loop {core core' : Lifecycle.Shared} {k : ℕ} {pc pc' : LoopPc} {h h' : Hand}
    {c : Lifecycle.Choice} {ls : List Lifecycle.Thread} (hf : fits (.loop k pc) h = true)
    (ha : advance (point (.loop k pc)) h c = some h')
    (hs : Lifecycle.loopStep core k pc c = some (core',pc',ls)) :
    fits (.loop k pc') h' = true ∧ ∀ u ∈ ls, fits u (passed (point (.loop k pc)) h) = true := by
  cases pc with
  | finish pc r =>
    have ha : some h = some h' := ha
    cases ha
    cases c <;> simp only [Lifecycle.loopStep] at hs <;> try cases hs
    split at hs <;> cases hs
    · exact ⟨by cases r <;> exact hf,by simp⟩
    · exact ⟨by cases r <;> exact hf,by simp⟩
  | wait pc =>
    cases fits_off rfl rfl hf
    cases ha
    simp only [Lifecycle.loopStep] at hs
    split at hs <;> cases hs
    · exact ⟨rfl,by simp⟩
    · refine ⟨rfl,?_⟩
      split <;> simp [passed,point,fits,carries]
  | count m n =>
    cases m with
    | batch =>
      obtain ⟨id,rfl⟩ := fits_carries rfl rfl hf
      cases ha
      cases c <;> cases hs
      exact ⟨rfl,by simp⟩
    | credit =>
      cases fits_off rfl rfl hf
      cases ha
      cases c <;> cases hs
      exact ⟨rfl,by simp⟩
  | reserve m n | claim m n =>
    cases m with
    | batch =>
      obtain ⟨id,rfl⟩ := fits_carries rfl rfl hf
      cases ha
      cases c <;> simp only [Lifecycle.loopStep] at hs <;> try cases hs
      repeat' split at hs
      all_goals
        cases hs
        exact ⟨rfl,by simp⟩
    | credit =>
      cases fits_off rfl rfl hf
      cases ha
      cases c <;> simp only [Lifecycle.loopStep] at hs <;> try cases hs
      repeat' split at hs
      all_goals
        cases hs
        exact ⟨rfl,by simp⟩
  | plan =>
    cases c <;> simp only [Lifecycle.loopStep] at hs <;> try cases hs
    rename_i n
    split at hs
    case isFalse => cases hs
    case isTrue =>
      cases hs
      cases h <;> cases n <;> cases ha
      · exact ⟨rfl,by simp⟩
      · exact ⟨rfl,by simp⟩
  | take n =>
    obtain ⟨id,rfl⟩ := fits_carries rfl rfl hf
    cases ha
    cases c <;> cases hs
    exact ⟨rfl,by simp⟩
  | fill n =>
    obtain ⟨id,rfl⟩ := fits_carries rfl rfl hf
    cases ha
    cases c <;> simp only [Lifecycle.loopStep] at hs <;> try cases hs
    repeat' split at hs
    all_goals
      cases hs
      try exact ⟨rfl,by simp⟩
  | giveBack n cont =>
    cases h <;> cases ha
    cases c <;> cases hs
    cases cont <;> exact ⟨rfl,by simp⟩
  | send n cont =>
    obtain ⟨id,rfl⟩ := isNode_eq hf
    cases ha
    cases c <;> cases hs
    refine ⟨by cases cont <;> rfl,fun u hu => ?_⟩
    rw [List.mem_singleton.mp hu]
    rfl
  | emitBusy left =>
    cases h <;> cases ha
    cases c <;> cases hs
    exact ⟨rfl,by simp⟩
  | emitSend left =>
    obtain ⟨id,rfl⟩ := isNode_eq hf
    cases ha
    cases c <;> cases hs
    refine ⟨rfl,fun u hu => ?_⟩
    rw [List.mem_singleton.mp hu]
    rfl
  | removeAll =>
    cases h <;> cases ha
    cases c <;> cases hs
    exact ⟨rfl,by simp⟩
  | select =>
    cases fits_off rfl rfl hf
    cases ha
    cases c <;> simp only [Lifecycle.loopStep] at hs <;> try cases hs
    · split at hs <;> cases hs
      exact ⟨rfl,by simp⟩
    · split at hs <;> cases hs
      split <;> exact ⟨rfl,by simp⟩
  | emit left =>
    cases fits_off rfl rfl hf
    cases ha
    cases c <;> simp only [Lifecycle.loopStep] at hs <;> try cases hs
    split at hs <;> cases hs
    · exact ⟨rfl,by simp⟩
    · split <;> exact ⟨rfl,by simp⟩
  | stopLock =>
    cases fits_off rfl rfl hf
    cases ha
    cases c <;> simp only [Lifecycle.loopStep] at hs <;> try cases hs
    split at hs <;> cases hs
    exact ⟨rfl,by simp⟩
  | active | limit busy | pending | creditActive | creditReady | creditLimit busy =>
    cases fits_off rfl rfl hf
    cases ha
    cases c <;> cases hs
    split <;> exact ⟨rfl,by simp⟩
  | exited => cases c <;> cases hs
  | _ =>
    cases fits_off rfl rfl hf
    cases ha
    cases c <;> cases hs
    exact ⟨rfl,by simp⟩

theorem fits_batch {core core' : Lifecycle.Shared} {pc pc' : BatchPc} {h h' : Hand}
    {c : Lifecycle.Choice} (hf : fits (.batch pc) h = true)
    (ha : advance (point (.batch pc)) h c = some h')
    (hs : Lifecycle.batchStep core pc c = some (core',pc')) : fits (.batch pc') h' = true := by
  cases pc with
  | check n i =>
    obtain ⟨id,rfl⟩ := fits_carries rfl rfl hf
    cases ha
    cases c <;> simp only [Lifecycle.batchStep] at hs <;> try cases hs
    all_goals
      split at hs <;> cases hs
      rfl
  | exec n i =>
    obtain ⟨id,rfl⟩ := fits_carries rfl rfl hf
    cases ha
    cases c <;> cases hs
    rfl
  | free n =>
    cases h <;> cases ha
    cases c <;> cases hs
    rfl
  | finish pc =>
    cases fits_off rfl rfl hf
    cases ha
    cases c <;> simp only [Lifecycle.batchStep] at hs <;> try cases hs
    split at hs <;> cases hs <;> rfl
  | release n | notify =>
    cases fits_off rfl rfl hf
    cases ha
    cases c <;> cases hs
    rfl
  | done => cases c <;> cases hs

theorem fits_start {core core' : Lifecycle.Shared} {pc pc' : StartPc} {h h' : Hand}
    {c : Lifecycle.Choice} {ls : List Lifecycle.Thread} (hf : fits (.start pc) h = true)
    (ha : advance (point (.start pc)) h c = some h')
    (hs : Lifecycle.startStep core pc = some (core',pc',ls)) :
    fits (.start pc') h' = true ∧ ∀ u ∈ ls, fits u (passed (point (.start pc)) h) = true := by
  cases pc with
  | push =>
    cases h <;> cases ha
    cases hs
    exact ⟨rfl,by simp⟩
  | lock =>
    cases fits_off rfl rfl hf
    cases ha
    simp only [Lifecycle.startStep] at hs
    split at hs <;> cases hs
    exact ⟨rfl,by simp⟩
  | active | load =>
    cases fits_off rfl rfl hf
    cases ha
    cases hs
    repeat' split
    all_goals exact ⟨rfl,by simp⟩
  | launch =>
    cases fits_off rfl rfl hf
    cases ha
    cases hs
    refine ⟨rfl,fun u hu => ?_⟩
    rw [List.mem_singleton.mp hu]
    rfl
  | returned r => cases hs
  | _ =>
    cases fits_off rfl rfl hf
    cases ha
    cases hs
    exact ⟨rfl,by simp⟩

theorem fits_restart {core core' : Lifecycle.Shared} {pc pc' : RestartPc} {h h' : Hand}
    {c : Lifecycle.Choice} {ls : List Lifecycle.Thread} (hf : fits (.restart pc) h = true)
    (ha : advance (point (.restart pc)) h c = some h')
    (hs : Lifecycle.restartStep core pc = some (core',pc',ls)) :
    fits (.restart pc') h' = true ∧ ∀ u ∈ ls, fits u (passed (point (.restart pc)) h) = true := by
  cases pc with
  | start pc =>
    have hpt : ∀ q, point (.restart (.start q)) = point (.start q) := fun q => by cases q <;> rfl
    have hft : ∀ q g, fits (.restart (.start q)) g = fits (.start q) g := fun q g => by
      cases q <;> rfl
    rw [hft] at hf
    rw [hpt] at ha ⊢
    rcases Lifecycle.restart_start hs with ⟨r,rfl,rfl,rfl,rfl⟩ | ⟨pc₁,hp,rfl⟩
    · cases fits_off rfl rfl hf
      cases ha
      exact ⟨rfl,by simp⟩
    · rw [hft]
      exact fits_start hf ha hp
  | stop pc =>
    cases fits_off rfl rfl hf
    cases ha
    rcases Lifecycle.restart_stop hs with ⟨seen,moved,r,rfl,rfl,rfl,rfl⟩ | ⟨pc₁,hp,rfl,rfl⟩
    · exact ⟨by cases r <;> rfl,by simp⟩
    · exact ⟨rfl,by simp⟩
  | returned r => cases hs
  | lock | asleep n =>
    cases fits_off rfl rfl hf
    cases ha
    simp only [Lifecycle.restartStep] at hs
    split at hs <;> cases hs
    exact ⟨rfl,by simp⟩
  | stopped | active | unlock running =>
    cases fits_off rfl rfl hf
    cases ha
    cases hs
    split <;> exact ⟨rfl,by simp⟩
  | sleep | check =>
    cases fits_off rfl rfl hf
    cases ha
    cases hs
    exact ⟨rfl,by simp⟩

theorem fits_core {core core' : Lifecycle.Shared} {t t' : Lifecycle.Thread} {h h' : Hand}
    {c : Lifecycle.Choice} {ls : List Lifecycle.Thread} (hf : fits t h = true)
    (ha : advance (point t) h c = some h') (hs : Lifecycle.step core t c = some (core',t',ls)) :
    fits t' h' = true ∧ ∀ u ∈ ls, fits u (passed (point t) h) = true := by
  cases Lifecycle.step_act hs with
  | loop hp => exact fits_loop hf ha hp
  | batch hp => exact ⟨fits_batch hf ha hp,by simp⟩
  | start hp => exact fits_start hf ha hp
  | restart hp => exact fits_restart hf ha hp
  | @waiter k pc pc' core' armed hp =>
    cases fits_off rfl rfl hf
    cases ha
    refine ⟨rfl,?_⟩
    cases armed <;> simp [Lifecycle.waiterThreads,passed,point,fits,carries]
  | _ =>
    cases fits_off rfl rfl hf
    cases ha
    exact ⟨rfl,by simp⟩

theorem send_spawns {core core' : Lifecycle.Shared} {t t' : Lifecycle.Thread}
    {c : Lifecycle.Choice} {ls : List Lifecycle.Thread} (hp : point t = .send)
    (hs : Lifecycle.step core t c = some (core',t',ls)) : ∃ u, ls = [u] := by
  unfold point at hp
  split at hp <;> try cases hp
  · cases c <;> cases hs
    exact ⟨_,rfl⟩
  · cases c <;> cases hs
    exact ⟨_,rfl⟩

theorem advance_held {p : Point} {h h' : Hand} {c : Lifecycle.Choice}
    (ha : advance p h c = some h') :
    (p = .send ∧ h' = .empty ∧ ∃ id, h = .node id) ∨
      (p ≠ .send ∧ h'.held = h.held ∧ (h' = h ∨ h' = .empty ∧ (h = .missed ∨ h = .released))) := by
  unfold advance at ha
  split at ha <;> cases ha
  case h_5 => exact .inl ⟨rfl,rfl,_,rfl⟩
  all_goals
    right
    simp [Hand.held]

end Varmq.Shutdown
