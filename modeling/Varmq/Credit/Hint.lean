import Varmq.Credit.Owing

namespace Varmq.Credit

open Interleaving
open Varmq.Worker (Status)
open Varmq.Lifecycle (FinishPc LoopPc BatchPc StartPc RestartPc)

-- The event loop while it still serves.
def serving : Thread → Bool
  | .worker (.loop _ pc) _ => !loopOver pc
  | _ => false

section Core

variable {s s' : Lifecycle.Shared} {c : Lifecycle.Choice} {l l' t : Lifecycle.Thread}
  {new ts : List Lifecycle.Thread}

theorem serving_live {k : ℕ} {pc : LoopPc} (h : loopOver pc = false) :
    (Lifecycle.weights (.loop k pc)).live = 1 := by
  cases pc with
  | finish pc r => cases pc <;> cases r <;> rfl
  | wait pc => cases h
  | removeAll | stopLock | stopStore | stopWake | stopUnlock | exited => cases h
  | _ => rfl

theorem loop_starts_none {k k' : ℕ} {pc pc' pc'' : LoopPc}
    (hs : Lifecycle.loopStep s k pc c = some (s',pc',new)) : .loop k' pc'' ∉ new := by
  cases pc with
  | finish pc r =>
    cases c <;> simp only [Lifecycle.loopStep] at hs <;> try cases hs
    split at hs <;> cases hs <;> simp
  | wait pc =>
    simp only [Lifecycle.loopStep] at hs
    split at hs <;> cases hs
    · simp
    · split <;> simp
  | _ =>
    cases c <;> simp only [Lifecycle.loopStep] at hs <;> repeat' split at hs
    all_goals cases hs <;> simp

theorem start_starts {k : ℕ} {pc pc' : StartPc} {pc'' : LoopPc}
    (hs : Lifecycle.startStep s pc = some (s',pc',new)) (hn : .loop k pc'' ∈ new) :
    pc = .launch ∧ pc'' = .select ∧ s' = s := by
  cases pc with
  | launch =>
    cases hs
    cases List.mem_singleton.mp hn
    exact ⟨rfl,rfl,rfl⟩
  | lock =>
    simp only [Lifecycle.startStep] at hs
    split at hs <;> cases hs
    cases hn
  | _ =>
    cases hs <;> cases hn

-- A loop is launched while the worker is initiated or stopped.
theorem launched_inactive {k : ℕ} {pc : LoopPc} (h : Lifecycle.Inv s ts) (hl : l ∈ ts)
    (hs : Lifecycle.step s l c = some (s',l',new)) (hn : .loop k pc ∈ new) :
    pc = .select ∧ s'.status.isActive = false := by
  have hstart : ∀ {pc₁ pc₂}, (Lifecycle.weights l).launching = (Lifecycle.startWeights pc₁).launching →
      Lifecycle.startStep s pc₁ = some (s',pc₂,new) → pc = .select ∧ s'.status.isActive = false := by
    intro pc₁ pc₂ hw hp
    obtain ⟨rfl,rfl,rfl⟩ := start_starts hp hn
    refine ⟨rfl,?_⟩
    have hle := Lifecycle.le_sum Lifecycle.Weights.launching rfl (fun _ _ => rfl) hl
    rw [hw] at hle
    rcases h.balanced.launching hle with he | he <;> rw [he] <;> rfl
  cases Lifecycle.step_act hs with
  | loop hp => exact absurd hn (loop_starts_none hp)
  | start hp => exact hstart rfl hp
  | @restart pc₁ pc₂ s₁ new₁ hp =>
    cases pc₁ with
    | stop q =>
      rcases Lifecycle.restart_stop hp with ⟨_,_,_,_,_,_,rfl⟩ | ⟨_,_,_,rfl⟩ <;> cases hn
    | start q =>
      rcases Lifecycle.restart_start hp with ⟨_,_,_,_,rfl⟩ | ⟨q',hq,rfl⟩
      · cases hn
      · exact hstart rfl hq
    | lock | asleep =>
      simp only [Lifecycle.restartStep] at hp
      split at hp <;> cases hp
      cases hn
    | _ => cases hp <;> cases hn
  | @waiter k' pc₁ pc₂ s₁ armed hp =>
    cases armed with
    | false => cases hn
    | true => cases List.mem_singleton.mp hn
  | _ => cases hn

end Core

variable {s s' : Shared} {c : Choice} {l l' t : Thread} {new : List Thread} {xs ys ts : List Thread}

theorem serves_alone (h : Lifecycle.Inv s.core ((xs ++ l :: ys).map coreOf)) (hl : serving l = true) :
    ∀ t ∈ xs ++ ys, serving t = false := by
  have hlive : ∀ t, serving t = true → (Lifecycle.weights (coreOf t)).live = 1 := by
    intro t ht
    unfold serving at ht
    split at ht
    · exact serving_live (by simpa using ht)
    · cases ht
  intro t ht
  by_contra hs
  have hone := h.balanced.oneLoop
  rw [List.map_append,List.map_cons,Lifecycle.sum_split,← List.map_append] at hone
  have hle := Lifecycle.le_sum Lifecycle.Weights.live rfl (fun _ _ => rfl)
    (List.mem_map_of_mem (f := coreOf) ht)
  rw [hlive t (by simpa using hs)] at hle
  simp only [Lifecycle.Weights.add,hlive l hl] at hone
  omega

-- Only a step of the worker starts goroutines of it.
theorem new_loop (h : Lifecycle.Inv s.core ((xs ++ l :: ys).map coreOf)) (hs : Act s c l s' l' new)
    {k : ℕ} {pc : LoopPc} {look : Look} (hn : .worker (.loop k pc) look ∈ new) :
    pc = .select ∧ look = .idle ∧ s'.core.status.isActive = false := by
  have hnone : (∀ t ∈ new, t = .resync .timer) → False := fun hr => by cases hr _ hn
  cases hs with
  | @core t t' h₁ h₂ d core new hc ha hp =>
    obtain ⟨t₁,ht,heq⟩ := List.mem_map.mp hn
    cases heq
    have hmem : t ∈ (xs ++ .worker t h₁ :: ys).map coreOf :=
      List.mem_map.mpr ⟨.worker t h₁,by simp,rfl⟩
    obtain ⟨rfl,hi⟩ := launched_inactive h hmem hp ht
    exact ⟨rfl,rfl,hi⟩
  | look hp => exact (hnone (lookStep_new hp)).elim
  | resync hp => exact (hnone (resync_new hp).2).elim
  | len hp => exact (hnone (len_new hp).2).elim
  | enqueue =>
    unfold announcements at hn
    split at hn
    · cases List.mem_singleton.mp hn
    · cases hn
  | _ => cases hn

theorem serving_loop (h : serving l = true) :
    ∃ k pc look, l = .worker (.loop k pc) look ∧ loopOver pc = false := by
  unfold serving at h
  split at h
  · exact ⟨_,_,_,rfl,by simpa using h⟩
  · cases h

-- What holds of the loop after a step of the loop itself, of someone else, or of the one that starts it.
theorem serving_act {p : LoopPc → Look → Prop} (h : Lifecycle.Inv s.core ((xs ++ l :: ys).map coreOf))
    (hs : Act s c l s' l' new) (hb : serving l = false → serving l' = false)
    (hown : ∀ k pc look, l = .worker (.loop k pc) look → loopOver pc = false →
      ∀ k' pc' look', l' = .worker (.loop k' pc') look' → loopOver pc' = false → p pc' look')
    (hother : serving l = false → ∀ k pc look, .worker (.loop k pc) look ∈ xs ++ ys →
      loopOver pc = false → p pc look)
    (hnew : s'.core.status.isActive = false → p .select .idle) :
    ∀ k pc look, .worker (.loop k pc) look ∈ xs ++ l' :: (ys ++ new) → loopOver pc = false →
      p pc look := by
  intro k pc look hm ho
  cases hserve : serving l with
  | true =>
    rcases mem_act hm with hm | he | hm
    · have hfalse := serves_alone h hserve _ hm
      simp only [serving,ho] at hfalse
      cases hfalse
    · obtain ⟨k₁,pc₁,look₁,rfl,ho₁⟩ := serving_loop hserve
      exact hown _ _ _ rfl ho₁ k pc look he.symm ho
    · obtain ⟨rfl,rfl,hi⟩ := new_loop h hs hm
      exact hnew hi
  | false =>
    rcases mem_act hm with hm | he | hm
    · exact hother hserve k pc look hm ho
    · have hfalse := hb hserve
      rw [← he] at hfalse
      simp only [serving,ho] at hfalse
      cases hfalse
    · obtain ⟨rfl,rfl,hi⟩ := new_loop h hs hm
      exact hnew hi

-- ready() without a step of another goroutine in between.
def Wet (s : Source) : Prop := 0 < s.remaining ∨ s.dryAt ≠ some s.pokes

-- dryAt holds a value that pokes had.
def Past (s : Source) : Prop := ∀ d, s.dryAt = some d → d ≤ s.pokes

theorem Calm.past (hc : Calm s s' l l') (h : Past s.src) : Past s'.src := by
  intro d hd
  have hp : s.src.pokes ≤ s'.src.pokes := by
    rcases hc.pokes with hp | ⟨hp,-⟩ <;> omega
  rcases hc.dryAt with he | ⟨he,-⟩
  · rw [he] at hd
    exact Nat.le_trans (h d hd) hp
  · rw [he] at hd
    cases hd

theorem Calm.wet (hc : Calm s s' l l') (hp : Past s.src) (h : Wet s.src) : Wet s'.src := by
  rcases h with h | h
  · exact .inl (by rw [hc.remaining]; exact h)
  · refine .inr ?_
    rcases hc.dryAt with he | ⟨he,-⟩
    · rw [he]
      rcases hc.pokes with hq | ⟨hq,-⟩
      · rwa [hq]
      · intro hd
        have hle := hp _ hd
        omega
    · rw [he]
      exact fun hd => by cases hd

-- What the event loop knows of the hint at the point it has reached.
def Known (s : Source) : Look → Prop
  | .ready (.dryAt p) => p ≤ s.pokes ∧ ∀ d, s.dryAt = some d → d ≤ p
  | .ready (.done true) => Wet s
  | .pop g => g ≤ s.pokes
  | .popped p | .check p | .mark p => p.g ≤ s.pokes
  | _ => True

theorem Calm.known {h : Look} (hc : Calm s s' l l') (hp : Past s.src) (hk : Known s.src h) :
    Known s'.src h := by
  have hle : s.src.pokes ≤ s'.src.pokes := by
    rcases hc.pokes with hq | ⟨hq,-⟩ <;> omega
  unfold Known at *
  split
  · refine ⟨Nat.le_trans hk.1 hle,fun d hd => ?_⟩
    rcases hc.dryAt with he | ⟨he,-⟩
    · exact hk.2 d (by rw [← he]; exact hd)
    · rw [he] at hd
      cases hd
  · exact hc.wet hp hk
  · exact Nat.le_trans hk hle
  · exact Nat.le_trans hk hle
  · exact Nat.le_trans hk hle
  · exact Nat.le_trans hk hle
  · trivial

-- The part of the source that no look of the loop changes.
structure Fixed (a b : Source) : Prop where
  batch : b.batch = a.batch
  pokes : b.pokes = a.pokes
  subscribed : b.subscribed = a.subscribed
  registered : b.registered = a.registered
  sole : b.sole = a.sole
  others : b.others = a.others
  mx : b.mx = a.mx

theorem Fixed.refl (a : Source) : Fixed a a := ⟨rfl,rfl,rfl,rfl,rfl,rfl,rfl⟩

theorem arm_fixed (a : Source) (pc : ArmPc) : Fixed a (armStep a pc).1 := by
  rcases armStep_src a pc with he | he <;> rw [he] <;> exact ⟨rfl,rfl,rfl,rfl,rfl,rfl,rfl⟩

section Looks

variable {a b : Source} {h h' : Look} {want : ℕ}

theorem check_fixed {r : Bool} (hs : checkStep a r h c = some (b,h',new)) : Fixed a b := by
  unfold checkStep at hs
  split at hs
  · obtain ⟨pc,-,heq⟩ := Option.map_eq_some_iff.mp hs
    cases heq
    exact .refl _
  · split at hs <;> cases hs
    exact .refl _
  · obtain ⟨pc,-,heq⟩ := Option.map_eq_some_iff.mp hs
    cases heq
    exact .refl _
  · cases hs
    exact arm_fixed _ _
  · cases hs

theorem fetch_fixed (hs : fetchStep a want h c = some (b,h',new)) : Fixed a b := by
  unfold fetchStep at hs
  split at hs
  case h_2 =>
    obtain ⟨⟨b',h''⟩,hpop,heq⟩ := Option.map_eq_some_iff.mp hs
    cases heq
    simp only [popStep] at hpop
    split at hpop <;> cases hpop
    exact ⟨rfl,rfl,rfl,rfl,rfl,rfl,rfl⟩
  case h_7 =>
    cases hs
    exact arm_fixed _ _
  all_goals
    cases hs <;> exact ⟨rfl,rfl,rfl,rfl,rfl,rfl,rfl⟩

theorem next_fixed (hs : nextStep a h c = some (b,h',new)) : Fixed a b := by
  unfold nextStep at hs
  split at hs
  · cases hs
    exact .refl _
  · split at hs <;> cases hs <;> exact ⟨rfl,rfl,rfl,rfl,rfl,rfl,rfl⟩
  · split at hs <;> cases hs
    exact ⟨rfl,rfl,rfl,rfl,rfl,rfl,rfl⟩
  · split at hs <;> cases hs
    exact ⟨rfl,rfl,rfl,rfl,rfl,rfl,rfl⟩
  · cases hs

theorem look_fixed {t : Lifecycle.Thread} (hs : lookStep a t h c = some (b,h',new)) :
    Fixed a b := by
  unfold lookStep at hs
  split at hs
  · split at hs <;> cases hs
    exact .refl _
  · split at hs <;> cases hs
    exact .refl _
  · exact check_fixed hs
  · exact check_fixed hs
  · exact fetch_fixed hs
  · exact next_fixed hs
  · cases hs

end Looks

-- What only WithDistributedQueue changes.
structure Kind (a b : Source) : Prop where
  batch : b.batch = a.batch
  subscribed : b.subscribed = a.subscribed
  registered : b.registered = a.registered

theorem Fixed.kind {a b : Source} (h : Fixed a b) : Kind a b := ⟨h.batch,h.subscribed,h.registered⟩

theorem add_kind {pc pc' : AddPc} (hs : addStep s pc = some (s',pc')) : Kind s.src s'.src := by
  cases pc <;> cases hs <;> exact ⟨rfl,rfl,rfl⟩

theorem other_kind {pc pc' : OtherPc} (hs : otherStep s pc = some (s',pc')) : Kind s.src s'.src := by
  cases pc <;> simp only [otherStep] at hs
  case bindLock => split at hs <;> cases hs; exact ⟨rfl,rfl,rfl⟩
  case removeLock => split at hs <;> cases hs; exact ⟨rfl,rfl,rfl⟩
  case remove =>
    split at hs
    · cases hs
      exact ⟨rfl,rfl,rfl⟩
    · split at hs <;> cases hs <;> exact ⟨rfl,rfl,rfl⟩
  all_goals cases hs <;> exact ⟨rfl,rfl,rfl⟩

theorem resync_kind {pc pc' : ResyncPc} (hs : resyncStep s pc = some (s',pc',new)) :
    Kind s.src s'.src := by
  cases pc with
  | ready pc =>
    obtain ⟨pc',-,heq⟩ := Option.map_eq_some_iff.mp hs
    cases heq
    exact ⟨rfl,rfl,rfl⟩
  | arm pc =>
    cases hs
    exact (arm_fixed _ _).kind
  | _ => cases hs <;> exact ⟨rfl,rfl,rfl⟩

theorem len_kind {pc pc' : LenPc} (hs : lenStep s pc = some (s',pc',new)) : Kind s.src s'.src := by
  unfold lenStep at hs
  split at hs
  · cases hs
    exact ⟨rfl,rfl,rfl⟩
  · obtain ⟨pc',-,heq⟩ := Option.map_eq_some_iff.mp hs
    cases heq
    exact ⟨rfl,rfl,rfl⟩
  · cases hs
    exact (arm_fixed _ _).kind
  · cases hs

theorem act_kind (hl : ∀ pc, l ≠ .distributed pc) (hs : Act s c l s' l' new) : Kind s.src s'.src := by
  cases hs with
  | core => exact ⟨rfl,rfl,rfl⟩
  | look hp => exact (look_fixed hp).kind
  | add hp => exact add_kind hp
  | enqueue => exact ⟨rfl,rfl,rfl⟩
  | announce hp => exact add_kind (announce_add hp).1
  | resync hp => exact resync_kind hp
  | len hp => exact len_kind hp
  | other hp => exact other_kind hp
  | distributed hp => exact absurd rfl (hl _)

end Varmq.Credit
