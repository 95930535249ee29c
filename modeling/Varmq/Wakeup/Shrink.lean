import Varmq.Wakeup.Basic

namespace Varmq.Wakeup

open Interleaving

-- A TunePool call with no other operation running.
def tuneAlone (cfg : Config) : ℕ → Shared → TunePc → Shared × TunePc
  | 0, s, pc => (s,pc)
  | n + 1, s, pc =>
      match tunePoolStep cfg s pc with
      | none => (s,pc)
      | some (s',pc') => tuneAlone cfg n s' pc'

def Tunes (cfg : Config) (s : Shared) (pc : TunePc) (s' : Shared) (r : Option TuneError) : Prop :=
  ∃ n, tuneAlone cfg n s pc = (s',.returned r)

variable {cfg : Config} {s s' s'' : Shared} {pc pc' : TunePc} {r r' : Option TuneError}

theorem Tunes.step (hs : tunePoolStep cfg s pc = some (s',pc')) (h : Tunes cfg s' pc' s'' r) :
    Tunes cfg s pc s'' r := by
  obtain ⟨n,hn⟩ := h
  exact ⟨n + 1,by simp only [tuneAlone,hs,hn]⟩

theorem tunes_returned : Tunes cfg s (.returned r) s r := ⟨0,rfl⟩

-- A call alone has one result.
theorem Tunes.unique (h : Tunes cfg s pc s' r) (h' : Tunes cfg s pc s'' r') : s'' = s' ∧ r' = r := by
  obtain ⟨n,hn⟩ := h
  obtain ⟨m,hm⟩ := h'
  have hstop : ∀ (k : ℕ) (s : Shared) (r : Option TuneError),
      tuneAlone cfg k s (.returned r) = (s,.returned r) := fun k s r => by cases k <;> rfl
  induction n generalizing s pc m with
  | zero =>
    obtain ⟨rfl,rfl⟩ := Prod.mk.inj hn
    rw [hstop] at hm
    obtain ⟨rfl,hr⟩ := Prod.mk.inj hm
    exact ⟨rfl,(TunePc.returned.inj hr).symm⟩
  | succ n ih =>
    cases m with
    | zero =>
      obtain ⟨rfl,rfl⟩ := Prod.mk.inj hm
      rw [hstop] at hn
      obtain ⟨rfl,hr⟩ := Prod.mk.inj hn
      exact ⟨rfl,TunePc.returned.inj hr⟩
    | succ m =>
      simp only [tuneAlone] at hn hm
      cases hs : tunePoolStep cfg s pc with
      | none =>
        rw [hs] at hn hm
        obtain ⟨rfl,rfl⟩ := Prod.mk.inj hn
        obtain ⟨rfl,hr⟩ := Prod.mk.inj hm
        exact ⟨rfl,(TunePc.returned.inj hr).symm⟩
      | some x =>
        rw [hs] at hn hm
        exact ih hn m hm

-- The nodes left by the loop: it ends at the minimum only if it does not start below it.
def leftIdle : ℕ → ℕ → ℕ → ℕ
  | 0, n, _ => n
  | k + 1, n, m => if n = m then n else leftIdle k (n - 1) m

theorem leftIdle_above {k n m : ℕ} (h : m ≤ n) : leftIdle k n m = n - min k (n - m) := by
  induction k generalizing n with
  | zero => simp [leftIdle]
  | succ k ih =>
    simp only [leftIdle]
    split
    · omega
    · rw [ih (by omega)]
      omega

theorem leftIdle_below {k n m : ℕ} (h : n < m) : leftIdle k n m = n - k := by
  induction k generalizing n with
  | zero => rfl
  | succ k ih =>
    simp only [leftIdle]
    rw [if_neg (by omega),ih (by omega)]
    omega

theorem leftIdle_zero (k m : ℕ) : leftIdle k 0 m = 0 := by
  induction k with
  | zero => rfl
  | succ k ih => simp [leftIdle,ih]

theorem tunes_loop {k m : ℕ} (hfree : s.popMx = false) (hlen : s.len = s.nodes) :
    ∃ s', Tunes cfg s (.len k m) s' none ∧ s'.nodes = leftIdle k s.nodes m ∧
      s'.core = s.core := by
  have hstop : ∀ {k}, ¬(0 < k ∧ s.len ≠ m) → Tunes cfg s (.len k m) s none := fun h =>
    .step (by rw [tunePoolStep,if_neg h]) tunes_returned
  have hgo : ∀ {k}, 0 < k ∧ s.len ≠ m →
      tunePoolStep cfg s (.len k m) = some (s,.popBack k m) := fun h => by rw [tunePoolStep,if_pos h]
  induction k generalizing s with
  | zero => exact ⟨s,hstop (by simp),rfl,rfl⟩
  | succ k ih =>
    simp only [leftIdle]
    by_cases hm : s.nodes = m
    · rw [if_pos hm]
      exact ⟨s,hstop (by omega),rfl,rfl⟩
    · rw [if_neg hm]
      have hne : 0 < k + 1 ∧ s.len ≠ m := by omega
      by_cases hz : s.nodes = 0
      · refine ⟨s,.step (hgo hne) (.step ?_ tunes_returned),by rw [hz,leftIdle_zero],rfl⟩
        simp only [tunePoolStep,hfree,hz,Bool.false_eq_true,if_false,if_true]
      · let s₁ : Shared := { s with nodes := s.nodes - 1, popMx := true }
        let s₂ : Shared := { s₁ with len := s₁.len - 1, popMx := false }
        have hpop : tunePoolStep cfg s (.popBack (k + 1) m) = some (s₁,.popLen (k + 1) m) := by
          simp only [tunePoolStep,hfree,hz,Bool.false_eq_true,if_false,s₁]
        have hback : tunePoolStep cfg s₁ (.popLen (k + 1) m) = some (s₂,.len k m) := rfl
        obtain ⟨s',ht,hn,hc⟩ := @ih s₂ rfl (congrArg (· - 1) hlen)
          (fun h => .step (by rw [tunePoolStep,if_neg h]) tunes_returned)
          (fun h => by rw [tunePoolStep,if_pos h])
        exact ⟨s',.step (hgo hne) (.step hpop (.step hback ht)),hn,hc⟩

-- After TunePool from an idle pool of `before` nodes: the minimum for the new limit is kept if it
-- was there, and no more nodes are removed than the limit went down.
structure KeepsMinimum (cfg : Config) (old new before after : ℕ) : Prop where
  minimum : min before (numMinIdleWorkers cfg new) ≤ after
  removed : before ≤ after + (old - new)

theorem keepsMinimum_iff {old new n : ℕ} (hlt : new < old) :
    KeepsMinimum cfg old new n (leftIdle (old - new) n (numMinIdleWorkers cfg new)) ↔
      n = 0 ∨ numMinIdleWorkers cfg new ≤ n := by
  rcases Nat.lt_or_ge n (numMinIdleWorkers cfg new) with h | h
  · rw [leftIdle_below h]
    constructor
    · rintro ⟨hmin,-⟩
      omega
    · rintro hn
      exact ⟨by omega,by omega⟩
  · rw [leftIdle_above h]
    exact ⟨fun _ => .inr h,fun _ => ⟨by omega,by omega⟩⟩

theorem tunes_shrinks {n : ℤ} (hx : cfg.expires = false) (hfree : s.popMx = false)
    (hlen : s.len = s.nodes) (hact : s.core.status.isActive = true)
    (hlt : withSafeConcurrency cfg n < s.core.concurrency) :
    ∃ s', Tunes cfg s (.active n) s' none ∧
      s'.nodes = leftIdle (s.core.concurrency - withSafeConcurrency cfg n) s.nodes
        (numMinIdleWorkers cfg (withSafeConcurrency cfg n)) ∧
      s'.core.concurrency = withSafeConcurrency cfg n := by
  let s₁ : Shared := { s with core := { s.core with concurrency := withSafeConcurrency cfg n } }
  obtain ⟨s',ht,hn,hc⟩ := @tunes_loop cfg s₁ (s.core.concurrency - withSafeConcurrency cfg n)
    (numMinIdleWorkers cfg (withSafeConcurrency cfg n)) hfree hlen
  refine ⟨s',?_,hn,by rw [hc]⟩
  have hload : tunePoolStep cfg s (.active n) = some (s,.load n) := by
    simp only [tunePoolStep,hact,if_true]
  have hstore : tunePoolStep cfg s (.load n) =
      some (s,.store s.core.concurrency (withSafeConcurrency cfg n)) := by
    simp only [tunePoolStep,if_neg (Nat.ne_of_gt hlt)]
  have hmin : tunePoolStep cfg s (.store s.core.concurrency (withSafeConcurrency cfg n)) =
      some (s₁,.minIdle (s.core.concurrency - withSafeConcurrency cfg n)) := by
    simp only [tunePoolStep,if_neg (Nat.lt_asymm hlt),hx,Bool.false_eq_true,if_false,s₁]
  exact .step hload (.step hstore (.step hmin (.step rfl ht)))

theorem tunes_inactive {n : ℤ} (hact : s.core.status.isActive = false) :
    Tunes cfg s (.active n) s (some (.status s.core.status.getStatusError)) := by
  have herr : tunePoolStep cfg s (.active n) = some (s,.err) := by
    simp only [tunePoolStep,hact,Bool.false_eq_true,if_false]
  exact .step herr (.step rfl tunes_returned)

theorem shrink_keeps_minimum (cfg : Config) (s : Shared) (n : ℤ) (hx : cfg.expires = false)
    (hfree : s.popMx = false) (hlen : s.len = s.nodes)
    (hlt : withSafeConcurrency cfg n < s.core.concurrency) :
    (∃ s' r, Tunes cfg s (.active n) s' r) ∧ ∀ s' r, Tunes cfg s (.active n) s' r →
      (KeepsMinimum cfg s.core.concurrency (withSafeConcurrency cfg n) s.nodes s'.nodes ↔
        s.core.status.isActive = false ∨ s.nodes = 0 ∨
          numMinIdleWorkers cfg (withSafeConcurrency cfg n) ≤ s.nodes) := by
  cases hact : s.core.status.isActive with
  | false =>
    refine ⟨⟨_,_,tunes_inactive hact⟩,fun s' r ht => ?_⟩
    obtain ⟨rfl,-⟩ := (tunes_inactive hact).unique ht
    exact ⟨fun _ => .inl rfl,fun _ => ⟨Nat.min_le_left _ _,Nat.le_add_right _ _⟩⟩
  | true =>
    obtain ⟨s₁,h₁,hn,-⟩ := tunes_shrinks hx hfree hlen hact hlt
    refine ⟨⟨_,_,h₁⟩,fun s' r ht => ?_⟩
    obtain ⟨rfl,-⟩ := h₁.unique ht
    rw [hn,keepsMinimum_iff hlt]
    simp

-- A worker of limit `concurrency` with n idle nodes and no operation running.
def idlePool (cfg : Config) (concurrency : ℤ) (n : ℕ) : Shared :=
  let s := (newWorker cfg concurrency).shared
  { s with core := { s.core with status := .idle }, nodes := n, len := n }

def halfIdle : Config := ⟨50,false,4,by decide⟩

theorem shrink_keeps_minimum_above : ∃ s' r,
    Tunes halfIdle (idlePool halfIdle 10 7) (.active 4) s' r ∧
      KeepsMinimum halfIdle 10 4 7 s'.nodes := by
  have h := shrink_keeps_minimum halfIdle (idlePool halfIdle 10 7) 4 rfl rfl rfl (by decide)
  obtain ⟨s',r,ht⟩ := h.1
  exact ⟨s',r,ht,(h.2 s' r ht).2 (.inr (.inr (by decide)))⟩

-- From 10 to 8 the minimum is 4; with 2 idle nodes TunePool stops both.
theorem below_minimum_all_stopped : ∃ s',
    Tunes halfIdle (idlePool halfIdle 10 2) (.active 8) s' none ∧ s'.nodes = 0 ∧
      ¬KeepsMinimum halfIdle 10 8 2 s'.nodes :=
  ⟨idlePool halfIdle 8 0,⟨12,rfl⟩,rfl,fun h => by
    have := h.minimum
    revert this
    decide⟩

end Varmq.Wakeup
