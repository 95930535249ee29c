import Varmq.Registry.Basic

namespace Varmq.Registry

open Interleaving

variable {W : Type} [DecidableEq W] {cfg : W → Config} {s s' : Shared W} {l l' : Thread W}
  {new : List (Thread W)} {c : Choice} {v w : W} {m : ℕ}

def Mapped (cfg : W → Config) (s : Shared W) (w : W) : Prop :=
  s.workerRegistry (cfg w).name = some w

inductive DropAct (cfg : W → Config) (s : Shared W) (w : W) :
    DropPc → Shared W → Option DropPc → Prop
  | lock (hm : s.memMx w = false) : DropAct cfg s w .lock (lockMem s w) (some .load)
  | late (hr : Mapped cfg s w) : DropAct cfg s w .load s (some .unlock)
  | load (hr : ¬Mapped cfg s w) : DropAct cfg s w .load s (some (.range (s.memQueues w)))
  | visit {todo : List ℕ} {m : ℕ} (hm : m ∈ todo) :
      DropAct cfg s w (.range todo) (unregisterQueue s m) (some (.range (todo.erase m)))
  | last : DropAct cfg s w (.range []) s (some .unlock)
  | unlock : DropAct cfg s w .unlock (unlockMem s w) none

inductive ListAct (cfg : W → Config) (s : Shared W) (w : W) :
    ListPc → Shared W → Option ListPc → Prop
  | lock (hm : s.memMx w = false) : ListAct cfg s w .lock (lockMem s w) (some .load)
  | late (hr : ¬Mapped cfg s w) : ListAct cfg s w .load s (some .unlock)
  | load (hr : Mapped cfg s w) : ListAct cfg s w .load s (some (.range (s.memQueues w)))
  | visit {todo : List ℕ} {m : ℕ} (hm : m ∈ todo) :
      ListAct cfg s w (.range todo) (registerQueue s m) (some (.range (todo.erase m)))
  | last : ListAct cfg s w (.range []) s (some .unlock)
  | unlock : ListAct cfg s w .unlock (unlockMem s w) none

inductive AddAct (cfg : W → Config) (s : Shared W) (w : W) : AddPc → Shared W → AddPc → Prop
  | seq : AddAct cfg s w .seq { s with memQueueSeq := s.memQueueSeq + 1 } (.lock (s.memQueueSeq + 1))
  | lock {m : ℕ} (hm : s.memMx w = false) : AddAct cfg s w (.lock m) (lockMem s w) (.store m)
  | store {m : ℕ} : AddAct cfg s w (.store m)
      { s with memQueues := Function.update s.memQueues w (m :: s.memQueues w) } (.load m)
  | load {m : ℕ} (hr : Mapped cfg s w) : AddAct cfg s w (.load m) s (.register m)
  | late {m : ℕ} (hr : ¬Mapped cfg s w) : AddAct cfg s w (.load m) s .unlock
  | register {m : ℕ} : AddAct cfg s w (.register m) (registerQueue s m) .unlock
  | unlock : AddAct cfg s w .unlock (unlockMem s w) .done

-- Where a drop of w's queues runs, and what follows it there.
inductive Frame (w : W) : (DropPc → Thread W) → Thread W → Prop
  | start (v : W) : Frame w (fun pc => .start v (.drop w pc)) (.start v (.list .lock))
  | retention : Frame w (fun pc => .retention w (.drop pc)) (.retention w .unlock)
  | alone : Frame w (fun pc => .dropMemQueues w (some pc)) (.dropMemQueues w none)

def off : Thread W → Bool
  | .start _ (.drop _ _) | .start _ (.list _) | .retention _ (.drop _) => false
  | .dropMemQueues _ pc => pc.isNone
  | .addMemQueue _ pc => pc = .seq ∨ pc = .done
  | _ => true

structure Same (s s' : Shared W) : Prop where
  memMx : s'.memMx = s.memMx
  memQueues : s'.memQueues = s.memQueues
  workerRegistry : s'.workerRegistry = s.workerRegistry
  queueRegistry : s'.queueRegistry = s.queueRegistry
  memQueueSeq : s'.memQueueSeq = s.memQueueSeq

theorem Same.refl (s : Shared W) : Same s s := ⟨rfl,rfl,rfl,rfl,rfl⟩

inductive Act (cfg : W → Config) (s : Shared W) :
    Thread W → Shared W → Thread W → List (Thread W) → Prop
  | quiet {l l' : Thread W} {s' : Shared W} {new : List (Thread W)} (hs : Same s s')
      (hl : off l = true) (hl' : off l' = true) (hn : ∀ t ∈ new, off t = true)
      (hw : ∀ t, t = l' ∨ t ∈ new → ∀ w, t = .start w .swap → (cfg w).name ≠ "") :
      Act cfg s l s' l' new
  | swap {w : W} (hr : ∀ old, s.workerRegistry (cfg w).name = some old → old = w) :
      Act cfg s (.start w .swap) (swapName cfg s w) (.start w (.list .lock)) []
  | replace {w old : W} (hr : s.workerRegistry (cfg w).name = some old) (hne : old ≠ w) :
      Act cfg s (.start w .swap) (swapName cfg s w) (.start w (.drop old .lock)) []
  | expire {w : W} (hr : Mapped cfg s w) :
      Act cfg s (.retention w .compareAndDelete)
        { s with workerRegistry := Function.update s.workerRegistry (cfg w).name none }
        (.retention w (.drop .lock)) []
  | drop {w : W} {f : DropPc → Thread W} {after : Thread W} {pc : DropPc} {pc' : Option DropPc}
      {s' : Shared W} (hf : Frame w f after) (hd : DropAct cfg s w pc s' pc') :
      Act cfg s (f pc) s' (pc'.elim after f) []
  | list {w : W} {pc : ListPc} {pc' : Option ListPc} {s' : Shared W}
      (hd : ListAct cfg s w pc s' pc') :
      Act cfg s (.start w (.list pc)) s' (.start w (pc'.elim .goEventLoop .list)) []
  | add {w : W} {pc pc' : AddPc} {s' : Shared W} (ha : AddAct cfg s w pc s' pc') :
      Act cfg s (.addMemQueue w pc) s' (.addMemQueue w pc') []

theorem dropStep_act {pc : DropPc} {pc' : Option DropPc}
    (hs : dropStep cfg s w pc c = some (s',pc')) : DropAct cfg s w pc s' pc' := by
  unfold dropStep at hs
  split at hs
  · split at hs
    · cases hs
    · cases hs
      exact .lock (by simpa using ‹¬s.memMx w = true›)
  · cases hs
    split
    · exact .late ‹_›
    · exact .load ‹_›
  · split at hs
    · cases hs
      exact .visit ‹_›
    · cases hs
  · cases hs
    exact .last
  · cases hs
    exact .unlock
  · cases hs

theorem listStep_act {pc : ListPc} {pc' : Option ListPc}
    (hs : listStep cfg s w pc c = some (s',pc')) : ListAct cfg s w pc s' pc' := by
  unfold listStep at hs
  split at hs
  · split at hs
    · cases hs
    · cases hs
      exact .lock (by simpa using ‹¬s.memMx w = true›)
  · cases hs
    split
    · exact .load ‹_›
    · exact .late ‹_›
  · split at hs
    · cases hs
      exact .visit ‹_›
    · cases hs
  · cases hs
    exact .last
  · cases hs
    exact .unlock
  · cases hs

theorem addStep_act {pc pc' : AddPc} (hs : addStep cfg s w pc = some (s',pc')) :
    AddAct cfg s w pc s' pc' := by
  cases pc with
  | lock m =>
    simp only [addStep] at hs
    split at hs
    · cases hs
    · cases hs
      exact .lock (by simpa using ‹¬s.memMx w = true›)
  | load m =>
    cases hs
    split
    · exact .load ‹_›
    · exact .late ‹_›
  | done => cases hs
  | seq => cases hs; exact .seq
  | store m => cases hs; exact .store
  | register m => cases hs; exact .register
  | unlock => cases hs; exact .unlock

theorem act_quiet (hs : Same s s') (hl : off l = true) (hl' : off l' = true)
    (hw : ∀ w, l' = .start w .swap → (cfg w).name ≠ "") : Act cfg s l s' l' [] := by
  refine .quiet hs hl hl' (by simp) fun t ht w hd => ?_
  rcases ht with rfl | ht
  · exact hw w hd
  · cases ht

theorem startStep_act {pc pc' : StartPc W} (hs : startStep cfg s w pc c = some (s',pc',new)) :
    Act cfg s (.start w pc) s' (.start w pc') new := by
  unfold startStep at hs
  split at hs
  · split at hs
    · cases hs
    · cases hs
      exact act_quiet ⟨rfl,rfl,rfl,rfl,rfl⟩ rfl rfl (by simp)
  · cases hs
    refine act_quiet (.refl s) rfl ?_ ?_ <;> split <;> simp [off]
  · cases hs
    refine act_quiet (.refl s) rfl ?_ ?_ <;> split <;> simp [off]
  · cases hs
    refine act_quiet ⟨rfl,rfl,rfl,rfl,rfl⟩ rfl ?_ ?_ <;> split <;> simp_all [off]
  · cases hs
    cases hr : s.workerRegistry (cfg w).name with
    | none => exact .swap fun old ho => by simp [hr] at ho
    | some old =>
      by_cases ho : old = w
      · subst ho
        simp only [if_true]
        exact .swap fun old ho => by simpa [hr] using ho.symm
      · simp only [if_neg ho]
        exact .replace hr ho
  · obtain ⟨⟨s₁,pc₁⟩,hd,heq⟩ := Option.map_eq_some_iff.mp hs
    cases heq
    have hact := Act.drop (.start w) (dropStep_act hd)
    cases pc₁ <;> exact hact
  · obtain ⟨⟨s₁,pc₁⟩,hd,heq⟩ := Option.map_eq_some_iff.mp hs
    cases heq
    exact .list (listStep_act hd)
  · cases hs
    refine .quiet (.refl s) rfl rfl (by simp [off]) ?_
    rintro t (rfl | ht) v hv
    · cases hv
    · rw [List.mem_singleton.mp ht] at hv
      cases hv
  · cases hs
    exact act_quiet ⟨rfl,rfl,rfl,rfl,rfl⟩ rfl rfl (by simp)
  · cases hs
    exact act_quiet ⟨rfl,rfl,rfl,rfl,rfl⟩ rfl rfl (by simp)
  · cases hs

theorem retentionStep_act {pc pc' : RetentionPc}
    (hs : retentionStep cfg s w pc c = some (s',pc')) :
    Act cfg s (.retention w pc) s' (.retention w pc') [] := by
  unfold retentionStep at hs
  split at hs
  · cases hs
    refine act_quiet (.refl s) rfl ?_ (by simp)
    split <;> rfl
  · split at hs
    · cases hs
    · cases hs
      exact act_quiet ⟨rfl,rfl,rfl,rfl,rfl⟩ rfl rfl (by simp)
  · cases hs
    refine act_quiet (.refl s) rfl ?_ (by simp)
    split <;> rfl
  · split at hs
    · cases hs
      exact .expire ‹_›
    · cases hs
      exact act_quiet (.refl s) rfl rfl (by simp)
  · obtain ⟨⟨s₁,pc₁⟩,hd,heq⟩ := Option.map_eq_some_iff.mp hs
    cases heq
    have hact := Act.drop .retention (dropStep_act hd)
    cases pc₁ <;> exact hact
  · cases hs
    exact act_quiet ⟨rfl,rfl,rfl,rfl,rfl⟩ rfl rfl (by simp)
  · cases hs

theorem loopStep_act {pc pc' : LoopPc} (hs : loopStep cfg s w pc = some (s',pc',new)) :
    Act cfg s (.loop w pc) s' (.loop w pc') new := by
  have hq : Same s s' ∧ ∀ t ∈ new, off t = true ∧ ∀ v, t ≠ .start v .swap := by
    cases pc with
    | lock =>
      simp only [loopStep] at hs
      split at hs <;> cases hs
      exact ⟨⟨rfl,rfl,rfl,rfl,rfl⟩,by simp⟩
    | scheduleRetentionCleanup =>
      simp only [loopStep] at hs
      split at hs <;> cases hs
      · exact ⟨.refl s,by simp⟩
      · exact ⟨⟨rfl,rfl,rfl,rfl,rfl⟩,by simp [off]⟩
    | done => cases hs
    | _ => cases hs; exact ⟨⟨rfl,rfl,rfl,rfl,rfl⟩,by simp⟩
  refine .quiet hq.1 rfl rfl (fun t ht => (hq.2 t ht).1) ?_
  rintro t (rfl | ht) v hv
  · cases hv
  · exact absurd hv ((hq.2 t ht).2 v)

theorem step_act (hs : step cfg s l c = some (s',l',new)) : Act cfg s l s' l' new := by
  unfold step at hs
  split at hs
  · obtain ⟨⟨s₁,pc₁,new₁⟩,hd,heq⟩ := Option.map_eq_some_iff.mp hs
    cases heq
    exact startStep_act hd
  · obtain ⟨⟨s₁,pc₁⟩,hd,heq⟩ := Option.map_eq_some_iff.mp hs
    cases heq
    exact .add (addStep_act hd)
  · obtain ⟨⟨s₁,pc₁⟩,hd,heq⟩ := Option.map_eq_some_iff.mp hs
    cases heq
    exact retentionStep_act hd
  · obtain ⟨⟨s₁,pc₁⟩,hd,heq⟩ := Option.map_eq_some_iff.mp hs
    cases heq
    have hact := Act.drop .alone (dropStep_act hd)
    cases pc₁ <;> exact hact
  · obtain ⟨⟨s₁,pc₁,new₁⟩,hd,heq⟩ := Option.map_eq_some_iff.mp hs
    cases heq
    exact loopStep_act hd
  · cases hs
    refine act_quiet ?_ rfl rfl (by simp)
    unfold changeStep
    split
    · exact ⟨rfl,rfl,rfl,rfl,rfl⟩
    · exact .refl s
  · cases hs

end Varmq.Registry
