import Varmq.Hooks.Basic

namespace Varmq.Hooks

open Interleaving

variable {s s' : PauseState} {l l' t : Thread} {xs ys ts new : List Thread} {c : Choice}
  {w w' : World PauseState Thread} {e : Event Thread Choice} {h i : ℕ}

-- A Pause or a Resume: whether the state is its target already, and what it writes.
inductive Frame : (Pc → Thread) → (PauseState → Prop) → ℕ → Prop
  | pause (ms : ℕ) : Frame (.pause ms) (fun s => s.paused = true) ms
  | resume : Frame .resume (fun s => s.paused = false) 0

inductive NotifyAct (s : PauseState) : Pc → PauseState → Pc → Prop
  | lock (hm : s.notifyMu = false) : NotifyAct s .lock { s with notifyMu := true } .load
  | load : NotifyAct s .load s (.copy s.paused)
  | copy {p : Bool} : NotifyAct s (.copy p) s (.live p s.hooks)
  | live {p : Bool} {h : ℕ} {hs : List ℕ} (hh : h ∈ hs) (hl : h ∈ s.hooks) :
      NotifyAct s (.live p hs) s (.call p h (hs.erase h))
  | cancelled {p : Bool} {h : ℕ} {hs : List ℕ} (hl : h ∉ s.hooks) :
      NotifyAct s (.live p hs) s (.live p (hs.erase h))
  | last {p : Bool} : NotifyAct s (.live p []) s .unlock
  | call {p : Bool} {h : ℕ} {hs : List ℕ} : NotifyAct s (.call p h hs) (s.call h p) (.hook p h hs)
  | register {p : Bool} {h : ℕ} {hs : List ℕ} :
      NotifyAct s (.hook p h hs) s.register (.hook p h hs)
  | cancel {p : Bool} {h g : ℕ} {hs : List ℕ} (hg : g < s.made) :
      NotifyAct s (.hook p h hs) (s.cancel g) (.hook p h hs)
  | back {p : Bool} {h : ℕ} {hs : List ℕ} : NotifyAct s (.hook p h hs) s (.live p hs)
  | unlock : NotifyAct s .unlock { s with notifyMu := false } .returned

inductive Act (s : PauseState) : Thread → PauseState → Thread → Prop
  | same {f : Pc → Thread} {q : PauseState → Prop} {ms : ℕ} (hf : Frame f q ms) (hq : q s) :
      Act s (f .change) s (f .returned)
  | change {f : Pc → Thread} {q : PauseState → Prop} {ms : ℕ} (hf : Frame f q ms) (hq : ¬q s) :
      Act s (f .change) (s.change ms) (f .lock)
  | notify {f : Pc → Thread} {q : PauseState → Prop} {ms : ℕ} {pc pc' : Pc} {s' : PauseState}
      (hf : Frame f q ms) (hn : NotifyAct s pc s' pc') : Act s (f pc) s' (f pc')
  | register : Act s (.onPauseChange false) s.register (.onPauseChange true)
  | cancel {h : ℕ} : Act s (.cancel h false) (s.cancel h) (.cancel h true)

theorem notify_act {pc pc' : Pc} (hs : notifyStep s pc c = some (s',pc')) :
    NotifyAct s pc s' pc' := by
  unfold notifyStep at hs
  split at hs
  · split at hs <;> cases hs
    exact .lock (by simpa using ‹¬s.notifyMu = true›)
  · cases hs
    exact .load
  · cases hs
    exact .copy
  · split at hs <;> cases hs
    split
    · exact .live ‹_› ‹_›
    · exact .cancelled ‹_›
  · cases hs
    exact .last
  · cases hs
    exact .call
  · cases hs
    exact .register
  · split at hs <;> cases hs
    exact .cancel ‹_›
  · cases hs
    exact .back
  · cases hs
    exact .unlock
  · cases hs

theorem pause_act {ms : ℕ} {pc pc' : Pc} (hs : pauseStep s ms pc c = some (s',pc')) :
    Act s (.pause ms pc) s' (.pause ms pc') := by
  unfold pauseStep at hs
  split at hs
  · split at hs <;> cases hs
    · exact .change (.pause ms) (by simp [PauseState.paused,‹s.at_ = 0›])
    · exact .same (.pause ms) (by simp [PauseState.paused,‹¬s.at_ = 0›])
  · exact .notify (.pause ms) (notify_act hs)

theorem resume_act {pc pc' : Pc} (hs : resumeStep s pc c = some (s',pc')) :
    Act s (.resume pc) s' (.resume pc') := by
  unfold resumeStep at hs
  split at hs
  · split at hs <;> cases hs
    · exact .change .resume (by simp [PauseState.paused,‹s.at_ ≠ 0›])
    · exact .same .resume (by simpa [PauseState.paused] using ‹¬s.at_ ≠ 0›)
  · exact .notify .resume (notify_act hs)

theorem step_act (hs : step s l c = some (s',l',new)) : Act s l s' l' ∧ new = [] := by
  unfold step at hs
  split at hs
  · obtain ⟨⟨s₁,pc'⟩,hp,heq⟩ := Option.map_eq_some_iff.mp hs
    cases heq
    exact ⟨pause_act hp,rfl⟩
  · obtain ⟨⟨s₁,pc'⟩,hp,heq⟩ := Option.map_eq_some_iff.mp hs
    cases heq
    exact ⟨resume_act hp,rfl⟩
  · cases hs
    exact ⟨.register,rfl⟩
  · cases hs
    exact ⟨.cancel,rfl⟩
  · cases hs

theorem Frame.pcOf {f : Pc → Thread} {q : PauseState → Prop} {ms : ℕ} (hf : Frame f q ms) (pc : Pc) :
    pcOf (f pc) = pc := by
  cases hf <;> rfl

-- The goroutine holds notifyMu.
def holds (l : Thread) : ℕ :=
  match pcOf l with
  | .change | .lock | .returned => 0
  | _ => 1

-- It will still load the state.
def waits (l : Thread) : Prop := pcOf l = .lock ∨ pcOf l = .load

-- The value it calls hooks with.
def loaded : Pc → Option Bool
  | .copy p | .live p _ | .call p _ _ | .hook p _ _ => some p
  | _ => none

-- It will still come to h.
def due (h : ℕ) : Pc → Prop
  | .copy _ => True
  | .live _ hs | .hook _ _ hs => h ∈ hs
  | .call _ g hs => h = g ∨ h ∈ hs
  | _ => False

structure Current (s : PauseState) (ts : List Thread) : Prop where
  value : ∀ l ∈ ts, ∀ p, loaded (pcOf l) = some p → p = s.paused
  last : ∀ h ∈ s.told, h ∈ s.hooks → s.last h = some s.paused ∨ ∃ l ∈ ts, due h (pcOf l)

-- No address is given twice, so a hook that was cancelled does not come back.
structure Sane (s : PauseState) : Prop where
  told : ∀ h ∈ s.told, h < s.made
  hooks : ∀ h ∈ s.hooks, h < s.made
  gone : ∀ h ∈ s.cancelled, h < s.made ∧ h ∉ s.hooks

structure Inv (s : PauseState) (ts : List Thread) : Prop where
  lock : (if s.notifyMu then 1 else 0) = total holds ts
  sane : Sane s
  cancels : ∀ h, .cancel h false ∈ ts → h < s.made
  current : (∃ l ∈ ts, waits l) ∨ Current s ts

theorem Inv.sole (h : Inv s (xs ++ l :: ys)) (hl : holds l = 1) (ht : t ∈ xs ++ ys) : holds t = 0 := by
  have hlock := h.lock
  have hle := le_total (f := holds) ht
  rw [total_split,hl] at hlock
  split at hlock <;> omega

theorem holds_of_loaded {p : Bool} (h : loaded (pcOf l) = some p) : holds l = 1 := by
  unfold holds
  cases hp : pcOf l <;> rw [hp] at h <;> first | rfl | cases h

theorem register_sane (hs : Sane s) : Sane s.register := by
  refine ⟨fun h hh => Nat.lt_succ_of_lt (hs.told h hh),fun h hh => ?_,fun h hh => ?_⟩
  · rcases List.mem_cons.mp hh with rfl | hh
    · exact Nat.lt_succ_self _
    · exact Nat.lt_succ_of_lt (hs.hooks h hh)
  · obtain ⟨hlt,hno⟩ := hs.gone h hh
    refine ⟨Nat.lt_succ_of_lt hlt,fun hmem => ?_⟩
    rcases List.mem_cons.mp hmem with rfl | hmem
    · exact Nat.lt_irrefl _ hlt
    · exact hno hmem

theorem cancel_sane (hs : Sane s) (hg : i < s.made) : Sane (s.cancel i) := by
  refine ⟨hs.told,fun h hh => hs.hooks h (List.mem_of_mem_filter hh),fun h hh => ?_⟩
  rcases List.mem_cons.mp hh with rfl | hh
  · exact ⟨hg,by simp [PauseState.cancel]⟩
  · obtain ⟨hlt,hno⟩ := hs.gone h hh
    exact ⟨hlt,fun hmem => hno (List.mem_of_mem_filter hmem)⟩

theorem change_sane (hs : Sane s) (ms : ℕ) : Sane (s.change ms) := ⟨hs.hooks,hs.hooks,hs.gone⟩

theorem notify_sane {pc pc' : Pc} (hs : Sane s) (ha : NotifyAct s pc s' pc') :
    Sane s' ∧ s.made ≤ s'.made := by
  cases ha with
  | register => exact ⟨register_sane hs,Nat.le_succ _⟩
  | cancel hg => exact ⟨cancel_sane hs hg,Nat.le_refl _⟩
  | _ => exact ⟨⟨hs.told,hs.hooks,hs.gone⟩,Nat.le_refl _⟩

theorem act_sane (hs : Sane s) (hc : ∀ h, l = .cancel h false → h < s.made) (ha : Act s l s' l') :
    Sane s' ∧ s.made ≤ s'.made := by
  cases ha with
  | same => exact ⟨hs,Nat.le_refl _⟩
  | change => exact ⟨change_sane hs _,Nat.le_refl _⟩
  | notify _ hn => exact notify_sane hs hn
  | register => exact ⟨register_sane hs,Nat.le_succ _⟩
  | cancel => exact ⟨cancel_sane hs (hc _ rfl),Nat.le_refl _⟩

theorem notify_lock {pc pc' : Pc} {f : Pc → Thread} {q : PauseState → Prop} {ms : ℕ}
    (hf : Frame f q ms) (hm : holds (f pc) = 1 → s.notifyMu = true) (ha : NotifyAct s pc s' pc') :
    (if s'.notifyMu then 1 else 0) + holds (f pc) = (if s.notifyMu then 1 else 0) + holds (f pc') := by
  simp only [holds,hf.pcOf] at hm ⊢
  cases ha with
  | lock hm' => simp [hm']
  | unlock => simp [hm rfl]
  | _ => rfl

theorem act_lock (hm : holds l = 1 → s.notifyMu = true) (ha : Act s l s' l') :
    (if s'.notifyMu then 1 else 0) + holds l = (if s.notifyMu then 1 else 0) + holds l' := by
  cases ha with
  | same hf => simp only [holds,hf.pcOf]
  | change hf =>
    simp only [holds,hf.pcOf]
    rfl
  | notify hf hn => exact notify_lock hf hm hn
  | _ => rfl

theorem Inv.locked (h : Inv s ts) (hl : l ∈ ts) (hh : holds l = 1) : s.notifyMu = true := by
  have hlock := h.lock
  have hle := le_total (f := holds) hl
  cases hm : s.notifyMu
  · rw [hm] at hlock
    simp only [Bool.false_eq_true,if_false] at hlock
    omega
  · rfl

-- The state stays, and so does what is due, or it is done.
theorem Current.step (h : Current s (xs ++ l :: ys)) (hp : s'.paused = s.paused)
    (ht : s'.told = s.told) (hh : ∀ i ∈ s.told, i ∈ s'.hooks → i ∈ s.hooks)
    (hload : ∀ p, loaded (pcOf l') = some p → p = s.paused)
    (hdue : ∀ i ∈ s.told, i ∈ s'.hooks → due i (pcOf l) →
      due i (pcOf l') ∨ s'.last i = some s.paused)
    (hlast : ∀ i, s.last i = some s.paused → s'.last i = some s.paused) :
    Current s' (xs ++ l' :: ys) := by
  constructor
  · intro t hmem p hload'
    rw [hp]
    rcases mem_split hmem with hmem | rfl
    · exact h.value t (mem_of_other hmem) p hload'
    · exact hload p hload'
  · intro i hi hi'
    rw [ht] at hi
    rw [hp]
    rcases h.last i hi (hh i hi hi') with hdone | ⟨t,hmem,ht'⟩
    · exact .inl (hlast i hdone)
    · rcases mem_split hmem with hmem | rfl
      · exact .inr ⟨t,mem_of_other hmem,ht'⟩
      · rcases hdue i hi hi' ht' with hdue | hdone
        · exact .inr ⟨l',by simp,hdue⟩
        · exact .inl hdone

theorem waits_other (hw : ∃ t ∈ xs ++ l :: ys, waits t) (hl : ¬waits l) :
    ∃ t ∈ xs ++ l' :: ys, waits t := by
  obtain ⟨t,hmem,ht⟩ := hw
  rcases mem_split hmem with hmem | rfl
  · exact ⟨t,mem_of_other hmem,ht⟩
  · exact absurd ht hl

-- Nobody else holds notifyMu, so the value just loaded is the only one.
theorem Inv.loads (h : Inv s (xs ++ l :: ys)) (hl : holds l = 1) (hl' : pcOf l' = .copy s.paused) :
    Current s (xs ++ l' :: ys) := by
  constructor
  · intro t hmem p hp
    rcases mem_split hmem with hmem | rfl
    · have hzero := h.sole hl hmem
      rw [holds_of_loaded hp] at hzero
      cases hzero
    · rw [hl'] at hp
      cases hp
      rfl
  · intro i _ _
    exact .inr ⟨l',by simp,by rw [hl']; trivial⟩

theorem register_hooks (hs : Sane s) (hi : i ∈ s.told) (hh : i ∈ s.register.hooks) : i ∈ s.hooks := by
  rcases List.mem_cons.mp hh with rfl | hh
  · exact absurd (hs.told _ hi) (Nat.lt_irrefl _)
  · exact hh

-- The goroutine goes on in a state that is the same for the hooks.
theorem Current.go {f : Pc → Thread} {q : PauseState → Prop} {ms : ℕ} {pc pc' : Pc}
    (h : Current s (xs ++ f pc :: ys)) (hf : Frame f q ms)
    (hload : ∀ p, loaded pc' = some p → loaded pc = some p)
    (hdue : ∀ i ∈ s.hooks, due i pc → due i pc') : Current s (xs ++ f pc' :: ys) := by
  refine h.step rfl rfl (fun _ _ hi => hi) (fun p hp => ?_) (fun i _ hi hd => ?_) (fun _ hi => hi)
  · rw [hf.pcOf] at hp
    exact h.value (f pc) (by simp) p (by rw [hf.pcOf,hload p hp])
  · rw [hf.pcOf] at hd ⊢
    exact .inl (hdue i hi hd)

theorem notify_current {f : Pc → Thread} {q : PauseState → Prop} {ms : ℕ} {pc pc' : Pc}
    (hs : Sane s) (h : Current s (xs ++ f pc :: ys)) (hf : Frame f q ms) (hne : ¬waits (f pc))
    (ha : NotifyAct s pc s' pc') : Current s' (xs ++ f pc' :: ys) := by
  cases ha with
  | lock => exact absurd (.inl (hf.pcOf _)) hne
  | load => exact absurd (.inr (hf.pcOf _)) hne
  | copy => exact h.go hf (fun _ hp => hp) fun i hi _ => hi
  | @live p g =>
    refine h.go hf (fun _ hp => hp) fun i _ hd => ?_
    by_cases hig : i = g
    · exact .inl hig
    · exact .inr ((List.mem_erase_of_ne hig).mpr hd)
  | @cancelled p g hs hg =>
    refine h.go hf (fun _ hp => hp) fun i hi hd => ?_
    have hig : i ≠ g := fun he => hg (he ▸ hi)
    exact (List.mem_erase_of_ne hig).mpr hd
  | last => exact h.go hf (fun _ hp => by cases hp) fun _ _ hd => by cases hd
  | @call p g hs =>
    have hp : p = s.paused := h.value (f (.call p g hs)) (by simp) p (by rw [hf.pcOf]; rfl)
    refine h.step rfl rfl (fun _ _ hi => hi) ?_ (fun i _ _ hd => ?_) fun i hi => ?_
    · rw [hf.pcOf]
      rintro _ ⟨⟩
      exact hp
    · rw [hf.pcOf] at hd ⊢
      rcases hd with rfl | hd
      · exact .inr (by rw [PauseState.call_last_self,hp])
      · exact .inl hd
    · by_cases hig : i = g
      · rw [hig,PauseState.call_last_self,hp]
      · rw [PauseState.call_last_other hig,hi]
  | register =>
    exact h.step rfl rfl (fun i hi hi' => register_hooks hs hi hi')
      (h.value _ (by simp)) (fun i _ _ hd => .inl hd) (fun _ hi => hi)
  | cancel =>
    exact h.step rfl rfl (fun i _ hi' => List.mem_of_mem_filter hi')
      (h.value _ (by simp)) (fun i _ _ hd => .inl hd) (fun _ hi => hi)
  | back => exact h.go hf (fun _ hp => hp) fun _ _ hd => hd
  | unlock =>
    have hr : Current s (xs ++ f .returned :: ys) :=
      h.go hf (fun _ hp => by cases hp) fun _ _ hd => by cases hd
    exact ⟨hr.1,hr.2⟩

theorem Inv.current_step (h : Inv s (xs ++ l :: ys)) (ha : Act s l s' l') :
    (∃ t ∈ xs ++ l' :: ys, waits t) ∨ Current s' (xs ++ l' :: ys) := by
  cases ha with
  | @same f q ms hf =>
    refine h.current.imp (fun hw => waits_other hw ?_) fun hc => ?_
    · rintro (hp | hp) <;> rw [hf.pcOf] at hp <;> cases hp
    · exact hc.go hf (fun _ hp => by cases hp) fun _ _ hd => by cases hd
  | change hf => exact .inl ⟨_,by simp,.inl (hf.pcOf _)⟩
  | @notify f q ms pc pc' s' hf hn =>
    by_cases hw : waits (f pc)
    · cases hn with
      | lock => exact .inl ⟨_,by simp,.inr (hf.pcOf _)⟩
      | load =>
        refine .inr (h.loads ?_ (hf.pcOf _))
        rw [holds,hf.pcOf]
      | _ => rcases hw with hp | hp <;> rw [hf.pcOf] at hp <;> cases hp
    · exact h.current.imp (fun hwait => waits_other hwait hw) fun hc =>
        notify_current h.sane hc hf hw hn
  | register =>
    refine h.current.imp (fun hw => waits_other hw (by rintro (hp | hp) <;> cases hp)) fun hc => ?_
    exact hc.step rfl rfl (fun i hi hi' => register_hooks h.sane hi hi')
      (fun _ hp => by cases hp) (fun _ _ _ hd => by cases hd) (fun _ hi => hi)
  | cancel =>
    refine h.current.imp (fun hw => waits_other hw (by rintro (hp | hp) <;> cases hp)) fun hc => ?_
    exact hc.step rfl rfl (fun i _ hi' => List.mem_of_mem_filter hi')
      (fun _ hp => by cases hp) (fun _ _ _ hd => by cases hd) (fun _ hi => hi)

theorem act_cancel (ha : Act s l s' l') : l' ≠ .cancel i false := by
  rintro he
  cases ha with
  | same hf | change hf | notify hf => cases hf <;> cases he
  | _ => cases he

theorem inv_act (h : Inv s (xs ++ l :: ys)) (ha : Act s l s' l') : Inv s' (xs ++ l' :: ys) := by
  have hmem : l ∈ xs ++ l :: ys := by simp
  obtain ⟨hsane,hmade⟩ := act_sane h.sane (fun i hi => h.cancels i (hi ▸ hmem)) ha
  refine ⟨?_,hsane,fun i hi => ?_,h.current_step ha⟩
  · have hlock := h.lock
    have hstep := act_lock (h.locked hmem) ha
    rw [total_split] at hlock ⊢
    omega
  · rcases mem_split hi with hi | hi
    · exact Nat.lt_of_lt_of_le (h.cancels i (mem_of_other hi)) hmade
    · exact absurd hi.symm (act_cancel ha)

theorem entry_quiet (he : entry s l = true) : holds l = 0 ∧ loaded (pcOf l) = none ∧
    ∀ i, l = .cancel i false → i < s.made := by
  cases l with
  | pause ms pc => cases pc <;> first | exact ⟨rfl,rfl,fun i hi => by cases hi⟩ | cases he
  | resume pc => cases pc <;> first | exact ⟨rfl,rfl,fun i hi => by cases hi⟩ | cases he
  | onPauseChange done => exact ⟨rfl,rfl,fun i hi => by cases hi⟩
  | cancel g done =>
    refine ⟨rfl,rfl,fun i hi => ?_⟩
    cases hi
    exact of_decide_eq_true he

theorem inv_call (h : Inv s ts) (he : entry s l = true) : Inv s (ts ++ [l]) := by
  obtain ⟨h1,h2,h3⟩ := entry_quiet he
  refine ⟨?_,h.sane,fun i hi => ?_,?_⟩
  · rw [total_call,h1]
    exact h.lock
  · rcases List.mem_append.mp hi with hi | hi
    · exact h.cancels i hi
    · exact h3 i (List.mem_singleton.mp hi).symm
  · rcases h.current with ⟨t,ht,hw⟩ | hc
    · exact .inl ⟨t,List.mem_append_left _ ht,hw⟩
    · refine .inr ⟨forall_call hc.value fun p hp => ?_,fun i hi hi' => ?_⟩
      · rw [h2] at hp
        cases hp
      · exact (hc.last i hi hi').imp_right fun ⟨t,ht,hd⟩ => ⟨t,List.mem_append_left _ ht,hd⟩

theorem inv_start : Inv newPauseState [] :=
  ⟨rfl,⟨(fun _ h => by cases h),(fun _ h => by cases h),(fun _ h => by cases h)⟩,
    (fun _ h => by cases h),.inr ⟨(fun _ h => by cases h),(fun _ h => by cases h)⟩⟩

theorem inv_reach (h : program.Reach always start w) : Inv w.shared w.threads := by
  refine Program.reach_invariant inv_start (fun _ _ _ h _ he => inv_call h he)
    (fun s xs l ys c s' l' new h _ hs => ?_) h
  obtain ⟨ha,rfl⟩ := step_act hs
  rw [List.append_nil]
  exact inv_act h ha

theorem inHook_le (l : Thread) : inHook l ≤ holds l := by
  unfold inHook holds
  cases pcOf l <;> simp

-- A hook that is cancelled is only called by who has found it live before.
theorem act_calls (hs : Sane s) (hi : i ∈ s.cancelled) (ha : Act s l s' l') :
    s'.calls i + pastCheck i l' ≤ s.calls i + pastCheck i l := by
  cases ha with
  | same hf | change hf =>
    simp only [pastCheck,hf.pcOf]
    exact Nat.le_refl _
  | notify hf hn =>
    simp only [pastCheck,hf.pcOf]
    cases hn with
    | @live p g _ _ hl =>
      have hig : g ≠ i := fun he => (hs.gone i hi).2 (he ▸ hl)
      simp [hig]
    | @call p g =>
      by_cases hig : g = i
      · subst hig
        simp
      · rw [PauseState.call_calls_other (Ne.symm hig)]
        simp
    | _ => exact Nat.le_refl _
  | _ => exact Nat.le_refl _

theorem act_cancelled (hi : i ∈ s.cancelled) (ha : Act s l s' l') : i ∈ s'.cancelled := by
  cases ha with
  | notify _ hn =>
    cases hn with
    | cancel => exact List.mem_cons_of_mem _ hi
    | _ => exact hi
  | cancel => exact List.mem_cons_of_mem _ hi
  | _ => exact hi

-- A step of the program is a call or the step of one goroutine.
theorem call_or_act (hn : program.next w e = some w') :
    (∃ l, w' = ⟨w.shared,w.threads ++ [l]⟩ ∧ entry w.shared l = true) ∨
    ∃ s xs l ys s' l' c, w = ⟨s,xs ++ l :: ys⟩ ∧ e = .act xs.length c ∧ Act s l s' l' ∧
      w' = ⟨s',xs ++ l' :: ys⟩ := by
  rcases Program.next_cases hn with ⟨l,rfl,he,rfl⟩ | ⟨xs,l,ys,c,s',l',new,rfl,hts,hs,rfl⟩
  · exact .inl ⟨l,rfl,he⟩
  · obtain ⟨s,ts⟩ := w
    obtain ⟨ha,rfl⟩ := step_act hs
    simp only at hts ha
    subst hts
    exact .inr ⟨s,xs,l,ys,s',l',c,rfl,rfl,ha,by rw [List.append_nil]⟩

theorem entry_pastCheck (he : entry s l = true) : pastCheck i l = 0 := by
  cases l with
  | pause ms pc => cases pc <;> first | rfl | cases he
  | resume pc => cases pc <;> first | rfl | cases he
  | _ => rfl

theorem next_calls (h : program.Reach always start w) (hn : program.next w e = some w')
    (hi : i ∈ w.shared.cancelled) : i ∈ w'.shared.cancelled ∧
    w'.shared.calls i + total (pastCheck i) w'.threads ≤
      w.shared.calls i + total (pastCheck i) w.threads := by
  rcases call_or_act hn with ⟨l,rfl,he⟩ | ⟨s,xs,l,ys,s',l',c,rfl,rfl,ha,rfl⟩
  · refine ⟨hi,?_⟩
    rw [total_call,entry_pastCheck he]
    exact Nat.le_refl _
  · have hcalls := act_calls (inv_reach h).sane hi ha
    refine ⟨act_cancelled hi ha,?_⟩
    rw [total_split,total_split]
    simp only at hcalls ⊢
    omega

theorem run_calls (h : program.Reach always start w) (h' : program.Reach always w w')
    (hi : i ∈ w.shared.cancelled) : i ∈ w'.shared.cancelled ∧
    w'.shared.calls i + total (pastCheck i) w'.threads ≤
      w.shared.calls i + total (pastCheck i) w.threads := by
  induction h' with
  | refl => exact ⟨hi,Nat.le_refl _⟩
  | tail h' _ hn ih =>
    obtain ⟨h1,h2⟩ := next_calls (Program.reach_trans h h') hn ih.1
    exact ⟨h1,Nat.le_trans h2 ih.2⟩

theorem act_returned (hl : pcOf l = .returned) (hb : busy l = false) : ¬Act s l s' l' := by
  intro ha
  cases ha with
  | same hf | change hf =>
    rw [hf.pcOf] at hl
    cases hl
  | notify hf hn =>
    rw [hf.pcOf] at hl
    subst hl
    cases hn
  | register | cancel => cases hb

theorem run_returned {k : ℕ} (hk : w.threads[k]? = some l) (hl : pcOf l = .returned)
    (hb : busy l = false) (h : program.Reach always w w') : w'.threads[k]? = some l := by
  induction h with
  | refl => exact hk
  | tail _ _ hn ih =>
    rcases call_or_act hn with ⟨l',rfl,-⟩ | ⟨s,xs,m,ys,s',m',c,rfl,rfl,ha,rfl⟩
    · obtain ⟨hlt,-⟩ := List.getElem?_eq_some_iff.mp ih
      exact (List.getElem?_append_left hlt).trans ih
    · have hne : k ≠ xs.length := by
        rintro rfl
        cases (getElem?_split xs ys m).symm.trans ih
        exact act_returned hl hb ha
      have hother := (@getElem?_other _ xs ys [] m m' l k hne ih).1
      rwa [List.append_nil] at hother

-- Hook calls one at a time, and the last value of a hook once no call is in progress.
structure Settles (s : PauseState) (ts : List Thread) : Prop where
  alone : total inHook ts ≤ 1
  checked : ∀ h, total (pastCheck h) ts ≤ 1
  final : (∀ l ∈ ts, busy l = false) → ∀ h ∈ s.told, h ∈ s.hooks → s.last h = some s.paused

theorem pastCheck_le (i : ℕ) (l : Thread) : pastCheck i l ≤ holds l := by
  unfold pastCheck holds
  cases pcOf l with
  | call p g hs =>
    simp only
    split <;> omega
  | _ => exact Nat.zero_le _

theorem Inv.settles (h : Inv s ts) : Settles s ts := by
  have hlock : total holds ts ≤ 1 := by
    rw [← h.lock]
    split <;> omega
  refine ⟨?_,fun i => ?_,?_⟩
  · exact Nat.le_trans (@total_le _ inHook holds ts fun l _ => inHook_le l) hlock
  · exact Nat.le_trans (@total_le _ (pastCheck i) holds ts fun l _ => pastCheck_le i l) hlock
  · intro hquiet i hi hi'
    have hret : ∀ l ∈ ts, pcOf l = .returned := by
      intro l hl
      have hb := hquiet l hl
      cases l with
      | pause ms pc | resume pc =>
        have hpc : pc = .returned := by simpa [busy] using hb
        exact hpc
      | _ => rfl
    rcases h.current with ⟨t,ht,hw⟩ | hc
    · rcases hw with hw | hw <;> rw [hret t ht] at hw <;> cases hw
    · rcases hc.last i hi hi' with hdone | ⟨t,ht,hd⟩
      · exact hdone
      · rw [hret t ht] at hd
        cases hd

-- A Pause of a paused queue or a Resume of a running one, and what it has become.
def Idles (w : World PauseState Thread) (l l' : Thread) : Prop :=
  (∃ ms, l = .pause ms .change ∧ l' = .pause ms .returned ∧ w.shared.paused = true) ∨
  (l = .resume .change ∧ l' = .resume .returned ∧ w.shared.paused = false)

theorem idle_step {l' : Thread} (hi : Idles w l l') (hk : w.threads[i]? = some l)
    (hn : program.next w (.act i .go) = some w') :
    w'.shared = w.shared ∧ w'.threads[i]? = some l' ∧ pcOf l' = .returned ∧ busy l' = false := by
  obtain ⟨xs,ys,hts,rfl,-⟩ := set_split hk
  obtain ⟨s,ts⟩ := w
  simp only at hts
  subst hts
  obtain ⟨s',l₁,new,hs,rfl⟩ := Program.next_act hn
  rcases hi with ⟨ms,rfl,rfl,hp⟩ | ⟨rfl,rfl,hp⟩
  · have hne : s.at_ ≠ 0 := by simpa [PauseState.paused] using hp
    simp only [program,step,pauseStep,if_neg hne,Option.map_some,Option.some.injEq,
      Prod.mk.injEq] at hs
    obtain ⟨rfl,rfl,-⟩ := hs
    exact ⟨rfl,getElem?_split xs _ _,rfl,rfl⟩
  · have hz : s.at_ = 0 := by simpa [PauseState.paused] using hp
    simp only [program,step,resumeStep,hz,ne_eq,not_true_eq_false,if_false,Option.map_some,
      Option.some.injEq,Prod.mk.injEq] at hs
    obtain ⟨rfl,rfl,-⟩ := hs
    exact ⟨rfl,getElem?_split xs _ _,rfl,rfl⟩

theorem hooks_end_on_final_state (h : program.Reach always start w) :
    Settles w.shared w.threads ∧
    (∀ w', program.Reach always w w' → ∀ g ∈ w.shared.cancelled,
      w'.shared.calls g + total (pastCheck g) w'.threads ≤
        w.shared.calls g + total (pastCheck g) w.threads) ∧
    ∀ i l l' w', Idles w l l' → w.threads[i]? = some l →
      program.next w (.act i .go) = some w' → w'.shared = w.shared ∧
      ∀ w'', program.Reach always w' w'' → w''.threads[i]? = some l' := by
  refine ⟨(inv_reach h).settles,fun w' h' g hg => (run_calls h h' hg).2,?_⟩
  intro i l l' w' hi hk hn
  obtain ⟨h1,h2,h3,h4⟩ := idle_step hi hk hn
  exact ⟨h1,fun w'' h'' => run_returned h2 h3 h4 h''⟩

-- Hook 0 is registered; a Resume changes the state back before the Pause has notified.
def racingRun : List (Event Thread Choice) :=
  [.call (.onPauseChange false),.act 0 .go,.call (.pause 5 .change),.call (.resume .change),
   .act 1 .go,.act 1 .go,.act 1 .go,.act 2 .go,.act 1 .go,.act 1 (.next 0),.act 1 .go,.act 1 .go,
   .act 1 .go,.act 1 .go,.act 2 .go,.act 2 .go,.act 2 .go,.act 2 (.next 0),.act 2 .go,.act 2 .go,
   .act 2 .go,.act 2 .go]

theorem hooks_end_on_final_state_racing : ∃ w, program.Reach always start w ∧
    (w.shared.calls 0 = 2 ∧ w.shared.last 0 = some false) ∧ Settles w.shared w.threads ∧
    (∀ w', program.Reach always w w' → ∀ g ∈ w.shared.cancelled,
      w'.shared.calls g + total (pastCheck g) w'.threads ≤
        w.shared.calls g + total (pastCheck g) w.threads) ∧
    ∀ i l l' w', Idles w l l' → w.threads[i]? = some l →
      program.next w (.act i .go) = some w' → w'.shared = w.shared ∧
      ∀ w'', program.Reach always w' w'' → w''.threads[i]? = some l' := by
  obtain ⟨w,hr,hp⟩ := Program.exists_reach_of_run program always start racingRun
    (fun w => w.shared.calls 0 = 2 && w.shared.last 0 = some false) (by decide)
  simp only [Bool.and_eq_true,decide_eq_true_eq] at hp
  exact ⟨w,hr,hp,hooks_end_on_final_state hr⟩

end Varmq.Hooks
