import Varmq.Credit.Pass

namespace Varmq.Credit

open Interleaving
open Varmq.Lifecycle (LoopPc)

variable {r : Bool} {s : Shared} {c : Choice} {new : List Thread} {xs ys : List Thread} {k : ℕ}
  {pc : LoopPc} {look look' : Look} {src : Source}

-- A look of the loop takes items out of the storage, if it changes it at all.
structure Lowers (a b : Source) : Prop where
  hint : Untouched a b
  subscribed : b.subscribed = a.subscribed
  storage : b.storage ≤ a.storage

theorem Lowers.same (a : Source) : Lowers a a := ⟨.same a,rfl,Nat.le_refl _⟩

theorem arm_lowers (a : Source) (q : ArmPc) : Lowers a (armStep a q).1 := by
  refine ⟨arm_untouched a q,(arm_fixed a q).subscribed,?_⟩
  rcases armStep_src a q with he | he <;> rw [he] <;> exact Nat.le_refl _

theorem Strong.glance (h : Strong r s (xs ++ .worker (.loop k pc) look :: ys)) :
    Strong r { s with src } (xs ++ .worker (.loop k pc) look' :: (ys ++ new)) :=
  h.step id fun ho => by cases ho

theorem Sure.glance (hu : Lowers s.src src) (h : Sure r s (xs ++ .worker (.loop k pc) look :: ys)) :
    Sure r { s with src } (xs ++ .worker (.loop k pc) look' :: (ys ++ new)) := by
  intro hact hsole
  have hc := h hact (by rw [← hu.hint.sole]; exact hsole)
  refine ⟨fun hr hw => (hc.wet hr ?_).glance,fun hn => ?_⟩
  · unfold Wet at hw ⊢
    rw [hu.hint.remaining,hu.hint.dryAt,hu.hint.pokes] at hw
    exact hw
  · exact (hc.stored (Nat.lt_of_lt_of_le hn hu.storage)).imp Strong.glance fun ⟨hr,hsv⟩ =>
      ⟨hr,hsv.other (fun _ => rfl) hu.hint.pokes hu.subscribed⟩

theorem Fine.glance (hu : Lowers s.src src) (h : Fine r s (xs ++ .worker (.loop k pc) look :: ys)) :
    Fine r { s with src } (xs ++ .worker (.loop k pc) look' :: (ys ++ new)) :=
  fun hfree => (h hfree).glance hu

theorem Shown.glance (h : Shown r s (xs ++ .worker (.loop k pc) look :: ys) look)
    (hsole : src.sole = s.src.sole) (hp : src.pokes = s.src.pokes)
    (hsub : src.subscribed = s.src.subscribed) (hst : src.storage ≤ s.src.storage)
    (hprom : Promise s.src look → Promise src look') (hpop : popping look' = true → popping look = true)
    (harm : r = true → arming s.src look = true →
      Found r { s with src } (xs ++ .worker (.loop k pc) look' :: (ys ++ new)) look') :
    Shown r { s with src } (xs ++ .worker (.loop k pc) look' :: (ys ++ new)) look' := by
  intro hact hs hexp
  have hexp' : Expects r s.src :=
    hexp.imp (fun hn => Nat.lt_of_lt_of_le hn hst) fun he => ⟨he.1,hsub.symm.trans he.2⟩
  rcases h hact (by rw [← hsole]; exact hs) hexp' with h | ⟨t,ht,ho⟩ | ⟨hr,h | h⟩
  · exact .inl (hprom h)
  · rcases mem_split ht with ht | rfl
    · exact .inr (.inl ⟨t,mem_of_act ht,ho⟩)
    · cases ho
  · exact harm hr h
  · refine .inr (.inr ⟨hr,.inr ?_⟩)
    have hsv : Saved { s with src } (xs ++ .worker (.loop k pc) look' :: (ys ++ new)) (popping look) :=
      h.other (fun _ => rfl) hp hsub
    cases hl' : popping look' with
    | true =>
      rw [hpop hl'] at hsv
      exact hsv
    | false =>
      obtain ⟨t,ht,ha⟩ := hsv
      exact ⟨t,ht,rescues_mono ha⟩

theorem Promise.lowers (hu : Lowers s.src src) (hl : popping look = false) (hl' : popping look' = false)
    (h : Promise s.src look) : Promise src look' :=
  (hu.hint.wet (h.wet hl)).promise hl'

theorem Shown.lowers (h : Shown r s (xs ++ .worker (.loop k pc) look :: ys) look)
    (hu : Lowers s.src src) (hl : fetching look = false) (hl' : fetching look' = false) :
    Shown r { s with src } (xs ++ .worker (.loop k pc) look' :: (ys ++ new)) look' := by
  have hp' := fetching_popping hl'
  refine h.glance hu.hint.sole hu.hint.pokes hu.subscribed hu.storage
    (.lowers hu (fetching_popping hl) hp') (fun he => ?_) fun _ ha => ?_
  · rw [hp'] at he
    cases he
  · rw [fetching_arming hl] at ha
    cases ha

-- An empty hint with nobody about to poke leaves the storage to the timer.
theorem Shown.fine {ts : List Thread} (h : Shown r s ts look) (hl : fetching look = false)
    (hd : ¬Wet s.src) : Fine r s ts := by
  intro _ hact hsole
  refine ⟨fun _ hw => absurd hw hd,fun hn => ?_⟩
  rcases (h hact hsole (.inl hn)).rest hl with hw | hst | hsv
  · exact absurd hw hd
  · exact .inl hst
  · exact .inr hsv

theorem ready_checks {q q' : ReadyPc} (h : Checks r s (xs ++ .worker (.loop k pc) look :: ys) (.ready q))
    (hsh : Shown r s (xs ++ .worker (.loop k pc) look :: ys) look) (hl : fetching look = false)
    (hs : readyStep s.src q = some q') :
    Checks r s (xs ++ .worker (.loop k pc) look' :: (ys ++ new)) (.ready q') := by
  have hfine : Fine r s (xs ++ .worker (.loop k pc) look :: ys) →
      Fine r s (xs ++ .worker (.loop k pc) look' :: (ys ++ new)) := fun hf => hf.glance (.same _)
  cases q with
  | remaining =>
    cases hs
    split
    · trivial
    · exact Nat.eq_zero_of_not_pos ‹_›
  | pokes =>
    cases hs
    have hr : s.src.remaining = 0 := h
    refine ⟨hr,fun hd => hfine (hsh.fine hl ?_)⟩
    rintro (hw | hw)
    · omega
    · exact hw hd
  | dryAt p =>
    cases hs
    by_cases hd : s.src.dryAt = some p
    · rw [hd,decide_eq_false (not_not_intro rfl)]
      exact hfine (h.2 hd)
    · rw [decide_eq_true hd]
      trivial
  | done b => cases hs

theorem after_checks {ts : List Thread} (h : Fine r s ts) (o : Option ArmPc) :
    Checks r s ts (afterCheck o) := by
  cases o <;> exact h

theorem check_checks {b : Bool} (h : Checks r s (xs ++ .worker (.loop k pc) look :: ys) look)
    (hsh : Shown r s (xs ++ .worker (.loop k pc) look :: ys) look)
    (hs : checkStep s.src b look c = some (src,look',new)) :
    Lowers s.src src ∧ Checks r { s with src } (xs ++ .worker (.loop k pc) look' :: (ys ++ new)) look' := by
  have hl := checks_look h
  unfold checkStep at hs
  split at hs
  · obtain ⟨q,hq,heq⟩ := Option.map_eq_some_iff.mp hs
    cases heq
    exact ⟨.same _,@ready_checks r s _ xs ys k pc .idle (.ready q) .remaining q trivial hsh hl hq⟩
  · split at hs <;> cases hs
    exact ⟨.same _,Fine.glance (.same _) h⟩
  · obtain ⟨q,hq,heq⟩ := Option.map_eq_some_iff.mp hs
    cases heq
    exact ⟨.same _,ready_checks h hsh hl hq⟩
  · rename_i q
    cases hs
    have hu := arm_lowers s.src q
    exact ⟨hu,after_checks (Fine.glance hu h) _⟩
  · cases hs

theorem pop_result {a b : Source} {want g n : ℕ} (hw : 0 < want) (hs : popStep a want g n = some (b,look')) :
    Lowers a b ∧ ∃ p : Pop, look' = .popped p ∧ p.g = g ∧ p.err = false ∧ p.n ≤ want ∧
      (0 < b.storage → 0 < p.r) := by
  simp only [popStep] at hs
  split at hs
  · rename_i hr
    cases hs
    refine ⟨⟨⟨rfl,rfl,rfl,rfl,rfl⟩,rfl,Nat.sub_le _ _⟩,_,rfl,rfl,rfl,Nat.min_le_left _ _,fun hpos => ?_⟩
    have hn : ¬min want a.storage = 0 := by
      simp only at hpos
      omega
    simp only [if_neg hn]
    exact hr.2 hpos
  · cases hs

theorem after_pops {left : ℕ} {p : Pop} (h : p.err = false ∧ p.n ≤ left) (o : Option ArmPc) :
    Pops s left (afterArm p o) ∧ popping (afterArm p o) = false := by
  cases o with
  | some q => exact ⟨h,rfl⟩
  | none =>
    simp only [afterArm,h.1,Bool.false_eq_true,if_false]
    exact ⟨h.2,rfl⟩

-- The arm after a dry mark starts the timer if the flag was not set before.
theorem mark_found {q : ArmPc} {p : Pop}
    (hck : Clocked s.src (xs ++ .worker (.loop k pc) (.markArm q p) :: ys))
    (hl : popping (afterArm p (armStep s.src q).2.1) = false) (hr : r = true)
    (ha : arming s.src (.markArm q p) = true) :
    Found r { s with src := (armStep s.src q).1 }
      (xs ++ .worker (.loop k pc) (afterArm p (armStep s.src q).2.1) :: (ys ++ (armStep s.src q).2.2))
      (afterArm p (armStep s.src q).2.1) := by
  refine .inr (.inr ⟨hr,?_⟩)
  cases q with
  | load =>
    have hsub : s.src.subscribed = false := by simpa [arming] using ha
    refine .inl ?_
    simp only [armStep,hsub,Bool.false_eq_true,if_false]
    rfl
  | cas =>
    refine .inr ⟨_,cas_timer hck (fun he => by cases he),?_⟩
    rw [hl]
    rfl

theorem fetch_pops {left : ℕ} (hck : Clocked s.src (xs ++ .worker (.loop k pc) look :: ys))
    (h : Pops s left look) (hsh : Shown r s (xs ++ .worker (.loop k pc) look :: ys) look)
    (hf : c = .fail → ∀ g, look ≠ .pop g) (hs : fetchStep s.src left look c = some (src,look',new)) :
    Pops { s with src } left look' ∧
      Shown r { s with src } (xs ++ .worker (.loop k pc) look' :: (ys ++ new)) look' := by
  unfold fetchStep at hs
  split at hs
  · cases hs
    exact ⟨h,hsh.lowers (.same _) rfl rfl⟩
  · rename_i g n
    obtain ⟨⟨a,h'⟩,hpop,heq⟩ := Option.map_eq_some_iff.mp hs
    cases heq
    obtain ⟨hu,p,rfl,-,herr,hle,hpos⟩ := pop_result h hpop
    refine ⟨⟨herr,hle⟩,fun _ _ hexp => ?_⟩
    rcases hexp with hn | ⟨hr,hsub⟩
    · exact .inl (.inl (hpos hn))
    · exact popping_found rfl hr hsub
  · exact absurd rfl (hf rfl _)
  · cases hs
    exact ⟨⟨h,rfl⟩,hsh.glance rfl rfl rfl (Nat.le_refl _) id (fun _ => rfl) fun hr ha => .inr (.inr ⟨hr,.inl ha⟩)⟩
  · rename_i p
    cases hs
    split
    · exact ⟨h,hsh.glance rfl rfl rfl (Nat.le_refl _) id (fun _ => rfl) fun hr ha =>
        .inr (.inr ⟨hr,.inl ha⟩)⟩
    · exact ⟨h.1.2,fun _ _ _ => .inl trivial⟩
  · rename_i p
    cases hs
    refine ⟨h.1,hsh.glance rfl rfl rfl (Nat.le_refl _) ?_ (fun he => by cases he) fun hr ha =>
      .inr (.inr ⟨hr,.inl ha⟩)⟩
    rintro (hr | hg)
    · exact .inl (by rw [h.2]; exact hr)
    · exact .inr fun he => absurd (Option.some.inj he) (Nat.ne_of_lt hg)
  · rename_i q p
    cases hs
    obtain ⟨hp,hl⟩ := @after_pops { s with src := (armStep s.src q).1 } left p h (armStep s.src q).2.1
    have hu := arm_lowers s.src q
    exact ⟨hp,hsh.glance hu.hint.sole hu.hint.pokes hu.subscribed hu.storage (.lowers hu rfl hl)
      (fun he => absurd (hl.symm.trans he) Bool.false_ne_true) (mark_found hck hl)⟩
  · cases hs
    exact ⟨h,fun _ _ _ => .inl (.inr fun he => by cases he)⟩
  · cases hs
    exact ⟨Nat.le_of_succ_le h,hsh.lowers (.same _) rfl rfl⟩
  · cases hs

theorem next_lowers (hs : nextStep s.src look c = some (src,look',new)) :
    Lowers s.src src ∧ fetching look = false ∧ fetching look' = false := by
  have hone : Lowers s.src { s.src with storage := s.src.storage - 1 } :=
    ⟨⟨rfl,rfl,rfl,rfl,rfl⟩,rfl,Nat.sub_le _ _⟩
  unfold nextStep at hs
  split at hs
  · cases hs
    refine ⟨.same _,rfl,?_⟩
    split <;> rfl
  · split at hs <;> cases hs
    · exact ⟨.same _,rfl,rfl⟩
    · exact ⟨hone,rfl,rfl⟩
  · split at hs <;> cases hs
    exact ⟨hone,rfl,rfl⟩
  · split at hs <;> cases hs
    exact ⟨hone,rfl,rfl⟩
  · cases hs

-- What the loop knows of dryAt and pokes stays true of its own looks.
theorem look_known (hp : Past s.src) (hk : Known s.src look)
    (hs : lookStep s.src (.loop k pc) look c = some (src,look',new)) : Past src ∧ Known src look' := by
  have hcheck : ∀ {b}, checkStep s.src b look c = some (src,look',new) → Past src ∧ Known src look' := by
    intro b hs
    unfold checkStep at hs
    split at hs
    · obtain ⟨q,hq,heq⟩ := Option.map_eq_some_iff.mp hs
      cases heq
      exact ⟨hp,@ready_known s .remaining q hp trivial hq⟩
    · split at hs <;> cases hs
      exact ⟨hp,trivial⟩
    · obtain ⟨q,hq,heq⟩ := Option.map_eq_some_iff.mp hs
      cases heq
      exact ⟨hp,ready_known hp hk hq⟩
    · cases hs
      exact ⟨(arm_untouched s.src _).past hp,check_known _ _⟩
    · cases hs
  unfold lookStep at hs
  split at hs
  · split at hs <;> cases hs
    exact ⟨hp,trivial⟩
  · split at hs <;> cases hs
    exact ⟨hp,trivial⟩
  · exact hcheck hs
  · exact hcheck hs
  · unfold fetchStep at hs
    split at hs
    · cases hs
      exact ⟨hp,Nat.le_refl _⟩
    · obtain ⟨⟨a,h⟩,hpop,heq⟩ := Option.map_eq_some_iff.mp hs
      cases heq
      obtain ⟨hu,n,m,short,rfl⟩ := pop_untouched hpop
      exact ⟨hu.past hp,by rw [Known,hu.pokes]; exact hk⟩
    · cases hs
      exact ⟨hp,hk⟩
    · cases hs
      exact ⟨hp,hk⟩
    · cases hs
      refine ⟨hp,?_⟩
      split
      · exact hk
      · trivial
    · cases hs
      refine ⟨fun d hd => ?_,trivial⟩
      cases hd
      exact hk
    · cases hs
      exact ⟨(arm_untouched s.src _).past hp,after_known _ _ _⟩
    · cases hs
      exact ⟨(fun d hd => by cases hd),trivial⟩
    · cases hs
      exact ⟨hp,trivial⟩
    · cases hs
  · obtain ⟨hu,-,-⟩ := next_lowers hs
    refine ⟨hu.hint.past hp,?_⟩
    unfold nextStep at hs
    split at hs
    · cases hs
      split <;> trivial
    · split at hs <;> cases hs <;> trivial
    · split at hs <;> cases hs
      trivial
    · split at hs <;> cases hs
      trivial
    · cases hs
  · cases hs

theorem look_place (hb : s.src.batch = true)
    (hck : Clocked s.src (xs ++ .worker (.loop k pc) look :: ys))
    (h : Reached r s (xs ++ .worker (.loop k pc) look :: ys) pc look)
    (hf : c = .fail → ∀ g, look ≠ .pop g)
    (hs : lookStep s.src (.loop k pc) look c = some (src,look',new)) :
    Place r { s with src } (xs ++ .worker (.loop k pc) look' :: (ys ++ new)) pc look' ∧
      Shown r { s with src } (xs ++ .worker (.loop k pc) look' :: (ys ++ new)) look' ∧
      (lone pc look' = true → s.src.sole = true) := by
  have hplace := h.place
  unfold lookStep at hs
  split at hs
  · rename_i heq
    cases heq
    split at hs <;> cases hs
    rename_i hn
    refine ⟨⟨rfl,fun _ hsole => absurd ?_ hn⟩,h.shown.lowers (.same _) rfl rfl,fun he => by cases he⟩
    rw [hb,Bool.and_true]
    exact hsole
  · rename_i heq
    cases heq
    split at hs <;> cases hs
    rename_i hy
    exact ⟨rfl,h.shown.lowers (.same _) rfl rfl,fun _ => (Bool.and_eq_true_iff.mp hy).1⟩
  · rename_i heq
    cases heq
    obtain ⟨hu,hc⟩ := check_checks hplace h.shown hs
    exact ⟨hc,h.shown.lowers hu (checks_look hplace) (checks_look hc),fun _ => h.sole rfl⟩
  · rename_i heq
    cases heq
    obtain ⟨hu,hc⟩ := check_checks hplace h.shown hs
    exact ⟨hc,h.shown.lowers hu (checks_look hplace) (checks_look hc),fun he => by cases he⟩
  · rename_i heq
    cases heq
    obtain ⟨hp,hsh⟩ := fetch_pops hck hplace h.shown hf hs
    exact ⟨hp,hsh,fun _ => h.sole rfl⟩
  · rename_i heq
    cases heq
    obtain ⟨hu,hl,hl'⟩ := next_lowers hs
    exact ⟨⟨hl',hplace.2.glance hu⟩,h.shown.lowers hu hl hl',fun he => by cases he⟩
  · cases hs

end Varmq.Credit
