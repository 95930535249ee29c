import Varmq.Interleaving.Seen
import Varmq.Topics.Sending

namespace Varmq.Topics

open Interleaving

variable {T : Type} {s s' : Log T} {l l' : Thread T} {x : T} {c i v : ℕ} {xs ys ts : List (Thread T)}

-- What Len counts of an open cursor.
def Log.unread (s : Log T) (c : ℕ) : ℕ := s.head - (s.cursor c).offset

-- The scan of full has passed the open cursors that are not in rest.
structure Scanned (s : Log T) (rest : List ℕ) (m : Option ℕ) : Prop where
  opened : ∀ c ∈ rest, c ∈ s.opened
  passed : ∀ c ∈ s.opened, c ∈ rest ∨ ∃ v, m = some v ∧ v ≤ (s.cursor c).offset

def Checks (s : Log T) : AppendPc → Prop
  | .full rest m => Scanned s rest m
  | .loadOpen b | .loadClosed b _ | .loadTail b _ | .claim b _ _ => b = true ∧ Room s
  | _ => True

structure Bounded (s : Log T) (ts : List (Thread T)) : Prop where
  inv : Inv s ts
  limit : s.limit ≠ 0
  room : ∀ c ∈ s.opened, s.unread c ≤ s.limit
  append : ∀ x pc, .append x pc ∈ ts → Checks s pc
  new : ∀ b t h, .newCursor (.register b t h) ∈ ts → h = s.head

theorem Scanned.next {rest : List ℕ} {m : Option ℕ} (h : Scanned s (c :: rest) m) :
    Scanned s rest (some (slower m (s.cursor c).offset)) := by
  refine ⟨fun d hd => h.opened d (List.mem_cons_of_mem _ hd),fun d hd => ?_⟩
  have hle : slower m (s.cursor c).offset ≤ (s.cursor c).offset := by
    cases m with
    | none => exact Nat.le_refl _
    | some v => exact Nat.min_le_left _ _
  rcases h.passed d hd with hm | ⟨v,rfl,hv⟩
  · rcases List.mem_cons.mp hm with rfl | hm
    · exact .inr ⟨_,rfl,hle⟩
    · exact .inl hm
  · exact .inr ⟨_,rfl,Nat.le_trans (Nat.min_le_right _ _) hv⟩

theorem Scanned.room {m : Option ℕ} (h : Scanned s [] m) (hl : ¬s.limit ≤ s.head - m.getD 0) :
    Room s := by
  intro c hc
  rcases h.passed c hc with hm | ⟨v,rfl,hv⟩
  · cases hm
  · simp only [Option.getD_some] at hl
    omega

-- What a goroutine under l.mx relies on while another one moves.
structure Under (s s' : Log T) : Prop where
  head : s'.head = s.head
  limit : s'.limit = s.limit
  opened : s'.opened = s.opened
  offset : ∀ c ∈ s.opened, (s.cursor c).offset ≤ (s'.cursor c).offset

theorem Under.room (h : Under s s') (hr : Room s) : Room s' := by
  intro c hc
  rw [h.opened] at hc
  have h1 := hr c hc
  have h2 := h.offset c hc
  rw [h.head,h.limit]
  omega

theorem Under.checks (h : Under s s') {pc : AppendPc} (hk : Checks s pc) : Checks s' pc := by
  cases pc with
  | full rest m =>
    refine ⟨fun c hc => by rw [h.opened]; exact hk.opened c hc,fun c hc => ?_⟩
    rw [h.opened] at hc
    refine (hk.passed c hc).imp_right ?_
    rintro ⟨v,hm,hv⟩
    exact ⟨v,hm,Nat.le_trans hv (h.offset c hc)⟩
  | loadOpen b | loadClosed b n | loadTail b n | claim b n t => exact ⟨hk.1,h.room hk.2⟩
  | _ => trivial

-- On a bounded log head moves under l.mx only.
theorem Bounded.head (h : Bounded s (xs ++ l :: ys)) (hs : Act s l s' l')
    (hl : holdsLog l = false) : s'.head = s.head := by
  rcases head_cases hs with ⟨he,-⟩ | ⟨x,b,n,t,rfl,-,-⟩
  · exact he
  · obtain ⟨hb,-⟩ := h.append _ _ (by simp : Thread.append x (.claim b n t) ∈ _)
    rw [hb] at hl
    cases hl

theorem Bounded.under (h : Bounded s (xs ++ l :: ys)) (hs : Act s l s' l') (hl : holdsLog l = false) :
    Under s s' := by
  refine ⟨h.head hs hl,limit_same hs,?_,fun c hc => (h.inv.onward hs (h.inv.opened c hc)).offset⟩
  rcases opened_cases hs with ⟨he,-,-⟩ | ⟨b,t,p,rfl,-,-⟩ | ⟨c,rfl,-,-⟩
  · exact he
  · cases hl
  · cases hl

theorem Inv.alone {t : Thread T} (h : Inv s (xs ++ l :: ys)) (ht : t ∈ xs ++ ys)
    (hh : holdsLog t = true) : holdsLog l = false := by
  refine one_eq_zero (eq_zero_of_other (f := fun t => one (holdsLog t)) ?_ ht ?_)
  · rw [← h.log]
    exact one_le _
  · simp [hh]

theorem Bounded.append_other {pc : AppendPc} (h : Bounded s (xs ++ l :: ys)) (hs : Act s l s' l')
    (hu : .append x pc ∈ xs ++ ys) : Checks s' pc := by
  have hk := h.append x pc (mem_of_other hu)
  by_cases hp : pc.locked = true
  · exact (h.under hs (h.inv.alone hu hp)).checks hk
  · cases pc with
    | full rest m => exact absurd rfl hp
    | loadOpen b | loadClosed b n | loadTail b n | claim b n t => exact absurd hk.1 hp
    | _ => trivial

theorem Bounded.append_own {pc pc' : AppendPc} (h : Bounded s (xs ++ .append x pc :: ys))
    (hs : appendStep s x pc = some (s',pc')) : Checks s' pc' := by
  have hk := h.append x pc (by simp)
  cases pc with
  | loadLimit =>
    cases hs
    rw [if_neg h.limit]
    trivial
  | lock =>
    simp only [appendStep] at hs
    split at hs <;> cases hs
    trivial
  | check =>
    cases hs
    split
    · trivial
    · exact ⟨fun c hc => hc,fun c hc => .inl hc⟩
  | full rest m =>
    cases rest with
    | nil =>
      cases hs
      split
      · trivial
      · exact ⟨rfl,hk.room ‹_›⟩
    | cons c rest =>
      cases hs
      exact hk.next
  | loadOpen b =>
    cases hs
    exact hk
  | loadClosed b n =>
    cases hs
    split
    · cases b <;> trivial
    · exact hk
  | loadTail b n =>
    obtain ⟨t,-,heq⟩ := Option.map_eq_some_iff.mp hs
    cases heq
    exact hk
  | claim b n t =>
    cases hs
    trivial
  | next a t k =>
    simp only [appendStep] at hs
    split at hs
    · cases hs
      trivial
    · split at hs <;> cases hs <;> trivial
  | link a t k =>
    simp only [appendStep] at hs
    split at hs
    · cases hs
      trivial
    · split at hs <;> cases hs <;> trivial
  | publish a t =>
    cases hs
    cases a.locked <;> trivial
  | grow a t k | advance a t nx k | write a t | unlock n =>
    cases hs
    trivial
  | returned n => cases hs

-- The offset a NewCursor has read under l.mx is still the head.
theorem Bounded.new_step {b : Bool} {t p : ℕ} (h : Bounded s (xs ++ l :: ys)) (hs : Act s l s' l')
    (hu : .newCursor (.register b t p) ∈ xs ++ l' :: ys) : p = s'.head := by
  rcases mem_split hu with hu | hu
  · rw [h.head hs (h.inv.alone hu rfl)]
    exact h.new b t p (mem_of_other hu)
  · subst hu
    cases hs with
    | newCursor ha =>
      cases ha
      rfl

theorem Bounded.room_step (h : Bounded s (xs ++ l :: ys)) (hs : Act s l s' l') (hc : c ∈ s'.opened) :
    s'.unread c ≤ s'.limit := by
  have hlimit := limit_same hs
  have hold : c ∈ s.opened → s'.unread c ≤ s'.limit := by
    intro hc
    have h1 := h.room c hc
    have h2 := (h.inv.onward hs (h.inv.opened c hc)).offset
    unfold Log.unread at h1 ⊢
    rcases head_cases hs with ⟨he,-⟩ | ⟨x,b,n,t,rfl,he,-⟩
    · omega
    · have h3 := (h.append _ _ (by simp : Thread.append x (.claim b n t) ∈ _)).2 c hc
      omega
  rcases opened_cases hs with ⟨he,-,-⟩ | ⟨b,t,p,rfl,-,rfl⟩ | ⟨d,-,-,rfl⟩
  · rw [he] at hc
    exact hold hc
  · rcases List.mem_append.mp hc with hc | hc
    · exact hold hc
    · have hp := h.new b t p (by simp)
      rw [List.mem_singleton.mp hc,Log.unread,cursor_fresh]
      simp only [Log.register]
      omega
  · exact hold (List.mem_filter.mp hc).1

theorem bounded_act (h : Bounded s (xs ++ l :: ys)) (hs : (program T).step s l () = some (s',l',[])) :
    Bounded s' (xs ++ l' :: ys) := by
  obtain ⟨ha,-⟩ := step_act hs
  refine ⟨inv_act h.inv ha,?_,fun c hc => h.room_step ha hc,fun x pc hu => ?_,
    fun b t p hu => h.new_step ha hu⟩
  · rw [limit_same ha]
    exact h.limit
  · rcases mem_split hu with hu | hu
    · exact h.append_other ha hu
    · subst hu
      cases ha with
      | @append x pc₀ pc' s' ha =>
        obtain ⟨⟨s₁,pc₁⟩,hp,heq⟩ := Option.map_eq_some_iff.mp hs
        cases heq
        exact h.append_own hp

theorem bounded_call (h : Bounded s ts) (he : entry s l = true) : Bounded s (ts ++ [l]) := by
  refine ⟨inv_call h.inv (entry_outside he),h.limit,h.room,fun x pc hu => ?_,fun b t p hu => ?_⟩
  · rcases List.mem_append.mp hu with hu | hu
    · exact h.append x pc hu
    · rw [← List.mem_singleton.mp hu] at he
      cases pc <;> trivial
  · rcases List.mem_append.mp hu with hu | hu
    · exact h.new b t p hu
    · rw [← List.mem_singleton.mp hu] at he
      cases he

theorem bounded_new {limit : ℕ} (hl : 0 < limit) : Bounded (newBoundedLog limit : Log T) [] :=
  ⟨inv_new limit,Nat.ne_of_gt hl,(fun _ h => by cases h),(fun _ _ h => by cases h),
    fun _ _ _ h => by cases h⟩

theorem bounded_reach {limit : ℕ} {w : World (Log T) (Thread T)} (hl : 0 < limit)
    (h : (program T).Reach always (start (newBoundedLog limit)) w) :
    Bounded w.shared w.threads := by
  refine Program.reach_invariant (bounded_new hl) (fun _ _ _ h _ he => bounded_call h he)
    (fun s xs l ys u s' l' new h _ hs => ?_) h
  obtain ⟨-,rfl⟩ := step_act hs
  rw [List.append_nil]
  exact bounded_act h hs

theorem limit_reach {limit : ℕ} {w : World (Log T) (Thread T)}
    (h : (program T).Reach always (start (newBoundedLog limit)) w) : w.shared.limit = limit :=
  Program.reach_invariant (I := fun (s : Log T) (_ : List (Thread T)) => s.limit = limit) rfl
    (fun _ _ _ h _ _ => h)
    (fun _ _ _ _ _ _ _ _ h _ hs => (limit_same (step_act hs).1).trans h) h

-- An Append that has not returned yet.
def Calling (x : T) (l : Thread T) : Prop := ∃ pc, l = .append x pc ∧ ∀ n, pc ≠ .returned n

def Met (limit : ℕ) (s : Log T) : Prop :=
  s.closed = true ∨ s.opened = [] ∨ ∃ c ∈ s.opened, s.unread c = limit

abbrev Saw (limit : ℕ) (w : World (Log T) (Thread T)) (i : ℕ) (p : Log T → Thread T → Prop) : Prop :=
  Seen (program T) always (start (newBoundedLog limit)) w i p

-- What an Append has seen of the log since its call.
def Recalls (limit : ℕ) (w : World (Log T) (Thread T)) (i : ℕ) (x : T) : AppendPc → Prop
  | .full rest m => (m = none → rest ≠ []) ∧ ∀ v, m = some v → Saw limit w i fun s l =>
      Calling x l ∧ s.head = w.shared.head ∧ ∃ c ∈ s.opened, (s.cursor c).offset = v
  | .loadClosed _ n | .unlock n | .returned n =>
      n = 0 → Saw limit w i fun s l => Calling x l ∧ Met limit s
  | _ => True

theorem Recalls.tail {limit : ℕ} {w w' : World (Log T) (Thread T)} {pc : AppendPc}
    {e : Event (Thread T) Unit} (h : Recalls limit w i x pc)
    (hn : (program T).next w e = some w')
    (hh : pc.locked = true → w'.shared.head = w.shared.head) : Recalls limit w' i x pc := by
  cases pc with
  | full rest m =>
    refine ⟨h.1,fun v hv => ?_⟩
    rw [hh rfl]
    exact (h.2 v hv).tail rfl hn
  | loadClosed b n | unlock n | returned n => exact fun hz => (h hz).tail rfl hn
  | _ => trivial

theorem recalls_finish {limit : ℕ} {w : World (Log T) (Thread T)} {b : Bool} {n : ℕ}
    (h : n = 0 → Saw limit w i fun s l => Calling x l ∧ Met limit s) :
    Recalls limit w i x (finish b n) := by
  cases b <;> exact h

theorem recalls_own {limit : ℕ} {w w' : World (Log T) (Thread T)} {pc pc' : AppendPc}
    (hl : 0 < limit) (hr : (program T).Reach always (start (newBoundedLog limit)) w)
    (hi : w.threads[i]? = some (.append x pc)) (h : Recalls limit w i x pc)
    (hs : appendStep w.shared x pc = some (s',pc')) (hw : w'.shared = s')
    (hn : (program T).next w (.act i ()) = some w') : Recalls limit w' i x pc' := by
  have hb := bounded_reach hl hr
  have hlim := limit_reach hr
  have hmem := List.mem_of_getElem? hi
  have hk := hb.append x pc hmem
  have now : ∀ {p : Log T → Thread T → Prop}, p w.shared (.append x pc) → Saw limit w' i p :=
    fun hp => (Seen.now hr hi hp).tail rfl hn
  have calling : (∀ n, pc ≠ .returned n) → Calling x (.append x pc : Thread T) := fun hpc => ⟨pc,rfl,hpc⟩
  cases pc with
  | loadLimit =>
    cases hs
    split <;> trivial
  | lock =>
    simp only [appendStep] at hs
    split at hs
    · cases hs
    · cases hs
      trivial
  | check =>
    cases hs
    split
    case isTrue hc =>
      refine fun _ => now ⟨calling (fun _ hp => by cases hp),?_⟩
      exact hc.imp_right .inl
    case isFalse hc =>
      refine ⟨fun _ he => hc (.inr he),(fun v hv => by cases hv)⟩
  | full rest m =>
    cases rest with
    | nil =>
      cases hs
      split
      case isTrue hle =>
        intro _
        cases m with
        | none => exact absurd rfl (h.1 rfl)
        | some v =>
          refine ((h.2 v rfl).imp ?_).tail rfl hn
          rintro u l hu - ⟨hcall,hhead,c,hc,ho⟩
          refine ⟨hcall,.inr (.inr ⟨c,hc,?_⟩)⟩
          have hroom := (bounded_reach hl hu).room c hc
          rw [limit_reach hu] at hroom
          rw [hlim] at hle
          simp only [Log.unread,ho,hhead,Option.getD_some] at hroom hle ⊢
          omega
      case isFalse => trivial
    | cons c rest =>
      cases hs
      refine ⟨(fun hm => by cases hm),fun v hv => ?_⟩
      rw [hw]
      cases hv
      have hc := hk.opened c List.mem_cons_self
      cases m with
      | none => exact now ⟨calling (fun _ hp => by cases hp),rfl,c,hc,rfl⟩
      | some v =>
        rcases Nat.le_total v (w.shared.cursor c).offset with hle | hle
        · refine ((h.2 v rfl).imp ?_).tail rfl hn
          rintro u l - - ⟨h1,h2,d,hd,ho⟩
          exact ⟨h1,h2,d,hd,ho.trans (Nat.min_eq_right hle).symm⟩
        · exact now ⟨calling (fun _ hp => by cases hp),rfl,c,hc,(Nat.min_eq_left hle).symm⟩
  | loadOpen b =>
    cases hs
    intro hz
    refine now ⟨calling (fun _ hp => by cases hp),.inr (.inl ?_)⟩
    rw [hb.inv.open_] at hz
    exact List.eq_nil_of_length_eq_zero hz
  | loadClosed b n =>
    cases hs
    split
    case isTrue hc =>
      refine recalls_finish fun _ => ?_
      rcases hc with hc | hc
      · exact now ⟨calling (fun _ hp => by cases hp),.inl hc⟩
      · exact (h hc).tail rfl hn
    case isFalse => trivial
  | publish a t =>
    cases hs
    refine recalls_finish fun hz => ?_
    exact absurd hz (hb.inv.append x _ hmem).1.1
  | unlock n =>
    cases hs
    exact fun hz => (h hz).tail rfl hn
  | loadTail b n =>
    obtain ⟨t,-,heq⟩ := Option.map_eq_some_iff.mp hs
    cases heq
    trivial
  | next a t k | link a t k =>
    simp only [appendStep] at hs
    split at hs
    · cases hs
      trivial
    · split at hs <;> cases hs <;> trivial
  | claim b n t | grow a t k | advance a t nx k | write a t =>
    cases hs
    trivial
  | returned n => cases hs

theorem recalls_reach {limit : ℕ} {w : World (Log T) (Thread T)} (hl : 0 < limit)
    (h : (program T).Reach always (start (newBoundedLog limit)) w) :
    ∀ i x pc, w.threads[i]? = some (.append x pc) → Recalls limit w i x pc := by
  induction h with
  | refl => intro i x pc hi; cases hi
  | @tail u w e hu hok hn ih =>
    intro i x pc hi
    rcases Program.next_cases hn with ⟨l,rfl,he,rfl⟩ | ⟨xs,l,ys,c,s',l',new,rfl,hts,hs,rfl⟩
    · rcases Nat.lt_or_ge i u.threads.length with hlt | hge
      · rw [List.getElem?_append_left hlt] at hi
        exact (ih i x pc hi).tail hn fun _ => rfl
      · rw [List.getElem?_append_right hge] at hi
        rw [← List.mem_singleton.mp (List.mem_of_getElem? hi)] at he
        cases pc <;> trivial
    · obtain ⟨ha,rfl⟩ := step_act hs
      have hb := bounded_reach hl hu
      rw [hts] at hb
      rw [List.append_nil] at hi
      by_cases hix : i = xs.length
      · subst hix
        rw [getElem?_split] at hi
        obtain rfl := Option.some.inj hi
        cases ha with
        | @append x pc₀ pc' s' ha =>
          obtain ⟨⟨s₁,pc₁⟩,hp,heq⟩ := Option.map_eq_some_iff.mp hs
          cases heq
          have hold : u.threads[xs.length]? = some (.append x pc₀) := by
            rw [hts]
            exact getElem?_split _ _ _
          exact recalls_own hl hu hold (ih _ _ _ hold) hp rfl hn
      · have hold : u.threads[i]? = some (.append x pc) := by
          rw [hts,← List.append_nil ys]
          exact (getElem?_other hix hi).1
        have hmem := mem_of_getElem?_other hix hi
        exact (ih i x pc hold).tail hn fun hp => hb.head ha (hb.inv.alone hmem hp)

theorem bound_is_exact {limit : ℕ} {w : World (Log T) (Thread T)} (hl : 0 < limit)
    (h : (program T).Reach always (start (newBoundedLog limit)) w) :
    (∀ c ∈ w.shared.opened, w.shared.unread c ≤ limit) ∧
    ∀ (i : ℕ) (x : T), w.threads[i]? = some (.append x (.returned 0)) →
      ∃ u pc, (program T).Reach always (start (newBoundedLog limit)) u ∧
        (program T).Reach always u w ∧ u.threads[i]? = some (.append x pc) ∧
        (∀ n, pc ≠ .returned n) ∧ Met limit u.shared := by
  refine ⟨fun c hc => ?_,fun i x hi => ?_⟩
  · have hroom := (bounded_reach hl h).room c hc
    rw [limit_reach h] at hroom
    exact hroom
  · obtain ⟨u,l,h1,h2,h3,⟨pc,rfl,hpc⟩,hmet⟩ := recalls_reach hl h i x _ hi rfl
    exact ⟨u,pc,h1,h2,h3,hpc,hmet⟩

-- A cursor is opened on a log of limit 1, 7 is appended and 8 is refused.
def fullRun : List (Event (Thread ℕ) Unit) :=
  .call (.newCursor (.lock false)) :: (List.replicate 6 (.act 0 ()) : Events (Thread ℕ) Unit) ++
  .call (.append 7 .loadLimit) :: (List.replicate 13 (.act 1 ()) : Events (Thread ℕ) Unit) ++
  .call (.append 8 .loadLimit) :: (List.replicate 6 (.act 2 ()) : Events (Thread ℕ) Unit)

def refusedAt (w : World (Log ℕ) (Thread ℕ)) (i : ℕ) : Bool :=
  match w.threads[i]? with
  | some (.append 8 (.returned 0)) => true
  | _ => false

theorem bound_is_exact_full : ∃ w u pc, (program ℕ).Reach always (start (newBoundedLog 1)) w ∧
    w.shared.claims = [7] ∧ w.threads[2]? = some (.append 8 (.returned 0)) ∧
    (program ℕ).Reach always u w ∧ u.threads[2]? = some (.append 8 pc) ∧
    (∀ n, pc ≠ .returned n) ∧ Met 1 u.shared := by
  obtain ⟨w,hr,hp⟩ := Program.exists_reach_of_run (program ℕ) always (start (newBoundedLog 1)) fullRun
    (fun w => w.shared.claims = [7] && refusedAt w 2) (by decide +kernel)
  simp only [Bool.and_eq_true,decide_eq_true_eq] at hp
  have hi : w.threads[2]? = some (.append 8 (.returned 0)) := by
    have h := hp.2
    unfold refusedAt at h
    split at h
    · assumption
    · cases h
  obtain ⟨-,hmet⟩ := bound_is_exact Nat.one_pos hr
  obtain ⟨u,pc,-,h1,h2,h3,h4⟩ := hmet 2 8 hi
  exact ⟨w,u,pc,hr,hp.1,hi,h1,h2,h3,h4⟩

end Varmq.Topics
