import Varmq.Credit.Classic

namespace Varmq.Credit

open Interleaving
open Varmq.Lifecycle (LoopPc)

instance decidableWet (s : Source) : Decidable (Wet s) := inferInstanceAs (Decidable (_ ∨ _))

instance decidablePromise (s : Source) : (look : Look) → Decidable (Promise s look)
  | .popped _ | .check _ | .mark _ => inferInstanceAs (Decidable (_ ∨ _))
  | .wet _ => .isTrue trivial
  | .idle | .manager | .ready _ | .arm _ | .armed | .pop _ | .markArm _ _ | .emit _ | .erred => decidableWet s
  | .take | .taken _ _ => decidableWet s

def found (s : Source) (ts : List Thread) (look : Look) : Bool :=
  Promise s look || ts.any poking || arming s look || ts.any (rescues s (popping look))

def stirs (s : Shared) (ts : List Thread) : Bool :=
  s.core.signal || ts.any (strong true) || ts.any works

-- Something is going to find an item that lands now, though nobody announces it.
def finds (s : Shared) (ts : List Thread) (pc : LoopPc) (look : Look) : Bool :=
  if s.src.batch then !s.src.subscribed || found s.src ts look else !resting s pc look || stirs s ts

def everyLoop (p : LoopPc → Look → Bool) (ts : List Thread) : Bool :=
  ts.all fun
    | .worker (.loop _ pc) look => loopOver pc || p pc look
    | _ => true

-- Pops do not fail. An item lands before Subscribe, and one waits when the subscribed flag is set, only
-- while something is going to find it.
def noneMissed : Guard Shared Thread Choice
  | _, .call l => l = .enqueue false
  | w, .act i c =>
      match w.threads[i]? with
      | some (.enqueue false) =>
          w.shared.src.registered || !w.shared.src.sole || everyLoop (finds w.shared w.threads) w.threads
      | some (.distributed .subscribed) =>
          w.shared.src.storage = 0 ||
            everyLoop (fun _ => found { w.shared.src with subscribed := true } w.threads) w.threads
      | some (.worker _ (.pop _)) => c ≠ .fail
      | _ => true

variable {s s' : Shared} {c : Choice} {l l' t : Thread} {new : List Thread} {xs ys ts : List Thread}
  {k : ℕ} {pc : LoopPc} {look : Look}

theorem every_loop {p : LoopPc → Look → Bool} (h : everyLoop p ts = true)
    (hm : .worker (.loop k pc) look ∈ ts) (ho : loopOver pc = false) : p pc look = true := by
  have hp := List.all_eq_true.mp h _ hm
  simpa [ho] using hp

theorem found_found (h : found s.src ts look = true) : Found true s ts look := by
  simp only [found,Bool.or_eq_true,decide_eq_true_eq,List.any_eq_true] at h
  rcases h with ((h | h) | h) | h
  · exact .inl h
  · exact .inr (.inl h)
  · exact .inr (.inr ⟨rfl,.inl h⟩)
  · exact .inr (.inr ⟨rfl,.inr h⟩)

theorem stirs_stirs (h : stirs s ts = true) : Stirs s ts := by
  simp only [stirs,Bool.or_eq_true,List.any_eq_true] at h
  exact h.imp_left id

theorem missed_pop {i : ℕ} {w : World Shared Thread} {t : Lifecycle.Thread} {g : ℕ}
    (hok : noneMissed w (.act i c) = true) (hi : w.threads[i]? = some (.worker t (.pop g))) :
    c ≠ .fail := by
  simpa [noneMissed,hi] using hok

theorem missed_enqueue {i : ℕ} {w : World Shared Thread} (hok : noneMissed w (.act i c) = true)
    (hi : w.threads[i]? = some (.enqueue false)) (hsole : w.shared.src.sole = true) :
    w.shared.src.registered = true ∨ everyLoop (finds w.shared w.threads) w.threads = true := by
  simpa [noneMissed,hi,hsole] using hok

theorem missed_flag {i : ℕ} {w : World Shared Thread} (hok : noneMissed w (.act i c) = true)
    (hi : w.threads[i]? = some (.distributed .subscribed)) (hn : 0 < w.shared.src.storage) :
    everyLoop (fun _ => found { w.shared.src with subscribed := true } w.threads) w.threads = true := by
  have hne : w.shared.src.storage ≠ 0 := Nat.ne_of_gt hn
  simpa [noneMissed,hi,hne] using hok

theorem heard (hb : s.src.batch = true)
    (hok : noneMissed ⟨s,xs ++ l :: ys⟩ (.act xs.length c) = true) (hs : Act s c l s' l' new)
    (hm : .worker (.loop k pc) look ∈ xs ++ ys) (ho : loopOver pc = false) :
    Heard true s s' l (xs ++ l :: ys) look := by
  refine ⟨fun he => ⟨rfl,fun hsole => ?_⟩,fun he => ⟨rfl,fun _ hn => ?_⟩⟩
  · subst he
    rcases missed_enqueue hok (getElem?_split xs ys _) hsole with hreg | hall
    · exact .inl hreg
    · have hf := every_loop hall (mem_of_other hm) ho
      simp only [finds,hb,if_true,Bool.or_eq_true,Bool.not_eq_true'] at hf
      exact .inr (hf.imp_right found_found)
  · subst he
    obtain ⟨rfl,-,-⟩ := flag_act hs
    have hall := missed_flag hok (getElem?_split xs ys _) hn
    exact found_found (every_loop hall (mem_of_other hm) ho)

theorem binding_core (n : ℕ) : Lifecycle.Inv (newCore n false) [.loop 0 .select,.notify true] :=
  ⟨by constructor <;> simp [newCore,Lifecycle.Weights.zero,Lifecycle.weights,
    Lifecycle.loopWeights,Lifecycle.Weights.add],fun t ht => by
      rcases List.mem_cons.mp ht with rfl | ht
      · trivial
      · rw [List.mem_singleton.mp ht]
        trivial⟩

theorem told_distributed (n m : ℕ) :
    Told true (distributed true n m).shared (distributed true n m).threads := by
  refine ⟨binding_core n,rfl,fun t ht => ?_,.inr ⟨.distributed .lock,by simp [distributed],.inl rfl⟩,
    (fun d hd => by cases hd),(fun hr => by cases hr),fun k pc look hm ho => ?_⟩
  · rcases List.mem_cons.mp ht with rfl | ht
    · rfl
    · rw [List.mem_singleton.mp ht]
      rfl
  · rcases List.mem_cons.mp hm with he | hm
    · cases he
      exact ⟨trivial,(fun _ hsole => by cases hsole),(fun he => by cases he),rfl,fun _ _ hsole => by cases hsole⟩
    · cases List.mem_singleton.mp hm

theorem served_distributed (n m : ℕ) :
    Served (distributed false n m).shared (distributed false n m).threads := by
  refine ⟨binding_core n,rfl,rfl,fun t ht => ?_,.inr ⟨.distributed .lock,by simp [distributed],.inl rfl⟩,
    fun k pc look hm ho => ?_⟩
  · rcases List.mem_cons.mp ht with rfl | ht
    · rfl
    · rw [List.mem_singleton.mp ht]
      rfl
  · rcases List.mem_cons.mp hm with he | hm
    · cases he
      exact ⟨rfl,fun _ _ hsole => by cases hsole⟩
    · cases List.mem_singleton.mp hm

theorem told_binding {n m : ℕ} {w : World Shared Thread}
    (h : program.Reach noneMissed (distributed true n m) w) : Told true w.shared w.threads := by
  refine Program.reach_invariant (told_distributed n m) ?_ ?_ h
  · intro s ts l h hok he
    have hl : l = .enqueue false := of_decide_eq_true hok
    rw [hl] at he ⊢
    exact h.call rfl (fun t look hn => by cases hn) (core_call h.core he)
  · intro s xs l ys c s' l' new h hok hs
    refine h.act (step_act hs) (fun hc t g hl => ?_) fun k pc look hm ho =>
      heard h.batch hok (step_act hs) hm ho
    exact missed_pop hok (by rw [hl]; exact getElem?_split xs ys _) hc

theorem served_binding {n m : ℕ} {w : World Shared Thread}
    (h : program.Reach noneMissed (distributed false n m) w) : Served w.shared w.threads := by
  refine Program.reach_invariant (served_distributed n m) ?_ ?_ h
  · intro s ts l h hok he
    have hl : l = .enqueue false := of_decide_eq_true hok
    rw [hl]
    exact h.call
  · intro s xs l ys c s' l' new h hok hs
    refine h.act (step_act hs) fun hl k pc look hm ho hr hsole => ?_
    subst hl
    rcases missed_enqueue hok (getElem?_split xs ys _) hsole with hreg | hall
    · exact .inl hreg
    · have hf := every_loop hall (mem_of_other hm) ho
      simp only [finds,h.batch,Bool.false_eq_true,if_false,hr,Bool.not_true,Bool.false_or] at hf
      exact .inr (stirs_stirs hf)

-- What may still wake the loop: a signal to come, a timer or its callback, and over plain storage a
-- batch that has not ended.
def due (batch : Bool) (t : Thread) : Bool :=
  strong true t || (match t with
    | .resync pc => pc ≠ .done
    | _ => false) || !batch && works t

theorem rescues_due {src : Source} {b : Bool} (h : rescues src false t = true) : due b t = true := by
  unfold rescues at h
  unfold due
  split at h <;> first | rfl | cases h

theorem bind_loses_no_announcement {b : Bool} {n m : ℕ} {w : World Shared Thread}
    (h : program.Reach noneMissed (distributed b n m) w)
    (hret : ∀ pc, .distributed pc ∈ w.threads → pc = .returned)
    (hq : ∀ t ∈ w.threads, due b t = false) : ¬Stuck w.shared w.threads := by
  have hsole : (w.shared.src.sole = true ∨ ∃ t ∈ w.threads, t = .distributed .lock ∨
      t = .distributed .store) → w.shared.src.sole = true := by
    rintro (hs | ⟨t,hm,rfl | rfl⟩)
    · exact hs
    · cases hret _ hm
    · cases hret _ hm
  have hstrong : ¬∃ t ∈ w.threads, strong true t = true := by
    rintro ⟨t,ht,ho⟩
    have hdue := hq t ht
    simp only [due,ho,Bool.true_or] at hdue
    cases hdue
  intro hst
  have hsig : ¬Strong true w.shared w.threads := by
    rintro (hs | hs)
    · rw [hst.signal] at hs
      cases hs
    · exact hstrong hs
  cases b with
  | true =>
    have ht := told_binding h
    rcases (hst.covers ht (hsole ht.bound)).stored hst.item with hs | ⟨-,t,hm,ha⟩
    · exact hsig hs
    · have hdue := hq t hm
      rw [rescues_due ha] at hdue
      cases hdue
  | false =>
    have ht := served_binding h
    obtain ⟨k,look,hm⟩ := hst.loop
    have hact : w.shared.core.status.isActive = true := by
      rcases hst.active with he | he <;> rw [he] <;> rfl
    have hrest := (ht.loops k _ look hm rfl).tended (decide_eq_true hst.free) hact (hsole ht.bound) hst.item
    rcases hrest with hs | ⟨t,hm,hw⟩
    · exact hsig hs
    · have hdue := hq t hm
      simp only [due,hw,Bool.not_false,Bool.and_self,Bool.or_true] at hdue
      cases hdue

-- Two items land after Subscribe and a single slot takes the first.
def twoLand : List (Event Thread Choice) :=
  [.act 1 .go,.act 1 .go,.act 1 .go,.act 1 .go,.act 1 .go,.act 1 .go,
    .call (.enqueue false),.act 2 .go,.act 3 .go,.act 3 .go,
    .call (.enqueue false),.act 4 .go,.act 5 .go,.act 5 .go,
    .act 0 (.core (.signal true)),.act 0 .go,.act 0 (.core .go),.act 0 .go,.act 0 .go,.act 0 .go,
    .act 0 (.core (.flag true)),.act 0 (.core .go),.act 0 (.core .go),.act 0 (.core .go),
    .act 0 (.core .go),.act 0 (.core .go),.act 0 .go,.act 0 (.pop 1),.act 0 .go,.act 0 .go,.act 0 .go,
    .act 0 (.core (.flag true)),.act 0 (.core .go),.act 0 (.core .go),.act 0 (.core (.flag false)),
    .act 0 .go,.act 0 (.core (.flag true)),
    .act 0 (.core (.signal true)),.act 0 .go,.act 0 (.core .go),.act 0 .go,
    .act 0 (.core (.flag true)),.act 0 (.core .go),.act 0 (.core .go)]

theorem bind_loses_no_announcement_waiting : ∃ w, program.Reach noneMissed (distributed true 1 0) w ∧
    w.shared.src.storage = 1 ∧ (∀ t ∈ w.threads, due true t = false) ∧ ¬Stuck w.shared w.threads := by
  obtain ⟨w,hw,hp⟩ := Program.exists_reach_of_run program noneMissed (distributed true 1 0) twoLand
    (fun w => w.shared.src.storage = 1 && (w.threads.all fun t => !due true t) &&
      w.threads.all fun
        | .distributed pc => pc = .returned
        | _ => true) (by decide)
  simp only [Bool.and_eq_true,decide_eq_true_eq,List.all_eq_true,Bool.not_eq_true'] at hp
  obtain ⟨⟨hn,hq⟩,hret⟩ := hp
  exact ⟨w,hw,hn,hq,bind_loses_no_announcement hw (fun pc hm => of_decide_eq_true (hret _ hm)) hq⟩

end Varmq.Credit
