import Varmq.Stats.Books

namespace Varmq.Stats

open Interleaving Topics

structure Books (s : Shared) (ts : List Thread) : Prop where
  fits : ∀ t ∈ ts, Fit t
  places : ∀ p, s.accepted.countP p = s.queue.countP p + s.parkedJobs.countP p +
    total (fun t => (hand t).countP p) ts + s.ran.countP p + s.dropped.countP p
  balance : ∀ m, s.processing m = s.parkedJobs.countP (of m) + weights m ts
  runs : ∀ m, s.completed m + s.failed m = s.ran.countP (of m)
  adds : ∀ m, s.submitted m = s.accepted.countP (of m) + total (adding m) ts
  ids : ∀ j, s.accepted.count j + total (fun t => (fresh t).count j) ts ≤
    one (decide (j.id < s.made))

variable {s s' : Shared} {l l' : Thread} {new xs ys ts : List Thread} {m : ℕ}

theorem weights_append (m : ℕ) (xs ys : List Thread) :
    weights m (xs ++ ys) = weights m xs + weights m ys := by
  simp [weights]

theorem weights_cons (m : ℕ) (t : Thread) (ts : List Thread) :
    weights m (t :: ts) = weight m t + weights m ts := by
  simp [weights]

theorem books_act (h : Books s (xs ++ l :: ys)) (he : Effect s l s' l' new) (hf : Fit l')
    (hn : ∀ t ∈ new, Fit t) : Books s' (xs ++ l' :: (ys ++ new)) := by
  constructor
  · exact forall_act (fun t ht => h.fits t (mem_of_other ht)) hf hn
  · intro p
    have hold := h.places p
    have heff := he.places p
    rw [total_split] at hold
    rw [total_act]
    omega
  · intro m
    have hold := h.balance m
    have heff := he.balance m
    simp only [weights_append,weights_cons] at hold ⊢
    omega
  · intro m
    have hold := h.runs m
    have heff := he.runs m
    omega
  · intro m
    have hold := h.adds m
    have heff := he.adds m
    rw [total_split] at hold
    rw [total_act]
    omega
  · intro j
    have hold := h.ids j
    have heff := he.ids j
    rw [total_split] at hold
    rw [total_act]
    omega

theorem entered (h : entry s l = true) : hand l = [] ∧ held l = [] ∧ run l = .empty ∧
    fresh l = [] ∧ (∀ m, adding m l = 0) ∧ Fit l := by
  cases l with
  | add m n pc => cases pc <;> first | exact ⟨rfl,rfl,rfl,rfl,fun _ => rfl,trivial⟩ | cases h
  | dispatch w pc =>
    cases pc <;> first | exact ⟨rfl,rfl,rfl,rfl,fun _ => rfl,fun _ => le_refl (0 : ℤ)⟩ | cases h
  | batch w st pc => cases h
  | purge pc => cases pc <;> first | exact ⟨rfl,rfl,rfl,rfl,fun _ => rfl,trivial⟩ | cases h
  | _ => exact ⟨rfl,rfl,rfl,rfl,fun _ => rfl,trivial⟩

theorem books_call (h : Books s ts) (he : entry s l = true) : Books s (ts ++ [l]) := by
  obtain ⟨hhand,hheld,hrun,hfresh,hadding,hfit⟩ := entered he
  constructor
  · exact forall_call h.fits hfit
  · intro p
    have hold := h.places p
    simp only [total_call,hhand,List.countP_nil]
    omega
  · intro m
    have hold := h.balance m
    have hweight : weight m l = 0 := by simp [weight,hheld,hrun,share,MemRun.empty]
    simp only [weights_append,weights_cons,weights_nil,hweight]
    omega
  · exact h.runs
  · intro m
    have hold := h.adds m
    simp only [total_call,hadding]
    omega
  · intro j
    have hold := h.ids j
    simp only [total_call,hfresh,List.count_nil]
    omega

theorem reached_books {w : World Shared Thread} (h : reached w) : Books w.shared w.threads := by
  refine Program.reach_invariant (I := Books) ?_ (fun _ _ _ hi _ he => books_call hi he) ?_ h
  · exact ⟨by simp [init],by simp [init,Shared.parkedJobs],
      by simp [init,Shared.parkedJobs,weights],by simp [init],by simp [init],by simp [init]⟩
  · intro s xs l ys c s' l' new hi _ hs
    obtain ⟨heff,hfit,hnew⟩ := step_effect (hi.fits l (by simp)) hs
    exact books_act hi heff hfit hnew

theorem processing_nonneg {w : World Shared Thread} (h : reached w) (m : ℕ) :
    0 ≤ w.shared.processing m := by
  have hb := reached_books h
  have hsum : 0 ≤ weights m w.threads := by
    refine List.sum_nonneg ?_
    intro x hx
    obtain ⟨t,ht,rfl⟩ := List.mem_map.mp hx
    exact weight_nonneg (hb.fits t ht) m
  rw [hb.balance m]
  omega

-- Under way: an Add, a Purge, a fill up to its send, a batch.
def inFlight : Thread → Bool
  | .add _ _ .returned => false
  | .add _ _ _ => true
  | .dispatch _ .plan => false
  | .dispatch _ (.unpark _ _) => false
  | .dispatch _ .returned => false
  | .dispatch _ _ => true
  | .batch _ _ .returned => false
  | .batch _ _ _ => true
  | .purge .returned => false
  | .purge _ => true
  | _ => false

theorem at_rest {t : Thread} (h : inFlight t = false) :
    hand t = [] ∧ (∀ m, weight m t = 0) ∧ fresh t = [] ∧ ∀ m, adding m t = 0 := by
  cases t with
  | add m n pc => cases pc <;> first | exact ⟨rfl,fun _ => rfl,rfl,fun _ => rfl⟩ | cases h
  | dispatch w pc => cases pc <;> first | exact ⟨rfl,fun _ => rfl,rfl,fun _ => rfl⟩ | cases h
  | batch w st pc => cases pc <;> first | exact ⟨rfl,fun _ => rfl,rfl,fun _ => rfl⟩ | cases h
  | purge pc => cases pc <;> first | exact ⟨rfl,fun _ => rfl,rfl,fun _ => rfl⟩ | cases h
  | _ => exact ⟨rfl,fun _ => rfl,rfl,fun _ => rfl⟩

def storedOf (s : Shared) (m : ℕ) : ℕ := s.queue.countP (of m)

def parkedOf (s : Shared) (m : ℕ) : ℕ := s.parkedJobs.countP (of m)

-- Taken by the storage, there no more, not parked, and never run.
def removedOf (s : Shared) (m : ℕ) : ℕ :=
  s.accepted.countP fun j => of m j && decide (j ∉ s.queue ∧ j ∉ s.parkedJobs ∧ j ∉ s.ran)

theorem placed (h : Books s ts) (hq : ∀ t ∈ ts, inFlight t = false) :
    s.accepted.Perm (s.queue ++ s.parkedJobs ++ s.ran ++ s.dropped) := by
  refine List.perm_iff_count.mpr fun j => ?_
  have hplaces := h.places (· == j)
  have hhands : total (fun t => (hand t).countP (· == j)) ts = 0 :=
    total_eq_zero.mpr fun t ht => by rw [(at_rest (hq t ht)).1]; rfl
  rw [hhands] at hplaces
  simp only [List.count_append]
  simp only [List.count] at hplaces ⊢
  omega

theorem accepted_nodup (h : Books s ts) : s.accepted.Nodup := by
  refine List.nodup_iff_count_le_one.mpr fun j => ?_
  have hids := h.ids j
  have hone : one (decide (j.id < s.made)) ≤ 1 := by
    unfold one
    split <;> omega
  omega

theorem removedOf_eq (h : Books s ts) (hq : ∀ t ∈ ts, inFlight t = false) (m : ℕ) :
    removedOf s m = s.dropped.countP (of m) := by
  have hperm := placed h hq
  have hnodup := hperm.nodup_iff.mp (accepted_nodup h)
  obtain ⟨-,-,hdisj⟩ := List.nodup_append.mp hnodup
  have hzero : (s.queue ++ s.parkedJobs ++ s.ran).countP (fun j =>
      of m j && decide (j ∉ s.queue ∧ j ∉ s.parkedJobs ∧ j ∉ s.ran)) = 0 := by
    refine List.countP_eq_zero.mpr fun j hj => ?_
    simp only [List.mem_append] at hj
    simp only [Bool.and_eq_true,decide_eq_true_eq]
    tauto
  have hsame : s.dropped.countP (fun j =>
      of m j && decide (j ∉ s.queue ∧ j ∉ s.parkedJobs ∧ j ∉ s.ran)) = s.dropped.countP (of m) := by
    refine List.countP_congr fun j hj => ?_
    have hno : j ∉ s.queue ++ s.parkedJobs ++ s.ran := fun hmem => hdisj j hmem j hj rfl
    simp only [List.mem_append] at hno
    simp only [Bool.and_eq_true,decide_eq_true_eq]
    tauto
  rw [removedOf,hperm.countP_eq,List.countP_append,hzero,hsame,Nat.zero_add]

theorem statistics_balance {w : World Shared Thread} (h : reached w) :
    (∀ m, 0 ≤ w.shared.processing m) ∧
    ((∀ t ∈ w.threads, inFlight t = false) → ∀ m,
      w.shared.processing m = parkedOf w.shared m ∧
      w.shared.submitted m = storedOf w.shared m + parkedOf w.shared m + w.shared.completed m +
        w.shared.failed m + removedOf w.shared m) := by
  refine ⟨processing_nonneg h,fun hq m => ?_⟩
  have hb := reached_books h
  constructor
  · have hzero : weights m w.threads = 0 := by
      refine List.sum_eq_zero ?_
      intro x hx
      obtain ⟨t,ht,rfl⟩ := List.mem_map.mp hx
      exact (at_rest (hq t ht)).2.1 m
    rw [hb.balance m,hzero,parkedOf,add_zero]
  · have hadding : total (adding m) w.threads = 0 :=
      total_eq_zero.mpr fun t ht => (at_rest (hq t ht)).2.2.2 m
    have hplaces := (placed hb hq).countP_eq (of m)
    have hruns := hb.runs m
    have hadds := hb.adds m
    simp only [List.countP_append] at hplaces
    rw [removedOf_eq hb hq,storedOf,parkedOf]
    omega

-- Three jobs of handle 7 go out in one batch; the first is run, the worker stops, two are parked.
def stopped : List (Event Thread Choice) :=
  [.call (.bind false),.act 0 .go,.call (.add 7 2 .count),.act 1 .go,.act 1 .go,.act 1 .go,
    .act 1 .go,.act 1 .go,.act 1 .go,.act 1 .go,.act 1 .go,.act 1 .go,
    .call (.dispatch 0 .plan),.act 2 (.batch 3),.act 2 .go,.act 2 .go,.act 2 .go,.act 2 .go,
    .act 2 .go,.act 2 .go,.act 2 .go,.act 2 .go,.act 2 .go,.act 2 .go,.act 2 .go,
    .act 3 .go,.act 3 .go,.act 3 .go,.act 3 .go,.act 3 .go,.act 3 .go,.act 3 .go,.act 3 .go,
    .call (.setHalting 0 true false),.act 4 .go,.act 3 .go,.act 3 .go,.act 3 .go]

theorem statistics_balance_stopped : ∃ w, reached w ∧ w.shared.processing 7 = 2 ∧
    w.shared.submitted 7 = storedOf w.shared 7 + parkedOf w.shared 7 + w.shared.completed 7 +
      w.shared.failed 7 + removedOf w.shared 7 := by
  obtain ⟨w,hw,hp⟩ := program.exists_reach_of_run always init stopped
    (fun w => (w.threads.all fun t => !inFlight t) && decide (parkedOf w.shared 7 = 2)) (by decide)
  simp only [Bool.and_eq_true,List.all_eq_true,Bool.not_eq_true',decide_eq_true_eq] at hp
  obtain ⟨hprocessing,hsubmitted⟩ := (statistics_balance hw).2 hp.1 7
  exact ⟨w,hw,by rw [hprocessing,hp.2]; rfl,hsubmitted⟩

end Varmq.Stats
