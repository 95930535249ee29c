import Varmq.Serve.Step

namespace Varmq.Serve

open Interleaving

variable {s s' : Shared} {n m : ℕ} {p : Payload}

theorem offered (h : s.offer n p = some s') :
    s.chan n = none ∧ s' = { s with chan := Function.update s.chan n (some p) } := by
  simp only [Shared.offer] at h
  split at h
  · rename_i hc
    exact ⟨hc,(Option.some.inj h).symm⟩
  · cases h

theorem count_cons_at (m n : ℕ) (ns : List ℕ) : (n :: ns).count m = ns.count m + [n].count m := by
  simp [List.count_cons]

theorem count_at_self (n : ℕ) : [n].count n = 1 := by
  simp

theorem count_at_of_ne (h : m ≠ n) : [n].count m = 0 := by
  simp [Ne.symm h]

theorem jobIn_offer (h : s.offer n p = some s') (hp : p.ok = true) (m : ℕ) :
    jobIn s' m = jobIn s m + [n].count m ∧ stopIn s' m = stopIn s m := by
  obtain ⟨hc,rfl⟩ := offered h
  by_cases hm : m = n
  · subst hm
    simp [jobIn,stopIn,hc,hp]
  · simp [jobIn,stopIn,hm,count_at_of_ne hm]

theorem stopIn_offer (h : s.offer n p = some s') (hp : p.ok = false) (m : ℕ) :
    jobIn s' m = jobIn s m ∧ stopIn s' m = stopIn s m + [n].count m := by
  obtain ⟨hc,rfl⟩ := offered h
  by_cases hm : m = n
  · subst hm
    simp [jobIn,stopIn,hc,hp]
  · simp [jobIn,stopIn,hm,count_at_of_ne hm]

theorem jobIn_take (hc : s.chan n = some p) (hp : p.ok = true) (m : ℕ) :
    jobIn s m = jobIn (s.take n) m + [n].count m ∧ stopIn (s.take n) m = stopIn s m := by
  by_cases hm : m = n
  · subst hm
    simp [jobIn,stopIn,Shared.take,hc,hp]
  · simp [jobIn,stopIn,Shared.take,hm,count_at_of_ne hm]

theorem stopIn_take (hc : s.chan n = some p) (hp : p.ok = false) (m : ℕ) :
    jobIn (s.take n) m = jobIn s m ∧ stopIn s m = stopIn (s.take n) m + [n].count m := by
  by_cases hm : m = n
  · subst hm
    simp [jobIn,stopIn,Shared.take,hc,hp]
  · simp [jobIn,stopIn,Shared.take,hm,count_at_of_ne hm]

def hands (n : ℕ) (ts : List Thread) : ℕ := total (fun t => (serving t).count n) ts

def bare (n : ℕ) (ts : List Thread) : ℕ := total (fun t => (unserved t).count n) ts

def made (s : Shared) (n : ℕ) : ℕ := if n < s.nodes then 1 else 0

structure Counted (s : Shared) (ts : List Thread) : Prop where
  places : ∀ n, s.idle.count n + s.cache.count n + jobIn s n + hands n ts + bare n ts =
    made s n
  balance : ∀ n, total (inside n) ts = stopIn s n + s.idle.count n + jobIn s n + hands n ts

variable {xs ys new : List Thread} {l l' : Thread}

theorem hands_split (n : ℕ) :
    hands n (xs ++ l :: ys) = hands n (xs ++ ys) + (serving l).count n := total_split _ _ _ _

theorem bare_split (n : ℕ) :
    bare n (xs ++ l :: ys) = bare n (xs ++ ys) + (unserved l).count n := total_split _ _ _ _

theorem hands_act (n : ℕ) : hands n (xs ++ l :: (ys ++ new)) =
    hands n (xs ++ ys) + (serving l).count n + hands n new := total_act _ _ _ _ _

theorem bare_act (n : ℕ) : bare n (xs ++ l :: (ys ++ new)) =
    bare n (xs ++ ys) + (unserved l).count n + bare n new := total_act _ _ _ _ _

theorem offer_frame (h : s.offer n p = some s') (m : ℕ) :
    s'.idle = s.idle ∧ s'.cache = s.cache ∧ made s' m = made s m := by
  obtain ⟨-,rfl⟩ := offered h
  exact ⟨rfl,rfl,rfl⟩

-- A node is never lost or doubled: what leaves one place enters another.
theorem effect_places (he : Effect s l s' l' new) (m : ℕ) :
    s'.idle.count m + s'.cache.count m + jobIn s' m + (serving l').count m +
      (unserved l').count m + hands m new + bare m new + made s m =
    s.idle.count m + s.cache.count m + jobIn s m + (serving l).count m +
      (unserved l).count m + made s' m := by
  cases he with
  | quiet t =>
    have hs : _ + 0 = _ + 0 := t.serving m
    have hu : _ + 0 = _ + 0 := t.unserved m
    simp only [hands,bare,total_nil]
    omega
  | @pop _ n idle hi t =>
    have hs : _ + 0 = _ := t.serving m
    have hu : _ + 0 = _ + 0 := t.unserved m
    have hc := hi.count_eq m
    rw [count_cons_at] at hc
    have hm : made { s with idle := idle } m = made s m := rfl
    simp only [hands,bare,total_nil,jobIn]
    omega
  | @push _ n t =>
    have hs : _ = _ + 0 := t.serving m
    have hu : _ + 0 = _ + 0 := t.unserved m
    have hm : made (s.pushNode n) m = made s m := rfl
    simp only [hands,bare,total_nil,jobIn,Shared.pushNode,count_cons_at m n s.idle] at hm ⊢
    omega
  | @get _ n cache hi t =>
    have hs : _ + 0 = _ + 0 := t.serving m
    have hu : _ + 0 = _ := t.unserved m
    have hc := hi.count_eq m
    rw [count_cons_at] at hc
    have hm : made { s with cache := cache } m = made s m := rfl
    simp only [hands,bare,total_nil,jobIn]
    omega
  | fresh t =>
    have hs : _ + 0 = _ + 0 := t.serving m
    have hu : _ + 0 = _ := t.unserved m
    have hn : made s m + [s.nodes].count m = made { s with nodes := s.nodes + 1 } m := by
      simp only [made]
      by_cases hm : m = s.nodes
      · subst hm
        simp
      · rw [count_at_of_ne hm]
        have hiff : m < s.nodes ↔ m < s.nodes + 1 := by omega
        simp [hiff]
    simp only [hands,bare,total_nil,jobIn]
    omega
  | @spawn _ n t =>
    have hs : _ + 0 = _ := t.serving m
    have hu : _ = _ + 0 := t.unserved m
    have hnew : hands m [.serve n .recv] = 0 ∧ bare m [.serve n .recv] = 0 := ⟨rfl,rfl⟩
    omega
  | @stop _ _ n ho t =>
    have hs : _ = _ + 0 := t.serving m
    have hu : _ + 0 = _ := t.unserved m
    obtain ⟨hj,-⟩ := stopIn_offer ho rfl m
    obtain ⟨hidle,hcache,hmade⟩ := offer_frame ho m
    simp only [hands,bare,total_nil,hidle,hcache]
    omega
  | @put _ n t =>
    have hs : _ + 0 = _ + 0 := t.serving m
    have hu : _ = _ + 0 := t.unserved m
    have hm : made (s.put n) m = made s m := rfl
    simp only [hands,bare,total_nil,jobIn,Shared.put,count_cons_at m n s.cache] at hm ⊢
    omega
  | @send _ _ n p hok _ ho t =>
    have hs : _ = _ + 0 := t.serving m
    have hu : _ + 0 = _ + 0 := t.unserved m
    obtain ⟨hj,-⟩ := jobIn_offer ho hok m
    obtain ⟨hidle,hcache,hmade⟩ := offer_frame ho m
    have hsame : jobIn { s with sent := s.sent + 1 } m = jobIn s m ∧
      made { s with sent := s.sent + 1 } m = made s m := ⟨rfl,rfl⟩
    simp only [hands,bare,total_nil,hidle,hcache]
    omega
  | @run n p hl hc hok =>
    subst hl
    obtain ⟨hj,-⟩ := jobIn_take hc hok m
    have hsame : jobIn { s.take n with ran := s.ran ++ [p.items] } m = jobIn (s.take n) m ∧
      made { s.take n with ran := s.ran ++ [p.items] } m = made s m := ⟨rfl,rfl⟩
    simp only [hands,bare,total_nil,serving,unserved,Shared.take,List.count_nil] at hj hsame ⊢
    omega
  | @leave n p hl hc hok =>
    subst hl
    obtain ⟨hj,-⟩ := stopIn_take hc hok m
    have hm : made (s.take n) m = made s m := rfl
    simp only [hands,bare,total_nil,serving,unserved,Shared.take,List.count_nil] at hj hm ⊢
    omega

theorem effect_balance (he : Effect s l s' l' new) (m : ℕ) :
    inside m l' + total (inside m) new + stopIn s m + s.idle.count m + jobIn s m +
      (serving l).count m =
    inside m l + stopIn s' m + s'.idle.count m + jobIn s' m + (serving l').count m +
      hands m new := by
  cases he with
  | quiet t =>
    have hs : _ + 0 = _ + 0 := t.serving m
    have hi := t.inside m
    simp only [hands,total_nil]
    omega
  | @pop _ n idle hi t =>
    have hs : _ + 0 = _ := t.serving m
    have hin := t.inside m
    have hc := hi.count_eq m
    rw [count_cons_at] at hc
    simp only [hands,total_nil,jobIn,stopIn]
    omega
  | @push _ n t =>
    have hs : _ = _ + 0 := t.serving m
    have hin := t.inside m
    simp only [hands,total_nil,jobIn,stopIn,Shared.pushNode,count_cons_at m n s.idle]
    omega
  | @get _ n cache hi t =>
    have hs : _ + 0 = _ + 0 := t.serving m
    have hin := t.inside m
    simp only [hands,total_nil,jobIn,stopIn]
    omega
  | fresh t =>
    have hs : _ + 0 = _ + 0 := t.serving m
    have hin := t.inside m
    simp only [hands,total_nil,jobIn,stopIn]
    omega
  | @spawn _ n t =>
    have hs : _ + 0 = _ := t.serving m
    have hin := t.inside m
    have hnew : total (inside m) [.serve n .recv] = [n].count m ∧ hands m [.serve n .recv] = 0 :=
      ⟨rfl,rfl⟩
    omega
  | @stop _ _ n ho t =>
    have hs : _ = _ + 0 := t.serving m
    have hin := t.inside m
    obtain ⟨hj,hk⟩ := stopIn_offer ho rfl m
    obtain ⟨hidle,-,-⟩ := offer_frame ho m
    simp only [hands,total_nil,hidle]
    omega
  | @put _ n t =>
    have hs : _ + 0 = _ + 0 := t.serving m
    have hin := t.inside m
    simp only [hands,total_nil,jobIn,stopIn,Shared.put]
    omega
  | @send _ _ n p hok _ ho t =>
    have hs : _ = _ + 0 := t.serving m
    have hin := t.inside m
    obtain ⟨hj,hk⟩ := jobIn_offer ho hok m
    obtain ⟨hidle,-,-⟩ := offer_frame ho m
    have hsame : jobIn { s with sent := s.sent + 1 } m = jobIn s m ∧
      stopIn { s with sent := s.sent + 1 } m = stopIn s m := ⟨rfl,rfl⟩
    simp only [hands,total_nil,hidle]
    omega
  | @run n p hl hc hok =>
    subst hl
    obtain ⟨hj,hk⟩ := jobIn_take hc hok m
    have hsame : jobIn { s.take n with ran := s.ran ++ [p.items] } m = jobIn (s.take n) m ∧
      stopIn { s.take n with ran := s.ran ++ [p.items] } m = stopIn (s.take n) m := ⟨rfl,rfl⟩
    simp only [hands,total_nil,serving,inside,Shared.take,List.count_nil] at hj hk hsame ⊢
    omega
  | @leave n p hl hc hok =>
    subst hl
    obtain ⟨hj,hk⟩ := stopIn_take hc hok m
    simp only [hands,total_nil,serving,inside,Shared.take] at hj hk ⊢
    omega

theorem counted_act (h : Counted s (xs ++ l :: ys)) (he : Effect s l s' l' new) :
    Counted s' (xs ++ l' :: (ys ++ new)) := by
  constructor <;> intro m
  · have hold := h.places m
    have heff := effect_places he m
    rw [hands_split,bare_split] at hold
    rw [hands_act,bare_act]
    omega
  · have hold := h.balance m
    have heff := effect_balance he m
    rw [hands_split,total_split] at hold
    rw [hands_act,total_act]
    omega

theorem entered (h : entry s l = true) :
    serving l = [] ∧ unserved l = [] ∧ ∀ m, inside m l = 0 := by
  cases l with
  | serve n pc => cases h
  | take a pc => cases a <;> cases pc <;> first | exact ⟨rfl,rfl,fun _ => rfl⟩ | cases h
  | remove a pc => cases pc <;> first | exact ⟨rfl,rfl,fun _ => rfl⟩ | cases h
  | prune pc =>
    cases pc with
    | prune dropped =>
      cases dropped with
      | nil => exact ⟨rfl,rfl,fun _ => rfl⟩
      | cons n ns => cases h
    | _ => cases h

theorem counted_call {ts : List Thread} (h : Counted s ts) (he : entry s l = true) :
    Counted s (ts ++ [l]) := by
  obtain ⟨hs,hu,hi⟩ := entered he
  constructor <;> intro m
  · have hold := h.places m
    simp only [hands,bare] at hold
    simp only [hands,bare,total_call,hs,hu,List.count_nil]
    omega
  · have hold := h.balance m
    simp only [hands] at hold
    simp only [hands,total_call,hs,hi,List.count_nil]
    omega

theorem reached_counted {w : World Shared Thread} (h : reached w) : Counted w.shared w.threads :=
  Program.reach_invariant (I := Counted) ⟨fun _ => by simp [init,jobIn,hands,bare,made],
    fun _ => by simp [init,jobIn,stopIn,hands]⟩
    (fun _ _ _ hi _ he => counted_call hi he)
    (fun _ _ _ _ _ _ _ _ hi _ hs => counted_act hi (step_effect hs)) h

-- Serve runs in one goroutine more than there are stops waiting, as long as the node is not
-- on its way to or from the cache.
theorem served_of_idle {w : World Shared Thread} (h : reached w) (hi : n ∈ w.shared.idle) :
    total (inside n) w.threads = stopIn w.shared n + 1 := by
  have hp := (reached_counted h).places n
  have hb := (reached_counted h).balance n
  have hpos := List.count_pos_iff.mpr hi
  simp only [made] at hp
  split at hp <;> omega

theorem served_of_taken {w : World Shared Thread} {t : Thread} (h : reached w) (ht : t ∈ w.threads)
    (hn : n ∈ serving t) : total (inside n) w.threads = stopIn w.shared n + 1 := by
  have hp := (reached_counted h).places n
  have hb := (reached_counted h).balance n
  have hpos := List.count_pos_iff.mpr hn
  have hle : (serving t).count n ≤ hands n w.threads :=
    le_total (f := fun t => (serving t).count n) ht
  simp only [made] at hp
  split at hp <;> omega

theorem served_of_job {w : World Shared Thread} (h : reached w) (hj : jobIn w.shared n = 1) :
    total (inside n) w.threads = stopIn w.shared n + 1 := by
  have hp := (reached_counted h).places n
  have hb := (reached_counted h).balance n
  simp only [made] at hp
  split at hp <;> omega

theorem unserved_of_cached {w : World Shared Thread} (h : reached w) (hc : n ∈ w.shared.cache) :
    total (inside n) w.threads = stopIn w.shared n := by
  have hp := (reached_counted h).places n
  have hb := (reached_counted h).balance n
  have hpos := List.count_pos_iff.mpr hc
  simp only [made] at hp
  split at hp <;> omega

end Varmq.Serve
