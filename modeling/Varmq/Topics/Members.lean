import Varmq.Topics.Listing

namespace Varmq.Topics.Fanout

open Interleaving

variable {T : Type} {s s' : Topic T} {l l' t u : Thread T} {xs ys ts : List (Thread T)} {c k : ℕ}

theorem handle_set (s : Topic T) (k i : ℕ) (h : Subscription) :
    (s.setHandle k h).handle i = if i = k ∧ k < s.handles.length then h else s.handle i :=
  getD_set _ _ _ _ _

theorem handle_push {h : Subscription} (hh : s'.handles = s.handles ++ [h]) (i : ℕ) :
    s'.handle i = if i = s.handles.length then h else s.handle i := by
  rw [Topic.handle,hh]
  exact getD_push _ _ _ _

theorem ended_set (s : Topic T) (k i : ℕ) (h : Subscription) (he : h.ended = (s.handle k).ended) :
    ((s.setHandle k h).handle i).ended = (s.handle i).ended := by
  rw [handle_set]
  split
  · rename_i hi
    rw [hi.1]
    exact he
  · rfl

-- The new subscription of a subscribe, listed or not.
structure Pushed (s : Topic T) (l : Thread T) (s' : Topic T) (l' : Thread T) (w c : ℕ) : Prop where
  from_ : (l = .subscribe w (.attach c) ∧ s' = { s with
      handles := s.handles ++ [⟨w,c,.fresh,none⟩], subs := s.subs ++ [s.handles.length] }) ∨
    ∃ r, l = .subscribe w (.inert c (.returned r)) ∧
      s' = { s with handles := s.handles ++ [⟨w,c,.fresh,some s.log.head⟩] }
  to_ : l' = .subscribe w (.unlock (some s.handles.length))

def deleted (s : Topic T) (k : ℕ) : Topic T :=
  { s.setHandle k { s.handle k with
      ended := if k ∈ s.subs then some s.log.head else (s.handle k).ended } with
    subs := s.subs.filter (· ≠ k) }

-- The subscriptions are as they were.
structure Quiet (s s' : Topic T) (l : Thread T) : Prop where
  other : ∀ k rest, l ≠ .unsubscribe k rest .delete
  subs : s'.subs = s.subs
  length : s'.handles.length = s.handles.length
  ended : ∀ k, (s'.handle k).ended = (s.handle k).ended

theorem act_kind (hs : Act s l s' l') : Quiet s s' l ∨ (∃ w c, Pushed s l s' l' w c) ∨
    ∃ k rest, l = .unsubscribe k rest .delete ∧ l' = .unsubscribe k rest .unlock ∧
      s' = deleted s k := by
  cases hs with
  | attach => exact .inr (.inl ⟨_,_,.inl ⟨rfl,rfl⟩,rfl⟩)
  | drop => exact .inr (.inl ⟨_,_,.inr ⟨_,rfl,rfl⟩,rfl⟩)
  | delete => exact .inr (.inr ⟨_,_,rfl,rfl,rfl⟩)
  | once => exact .inl ⟨(fun _ _ h => by cases h),rfl,List.length_set,fun i => ended_set s _ i _ rfl⟩
  | removeSource =>
    exact .inl ⟨(fun _ _ h => by cases h),rfl,List.length_set,fun i => ended_set s _ i _ rfl⟩
  | _ => exact .inl ⟨(fun _ _ h => by cases h),rfl,rfl,fun _ => rfl⟩

theorem closing_step (hs : Act s l s' l') (hc : closing k l = true) :
    closing k l' = true ∨ ∃ rest, l = .unsubscribe k rest .delete := by
  cases hs with
  | @close i c rest pc pc' log ha =>
    refine .inl ?_
    cases ha <;> first | exact hc | cases hc
  | closed => exact .inl hc
  | @delete i rest =>
    have hi : i = k := of_decide_eq_true hc
    exact .inr ⟨rest,by rw [hi]⟩
  | _ => cases hc

theorem fresh_step (hs : Act s l s' l') (hc : fresh c l = true) :
    fresh c l' = true ∨ c ∈ s'.handles.map Subscription.cursor := by
  cases hs with
  | new ha => cases ha <;> first | exact .inl hc | cases hc
  | made => exact .inl hc
  | late => exact .inl hc
  | inert ha => exact .inl hc
  | @attach w d =>
    have hd : d = c := of_decide_eq_true hc
    exact .inr (by simp [hd])
  | @drop w d r =>
    have hd : d = c := of_decide_eq_true hc
    exact .inr (by simp [hd])
  | _ => cases hc

theorem Fan.removing_step (h : Fan s (xs ++ l :: ys)) (hs : Act s l s' l') (hr : removing c l) :
    removing c l' ∨ c ∉ s'.log.opened := by
  rcases h.logged hs with ha | ⟨-,ho,-⟩
  · generalize hq : proj l' = r at ha
    rcases hr with hr | hr
    · rw [hr] at ha
      rcases ha with _ | _ | ⟨ha⟩
      generalize s'.log = log at ha
      cases ha
      exact .inl (.inr hq)
    · rw [hr] at ha
      rcases ha with _ | _ | ⟨ha⟩
      generalize s'.log = log at ha
      cases ha
      exact .inr (by simp [Log.remove])
  · rcases hr with hr | hr <;> rw [hr] at ho <;> exact ho.elim

theorem Fan.subs_step (h : Fan s (xs ++ l :: ys)) (hs : Act s l s' l') :
    ∀ k ∈ s'.subs, k < s'.handles.length := by
  intro k hk
  have hlen := length_grown (handles_grow hs)
  rcases act_kind hs with hq | ⟨w,c,⟨⟨-,rfl⟩ | ⟨r,-,rfl⟩,-⟩⟩ | ⟨i,rest,-,-,rfl⟩
  · rw [hq.subs] at hk
    exact Nat.lt_of_lt_of_le (h.subs k hk) hlen
  · rcases List.mem_append.mp hk with hk | hk
    · exact Nat.lt_of_lt_of_le (h.subs k hk) hlen
    · rw [List.mem_singleton.mp hk]
      simp
  · exact Nat.lt_of_lt_of_le (h.subs k hk) hlen
  · exact Nat.lt_of_lt_of_le (h.subs k (List.mem_filter.mp hk).1) hlen

theorem Fan.member_step (h : Fan s (xs ++ l :: ys)) (hs : Act s l s' l') (hk : k < s'.handles.length) :
    k ∈ s'.subs ↔ (s'.handle k).ended = none := by
  rcases act_kind hs with hq | ⟨w,c,⟨⟨-,rfl⟩ | ⟨r,-,rfl⟩,-⟩⟩ | ⟨i,rest,rfl,-,rfl⟩
  · rw [hq.length] at hk
    rw [hq.subs,hq.ended]
    exact h.member k hk
  · rw [handle_push rfl]
    by_cases he : k = s.handles.length
    · simp [he]
    · have hlt : k < s.handles.length := by
        simp only [List.length_append,List.length_cons,List.length_nil] at hk
        omega
      rw [if_neg he,← h.member k hlt]
      simp [he]
  · rw [handle_push rfl]
    by_cases he : k = s.handles.length
    · rw [if_pos he]
      refine ⟨fun hm => ?_,fun hm => by cases hm⟩
      have := h.subs k hm
      omega
    · have hlt : k < s.handles.length := by
        simp only [List.length_append,List.length_cons,List.length_nil] at hk
        omega
      rw [if_neg he]
      exact h.member k hlt
  · have hlt : k < s.handles.length := by simpa [deleted,Topic.setHandle] using hk
    have hset := handle_set s i k { s.handle i with
      ended := if i ∈ s.subs then some s.log.head else (s.handle i).ended }
    have hm := h.member k hlt
    by_cases he : k = i
    · subst he
      have hend : ((deleted s k).handle k).ended =
          if k ∈ s.subs then some s.log.head else (s.handle k).ended := by
        rw [show (deleted s k).handle k = _ from hset,if_pos ⟨rfl,hlt⟩]
      rw [hend]
      by_cases hin : k ∈ s.subs
      · simp [deleted,hin]
      · simp only [hin,if_false]
        rw [← hm]
        simp [deleted,hin]
    · rw [show (deleted s i).handle k = _ from hset,if_neg fun h => he h.1,← hm]
      simp [deleted,he]

end Varmq.Topics.Fanout
