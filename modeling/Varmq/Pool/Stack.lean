import Varmq.Pool.Positions

namespace Varmq.Pool

open Interleaving LinkedStack

variable {s s' : Shared} {keep : ℤ} {e : ℕ} {t t' u : Thread} {ts xs ys : List Thread}

theorem pop_at {pc pc' : PopPc} (hl : Linked s.next s.head s.stack) (hat : At s (.popBack pc))
    (ha : PopAct s pc s' pc') : At s' (.popBack pc') := by
  cases ha with
  | load hh =>
    rw [hh] at hl
    obtain ⟨ys,hy,-⟩ := hl.of_some
    exact (congrArg (_ ∈ ·) hy).mpr List.mem_cons_self
  | next => exact ⟨hat,rfl⟩
  | _ => trivial

theorem push_at {pc pc' : PushPc} (ha : PushAct s e pc s' pc') : At s' (.pushNode e pc') := by
  cases ha with
  | store => exact Function.update_self _ _ _
  | _ => trivial

theorem linked_unhead {n : Option ℕ} (hl : Linked s.next s.head s.stack) (hh : s.head = some e)
    (hn : s.next e = n) : Linked s.next n (s.stack.erase e) := by
  rw [hh] at hl
  obtain ⟨ys,hy,hys⟩ := hl.of_some
  rw [hy,List.erase_cons_head]
  exact hn ▸ hys

theorem linked_act (h : Inv s (xs ++ t :: ys)) (ha : Act s t s' t') :
    Linked s'.next s'.head s'.stack := by
  have hl := h.linked
  have hat := h.at_ t (by simp)
  cases ha with
  | @push e pc pc' _ ha =>
    cases ha with
    | store => exact hl.store (h.unlinked (by simp [pushing,pushes])).1 _
    | land => exact hl.push hat
    | _ => exact hl
  | pop ha =>
    cases ha with
    | take hh => exact linked_unhead hl hh hat.2
    | _ => exact hl
  | prune ha =>
    cases ha with
    | take hh =>
      obtain ⟨-,above,rest,hs⟩ := hat
      refine linked_unhead hl hh ?_
      have hst := hs.stack_eq
      rw [hst] at hl
      rw [hs.next]
      exact hl.next_eq
    | @link sc e p n =>
      obtain ⟨hp,above,rest,hs⟩ := hat
      obtain ⟨as,has⟩ := hs.scanning.prev p hp
      have hn := h.nodup
      have hst := hs.stack_eq
      rw [has,List.append_assoc,List.singleton_append] at hst
      rw [hst] at hl hn
      have he : s.stack.erase e = as ++ p :: rest := by
        rw [hst,List.append_cons,erase_split (by simpa using hn),List.append_assoc,
          List.singleton_append]
      simp only [Shared.unlink]
      rw [he,hs.next]
      exact hl.unlink hn
    | _ => exact hl

theorem at_act (h : Inv s (xs ++ t :: ys)) (ha : Act s t s' t') : At s' t' := by
  have hat := h.at_ t (by simp)
  cases ha with
  | push ha => exact push_at ha
  | pop ha => exact pop_at h.linked hat ha
  | prune ha => exact prune_at h.linked h.nodup hat ha

theorem at_other (h : Inv s (xs ++ t :: ys)) (ha : Act s t s' t') (hu : u ∈ xs ++ ys) : At s' u := by
  have hat := h.at_ u (mem_of_other hu)
  cases ha with
  | @push e pc pc' _ ha =>
    cases ha with
    | store =>
      obtain ⟨he,hothers⟩ := h.unlinked (e := e) (by simp [pushing,pushes])
      exact hat.store he (hothers u hu)
    | land => exact hat.land
    | _ => exact At.frame (s := s) rfl rfl rfl hat
  | pop ha =>
    cases ha with
    | take => exact At.removed (s := s) ((h.alone rfl).2 u hu) (fun _ _ => rfl) hat
    | _ => exact At.frame (s := s) rfl rfl rfl hat
  | prune ha =>
    cases ha with
    | take => exact At.removed (s := s) ((h.alone rfl).2 u hu) (fun _ _ => rfl) hat
    | @link sc e p n =>
      refine At.removed (s := s) ((h.alone rfl).2 u hu) (fun v hv => Function.update_of_ne ?_ _ _) hat
      rintro rfl
      obtain ⟨hp,above,rest,hs⟩ := h.at_ _ (List.mem_append_right xs List.mem_cons_self)
      obtain ⟨as,has⟩ := hs.scanning.prev _ hp
      obtain ⟨zs,ws,hts⟩ := List.append_of_mem (mem_of_other (l := Thread.prune _ (.link sc e n _)) hu)
      rw [hts] at h
      refine (h.unlinked hv).1 ?_
      rw [hs.stack_eq,has]
      simp
    | _ => exact At.frame (s := s) rfl rfl rfl hat

theorem act_moves (h : Inv s (xs ++ t :: ys)) (ha : Act s t s' t') : Moves s s' t t' := by
  have hat := h.at_ t (by simp)
  cases ha with
  | push ha => exact push_moves ha
  | pop ha => exact pop_moves h.linked (fun hm => (h.alone hm).1) ha
  | prune ha => exact prune_moves h.linked hat (fun hm => (h.alone hm).1) ha

theorem inv_act (h : Inv s (xs ++ t :: ys)) (ha : Act s t s' t') : Inv s' (xs ++ t' :: ys) := by
  have hm := act_moves h ha
  constructor
  · exact linked_act h ha
  · intro v
    have hs := h.single v
    have hv := hm.single v
    rw [total_split] at hs ⊢
    omega
  · intro v
    have hp := h.placed v
    have hv := hm.placed v
    rw [total_split,total_split (takes v)] at hp ⊢
    omega
  · have hx := h.mutex
    have hv := hm.mutex
    rw [total_split] at hx ⊢
    omega
  · have hx := h.len
    have hv := hm.len
    rw [total_split] at hx ⊢
    push_cast at hx ⊢
    omega
  · intro u hu
    rcases mem_split hu with hu | rfl
    · exact at_other h ha hu
    · exact at_act h ha

theorem inv_call (h : Inv s ts) (hok : owned ⟨s,ts⟩ (.call t) = true) (he : entry s t = true) :
    Inv s (ts ++ [t]) := by
  have hzero : (∀ v, pushed v t = 0) ∧ (∀ v, takes v t = 0) ∧ holds t = 0 ∧ inFlight t = 0 ∧
      At s t := by
    unfold entry at he
    split at he
    · exact ⟨fun _ => rfl,fun _ => rfl,rfl,rfl,trivial⟩
    · exact ⟨fun _ => rfl,fun _ => rfl,rfl,rfl,trivial⟩
    · exact ⟨fun _ => rfl,fun _ => rfl,rfl,rfl,trivial⟩
    · cases he
  obtain ⟨h1,h2,h3,h4,h5⟩ := hzero
  constructor
  · exact h.linked
  · intro v
    rw [total_call]
    have hs := h.single v
    cases hv : pushes v t with
    | false => simpa [pushing,hv] using hs
    | true =>
      obtain ⟨e,pc,rfl⟩ : ∃ e pc, t = .pushNode e pc := by
        cases t with
        | pushNode e pc => exact ⟨e,pc,rfl⟩
        | _ => cases hv
      obtain ⟨rfl,-⟩ : e = v ∧ pc ≠ .done := by simpa [pushes] using hv
      obtain ⟨hst,hno⟩ : e ∉ s.stack ∧ ∀ u ∈ ts, pushes e u = false := by
        simpa [owned] using hok
      have hz : total (pushing e) ts = 0 :=
        total_eq_zero.mpr fun u hu => by rw [pushing,hno u hu]; rfl
      rw [hz,List.count_eq_zero.mpr hst,pushing,hv]
      rfl
  · intro v
    rw [total_call,total_call,h1,h2]
    exact h.placed v
  · rw [total_call,h3]
    exact h.mutex
  · rw [total_call,h4]
    exact h.len
  · exact forall_call h.at_ h5

theorem inv_newPool : Inv newPool.shared newPool.threads :=
  ⟨rfl,fun _ => Nat.zero_le _,fun _ => rfl,rfl,rfl,fun _ ht => by cases ht⟩

theorem inv_reach {w : World Shared Thread} (h : program.Reach owned newPool w) :
    Inv w.shared w.threads := by
  refine Program.reach_invariant inv_newPool (fun _ _ _ h hok he => inv_call h hok he) ?_ h
  intro s xs t ys c s' t' new hi _ hs
  obtain ⟨ha,rfl⟩ := act hs
  rw [List.append_nil]
  exact inv_act hi ha

end Varmq.Pool
