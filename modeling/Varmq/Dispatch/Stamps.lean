import Varmq.Dispatch.Growth

namespace Varmq.Dispatch

open Interleaving
open Varmq.Park (Stamp Parked ParkedBatch)

variable {s s' : Shared} {ts new : List Thread} {l l' : Thread} {c : Choice}

-- The pause of the one queue, as every stamp of its batches carries it.
def Stamp.bound (st : Stamp) : Prop := st.hold = some ⟨0,true⟩

def Bound : Thread → Prop
  | .loop (.shorten _ _ (some st) _) | .loop (.send _ st _) => Stamp.bound st
  | .batch b _ => Stamp.bound b.stamp
  | _ => True

def Filed (b : ParkedBatch ℕ) : Prop := b.jobs ≠ [] ∧ Stamp.bound b.stamp

structure Stamped (s : Shared) (ts : List Thread) : Prop where
  parked : ∀ b ∈ s.park.batches, Filed b
  threads : ∀ l ∈ ts, Bound l

theorem held_of_bound {st : Stamp} (h : Stamp.bound st) : st.held s.pauses = s.paused := by
  have hh : st.hold = some ⟨0,true⟩ := h
  simp [Park.Stamp.held,hh,Shared.pauses]

theorem filed_rest {b : ParkedBatch ℕ} {k : ℕ} (h : Filed b) : ∀ x ∈ Park.rest b k, Filed x := by
  intro x hx
  unfold Park.rest at hx
  split at hx
  · cases hx
  · rw [List.mem_singleton.mp hx]
    exact ⟨‹_›,h.2⟩

theorem filed_cut (paused : ℕ → Bool) (k : ℕ) {bs : List (ParkedBatch ℕ)}
    (h : ∀ b ∈ bs, Filed b) : (∀ b ∈ (Park.cut paused k bs).2.2, Filed b) ∧
    ((Park.cut paused k bs).1 ≠ [] → Stamp.bound (Park.cut paused k bs).2.1) ∧
    (0 < k → (Park.cut paused k bs).1 = [] → ∀ b ∈ bs, b.stamp.held paused = true) := by
  induction bs with
  | nil => simp [Park.cut]
  | cons b bs ih =>
    have hb := h b (by simp)
    have hbs : ∀ x ∈ bs, Filed x := fun x hx => h x (by simp [hx])
    obtain ⟨h1,h2,h3⟩ := ih hbs
    simp only [Park.cut]
    split
    case isTrue hh =>
      refine ⟨?_,h2,fun hk hj => ?_⟩
      · simp only [List.mem_cons,forall_eq_or_imp]
        exact ⟨hb,h1⟩
      · simp only [List.mem_cons,forall_eq_or_imp]
        exact ⟨hh,h3 hk hj⟩
    case isFalse =>
      refine ⟨fun x hx => ?_,fun _ => hb.2,fun hk hj => ?_⟩
      · rcases List.mem_append.mp hx with hx | hx
        · exact filed_rest hb x hx
        · exact hbs x hx
      · rcases List.take_eq_nil_iff.mp hj with hz | hz
        · omega
        · exact absurd hz hb.1

theorem filed_unpark {k : ℕ} (h : ∀ b ∈ s.park.batches, Filed b) :
    (∀ b ∈ (Park.unpark s.pauses s.park k).2.2.batches, Filed b) ∧
    ((Park.unpark s.pauses s.park k).1 ≠ [] → Stamp.bound (Park.unpark s.pauses s.park k).2.1) ∧
    (0 < k → (Park.unpark s.pauses s.park k).1 = [] →
      s.paused = true ∨ (Park.unpark s.pauses s.park k).2.2.jobs = []) := by
  unfold Park.unpark
  split
  case isTrue he =>
    refine ⟨h,fun hn => absurd rfl hn,fun _ _ => .inr ?_⟩
    simp [Parked.jobs,he]
  case isFalse he =>
    have hs : ∀ b ∈ s.park.sorted, Filed b := fun b hb => h b ((Park.sorted_perm _).subset hb)
    obtain ⟨h1,h2,h3⟩ := filed_cut s.pauses k hs
    refine ⟨h1,h2,fun hk hj => .inl ?_⟩
    obtain ⟨b,hb⟩ := List.exists_mem_of_ne_nil _ he
    have hb' := (Park.sorted_perm s.park).symm.subset hb
    rw [← held_of_bound (hs b hb').2]
    exact h3 hk hj b hb'

theorem bound_again (cont : Bool) : Bound (.loop (again cont)) := by cases cont <;> trivial

theorem bound_filled (k : ℕ) (buf : List ℕ) (cont : Bool) : Bound (.loop (filled k buf cont)) := by
  unfold filled
  split
  · trivial
  · split <;> trivial

theorem bound_unparked {k : ℕ} {js : List ℕ} {st : Stamp} (h : js ≠ [] → Stamp.bound st) :
    Bound (.loop (unparked k js st)) := by
  unfold unparked
  split
  · trivial
  · split <;> exact h ‹_›

theorem loop_stamped {pc pc' : LoopPc} (h : ∀ b ∈ s.park.batches, Filed b) (hl : Bound (.loop pc))
    (hs : loopStep s pc c = some (s',pc',new)) :
    (∀ b ∈ s'.park.batches, Filed b) ∧ Bound (.loop pc') ∧ ∀ t ∈ new, Bound t := by
  cases pc with
  | pending pc =>
    obtain ⟨rfl,⟨n,rfl,rfl,rfl⟩ | ⟨pc₁,hp,rfl⟩⟩ := loop_pending hs
    · split <;> exact ⟨h,trivial,by simp⟩
    · obtain ⟨b,rfl⟩ := pending_frame hp
      exact ⟨h,trivial,by simp⟩
  | plan pc =>
    obtain ⟨rfl,⟨n,rfl,rfl,rfl⟩ | ⟨pc₁,hp,rfl⟩⟩ := loop_plan hs
    · exact ⟨h,trivial,by simp⟩
    · obtain ⟨b,rfl⟩ := pending_frame hp
      exact ⟨h,trivial,by simp⟩
  | unpark k =>
    cases c with
    | go =>
      simp only [loopStep,Option.some.injEq,Prod.mk.injEq] at hs
      obtain ⟨rfl,rfl,rfl⟩ := hs
      obtain ⟨h1,h2,-⟩ := filed_unpark (k := k) h
      exact ⟨h1,bound_unparked h2,by simp⟩
    | flag b => cases hs
    | pick n => cases hs
  | giveBack k cont =>
    cases c <;> cases hs
    exact ⟨h,bound_again cont,by simp⟩
  | send buf st cont =>
    cases c <;> cases hs
    refine ⟨h,bound_again cont,fun t ht => ?_⟩
    rw [List.mem_singleton.mp ht]
    exact hl
  | stamp buf cont =>
    cases c <;> cases hs
    exact ⟨h,rfl,by simp⟩
  | shorten m buf st cont =>
    cases c <;> cases hs
    cases st <;> exact ⟨h,hl,by simp⟩
  | fillPaused k buf | fillOffset k buf n | emptyPaused k buf e =>
    cases c <;> cases hs
    split
    · exact ⟨h,bound_filled _ _ _,by simp⟩
    · exact ⟨h,trivial,by simp⟩
  | emptyRefusals k buf e =>
    cases c <;> cases hs
    exact ⟨h,bound_filled _ _ _,by simp⟩
  | isClosed k buf j =>
    cases c <;> simp only [loopStep] at hs <;> try cases hs
    split at hs <;> cases hs
    · exact ⟨h,trivial,by simp⟩
    · split
      · exact ⟨h,trivial,by simp⟩
      · exact ⟨h,bound_filled _ _ _,by simp⟩
  | active | limit | parked k =>
    cases c <;> cases hs
    split <;> exact ⟨h,trivial,by simp⟩
  | pick n =>
    cases c <;> simp only [loopStep] at hs <;> try cases hs
    split at hs
    · cases hs
      exact ⟨h,trivial,by simp⟩
    · split at hs <;> cases hs
      exact ⟨h,trivial,by simp⟩
  | reserve k =>
    cases c <;> simp only [loopStep] at hs <;> try cases hs
    split at hs
    · cases hs
      exact ⟨h,trivial,by simp⟩
    · split at hs <;> cases hs <;> exact ⟨h,trivial,by simp⟩
  | claim k | refuse k buf e =>
    cases c <;> simp only [loopStep] at hs <;> try cases hs
    split at hs <;> cases hs <;> exact ⟨h,trivial,by simp⟩
  | dequeue k buf e =>
    cases c <;> simp only [loopStep] at hs <;> try cases hs
    split at hs
    · cases hs
    · split at hs <;> cases hs <;> exact ⟨h,trivial,by simp⟩
  | select | take k | count k | release k cont | fillHead k buf | epoch k buf =>
    cases c <;> cases hs
    exact ⟨h,trivial,by simp⟩

theorem batch_stamped {b b' : Batch} {pc pc' : BatchPc} (h : ∀ b ∈ s.park.batches, Filed b)
    (hl : Bound (.batch b pc)) (hf : Fits (.batch b pc)) (hs : batchStep s b pc = some (s',b',pc')) :
    (∀ b ∈ s'.park.batches, Filed b) ∧ Bound (.batch b' pc') := by
  cases pc with
  | park =>
    simp only [batchStep,Option.some.injEq,Prod.mk.injEq] at hs
    obtain ⟨rfl,rfl,rfl⟩ := hs
    refine ⟨fun x hx => ?_,hl⟩
    simp only [Park.park] at hx
    split at hx
    · exact h x hx
    · rcases List.mem_append.mp hx with hx | hx
      · exact h x hx
      · rw [List.mem_singleton.mp hx]
        exact ⟨hf.2,hl⟩
  | _ =>
    simp only [batchStep] at hs
    have he : s'.park = s.park ∧ b'.stamp = b.stamp := by
      grind [Shared.closeJob,Shared.closeJobs,Shared.setJob,Batch.next]
    refine ⟨by rw [he.1]; exact h,?_⟩
    simp only [Bound,he.2]
    exact hl

theorem step_stamped (h : ∀ b ∈ s.park.batches, Filed b) (hl : Bound l) (hf : Fits l)
    (hs : step s l c = some (s',l',new)) :
    (∀ b ∈ s'.park.batches, Filed b) ∧ Bound l' ∧ ∀ t ∈ new, Bound t := by
  have hframe : s'.park = s.park → ∀ b ∈ s'.park.batches, Filed b := by
    intro he
    rw [he]
    exact h
  cases step_act hs with
  | loop hp => exact loop_stamped h hl hp
  | batch hp =>
    obtain ⟨h1,h2⟩ := batch_stamped h hl hf hp
    exact ⟨h1,h2,by simp⟩
  | @add pc pc' s' hp =>
    refine ⟨hframe ?_,trivial,by simp⟩
    cases pc <;> cases c <;> simp only [addStep] at hp <;>
      grind [Shared.closeJob,Shared.closeJobs,Shared.setJob]
  | close => exact ⟨h,trivial,by simp⟩
  | @purge pc pc' s' hp =>
    refine ⟨?_,trivial,by simp⟩
    cases pc with
    | drop =>
      simp only [purgeStep,Option.some.injEq,Prod.mk.injEq] at hp
      obtain ⟨rfl,-⟩ := hp
      intro b hb
      exact h b (List.mem_filter.mp hb).1
    | closing js =>
      cases js <;> cases hp
      exact h
    | _ =>
      refine hframe ?_
      simp only [purgeStep] at hp
      grind
  | @queue pc pc' s' hp => cases pc <;> cases hp <;> exact ⟨h,trivial,by simp⟩
  | @wait js pc pc' s' hp =>
    obtain ⟨b,rfl⟩ := wait_frame hp
    exact ⟨h,trivial,by simp⟩
  | lifecycle => exact ⟨h,trivial,by simp⟩

theorem stamped_act {xs ys : List Thread} (h : Stamped s (xs ++ l :: ys)) (hf : Fits l)
    (hs : step s l c = some (s',l',new)) : Stamped s' (xs ++ l' :: (ys ++ new)) := by
  obtain ⟨h1,h2,h3⟩ := step_stamped h.parked (h.threads l (by simp)) hf hs
  exact ⟨h1,forall_act (fun t ht => h.threads t (mem_of_other ht)) h2 h3⟩

end Varmq.Dispatch
