import Varmq.Dispatch.Basic

namespace Varmq.Dispatch

open Interleaving
open Varmq.Park (Stamp Parked)

def loopReserved : LoopPc → ℕ
  | .reserve k | .claim k | .release k _ | .giveBack k _ | .parked k | .unpark k => k
  | .fillPaused k _ | .fillHead k _ | .fillOffset k _ _ | .epoch k _ | .refuse k _ _ => k
  | .dequeue k _ _ | .isClosed k _ _ | .emptyPaused k _ _ | .emptyRefusals k _ _ => k
  | .shorten m buf _ _ => m + buf.length
  | .stamp buf _ | .send buf _ _ => buf.length
  | _ => 0

def loopBusy : LoopPc → ℕ
  | .select | .active | .limit | .pending _ | .plan _ | .pick _ | .take _ | .giveBack _ _ => 0
  | _ => 1

def reservedOf : Thread → ℕ
  | .loop pc => loopReserved pc
  | .batch _ .notify | .batch _ .done => 0
  | .batch b _ => b.n
  | _ => 0

def busyOf : Thread → ℕ
  | .loop pc => loopBusy pc
  | .batch _ .finish | .batch _ .notify | .batch _ .done => 0
  | .batch _ _ => 1
  | _ => 0

-- The buffer has room for one more job while it is filled, and a batch no more jobs than it took.
def Fits : Thread → Prop
  | .loop (.take k) | .loop (.count k) | .loop (.reserve k) | .loop (.claim k) => 0 < k
  | .loop (.parked k) | .loop (.unpark k) => 0 < k
  | .loop (.fillPaused k buf) | .loop (.fillHead k buf) | .loop (.fillOffset k buf _) => buf.length < k
  | .loop (.epoch k buf) | .loop (.refuse k buf _) | .loop (.dequeue k buf _) => buf.length < k
  | .loop (.isClosed k buf _) | .loop (.emptyPaused k buf _) => buf.length < k
  | .loop (.emptyRefusals k buf _) => buf.length < k
  | .loop (.shorten _ buf _ _) | .loop (.stamp buf _) | .loop (.send buf _ _) => buf ≠ []
  | .batch b .free | .batch b .release | .batch b .finish | .batch b .notify | .batch b .done =>
      b.rest = []
  | .batch b .stale => b.i + b.rest.length = b.n ∧ b.n ≠ 0
  | .batch b _ => b.i + b.rest.length = b.n ∧ b.rest ≠ []
  | _ => True

theorem unpark_length (paused : ℕ → Bool) (p : Parked ℕ) (k : ℕ) :
    (Park.unpark paused p k).1.length ≤ k := by
  have hcut : ∀ bs : List (Park.ParkedBatch ℕ), (Park.cut paused k bs).1.length ≤ k := by
    intro bs
    induction bs with
    | nil => simp [Park.cut]
    | cons b bs ih =>
      simp only [Park.cut]
      split
      · exact ih
      · simp
  unfold Park.unpark
  split
  · simp
  · exact hcut _

variable {s s' : Shared}

-- What one step adds to the two counters is what it adds to the loads of the threads.
structure Charge (s s' : Shared) (l l' : Thread) (new : List Thread) : Prop where
  cur : ∀ y, s.curProcessing = y + reservedOf l →
    s'.curProcessing = y + reservedOf l' + total reservedOf new
  busy : ∀ y, s.busyWorkers = y + busyOf l → s'.busyWorkers = y + busyOf l' + total busyOf new
  fits : Fits l' ∧ ∀ t ∈ new, Fits t

theorem charge_filled {k : ℕ} {buf : List ℕ} (cont : Bool) (hb : buf.length ≤ k) :
    loopReserved (filled k buf cont) = k ∧ loopBusy (filled k buf cont) = 1 ∧
      Fits (.loop (filled k buf cont)) := by
  unfold filled
  split
  · exact ⟨rfl,rfl,trivial⟩
  · split
    · exact ⟨by simp only [loopReserved]; omega,rfl,‹_›⟩
    · exact ⟨by simp only [loopReserved]; omega,rfl,‹_›⟩

theorem charge_unparked {k : ℕ} {js : List ℕ} (st : Stamp) (hk : 0 < k) (hj : js.length ≤ k) :
    loopReserved (unparked k js st) = k ∧ loopBusy (unparked k js st) = 1 ∧
      Fits (.loop (unparked k js st)) := by
  unfold unparked
  split
  · exact ⟨rfl,rfl,hk⟩
  · split
    · exact ⟨by simp only [loopReserved]; omega,rfl,‹_›⟩
    · exact ⟨by simp only [loopReserved]; omega,rfl,‹_›⟩

theorem again_free (cont : Bool) : loopReserved (again cont) = 0 ∧ loopBusy (again cont) = 0 ∧
    Fits (.loop (again cont)) := by
  cases cont <;> exact ⟨rfl,rfl,trivial⟩

theorem charge_keep {pc pc' : LoopPc} (h1 : s'.curProcessing = s.curProcessing)
    (h2 : s'.busyWorkers = s.busyWorkers) (h3 : loopReserved pc' = loopReserved pc)
    (h4 : loopBusy pc' = loopBusy pc) (h5 : Fits (.loop pc')) :
    Charge s s' (.loop pc) (.loop pc') [] :=
  ⟨fun y hy => by simp only [reservedOf,total_nil] at hy ⊢; omega,
    fun y hy => by simp only [busyOf,total_nil] at hy ⊢; omega,h5,by simp⟩

theorem charge_fill {pc : LoopPc} {buf : List ℕ} {cont : Bool} {k : ℕ} (hb : buf.length ≤ k)
    (hr : loopReserved pc = k) (hu : loopBusy pc = 1) (h1 : s'.curProcessing = s.curProcessing)
    (h2 : s'.busyWorkers = s.busyWorkers) :
    Charge s s' (.loop pc) (.loop (filled k buf cont)) [] := by
  obtain ⟨f1,f2,f3⟩ := charge_filled cont hb
  exact charge_keep h1 h2 (f1.trans hr.symm) (f2.trans hu.symm) f3

theorem loop_charge {pc pc' : LoopPc} {c : Choice} {new : List Thread} (hf : Fits (.loop pc))
    (hs : loopStep s pc c = some (s',pc',new)) : Charge s s' (.loop pc) (.loop pc') new := by
  cases pc with
  | pending pc =>
    obtain ⟨rfl,⟨n,rfl,rfl,rfl⟩ | ⟨pc₁,hp,rfl⟩⟩ := loop_pending hs
    · split <;> exact charge_keep rfl rfl rfl rfl trivial
    · obtain ⟨b,rfl⟩ := pending_frame hp
      exact charge_keep rfl rfl rfl rfl trivial
  | plan pc =>
    obtain ⟨rfl,⟨n,rfl,rfl,rfl⟩ | ⟨pc₁,hp,rfl⟩⟩ := loop_plan hs
    · exact charge_keep rfl rfl rfl rfl trivial
    · obtain ⟨b,rfl⟩ := pending_frame hp
      exact charge_keep rfl rfl rfl rfl trivial
  | select | active | limit =>
    cases c <;> cases hs
    all_goals first
      | exact charge_keep rfl rfl rfl rfl trivial
      | (split <;> exact charge_keep rfl rfl rfl rfl trivial)
  | pick n =>
    cases c <;> simp only [loopStep] at hs <;> try cases hs
    split at hs
    · cases hs
      exact charge_keep rfl rfl rfl rfl trivial
    · split at hs <;> cases hs
      exact charge_keep rfl rfl rfl rfl (Nat.pos_of_ne_zero ‹_›)
  | take k =>
    cases c <;> cases hs
    refine ⟨fun y hy => hy,fun y hy => ?_,hf,by simp⟩
    simp only [busyOf,loopBusy,total_nil] at hy ⊢
    omega
  | count k =>
    cases c <;> cases hs
    refine ⟨fun y hy => ?_,fun y hy => hy,hf,by simp⟩
    simp only [reservedOf,loopReserved,total_nil] at hy ⊢
    omega
  | reserve k =>
    cases c <;> simp only [loopStep] at hs <;> try cases hs
    split at hs
    · cases hs
      exact charge_keep rfl rfl rfl rfl hf
    · split at hs <;> cases hs
      · exact charge_keep rfl rfl rfl rfl hf
      · exact charge_keep rfl rfl rfl rfl trivial
  | claim k =>
    cases c <;> simp only [loopStep] at hs <;> try cases hs
    split at hs <;> cases hs <;> exact charge_keep rfl rfl rfl rfl hf
  | release k cont =>
    cases c <;> cases hs
    refine ⟨fun y hy => hy,fun y hy => ?_,trivial,by simp⟩
    simp only [busyOf,loopBusy,total_nil] at hy ⊢
    omega
  | giveBack k cont =>
    cases c <;> cases hs
    obtain ⟨f1,f2,f3⟩ := again_free cont
    refine ⟨fun y hy => ?_,fun y hy => ?_,f3,by simp⟩
    · simp only [reservedOf,total_nil,f1] at hy ⊢
      simp only [loopReserved] at hy
      omega
    · simp only [busyOf,total_nil,f2] at hy ⊢
      exact hy
  | parked k =>
    cases c <;> cases hs
    split <;> exact charge_keep rfl rfl rfl rfl hf
  | unpark k =>
    cases c with
    | go =>
      simp only [loopStep,Option.some.injEq,Prod.mk.injEq] at hs
      obtain ⟨rfl,rfl,rfl⟩ := hs
      obtain ⟨f1,f2,f3⟩ := charge_unparked (Park.unpark s.pauses s.park k).2.1 hf
        (unpark_length s.pauses s.park k)
      exact charge_keep rfl rfl f1 f2 f3
    | flag b => cases hs
    | pick n => cases hs
  | fillPaused k buf | fillOffset k buf h | emptyPaused k buf e =>
    cases c <;> cases hs
    split
    · exact charge_fill (Nat.le_of_lt hf) rfl rfl rfl rfl
    · exact charge_keep rfl rfl rfl rfl hf
  | emptyRefusals k buf e =>
    cases c <;> cases hs
    exact charge_fill (Nat.le_of_lt hf) rfl rfl rfl rfl
  | fillHead k buf | epoch k buf =>
    cases c <;> cases hs
    exact charge_keep rfl rfl rfl rfl hf
  | refuse k buf e =>
    cases c <;> simp only [loopStep] at hs <;> try cases hs
    split at hs <;> cases hs <;> exact charge_keep rfl rfl rfl rfl hf
  | dequeue k buf e =>
    cases c <;> simp only [loopStep] at hs <;> try cases hs
    split at hs
    · cases hs
    · split at hs <;> cases hs <;> exact charge_keep rfl rfl rfl rfl hf
  | isClosed k buf i =>
    cases c <;> simp only [loopStep] at hs <;> try cases hs
    split at hs
    · cases hs
      exact charge_keep rfl rfl rfl rfl hf
    · have hle : (buf ++ [i]).length ≤ k := by
        simp only [List.length_append,List.length_singleton]
        exact hf
      cases hs
      split
      case isTrue hlt => exact charge_keep rfl rfl rfl rfl hlt
      case isFalse => exact charge_fill hle rfl rfl rfl rfl
  | shorten m buf st cont =>
    cases c <;> cases hs
    refine ⟨fun y hy => ?_,fun y hy => ?_,?_,by simp⟩
    · simp only [reservedOf,loopReserved,total_nil] at hy ⊢
      cases st <;> simp only <;> omega
    · cases st <;> exact hy
    · cases st <;> exact hf
  | stamp buf cont =>
    cases c <;> cases hs
    exact charge_keep rfl rfl rfl rfl hf
  | send buf st cont =>
    cases c <;> cases hs
    obtain ⟨f1,f2,f3⟩ := again_free cont
    refine ⟨fun y hy => ?_,fun y hy => ?_,f3,?_⟩
    · simp only [reservedOf,total_cons,total_nil,f1] at hy ⊢
      simp only [loopReserved] at hy
      omega
    · simp only [busyOf,total_cons,total_nil,f2] at hy ⊢
      simp only [loopBusy] at hy
      omega
    · simpa [Fits] using hf

theorem fits_next {b : Batch} {j : ℕ} {tl : List ℕ} (he : b.rest = j :: tl)
    (hf : b.i + b.rest.length = b.n) : Fits (.batch b.next .stale) := by
  simp only [Fits,Batch.next,he,List.tail_cons]
  rw [he,List.length_cons] at hf
  omega

theorem batch_charge {b b' : Batch} {pc pc' : BatchPc} (hf : Fits (.batch b pc))
    (hs : batchStep s b pc = some (s',b',pc')) : Charge s s' (.batch b pc) (.batch b' pc') [] := by
  cases pc with
  | stale =>
    simp only [batchStep] at hs
    split at hs
    case isTrue he =>
      cases hs
      exact ⟨fun y hy => hy,fun y hy => hy,he,by simp⟩
    case isFalse he =>
      split at hs <;> cases hs
      · exact ⟨fun y hy => hy,fun y hy => hy,⟨hf.1,he⟩,by simp⟩
      · split <;> exact ⟨fun y hy => hy,fun y hy => hy,⟨hf.1,he⟩,by simp⟩
  | closeStale =>
    simp only [batchStep] at hs
    split at hs <;> cases hs
    exact ⟨fun y hy => hy,fun y hy => hy,fits_next ‹_› hf.1,by simp⟩
  | halting | held =>
    cases hs
    split <;> exact ⟨fun y hy => hy,fun y hy => hy,hf,by simp⟩
  | park =>
    simp only [batchStep,Option.some.injEq,Prod.mk.injEq] at hs
    obtain ⟨rfl,rfl,rfl⟩ := hs
    exact ⟨fun y hy => hy,fun y hy => hy,rfl,by simp⟩
  | start =>
    simp only [batchStep] at hs
    split at hs
    · cases hs
    · split at hs <;> cases hs
      · exact ⟨fun y hy => hy,fun y hy => hy,hf,by simp⟩
      · exact ⟨fun y hy => hy,fun y hy => hy,fits_next ‹_› hf.1,by simp⟩
  | run =>
    simp only [batchStep] at hs
    split at hs <;> cases hs
    exact ⟨fun y hy => hy,fun y hy => hy,hf,by simp⟩
  | close =>
    simp only [batchStep] at hs
    split at hs <;> cases hs
    exact ⟨fun y hy => hy,fun y hy => hy,fits_next ‹_› hf.1,by simp⟩
  | free =>
    cases hs
    exact ⟨fun y hy => hy,fun y hy => hy,hf,by simp⟩
  | release =>
    cases hs
    refine ⟨fun y hy => hy,fun y hy => ?_,hf,by simp⟩
    simp only [busyOf,total_nil] at hy ⊢
    omega
  | finish =>
    cases hs
    refine ⟨fun y hy => ?_,fun y hy => hy,hf,by simp⟩
    simp only [reservedOf,total_nil] at hy ⊢
    omega
  | notify =>
    cases hs
    exact ⟨fun y hy => hy,fun y hy => hy,hf,by simp⟩
  | done => cases hs

theorem step_charge {l l' : Thread} {c : Choice} {new : List Thread} (hf : Fits l)
    (hs : step s l c = some (s',l',new)) : Charge s s' l l' new := by
  cases step_act hs with
  | loop hp => exact loop_charge hf hp
  | batch hp => exact batch_charge hf hp
  | @add pc pc' s' hp =>
    have he : s'.curProcessing = s.curProcessing ∧ s'.busyWorkers = s.busyWorkers := by
      cases pc <;> cases c <;> simp only [addStep] at hp <;> grind [Shared.setJob,Shared.closeJob,Shared.closeJobs]
    exact ⟨fun y hy => he.1.trans hy,fun y hy => he.2.trans hy,trivial,by simp⟩
  | close => exact ⟨fun y hy => hy,fun y hy => hy,trivial,by simp⟩
  | @purge pc pc' s' hp =>
    have he : s'.curProcessing = s.curProcessing ∧ s'.busyWorkers = s.busyWorkers := by
      cases pc with
      | closing js => cases js <;> cases hp; exact ⟨rfl,rfl⟩
      | _ => simp only [purgeStep] at hp; grind [Shared.closeJobs]
    exact ⟨fun y hy => he.1.trans hy,fun y hy => he.2.trans hy,trivial,by simp⟩
  | @queue pc pc' s' hp =>
    cases pc <;> cases hp <;> exact ⟨fun y hy => hy,fun y hy => hy,trivial,by simp⟩
  | @wait js pc pc' s' hp =>
    obtain ⟨b,rfl⟩ := wait_frame hp
    exact ⟨fun y hy => hy,fun y hy => hy,trivial,by simp⟩
  | lifecycle => exact ⟨fun y hy => hy,fun y hy => hy,trivial,by simp⟩

structure Charged (s : Shared) (ts : List Thread) : Prop where
  cur : s.curProcessing = total reservedOf ts
  busy : s.busyWorkers = total busyOf ts
  fits : ∀ l ∈ ts, Fits l

theorem charged_newWorker (n : ℕ) : Charged (newWorker n).shared (newWorker n).threads :=
  ⟨rfl,rfl,by simp [newWorker,Fits]⟩

theorem charged_call {ts : List Thread} {l : Thread} (h : Charged s ts) (he : entry s l = true) :
    Charged s (ts ++ [l]) := by
  have hz : reservedOf l = 0 ∧ busyOf l = 0 ∧ Fits l := by
    unfold entry at he
    split at he <;> first | exact ⟨rfl,rfl,trivial⟩ | cases he
  refine ⟨?_,?_,forall_call h.fits hz.2.2⟩
  · rw [total_call,hz.1]
    exact h.cur
  · rw [total_call,hz.2.1]
    exact h.busy

theorem charged_act {xs ys new : List Thread} {l l' : Thread} {c : Choice}
    (h : Charged s (xs ++ l :: ys)) (hs : step s l c = some (s',l',new)) :
    Charged s' (xs ++ l' :: (ys ++ new)) := by
  have hc := step_charge (h.fits l (by simp)) hs
  have hcur := h.cur
  have hbusy := h.busy
  rw [total_split] at hcur hbusy
  refine ⟨?_,?_,forall_act (fun t ht => h.fits t (mem_of_other ht)) hc.fits.1 hc.fits.2⟩
  · have := hc.cur _ hcur
    rw [total_act]
    omega
  · have := hc.busy _ hbusy
    rw [total_act]
    omega

end Varmq.Dispatch
