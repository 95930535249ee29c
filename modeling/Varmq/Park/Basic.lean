import Mathlib.Data.List.Sort
import Mathlib.Tactic.Common

namespace Varmq.Park

-- A queue's pause as a batch sees it; `notifies` is the PauseNotifier of the queue.
structure Holder where
  id : ℕ
  notifies : Bool
  deriving DecidableEq, Repr

structure Stamp where
  gen : Option ℕ
  epoch : ℕ
  seq : ℕ
  hold : Option Holder
  deriving DecidableEq, Repr

def Stamp.zero : Stamp := ⟨none,0,0,none⟩

def Stamp.held (paused : ℕ → Bool) (st : Stamp) : Bool := st.hold.any fun h => paused h.id

def Stamp.stale (gens : ℕ → ℕ) (st : Stamp) : Bool := st.gen.any fun g => gens g ≠ st.epoch

def mayHold (st : Stamp) : Bool := st.hold.any fun h => !h.notifies

structure ParkedBatch (J : Type) where
  jobs : List J
  stamp : Stamp
  deriving DecidableEq, Repr

structure Parked (J : Type) where
  batches : List (ParkedBatch J)
  unsorted : Bool
  nParked : ℕ
  parkHeld : Bool
  deriving DecidableEq, Repr

variable {J : Type}

def Parked.empty : Parked J := ⟨[],false,0,false⟩

def jobsOf (bs : List (ParkedBatch J)) : List J := bs.flatMap ParkedBatch.jobs

def Parked.jobs (p : Parked J) : List J := jobsOf p.batches

@[simp] theorem jobsOf_nil : jobsOf ([] : List (ParkedBatch J)) = [] := rfl

@[simp] theorem jobsOf_cons (b : ParkedBatch J) (bs : List (ParkedBatch J)) :
    jobsOf (b :: bs) = b.jobs ++ jobsOf bs := rfl

@[simp] theorem jobsOf_append (as bs : List (ParkedBatch J)) :
    jobsOf (as ++ bs) = jobsOf as ++ jobsOf bs := by simp [jobsOf]

theorem jobsOf_perm {as bs : List (ParkedBatch J)} (h : as.Perm bs) :
    (jobsOf as).Perm (jobsOf bs) := h.flatMap_right _

-- The second component is what a stale batch closes.
def park (gens : ℕ → ℕ) (paused : ℕ → Bool) (p : Parked J) (jobs : List J) (st : Stamp) :
    Parked J × List J :=
  if st.stale gens then (p,jobs)
  else ({ batches := p.batches ++ [⟨jobs,st⟩], unsorted := true,
          nParked := p.nParked + jobs.length,
          parkHeld := p.parkHeld || st.held paused || mayHold st },[])

def before (a b : ParkedBatch J) : Bool := a.stamp.seq ≤ b.stamp.seq

def Parked.sorted (p : Parked J) : List (ParkedBatch J) :=
  if p.unsorted then p.batches.mergeSort before else p.batches

def rest (b : ParkedBatch J) (k : ℕ) : List (ParkedBatch J) :=
  if b.jobs.drop k = [] then []
  else [⟨b.jobs.drop k,{ b.stamp with seq := b.stamp.seq + (b.jobs.take k).length }⟩]

-- The first batch whose queue is not paused gives its first k jobs.
def cut (paused : ℕ → Bool) (k : ℕ) :
    List (ParkedBatch J) → List J × Stamp × List (ParkedBatch J)
  | [] => ([],Stamp.zero,[])
  | b :: bs =>
      if b.stamp.held paused then
        let (js,st,bs') := cut paused k bs
        (js,st,b :: bs')
      else (b.jobs.take k,b.stamp,rest b k ++ bs)

def unpark (paused : ℕ → Bool) (p : Parked J) (k : ℕ) : List J × Stamp × Parked J :=
  if p.batches = [] then ([],Stamp.zero,p)
  else
    let (js,st,bs) := cut paused k p.sorted
    (js,st,{ p with batches := bs, unsorted := false, nParked := p.nParked - js.length })

-- The first component is what the drop closes.
def dropParked (gen : ℕ) (p : Parked J) : List J × Parked J :=
  let dropped := jobsOf (p.batches.filter fun b => b.stamp.gen = some gen)
  (dropped,{ p with
    batches := p.batches.filter fun b => b.stamp.gen ≠ some gen, nParked := p.nParked - dropped.length })

def unheld (paused : ℕ → Bool) (p : Parked J) : ℕ × Parked J :=
  ((jobsOf (p.batches.filter fun b => !b.stamp.held paused)).length,
   { p with parkHeld := p.batches.any fun b => b.stamp.held paused || mayHold b.stamp })

theorem unheld_all {p : Parked J} {paused : ℕ → Bool} (hp : ∀ i, paused i = false) :
    (unheld paused p).1 = p.jobs.length := by
  have hf : p.batches.filter (fun b => !b.stamp.held paused) = p.batches := by
    rw [List.filter_eq_self]
    intro b _
    cases hh : b.stamp.hold <;> simp [Stamp.held,hh,hp]
  simp only [unheld,hf]
  rfl

theorem sorted_perm (p : Parked J) : p.sorted.Perm p.batches := by
  unfold Parked.sorted
  split
  · exact List.mergeSort_perm _ _
  · exact .refl _

theorem jobs_park (gens : ℕ → ℕ) (paused : ℕ → Bool) (p : Parked J) (js : List J) (st : Stamp) :
    (park gens paused p js st).1.jobs ++ (park gens paused p js st).2 = p.jobs ++ js := by
  unfold park
  split
  · rfl
  · simp [Parked.jobs]

theorem rest_jobs (b : ParkedBatch J) (k : ℕ) : jobsOf (rest b k) = b.jobs.drop k := by
  unfold rest
  split
  · simp_all
  · simp

theorem cut_perm (paused : ℕ → Bool) (k : ℕ) (bs : List (ParkedBatch J)) :
    ((cut paused k bs).1 ++ jobsOf (cut paused k bs).2.2).Perm (jobsOf bs) := by
  induction bs with
  | nil => exact .refl _
  | cons b bs ih =>
    simp only [cut]
    split
    · simp only [jobsOf_cons]
      refine .trans ?_ (ih.append_left b.jobs)
      rw [← List.append_assoc,← List.append_assoc]
      exact List.perm_append_comm.append_right _
    · simp only [jobsOf_append,rest_jobs,jobsOf_cons,← List.append_assoc,List.take_append_drop]
      exact .refl _

theorem unpark_perm (paused : ℕ → Bool) (p : Parked J) (k : ℕ) :
    ((unpark paused p k).1 ++ (unpark paused p k).2.2.jobs).Perm p.jobs := by
  unfold unpark
  split
  · exact .refl _
  · exact (cut_perm paused k p.sorted).trans (jobsOf_perm (sorted_perm p))

theorem dropParked_perm (gen : ℕ) (p : Parked J) :
    ((dropParked gen p).1 ++ (dropParked gen p).2.jobs).Perm p.jobs := by
  have h : (p.batches.filter (fun b => b.stamp.gen = some gen) ++
      p.batches.filter (fun b => ¬b.stamp.gen = some gen)).Perm p.batches := by
    simpa using List.filter_append_perm (fun b => decide (b.stamp.gen = some gen)) p.batches
  have := jobsOf_perm h
  rw [jobsOf_append] at this
  exact this

-- The counter Wait reads is the number of parked jobs.
def Parked.Counted (p : Parked J) : Prop := p.nParked = p.jobs.length

theorem park_counted {gens : ℕ → ℕ} {paused : ℕ → Bool} {p : Parked J} {js : List J} {st : Stamp}
    (h : p.Counted) : (park gens paused p js st).1.Counted := by
  unfold park
  split
  · exact h
  · simp only [Parked.Counted,Parked.jobs,jobsOf_append,jobsOf_cons,jobsOf_nil,List.length_append,
      List.append_nil] at h ⊢
    rw [h]

theorem unpark_counted {paused : ℕ → Bool} {p : Parked J} {k : ℕ} (h : p.Counted) :
    (unpark paused p k).2.2.Counted := by
  have hp := (unpark_perm paused p k).length_eq
  rw [List.length_append] at hp
  unfold unpark at hp ⊢
  split at hp
  · rename_i he
    rw [if_pos he]
    exact h
  · rename_i he
    rw [if_neg he]
    simp only [Parked.Counted,Parked.jobs] at h hp ⊢
    omega

theorem dropParked_counted {gen : ℕ} {p : Parked J} (h : p.Counted) :
    (dropParked gen p).2.Counted := by
  have hp := (dropParked_perm gen p).length_eq
  rw [List.length_append] at hp
  simp only [Parked.Counted,Parked.jobs,dropParked] at h hp ⊢
  omega

end Varmq.Park
