import Mathlib.Algebra.Order.BigOperators.Group.List
import Mathlib.Tactic.Ring
import Varmq.Interleaving.Total
import Varmq.Stats.Basic
import Varmq.Topics.Locks

namespace Varmq.Stats

open Interleaving Topics

def of (m : ℕ) (j : Job) : Bool := j.handle == m

def Shared.parkedJobs (s : Shared) : List Job := s.workers.flatMap fun wk => wk.parked.jobs

-- What a goroutine has taken from storage or from the parked batches and neither run nor let go.
def hand : Thread → List Job
  | .dispatch _ (.next _ _ buf _) => buf
  | .dispatch _ (.took _ _ buf _ j) => j :: buf
  | .dispatch _ (.flush _ buf _) => buf
  | .dispatch _ (.stamp _ buf) => buf
  | .dispatch _ (.send buf _) => buf
  | .batch _ _ (.stale _ jobs _) => jobs
  | .batch _ _ (.halting _ j jobs _) => j :: jobs
  | .batch _ _ (.start _ j jobs _) => j :: jobs
  | .batch _ _ (.work _ j jobs _) => j :: jobs
  | .batch _ _ (.finish _ _ jobs _) => jobs
  | .batch _ _ (.close _ _ jobs _) => jobs
  | .batch _ _ (.count _ _ jobs _) => jobs
  | .batch _ _ (.purged _ j jobs _) => j :: jobs
  | .batch _ _ (.skip _ j jobs _) => j :: jobs
  | .batch _ _ (.park _ jobs _) => jobs
  | .batch _ _ (.parkClose jobs _) => jobs
  | .batch _ _ (.parkTaken j jobs _) => j :: jobs
  | .purge (.dropClose _ jobs _) => jobs
  | .purge (.dropTaken _ j jobs _) => j :: jobs
  | _ => []

-- What counts as processing for it: a job that was run still does until its run is added.
def held : Thread → List Job
  | .dispatch _ (.took _ _ buf _ _) => buf
  | .batch _ _ (.finish _ j jobs _) => j :: jobs
  | .batch _ _ (.close _ j jobs _) => j :: jobs
  | .batch _ _ (.count _ j jobs _) => j :: jobs
  | t => hand t

def run : Thread → MemRun
  | .dispatch _ (.next _ _ _ r) => r
  | .dispatch _ (.took _ _ _ r _) => r
  | .dispatch _ (.flush _ _ r) => r
  | .batch _ _ (.stale _ _ r) => r
  | .batch _ _ (.halting _ _ _ r) => r
  | .batch _ _ (.start _ _ _ r) => r
  | .batch _ _ (.work _ _ _ r) => r
  | .batch _ _ (.finish _ _ _ r) => r
  | .batch _ _ (.close _ _ _ r) => r
  | .batch _ _ (.count _ _ _ r) => r
  | .batch _ _ (.purged _ _ _ r) => r
  | .batch _ _ (.skip _ _ _ r) => r
  | .batch _ _ (.park _ _ r) => r
  | .batch _ _ (.parkClose _ r) => r
  | .batch _ _ (.parkTaken _ _ r) => r
  | .batch _ _ (.flush r) => r
  | _ => .empty

def share (r : MemRun) (m : ℕ) : ℤ := if r.m = some m then r.n else 0

-- Its jobs of handle m as the handle's processing count has them by now.
def weight (m : ℕ) (t : Thread) : ℤ := (held t).countP (of m) - share (run t) m

-- An Add has counted its job and neither stored nor taken it back.
def adding (m : ℕ) : Thread → ℕ
  | .add h _ (.store _) => one (h == m)
  | .add h _ (.close _) => one (h == m)
  | .add h _ .uncount => one (h == m)
  | _ => 0

def fresh : Thread → List Job
  | .add _ _ (.store j) => [j]
  | _ => []

def weights (m : ℕ) (ts : List Thread) : ℤ := (ts.map (weight m)).sum

structure Effect (s : Shared) (l : Thread) (s' : Shared) (l' : Thread) (new : List Thread) : Prop where
  places : ∀ p, s'.accepted.countP p + s.queue.countP p + s.parkedJobs.countP p +
      (hand l).countP p + s.ran.countP p + s.dropped.countP p =
    s.accepted.countP p + s'.queue.countP p + s'.parkedJobs.countP p +
      (hand l').countP p + total (fun t => (hand t).countP p) new + s'.ran.countP p +
      s'.dropped.countP p
  balance : ∀ m, s'.processing m + s.parkedJobs.countP (of m) + weight m l =
    s.processing m + s'.parkedJobs.countP (of m) + weight m l' + weights m new
  runs : ∀ m, s'.completed m + s'.failed m + s.ran.countP (of m) =
    s.completed m + s.failed m + s'.ran.countP (of m)
  adds : ∀ m, s'.submitted m + s.accepted.countP (of m) + adding m l =
    s.submitted m + s'.accepted.countP (of m) + (adding m l' + total (adding m) new)
  ids : ∀ j, s'.accepted.count j + (fresh l').count j + total (fun t => (fresh t).count j) new +
      one (decide (j.id < s.made)) ≤
    s.accepted.count j + (fresh l).count j + one (decide (j.id < s'.made))

variable {s s' : Shared} {l l' : Thread} {new : List Thread} {p : Job → Bool} {j : Job}
  {js : List Job} {w m : ℕ} {wk wk' : Worker} {r : MemRun}

theorem countP_cons_one (p : Job → Bool) (j : Job) (js : List Job) :
    (j :: js).countP p = js.countP p + one (p j) := by
  rw [List.countP_cons]
  rfl

theorem parkedJobs_setWorker (wk' : Worker) (h : s.workers[w]? = some wk) (p : Job → Bool) :
    (s.setWorker w wk').parkedJobs.countP p + wk.parked.jobs.countP p =
      s.parkedJobs.countP p + wk'.parked.jobs.countP p := by
  obtain ⟨xs,ys,hws,-,hset⟩ := set_split h
  simp only [Shared.parkedJobs,Shared.setWorker]
  rw [hset,hws]
  simp only [List.flatMap_append,List.flatMap_cons,List.countP_append]
  omega

theorem share_some (m h : ℕ) (n : ℤ) : share ⟨some h,n⟩ m = if h = m then n else 0 := by
  simp [share]

theorem share_one (h m : ℕ) : share ⟨some h,1⟩ m = one (h == m) := by
  by_cases hm : h = m <;> simp [share,hm,one]

theorem share_neg (h m : ℕ) : share ⟨some h,-1⟩ m = -one (h == m) := by
  by_cases hm : h = m <;> simp [share,hm,one]

theorem share_job (j : Job) (m : ℕ) : share ⟨some j.handle,1⟩ m = one (of m j) ∧
    share ⟨some j.handle,-1⟩ m = -one (of m j) := ⟨share_one j.handle m,share_neg j.handle m⟩

theorem added_submitted (s : Shared) (h : ℕ) (n : ℤ) (m : ℕ) :
    (s.added h n).submitted m = s.submitted m + share ⟨some h,n⟩ m := by
  by_cases hm : m = h
  · subst hm
    simp [Shared.added,share]
  · simp [Shared.added,share,hm,Ne.symm hm]

theorem memTaken_processing (s : Shared) (h : ℕ) (n : ℤ) (m : ℕ) :
    (s.memTaken h n).processing m = s.processing m + share ⟨some h,n⟩ m := by
  by_cases hm : m = h
  · subst hm
    simp [Shared.memTaken,share]
  · simp [Shared.memTaken,share,hm,Ne.symm hm]

theorem flush_processing (r : MemRun) (s : Shared) (m : ℕ) :
    (r.flush s).1.processing m = s.processing m + share r m ∧ share (r.flush s).2 m = 0 := by
  obtain ⟨h,n⟩ := r
  by_cases hn : n = 0
  · simp [MemRun.flush,share,hn]
  · cases h with
    | none => simp [MemRun.flush,share,hn]
    | some h =>
      simp only [MemRun.flush,hn,if_false,memTaken_processing]
      exact ⟨trivial,by simp [share]⟩

theorem flush_run (r : MemRun) (s : Shared) : (r.flush s).2.n = 0 := by
  obtain ⟨h,n⟩ := r
  by_cases hn : n = 0
  · simp [MemRun.flush,hn]
  · cases h <;> simp [MemRun.flush,hn]

theorem flush_rest (r : MemRun) (s : Shared) :
    (r.flush s).1 = { s with processing := (r.flush s).1.processing } := by
  obtain ⟨h,n⟩ := r
  by_cases hn : n = 0
  · simp [MemRun.flush,hn]
  · cases h <;> simp [MemRun.flush,hn,Shared.memTaken]

theorem add_processing (r : MemRun) (s : Shared) (h : ℕ) (d : ℤ) (m : ℕ) :
    (r.add s h d).1.processing m + share (r.add s h d).2 m =
      s.processing m + share r m + share ⟨some h,d⟩ m := by
  unfold MemRun.add
  split
  case isTrue hr =>
    simp only [share_some]
    obtain ⟨h',n⟩ := r
    simp only at hr
    subst hr
    rw [share_some]
    split <;> ring
  case isFalse hr =>
    simp only [share_some,flush_run,(flush_processing r s m).1,zero_add]

theorem add_rest (r : MemRun) (s : Shared) (h : ℕ) (d : ℤ) :
    (r.add s h d).1 = { s with processing := (r.add s h d).1.processing } := by
  unfold MemRun.add
  split
  · rfl
  · exact flush_rest r s

end Varmq.Stats
