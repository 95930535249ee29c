import Varmq.Dispatch.Basic

namespace Varmq.Dispatch

open Interleaving
open Varmq.Park (Stamp Parked)

-- How often one job is in the hands of a thread, by what the thread does with it.
structure Hands where
  newborn : ℕ
  buffered : ℕ
  purging : ℕ
  running : ℕ
  closing : ℕ
  adding : ℕ
  deriving DecidableEq, Repr

namespace Hands

def zero : Hands := ⟨0,0,0,0,0,0⟩

def add (a b : Hands) : Hands where
  newborn := a.newborn + b.newborn
  buffered := a.buffered + b.buffered
  purging := a.purging + b.purging
  running := a.running + b.running
  closing := a.closing + b.closing
  adding := a.adding + b.adding

theorem add_assoc (a b c : Hands) : (a.add b).add c = a.add (b.add c) := by
  simp [add,Nat.add_assoc]

theorem add_comm (a b : Hands) : a.add b = b.add a := by simp [add,Nat.add_comm]

@[simp] theorem add_zero (a : Hands) : a.add zero = a := rfl

@[simp] theorem zero_add (a : Hands) : zero.add a = a := by simp [add,zero]

end Hands

def buffer : LoopPc → List ℕ
  | .fillPaused _ buf | .fillHead _ buf | .fillOffset _ buf _ | .epoch _ buf => buf
  | .refuse _ buf _ | .dequeue _ buf _ | .emptyPaused _ buf _ | .emptyRefusals _ buf _ => buf
  | .isClosed _ buf j => buf ++ [j]
  | .shorten _ buf _ _ | .stamp buf _ | .send buf _ _ => buf
  | _ => []

def hands (j : ℕ) : Thread → Hands
  | .loop pc => { Hands.zero with buffered := (buffer pc).count j }
  | .batch b .run =>
      { Hands.zero with running := (b.rest.take 1).count j, buffered := b.rest.tail.count j }
  | .batch b .close =>
      { Hands.zero with closing := (b.rest.take 1).count j, buffered := b.rest.tail.count j }
  | .batch b _ => { Hands.zero with buffered := b.rest.count j }
  | .add (.append i) => { Hands.zero with newborn := [i].count j }
  | .add (.publish i) | .add (.mark i) | .add (.notify i) =>
      { Hands.zero with adding := [i].count j }
  | .purge (.closing js) => { Hands.zero with purging := js.count j }
  | _ => Hands.zero

def sum (j : ℕ) (ts : List Thread) : Hands :=
  ts.foldr (fun l w => (hands j l).add w) Hands.zero

@[simp] theorem sum_nil (j : ℕ) : sum j [] = Hands.zero := rfl

@[simp] theorem sum_cons (j : ℕ) (l : Thread) (ts : List Thread) :
    sum j (l :: ts) = (hands j l).add (sum j ts) := rfl

@[simp] theorem sum_append (j : ℕ) (xs ys : List Thread) :
    sum j (xs ++ ys) = (sum j xs).add (sum j ys) := by
  induction xs with
  | nil => simp
  | cons l xs ih => simp [ih,Hands.add_assoc]

theorem sum_split (j : ℕ) (xs ys : List Thread) (l : Thread) :
    sum j (xs ++ l :: ys) = (sum j (xs ++ ys)).add (hands j l) := by
  rw [sum_append,sum_append,sum_cons,Hands.add_assoc,Hands.add_comm (sum j ys)]

-- What the shared state says of one job.
structure View where
  slots : ℕ
  parked : ℕ
  claimed : ℕ
  started : ℕ
  ran : ℕ
  dropped : ℕ
  accepted : ℕ
  made : Bool
  status : Jobs.Status

def view (s : Shared) (j : ℕ) : View where
  slots := (s.slots.map Prod.fst).count j
  parked := s.park.jobs.count j
  claimed := s.claimed.count j
  started := s.started.count j
  ran := s.ran.count j
  dropped := s.dropped.count j
  accepted := s.accepted.count j
  made := Nat.blt j s.fresh
  status := s.job j

structure Kept (v : View) (w : Hands) : Prop where
  conserved : v.slots + v.parked + w.buffered + w.purging + w.running + w.closing + v.ran + v.dropped =
    v.claimed
  invoked : v.started = w.running + w.closing + v.ran
  once : w.newborn + v.claimed ≤ 1
  made : v.made = false → w.newborn + v.claimed = 0
  waiting : 0 < w.newborn + v.slots + v.parked + w.buffered + w.purging →
    v.status = .created ∨ v.status = .queued ∨ v.status = .closed
  running : 0 < w.running → v.status = .processing
  closing : 0 < w.closing → v.status = .finished ∨ v.status = .closed
  left : 0 < v.ran + v.dropped → v.status = .closed
  accepted : 0 < w.adding + v.accepted → 0 < v.claimed

def closes (v : View) : Jobs.Status :=
  if (Jobs.closeable v.status).isNone then .closed else v.status

theorem closes_cases (v : View) : (v.status ≠ .processing ∧ closes v = .closed) ∨
    (v.status = .processing ∧ closes v = .processing) := by
  cases hs : v.status <;> simp [closes,hs,Jobs.closeable]

namespace Kept

variable {v : View} {y a : Hands}

theorem make (h : Kept v (y.add a)) (hm : v.made = false) :
    Kept { v with made := true, status := .created } (y.add { a with newborn := 1 }) := by
  obtain ⟨h1,h2,h3,h4,h5,h6,h7,h8,h9⟩ := h
  simp only [Hands.add] at *
  constructor <;> grind

theorem claim {d : ℕ} (h : Kept v (y.add { Hands.zero with newborn := d })) :
    Kept { v with slots := v.slots + d, claimed := v.claimed + d }
      (y.add { Hands.zero with adding := d }) := by
  obtain ⟨h1,h2,h3,h4,h5,h6,h7,h8,h9⟩ := h
  simp only [Hands.add,Hands.zero] at *
  constructor <;> grind

theorem refuse {d : ℕ} (h : Kept v (y.add { Hands.zero with newborn := d })) :
    Kept v (y.add Hands.zero) := by
  obtain ⟨h1,h2,h3,h4,h5,h6,h7,h8,h9⟩ := h
  simp only [Hands.add,Hands.zero] at *
  constructor <;> grind

theorem close {w : Hands} (h : Kept v w) : Kept { v with status := closes v } w := by
  obtain ⟨h1,h2,h3,h4,h5,h6,h7,h8,h9⟩ := h
  have hc := closes_cases v
  constructor <;> grind

theorem closed_of_waiting {w : Hands} (h : Kept v w)
    (hw : 0 < w.newborn + v.slots + v.parked + w.buffered + w.purging) : closes v = .closed := by
  have hs := h.waiting hw
  rcases closes_cases v with hc | hc
  · exact hc.2
  · rw [hc.1] at hs
    simp at hs

theorem closed_of_closing {w : Hands} (h : Kept v w) (hw : 0 < w.closing) :
    closes v = .closed := by
  have hs := h.closing hw
  rcases closes_cases v with hc | hc
  · exact hc.2
  · rw [hc.1] at hs
    simp at hs

-- A job changes its place and stays unstarted.
theorem move {p q b c : ℕ} (h : Kept v (y.add a))
    (hm : p + q + b + c = v.slots + v.parked + a.buffered + a.purging) :
    Kept { v with slots := p, parked := q } (y.add { a with buffered := b, purging := c }) := by
  obtain ⟨h1,h2,h3,h4,h5,h6,h7,h8,h9⟩ := h
  simp only [Hands.add] at *
  constructor <;> grind

theorem leave {p q b c n : ℕ} (h : Kept v (y.add a))
    (hm : p + q + b + c + n = v.slots + v.parked + a.buffered + a.purging)
    (hc : 0 < n → v.status = .closed) :
    Kept { v with slots := p, parked := q, dropped := v.dropped + n }
      (y.add { a with buffered := b, purging := c }) := by
  obtain ⟨h1,h2,h3,h4,h5,h6,h7,h8,h9⟩ := h
  simp only [Hands.add] at *
  constructor <;> grind

theorem start {b d : ℕ} (h : Kept v (y.add { Hands.zero with buffered := d + b })) (hd : 0 < d)
    (hc : v.status ≠ .closed) :
    Kept { v with started := v.started + d, status := .processing }
      (y.add { Hands.zero with running := d, buffered := b }) := by
  obtain ⟨h1,h2,h3,h4,h5,h6,h7,h8,h9⟩ := h
  simp only [Hands.add,Hands.zero] at *
  constructor <;> grind

theorem finish {b d : ℕ} (h : Kept v (y.add { Hands.zero with running := d, buffered := b }))
    (hd : 0 < d) :
    Kept { v with status := .finished } (y.add { Hands.zero with closing := d, buffered := b }) := by
  obtain ⟨h1,h2,h3,h4,h5,h6,h7,h8,h9⟩ := h
  simp only [Hands.add,Hands.zero] at *
  constructor <;> grind

theorem ended {b d : ℕ} (h : Kept v (y.add { Hands.zero with closing := d, buffered := b }))
    (hc : 0 < d → v.status = .closed) :
    Kept { v with ran := v.ran + d } (y.add { Hands.zero with buffered := b }) := by
  obtain ⟨h1,h2,h3,h4,h5,h6,h7,h8,h9⟩ := h
  simp only [Hands.add,Hands.zero] at *
  constructor <;> grind

theorem accept {d : ℕ} (h : Kept v (y.add { Hands.zero with adding := d })) :
    Kept { v with accepted := v.accepted + d } (y.add Hands.zero) := by
  obtain ⟨h1,h2,h3,h4,h5,h6,h7,h8,h9⟩ := h
  simp only [Hands.add,Hands.zero] at *
  constructor <;> grind

theorem queued {w : Hands} (h : Kept v w) (hc : v.status = .created) :
    Kept { v with status := .queued } w := by
  obtain ⟨h1,h2,h3,h4,h5,h6,h7,h8,h9⟩ := h
  constructor <;> grind

end Kept

variable {s s' : Shared} {y : Hands} {j : ℕ}

theorem view_pending {pc pc' : PendingPc} (hs : pendingStep s pc = some (s',pc')) :
    view s' j = view s j := by
  obtain ⟨b,rfl⟩ := pending_frame hs
  rfl

@[simp] theorem buffer_filled (k : ℕ) (buf : List ℕ) (cont : Bool) :
    buffer (filled k buf cont) = buf := by
  unfold filled
  split
  · simp_all [buffer]
  · split <;> rfl

@[simp] theorem buffer_unparked (k : ℕ) (js : List ℕ) (st : Stamp) :
    buffer (unparked k js st) = js := by
  unfold unparked
  split
  · simp_all [buffer]
  · split <;> rfl

@[simp] theorem buffer_again (cont : Bool) : buffer (again cont) = [] := by cases cont <;> rfl

theorem loop_kept {pc pc' : LoopPc} {c : Choice} {new : List Thread}
    (h : Kept (view s j) (y.add (hands j (.loop pc)))) (hs : loopStep s pc c = some (s',pc',new)) :
    Kept (view s' j) ((y.add (sum j new)).add (hands j (.loop pc'))) := by
  have hz : y.add (sum j []) = y := Hands.add_zero y
  have hframe : view s' j = view s j → buffer pc' = buffer pc → new = [] →
      Kept (view s' j) ((y.add (sum j new)).add (hands j (.loop pc'))) := by
    rintro hv hb rfl
    rw [hz,hv,hands,hb]
    exact h
  cases pc with
  | pending pc =>
    obtain ⟨rfl,⟨n,rfl,rfl,rfl⟩ | ⟨pc₁,hp,rfl⟩⟩ := loop_pending hs
    · refine hframe rfl ?_ rfl
      split <;> rfl
    · exact hframe (view_pending hp) rfl rfl
  | plan pc =>
    obtain ⟨rfl,⟨n,rfl,rfl,rfl⟩ | ⟨pc₁,hp,rfl⟩⟩ := loop_plan hs
    · exact hframe rfl rfl rfl
    · exact hframe (view_pending hp) rfl rfl
  | unpark k =>
    cases c with
    | go =>
      simp only [loopStep,Option.some.injEq,Prod.mk.injEq] at hs
      obtain ⟨rfl,rfl,rfl⟩ := hs
      have hc := (Park.unpark_perm s.pauses s.park k).count_eq j
      rw [List.count_append] at hc
      rw [hz,hands,buffer_unparked]
      refine h.move (p := (view s j).slots)
        (q := (Park.unpark s.pauses s.park k).2.2.jobs.count j) ?_
      simp only [hands,buffer,view,Hands.zero,List.count_nil]
      omega
    | flag b => cases hs
    | pick n => cases hs
  | dequeue k buf e =>
    cases c <;> simp only [loopStep] at hs <;> try cases hs
    split at hs
    · cases hs
    · split at hs <;> cases hs
      · exact hframe rfl rfl rfl
      · rename_i i slots he
        rw [hz]
        refine h.move (p := (slots.map Prod.fst).count j) (q := (view s j).parked) ?_
        simp only [hands,buffer,view,Hands.zero,he,List.map_cons,List.count_cons,List.count_append,
          List.count_nil]
        omega
  | isClosed k buf i =>
    cases c <;> simp only [loopStep] at hs <;> try cases hs
    split at hs <;> cases hs
    · rename_i hi
      rw [hz]
      have hl := h.leave (p := (view s j).slots) (q := (view s j).parked) (b := buf.count j) (c := 0)
        (n := [i].count j) ?_ ?_
      · simp only [view,List.count_append] at hl ⊢
        exact hl
      · simp only [hands,buffer,Hands.zero,List.count_append]
        omega
      · intro hn
        obtain rfl := List.mem_singleton.mp (List.count_pos_iff.mp hn)
        exact hi
    · refine hframe rfl ?_ rfl
      split
      · rfl
      · rw [buffer_filled]
        rfl
  | send buf st cont =>
    cases c <;> cases hs
    simp only [sum_cons,sum_nil,hands,buffer_again,Hands.add,Hands.zero,
      List.count_nil,Nat.add_zero] at h ⊢
    exact h
  | shorten m buf st cont =>
    cases c <;> cases hs
    refine hframe rfl ?_ rfl
    cases st <;> rfl
  | reserve k =>
    cases c <;> simp only [loopStep] at hs <;> try cases hs
    split at hs
    · cases hs
      exact hframe rfl rfl rfl
    · split at hs <;> cases hs <;> exact hframe rfl rfl rfl
  | claim k =>
    cases c <;> simp only [loopStep] at hs <;> try cases hs
    split at hs <;> cases hs <;> exact hframe rfl rfl rfl
  | refuse k buf e =>
    cases c <;> simp only [loopStep] at hs <;> try cases hs
    split at hs <;> cases hs <;> exact hframe rfl rfl rfl
  | pick n =>
    cases c <;> simp only [loopStep] at hs <;> try cases hs
    split at hs
    · cases hs
      exact hframe rfl rfl rfl
    · split at hs <;> cases hs
      exact hframe rfl rfl rfl
  | emptyRefusals k buf e =>
    cases c <;> cases hs
    exact hframe rfl (buffer_filled _ _ _) rfl
  | giveBack k cont =>
    cases c <;> cases hs
    exact hframe rfl (buffer_again _) rfl
  | active | limit | parked k =>
    cases c <;> cases hs
    refine hframe rfl ?_ rfl
    split <;> rfl
  | fillPaused k buf | fillOffset k buf h' | emptyPaused k buf e =>
    cases c <;> cases hs
    refine hframe rfl ?_ rfl
    split
    · exact buffer_filled _ _ _
    · rfl
  | _ =>
    cases c <;> cases hs
    exact hframe rfl rfl rfl

theorem view_closeJobs (s : Shared) (js : List ℕ) (j : ℕ) : view (s.closeJobs js) j =
    { view s j with status := if j ∈ js then closes (view s j) else s.job j } := by
  by_cases hj : j ∈ js <;> simp [view,Shared.closeJobs,closes,hj]

theorem kept_closeJobs {w : Hands} (h : Kept (view s j) w) (js : List ℕ) :
    Kept (view (s.closeJobs js) j) w := by
  rw [view_closeJobs]
  split
  · exact h.close
  · exact h

theorem kept_setJob {w : Hands} {i : ℕ} {q : Jobs.Status} (h : Kept (view s j) w) (hj : j ≠ i) :
    Kept (view (s.setJob i q) j) w := by
  have hv : view (s.setJob i q) j = view s j := by
    simp only [view,Shared.setJob,if_neg hj]
  rwa [hv]

theorem count_singleton_pos {i j : ℕ} (h : 0 < [i].count j) : j = i :=
  List.mem_singleton.mp (List.count_pos_iff.mp h)

theorem kept_closeStale {i : ℕ} {tl : List ℕ}
    (h : Kept (view s j) (y.add { Hands.zero with buffered := (i :: tl).count j })) :
    Kept (view { s.closeJob i with dropped := s.dropped ++ [i] } j)
      (y.add { Hands.zero with buffered := tl.count j }) := by
  have hl := (kept_closeJobs h [i]).leave (p := (view s j).slots) (q := (view s j).parked)
    (b := tl.count j) (c := 0) (n := [i].count j) ?_ ?_
  · simp only [view,List.count_append,Shared.closeJob] at hl ⊢
    exact hl
  · simp only [view_closeJobs,Hands.zero,List.count_cons,List.count_nil]
    omega
  · intro hn
    obtain rfl := count_singleton_pos hn
    rw [view_closeJobs,if_pos (by simp)]
    refine h.closed_of_waiting ?_
    simp only [Hands.add,Hands.zero,List.count_cons_self]
    omega

theorem kept_park {b : Batch} (h : Kept (view s j) (y.add { Hands.zero with buffered := b.rest.count j }))
    (st : Stamp) : Kept (view { s.closeJobs (Park.park s.gens s.pauses s.park b.rest st).2 with
      park := (Park.park s.gens s.pauses s.park b.rest st).1,
      dropped := s.dropped ++ (Park.park s.gens s.pauses s.park b.rest st).2 } j)
      (y.add Hands.zero) := by
  have hj := Park.jobs_park s.gens s.pauses s.park b.rest st
  have hc := congrArg (List.count j) hj
  rw [List.count_append,List.count_append] at hc
  have hl := (kept_closeJobs h (Park.park s.gens s.pauses s.park b.rest st).2).leave
    (p := (view s j).slots) (q := (Park.park s.gens s.pauses s.park b.rest st).1.jobs.count j)
    (b := 0) (c := 0) (n := (Park.park s.gens s.pauses s.park b.rest st).2.count j) ?_ ?_
  · simp only [view,List.count_append] at hl ⊢
    exact hl
  · simp only [view_closeJobs,Hands.zero]
    simp only [view]
    omega
  · intro hn
    rw [view_closeJobs,if_pos (List.count_pos_iff.mp hn)]
    refine h.closed_of_waiting ?_
    simp only [Hands.add,Hands.zero]
    unfold Park.park at hn
    split at hn <;> simp at hn
    have := List.count_pos_iff.mpr hn
    omega

theorem notClosed_isNone {q : Jobs.Status} : (Jobs.notClosed q).isNone = true ↔ q ≠ .closed := by
  cases q <;> simp [Jobs.notClosed]

theorem kept_start {i : ℕ} {tl : List ℕ}
    (h : Kept (view s j) (y.add { Hands.zero with buffered := (i :: tl).count j }))
    (hn : s.job i ≠ .closed) :
    Kept (view { s.setJob i .processing with started := s.started ++ [i] } j)
      (y.add { Hands.zero with running := [i].count j, buffered := tl.count j }) := by
  by_cases hj : j = i
  · subst hj
    rw [List.count_cons_self,Nat.add_comm] at h
    have hst := h.start Nat.one_pos hn
    simpa [view,Shared.setJob,List.count_append] using hst
  · have hz : [i].count j = 0 := List.count_eq_zero.mpr (by simpa using hj)
    have hv : view { s.setJob i .processing with started := s.started ++ [i] } j = view s j := by
      simp only [view,Shared.setJob,if_neg hj,List.count_append,hz,Nat.add_zero]
    rw [hv,hz]
    rwa [List.count_cons_of_ne (Ne.symm hj)] at h

theorem kept_skip {i : ℕ} {tl : List ℕ}
    (h : Kept (view s j) (y.add { Hands.zero with buffered := (i :: tl).count j }))
    (hc : s.job i = .closed) :
    Kept (view { s with dropped := s.dropped ++ [i] } j)
      (y.add { Hands.zero with buffered := tl.count j }) := by
  have hl := h.leave (p := (view s j).slots) (q := (view s j).parked) (b := tl.count j) (c := 0)
    (n := [i].count j) ?_ ?_
  · simp only [view,List.count_append] at hl ⊢
    exact hl
  · simp only [Hands.zero,List.count_cons,List.count_nil]
    omega
  · intro hn
    obtain rfl := count_singleton_pos hn
    exact hc

theorem kept_finish {i : ℕ} {tl : List ℕ}
    (h : Kept (view s j) (y.add { Hands.zero with running := [i].count j, buffered := tl.count j })) :
    Kept (view (s.setJob i .finished) j)
      (y.add { Hands.zero with closing := [i].count j, buffered := tl.count j }) := by
  by_cases hj : j = i
  · subst hj
    have hf := h.finish (by simp)
    simpa only [view,Shared.setJob,if_true] using hf
  · have hz : [i].count j = 0 := List.count_eq_zero.mpr (by simpa using hj)
    rw [hz] at h ⊢
    exact kept_setJob h hj

theorem kept_ended {i : ℕ} {tl : List ℕ}
    (h : Kept (view s j) (y.add { Hands.zero with closing := [i].count j, buffered := tl.count j })) :
    Kept (view { s.closeJob i with ran := s.ran ++ [i] } j)
      (y.add { Hands.zero with buffered := tl.count j }) := by
  have hl := (kept_closeJobs h [i]).ended ?_
  · simp only [view,List.count_append,Shared.closeJob] at hl ⊢
    exact hl
  · intro hn
    obtain rfl := count_singleton_pos hn
    rw [view_closeJobs,if_pos (by simp)]
    refine h.closed_of_closing ?_
    simp only [Hands.add,Hands.zero]
    omega

theorem batch_kept {b b' : Batch} {pc pc' : BatchPc}
    (h : Kept (view s j) (y.add (hands j (.batch b pc))))
    (hs : batchStep s b pc = some (s',b',pc')) :
    Kept (view s' j) (y.add (hands j (.batch b' pc'))) := by
  cases pc with
  | stale =>
    simp only [batchStep] at hs
    split at hs
    · cases hs
      exact h
    · split at hs <;> cases hs
      · exact h
      · split <;> exact h
  | closeStale =>
    simp only [batchStep] at hs
    split at hs <;> cases hs
    rename_i i tl he
    simp only [hands,Batch.next,he] at h ⊢
    exact kept_closeStale h
  | halting =>
    cases hs
    split <;> exact h
  | held =>
    cases hs
    split <;> exact h
  | park =>
    simp only [batchStep,Option.some.injEq,Prod.mk.injEq] at hs
    obtain ⟨rfl,rfl,rfl⟩ := hs
    exact kept_park h _
  | start =>
    simp only [batchStep] at hs
    split at hs
    · cases hs
    · rename_i i tl he
      split at hs <;> cases hs
      · rename_i hn
        simp only [hands,he,List.take_succ_cons,List.take_zero,List.tail_cons] at h ⊢
        exact kept_start h (notClosed_isNone.mp hn)
      · rename_i hn
        simp only [hands,Batch.next,he,List.tail_cons] at h ⊢
        exact kept_skip h (by by_contra hc; exact hn (notClosed_isNone.mpr hc))
  | run =>
    simp only [batchStep] at hs
    split at hs
    · cases hs
    · rename_i i tl he
      cases hs
      simp only [hands,he,List.take_succ_cons,List.take_zero,List.tail_cons] at h ⊢
      exact kept_finish h
  | close =>
    simp only [batchStep] at hs
    split at hs
    · cases hs
    · rename_i i tl he
      cases hs
      simp only [hands,Batch.next,he,List.take_succ_cons,List.take_zero,List.tail_cons] at h ⊢
      exact kept_ended h
  | free | release | finish | notify =>
    cases hs
    exact h
  | done => cases hs

theorem publish_jobs (i : ℕ) (slots : List (ℕ × Bool)) :
    (publish i slots).map Prod.fst = slots.map Prod.fst := by
  induction slots with
  | nil => rfl
  | cons p slots ih =>
    simp only [publish,List.map_cons,List.cons.injEq] at ih ⊢
    refine ⟨?_,ih⟩
    split <;> simp_all

theorem kept_new (h : Kept (view s j) (y.add Hands.zero)) :
    Kept (view { s.setJob s.fresh .created with fresh := s.fresh + 1 } j)
      (y.add { Hands.zero with newborn := [s.fresh].count j }) := by
  by_cases hj : j = s.fresh
  · subst hj
    have h0 : Nat.blt s.fresh s.fresh = false := by
      rw [Bool.eq_false_iff,ne_eq,Nat.blt_eq]
      omega
    have hm := h.make h0
    have hb : Nat.blt s.fresh (s.fresh + 1) = true := by simp
    simpa only [view,Shared.setJob,if_true,hb,List.count_singleton_self] using hm
  · have hz : [s.fresh].count j = 0 := List.count_eq_zero.mpr (by simpa using hj)
    have hb : Nat.blt j (s.fresh + 1) = Nat.blt j s.fresh := by
      rw [Bool.eq_iff_iff]
      simp only [Nat.blt_eq]
      omega
    have hv : view { s.setJob s.fresh .created with fresh := s.fresh + 1 } j = view s j := by
      simp only [view,Shared.setJob,if_neg hj,hb]
    rw [hv,hz]
    exact h

theorem add_kept {pc pc' : AddPc} {c : Choice} (h : Kept (view s j) (y.add (hands j (.add pc))))
    (hs : addStep s pc c = some (s',pc')) : Kept (view s' j) (y.add (hands j (.add pc'))) := by
  cases pc with
  | new =>
    cases c <;> cases hs
    exact kept_new h
  | append i =>
    cases c with
    | flag ok =>
      cases ok <;> cases hs
      · exact kept_closeJobs h.refuse [i]
      · have hc := h.claim
        simp only [view,List.map_append,List.count_append,List.map_cons,List.map_nil] at hc ⊢
        exact hc
    | _ => cases hs
  | publish i =>
    cases c <;> cases hs
    have hv : view { s with slots := publish i s.slots } j = view s j := by
      simp only [view,publish_jobs]
    rw [hv]
    exact h
  | mark i =>
    cases c <;> cases hs
    split
    case isTrue hc =>
      by_cases hj : j = i
      · subst hj
        have hq := h.queued hc
        simp only [view,Shared.setJob,if_true] at hq ⊢
        exact hq
      · exact kept_setJob h hj
    case isFalse => exact h
  | notify i =>
    cases c <;> cases hs
    have ha := h.accept
    simp only [view,List.count_append] at ha ⊢
    exact ha
  | returned i ok => cases c <;> cases hs

theorem kept_take (n : ℕ) (h : Kept (view s j) (y.add Hands.zero)) :
    Kept (view { s with slots := s.slots.drop n, curMx := false } j)
      (y.add { Hands.zero with purging := ((s.slots.take n).map Prod.fst).count j }) := by
  have hm := h.move (p := ((s.slots.drop n).map Prod.fst).count j) (q := (view s j).parked) (b := 0)
    (c := ((s.slots.take n).map Prod.fst).count j) ?_
  · simp only [view] at hm ⊢
    exact hm
  · have hc : (s.slots.map Prod.fst).count j = ((s.slots.take n).map Prod.fst).count j +
        ((s.slots.drop n).map Prod.fst).count j := by
      rw [← List.count_append,← List.map_append,List.take_append_drop]
    simp only [view,Hands.zero]
    omega

theorem kept_dropParked (h : Kept (view s j) (y.add Hands.zero)) :
    Kept (view { s.closeJobs (Park.dropParked 0 s.park).1 with
      park := (Park.dropParked 0 s.park).2,
      dropped := s.dropped ++ (Park.dropParked 0 s.park).1 } j) (y.add Hands.zero) := by
  have hc := (Park.dropParked_perm 0 s.park).count_eq j
  rw [List.count_append] at hc
  have hl := (kept_closeJobs h (Park.dropParked 0 s.park).1).leave (p := (view s j).slots)
    (q := (Park.dropParked 0 s.park).2.jobs.count j) (b := 0) (c := 0)
    (n := (Park.dropParked 0 s.park).1.count j) ?_ ?_
  · simp only [view,List.count_append] at hl ⊢
    exact hl
  · simp only [view_closeJobs,Hands.zero]
    simp only [view]
    omega
  · intro hn
    rw [view_closeJobs,if_pos (List.count_pos_iff.mp hn)]
    refine h.closed_of_waiting ?_
    simp only [Hands.add,Hands.zero,view]
    omega

theorem kept_purged {i : ℕ} {js : List ℕ}
    (h : Kept (view s j) (y.add { Hands.zero with purging := (i :: js).count j })) :
    Kept (view { s.closeJob i with dropped := s.dropped ++ [i] } j)
      (y.add { Hands.zero with purging := js.count j }) := by
  have hl := (kept_closeJobs h [i]).leave (p := (view s j).slots) (q := (view s j).parked)
    (b := 0) (c := js.count j) (n := [i].count j) ?_ ?_
  · simp only [view,List.count_append,Shared.closeJob] at hl ⊢
    exact hl
  · simp only [view_closeJobs,Hands.zero,List.count_cons,List.count_nil]
    omega
  · intro hn
    obtain rfl := count_singleton_pos hn
    rw [view_closeJobs,if_pos (by simp)]
    refine h.closed_of_waiting ?_
    simp only [Hands.add,Hands.zero,List.count_cons_self]
    omega

theorem purge_kept {pc pc' : PurgePc} (h : Kept (view s j) (y.add (hands j (.purge pc))))
    (hs : purgeStep s pc = some (s',pc')) : Kept (view s' j) (y.add (hands j (.purge pc'))) := by
  cases pc with
  | bump =>
    cases hs
    exact h
  | drop =>
    simp only [purgeStep,Option.some.injEq,Prod.mk.injEq] at hs
    obtain ⟨rfl,rfl⟩ := hs
    exact kept_dropParked h
  | readEnd =>
    simp only [purgeStep] at hs
    split at hs <;> cases hs
    exact h
  | take n =>
    simp only [purgeStep] at hs
    split at hs <;> cases hs
    exact kept_take n h
  | closing js =>
    cases js <;> cases hs
    exact kept_purged h

theorem step_kept {l l' : Thread} {c : Choice} {new : List Thread}
    (h : Kept (view s j) (y.add (hands j l))) (hs : step s l c = some (s',l',new)) :
    Kept (view s' j) ((y.add (sum j new)).add (hands j l')) := by
  cases step_act hs with
  | loop hp => exact loop_kept h hp
  | batch hp => exact batch_kept h hp
  | add hp => exact add_kept h hp
  | close => exact kept_closeJobs h _
  | purge hp => exact purge_kept h hp
  | @queue pc pc' s' hp =>
    cases pc <;> cases hp <;> exact h
  | @wait js pc pc' s' hp =>
    obtain ⟨b,rfl⟩ := wait_frame hp
    exact h
  | lifecycle => exact h

theorem kept_newWorker (n j : ℕ) :
    Kept (view (newWorker n).shared j) (sum j (newWorker n).threads) := by
  constructor <;> simp [newWorker,view,hands,buffer,Hands.add,Hands.zero,Parked.empty,Parked.jobs]

theorem kept_call {ts : List Thread} {l : Thread} (h : Kept (view s j) (sum j ts))
    (he : entry s l = true) : Kept (view s j) (sum j (ts ++ [l])) := by
  have hz : hands j l = Hands.zero := by
    unfold entry at he
    split at he <;> first | rfl | cases he
  rw [sum_append,sum_cons,hz]
  exact h

theorem kept_act {xs ys new : List Thread} {l l' : Thread} {c : Choice}
    (h : Kept (view s j) (sum j (xs ++ l :: ys))) (hs : step s l c = some (s',l',new)) :
    Kept (view s' j) (sum j (xs ++ l' :: (ys ++ new))) := by
  rw [sum_split] at h
  rw [sum_split,← List.append_assoc,sum_append]
  exact step_kept h hs

theorem kept_reach {ok : Guard Shared Thread Choice} {n : ℕ} {w : World Shared Thread}
    (h : program.Reach ok (newWorker n) w) (j : ℕ) :
    Kept (view w.shared j) (sum j w.threads) :=
  Program.reach_invariant (I := fun s ts => Kept (view s j) (sum j ts)) (kept_newWorker n j)
    (fun _ _ _ h _ he => kept_call h he) (fun _ _ _ _ _ _ _ _ h _ hs => kept_act h hs) h

end Varmq.Dispatch
