import Varmq.Fetch.Window

namespace Varmq.Fetch

open Interleaving
open Varmq.Queues (Queue PriorityQueue Stored idShards)
open Varmq.Sources (Source Strategy)

variable {T J : Type} {idOf : T → Option String} {hash : String → Fin idShards}
  {storage : ℕ → ℕ} {toJob : T → Option J} {strategy : ℕ → Strategy}
  {s s' : Shared T J} {l l' t : Thread T J} {xs ys ts new : List (Thread T J)} {c : Choice}
  {w k : ℕ} {src : Source}

-- No dispatch has failed, and nothing was reported.
structure Unfailed (wd : World (Shared T J) (Thread T J)) : Prop where
  fill : ∀ w k m buf, .loop w (.fill k m buf (.failed .failedToDequeue)) ∉ wd.threads
  report : ∀ w, .loop w (.report .failedToDequeue) ∉ wd.threads
  errors : ∀ w, (w,FetchError.failedToDequeue) ∉ wd.shared.errors

theorem unfailed_of_inv {wd : World (Shared T J) (Thread T J)} (h : Inv storage wd.shared wd.threads) :
    Unfailed wd where
  fill _ _ _ _ hm := h.told _ hm rfl
  report _ hm := h.told _ hm rfl
  errors _ hm := h.errors _ hm rfl

-- So no dispatch fails where nobody else takes the items it has found.
theorem unfailed_of_keepsFound {fifo : ℕ → Bool} {capacity : ℕ → ℕ}
    {wd : World (Shared T J) (Thread T J)}
    (h : (program idOf hash storage toJob strategy).Reach (keepsFound storage)
      (newWorkers fifo capacity) wd) : Unfailed wd :=
  unfailed_of_inv (inv_reach (finds_of_keepsFound h))

theorem go_step {w₀ : World (Shared T J) (Thread T J)} {pc pc' : LoopPc T J}
    (hr : (program idOf hash storage toJob strategy).Reach always w₀ ⟨s,xs ++ .loop w pc :: ys⟩)
    (hs : loopStep idOf hash storage toJob s w pc .go = some (s',pc')) :
    (program idOf hash storage toJob strategy).Reach always w₀ ⟨s',xs ++ .loop w pc' :: ys⟩ := by
  refine .tail hr (e := .act xs.length .go) rfl ?_
  have hp : (program idOf hash storage toJob strategy).step s (.loop w pc) .go =
      some (s',.loop w pc',[]) := by
    simp [program,step,hs]
  have hn : (program idOf hash storage toJob strategy).next ⟨s,xs ++ .loop w pc :: ys⟩
      (.act xs.length .go) = some ⟨s',xs ++ .loop w pc' :: (ys ++ [])⟩ := Program.next_of_step hp
  simpa using hn

theorem fill_step {w₀ : World (Shared T J) (Thread T J)} {m : Loaded} {buf : List J}
    {pc pc' : NextPc T}
    (hr : (program idOf hash storage toJob strategy).Reach always w₀
      ⟨s,xs ++ .loop w (.fill k m buf pc) :: ys⟩)
    (hs : nextStep idOf hash storage s w m pc = some (s',pc')) :
    (program idOf hash storage toJob strategy).Reach always w₀
      ⟨s',xs ++ .loop w (.fill k m buf pc') :: ys⟩ := by
  refine go_step hr ?_
  cases pc with
  | item x => cases hs
  | failed err => cases hs
  | _ => simp only [loopStep,hs,Option.map_some]

theorem dequeue_none {e : ℕ} (hl : (queue storage s src).len = 0) {m : Loaded} :
    ∃ q : Memory T, nextStep idOf hash storage s w m (.dequeue src e) =
      some (setQueue s (storage src.id) q,.emptyErr src e) ∧
      q.refusals = (queue storage s src).refusals ∧ q.paused = (queue storage s src).paused := by
  have ht := @Memory.took T idOf hash (queue storage s src)
  have hx := ht.none.mpr hl
  refine ⟨((queue storage s src).take idOf hash).1,?_,ht.refusals,?_⟩
  · simp only [nextStep,hx]
  · generalize queue storage s src = q
    cases q <;> rfl

-- An empty Dequeue that nothing excuses fails, if its worker goes on at once.
theorem fails_at_once {wd : World (Shared T J) (Thread T J)} {m : Loaded} {buf : List J} {e : ℕ}
    (ht : .loop w (.fill k m buf (.dequeue src e)) ∈ wd.threads)
    (hf : findsItem storage wd.shared (.loop w (.fill k m buf (.dequeue src e)) : Thread T J) = false)
    (hp : (queue storage wd.shared src).paused = false) :
    ∃ wd', (program idOf hash storage toJob strategy).Reach always wd wd' ∧
      (w,.failedToDequeue) ∈ wd'.shared.errors := by
  obtain ⟨s,ts⟩ := wd
  obtain ⟨xs,ys,rfl⟩ := List.append_of_mem ht
  simp only [findsItem,Bool.or_eq_false_iff,decide_eq_false_iff_not,not_not] at hf hp
  obtain ⟨hl,he⟩ := hf
  obtain ⟨q,hn,hr,hpause⟩ := @dequeue_none T J idOf hash storage s w src e hl m
  have hq : queue storage (setQueue s (storage src.id) q) src = q := by rw [queue_set,if_pos rfl]
  have h1 : (program idOf hash storage toJob strategy).Reach always
      ⟨s,xs ++ .loop w (.fill k m buf (.dequeue src e)) :: ys⟩
      ⟨setQueue s (storage src.id) q,xs ++ .loop w (.fill k m buf (.emptyErr src e)) :: ys⟩ :=
    fill_step .refl hn
  have h2 := fill_step h1 (by rw [nextStep,hq,hpause,hp,if_neg (by simp)])
  have h3 := fill_step h2 (by rw [nextStep,hq,hr,if_neg (by simp [he])])
  have h4 := go_step h3 (by rw [loopStep,if_neg (by simp)])
  have h5 := go_step h4 rfl
  exact ⟨_,h5,by simp⟩

theorem empty_is_no_failure {fifo : ℕ → Bool} {capacity : ℕ → ℕ} :
    (∀ wd, (program idOf hash storage toJob strategy).Reach (finds storage)
      (newWorkers fifo capacity) wd → Unfailed wd) ∧
    ∀ (wd : World (Shared T J) (Thread T J)) (w k : ℕ) (m : Loaded) (buf : List J) (src : Source)
      (e : ℕ), Thread.loop w (.fill k m buf (.dequeue src e)) ∈ wd.threads →
      (queue storage wd.shared src).len = 0 → (queue storage wd.shared src).refusals = e →
      (queue storage wd.shared src).paused = false →
      ∃ wd', (program idOf hash storage toJob strategy).Reach always wd wd' ∧ ¬Unfailed wd' := by
  refine ⟨fun wd h => unfailed_of_inv (inv_reach h),?_⟩
  intro wd w k m buf src e ht hl he hp
  have hf : findsItem storage wd.shared
      (.loop w (.fill k m buf (.dequeue src e)) : Thread T J) = false := by
    simp [findsItem,hl,he]
  obtain ⟨wd',hr,hm⟩ := fails_at_once ht hf hp
  exact ⟨wd',hr,fun hu => hu.errors w hm⟩

def goes (i n : ℕ) : List (Event (Thread ℕ ℕ) Choice) := List.replicate n (.act i .go)

abbrev twoWorkers : Program (Shared ℕ ℕ) (Thread ℕ ℕ) Choice :=
  program (fun _ => none) (fun _ => 0) (fun _ => 0) some (fun _ => .roundRobin)

-- Two workers bound to one queue, each at a dispatch that has found an item in it.
def bothFound : List (Event (Thread ℕ ℕ) Choice) :=
  .call (.bind 0 (some (⟨0,false⟩,0))) :: goes 0 1 ++ .call (.bind 1 (some (⟨1,false⟩,0))) :: goes 1 1 ++
    .call (.call 0 (some (.add (some 7) 0))) :: goes 2 1 ++ .call (.loop 0 .idle) ::
    .call (.loop 1 .idle) :: .act 3 (.batch 1) :: goes 3 3 ++ .act 4 (.batch 1) :: goes 4 3

-- The queue is paused before the second dispatch gets to its Dequeue, and resumed before its recheck.
def refusedRun : List (Event (Thread ℕ ℕ) Choice) :=
  bothFound ++ goes 3 3 ++ goes 4 1 ++ .call (.call 0 (some .pause)) :: goes 5 1 ++ goes 4 2 ++
    .call (.call 0 (some .resume)) :: goes 6 1 ++ goes 4 3

-- The first worker takes the item, and the second one is about to dequeue.
def emptiedRun : List (Event (Thread ℕ ℕ) Choice) := bothFound ++ goes 3 3 ++ goes 4 2

theorem empty_is_no_failure_refused :
    (∃ wd, twoWorkers.Reach (finds fun _ => 0) (newWorkers (fun _ => true) fun _ => 0) wd ∧
      (wd.shared.queues 0).refusals = 1 ∧ Unfailed wd) ∧
    ∃ wd wd', twoWorkers.Reach (finds fun _ => 0) (newWorkers (fun _ => true) fun _ => 0) wd ∧
      twoWorkers.Reach always wd wd' ∧ ¬Unfailed wd' := by
  obtain ⟨wd,hr,hp⟩ := Program.exists_reach_of_run twoWorkers (finds fun _ => 0)
    (newWorkers (fun _ => true) fun _ => 0) refusedRun
    (fun wd => (wd.shared.queues 0).refusals = 1) (by decide +kernel)
  obtain ⟨wd',hr',hp'⟩ := Program.exists_reach_of_run twoWorkers (finds fun _ => 0)
    (newWorkers (fun _ => true) fun _ => 0) emptiedRun
    (fun wd => wd.threads[4]? = some (.loop 1 (.fill 1 (.direct ⟨1,false⟩) [] (.dequeue ⟨1,false⟩ 0))) &&
      (wd.shared.queues 0).len = 0 && (wd.shared.queues 0).refusals = 0 &&
      !(wd.shared.queues 0).paused) (by decide +kernel)
  simp only [Bool.and_eq_true,decide_eq_true_eq,Bool.not_eq_true'] at hp'
  obtain ⟨⟨⟨ht,hl⟩,he⟩,hq⟩ := hp'
  have hclaim := @empty_is_no_failure ℕ ℕ (fun _ => none) (fun _ => 0) (fun _ => 0) some
    (fun _ => .roundRobin) (fun _ => true) fun _ => 0
  obtain ⟨wd'',hr'',hu⟩ := hclaim.2 wd' 1 1 (.direct ⟨1,false⟩) [] ⟨1,false⟩ 0
    (List.mem_of_getElem? ht) hl he hq
  exact ⟨⟨wd,hr,of_decide_eq_true hp,hclaim.1 wd hr⟩,wd',wd'',hr',hr'',hu⟩

-- The first worker takes the item, the second one's Dequeue finds none.
theorem emptied_by_another_worker :
    ∃ wd, twoWorkers.Reach always (newWorkers (fun _ => true) fun _ => 0) wd ∧
      (1,FetchError.failedToDequeue) ∈ wd.shared.errors ∧ wd.shared.handed = [(0,[7])] := by
  obtain ⟨wd,hr,hp⟩ := Program.exists_reach_of_run twoWorkers always
    (newWorkers (fun _ => true) fun _ => 0)
    (emptiedRun ++ .act 3 (.closed false) :: goes 4 5)
    (fun wd => wd.shared.errors = [(1,.failedToDequeue)] && wd.shared.handed = [(0,[7])])
    (by decide +kernel)
  simp only [Bool.and_eq_true,decide_eq_true_eq] at hp
  exact ⟨wd,hr,by simp [hp.1],hp.2⟩

end Varmq.Fetch
