import Mathlib.Data.List.Perm.Basic
import Varmq.Interleaving.Total
import Varmq.Serve.Basic

namespace Varmq.Serve

open Interleaving

-- The nodes a goroutine has in its hands while their Serve runs.
def serving : Thread → List ℕ
  | .serve n (.fn _) => [n]
  | .serve n .freePoolNode => [n]
  | .serve n .pushNode => [n]
  | .serve n .stop => [n]
  | .take _ (.fill n) => [n]
  | .take _ (.pushNode n) => [n]
  | .take _ (.sendBatch n) => [n]
  | .take _ (.send n) => [n]
  | .remove _ (.stop n) => [n]
  | .prune (.prune dropped) => dropped
  | .prune (.stop n expired) => n :: expired
  | .prune (.put _ expired) => expired
  | _ => []

-- Between Stop and Put, and between Get and go Serve.
def unserved : Thread → List ℕ
  | .serve n .put => [n]
  | .take _ (.serve n) => [n]
  | .remove _ (.put n) => [n]
  | .prune (.put n _) => [n]
  | _ => []

def inside (n : ℕ) : Thread → ℕ
  | .serve _ .returned => 0
  | .serve m _ => [m].count n
  | _ => 0

def jobIn (s : Shared) (n : ℕ) : ℕ :=
  match s.chan n with
  | some p => if p.ok then 1 else 0
  | none => 0

def stopIn (s : Shared) (n : ℕ) : ℕ :=
  match s.chan n with
  | some p => if p.ok then 0 else 1
  | none => 0

structure Turn (l l' : Thread) (gained lost bared dressed : List ℕ) : Prop where
  serving : ∀ m, (serving l').count m + lost.count m = (serving l).count m + gained.count m
  unserved : ∀ m, (unserved l').count m + dressed.count m = (unserved l).count m + bared.count m
  inside : ∀ m, inside m l' = inside m l

inductive Effect (s : Shared) (l : Thread) : Shared → Thread → List Thread → Prop
  | quiet {l' : Thread} (h : Turn l l' [] [] [] []) : Effect s l s l' []
  | pop {l' : Thread} {n : ℕ} {idle : List ℕ} (hi : s.idle.Perm (n :: idle))
      (h : Turn l l' [n] [] [] []) : Effect s l { s with idle := idle } l' []
  | push {l' : Thread} {n : ℕ} (h : Turn l l' [] [n] [] []) : Effect s l (s.pushNode n) l' []
  | get {l' : Thread} {n : ℕ} {cache : List ℕ} (hc : s.cache.Perm (n :: cache))
      (h : Turn l l' [] [] [n] []) : Effect s l { s with cache := cache } l' []
  | fresh {l' : Thread} (h : Turn l l' [] [] [s.nodes] []) :
      Effect s l { s with nodes := s.nodes + 1 } l' []
  | spawn {l' : Thread} {n : ℕ} (h : Turn l l' [n] [] [] [n]) : Effect s l s l' [.serve n .recv]
  | stop {s' : Shared} {l' : Thread} {n : ℕ} (hs : s.stop n = some s')
      (h : Turn l l' [] [n] [n] []) : Effect s l s' l' []
  | put {l' : Thread} {n : ℕ} (h : Turn l l' [] [] [] [n]) : Effect s l (s.put n) l' []
  | send {s' : Shared} {l' : Thread} {n : ℕ} {p : Payload} (hp : p.ok = true) (hk : p.items = s.sent)
      (hs : { s with sent := s.sent + 1 }.offer n p = some s') (h : Turn l l' [] [n] [] []) :
      Effect s l s' l' []
  | run {n : ℕ} {p : Payload} (hl : l = .serve n .recv) (hc : s.chan n = some p) (hp : p.ok = true) :
      Effect s l { s.take n with ran := s.ran ++ [p.items] } (.serve n (.fn p.items)) []
  | leave {n : ℕ} {p : Payload} (hl : l = .serve n .recv) (hc : s.chan n = some p)
      (hp : p.ok = false) : Effect s l (s.take n) (.serve n .returned) []

theorem Turn.same {l l' : Thread} (hs : Serve.serving l' = Serve.serving l)
    (hu : Serve.unserved l' = Serve.unserved l) (hi : ∀ m, Serve.inside m l' = Serve.inside m l) :
    Turn l l' [] [] [] [] :=
  ⟨by simp [hs],by simp [hu],hi⟩

theorem perm_picked {ns : List ℕ} {i n : ℕ} (h : ns[i]? = some n) : ns.Perm (n :: ns.eraseIdx i) := by
  obtain ⟨hi,rfl⟩ := List.getElem?_eq_some_iff.mp h
  exact (List.getElem_cons_eraseIdx_perm hi).symm

theorem serve_effect {s s' : Shared} {n : ℕ} {pc pc' : Serving} {c : Choice}
    (h : serveStep s n pc c = some (s',pc')) : Effect s (.serve n pc) s' (.serve n pc') [] := by
  cases pc with
  | recv =>
    simp only [serveStep] at h
    split at h
    · cases h
    · rename_i p hp
      split at h
      case isTrue hok =>
        cases h
        exact .run rfl hp hok
      case isFalse hok =>
        cases h
        exact .leave rfl hp (by simpa using hok)
  | fn k =>
    cases h
    exact .quiet (.same rfl rfl fun _ => rfl)
  | freePoolNode => cases c <;> cases h <;> exact .quiet (.same rfl rfl fun _ => rfl)
  | pushNode =>
    cases h
    exact .push ⟨by simp [serving],by simp [unserved],by simp [inside]⟩
  | stop =>
    obtain ⟨u,hu,hq⟩ := Option.map_eq_some_iff.mp h
    cases hq
    exact .stop hu ⟨by simp [serving],by simp [unserved],by simp [inside]⟩
  | put =>
    cases h
    exact .put ⟨by simp [serving],by simp [unserved],by simp [inside]⟩
  | returned => cases h

theorem serving_taken (a b : Taker) (n : ℕ) : serving (.take b (taken n a)) = [n] := by
  cases a <;> rfl

theorem unserved_taken (a b : Taker) (n : ℕ) : unserved (.take b (taken n a)) = [] := by
  cases a <;> rfl

theorem take_effect {s s' : Shared} {a : Taker} {pc pc' : Taking} {c : Choice} {ns : List ℕ}
    (h : takeStep s a pc c = some (s',pc',ns)) :
    Effect s (.take a pc) s' (.take a pc') (ns.map fun n => .serve n .recv) := by
  cases pc with
  | popBack =>
    simp only [takeStep] at h
    split at h
    · rename_i n idle hidle
      cases h
      refine .pop (n := n) (by rw [hidle]) ⟨?_,?_,by simp [inside]⟩
      · simp only [serving_taken]
        simp [serving]
      · simp only [unserved_taken]
        simp [unserved]
    · split at h <;> cases h <;> exact .quiet (.same rfl rfl fun _ => rfl)
  | get =>
    cases c with
    | pick i =>
      simp only [takeStep] at h
      split at h
      · cases h
      · rename_i n hn
        cases h
        exact .get (perm_picked hn) ⟨by simp [serving],by simp [unserved],by simp [inside]⟩
    | go | no =>
      cases h
      exact .fresh ⟨by simp [serving],by simp [unserved],by simp [inside]⟩
  | serve n =>
    cases h
    refine .spawn (n := n) ⟨?_,?_,by simp [inside]⟩
    · simp only [serving_taken]
      simp [serving]
    · simp only [unserved_taken]
      simp [unserved]
  | fill n => cases c <;> cases h <;> exact .quiet (.same rfl rfl fun _ => rfl)
  | pushNode n =>
    cases h
    exact .push ⟨by simp [serving],by simp [unserved],by simp [inside]⟩
  | sendBatch n | send n =>
    obtain ⟨u,hu,hq⟩ := Option.map_eq_some_iff.mp h
    cases hq
    exact .send rfl rfl hu ⟨by simp [serving],by simp [unserved],by simp [inside]⟩
  | returned => cases h

theorem remove_effect {s s' : Shared} {a : Remover} {pc pc' : Removing} {c : Choice}
    (h : removeStep s a pc c = some (s',pc')) : Effect s (.remove a pc) s' (.remove a pc') [] := by
  cases pc with
  | popBack =>
    simp only [removeStep] at h
    split at h
    · cases h
      exact .quiet (.same rfl rfl fun _ => rfl)
    · split at h
      · cases h
        exact .quiet (.same rfl rfl fun _ => rfl)
      · rename_i n idle hidle
        cases h
        exact .pop (by rw [hidle]) ⟨by simp [serving],by simp [unserved],by simp [inside]⟩
  | stop n =>
    obtain ⟨u,hu,hq⟩ := Option.map_eq_some_iff.mp h
    cases hq
    exact .stop hu ⟨by simp [serving],by simp [unserved],by simp [inside]⟩
  | put n =>
    cases h
    exact .put ⟨by simp [serving],by simp [unserved],by simp [inside]⟩
  | returned => cases h

theorem serving_expire (ns : List ℕ) : serving (.prune (expire ns)) = ns := by
  cases ns <;> rfl

theorem unserved_expire (ns : List ℕ) : unserved (.prune (expire ns)) = [] := by
  cases ns <;> rfl

theorem prune_effect {s s' : Shared} {pc pc' : Pruning} {c : Choice}
    (h : pruneStep s pc c = some (s',pc')) : Effect s (.prune pc) s' (.prune pc') [] := by
  cases pc with
  | prune dropped =>
    cases c with
    | pick i =>
      simp only [pruneStep] at h
      split at h
      · cases h
      · rename_i n hn
        cases h
        exact .pop (perm_picked hn) ⟨by simp [serving],by simp [unserved],by simp [inside]⟩
    | go | no =>
      cases h
      exact .quiet (.same (serving_expire dropped) (unserved_expire dropped) fun _ => rfl)
  | stop n expired =>
    obtain ⟨u,hu,hq⟩ := Option.map_eq_some_iff.mp h
    cases hq
    exact .stop hu ⟨by simp [serving,List.count_cons],by simp [unserved],by simp [inside]⟩
  | put n expired =>
    cases h
    refine .put (n := n) ⟨?_,?_,by simp [inside]⟩
    · simp only [serving_expire]
      simp [serving]
    · simp only [unserved_expire]
      simp [unserved]
  | returned => cases h

theorem step_effect {s s' : Shared} {l l' : Thread} {c : Choice} {new : List Thread}
    (h : program.step s l c = some (s',l',new)) : Effect s l s' l' new := by
  cases l with
  | serve n pc =>
    obtain ⟨u,hu,hq⟩ := Option.map_eq_some_iff.mp h
    cases hq
    exact serve_effect hu
  | take a pc =>
    obtain ⟨u,hu,hq⟩ := Option.map_eq_some_iff.mp h
    cases hq
    exact take_effect hu
  | remove a pc =>
    obtain ⟨u,hu,hq⟩ := Option.map_eq_some_iff.mp h
    cases hq
    exact remove_effect hu
  | prune pc =>
    obtain ⟨u,hu,hq⟩ := Option.map_eq_some_iff.mp h
    cases hq
    exact prune_effect hu

end Varmq.Serve
