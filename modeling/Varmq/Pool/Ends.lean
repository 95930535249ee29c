import Mathlib.Order.RelClasses
import Varmq.Interleaving.Fair
import Varmq.Pool.Stack

namespace Varmq.Pool

open Interleaving LinkedStack

variable {s s' : Shared} {keep : ℤ} {e p : ℕ} {pc pc' : PrunePc} {t t' : Thread}
  {ts xs ys : List Thread} {r : Run program newPool} {i j : ℕ}

section Rank

-- The nodes of the stack from e down.
def below (s : Shared) (e : ℕ) : ℕ := (s.stack.dropWhile (· ≠ e)).length

-- Where Prune stands, the nodes it may still ask about, the place in the round of one node and the
-- nodes its search has below it.
def rank (s : Shared) : PrunePc → ℕ × ℕ × ℕ × ℕ
  | .lock => (5,0,0,0)
  | .load => (4,0,0,0)
  | .count _ _ _ e => (3,below s e,0,0)
  | .scan sc _ => (2,sc.left,6,0)
  | .drop sc _ _ => (2,sc.left,5,0)
  | .cas sc _ _ => (2,sc.left,4,0)
  | .searchHead sc _ _ => (2,sc.left,3,0)
  | .search sc _ _ (some p) => (2,sc.left,2,2 * below s p + 1)
  | .search sc _ _ none => (2,sc.left,2,0)
  | .follow sc _ _ p => (2,sc.left,2,2 * below s p)
  | .link sc _ _ _ => (2,sc.left,1,0)
  | .len sc _ _ => (2,sc.left,0,0)
  | .unlock _ => (1,0,0,0)
  | .returned _ | .nilPointer => (0,0,0,0)

def Lower : ℕ × ℕ × ℕ × ℕ → ℕ × ℕ × ℕ × ℕ → Prop :=
  Prod.Lex (· < ·) (Prod.Lex (· < ·) (Prod.Lex (· < ·) (· < ·)))

theorem lower_wf : WellFounded Lower :=
  wellFounded_lt.prod_lex (wellFounded_lt.prod_lex (wellFounded_lt.prod_lex wellFounded_lt))

theorem below_split {as bs : List ℕ} (hn : s.stack.Nodup) (hs : s.stack = as ++ e :: bs) :
    below s e = bs.length + 1 := by
  rw [hs] at hn
  have has : ∀ x ∈ as, decide (x ≠ e) = true := by
    intro x hx
    simpa using (List.nodup_append.mp hn).2.2 x hx e List.mem_cons_self
  rw [below,hs,List.dropWhile_append_of_pos has,List.dropWhile_cons_of_neg (by simp),
    List.length_cons]

theorem below_next {as bs : List ℕ} (hn : s.stack.Nodup) (hs : s.stack = as ++ e :: p :: bs) :
    below s e = below s p + 1 := by
  have hp : s.stack = (as ++ [e]) ++ p :: bs := by rw [hs,List.append_assoc]; rfl
  rw [below_split hn hs,below_split hn hp,List.length_cons]

theorem rank_lower (hn : s.stack.Nodup) (hl : Linked s.next s.head s.stack)
    (hat : PruneAt s keep pc) (ha : PruneAct s keep pc s' pc') : Lower (rank s' pc') (rank s pc) := by
  have hstage : ∀ {a b : ℕ} {x y : ℕ × ℕ × ℕ}, a < b → Lower (a,x) (b,y) := fun h => .left _ _ h
  have hplace : ∀ {a b c d x y : ℕ}, c < d → Lower (a,b,c,x) (a,b,d,y) :=
    fun h => .right _ (.right _ (.left _ _ h))
  have hdist : ∀ {a b c x y : ℕ}, x < y → Lower (a,b,c,x) (a,b,c,y) :=
    fun h => .right _ (.right _ (.right _ h))
  cases ha with
  | lock | empty | load | counted | bottom | kept | unlock | nilPointer =>
    refine hstage ?_
    decide
  | next | first | below | take | pushed | found | link =>
    refine hplace ?_
    decide
  | searchHead =>
    generalize s.head = o
    cases o <;> exact .right _ (.right _ (.left _ _ (by decide)))
  | @count top since e e' cs hne =>
    obtain ⟨above,rest,-,hst,-⟩ := hat
    rw [← List.append_assoc] at hst
    rw [hst] at hl
    have hrest := hl.next_eq
    rw [hne] at hrest
    obtain ⟨rest',rfl⟩ := List.head?_eq_some_iff.mp hrest.symm
    refine .right _ (.left _ _ ?_)
    rw [below_next hn hst]
    exact Nat.lt_succ_self _
  | keep =>
    obtain ⟨above,rest,hs⟩ := hat
    exact .right _ (.left _ _ (Nat.sub_lt hs.left Nat.one_pos))
  | miss => exact hdist (by omega)
  | @follow sc e p n =>
    obtain ⟨hp,as,q,bs,rest,hs⟩ := hat
    have hst := hs.unkept hp
    rw [List.append_assoc,List.cons_append,List.cons_append] at hst
    rw [hst] at hl
    have hq := hl.next_eq
    rw [List.head?_cons] at hq
    rw [hq]
    refine hdist ?_
    rw [below_next hn hst]
    omega
  | len =>
    obtain ⟨above,rest,-,-,hpos⟩ := hat
    exact .right _ (.left _ _ (Nat.sub_lt hpos Nat.one_pos))

theorem below_land (hp : p ∈ s.stack) (he : e ∉ s.stack) : below (s.land e) p = below s p := by
  have hne : e ≠ p := fun h => he (h ▸ hp)
  simp [below,Shared.land,hne]

theorem rank_land (hn : e ∉ s.stack) (hat : PruneAt s keep pc) : rank (s.land e) pc = rank s pc := by
  cases pc with
  | count top cs since v =>
    obtain ⟨above,rest,-,hst,-⟩ := hat
    simp only [rank]
    rw [below_land (by rw [hst]; simp) hn]
  | search sc v n o =>
    obtain ⟨hp,as,p,bs,rest,hs,rfl⟩ := hat
    simp only [rank]
    rw [below_land (by rw [hs.unkept hp]; simp) hn]
  | follow sc v n p =>
    obtain ⟨hp,as,q,bs,rest,hs⟩ := hat
    simp only [rank]
    rw [below_land (by rw [hs.unkept hp]; simp) hn]
  | _ => rfl

theorem rank_frame (h : s'.stack = s.stack) : rank s' pc = rank s pc := by
  have hb : ∀ p, below s' p = below s p := fun p => by rw [below,below,h]
  cases pc with
  | count => simp only [rank,hb]
  | search sc e n o => cases o <;> simp only [rank,hb]
  | follow => simp only [rank,hb]
  | _ => rfl

theorem rank_waiting (h : holds (.prune keep pc) = 0) : rank s' pc = rank s pc := by
  cases pc with
  | lock | returned => rfl
  | _ => cases h

theorem rank_other (h : Inv s (xs ++ t :: ys)) (ha : Act s t s' t')
    (hu : .prune keep pc ∈ xs ++ ys) : rank s' pc = rank s pc := by
  have hat := h.at_ _ (mem_of_other hu)
  cases ha with
  | push ha =>
    cases ha with
    | land => exact rank_land (h.unlinked (by simp [pushing,pushes])).1 hat
    | _ => exact rank_frame (s := s) rfl
  | pop ha =>
    cases ha with
    | take => exact rank_waiting ((h.alone rfl).2 _ hu)
    | _ => exact rank_frame (s := s) rfl
  | prune ha =>
    cases ha with
    | take | link => exact rank_waiting ((h.alone rfl).2 _ hu)
    | _ => exact rank_frame (s := s) rfl

end Rank

section Run

def rankOf (j : ℕ) (w : World Shared Thread) : ℕ × ℕ × ℕ × ℕ :=
  match w.threads[j]? with
  | some (.prune _ pc) => rank w.shared pc
  | _ => (0,0,0,0)

theorem rankOf_eq {w : World Shared Thread} (h : w.threads[j]? = some (.prune keep pc)) :
    rankOf j w = rank w.shared pc := by
  simp only [rankOf,h]

theorem prune_acts_finitely (hr : r.Obeys owned)
    (h : (r.world i).threads[j]? = some (.prune keep pc)) : ∃ n, ∀ k, n ≤ k → ¬r.Acts k j := by
  refine Run.acts_finitely lower_wf (rankOf j)
    (I := fun w => ∃ pc, w.threads[j]? = some (.prune keep pc)) ⟨pc,h⟩ ?_ ?_
  · rintro k ⟨pc,hk⟩ ha
    have hk' := Run.keeps_thread hk ha
    refine ⟨⟨pc,hk'⟩,?_⟩
    rw [rankOf_eq hk,rankOf_eq hk']
    cases he : r.event k with
    | none => rw [r.stays k he]
    | some ev =>
      have hi := inv_reach (r.reach_of_obeys hr k)
      rcases Program.next_cases (r.steps k ev he) with
        ⟨m,rfl,-,hw⟩ | ⟨xs,m,ys,c,s',m',new,rfl,hts,hs,hw⟩
      · rw [hw]
      · rw [hts] at hi hk
        have hj : j ≠ xs.length := by
          rintro rfl
          exact ha ⟨c,he⟩
        rw [hw]
        exact rank_other hi (act hs).1 (mem_of_getElem?_other hj hk)
  · rintro k ⟨pc,hk⟩ ha
    have hi := inv_reach (r.reach_of_obeys hr k)
    obtain ⟨c,s',t',new,hs,hw,hk'⟩ := Run.acts_step hk ha
    obtain ⟨hact,-⟩ := act hs
    cases hact with
    | prune hact =>
      refine ⟨⟨_,hk'⟩,?_⟩
      rw [rankOf_eq hk,rankOf_eq hk',hw]
      exact rank_lower hi.nodup hi.linked (hi.at_ _ (List.mem_of_getElem? hk)) hact

theorem prune_enabled {w : World Shared Thread} (h : w.threads[j]? = some (.prune keep pc))
    (hc : pc ≠ .nilPointer) : (∃ sc, pc = .returned sc) ∨ (pc = .lock ∧ w.shared.popMx = true) ∨
      Enabled program w j := by
  have hgo : ∀ {c : Choice}, (pruneStep w.shared keep pc c).isSome = true → Enabled program w j := by
    intro c hs
    obtain ⟨⟨s',pc'⟩,hs⟩ := Option.isSome_iff_exists.mp hs
    exact ⟨_,c,s',.prune keep pc',[],h,by simp [program,step,hs]⟩
  cases pc with
  | returned sc => exact .inl ⟨sc,rfl⟩
  | nilPointer => cases hc rfl
  | lock =>
    cases hm : w.shared.popMx with
    | true => exact .inr (.inl ⟨rfl,rfl⟩)
    | false => exact .inr (.inr (hgo (c := .go) (by simp [pruneStep,hm])))
  | load =>
    refine .inr (.inr (hgo (c := .go) ?_))
    simp only [pruneStep]
    split <;> rfl
  | count top cs since e =>
    refine .inr (.inr (hgo (c := .go) ?_))
    simp only [pruneStep]
    split <;> rfl
  | scan sc o =>
    refine .inr (.inr (hgo (c := .go) ?_))
    cases o <;> rfl
  | drop => exact .inr (.inr (hgo (c := .drop false) rfl))
  | cas sc e n =>
    refine .inr (.inr (hgo (c := .go) ?_))
    simp only [pruneStep]
    split <;> rfl
  | search sc e n o =>
    refine .inr (.inr (hgo (c := .go) ?_))
    cases o <;> rfl
  | _ => exact .inr (.inr (hgo (c := .go) rfl))

def answer : Thread → Option (Option ℕ)
  | .popBack (.len h) => some (some h)
  | .popBack (.unlock o) | .popBack (.returned o) => some o
  | _ => none

-- What a PopBack that answers o does to the stack.
def PopsTop (s s' : Shared) : Option ℕ → Prop
  | none => s.stack = []
  | some h => s.stack = h :: s'.stack

theorem pops_top (hr : r.Obeys owned) {o : Option ℕ}
    (h : (r.world i).threads[j]? = some (.popBack (.returned o))) :
    ∃ k < i, r.Acts k j ∧ PopsTop (r.world k).shared (r.world (k + 1)).shared o := by
  obtain ⟨k,hk,ha,t,t',ht,hno,ht',hp⟩ := Run.comes_by_act (p := fun t => answer t = some o)
    (fun _ ht => by cases ht)
    (fun s t he hp => by
      unfold answer at hp
      split at hp
      all_goals cases hp
      all_goals cases he)
    (fun s t c s' t' new hs u hu => by
      rw [(act hs).2] at hu
      cases hu) h rfl
  refine ⟨k,hk,ha,?_⟩
  have hi := inv_reach (r.reach_of_obeys hr k)
  have hl := hi.linked
  obtain ⟨c,s',u,new,hs,hw,hu⟩ := Run.acts_step ht ha
  rw [ht'] at hu
  cases hu
  obtain ⟨hact,-⟩ := act hs
  rw [hw]
  cases hact with
  | push hact => cases hp
  | prune hact => cases hp
  | pop hact =>
    cases hact with
    | empty hh =>
      cases hp
      rw [hh] at hl
      exact hl.of_none
    | take hh =>
      cases hp
      rw [hh] at hl
      obtain ⟨ys,hy,-⟩ := hl.of_some
      simp only [PopsTop,Shared.unhead]
      rw [hy,List.erase_cons_head]
    | len => exact absurd hp hno
    | unlock => exact absurd hp hno
    | _ => cases hp

-- What Prune leaves when it gives the mutex back: the nodes pushed since it loaded the top, the nodes
-- that drop refused and the nodes it did not ask about.
def Leaves (s : Shared) (keep : ℤ) (sc : Scan) : Prop :=
  s.stack = (s.landed.drop sc.since).reverse ++
    (sc.kept ++ sc.counted.drop (sc.counted.length - keep).toNat)

theorem Scanning.leaves {above rest : List ℕ} {sc : Scan} (h : Scanning s keep sc above rest rest)
    (hend : rest = [] ∨ sc.left = 0) : Leaves s keep sc := by
  have hp := (h.pruned hend).asked
  have hrest : rest = sc.counted.drop (sc.counted.length - keep).toNat := by
    have hc := h.counted
    rw [hp] at hc
    exact List.append_cancel_left (hc.symm.trans (List.take_append_drop _ _).symm)
  rw [Leaves,h.stack,h.since.eq,← hrest]

theorem prune_leaves (hr : r.Obeys owned) {sc : Scan}
    (h : (r.world i).threads[j]? = some (.prune keep (.returned sc))) :
    ∃ k < i, r.Acts k j ∧ Leaves (r.world k).shared keep sc := by
  obtain ⟨k,hk,ha,t,t',ht,hno,ht',rfl⟩ :=
    Run.comes_by_act (p := fun t => t = .prune keep (.returned sc)) (fun _ ht => by cases ht)
    (fun s t he hp => by
      subst hp
      cases he)
    (fun s t c s' t' new hs u hu => by
      rw [(act hs).2] at hu
      cases hu) h rfl
  refine ⟨k,hk,ha,?_⟩
  have hi := inv_reach (r.reach_of_obeys hr k)
  obtain ⟨c,s',u,new,hs,hw,hu⟩ := Run.acts_step ht ha
  rw [ht'] at hu
  cases hu
  obtain ⟨hact,-⟩ := act hs
  cases hact with
  | prune hact =>
    cases hact with
    | unlock =>
      obtain ⟨above,rest,hs,hend⟩ := hi.at_ _ (List.mem_of_getElem? ht)
      exact hs.leaves hend

end Run

def finished : Thread → Bool
  | .pushNode _ .done | .popBack (.returned _) | .prune _ (.returned _) => true
  | _ => false

structure Conserves (w : World Shared Thread) : Prop where
  linked : Linked w.shared.next w.shared.head w.shared.stack
  once : w.shared.stack.Nodup
  placed : ∀ v, total (pushed v) w.threads = w.shared.stack.count v + total (takes v) w.threads
  nonneg : 0 ≤ w.shared.len
  len : (∀ t ∈ w.threads, finished t = true) → w.shared.len = w.shared.stack.length

theorem Inv.conserves {w : World Shared Thread} (h : Inv w.shared w.threads) : Conserves w := by
  refine ⟨h.linked,h.nodup,h.placed,?_,fun hf => ?_⟩
  · rw [h.len]
    exact Int.natCast_nonneg _
  · have hz : total inFlight w.threads = 0 := by
      refine total_eq_zero.mpr fun t ht => ?_
      have hft := hf t ht
      unfold finished at hft
      split at hft
      · rfl
      · rfl
      · rfl
      · cases hft
    rw [h.len,hz]
    simp

-- The stack of idle workers over whole runs.
theorem idle_stack_conserves (r : Run program newPool) (hr : r.Obeys owned) :
    (∀ i, Conserves (r.world i)) ∧
    (∀ i j o, (r.world i).threads[j]? = some (.popBack (.returned o)) →
      ∃ k < i, r.Acts k j ∧ PopsTop (r.world k).shared (r.world (k + 1)).shared o) ∧
    (∀ i j keep sc, (r.world i).threads[j]? = some (.prune keep (.returned sc)) →
      Pruned keep sc ∧ ∃ k < i, r.Acts k j ∧ Leaves (r.world k).shared keep sc) ∧
    ∀ i j keep pc, (r.world i).threads[j]? = some (.prune keep pc) → pc ≠ .nilPointer ∧
      (∃ n, ∀ k, n ≤ k → ¬r.Acts k j) ∧
      ((∃ sc, pc = .returned sc) ∨ (pc = .lock ∧ (r.world i).shared.popMx = true) ∨
        Enabled program (r.world i) j) := by
  have hi : ∀ i, Inv (r.world i).shared (r.world i).threads :=
    fun i => inv_reach (r.reach_of_obeys hr i)
  refine ⟨fun i => (hi i).conserves,fun i j o h => pops_top hr h,fun i j keep sc h => ?_,
    fun i j keep pc h => ?_⟩
  · exact ⟨(hi i).at_ _ (List.mem_of_getElem? h),prune_leaves hr h⟩
  · have hc : pc ≠ .nilPointer := by
      rintro rfl
      exact (hi i).at_ _ (List.mem_of_getElem? h)
    exact ⟨hc,prune_acts_finitely hr h,prune_enabled h hc⟩

-- Node 3 lands while Prune asks about node 2, its top.
def pushedOnto : Events Thread Choice :=
  (.call (.pushNode 1 .len) :: List.replicate 4 (.act 0 .go) : Events Thread Choice) ++
  (.call (.pushNode 2 .len) :: List.replicate 4 (.act 1 .go) : Events Thread Choice) ++
  (.call (.prune 1 .lock) :: List.replicate 5 (.act 2 .go) : Events Thread Choice) ++
  (.call (.pushNode 3 .len) :: List.replicate 4 (.act 3 .go) : Events Thread Choice) ++
  (.act 2 (.drop true) :: List.replicate 7 (.act 2 .go) : Events Thread Choice)

theorem idle_stack_conserves_pushedOnto : ∃ (r : Run program newPool) (i : ℕ),
    (r.world i).shared.stack = [3,1] ∧ (r.world i).shared.len = 2 ∧ Conserves (r.world i) := by
  have hrun : (program.run owned newPool pushedOnto).isSome = true := by decide
  have hend : (after program newPool pushedOnto 29).shared.stack = [3,1] ∧
      (after program newPool pushedOnto 29).shared.len = 2 := by decide
  obtain ⟨w,hw⟩ := Option.isSome_iff_exists.mp hrun
  refine ⟨Run.ofEvents pushedOnto (run_always hw),29,hend.1,hend.2,?_⟩
  exact (idle_stack_conserves _ (Run.obeys_ofEvents hw)).1 29

end Varmq.Pool
