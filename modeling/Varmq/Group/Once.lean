import Mathlib.Algebra.Group.Nat.Defs
import Varmq.Group.Deliver

namespace Varmq.Group

open Interleaving
open Varmq.Jobs (Status Error Outcome closeable notClosed)

variable {R : Type} {s s' : Shared R} {l l' : Thread R} {c : Choice R}
  {new xs ys ts : List (Thread R)} {n : ℕ}

-- The Close has closed its member and not counted it off yet.
def claimed (l : Thread R) : ℕ :=
  match atClose l with
  | some .doneLoad | some (.doneCas _) => 1
  | _ => 0

def closedMembers (s : Shared R) : ℕ := s.status.count .closed

@[simp] theorem claimed_caller (k : Caller) (pc : ClosePc) :
    claimed (k.thread pc : Thread R) = match pc with
      | .doneLoad | .doneCas _ => 1
      | _ => 0 := by
  cases pc <;> simp [claimed]

theorem statusOf_lt {m : ℕ} (h : m < s.status.length) : s.status[m] = s.statusOf m := by
  simp [Shared.statusOf,List.getD_eq_getElem?_getD,h]

theorem closedMembers_set {m : ℕ} {q : Status} (h : s.statusOf m ≠ .closed) (hm : m < s.status.length) :
    closedMembers (s.setStatus m q) = closedMembers s + if q = .closed then 1 else 0 := by
  have h' : s.status[m] ≠ .closed := by rwa [statusOf_lt hm]
  simp only [closedMembers,Shared.setStatus]
  rw [List.count_set hm]
  simp [h']

theorem closing_ne {m : ℕ} (h : closeable (s.statusOf m) = none) : s.statusOf m ≠ .closed := by
  intro hq
  rw [hq] at h
  cases h

theorem isOpen_ne {m : ℕ} (h : isOpen (s.statusOf m)) : s.statusOf m ≠ .closed := by
  rcases h with h | h <;> rw [h] <;> decide

-- A step closes a member exactly when it puts its Close between the claim and the count.
structure Claim (s s' : Shared R) (l l' : Thread R) : Prop where
  moved : closedMembers s' + claimed l + s.counted.length = closedMembers s + claimed l' + s'.counted.length
  counted : ∀ x ∈ s'.counted, x ∈ s.counted ∨ s.statusOf x.1 = .closed ∧ s'.statusOf x.1 = .closed

theorem Claim.keep (h1 : closedMembers s' = closedMembers s) (h2 : s'.counted = s.counted)
    (h3 : claimed l' = claimed l) : Claim s s' l l' :=
  ⟨by rw [h1,h2,h3],fun x hx => .inl (h2 ▸ hx)⟩

theorem caller_claim {k : Caller} {pc pc' : ClosePc} (hk : Closing s k.member pc)
    (hm : pc.uncounted = true → k.member < s.status.length)
    (hpos : pc.uncounted = true → s.count ≠ 0)
    (hp : CloseAct s k.member k.fate pc s' pc') : Claim s s' (k.thread pc) (k.thread pc') := by
  cases hp with
  | claim =>
    refine ⟨?_,fun x hx => .inl hx⟩
    rw [closedMembers_set (closing_ne hk) (hm rfl)]
    simp [Shared.setStatus]
  | none hc => exact absurd hc (hpos rfl)
  | counted =>
    refine ⟨?_,fun x hx => ?_⟩
    · simp only [closedMembers,claimed_caller,List.length_cons]
      omega
    · rcases List.mem_cons.mp hx with rfl | hx
      · exact .inr ⟨hk,hk⟩
      · exact .inl hx
  | @wgDone last hw =>
    refine .keep rfl rfl ?_
    cases last <;> simp
  | _ => exact .keep rfl rfl (by simp)

theorem step_claim (hk : Knows s l) (hlt : ∀ m ∈ owned l, m < s.status.length)
    (hpos : owned l ≠ [] → s.count ≠ 0 ∧ s.closes = 0) (ha : Adds s l) (hs : Act s l s' l') :
    Claim s s' l l' := by
  cases hs with
  | @close k pc pc' s' hp =>
    obtain ⟨hc,-⟩ := (knows_caller k pc).mp hk
    refine caller_claim hc (fun hu => ?_) (fun hu => ?_) (close_act hp)
    · exact hlt _ (by rw [owned_caller,hu]; simp)
    · exact (hpos (by rw [owned_caller,hu]; simp)).1
  | @closed k r => exact .keep rfl rfl (by rw [claimed_caller]; simp [claimed])
  | @new i hi => exact .keep (by simp [closedMembers]) rfl rfl
  | @mark i =>
    split
    · rename_i hi
      have ha : s.status.length = i + 1 := ha
      refine .keep ?_ rfl rfl
      rw [closedMembers_set (by rw [hi]; decide) (by omega)]
      rfl
    · exact .keep rfl rfl rfl
  | @started m =>
    refine .keep ?_ rfl rfl
    rw [closedMembers_set (isOpen_ne hk) (hlt m (by simp [owned]))]
    rfl
  | @finish m =>
    have hk : s.statusOf m = .processing := hk
    refine .keep ?_ rfl rfl
    rw [closedMembers_set (by rw [hk]; decide) (hlt m (by simp [owned]))]
    rfl
  | @ran m o pc hpc =>
    rcases hpc with ⟨rfl,-⟩ | ⟨r,rfl,-⟩ | ⟨e,rfl,-⟩
    all_goals exact .keep rfl rfl rfl
  | late hc hpc =>
    rcases hpc with ⟨r,rfl⟩ | ⟨e,rfl⟩
    · have := (hpos (by simp [owned])).2
      omega
    · have := (hpos (by simp [owned])).2
      omega
  | skip hpc hq =>
    rcases hpc with rfl | rfl
    all_goals exact .keep rfl rfl rfl
  | _ => exact .keep rfl rfl rfl

variable [DecidableEq R]

structure Counts (n : ℕ) (s : Shared R) (ts : List (Thread R)) : Prop where
  inv : Inv n s ts
  closed : closedMembers s = s.counted.length + total claimed ts
  counted : ∀ x ∈ s.counted, s.statusOf x.1 = .closed

theorem counts_act (h : Counts n s (xs ++ l :: ys)) (hs : Act s l s' l') :
    Counts n s' (xs ++ l' :: ys) := by
  have hl : l ∈ xs ++ l :: ys := by simp
  have hm := h.inv.members hs
  have hc := step_claim (h.inv.knows l hl) (fun m hm => (h.inv.owned_made hl hm).1)
    (h.inv.open_group hl) (h.inv.adds l hl) hs
  refine ⟨inv_act h.inv hs,?_,fun x hx => ?_⟩
  · have h1 := h.closed
    have h2 := hc.moved
    rw [total_split] at h1 ⊢
    omega
  · rcases hc.counted x hx with hold | ⟨-,hnew⟩
    · have hq := h.counted x hold
      have hown : x.1 ∉ owned l := by
        intro hown
        have h1 := (h.inv.owned_made hl hown).2.1
        exact List.count_eq_zero.mp h1 (List.mem_map_of_mem hold)
      exact ((hm.later x.1 hown).of_ne (by rw [hq]; decide)).trans hq
    · exact hnew

theorem counts_call (h : Counts n s ts) (he : entry s l = true) : Counts n s (ts ++ [l]) := by
  have hl : claimed l = 0 := by
    unfold entry at he
    split at he <;> first | rfl | cases he
  refine ⟨inv_call h.inv he,?_,h.counted⟩
  rw [total_call,hl]
  exact h.closed

theorem counts_reach {w : World (Shared R) (Thread R)} (h0 : Counts n s [.addAll (.new 0)])
    (h : (program R).Reach always (addAll s) w) : Counts n w.shared w.threads := by
  refine Program.reach_invariant h0 (fun _ _ _ h _ he => counts_call h he)
    (fun s xs l ys c s' l' new h _ hs => ?_) h
  obtain ⟨ha,rfl⟩ := step_act hs
  rw [List.append_nil]
  exact counts_act h ha

theorem newWgCounter_some (h : n < 2 ^ 31) : newWgCounter n = some (n,(n : ℤ)) := by
  have hb : Int.bmod n uint32Size = n := by
    rw [Int.bmod_def]
    simp only [uint32Size]
    omega
  have hm : n % uint32Size = n := by
    simp only [uint32Size]
    omega
  rw [newWgCounter,hb,hm,if_neg (by omega)]

theorem newWgCounter_exact {w : ℤ} (h : newWgCounter n = some (n,w)) : n < 2 ^ 31 := by
  by_cases hb : Int.bmod n uint32Size < 0
  · rw [newWgCounter,if_pos hb] at h
    cases h
  · rw [newWgCounter,if_neg hb,Option.some.injEq,Prod.mk.injEq] at h
    have hm := h.1
    rw [Int.bmod_def] at hb
    simp only [uint32Size] at hb hm
    omega

omit [DecidableEq R] in
theorem newGroupJob_some {k : Kind} {items : List String} (h : items.length < 2 ^ 31) :
    newGroupJob (R := R) k items = some
      ⟨k,items.map generateGroupId,items.length,items.length,[],[],[],
        if items.length = 0 then 1 else 0,[],[],[]⟩ := by
  rw [newGroupJob,newWgCounter_some h]
  rfl

theorem counts_new (k : Kind) (items : List String) : Counts items.length
    (⟨k,items.map generateGroupId,items.length,items.length,[],[],[],
      if items.length = 0 then 1 else 0,[],[],[]⟩ : Shared R) [.addAll (.new 0)] := by
  refine ⟨⟨by simp,rfl,?_,fun m => ?_,(fun m hm => by cases hm),?_,by simp,by simp,?_,?_,fun m => rfl,
    fun x => rfl,rfl,by simp,?_⟩,rfl,(fun x hx => by cases hx)⟩
  · simp [Adds]
  · simp [owns,owned,left,made]
  · simp [Knows]
  · simp [telling,atClose]
  · simp [last,atClose]
  · simp [panicked,atClose]

omit [DecidableEq R] in
theorem returned_le (m : ℕ) (l : Thread R) : returned m l ≤ owns m l := by
  unfold returned
  split
  · simp [owns,owned,List.count_cons]
  · simp [owns,owned,List.count_cons]
  · simp [owns,owned,List.count_cons]
  · rename_i i pc
    by_cases h : i = m ∧ pc.uncounted = true
    · obtain ⟨rfl,hu⟩ := h
      simp [owns,owned,hu]
    · simp [h]
  · exact Nat.zero_le _

theorem Inv.left_le (h : Inv n s ts) (m : ℕ) : left s m ≤ 1 := by
  have h1 := h.places m
  have h2 := made_le s m
  omega

theorem Inv.lt_of_left (h : Inv n s ts) {m : ℕ} (hm : left s m ≠ 0) : m < n := by
  have h1 := h.places m
  rw [← h.ids]
  exact Nat.lt_of_lt_of_le (lt_of_made (by omega)) h.size

omit [DecidableEq R] in
theorem counted_le_left (s : Shared R) (m : ℕ) (f : Fate) : s.counted.count (m,f) ≤ left s m :=
  List.count_le_count_map (f := Prod.fst) (x := (m,f))

theorem Inv.runs_le (h : Inv n s ts) (m : ℕ) : runsOf s m ≤ made s m := by
  have h1 := h.ran m
  have h2 := h.places m
  have h3 := total_le (f := returned m) (g := owns m) fun t (_ : t ∈ ts) => returned_le m t
  have h4 := counted_le_left s m .ran
  omega

theorem Inv.ran_le (h : Inv n s ts) : s.ran.length ≤ n := by
  have hnodup : (s.ran.map Prod.fst).Nodup := by
    refine List.nodup_iff_count_le_one.mpr fun m => ?_
    exact Nat.le_trans (h.runs_le m) (made_le s m)
  have hsub : s.ran.map Prod.fst ⊆ List.range n := by
    intro m hm
    have h1 : 0 < runsOf s m := List.count_pos_iff.mpr hm
    have h2 := h.runs_le m
    rw [List.mem_range,← h.ids]
    exact Nat.lt_of_lt_of_le (lt_of_made (by omega)) h.size
  have hlen := (List.subperm_of_subset hnodup hsub).length_le
  rwa [List.length_map,List.length_range] at hlen

theorem count_fates (xs : List (ℕ × Fate)) (m : ℕ) {f g : Fate} (h : f ≠ g) :
    xs.count (m,f) + xs.count (m,g) ≤ (xs.map Prod.fst).count m := by
  induction xs with
  | nil => simp
  | cons x xs ih =>
    obtain ⟨i,k⟩ := x
    simp only [List.map_cons,List.count_cons,beq_iff_eq,Prod.mk.injEq]
    by_cases hi : i = m
    · by_cases hk : k = f
      · subst hk
        simp only [hi,h,and_true,and_false,if_true,if_false]
        omega
      · simp only [hi,hk,and_false,if_true,if_false]
        split <;> omega
    · simp only [hi,false_and,if_false]
      exact ih

-- A member that is counted off without a run never ran.
theorem Inv.spared (h : Inv n s ts) {m : ℕ} {f : Fate} (hm : (m,f) ∈ s.counted) (hf : f ≠ .ran) :
    runsOf s m = 0 := by
  have h1 := h.ran m
  have h2 := h.places m
  have h3 := total_le (f := returned m) (g := owns m) fun t (_ : t ∈ ts) => returned_le m t
  have h4 := made_le s m
  have h5 := count_fates s.counted m hf.symm
  simp only [left] at h2
  have h6 : 0 < s.counted.count (m,f) := List.count_pos_iff.mpr hm
  omega

theorem Inv.roomy (h : Inv n s ts) (hl : l ∈ ts) {m : ℕ} {x : Message R}
    (hx : sending s l = some (m,x)) : s.closes = 0 ∧ s.buffer.length < s.ids.length := by
  have howned : owned l ≠ [] := by
    unfold sending at hx
    split at hx
    · simp [owned]
    · simp [owned]
    · cases hx
  have h1 := h.sends
  have h2 := le_total (f := Group.sends s) hl
  have h3 : Group.sends s l = 1 := by simp [Group.sends,hx]
  have h4 : (dues s).length ≤ s.ran.length := List.length_filterMap_le _ _
  have h5 := h.ran_le
  have h6 := h.buffer
  have h7 := h.ids
  exact ⟨(h.open_group hl howned).2,by omega⟩

omit [DecidableEq R] in
theorem send_step {m : ℕ} {x : Message R} (hx : sending s l = some (m,x)) (hc : s.closes = 0)
    (hb : s.buffer.length < s.ids.length) :
    step s l .go = some (s.send m x,.run m .finish,[]) := by
  unfold sending at hx
  split at hx
  · cases hx
    simp [step,runStep,hc,hb]
  · cases hx
    simp [step,runStep,hc,hb]
  · cases hx

-- What holds of a group of n members while the world w runs.
structure Delivered (n : ℕ) (s : Shared R) (ts : List (Thread R)) : Prop where
  count : s.count + s.counted.length = n
  counted : (s.counted.map Prod.fst).Nodup ∧ ∀ x ∈ s.counted, x.1 < n ∧ s.statusOf x.1 = .closed
  closed : closedMembers s = s.counted.length + total claimed ts
  once : s.closes + total last ts = if s.count = 0 then 1 else 0
  after : 0 < s.closes → ∀ m < n, s.statusOf m = .closed
  send : ∀ t ∈ ts, ∀ m x, sending s t = some (m,x) →
    s.closes = 0 ∧ step s t .go = some (s.send m x,.run m .finish,[])
  calm : ∀ t ∈ ts, panicked t = false
  delivers : ∀ x, s.sent.count x + total (due s x) ts = (dues s).count x
  complete : 0 < s.closes → s.sent.Perm (dues s)
  runs : ∀ m, runsOf s m ≤ 1
  spared : ∀ m f, (m,f) ∈ s.counted → f ≠ .ran → runsOf s m = 0 ∧ m ∉ s.sent.map Prod.fst

theorem Counts.delivered (h : Counts n s ts) : Delivered n s ts := by
  have hall : 0 < s.closes → s.counted.length = n := by
    intro hc
    have h1 := h.inv.closes
    have h2 := h.inv.count
    split at h1 <;> omega
  have hnodup : (s.counted.map Prod.fst).Nodup :=
    List.nodup_iff_count_le_one.mpr h.inv.left_le
  have hlt : ∀ x ∈ s.counted, x.1 < n := by
    intro x hx
    have hpos : 0 < left s x.1 := List.count_pos_iff.mpr (List.mem_map_of_mem hx)
    exact h.inv.lt_of_left (by omega)
  have hno : ∀ m, runsOf s m = 0 → m ∉ s.sent.map Prod.fst := by
    intro m hr hm
    obtain ⟨x,hx,rfl⟩ := List.mem_map.mp hm
    have h1 := h.inv.sent x
    have h2 : 0 < s.sent.count x := List.count_pos_iff.mpr hx
    have h3 : x ∈ dues s := List.count_pos_iff.mp (by omega)
    obtain ⟨r,hr',hy⟩ := List.mem_filterMap.mp h3
    obtain ⟨y,-,rfl⟩ := Option.map_eq_some_iff.mp hy
    exact List.count_eq_zero.mp hr (List.mem_map_of_mem hr')
  refine ⟨h.inv.count,⟨hnodup,fun x hx => ⟨hlt x hx,h.counted x hx⟩⟩,h.closed,h.inv.closes,
    fun hc m hm => ?_,fun t ht m x hx => ?_,h.inv.calm,h.inv.sent,fun hc => ?_,
    fun m => Nat.le_trans (h.inv.runs_le m) (made_le s m),fun m f hm hf => ?_⟩
  · have hsub : s.counted.map Prod.fst ⊆ List.range n := by
      intro i hi
      obtain ⟨x,hx,rfl⟩ := List.mem_map.mp hi
      exact List.mem_range.mpr (hlt x hx)
    have hperm := (List.subperm_of_subset hnodup hsub).perm_of_length_le
      (Nat.le_of_eq (by rw [List.length_range,List.length_map,hall hc]))
    obtain ⟨x,hx,rfl⟩ := List.mem_map.mp (hperm.mem_iff.mpr (List.mem_range.mpr hm))
    exact h.counted x hx
  · obtain ⟨hc,hb⟩ := h.inv.roomy ht hx
    exact ⟨hc,send_step hx hc hb⟩
  · refine List.perm_iff_count.mpr fun x => ?_
    have h1 := h.inv.sent x
    have h2 : total (due s x) ts = 0 := by
      refine total_eq_zero.mpr fun t ht => ?_
      unfold due
      split
      · rename_i hx
        have := (h.inv.roomy ht hx).1
        omega
      · rfl
    omega
  · have hr := h.inv.spared hm hf
    exact ⟨hr,hno m hr⟩

-- AddAll of these items on a queue of kind k.
def Delivers (R : Type) [DecidableEq R] (k : Kind) (items : List String) : Prop :=
  ∃ s : Shared R, newGroupJob k items = some s ∧
    ∀ w, (program R).Reach always (addAll s) w → Delivered items.length w.shared w.threads

theorem lt_of_delivers {k : Kind} {items : List String} (h : Delivers R k items) :
    items.length < 2 ^ 31 := by
  obtain ⟨s,hs,h⟩ := h
  obtain ⟨⟨count,wg⟩,hc,rfl⟩ := Option.map_eq_some_iff.mp hs
  have hcount : count + 0 = items.length := (h _ .refl).count
  rw [← Nat.add_zero count,hcount] at hc
  exact newWgCounter_exact hc

theorem delivers_iff (R : Type) [DecidableEq R] (k : Kind) (items : List String) :
    Delivers R k items ↔ items.length < 2 ^ 31 := by
  constructor
  · exact lt_of_delivers
  · intro h
    exact ⟨_,newGroupJob_some h,fun w hw => (counts_reach (counts_new k items) hw).delivered⟩

theorem not_delivers_overflow : ¬Delivers ℕ .result (List.replicate (2 ^ 32) "") := by
  intro h
  have h := lt_of_delivers h
  rw [List.length_replicate] at h
  omega

end Varmq.Group
