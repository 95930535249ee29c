import Varmq.Sources.Manager

namespace Varmq.Sources

variable {s : Strategy} {m : SourceManager} {line bs : List Binding} {b : Binding} {n : ℕ}

theorem rank_lt {a b : Binding} :
    a.rank < b.rank ↔ a.priority < b.priority ∨ a.priority = b.priority ∧ a.time < b.time :=
  Prod.Lex.toLex_lt_toLex

def Sorted (line : List Binding) : Prop := line.Pairwise fun a b => a.rank < b.rank

theorem Sorted.inj (h : Sorted line) {a b : Binding} (ha : a ∈ line) (hb : b ∈ line)
    (hr : a.rank = b.rank) : a = b := by
  have hnd : (line.map Binding.rank).Nodup := by
    rw [List.Nodup,List.pairwise_map]
    exact h.imp fun hlt => ne_of_lt hlt
  exact List.inj_on_of_nodup_map hnd ha hb hr

-- The order is the only sorted arrangement of the bindings.
theorem inOrder_eq (hs : Sorted line) (hp : line.Perm bs) : inOrder bs = line := by
  have hsort : (inOrder bs).Pairwise fun a b => a.rank ≤ b.rank := by
    have : Std.Total fun a b : Binding => a.rank ≤ b.rank := ⟨fun a b => le_total _ _⟩
    have : IsTrans Binding fun a b => a.rank ≤ b.rank := ⟨fun a b c => le_trans⟩
    exact List.pairwise_insertionSort _ bs
  have hperm : (inOrder bs).Perm line := (List.perm_insertionSort _ bs).trans hp.symm
  refine hperm.eq_of_pairwise (fun a b ha hb hab hba => ?_) hsort (hs.imp le_of_lt)
  exact hs.inj (hperm.mem_iff.mp ha) hb (le_antisymm hab hba)

-- Register on the bindings themselves.
def place (b : Binding) (line : List Binding) : List Binding :=
  line.insertIdx (line.findIdx fun e => b.priority < e.priority) b

theorem place_nil (b : Binding) : place b [] = [b] := rfl

theorem place_cons (b e : Binding) (line : List Binding) :
    place b (e :: line) = if b.priority < e.priority then b :: e :: line else e :: place b line := by
  simp only [place,List.findIdx_cons]
  by_cases h : b.priority < e.priority
  · simp [h]
  · simp [h]

theorem place_perm (b : Binding) (line : List Binding) : (place b line).Perm (b :: line) :=
  List.perm_insertIdx b line List.findIdx_le_length

theorem register_place (b : Binding) (line : List Binding) (i : ℕ) :
    Manager.register ⟨line.map Binding.registered,i⟩ b.src b.priority =
      ⟨(place b line).map Binding.registered,i⟩ := by
  simp only [Manager.register,Manager.insertIdx,place,List.findIdx_map,List.map_insertIdx]
  rfl

theorem place_sorted (hs : Sorted line) (ht : ∀ e ∈ line, e.time < b.time) :
    Sorted (place b line) := by
  induction line with
  | nil => simp [place_nil,Sorted]
  | cons e line ih =>
    obtain ⟨he,hs'⟩ := List.pairwise_cons.mp hs
    rw [place_cons]
    split
    · rename_i hlt
      have hbe : b.rank < e.rank := rank_lt.mpr (.inl hlt)
      refine List.pairwise_cons.mpr ⟨fun a ha => ?_,hs⟩
      rcases List.mem_cons.mp ha with rfl | ha
      · exact hbe
      · exact lt_trans hbe (he a ha)
    · rename_i hge
      refine List.pairwise_cons.mpr ⟨fun a ha => ?_,ih hs' fun a ha => ht a (List.mem_cons_of_mem _ ha)⟩
      rcases List.mem_cons.mp ((place_perm b line).mem_iff.mp ha) with rfl | ha
      · have htime := ht e List.mem_cons_self
        refine rank_lt.mpr ?_
        omega
      · exact he a ha

-- The manager of the bindings in their order.
def Holds (s : Strategy) (m : SourceManager) : List Binding → Prop
  | [] => m = .empty
  | [b] => m = (singleManager b.src b.priority).1
  | line => ∃ i, m = .strategy ⟨line.map Binding.registered,i⟩ s

theorem holds_several (h : 2 ≤ line.length) :
    Holds s m line ↔ ∃ i, m = .strategy ⟨line.map Binding.registered,i⟩ s := by
  match line,h with
  | _ :: _ :: _,_ => exact Iff.rfl

theorem place_length (b : Binding) (line : List Binding) :
    (place b line).length = line.length + 1 := by
  simpa using (place_perm b line).length_eq

theorem single_add (a b : Binding) :
    (Manager.new.register a.src a.priority).register b.src b.priority =
      ⟨(place b [a]).map Binding.registered,0⟩ := by
  have h : Manager.new.register a.src a.priority = ⟨[a].map Binding.registered,0⟩ := rfl
  rw [h,register_place]

theorem add_holds (h : Holds s m line) (b : Binding) :
    Holds s (m.add b.src b.priority s).1 (place b line) := by
  match line with
  | [] =>
    have h : m = .empty := h
    rw [h]
    rfl
  | [a] =>
    have h : m = (singleManager a.src a.priority).1 := h
    rw [holds_several (by simp [place_length])]
    refine ⟨0,?_⟩
    rw [h,singleManager]
    split
    · rw [SourceManager.add,single_add]
    · rw [SourceManager.add,single_add]
  | a :: c :: line =>
    obtain ⟨i,h⟩ := h
    rw [holds_several (by simp [place_length])]
    refine ⟨i,?_⟩
    rw [h,SourceManager.add,register_place]

-- UnregisterItem on the bindings themselves.
def discard (src : Source) (line : List Binding) : List Binding :=
  line.eraseP fun b => b.src = src

theorem unregister_discard (src : Source) (line : List Binding) (i : ℕ) :
    ∃ j, Manager.unregisterItem ⟨line.map Binding.registered,i⟩ src =
      ⟨(discard src line).map Binding.registered,j⟩ := by
  simp only [Manager.unregisterItem,discard,List.findIdx?_map,List.eraseP_eq_eraseIdx]
  have hp : ((fun r : Registered Source => decide (r.item = src)) ∘ Binding.registered) =
      fun b => decide (b.src = src) := rfl
  rw [hp]
  cases hf : line.findIdx? (fun b => decide (b.src = src)) with
  | none => exact ⟨i,rfl⟩
  | some k =>
    simp only [List.eraseIdx_map]
    exact ⟨_,rfl⟩

theorem discard_cons (src : Source) (e : Binding) (line : List Binding) :
    discard src (e :: line) = if e.src = src then line else e :: discard src line := by
  simp [discard,List.eraseP_cons]

theorem discard_length (src : Source) (line : List Binding) :
    line.length ≤ (discard src line).length + 1 := by
  unfold discard
  rw [List.length_eraseP]
  split <;> omega

theorem only_registered (line : List Binding) (i : ℕ) :
    Manager.only ⟨line.map Binding.registered,i⟩ =
      match line with
      | [b] => some (b.src,b.priority)
      | _ => none := by
  match line with
  | [] | [_] | _ :: _ :: _ => rfl

theorem remove_single (a : Binding) (src : Source) :
    Holds s ((singleManager a.src a.priority).1.remove src).1 (discard src [a]) := by
  rw [discard_cons]
  by_cases hsrc : a.src = src
  · rw [if_pos hsrc,singleManager]
    subst hsrc
    split <;> simp [SourceManager.remove,Holds]
  · rw [if_neg hsrc,singleManager]
    split
    · rename_i hc
      simp [SourceManager.remove,Ne.symm hsrc,Holds,discard,singleManager,hc]
    · rename_i hc
      simp [SourceManager.remove,Ne.symm hsrc,Holds,discard,singleManager,hc]

theorem remove_holds (h : Holds s m line) (src : Source) :
    Holds s (m.remove src).1 (discard src line) := by
  match line with
  | [] =>
    have h : m = .empty := h
    rw [h]
    rfl
  | [a] =>
    have h : m = (singleManager a.src a.priority).1 := h
    rw [h]
    exact remove_single a src
  | a :: c :: line =>
    obtain ⟨i,h⟩ := h
    obtain ⟨j,hj⟩ := unregister_discard src (a :: c :: line) i
    have hlen := discard_length src (a :: c :: line)
    rw [h,SourceManager.remove,hj,only_registered]
    generalize discard src (a :: c :: line) = rest at hlen
    match rest with
    | [] => simp at hlen
    | [b] => rfl
    | _ :: _ :: _ => exact ⟨j,rfl⟩

theorem unbind_perm (hs : Sorted line) (hp : line.Perm bs) (src : Source) :
    (discard src line).Perm (unbind src bs) := by
  rw [unbind,inOrder_eq hs hp]
  cases hf : line.find? (fun b => decide (b.src = src)) with
  | none =>
    have hno := List.find?_eq_none.mp hf
    rw [discard,List.eraseP_of_forall_not hno]
    exact hp
  | some b =>
    obtain ⟨hb,as,rest,rfl,hno⟩ := List.find?_eq_some_iff_append.mp hf
    have hdis : discard src (as ++ b :: rest) = as ++ rest := by
      rw [discard,List.eraseP_append_right _ (by simpa using hno)]
      simp only [List.eraseP_cons,hb,cond_true]
    rw [hdis]
    have hmid := (List.perm_middle.symm.trans hp).erase b
    rwa [List.erase_cons_head] at hmid

-- What a call keeps: the bindings have an order in which the manager holds them.
structure Kept (s : Strategy) (n : ℕ) (bs line : List Binding) (m : SourceManager) : Prop where
  perm : line.Perm bs
  sorted : Sorted line
  past : ∀ b ∈ line, b.time < n
  holds : Holds s m line

-- The bindings in their order, whoever holds them.
structure Lined (n : ℕ) (bs line : List Binding) : Prop where
  perm : line.Perm bs
  sorted : Sorted line
  past : ∀ b ∈ line, b.time < n

theorem Lined.place (h : Lined n bs line) (src : Source) (priority : ℤ) :
    Lined (n + 1) (bind bs (.addSource src priority,n)) (place ⟨src,priority,n⟩ line) := by
  have hp := place_perm ⟨src,priority,n⟩ line
  refine ⟨?_,place_sorted h.sorted h.past,fun b hb => ?_⟩
  · exact hp.trans ((h.perm.cons _).trans (List.perm_append_singleton _ _).symm)
  · rcases List.mem_cons.mp (hp.mem_iff.mp hb) with rfl | hb
    · exact Nat.lt_succ_self n
    · exact Nat.lt_succ_of_lt (h.past b hb)

theorem Lined.discard (h : Lined n bs line) (src : Source) :
    Lined (n + 1) (bind bs (.removeSource src,n)) (discard src line) := by
  have hsub : (Sources.discard src line).Sublist line := List.eraseP_sublist
  exact ⟨unbind_perm h.sorted h.perm src,h.sorted.sublist hsub,
    fun b hb => Nat.lt_succ_of_lt (h.past b (hsub.subset hb))⟩

theorem call_kept {w : Worker} (h : Kept s n bs line w.sources) (c : Call) :
    ∃ line', Kept s (n + 1) (bind bs (c,n)) line' (call s w c).sources := by
  have hl : Lined n bs line := ⟨h.perm,h.sorted,h.past⟩
  cases c with
  | addSource src priority =>
    obtain ⟨h1,h2,h3⟩ := hl.place src priority
    exact ⟨_,h1,h2,h3,add_holds h.holds ⟨src,priority,n⟩⟩
  | removeSource src =>
    obtain ⟨h1,h2,h3⟩ := hl.discard src
    exact ⟨_,h1,h2,h3,remove_holds h.holds src⟩

theorem calls_kept {w : Worker} (calls : List Call) (h : Kept s n bs line w.sources) :
    ∃ line', Kept s (n + calls.length) ((calls.zipIdx n).foldl bind bs) line'
      (calls.foldl (call s) w).sources := by
  induction calls generalizing n bs line w with
  | nil => exact ⟨line,h⟩
  | cons c calls ih =>
    obtain ⟨line',h'⟩ := call_kept h c
    obtain ⟨line'',h''⟩ := ih h'
    refine ⟨line'',?_⟩
    rw [List.length_cons,Nat.add_comm calls.length,← Nat.add_assoc]
    exact h''

theorem Kept.serves (h : Kept s n bs line m) : Serves s bs m := by
  have hlen := h.perm.length_eq
  refine ⟨?_,fun h0 => ?_,fun b hb => ?_,fun h2 => ?_⟩
  · rw [← hlen]
    match line,h.holds with
    | [],hm =>
      have hm : m = .empty := hm
      rw [hm]
      rfl
    | [b],hm =>
      have hm : m = (singleManager b.src b.priority).1 := hm
      rw [hm,singleManager]
      split <;> rfl
    | _ :: _ :: _,⟨i,hm⟩ =>
      rw [hm]
      simp [SourceManager.count,Manager.count]
  · have hnil : line = [] := List.length_eq_zero_iff.mp (hlen.trans h0)
    have := h.holds
    rw [hnil] at this
    exact this
  · have hone : line = [b] := List.perm_singleton.mp (hb ▸ h.perm)
    have := h.holds
    rw [hone] at this
    rw [show m = (singleManager b.src b.priority).1 from this,singleManager]
    split <;> rfl
  · obtain ⟨i,hm⟩ := (holds_several (by omega)).mp h.holds
    exact ⟨i,by rw [hm,inOrder_eq h.sorted h.perm]⟩

theorem manager_depends_on_bound (s : Strategy) (calls : List Call) :
    Serves s (bound calls) (run s calls).sources := by
  have h0 : Kept s 0 [] [] newWorker.sources :=
    ⟨.refl _,List.Pairwise.nil,(fun _ hb => by cases hb),rfl⟩
  obtain ⟨line,h⟩ := calls_kept calls h0
  exact h.serves

example : (run .priority [.addSource ⟨0,false⟩ 5,.addSource ⟨1,false⟩ 1,.removeSource ⟨1,false⟩,
    .addSource ⟨2,false⟩ 3]).sources =
    .strategy ⟨[⟨⟨2,false⟩,3⟩,⟨⟨0,false⟩,5⟩],0⟩ .priority := by decide

end Varmq.Sources
