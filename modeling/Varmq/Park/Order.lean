import Varmq.Park.Line

namespace Varmq.Park

variable {J : Type} {number : J → ℕ} {p : Parked J} {paused : ℕ → Bool}

-- The dispatch numbers of a batch are those from the one of its stamp on.
def Numbered (number : J → ℕ) (js : List J) (st : Stamp) : Prop :=
  ∀ i j, js[i]? = some j → number j = st.seq + i

def Clear (a b : ParkedBatch J) : Prop :=
  a.stamp.seq + a.jobs.length ≤ b.stamp.seq ∨ b.stamp.seq + b.jobs.length ≤ a.stamp.seq

theorem Clear.symm {a b : ParkedBatch J} (h : Clear a b) : Clear b a := Or.symm h

structure Apart (number : J → ℕ) (p : Parked J) : Prop where
  whole : ∀ b ∈ p.batches, b.jobs ≠ []
  numbered : ∀ b ∈ p.batches, Numbered number b.jobs b.stamp
  clear : p.batches.Pairwise Clear
  sorted : p.unsorted = false → p.batches.Pairwise fun a b => before a b = true

theorem Apart.sorted_before (h : Apart number p) :
    p.sorted.Pairwise fun a b => before a b = true := by
  unfold Parked.sorted
  split
  · refine List.pairwise_mergeSort ?_ ?_ _
    · intro a b c hab hbc
      simp only [before,decide_eq_true_eq] at hab hbc ⊢
      omega
    · intro a b
      simp only [before,Bool.or_eq_true,decide_eq_true_eq]
      omega
  · rename_i hu
    exact h.sorted (by simpa using hu)

theorem Apart.mem_sorted (b : ParkedBatch J) : b ∈ p.sorted ↔ b ∈ p.batches :=
  (sorted_perm p).mem_iff

-- In the sorted line every batch ends before the next one starts.
theorem Apart.lined (h : Apart number p) :
    p.sorted.Pairwise fun a b => a.stamp.seq + a.jobs.length ≤ b.stamp.seq := by
  have hclear : p.sorted.Pairwise Clear :=
    ((sorted_perm p).pairwise_iff Clear.symm).mpr h.clear
  refine List.Pairwise.imp_of_mem ?_ (hclear.and h.sorted_before)
  rintro a b ha hb ⟨hc,hs⟩
  have hlen : 0 < b.jobs.length :=
    List.length_pos_iff.mpr (h.whole b ((Apart.mem_sorted b).mp hb))
  simp only [before,decide_eq_true_eq] at hs
  rcases hc with hc | hc
  · exact hc
  · omega

-- The first batch that is not held, if there is one.
theorem free_split (paused : ℕ → Bool) (bs : List (ParkedBatch J)) :
    (∀ b ∈ bs, b.stamp.held paused = true) ∨
    ∃ pre b post, bs = pre ++ b :: post ∧ (∀ c ∈ pre, c.stamp.held paused = true) ∧
      b.stamp.held paused = false := by
  induction bs with
  | nil => exact .inl fun b hb => by cases hb
  | cons a bs ih =>
    cases ha : a.stamp.held paused with
    | false => exact .inr ⟨[],a,bs,rfl,(fun c hc => by cases hc),ha⟩
    | true =>
      rcases ih with hall | ⟨pre,b,post,rfl,hpre,hb⟩
      · refine .inl fun b hb => ?_
        rcases List.mem_cons.mp hb with rfl | hb
        · exact ha
        · exact hall b hb
      · refine .inr ⟨a :: pre,b,post,rfl,fun c hc => ?_,hb⟩
        rcases List.mem_cons.mp hc with rfl | hc
        · exact ha
        · exact hpre c hc

theorem cut_free {k : ℕ} {pre post : List (ParkedBatch J)} {b : ParkedBatch J}
    (hpre : ∀ c ∈ pre, c.stamp.held paused = true) (hb : b.stamp.held paused = false) :
    cut paused k (pre ++ b :: post) = (b.jobs.take k,b.stamp,pre ++ (rest b k ++ post)) := by
  induction pre with
  | nil => rw [List.nil_append,cut,if_neg (by simp [hb])]; rfl
  | cons c pre ih =>
    rw [List.cons_append,cut,if_pos (hpre c List.mem_cons_self),
      ih fun d hd => hpre d (List.mem_cons_of_mem c hd)]
    rfl

theorem mem_rest {b c : ParkedBatch J} {k : ℕ} (h : c ∈ rest b k) :
    c.jobs = b.jobs.drop k ∧ c.jobs ≠ [] ∧
      c.stamp = { b.stamp with seq := b.stamp.seq + (b.jobs.take k).length } := by
  unfold rest at h
  split at h
  · cases h
  · rename_i hd
    rw [List.mem_singleton.mp h]
    exact ⟨rfl,hd,rfl⟩

theorem Numbered.take {js : List J} {st : Stamp} (h : Numbered number js st) (k : ℕ) :
    Numbered number (js.take k) st := by
  intro i j hj
  rw [List.getElem?_take] at hj
  split at hj
  · exact h i j hj
  · cases hj

theorem Numbered.drop {js : List J} {st : Stamp} (h : Numbered number js st) (k : ℕ) :
    Numbered number (js.drop k) { st with seq := st.seq + (js.take k).length } := by
  intro i j hj
  rw [List.getElem?_drop] at hj
  have hlt := (List.getElem?_eq_some_iff.mp hj).1
  have hlen : (js.take k).length = k := by
    rw [List.length_take]
    omega
  rw [h (k + i) j hj,hlen,Nat.add_assoc]

theorem Numbered.mem {js : List J} {st : Stamp} (h : Numbered number js st) {j : J}
    (hj : j ∈ js) : st.seq ≤ number j ∧ number j < st.seq + js.length := by
  obtain ⟨i,hi,rfl⟩ := List.getElem_of_mem hj
  rw [h i _ (List.getElem?_eq_getElem hi)]
  omega

theorem Numbered.nodup {js : List J} {st : Stamp} (h : Numbered number js st) :
    (js.map number).Nodup := by
  rw [List.Nodup,List.pairwise_map,List.pairwise_iff_getElem]
  intro i j hi hj hij
  rw [h i _ (List.getElem?_eq_getElem hi),h j _ (List.getElem?_eq_getElem hj)]
  omega

theorem Numbered.mem_map {js : List J} {st : Stamp} (h : Numbered number js st) {n : ℕ}
    (hl : st.seq ≤ n) (hu : n < st.seq + js.length) : n ∈ js.map number := by
  have hi : n - st.seq < js.length := by omega
  refine List.mem_map.mpr ⟨js[n - st.seq],List.getElem_mem hi,?_⟩
  rw [h _ _ (List.getElem?_eq_getElem hi)]
  omega

-- Two batches that share no number are one after the other.
theorem clear_of_disjoint {a b : ParkedBatch J} (ha : Numbered number a.jobs a.stamp)
    (hb : Numbered number b.jobs b.stamp) (hda : a.jobs ≠ []) (hdb : b.jobs ≠ [])
    (hd : ∀ n ∈ a.jobs.map number, n ∉ b.jobs.map number) : Clear a b := by
  have hla := List.length_pos_iff.mpr hda
  have hlb := List.length_pos_iff.mpr hdb
  by_contra hc
  unfold Clear at hc
  have hm := ha.mem_map (n := max a.stamp.seq b.stamp.seq) (by omega) (by omega)
  exact hd _ hm (hb.mem_map (by omega) (by omega))

theorem apart_empty : Apart number (Parked.empty : Parked J) :=
  ⟨(fun b hb => by cases hb),(fun b hb => by cases hb),.nil,fun _ => .nil⟩

theorem Apart.park (h : Apart number p) {gens : ℕ → ℕ} {js : List J} {st : Stamp}
    (hj : js ≠ []) (hn : Numbered number js st)
    (hc : ∀ b ∈ p.batches, Clear b ⟨js,st⟩) : Apart number (park gens paused p js st).1 := by
  unfold Park.park
  split
  · exact h
  · refine ⟨fun b hb => ?_,fun b hb => ?_,?_,fun hu => by cases hu⟩
    · rcases List.mem_append.mp hb with hb | hb
      · exact h.whole b hb
      · rw [List.mem_singleton.mp hb]
        exact hj
    · rcases List.mem_append.mp hb with hb | hb
      · exact h.numbered b hb
      · rw [List.mem_singleton.mp hb]
        exact hn
    · refine List.pairwise_append.mpr ⟨h.clear,List.pairwise_singleton _ _,fun a ha b hb => ?_⟩
      rw [List.mem_singleton.mp hb]
      exact hc a ha

theorem Apart.dropParked (h : Apart number p) (gen : ℕ) : Apart number (dropParked gen p).2 where
  whole b hb := h.whole b (List.mem_of_mem_filter hb)
  numbered b hb := h.numbered b (List.mem_of_mem_filter hb)
  clear := h.clear.filter _
  sorted hu := (h.sorted hu).filter _

-- What an unpark returns and leaves, by the first batch in line that is not held.
inductive Taken (paused : ℕ → Bool) (p : Parked J) (k : ℕ) : List J × Stamp × Parked J → Prop
  | none {q : Parked J} (hall : ∀ b ∈ p.batches, b.stamp.held paused = true)
      (hq : q.batches = p.batches ∧ q.unsorted = p.unsorted ∨ q.batches = p.sorted) :
      Taken paused p k ([],Stamp.zero,q)
  | some {q : Parked J} {pre post : List (ParkedBatch J)} {b : ParkedBatch J}
      (hs : p.sorted = pre ++ b :: post) (hpre : ∀ c ∈ pre, c.stamp.held paused = true)
      (hb : b.stamp.held paused = false) (hq : q.batches = pre ++ (rest b k ++ post)) :
      Taken paused p k (b.jobs.take k,b.stamp,q)

theorem unpark_taken (paused : ℕ → Bool) (p : Parked J) (k : ℕ) :
    Taken paused p k (unpark paused p k) := by
  unfold unpark
  split
  · rename_i he
    exact .none (fun b hb => by rw [he] at hb; cases hb) (.inl ⟨rfl,rfl⟩)
  · rcases free_split paused p.sorted with hall | ⟨pre,b,post,hs,hpre,hb⟩
    · rw [Lined.cut_held hall]
      exact .none (fun b hb => hall b ((Apart.mem_sorted b).mpr hb)) (.inr rfl)
    · rw [hs,cut_free hpre hb]
      exact .some hs hpre hb rfl

-- The rest of a cut batch stays where the batch was.
theorem rest_lined {k : ℕ} {pre post : List (ParkedBatch J)} {b : ParkedBatch J}
    (h : (pre ++ b :: post).Pairwise fun a b => a.stamp.seq + a.jobs.length ≤ b.stamp.seq) :
    (pre ++ (rest b k ++ post)).Pairwise fun a b => a.stamp.seq + a.jobs.length ≤ b.stamp.seq := by
  obtain ⟨hpre,hpost,hacross⟩ := List.pairwise_append.mp h
  obtain ⟨hb,hpost⟩ := List.pairwise_cons.mp hpost
  have hsum : (b.jobs.take k).length + (b.jobs.drop k).length = b.jobs.length := by
    rw [← List.length_append,List.take_append_drop]
  refine List.pairwise_append.mpr ⟨hpre,List.pairwise_append.mpr ⟨?_,hpost,?_⟩,?_⟩
  · unfold rest
    split
    · exact .nil
    · exact List.pairwise_singleton _ _
  · intro c hc d hd
    obtain ⟨hj,-,hst⟩ := mem_rest hc
    have := hb d hd
    rw [hj,hst]
    simp only
    omega
  · intro a ha c hc
    rcases List.mem_append.mp hc with hc | hc
    · obtain ⟨-,-,hst⟩ := mem_rest hc
      have := hacross a ha b List.mem_cons_self
      rw [hst]
      simp only
      omega
    · exact hacross a ha c (List.mem_cons_of_mem b hc)

theorem Apart.unpark (h : Apart number p) (paused : ℕ → Bool) (k : ℕ) :
    Apart number (unpark paused p k).2.2 := by
  have ht := unpark_taken paused p k
  generalize Park.unpark paused p k = r at ht ⊢
  have hsorted : ∀ {q : Parked J} {bs : List (ParkedBatch J)}, q.batches = bs →
      (∀ b ∈ bs, b.jobs ≠ [] ∧ Numbered number b.jobs b.stamp) →
      bs.Pairwise (fun a b => a.stamp.seq + a.jobs.length ≤ b.stamp.seq) → Apart number q := by
    rintro q bs rfl hbs hpw
    exact ⟨fun b hb => (hbs b hb).1,fun b hb => (hbs b hb).2,hpw.imp .inl,
      fun _ => hpw.imp before_of_apart⟩
  have hold : ∀ b ∈ p.sorted, b.jobs ≠ [] ∧ Numbered number b.jobs b.stamp := fun b hb =>
    ⟨h.whole b ((mem_sorted b).mp hb),h.numbered b ((mem_sorted b).mp hb)⟩
  cases ht with
  | none hall hq =>
    rcases hq with ⟨hq,hu⟩ | hq
    · exact ⟨hq ▸ h.whole,hq ▸ h.numbered,hq ▸ h.clear,fun hn => hq ▸ h.sorted (hu ▸ hn)⟩
    · exact hsorted hq hold h.lined
  | @some q pre post b hs hpre hb hq =>
    have hline := h.lined
    rw [hs] at hline hold
    refine hsorted hq (fun c hc => ?_) (rest_lined hline)
    rcases List.mem_append.mp hc with hc | hc
    · exact hold c (List.mem_append_left _ hc)
    · rcases List.mem_append.mp hc with hc | hc
      · obtain ⟨hj,hne,hst⟩ := mem_rest hc
        refine ⟨hne,?_⟩
        rw [hj,hst]
        exact (hold b (List.mem_append_right _ List.mem_cons_self)).2.drop k
      · exact hold c (List.mem_append_right _ (List.mem_cons_of_mem b hc))

-- An unpark takes the jobs next in line of those not held, and passes over none of them.
inductive HandsOut (number : J → ℕ) (paused : ℕ → Bool) (p : Parked J) (k : ℕ) :
    List J × Stamp × Parked J → Prop
  | nothing {q : Parked J} (hall : ∀ b ∈ p.batches, b.stamp.held paused = true) :
      HandsOut number paused p k ([],Stamp.zero,q)
  | jobs {q : Parked J} {b : ParkedBatch J} (hb : b ∈ p.batches)
      (hfree : b.stamp.held paused = false)
      (hleast : ∀ c ∈ p.batches, c.stamp.held paused = false → b.stamp.seq ≤ c.stamp.seq)
      (hne : b.jobs.take k ≠ []) (hnum : Numbered number (b.jobs.take k) b.stamp)
      (hlater : ∀ c ∈ q.batches, c.stamp.held paused = false →
        ∀ i ∈ c.jobs, ∀ j ∈ b.jobs.take k, number j < number i) :
      HandsOut number paused p k (b.jobs.take k,b.stamp,q)

theorem Apart.handsOut (h : Apart number p) {k : ℕ} (hk : 1 ≤ k) :
    HandsOut number paused p k (Park.unpark paused p k) := by
  have hq := h.unpark paused k
  have ht := unpark_taken paused p k
  generalize Park.unpark paused p k = r at ht hq ⊢
  cases ht with
  | none hall _ => exact .nothing hall
  | @some q pre post b hs hpre hb hqb =>
    have hline := h.lined
    have hold : ∀ c ∈ p.batches, c ∈ pre ++ b :: post := fun c hc => hs ▸ (mem_sorted c).mpr hc
    have hbp : b ∈ p.batches := (mem_sorted b).mp (by rw [hs]; simp)
    rw [hs] at hline
    obtain ⟨-,hpost,-⟩ := List.pairwise_append.mp hline
    obtain ⟨hafter,-⟩ := List.pairwise_cons.mp hpost
    have hnum := (h.numbered b hbp).take k
    refine .jobs hbp hb (fun c hc hfree => ?_) ?_ hnum fun c hc hfree i hi j hj => ?_
    · rcases List.mem_append.mp (hold c hc) with hc | hc
      · rw [hpre c hc] at hfree
        cases hfree
      · rcases List.mem_cons.mp hc with rfl | hc
        · exact Nat.le_refl _
        · have := hafter c hc
          omega
    · have hlen := List.length_pos_iff.mpr (h.whole b hbp)
      intro he
      have := congrArg List.length he
      rw [List.length_take,List.length_nil] at this
      omega
    · have hjn := (hnum.mem hj).2
      have hin := ((hq.numbered c hc).mem hi).1
      have hlen : (b.jobs.take k).length ≤ b.jobs.length := by
        rw [List.length_take]
        exact Nat.min_le_right _ _
      rw [hqb] at hc
      rcases List.mem_append.mp hc with hc | hc
      · rw [hpre c hc] at hfree
        cases hfree
      · rcases List.mem_append.mp hc with hc | hc
        · obtain ⟨-,-,hst⟩ := mem_rest hc
          rw [hst] at hin
          simp only at hin
          omega
        · have := hafter c hc
          omega

-- What holds of every parked job under the counter and the epoch of its batch holds of it after an
-- unpark, taken or left.
theorem unpark_forall {R : Stamp → J → Prop} (hR : ∀ st n j, R st j → R { st with seq := n } j)
    (h : ∀ b ∈ p.batches, ∀ j ∈ b.jobs, R b.stamp j) (k : ℕ) :
    (∀ j ∈ (unpark paused p k).1, R (unpark paused p k).2.1 j) ∧
    ∀ b ∈ (unpark paused p k).2.2.batches, ∀ j ∈ b.jobs, R b.stamp j := by
  have ht := unpark_taken paused p k
  generalize Park.unpark paused p k = r at ht ⊢
  have hsorted : ∀ b ∈ p.sorted, ∀ j ∈ b.jobs, R b.stamp j :=
    fun b hb => h b ((Apart.mem_sorted b).mp hb)
  cases ht with
  | none hall hq =>
    refine ⟨(fun j hj => by cases hj),fun b hb => ?_⟩
    rcases hq with ⟨hq,-⟩ | hq
    · exact h b (hq ▸ hb)
    · exact hsorted b (hq ▸ hb)
  | @some q pre post b hs hpre hb hq =>
    rw [hs] at hsorted
    have hcut := hsorted b (List.mem_append_right _ List.mem_cons_self)
    refine ⟨fun j hj => hcut j (List.mem_of_mem_take hj),fun c hc j hj => ?_⟩
    rw [hq] at hc
    rcases List.mem_append.mp hc with hc | hc
    · exact hsorted c (List.mem_append_left _ hc) j hj
    · rcases List.mem_append.mp hc with hc | hc
      · obtain ⟨hjs,-,hst⟩ := mem_rest hc
        rw [hst]
        exact hR _ _ j (hcut j (List.mem_of_mem_drop (hjs ▸ hj)))
      · exact hsorted c (List.mem_append_right _ (List.mem_cons_of_mem b hc)) j hj

theorem unpark_keeps {Q : Stamp → Prop} (hQ : ∀ st n, Q st → Q { st with seq := n })
    {b : ParkedBatch J} {j : J} (hb : b ∈ p.batches) (hj : j ∈ b.jobs) (hst : Q b.stamp) (k : ℕ) :
    j ∈ (unpark paused p k).1 ∧ Q (unpark paused p k).2.1 ∨
    ∃ c ∈ (unpark paused p k).2.2.batches, j ∈ c.jobs ∧ Q c.stamp := by
  have ht := unpark_taken paused p k
  generalize Park.unpark paused p k = r at ht ⊢
  cases ht with
  | none hall hq =>
    right
    rcases hq with ⟨hq,-⟩ | hq
    · exact ⟨b,hq ▸ hb,hj,hst⟩
    · exact ⟨b,hq ▸ (Apart.mem_sorted b).mpr hb,hj,hst⟩
  | @some q pre post c hs hpre hc hq =>
    have hmem := (Apart.mem_sorted b).mpr hb
    rw [hs] at hmem
    rcases List.mem_append.mp hmem with hmem | hmem
    · exact .inr ⟨b,hq ▸ List.mem_append_left _ hmem,hj,hst⟩
    · rcases List.mem_cons.mp hmem with rfl | hmem
      · rw [← List.take_append_drop k b.jobs] at hj
        rcases List.mem_append.mp hj with hj | hj
        · exact .inl ⟨hj,hst⟩
        · refine .inr ⟨⟨b.jobs.drop k,_⟩,hq ▸ List.mem_append_right _ (List.mem_append_left _ ?_),
            hj,hQ _ (b.stamp.seq + (b.jobs.take k).length) hst⟩
          rw [rest,if_neg (List.ne_nil_of_mem hj)]
          exact List.mem_singleton_self _
      · exact .inr ⟨b,hq ▸ List.mem_append_right _ (List.mem_append_right _ hmem),hj,hst⟩

end Varmq.Park
