import Varmq.Topics.Refines

namespace Varmq.Topics

open Interleaving

variable {T : Type} {s s' u : Log T} {r r' : Plain T} {x : T} {c n p : ℕ} {v : Ret T}
  {Q : Log T → Ret T → Prop}

theorem ends_append {pc pc' : AppendPc} (hi : Inv s [.append x pc])
    (hs : appendStep s x pc = some (s',pc'))
    (k : Memory s s' (.append x pc) (.append x pc') → Inv s' [.append x pc'] →
      Ends Q s' (.append x pc')) : Ends Q s (.append x pc) := by
  refine ends_step hi ?_ k
  rw [step,hs]
  rfl

section Link

variable {a : Claim} {t k : ℕ}

theorem hop_ends {nx : ℕ} (hk : k ≤ linkSpins) (hi : Inv s [.append x (.next a t k)])
    (ha : (s.chunk t).end_ ≤ a.offset) (hn : (s.chunk t).next = some nx)
    (rest : ∀ s' k, k ≤ linkSpins → Beside a.offset s s' → Inv s' [.append x (.next a (t + 1) k)] →
      Ends Q s' (.append x (.next a (t + 1) k))) : Ends Q s (.append x (.next a t k)) := by
  obtain ⟨-,-,ht,-⟩ := hi.append x _ List.mem_cons_self
  have hnx : nx = t + 1 := by
    have hnext := (hi.chain.made t ht).2.2.2
    rw [hn] at hnext
    split at hnext
    · exact Option.some.inj hnext
    · cases hnext
  subst hnx
  have hstep : appendStep s x (.next a t k) = some (s,.advance a t (t + 1) k) := by
    simp only [appendStep,Nat.not_lt.mpr ha,if_false,hn]
  refine ends_append hi hstep fun _ hi => ends_append hi rfl fun hm hi => ?_
  exact rest _ k hk ⟨rfl,rfl,rfl,rfl,rfl,slot_beside hm rfl⟩ hi

theorem grow_ends (hk : k ≤ linkSpins) (hi : Inv s [.append x (.grow a t k)])
    (rest : ∀ s' k, k ≤ linkSpins → Beside a.offset s s' → Inv s' [.append x (.next a (t + 1) k)] →
      Ends Q s' (.append x (.next a (t + 1) k))) : Ends Q s (.append x (.grow a t k)) := by
  obtain ⟨⟨-,-,ht,-⟩,hle⟩ := hi.append x _ List.mem_cons_self
  have hend := hi.chain.end_ ht
  rw [Nat.mul_add,Nat.mul_one,← hend] at hle
  cases hn : (s.chunk t).next with
  | some nx =>
    have hstep : appendStep s x (.grow a t k) = some (s,.next a t k) := by
      simp only [appendStep,hn,reduceCtorEq,if_false]
    exact ends_append hi hstep fun _ hi => hop_ends hk hi hle hn rest
  | none =>
    have hstep : appendStep s x (.grow a t k) = some (s.linkNext t,.next a t k) := by
      simp only [appendStep,hn,if_true]
    refine ends_append hi hstep fun hm hi => ?_
    have hchunk := chunk_linkNext s ht t
    rw [if_neg (Nat.ne_of_lt ht),if_pos rfl] at hchunk
    have hb : Beside a.offset s (s.linkNext t) := ⟨rfl,rfl,rfl,rfl,rfl,slot_beside hm rfl⟩
    refine hop_ends hk hi ?_ (by rw [hchunk]) fun s' k hk hs hi => rest s' k hk (hb.trans hs) hi
    rw [hchunk]
    exact hle

-- Past the end of a chunk the next one is there or linked, after linkSpins spins at most.
theorem past_ends (hk : k ≤ linkSpins) (hi : Inv s [.append x (.next a t k)])
    (ha : (s.chunk t).end_ ≤ a.offset)
    (rest : ∀ s' k, k ≤ linkSpins → Beside a.offset s s' → Inv s' [.append x (.next a (t + 1) k)] →
      Ends Q s' (.append x (.next a (t + 1) k))) : Ends Q s (.append x (.next a t k)) := by
  induction hm : linkSpins - k using Nat.strongRecOn generalizing k with
  | ind m ih =>
    cases hn : (s.chunk t).next with
    | some nx => exact hop_ends hk hi ha hn rest
    | none =>
      have hstep : appendStep s x (.next a t k) = some (s,.link a t k) := by
        simp only [appendStep,Nat.not_lt.mpr ha,if_false,hn]
      refine ends_append hi hstep fun _ hi => ?_
      by_cases hlink : (s.chunk t).linking = false
      · have hstep : appendStep s x (.link a t k) =
            some (s.setChunk t { s.chunk t with linking := true },.grow a t k) := by
          rw [appendStep,if_pos hlink]
        refine ends_append hi hstep fun hm hi => grow_ends hk hi fun s' k hk hs hi => ?_
        have hb : Beside a.offset s (s.setChunk t { s.chunk t with linking := true }) :=
          ⟨rfl,rfl,rfl,rfl,rfl,slot_beside hm rfl⟩
        exact rest s' k hk (hb.trans hs) hi
      · by_cases hspun : k = linkSpins
        · have hstep : appendStep s x (.link a t k) = some (s,.grow a t k) := by
            rw [appendStep,if_neg hlink,if_pos hspun]
          exact ends_append hi hstep fun _ hi => grow_ends hk hi rest
        · have hstep : appendStep s x (.link a t k) = some (s,.next a t (k + 1)) := by
            rw [appendStep,if_neg hlink,if_neg hspun]
          refine ends_append hi hstep fun _ hi => ih _ ?_ (by omega) hi rfl
          omega

theorem finish_ends {b : Bool} (hi : Inv s [.append x (finish b n)])
    (hq : ∀ s', Beside p s s' → Q s' (.count n)) : Ends Q s (.append x (finish b n)) := by
  cases b with
  | false => exact ends_done hi trivial rfl (hq s (.refl p s))
  | true =>
    refine ends_append hi rfl fun _ hi => ends_done hi trivial rfl (hq _ ?_)
    exact ⟨rfl,rfl,rfl,rfl,rfl,fun _ _ => rfl⟩

-- From the claim of an offset to the end, over any number of chunks.
theorem next_ends (hk : k ≤ linkSpins) (hi : Inv s [.append x (.next a t k)])
    (hq : ∀ s', Beside a.offset s s' → Q s' (.count a.n)) : Ends Q s (.append x (.next a t k)) := by
  induction hm : a.offset - chunkCapacity * t using Nat.strongRecOn generalizing s t k with
  | ind m ih =>
    by_cases hlt : a.offset < (s.chunk t).end_
    · have hstep : appendStep s x (.next a t k) = some (s,.write a t) := by
        simp only [appendStep,hlt,if_true]
      refine ends_append hi hstep fun _ hi => ends_append hi rfl fun hm hi =>
        ends_append hi rfl fun hm' hi => @finish_ends T _ x a.n a.offset Q _ hi fun s' hs => hq s' ?_
      have hb : Beside a.offset s (s.setData t (a.offset - (s.chunk t).base) (some x)) :=
        ⟨rfl,rfl,rfl,rfl,rfl,slot_beside hm rfl⟩
      refine (hb.trans ?_).trans hs
      exact ⟨rfl,rfl,rfl,rfl,rfl,slot_beside hm' rfl⟩
    · have hle := Nat.le_of_not_lt hlt
      obtain ⟨-,-,ht,-⟩ := hi.append x _ List.mem_cons_self
      have hend := hi.chain.end_ ht
      refine past_ends hk hi hle fun s' k hk hs hi => ?_
      refine ih _ ?_ hk hi (fun u hu => hq u (hs.trans hu)) rfl
      rw [Nat.mul_add,Nat.mul_one]
      have := capacity_pos
      omega

end Link

theorem send_ends {b : Bool} (hi : Inv s [.append x (.loadOpen b)]) (hc : s.closed = false)
    (ho : s.opened ≠ [])
    (hq : ∀ s', Beside s.head { s with head := s.head + 1, claims := s.claims ++ [x] } s' →
      Q s' (.count s.opened.length)) : Ends Q s (.append x (.loadOpen b)) := by
  obtain ⟨t,ht⟩ := Option.isSome_iff_exists.mp (hi.tail ho)
  have hn := hi.open_
  have hne : s.nOpen ≠ 0 := by
    rw [hn]
    exact fun hz => ho (List.eq_nil_of_length_eq_zero hz)
  have hclosed : appendStep s x (.loadClosed b s.nOpen) = some (s,.loadTail b s.nOpen) := by
    rw [appendStep,if_neg (by simp [hc,hne])]
  have htail : appendStep s x (.loadTail b s.nOpen) = some (s,.claim b s.nOpen t) := by
    rw [appendStep,ht]
    rfl
  refine ends_append hi rfl fun _ hi => ends_append hi hclosed fun _ hi =>
    ends_append hi htail fun _ hi => ends_append hi rfl fun _ hi =>
    next_ends (Nat.zero_le _) hi fun s' hs => ?_
  have h := hq s' hs
  rw [← hn] at h
  exact h

theorem refuse_ends {b : Bool} (hi : Inv s [.append x (.loadOpen b)])
    (hc : s.closed = true ∨ s.opened = []) (hq : ∀ s', Beside p s s' → Q s' (.count 0)) :
    Ends Q s (.append x (.loadOpen b)) := by
  have hc : s.closed = true ∨ s.nOpen = 0 := by
    refine hc.imp_right fun he => ?_
    rw [hi.open_,he]
    rfl
  have hclosed : appendStep s x (.loadClosed b s.nOpen) = some (s,finish b 0) := by
    rw [appendStep,if_pos hc]
  exact ends_append hi rfl fun _ hi => ends_append hi hclosed fun _ hi => finish_ends hi hq

-- The scan of full computes the slowest offset.
theorem scan_ends {rest : List ℕ} {m : ℕ} (hi : Inv s [.append x (.full rest (some m))])
    (k : Inv s [.append x (.full [] (some (rest.foldl (fun m d => min m (s.cursor d).offset) m)))] →
      Ends Q s (.append x (.full [] (some (rest.foldl (fun m d => min m (s.cursor d).offset) m))))) :
    Ends Q s (.append x (.full rest (some m))) := by
  induction rest generalizing m with
  | nil => exact k hi
  | cons d rest ih =>
    have hstep : appendStep s x (.full (d :: rest) (some m)) =
        some (s,.full rest (some (min m (s.cursor d).offset))) := by
      rw [appendStep,slower_some,Nat.min_comm]
    exact ends_append hi hstep fun _ hi => ih hi k

theorem slowest_ends {cs : List ℕ} (hne : cs ≠ []) (hi : Inv s [.append x (.full cs none)])
    (k : Inv s [.append x (.full [] (some (s.slowest cs)))] →
      Ends Q s (.append x (.full [] (some (s.slowest cs))))) : Ends Q s (.append x (.full cs none)) := by
  cases cs with
  | nil => exact absurd rfl hne
  | cons c cs => exact ends_append hi rfl fun _ hi => scan_ends hi k

theorem offset_le {ts : List (Thread T)} (hi : Inv s ts) (c : ℕ) : (s.cursor c).offset ≤ s.head := by
  by_cases hc : c < s.cursors.length
  · exact (hi.sound c hc).offset
  · rw [Log.cursor,List.getD_eq_getElem?_getD,List.getElem?_eq_none (Nat.le_of_not_lt hc)]
    exact Nat.zero_le _

theorem Beside.cursor (h : Beside p s s') (c : ℕ) : s'.cursor c = s.cursor c := by
  rw [Log.cursor,Log.cursor,h.cursors]

theorem Matches.beside {ts : List (Thread T)} (h : Matches s r) (hi : Inv s ts) (hs : Beside s.head s s') :
    Matches s' r := by
  refine ⟨hs.claims.trans h.items,hs.limit.trans h.limit,hs.closed.trans h.closed,?_,
    hs.opened.trans h.opened,fun c hc o ho => ?_,h.sole,h.fresh⟩
  · rw [hs.cursors]
    exact h.readers
  · rw [hs.cursor] at hc ho
    rw [hs.slot o (Nat.lt_of_lt_of_le ho (offset_le hi c))]
    exact h.cleared c hc o ho

theorem Matches.push {ts : List (Thread T)} (h : Matches s r) (hi : Inv s ts) (hne : s.opened ≠ [])
    (hs : Beside s.head { s with head := s.head + 1, claims := s.claims ++ [x] } s') :
    Matches s' { r with items := r.items ++ [x] } := by
  refine ⟨?_,hs.limit.trans h.limit,hs.closed.trans h.closed,?_,
    hs.opened.trans h.opened,fun c hc o ho => ?_,h.sole,fun he => ?_⟩
  · rw [hs.claims,← h.items]
  · rw [hs.cursors]
    exact h.readers
  · rw [hs.cursor] at hc ho
    rw [hs.slot o (Nat.lt_of_lt_of_le ho (offset_le hi c))]
    exact h.cleared c hc o ho
  · refine absurd ?_ hne
    rw [h.opened,Plain.opened]
    simp only at he
    rw [he]
    rfl

theorem append_ends (h : Refines s r) (hr : r.call (.append x) = some (r',v)) :
    Ends (fun s' w => w = v ∧ Matches s' r') s (.append x .loadLimit) := by
  have hi : Inv s [.append x .loadLimit] := inv_call h.inv trivial
  have hm := hi.free rfl
  have hfull := full_matches h.view h.inv.chain.head
  have hlen : s.opened.length = r.nOpen := by rw [h.view.opened,length_opened]
  have hnil : s.opened = [] ↔ r.nOpen = 0 := by
    rw [← hlen]
    exact List.length_eq_zero_iff.symm
  simp only [Plain.call,Option.some.injEq,Bool.or_eq_true,decide_eq_true_eq] at hr
  have hno : (s.closed = true ∨ s.opened = []) ∨ r.full = true →
      ∀ s', Beside s.head s s' → Ret.count 0 = v ∧ Matches s' r' := by
    intro hc s' hs
    rw [h.view.closed,hnil] at hc
    rw [if_pos hc] at hr
    cases hr
    exact ⟨rfl,h.view.beside hi hs⟩
  have hyes : ¬(s.closed = true ∨ s.opened = []) → ¬r.full = true →
      ∀ s', Beside s.head { s with head := s.head + 1, claims := s.claims ++ [x] } s' →
        Ret.count s.opened.length = v ∧ Matches s' r' := by
    intro hc hf s' hs
    have hpush := h.view.push hi (fun he => hc (.inr he)) hs
    rw [h.view.closed,hnil] at hc
    rw [if_neg (not_or.mpr ⟨hc,hf⟩)] at hr
    cases hr
    exact ⟨by rw [hlen],hpush⟩
  by_cases hz : s.limit = 0
  · have hf : ¬r.full = true := by
      rw [← hfull,Log.isFull,if_pos hz]
      simp
    have hstep : appendStep s x .loadLimit = some (s,.loadOpen false) := by rw [appendStep,if_pos hz]
    refine ends_append hi hstep fun _ hi => ?_
    by_cases hc : s.closed = true ∨ s.opened = []
    · exact refuse_ends hi hc (hno (.inl hc))
    · obtain ⟨h1,h2⟩ := not_or.mp hc
      exact send_ends hi (by simpa using h1) h2 (hyes hc hf)
  · have hstep : appendStep s x .loadLimit = some (s,.lock) := by rw [appendStep,if_neg hz]
    have hlock : appendStep s x .lock = some ({ s with mx := true },.check) := by
      rw [appendStep,hm]
      rfl
    have hb : Beside s.head s { s with mx := true } := ⟨rfl,rfl,rfl,rfl,rfl,fun _ _ => rfl⟩
    refine ends_append hi hstep fun _ hi => ends_append hi hlock fun _ hi => ?_
    by_cases hc : s.closed = true ∨ s.opened = []
    · have hstep : appendStep { s with mx := true } x .check = some ({ s with mx := true },.unlock 0) := by
        rw [appendStep,if_pos hc]
      exact ends_append hi hstep fun _ hi => @finish_ends T _ x 0 s.head _ true hi fun s' hs =>
        hno (.inl hc) s' (hb.trans hs)
    · have hstep : appendStep { s with mx := true } x .check =
          some ({ s with mx := true },.full s.opened none) := by rw [appendStep,if_neg hc]
      refine ends_append hi hstep fun _ hi => ?_
      obtain ⟨h1,h2⟩ := not_or.mp hc
      have hrf : r.full = true ↔ s.limit ≤ s.head - s.slowest s.opened := by
        rw [← hfull,Log.isFull,if_neg hz]
        simp [h2]
      refine slowest_ends h2 hi fun hi => ?_
      by_cases hle : s.limit ≤ s.head - s.slowest s.opened
      · have hstep : appendStep { s with mx := true } x (.full [] (some (s.slowest s.opened))) =
            some ({ s with mx := true },.unlock 0) := by
          rw [appendStep]
          exact congrArg some (congrArg _ (if_pos hle))
        exact ends_append hi hstep fun _ hi => @finish_ends T _ x 0 s.head _ true hi fun s' hs =>
          hno (.inr (hrf.mpr hle)) s' (hb.trans hs)
      · have hstep : appendStep { s with mx := true } x (.full [] (some (s.slowest s.opened))) =
            some ({ s with mx := true },.loadOpen true) := by
          rw [appendStep]
          exact congrArg some (congrArg _ (if_neg hle))
        refine ends_append hi hstep fun _ hi => send_ends hi (by simpa using h1) h2 fun s' hs => ?_
        refine hyes hc (fun hf => hle (hrf.mp hf)) s' (.trans ?_ hs)
        exact ⟨rfl,rfl,rfl,rfl,rfl,fun _ _ => rfl⟩

theorem ends_new {pc pc' : NewPc} (hi : Inv s [.newCursor pc]) (hs : newStep s pc = some (s',pc'))
    (k : Inv s' [.newCursor pc'] → Ends Q s' (.newCursor pc')) : Ends Q s (.newCursor pc) := by
  refine ends_step hi ?_ fun _ hi => k hi
  rw [step,hs]
  rfl

theorem opened_push (r : Plain T) (rd : Reader) (hrd : rd.isOpen = true) :
    ({ r with readers := r.readers ++ [rd] } : Plain T).opened = r.opened ++ [r.readers.length] := by
  simp only [Plain.opened,List.length_append,List.length_singleton,List.range_succ,
    List.filter_append]
  refine congrArg₂ _ (List.filter_congr fun c hc => ?_) ?_
  · rw [getD_push,if_neg (Nat.ne_of_lt (List.mem_range.mp hc))]
  · rw [List.filter_singleton,getD_push,if_pos rfl,hrd]
    rfl

theorem consume_reader (h : Matches s r) (hc : (s.cursor c).consume = true) :
    ∃ rd ∈ r.readers, rd.consume = true := by
  have hr : (r.readers.getD c noReader).consume = true := by
    rw [← reader_cursor h]
    exact hc
  rw [List.getD_eq_getElem?_getD] at hr
  cases hg : r.readers[c]? with
  | none =>
    rw [hg] at hr
    cases hr
  | some rd =>
    rw [hg] at hr
    exact ⟨rd,List.mem_of_getElem? hg,hr⟩

theorem may_open {b : Bool} (h : Matches s r) (hb : r.mayOpen b = true) : mayOpen s b = true := by
  cases b with
  | true =>
    have hnil : r.readers = [] := by simpa [Plain.mayOpen] using hb
    simp [mayOpen,h.opened,Plain.opened,hnil]
  | false =>
    simp only [Plain.mayOpen,Bool.false_eq_true,if_false,List.all_eq_true,Bool.not_eq_true'] at hb
    simp only [mayOpen,Bool.false_eq_true,if_false,List.all_eq_true,Bool.not_eq_true']
    intro c _
    cases hc : (s.cursor c).consume with
    | false => rfl
    | true =>
      obtain ⟨rd,hrd,hcons⟩ := consume_reader h hc
      rw [hb rd hrd] at hcons
      cases hcons

theorem Matches.join {b : Bool} {cur : Cursor T} (h : Matches s r) (hb : r.mayOpen b = true)
    (hrd : reader cur = ⟨r.items.length,true,b⟩) (h1 : u.claims = s.claims) (h2 : u.limit = s.limit)
    (h3 : u.closed = s.closed) (h4 : u.cursors = s.cursors ++ [cur])
    (h5 : u.opened = s.opened ++ [s.cursors.length]) :
    Matches u { r with readers := r.readers ++ [⟨r.items.length,true,b⟩] } := by
  have hlen : s.cursors.length = r.readers.length := by rw [← h.readers,List.length_map]
  have hsole : ∀ rd ∈ r.readers, rd.consume = true → False := by
    intro rd hmem hc
    cases b with
    | true =>
      have hnil : r.readers = [] := by simpa [Plain.mayOpen] using hb
      rw [hnil] at hmem
      cases hmem
    | false =>
      simp only [Plain.mayOpen,Bool.false_eq_true,if_false,List.all_eq_true,Bool.not_eq_true'] at hb
      rw [hb rd hmem] at hc
      cases hc
  refine ⟨h1.trans h.items,h2.trans h.limit,h3.trans h.closed,?_,?_,fun c hc o ho => ?_,
    fun rd hmem hc => ?_,fun he => absurd he (by simp)⟩
  · rw [h4,List.map_append,h.readers,List.map_singleton,hrd]
  · rw [opened_push _ _ rfl,h5,h.opened,hlen]
  · have hcur : u.cursor c = if c = s.cursors.length then cur else s.cursor c := by
      rw [Log.cursor,h4]
      exact getD_push _ _ _ _
    rw [hcur] at hc ho
    split at hc
    · rename_i he
      rw [if_pos he] at ho
      have hcons : b = true := (congrArg Reader.consume hrd).symm.trans hc
      have hoff : cur.offset = r.items.length := congrArg Reader.offset hrd
      have hnil : r.readers = [] := by simpa [Plain.mayOpen,hcons] using hb
      rw [hoff,h.fresh hnil] at ho
      cases ho
    · obtain ⟨rd,hmem,hcons⟩ := consume_reader h hc
      exact (hsole rd hmem hcons).elim
  · rcases List.mem_append.mp hmem with hmem | hmem
    · exact (hsole rd hmem hc).elim
    · rw [List.mem_singleton.mp hmem] at hc
      have hcons : b = true := hc
      have hnil : r.readers = [] := by simpa [Plain.mayOpen,hcons] using hb
      rw [hnil]
      rfl

theorem new_ends {b : Bool} (h : Refines s r) (hr : r.openReader b = some (r',v)) :
    Ends (fun s' w => w = v ∧ Matches s' r') s (.newCursor (.lock b)) := by
  have hi : Inv s [.newCursor (.lock b)] := inv_call h.inv trivial
  have hm := hi.free rfl
  unfold Plain.openReader at hr
  split at hr
  case isFalse => cases hr
  case isTrue hb =>
    cases hr
    have hlock : newStep s (.lock b) = some ({ s with mx := true },.ensure b) := by
      rw [newStep,hm,may_open h.view hb]
      rfl
    refine ends_new hi hlock fun hi => ?_
    have hensure : ∃ u : Log T, newStep { s with mx := true } (.ensure b) = some (u,.seekTail b) ∧
        u.claims = s.claims ∧ u.limit = s.limit ∧ u.closed = s.closed ∧ u.cursors = s.cursors ∧
        u.opened = s.opened ∧ u.head = s.head := by
      rw [newStep]
      split
      · exact ⟨_,rfl,rfl,rfl,rfl,rfl,rfl,rfl⟩
      · exact ⟨_,rfl,rfl,rfl,rfl,rfl,rfl,rfl⟩
    obtain ⟨u,hu,h1,h2,h3,h4,h5,h6⟩ := hensure
    refine ends_new hi hu fun hi => ?_
    obtain ⟨t,ht⟩ := Option.isSome_iff_exists.mp (hi.new _ List.mem_cons_self).2
    have htail : newStep u (.seekTail b) = some (u,.seekHead b t) := by
      rw [newStep,ht]
      rfl
    refine ends_new hi htail fun hi => ends_new hi rfl fun hi => ends_new hi rfl fun hi =>
      ends_new hi rfl fun hi => ends_done hi trivial rfl ⟨?_,?_⟩
    · rw [h4,← h.view.readers,List.length_map]
    · have hhead : u.head = r.items.length := by rw [h6,h.inv.chain.head,h.view.items]
      refine h.view.join hb ?_ h1 h2 h3 (congrArg (· ++ _) h4) ?_
      · exact congrArg (Reader.mk · true b) hhead
      · simp only [Log.register,h5,h4]

end Varmq.Topics
