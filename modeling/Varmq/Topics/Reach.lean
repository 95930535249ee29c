import Varmq.Topics.Attached

namespace Varmq.Topics.Fanout

open Interleaving

variable {T : Type} {s s' : Topic T} {l l' t u : Thread T} {xs ys ts : List (Thread T)} {c k : ℕ}

theorem Fan.owned_step (h : Fan s (xs ++ l :: ys)) (hs : Act s l s' l') :
    ∀ c ∈ s'.handles.map Subscription.cursor, c < s'.log.cursors.length := by
  intro c hc
  have hf := h.facts l (by simp)
  refine Nat.lt_of_lt_of_le ?_ (h.framed hs).length
  rcases handles_cases hs with he | ⟨w,d,e,hl,he⟩
  · rw [he] at hc
    exact h.owned c hc
  · rw [he,List.map_append] at hc
    rcases List.mem_append.mp hc with hc | hc
    · exact h.owned c hc
    · rw [List.mem_singleton.mp hc]
      rcases hl with rfl | ⟨r,rfl⟩
      · exact hf.own.length
      · exact hf.1.length

theorem Fan.distinct_step (h : Fan s (xs ++ l :: ys)) (hs : Act s l s' l') :
    (s'.handles.map Subscription.cursor).Nodup := by
  have hf := h.facts l (by simp)
  rcases handles_cases hs with he | ⟨w,d,e,hl,he⟩
  · rw [he]
    exact h.distinct
  · have hfresh : d ∉ s.handles.map Subscription.cursor := by
      rcases hl with rfl | ⟨r,rfl⟩
      · exact hf.own.fresh
      · exact hf.1.fresh
    rw [he,List.map_append]
    refine List.nodup_append.mpr ⟨h.distinct,by simp,fun a ha b hb hab => hfresh ?_⟩
    have hbd : b = d := List.mem_singleton.mp hb
    rw [← hbd,← hab]
    exact ha

theorem fan_act (h : Fan s (xs ++ l :: ys)) (hs : Act s l s' l') : Fan s' (xs ++ l' :: ys) := by
  have hl : l ∈ xs ++ l :: ys := by simp
  have hsec := act_sections (fun hw => (h.writing hl hw).1) (h.reading hl) hs
  refine ⟨h.inv_log hs,?_,?_,hsec.apart h.apart,h.owned_step hs,h.distinct_step hs,h.facts_step hs,
    h.subs_step hs,fun k hk => h.member_step hs hk,fun k hk hcl => h.listed_step hs hk hcl,
    fun c hc => h.opened_step hs hc,fun c hc => h.live_step hs hc,
    fun k hk e he => h.ended_step hs hk he⟩
  · have h1 := h.writer
    have h2 := hsec.writer
    rw [total_split] at h1 ⊢
    omega
  · have h1 := h.readers
    have h2 := hsec.readers
    rw [total_split] at h1 ⊢
    omega

-- What a call begins with.
structure Begun (s : Topic T) (l : Thread T) : Prop where
  outside : Outside s.log (proj l)
  writes : writes l = false
  reads : reads l = false
  facts : Facts s l

theorem Fan.begun (h : Fan s ts) (he : entry s l = true) : Begun s l := by
  unfold entry at he
  split at he
  · exact ⟨trivial,rfl,rfl,trivial⟩
  · exact ⟨trivial,rfl,rfl,trivial⟩
  · exact ⟨trivial,rfl,rfl,⟨by simpa using he,fun i hi => by cases hi⟩,trivial⟩
  · exact ⟨trivial,rfl,rfl,trivial⟩
  · have hm := of_decide_eq_true he
    exact ⟨h.owned _ hm,rfl,rfl,hm,rfl⟩
  · have hm := of_decide_eq_true he
    exact ⟨h.owned _ hm,rfl,rfl,hm,rfl⟩
  · cases he

theorem fan_call (h : Fan s ts) (he : entry s l = true) : Fan s (ts ++ [l]) := by
  obtain ⟨ho,hw,hr,hf⟩ := h.begun he
  refine ⟨?_,?_,?_,h.apart,h.owned,h.distinct,fun t ht => ?_,h.subs,h.member,fun k hk hcl => ?_,
    fun c hc => ?_,fun c hc => ?_,h.ended⟩
  · rw [List.map_append]
    exact inv_call h.log ho
  · rw [total_call,hw,h.writer]
    rfl
  · rw [total_call,hr,h.readers]
    rfl
  · rcases List.mem_append.mp ht with ht | ht
    · exact h.facts t ht
    · rw [List.mem_singleton.mp ht]
      exact hf
  · exact h.listed k hk fun t ht => hcl t (List.mem_append_left _ ht)
  · exact (h.opened c hc).imp_right fun ⟨t,ht,hfr⟩ => ⟨t,List.mem_append_left _ ht,hfr⟩
  · exact (h.live c hc).imp_right fun ⟨t,ht,hrm⟩ => ⟨t,List.mem_append_left _ ht,hrm⟩

-- Outside the write sections of t.mx the open cursors are those of t.subs.
theorem Fan.cursors (h : Fan s ts) (hw : s.writer = false) (c : ℕ) :
    c ∈ s.log.opened ↔ c ∈ s.subs.map s.cursorOf := by
  have hno : ∀ t ∈ ts, writes t = false := by
    intro t ht
    cases hwt : writes t
    · rfl
    · rw [(h.writing ht hwt).1] at hw
      cases hw
  have hcl : ∀ k, ∀ t ∈ ts, closing k t = false := by
    intro k t ht
    have := hno t ht
    unfold closing
    split
    · cases this
    · cases this
    · cases this
    · cases this
    · rfl
  rw [List.mem_map]
  constructor
  · intro hc
    rcases h.opened c hc with hm | ⟨t,ht,hfr⟩
    · obtain ⟨k,hk,he⟩ := List.getElem_of_mem hm
      have hk : k < s.handles.length := by simpa using hk
      have hcur : s.cursorOf k = c := by
        rw [← he,cursorOf_eq,List.getD_eq_getElem?_getD,List.getElem?_eq_getElem (by simpa using hk)]
        rfl
      exact ⟨k,(h.listed k hk (hcl k)).mp (by rw [hcur]; exact hc),hcur⟩
    · have := hno t ht
      unfold fresh at hfr
      split at hfr
      · cases this
      · cases this
      · cases this
      · cases this
      · cases hfr
  · rintro ⟨k,hk,rfl⟩
    exact (h.listed k (h.subs k hk) (hcl k)).mpr hk

end Varmq.Topics.Fanout
