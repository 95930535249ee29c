import Varmq.Topics.Members

namespace Varmq.Topics.Fanout

open Interleaving

variable {T : Type} {s s' : Topic T} {l l' t u : Thread T} {xs ys ts : List (Thread T)} {c k : ℕ}

-- Only a subscribe opens a cursor, and closes it again on a closed topic.
theorem Fan.opens (h : Fan s (xs ++ l :: ys)) (hs : Act s l s' l') :
    s'.log.opened = s.log.opened ∨
    (∃ w b t p, l = .subscribe w (.new (.register b t p)) ∧
      l' = .subscribe w (.new (.unlock s.log.cursors.length)) ∧
      s' = { s with log := s.log.register b t p }) ∨
    (∃ w c, l = .subscribe w (.inert c .remove) ∧ s' = { s with log := s.log.remove c }) ∨
    ∃ i rest, l = .unsubscribe i rest (.close (s.cursorOf i) .remove) ∧
      l' = .unsubscribe i rest (.close (s.cursorOf i) .unlockLog) ∧
      s' = { s with log := s.log.remove (s.cursorOf i) } := by
  have hf := h.facts l (by simp)
  have hcur : ∀ {c pc pc'} {log : Log T}, CursorAct s.log c pc log pc' →
      log.opened = s.log.opened ∨ pc = .remove ∧ pc' = .unlockLog ∧ log = s.log.remove c := by
    intro c pc pc' log ha
    cases ha with
    | remove => exact .inr ⟨rfl,rfl,rfl⟩
    | take => split <;> exact .inl rfl
    | _ => exact .inl rfl
  cases hs with
  | append hp ha =>
    have ha := append_act ha
    rename_i log
    generalize s.log = log₀ at ha
    cases ha <;> exact .inl rfl
  | new ha =>
    cases ha with
    | @register b t p => exact .inr (.inl ⟨_,b,t,p,rfl,rfl,rfl⟩)
    | _ => exact .inl rfl
  | inert ha =>
    rcases hcur ha with he | ⟨rfl,-,rfl⟩
    · exact .inl he
    · exact .inr (.inr (.inl ⟨_,_,rfl,rfl⟩))
  | close ha =>
    obtain ⟨-,rfl,-⟩ := hf
    rcases hcur ha with he | ⟨rfl,rfl,rfl⟩
    · exact .inl he
    · exact .inr (.inr (.inr ⟨_,_,rfl,rfl,rfl⟩))
  | purge ha =>
    rcases hcur ha with he | ⟨rfl,-,-⟩
    · exact .inl he
    · cases hf.2
  | read ha =>
    rcases hcur ha with he | ⟨rfl,-,-⟩
    · exact .inl he
    · cases hf.2
  | _ => exact .inl rfl

theorem Fan.opened_step (h : Fan s (xs ++ l :: ys)) (hs : Act s l s' l') (hc : c ∈ s'.log.opened) :
    c ∈ s'.handles.map Subscription.cursor ∨ ∃ t ∈ xs ++ l' :: ys, fresh c t = true := by
  have hold : c ∈ s.log.opened →
      c ∈ s'.handles.map Subscription.cursor ∨ ∃ t ∈ xs ++ l' :: ys, fresh c t = true := by
    intro hc
    rcases h.opened c hc with hm | ⟨t,ht,hfr⟩
    · exact .inl ((handles_grow hs).subset hm)
    · rcases mem_split ht with ht | rfl
      · exact .inr ⟨t,mem_of_other ht,hfr⟩
      · rcases fresh_step hs hfr with hfr | hm
        · exact .inr ⟨l',by simp,hfr⟩
        · exact .inl hm
  rcases h.opens hs with he | ⟨w,b,t,p,-,rfl,rfl⟩ | ⟨w,d,-,rfl⟩ | ⟨i,rest,-,-,rfl⟩
  · rw [he] at hc
    exact hold hc
  · rcases List.mem_append.mp hc with hc | hc
    · exact hold hc
    · exact .inr ⟨_,List.mem_append_right _ List.mem_cons_self,by simp [fresh,List.mem_singleton.mp hc]⟩
  · exact hold (List.mem_filter.mp hc).1
  · exact hold (List.mem_filter.mp hc).1

-- Whoever takes the chunk of a cursor goes on to remove it.
theorem Fan.chunk_step (h : Fan s (xs ++ l :: ys)) (hs : Act s l s' l') (hc : c < s.log.cursors.length)
    (hch : (s.log.cursor c).chunk.isSome = true) :
    (s'.log.cursor c).chunk.isSome = true ∨ removing c l' := by
  rcases h.logged hs with ha | ⟨he,-,-⟩
  · by_cases hn : ∀ pc, proj l = .cursor c pc → closes pc = false
    · exact .inl (chunk_kept h.split ha hc hn hch)
    · obtain ⟨pc,hn⟩ := not_forall.mp hn
      obtain ⟨hp,hn⟩ := Classical.not_imp.mp hn
      have hk := (h.split.reader c pc (by simp [← hp])).2
      rw [hp] at ha
      generalize hq : proj l' = r at ha
      rcases ha with _ | _ | ⟨ha⟩
      generalize s'.log = log at ha
      have hnone : (s.log.cursor c).chunk ≠ none := by
        intro hn
        rw [hn] at hch
        cases hch
      cases ha with
      | close => exact .inr (.inl hq)
      | gone hm hch' => exact absurd hch' hnone
      | lockLog => exact absurd hk hnone
      | remove => exact absurd hk hnone
      | unlockLog => exact absurd hk hnone
      | @enter op t hm hch' hop =>
        cases op with
        | close => exact absurd rfl hop
        | _ => exact absurd rfl hn
      | _ => exact absurd rfl hn
  · rw [he]
    exact .inl hch

theorem Fan.live_step (h : Fan s (xs ++ l :: ys)) (hs : Act s l s' l') (hc : c ∈ s'.log.opened) :
    (s'.log.cursor c).chunk.isSome = true ∨ ∃ t ∈ xs ++ l' :: ys, removing c t := by
  have hold : c ∈ s.log.opened →
      (s'.log.cursor c).chunk.isSome = true ∨ ∃ t ∈ xs ++ l' :: ys, removing c t := by
    intro hco
    rcases h.live c hco with hch | ⟨t,ht,hr⟩
    · rcases h.chunk_step hs (h.log.opened c hco) hch with hch | hr
      · exact .inl hch
      · exact .inr ⟨l',by simp,hr⟩
    · rcases mem_split ht with ht | rfl
      · exact .inr ⟨t,mem_of_other ht,hr⟩
      · rcases h.removing_step hs hr with hr | hn
        · exact .inr ⟨l',by simp,hr⟩
        · exact absurd hc hn
  rcases h.opens hs with he | ⟨w,b,t,p,-,rfl,rfl⟩ | ⟨w,d,-,rfl⟩ | ⟨i,rest,-,-,rfl⟩
  · rw [he] at hc
    exact hold hc
  · rcases List.mem_append.mp hc with hc | hc
    · exact hold hc
    · rw [List.mem_singleton.mp hc]
      exact .inl (by simp only [cursor_fresh]; rfl)
  · exact hold (List.mem_filter.mp hc).1
  · exact hold (List.mem_filter.mp hc).1

theorem Fan.ended_step (h : Fan s (xs ++ l :: ys)) (hs : Act s l s' l') (hk : k < s'.handles.length)
    {e : ℕ} (he : (s'.handle k).ended = some e) : (s'.log.cursor (s'.cursorOf k)).chunk = none ∧
      (s'.log.cursor (s'.cursorOf k)).offset ≤ e ∧ e ≤ s'.log.head := by
  have hf := h.facts l (by simp)
  have hframe := h.framed hs
  have hpre := handles_grow hs
  have hold : k < s.handles.length → (s.handle k).ended = some e →
      (s'.log.cursor (s'.cursorOf k)).chunk = none ∧
        (s'.log.cursor (s'.cursorOf k)).offset ≤ e ∧ e ≤ s'.log.head := by
    intro hk he
    obtain ⟨h1,h2,h3⟩ := h.ended k hk e he
    have hc := h.owned _ (cursorOf_mem hk)
    rw [cursorOf_grown hpre hk]
    refine ⟨hframe.chunk _ hc h1,?_,Nat.le_trans h3 hframe.head⟩
    rw [(hframe.onward _ hc).frozen h1]
    exact h2
  have hoff : ∀ c < s.log.cursors.length, (s.log.cursor c).offset ≤ s.log.head :=
    fun c hc => (h.log.sound c hc).offset
  rcases act_kind hs with hq | ⟨w,c,⟨⟨rfl,rfl⟩ | ⟨r,rfl,rfl⟩,-⟩⟩ | ⟨i,rest,rfl,-,rfl⟩
  · rw [hq.length] at hk
    rw [hq.ended] at he
    exact hold hk he
  · rw [handle_push rfl] at he
    split at he
    · cases he
    · refine hold ?_ he
      simp only [List.length_append,List.length_cons,List.length_nil] at hk
      omega
  · by_cases hkl : k = s.handles.length
    · rw [handle_push rfl,if_pos hkl] at he
      cases he
      obtain ⟨hown,hcl⟩ := hf
      rw [Topic.cursorOf,handle_push rfl,if_pos hkl]
      exact ⟨hcl.2,hoff c hown.length,Nat.le_refl _⟩
    · rw [handle_push rfl,if_neg hkl] at he
      refine hold ?_ he
      simp only [List.length_append,List.length_cons,List.length_nil] at hk
      omega
  · have hlt : k < s.handles.length := by simpa [deleted,Topic.setHandle] using hk
    have hset := handle_set s i k { s.handle i with
      ended := if i ∈ s.subs then some s.log.head else (s.handle i).ended }
    rw [show (deleted s i).handle k = _ from hset] at he
    split at he
    · rename_i hki
      obtain ⟨rfl,-⟩ := hki
      simp only at he
      split at he
      · cases he
        obtain ⟨-,-,hnone⟩ := hf
        rw [cursorOf_grown hpre hlt]
        exact ⟨hnone,hoff _ (h.owned _ (cursorOf_mem hlt)),Nat.le_refl _⟩
      · exact hold hlt he
    · exact hold hlt he

theorem Fan.listed_step (h : Fan s (xs ++ l :: ys)) (hs : Act s l s' l') (hk : k < s'.handles.length)
    (hcl : ∀ t ∈ xs ++ l' :: ys, closing k t = false) :
    s'.cursorOf k ∈ s'.log.opened ↔ k ∈ s'.subs := by
  have hf := h.facts l (by simp)
  have hpre := handles_grow hs
  have hothers : closing k l = false → ∀ t ∈ xs ++ l :: ys, closing k t = false := by
    intro hl t ht
    rcases mem_split ht with ht | rfl
    · exact hcl t (mem_of_other ht)
    · exact hl
  rcases act_kind hs with hq | ⟨w,c,⟨⟨rfl,rfl⟩ | ⟨r,rfl,rfl⟩,-⟩⟩ | ⟨i,rest,rfl,-,rfl⟩
  · rw [hq.length] at hk
    have hl : closing k l = false := by
      cases hl : closing k l
      · rfl
      · rcases closing_step hs hl with hl' | ⟨rest,hd⟩
        · rw [hcl l' (by simp)] at hl'
          cases hl'
        · exact absurd hd (hq.other k rest)
    have hold := h.listed k hk (hothers hl)
    have hmem := cursorOf_mem hk
    rw [hq.subs,cursorOf_grown hpre hk,← hold]
    rcases h.opens hs with he | ⟨w,b,t,p,rfl,-,rfl⟩ | ⟨w,d,rfl,rfl⟩ | ⟨i,rest,rfl,rfl,rfl⟩
    · rw [he]
    · have hne : s.cursorOf k ≠ s.log.cursors.length := Nat.ne_of_lt (h.owned _ hmem)
      simp [Log.register,hne]
    · have hne : s.cursorOf k ≠ d := by
        rintro rfl
        exact hf.1.fresh hmem
      simp [Log.remove,hne]
    · have hne : s.cursorOf k ≠ s.cursorOf i := by
        intro he
        have hik := cursorOf_inj h.distinct hk hf.1.1 he
        have := hcl _ (List.mem_append_right xs List.mem_cons_self)
        simp [closing,hik] at this
      simp [Log.remove,hne]
  · by_cases hkl : k = s.handles.length
    · rw [Topic.cursorOf,handle_push rfl,if_pos hkl]
      have hop : Opened s c := hf
      simp [hkl,hop.listed]
    · have hlt : k < s.handles.length := by
        simp only [List.length_append,List.length_cons,List.length_nil] at hk
        omega
      have hold := h.listed k hlt (hothers rfl)
      rw [cursorOf_grown hpre hlt]
      simp [hold,hkl]
  · by_cases hkl : k = s.handles.length
    · rw [Topic.cursorOf,handle_push rfl,if_pos hkl]
      obtain ⟨-,hno,-⟩ := hf
      refine ⟨fun ho => absurd ho hno,fun hm => ?_⟩
      have := h.subs k hm
      omega
    · have hlt : k < s.handles.length := by
        simp only [List.length_append,List.length_cons,List.length_nil] at hk
        omega
      have hold := h.listed k hlt (hothers rfl)
      rw [cursorOf_grown hpre hlt]
      exact hold
  · have hlt : k < s.handles.length := by simpa [deleted,Topic.setHandle] using hk
    rw [cursorOf_grown hpre hlt]
    by_cases hki : k = i
    · subst hki
      obtain ⟨-,hno,-⟩ := hf
      refine ⟨fun ho => absurd ho hno,fun hm => ?_⟩
      simp [deleted] at hm
    · have hold := h.listed k hlt (hothers (by simp [closing,Ne.symm hki]))
      simp only [deleted,List.mem_filter,ne_eq,hki,not_false_eq_true,decide_true,and_true]
      exact hold

end Varmq.Topics.Fanout
