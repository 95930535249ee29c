import Varmq.Topics.Plain

namespace Varmq.Topics

open Interleaving

variable {T : Type} {s s' u : Log T} {r r' : Plain T} {l l' : Thread T} {x : T} {c d o n p : ℕ} {v : Ret T}
  {Q : Log T → Ret T → Prop}

def reader (cur : Cursor T) : Reader := ⟨cur.offset,cur.chunk.isSome,cur.consume⟩

def noReader : Reader := ⟨0,false,false⟩

def Plain.opened (r : Plain T) : List ℕ :=
  (List.range r.readers.length).filter fun c => (r.readers.getD c noReader).isOpen

structure Matches (s : Log T) (r : Plain T) : Prop where
  items : s.claims = r.items
  limit : s.limit = r.limit
  closed : s.closed = r.closed
  readers : s.cursors.map reader = r.readers
  opened : s.opened = r.opened
  cleared : ∀ c, (s.cursor c).consume = true → ∀ o < (s.cursor c).offset, s.slot o = none
  sole : ∀ rd ∈ r.readers, rd.consume = true → r.readers.length = 1
  fresh : r.readers = [] → r.items = []

structure Refines (s : Log T) (r : Plain T) : Prop where
  inv : Inv s []
  view : Matches s r

theorem reader_cursor (h : Matches s r) (c : ℕ) : reader (s.cursor c) = r.readers.getD c noReader := by
  rw [← h.readers,List.getD_eq_getElem?_getD,List.getElem?_map,Log.cursor,
    List.getD_eq_getElem?_getD]
  cases s.cursors[c]? <;> rfl

theorem mem_opened (h : Matches s r) : c ∈ s.opened ↔ c < r.readers.length ∧ (s.cursor c).chunk.isSome = true := by
  rw [h.opened,Plain.opened,List.mem_filter,List.mem_range,← reader_cursor h]
  exact Iff.rfl

theorem length_opened (r : Plain T) : r.opened.length = r.nOpen := by
  have hmap : (List.range r.readers.length).map (fun c => r.readers.getD c noReader) = r.readers := by
    refine List.ext_getElem (by simp) fun i h1 h2 => ?_
    simp [List.getElem?_eq_getElem h2]
  rw [Plain.nOpen,← congrArg (List.countP Reader.isOpen) hmap,List.countP_map,
    List.countP_eq_length_filter]
  rfl

theorem foldl_min (f : ℕ → ℕ) (n h v : ℕ) (cs : List ℕ) :
    n ≤ h - cs.foldl (fun m d => min m (f d)) v ↔ n ≤ h - v ∨ ∃ d ∈ cs, n ≤ h - f d := by
  induction cs generalizing v with
  | nil => simp
  | cons c cs ih =>
    rw [List.foldl_cons,ih]
    simp only [List.mem_cons,exists_eq_or_imp]
    rw [← or_assoc]
    refine or_congr_left ?_
    omega

theorem le_slowest (s : Log T) {cs : List ℕ} (hne : cs ≠ []) (n : ℕ) :
    n ≤ s.head - s.slowest cs ↔ ∃ c ∈ cs, n ≤ s.unread c := by
  cases cs with
  | nil => exact absurd rfl hne
  | cons c cs =>
    rw [Log.slowest,foldl_min fun d => (s.cursor d).offset]
    simp only [List.mem_cons,exists_eq_or_imp]
    rfl

theorem cursor_at (s : Log T) (hc : c < s.cursors.length) : s.cursor c = s.cursors[c] := by
  rw [Log.cursor,List.getD_eq_getElem?_getD,List.getElem?_eq_getElem hc]
  rfl

theorem full_matches (h : Matches s r) (hh : s.head = s.claims.length) :
    (s.opened ≠ [] && s.isFull) = r.full := by
  have hany : (r.readers.any fun c => c.isOpen && r.limit ≤ r.items.length - c.offset) = true ↔
      ∃ c ∈ s.opened, s.limit ≤ s.unread c := by
    rw [← h.readers,← h.limit,← h.items,← hh]
    simp only [List.any_map,List.any_eq_true,Function.comp,reader,Bool.and_eq_true]
    constructor
    · rintro ⟨cur,hcur,hopen,hle⟩
      obtain ⟨c,hc,rfl⟩ := List.getElem_of_mem hcur
      have hget := cursor_at s hc
      refine ⟨c,(mem_opened h).mpr ⟨?_,?_⟩,?_⟩
      · rw [← h.readers,List.length_map]
        exact hc
      · rw [hget]
        exact hopen
      · rw [Log.unread,hget]
        exact of_decide_eq_true hle
    · rintro ⟨c,hc,hle⟩
      obtain ⟨hlt,hopen⟩ := (mem_opened h).mp hc
      rw [← h.readers,List.length_map] at hlt
      have hget := cursor_at s hlt
      rw [Log.unread,hget] at hle
      rw [hget] at hopen
      exact ⟨_,List.getElem_mem hlt,hopen,decide_eq_true hle⟩
  by_cases hne : s.opened = []
  · have hno : ¬∃ c ∈ s.opened, s.limit ≤ s.unread c := by simp [hne]
    rw [← hany,Bool.not_eq_true] at hno
    rw [Plain.full,hno]
    simp [hne]
  · rw [Plain.full,← h.limit]
    by_cases hz : s.limit = 0
    · simp [Log.isFull,hz]
    · rw [← h.limit] at hany
      have hiff := le_slowest s hne s.limit
      rw [← hany] at hiff
      rw [Bool.eq_iff_iff]
      simp only [Log.isFull,hz,hne,if_false,ne_eq,not_false_eq_true,decide_true,Bool.true_and,
        decide_eq_true_eq]
      exact hiff

-- A call that runs alone ends with a result that satisfies Q.
def Ends (Q : Log T → Ret T → Prop) (s : Log T) (l : Thread T) : Prop :=
  (program T).Leads () (fun s l => ∃ v, result l = some v ∧ Inv s [] ∧ Q s v) s l

theorem ends_step (hi : Inv s [l]) (hs : step s l () = some (s',l',[]))
    (k : Memory s s' l l' → Inv s' [l'] → Ends Q s' l') : Ends Q s l := by
  obtain ⟨ha,-⟩ := step_act hs
  have h : Inv s ([] ++ l :: []) := hi
  exact .step hs (k (h.memory ha) (inv_act h ha))

theorem ends_done (hi : Inv s [l]) (ho : Outside s l) (hv : result l = some v) (hq : Q s v) :
    Ends Q s l := by
  have h : Inv s ([] ++ l :: []) := hi
  exact .done ⟨v,hv,inv_drop h ho,hq⟩

theorem Inv.free (hi : Inv s [l]) (hl : holdsLog l = false) : s.mx = false := by
  have h := hi.log
  rw [total_cons,total_nil,hl] at h
  exact one_eq_zero h

theorem Inv.freeCursor (hi : Inv s [l]) (hc : c < s.cursors.length) (hl : holds c l = false) :
    (s.cursor c).mx = false := by
  have h := hi.cursor c hc
  rw [total_cons,total_nil,hl] at h
  exact one_eq_zero h

-- With no offset in hand everything claimed is published.
theorem Inv.all_published (hi : Inv s [l]) (hl : owns o l = 0) :
    s.published o = true ↔ o < s.head := by
  have h := hi.owned o
  rw [total_cons,total_nil,hl,pub,claimedAt] at h
  by_cases hp : s.published o = true
  · rw [if_pos hp] at h
    split at h
    · exact ⟨fun _ => ‹_›,fun _ => hp⟩
    · omega
  · rw [if_neg hp] at h
    split at h
    · omega
    · exact ⟨fun he => absurd he hp,fun he => absurd he ‹_›⟩

-- What an Append leaves alone, with the slots below p.
structure Beside (p : ℕ) (s s' : Log T) : Prop where
  cursors : s'.cursors = s.cursors
  opened : s'.opened = s.opened
  limit : s'.limit = s.limit
  closed : s'.closed = s.closed
  claims : s'.claims = s.claims
  slot : ∀ o < p, s'.slot o = s.slot o

theorem Beside.refl (p : ℕ) (s : Log T) : Beside p s s := ⟨rfl,rfl,rfl,rfl,rfl,fun _ _ => rfl⟩

theorem Beside.trans (h : Beside p s s') (k : Beside p s' u) : Beside p s u :=
  ⟨k.cursors.trans h.cursors,k.opened.trans h.opened,k.limit.trans h.limit,k.closed.trans h.closed,
    k.claims.trans h.claims,fun o ho => (k.slot o ho).trans (h.slot o ho)⟩

theorem slot_beside {pc pc' : AppendPc} {a : Claim} (hm : Memory s s' (.append x pc) (.append x pc'))
    (hp : inHand pc = some a.offset) : ∀ o < a.offset, s'.slot o = s.slot o := by
  intro o ho
  rcases hm.slot o with h | h | ⟨c,pc,hl,-⟩
  · exact h
  · have hne : ¬some a.offset = some o := by
      intro he
      exact Nat.ne_of_gt ho (Option.some.inj he)
    rw [owns,hp,if_neg hne] at h
    cases h
  · cases hl

end Varmq.Topics
