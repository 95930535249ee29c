import Varmq.Topics.Reach

namespace Varmq.Topics

variable {T : Type} {s s' : Log T} {x : T} {c : ℕ} {seq : Option ℕ} {f : Bool}

-- Every open cursor has room for one more item.
def Room (s : Log T) : Prop := ∀ c ∈ s.opened, s.head - (s.cursor c).offset < s.limit

def Refused (s : Log T) (f : Bool) : Prop := s.opened = [] ∨ s.limit ≠ 0 ∧ f = true

-- The scan of full: f tells whether it met a cursor at the limit.
structure Scan (s : Log T) (f : Bool) (cs : List ℕ) (m : Option ℕ) : Prop where
  full : ∀ v, m = some v → (f = true ↔ s.limit ≤ s.head - v)
  idle : m = none → f = false
  seen : ∀ c ∈ s.opened, c ∈ cs ∨ ∃ v, m = some v ∧ v ≤ (s.cursor c).offset
  rest : ∀ c ∈ cs, c ∈ s.opened

structure Passed (s : Log T) (seq : Option ℕ) (f b : Bool) : Prop where
  none : seq = none
  full : f = false
  locked : b = true ↔ s.limit ≠ 0
  room : b = true → s.opened ≠ [] ∧ Room s

def Over (s : Log T) (seq : Option ℕ) (f : Bool) (n : ℕ) : Prop :=
  if n = 0 then seq = none ∧ Refused s f else seq.isSome = true ∧ f = false ∧ s.opened ≠ []

def Sending (s : Log T) (seq : Option ℕ) (f : Bool) : AppendPc → Prop
  | .loadLimit => seq = none ∧ f = false
  | .lock | .check => (seq = none ∧ f = false) ∧ s.limit ≠ 0
  | .full rest m => (seq = none ∧ s.limit ≠ 0) ∧ s.opened ≠ [] ∧ Scan s f rest m
  | .loadOpen b => Passed s seq f b
  | .loadClosed b n => Passed s seq f b ∧ n = s.opened.length
  | .loadTail b n | .claim b n _ => Passed s seq f b ∧ n = s.opened.length ∧ n ≠ 0
  | .next a _ _ | .link a _ _ | .grow a _ _ | .advance a _ _ _ | .write a _ | .publish a _ =>
      (seq = some a.offset ∧ f = false) ∧ a.n ≠ 0 ∧ s.opened ≠ []
  | .unlock n | .returned n => Over s seq f n

theorem Over.refused (h : Refused s f) : Over s none f 0 := ⟨rfl,h⟩

theorem slower_none (o : ℕ) : slower none o = o := rfl

theorem slower_some (v o : ℕ) : slower (some v) o = min o v := rfl

theorem Scan.first (s : Log T) : Scan s false s.opened none :=
  ⟨(fun _ h => by cases h),fun _ => rfl,fun _ hc => .inl hc,fun _ => id⟩

theorem Scan.next {rest : List ℕ} {m : Option ℕ} (h : Scan s f (c :: rest) m) :
    Scan s (f || decide (s.limit ≤ s.head - (s.cursor c).offset)) rest
      (some (slower m (s.cursor c).offset)) := by
  refine ⟨fun v hv => ?_,(fun hm => by cases hm),fun d hd => ?_,
    fun d hd => h.rest d (List.mem_cons_of_mem _ hd)⟩
  · cases hv
    cases m with
    | none => simp [h.idle rfl,slower_none]
    | some v =>
      have hf := h.full v rfl
      rw [slower_some,Bool.or_eq_true,decide_eq_true_eq,hf]
      omega
  · have hle : slower m (s.cursor c).offset ≤ (s.cursor c).offset := by
      cases m with
      | none => exact Nat.le_of_eq (slower_none _)
      | some v => exact Nat.min_le_left _ _
    rcases h.seen d hd with hm | ⟨v,rfl,hv⟩
    · rcases List.mem_cons.mp hm with rfl | hm
      · exact .inr ⟨_,rfl,hle⟩
      · exact .inl hm
    · exact .inr ⟨_,rfl,Nat.le_trans (Nat.min_le_right _ _) hv⟩

-- A full scan without a cursor at the limit leaves room in every one of them.
theorem Scan.room {m : Option ℕ} (h : Scan s f [] m) (hn : ¬s.limit ≤ s.head - m.getD 0)
    (ho : s.opened ≠ []) : f = false ∧ Room s := by
  have hlow : ∀ c ∈ s.opened, ∃ v, m = some v ∧ v ≤ (s.cursor c).offset := by
    intro c hc
    rcases h.seen c hc with hm | hv
    · cases hm
    · exact hv
  refine ⟨?_,fun c hc => ?_⟩
  · obtain ⟨c,hc⟩ := List.exists_mem_of_ne_nil _ ho
    obtain ⟨v,rfl,-⟩ := hlow c hc
    cases hf : f
    · rfl
    · exact absurd ((h.full v rfl).mp hf) hn
  · obtain ⟨v,rfl,hv⟩ := hlow c hc
    have hn : ¬s.limit ≤ s.head - v := hn
    omega

theorem Scan.refused {m : Option ℕ} (h : Scan s f [] m) (hl : s.limit ≤ s.head - m.getD 0)
    (ho : s.opened ≠ []) : f = true := by
  obtain ⟨c,hc⟩ := List.exists_mem_of_ne_nil _ ho
  rcases h.seen c hc with hm | ⟨v,rfl,-⟩
  · cases hm
  · exact (h.full v rfl).mpr hl

theorem Passed.onward {b : Bool} (h : Passed s seq f b) (hl : s'.limit = s.limit)
    (ho : s'.opened = s.opened) (hr : b = true → s.limit ≠ 0 → Room s → Room s') :
    Passed s' seq f b := by
  refine ⟨h.none,h.full,by rw [hl]; exact h.locked,fun hb => ?_⟩
  obtain ⟨h1,h2⟩ := h.room hb
  exact ⟨by rw [ho]; exact h1,hr hb (h.locked.mp hb) h2⟩

-- What it still knows after a step of another goroutine.
theorem Sending.stay {pc : AppendPc} (h : Sending s seq f pc) (hl : s'.limit = s.limit)
    (ho : s'.opened = s.opened) (hh : pc.locked = true → s.limit ≠ 0 → s'.head = s.head)
    (hoff : ∀ c ∈ s.opened, (s.cursor c).offset ≤ (s'.cursor c).offset) : Sending s' seq f pc := by
  have hroom : pc.locked = true → s.limit ≠ 0 → Room s → Room s' := by
    intro hp hn hr c hc
    rw [ho] at hc
    have h1 := hr c hc
    have h2 := hoff c hc
    rw [hh hp hn,hl]
    omega
  have hover : ∀ {n}, Over s seq f n → Over s' seq f n := by
    intro n h
    unfold Over Refused at h ⊢
    rw [ho,hl]
    exact h
  cases pc with
  | loadLimit => exact h
  | lock | check => exact ⟨h.1,by rw [hl]; exact h.2⟩
  | full rest m =>
    obtain ⟨⟨hq,hlim⟩,hne,hscan⟩ := h
    refine ⟨⟨hq,by rw [hl]; exact hlim⟩,by rw [ho]; exact hne,fun v hv => ?_,hscan.idle,
      fun c hc => ?_,by rw [ho]; exact hscan.rest⟩
    · rw [hh rfl hlim,hl]
      exact hscan.full v hv
    · rw [ho] at hc
      refine (hscan.seen c hc).imp_right fun ⟨v,hv,hle⟩ => ⟨v,hv,Nat.le_trans hle (hoff c hc)⟩
  | loadOpen b => exact Passed.onward h hl ho hroom
  | loadClosed b n => exact ⟨h.1.onward hl ho hroom,by rw [ho]; exact h.2⟩
  | loadTail b n => exact ⟨h.1.onward hl ho hroom,by rw [ho]; exact h.2⟩
  | claim b n t => exact ⟨h.1.onward hl ho hroom,by rw [ho]; exact h.2⟩
  | unlock n | returned n => exact hover h
  | _ => exact ⟨h.1,h.2.1,by rw [ho]; exact h.2.2⟩

end Varmq.Topics
