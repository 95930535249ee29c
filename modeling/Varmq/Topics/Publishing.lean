import Varmq.Topics.Sending

namespace Varmq.Topics.Fanout

open Interleaving

variable {T : Type} {s s' : Topic T} {l l' t u : Thread T} {xs ys ts : List (Thread T)} {c k o : ℕ}
  {p : Publish T}

-- The payload at offset o is published between the subscribe and the unsubscribe of k.
def Within (s : Topic T) (k o : ℕ) : Prop :=
  (s.log.cursor (s.cursorOf k)).start ≤ o ∧ ∀ e, (s.handle k).ended = some e → o < e

-- What is known of the payload of a Publish that has claimed offset o.
structure Delivered (s : Topic T) (p : Publish T) (o : ℕ) : Prop where
  claimed : o < s.log.head
  payload : s.log.claims[o]? = some p.data
  audience : ∀ k < s.handles.length, k ∈ p.audience ↔ Within s k o

structure Answered (s : Topic T) (p : Publish T) (r : Bool) : Prop where
  result : r = true ↔ p.sawClosed = false ∧ p.audience ≠ [] ∧ (s.log.limit ≠ 0 → p.sawFull = false)
  claimed : p.seq.isSome = true ↔ r = true

def Phase (s : Topic T) (p : Publish T) : PublishPc → Prop
  | .rlock => (p.seq = none ∧ p.sawFull = false) ∧ p.audience = []
  | .check => (p.seq = none ∧ p.sawFull = false) ∧ p.audience = s.subs
  | .append pc => (p.audience = s.subs ∧ s.closed = false) ∧ p.sawClosed = false ∧
      Sending s.log p.seq p.sawFull pc
  | .notify => Answered s p true
  | .runlock r | .returned r => Answered s p r

structure Told (s : Topic T) (p : Publish T) : Prop where
  phase : Phase s p p.pc
  audience : ∀ k ∈ p.audience, k < s.handles.length
  seq : ∀ o, p.seq = some o → Delivered s p o

def took (o : ℕ) : Thread T → ℕ
  | .publish p => if p.seq = some o then 1 else 0
  | _ => 0

structure Feed (s : Topic T) (ts : List (Thread T)) (capacity : ℕ) : Prop where
  fan : Fan s ts
  limit : s.log.limit = capacity
  closed : s.log.closed = false
  publish : ∀ p, .publish p ∈ ts → Told s p
  taken : ∀ o, total (took o) ts = claimedAt s.log o

-- Within holds no more and no less after a step for what has been claimed.
theorem Fan.within_step (h : Fan s (xs ++ l :: ys)) (hs : Act s l s' l') (hk : k < s.handles.length)
    (ho : o < s.log.head) : Within s' k o ↔ Within s k o := by
  have hc := h.owned _ (cursorOf_mem hk)
  have hstart : (s'.log.cursor (s'.cursorOf k)).start = (s.log.cursor (s.cursorOf k)).start := by
    rw [cursorOf_grown (handles_grow hs) hk]
    exact ((h.framed hs).onward _ hc).start
  have hpush : ∀ {w d e}, s'.handles = s.handles ++ [⟨w,d,.fresh,e⟩] →
      (s'.handle k).ended = (s.handle k).ended := by
    intro w d e he
    rw [handle_push he,if_neg (Nat.ne_of_lt hk)]
  unfold Within
  rw [hstart]
  rcases act_kind hs with hq | ⟨w,c,⟨⟨-,rfl⟩ | ⟨r,-,rfl⟩,-⟩⟩ | ⟨i,rest,-,-,rfl⟩
  · rw [hq.ended]
  · rw [hpush rfl]
  · rw [hpush rfl]
  · have hset := handle_set s i k { s.handle i with
      ended := if i ∈ s.subs then some s.log.head else (s.handle i).ended }
    rw [show (deleted s i).handle k = _ from hset]
    split
    · rename_i hki
      obtain ⟨rfl,-⟩ := hki
      by_cases hm : k ∈ s.subs
      · have hnone := (h.member k hk).mp hm
        simp [hm,hnone,ho]
      · simp [hm]
    · exact Iff.rfl

-- A cursor that has just joined starts behind everything claimed.
theorem Fan.within_new (h : Fan s (xs ++ l :: ys)) (hs : Act s l s' l') (hk : k < s'.handles.length)
    (hn : ¬k < s.handles.length) (ho : o < s.log.head) : ¬Within s' k o := by
  have hf := h.facts l (by simp)
  rcases handles_cases hs with he | ⟨w,d,e,hl,he⟩
  · have := congrArg List.length he
    simp only [List.length_map] at this
    omega
  · have hkl : k = s.handles.length := by
      rw [he] at hk
      simp only [List.length_append,List.length_cons,List.length_nil] at hk
      omega
    have hlen : d < s.log.cursors.length ∧ (s.log.cursor d).start = s.log.head := by
      rcases hl with rfl | ⟨r,rfl⟩
      · exact ⟨hf.own.length,hf.own.start⟩
      · exact ⟨hf.1.length,hf.1.start⟩
    rintro ⟨hst,-⟩
    rw [Topic.cursorOf,handle_push he,if_pos hkl] at hst
    rw [((h.framed hs).onward d hlen.1).start,hlen.2] at hst
    exact Nat.lt_irrefl _ (Nat.lt_of_lt_of_le ho hst)

theorem Fan.claims_grow (h : Fan s (xs ++ l :: ys)) (hs : Act s l s' l') :
    s.log.claims <+: s'.log.claims := by
  rcases h.logged hs with ha | ⟨he,-,-⟩
  · exact (h.split.memory ha).ext.claims
  · exact ⟨[],by rw [List.append_nil,he]⟩

theorem Delivered.step (hd : Delivered s p o) (hb : ∀ k ∈ p.audience, k < s.handles.length)
    (h : Fan s (xs ++ l :: ys)) (hs : Act s l s' l') : Delivered s' p o := by
  refine ⟨Nat.lt_of_lt_of_le hd.claimed (h.framed hs).head,?_,fun k hk => ?_⟩
  · obtain ⟨zs,hz⟩ := h.claims_grow hs
    have hp := hd.payload
    obtain ⟨hlt,-⟩ := List.getElem?_eq_some_iff.mp hp
    rw [← hz,List.getElem?_append_left hlt]
    exact hp
  · by_cases hlt : k < s.handles.length
    · rw [h.within_step hs hlt hd.claimed]
      exact hd.audience k hlt
    · exact ⟨fun hm => absurd (hb k hm) hlt,fun hw => absurd hw (h.within_new hs hk hlt hd.claimed)⟩

-- While a publisher reads under t.mx nobody writes.
theorem Fan.no_writes (h : Fan s ts) (ht : t ∈ ts) (hr : reads t = true) : s.writer = false := by
  cases hw : s.writer
  · rfl
  · have h1 := h.apart hw
    have h2 := h.reading ht hr
    omega

theorem Fan.plain (h : Fan s ts) (ht : t ∈ ts) (hr : reads t = true) (hu : u ∈ ts) :
    writes u = false := by
  cases hw : writes u
  · rfl
  · rw [h.no_reads hu hw ht] at hr
    cases hr

theorem Fan.listening (h : Fan s ts) (hw : s.writer = false) : s.log.opened = [] ↔ s.subs = [] := by
  have hc := h.cursors hw
  constructor
  · intro ho
    rw [List.eq_nil_iff_forall_not_mem]
    intro k hk
    have := (hc (s.cursorOf k)).mpr (List.mem_map_of_mem hk)
    rw [ho] at this
    cases this
  · intro ho
    rw [List.eq_nil_iff_forall_not_mem]
    intro c hc'
    have := (hc c).mp hc'
    rw [ho] at this
    cases this

theorem Fan.limit_step (h : Fan s (xs ++ l :: ys)) (hs : Act s l s' l') :
    s'.log.limit = s.log.limit := by
  rcases h.logged hs with ha | ⟨he,-,-⟩
  · exact limit_same ha
  · rw [he]

theorem proj_ne_close : (proj t : Topics.Thread T) ≠ .close false := by
  cases t with
  | publish p => cases hp : p.pc <;> simp [proj,hp]
  | subscribe w pc => cases pc <;> simp [proj]
  | unsubscribe k rest pc => cases pc <;> simp [proj]
  | _ => simp [proj]

theorem Fan.closed_step (h : Fan s (xs ++ l :: ys)) (hs : Act s l s' l') :
    s'.log.closed = s.log.closed := by
  rcases h.logged hs with ha | ⟨he,-,-⟩
  · exact closed_same ha proj_ne_close
  · rw [he]

end Varmq.Topics.Fanout
