import Varmq.Sources.Manager
import Mathlib.Data.Nat.ModEq

namespace Varmq.Sources

-- What GetRoundRobinItem leaves and returns; `looks` is ghost state: the indices it read.
structure Picked (T : Type) where
  manager : Manager T
  item : Option T
  looks : List ℕ
  deriving DecidableEq, Repr

variable {T : Type}

namespace Picked

-- The index of the entry it returned.
def spot (p : Picked T) : Option ℕ := if p.item.isSome then p.looks.getLast? else none

def look (i : ℕ) (p : Picked T) : Picked T := { p with looks := i :: p.looks }

end Picked

namespace Manager

-- The k-th Len of an entry may differ from its other ones. An index out of range would panic.
def rounds (len : ℕ → T → ℕ) (start : ℕ) : ℕ → ℕ → Manager T → Option (Picked T)
  | 0, _, _ => none
  | f+1, k, m =>
      match m.items[m.roundRobinIndex]? with
      | none => none
      | some r =>
          let m' := { m with roundRobinIndex := (m.roundRobinIndex + 1) % m.items.length }
          if 0 < len k r.item then some ⟨m',some r.item,[m.roundRobinIndex]⟩
          else if m'.roundRobinIndex = start then some ⟨m',none,[m.roundRobinIndex]⟩
          else (rounds len start f (k + 1) m').map (·.look m.roundRobinIndex)

def getRoundRobinItem (f : ℕ) (len : ℕ → T → ℕ) (m : Manager T) : Option (Picked T) :=
  if m.items.length = 0 then some ⟨m,none,[]⟩ else rounds len m.roundRobinIndex f 0 m

-- Consecutive calls, one for each assignment of lengths.
def calls (m : Manager T) : List (ℕ → T → ℕ) → Option (List (Picked T))
  | [] => some []
  | len :: lens =>
      match m.getRoundRobinItem m.count len with
      | none => none
      | some p => (calls p.manager lens).map (p :: ·)

end Manager

inductive Op (T : Type) where
  | register (item : T) (priority : ℤ)
  | unregisterItem (item : T)
  | getRoundRobinItem (len : ℕ → T → ℕ)

namespace Manager

variable [DecidableEq T]

def act (m : Manager T) : Op T → Option (Manager T)
  | .register item priority => some (m.register item priority)
  | .unregisterItem item => some (m.unregisterItem item)
  | .getRoundRobinItem len => (m.getRoundRobinItem m.count len).map (·.manager)

def acts (m : Manager T) : List (Op T) → Option (Manager T)
  | [] => some m
  | o :: ops => (m.act o).bind fun m' => acts m' ops

end Manager

variable {m : Manager T} {len : ℕ → T → ℕ} {p : Picked T} {f k c i j n start : ℕ}

-- A call from look k on made c looks: all but the last found an empty entry, and so did the last
-- one if nothing is returned.
structure Looked (len : ℕ → T → ℕ) (m : Manager T) (start k c : ℕ) (p : Picked T) : Prop where
  pos : 0 < c
  le : k + c ≤ m.items.length
  items : p.manager.items = m.items
  index : p.manager.roundRobinIndex = (start + (k + c)) % m.items.length
  looks : p.looks = (List.range' k c).map fun j => (start + j) % m.items.length
  empty : ∀ j r, k ≤ j → j < k + c → j + 1 < k + c ∨ p.item = none →
    m.items[(start + j) % m.items.length]? = some r → len j r.item = 0
  item : ∀ x, p.item = some x → ∃ r, m.items[(start + (k + c - 1)) % m.items.length]? = some r ∧
    r.item = x ∧ 0 < len (k + c - 1) x
  none : p.item = none → k + c = m.items.length

theorem round_start (hs : start < n) (hk : k < n) : (start + (k + 1)) % n = start ↔ k + 1 = n := by
  constructor
  · intro h
    by_contra hne
    rcases Nat.lt_or_ge (start + (k + 1)) n with hlt | hge
    · rw [Nat.mod_eq_of_lt hlt] at h
      omega
    · rw [Nat.mod_eq_sub_mod hge,Nat.mod_eq_of_lt (by omega)] at h
      omega
  · intro h
    rw [h,Nat.add_mod_right,Nat.mod_eq_of_lt hs]

-- The look that ends a call.
theorem looked_last {r : Registered T} {item : Option T} (hk : k < m.items.length)
    (hm : m.roundRobinIndex = (start + k) % m.items.length)
    (hr : m.items[(start + k) % m.items.length]? = some r)
    (hitem : ∀ x, item = some x → r.item = x ∧ 0 < len k x)
    (hnone : item = none → k + 1 = m.items.length ∧ len k r.item = 0) :
    Looked len m start k 1 ⟨⟨m.items,(start + (k + 1)) % m.items.length⟩,item,
      [m.roundRobinIndex]⟩ := by
  refine ⟨Nat.one_pos,hk,rfl,rfl,?_,fun j r' hj hj' hor hr' => ?_,fun x hx => ?_,fun h => (hnone h).1⟩
  · simp [hm]
  · obtain rfl : j = k := by omega
    rcases hor with hlt | hn
    · omega
    · cases hr.symm.trans hr'
      exact (hnone hn).2
  · exact ⟨r,hr,hitem x hx⟩

-- A look at an empty entry before the others.
theorem Looked.cons {r : Registered T} (h : Looked len ⟨m.items,i⟩ start (k + 1) c p)
    (hm : m.roundRobinIndex = (start + k) % m.items.length)
    (hr : m.items[(start + k) % m.items.length]? = some r) (he : len k r.item = 0) :
    Looked len m start k (c + 1) (p.look m.roundRobinIndex) := by
  have hadd : k + (c + 1) = k + 1 + c := by omega
  have hle := h.le
  refine ⟨Nat.succ_pos c,?_,h.items,?_,?_,fun j r' hj hj' hor hr' => ?_,fun x hx => ?_,fun hn => ?_⟩
  · rw [hadd]
    exact hle
  · rw [hadd]
    exact h.index
  · rw [Picked.look,h.looks,hm,List.range'_succ,List.map_cons]
  · rcases Nat.eq_or_lt_of_le hj with rfl | hlt
    · cases hr.symm.trans hr'
      exact he
    · rw [hadd] at hj' hor
      exact h.empty j r' hlt hj' hor hr'
  · rw [hadd]
    exact h.item x hx
  · rw [hadd]
    exact h.none hn

theorem looked_rounds (hs : start < m.items.length) (hk : k < m.items.length)
    (hm : m.roundRobinIndex = (start + k) % m.items.length) (hf : m.items.length ≤ k + f) :
    ∃ p c, m.rounds len start f k = some p ∧ Looked len m start k c p := by
  induction f generalizing k m with
  | zero => omega
  | succ f ih =>
    have hpos : 0 < m.items.length := Nat.lt_of_le_of_lt (Nat.zero_le k) hk
    obtain ⟨r,hr⟩ : ∃ r, m.items[(start + k) % m.items.length]? = some r :=
      ⟨_,List.getElem?_eq_getElem (Nat.mod_lt (start + k) hpos)⟩
    have hr' : m.items[m.roundRobinIndex]? = some r := hm ▸ hr
    have hnext : (m.roundRobinIndex + 1) % m.items.length = (start + (k + 1)) % m.items.length := by
      rw [hm,Nat.mod_add_mod,Nat.add_assoc]
    simp only [Manager.rounds,hr',hnext]
    split
    · rename_i hlen
      exact ⟨_,1,rfl,looked_last hk hm hr (fun x hx => by cases hx; exact ⟨rfl,hlen⟩)
        (fun hn => by cases hn)⟩
    · rename_i hlen
      have hlen := Nat.eq_zero_of_not_pos hlen
      split
      · rename_i hstart
        exact ⟨_,1,rfl,looked_last hk hm hr (fun x hx => by cases hx)
          (fun _ => ⟨(round_start hs hk).mp hstart,hlen⟩)⟩
      · rename_i hstart
        have hne : k + 1 ≠ m.items.length := fun he => hstart ((round_start hs hk).mpr he)
        obtain ⟨p,c,hp,hl⟩ := ih (m := ⟨m.items,(start + (k + 1)) % m.items.length⟩) hs (by
          show k + 1 < m.items.length
          omega) rfl (by
          show m.items.length ≤ k + 1 + f
          omega)
        exact ⟨_,c + 1,by rw [hp,Option.map_some],hl.cons hm hr hlen⟩

theorem rounds_more (h : m.rounds len start f k = some p) : m.rounds len start (f + 1) k = some p := by
  induction f generalizing k m p with
  | zero => cases h
  | succ f ih =>
    rw [Manager.rounds] at h ⊢
    split at h
    · cases h
    · rename_i r hr
      simp only at h ⊢
      split at h
      · rename_i hlen
        rw [if_pos hlen]
        exact h
      · rename_i hlen
        rw [if_neg hlen]
        split at h
        · rename_i hstart
          rw [if_pos hstart]
          exact h
        · rename_i hstart
          rw [if_neg hstart]
          obtain ⟨q,hq,rfl⟩ := Option.map_eq_some_iff.mp h
          rw [ih hq,Option.map_some]

theorem rounds_fuel {g : ℕ} (h : m.rounds len start f k = some p) (hg : f ≤ g) :
    m.rounds len start g k = some p := by
  induction hg with
  | refl => exact h
  | step _ ih => exact rounds_more ih

-- The index is that of an entry, or 0 if there is none.
def Indexed (m : Manager T) : Prop :=
  m.roundRobinIndex < m.items.length ∨ m.items = [] ∧ m.roundRobinIndex = 0

theorem looked_call (len : ℕ → T → ℕ) (hi : m.roundRobinIndex < m.items.length) :
    ∃ p c, (∀ f ≥ m.count, m.getRoundRobinItem f len = some p) ∧
      Looked len m m.roundRobinIndex 0 c p := by
  have hpos : m.items.length ≠ 0 := Nat.ne_of_gt (Nat.lt_of_le_of_lt (Nat.zero_le _) hi)
  obtain ⟨p,c,hp,hl⟩ := @looked_rounds _ m len m.count 0 m.roundRobinIndex hi
    (Nat.pos_of_ne_zero hpos) (Nat.mod_eq_of_lt hi).symm (Nat.le_of_eq (Nat.zero_add m.count).symm)
  refine ⟨p,c,fun f hf => ?_,hl⟩
  rw [Manager.getRoundRobinItem,if_neg hpos]
  exact rounds_fuel hp hf

theorem call_empty (f : ℕ) (len : ℕ → T → ℕ) (h : m.items = []) :
    m.getRoundRobinItem f len = some ⟨m,none,[]⟩ := by
  rw [Manager.getRoundRobinItem,if_pos (by rw [h]; rfl)]

theorem Looked.indexed (h : Looked len m start 0 c p) : Indexed p.manager := by
  left
  rw [h.items,h.index]
  exact Nat.mod_lt _ (Nat.lt_of_lt_of_le h.pos (Nat.le_trans (Nat.le_add_left c 0) h.le))

theorem register_indexed (h : Indexed m) (item : T) (priority : ℤ) :
    Indexed (m.register item priority) := by
  have hlen : (m.register item priority).items.length = m.items.length + 1 := by
    rw [Manager.register,Manager.insertIdx,List.length_insertIdx,if_pos List.findIdx_le_length]
  left
  rw [hlen]
  rcases h with h | ⟨-,h⟩
  · exact Nat.lt_succ_of_lt h
  · show m.roundRobinIndex < m.items.length + 1
    omega

theorem unregister_indexed [DecidableEq T] (h : Indexed m) (item : T) :
    Indexed (m.unregisterItem item) := by
  rw [Manager.unregisterItem]
  split
  · exact h
  · rename_i i hi
    obtain ⟨hlt,-⟩ := List.findIdx?_eq_some_iff_getElem.mp hi
    have hlen := List.length_eraseIdx_of_lt hlt
    rcases Nat.eq_zero_or_pos (m.items.eraseIdx i).length with hz | hpos
    · right
      refine ⟨List.length_eq_zero_iff.mp hz,?_⟩
      rcases h with h | ⟨hn,-⟩
      · exact if_pos (by omega)
      · rw [hn] at hlt
        exact absurd hlt (Nat.not_lt_zero i)
    · left
      show (if i ≤ m.roundRobinIndex then 0 else m.roundRobinIndex) < (m.items.eraseIdx i).length
      split <;> omega

theorem act_indexed [DecidableEq T] (h : Indexed m) (o : Op T) : ∃ m', m.act o = some m' ∧ Indexed m' := by
  cases o with
  | register item priority => exact ⟨_,rfl,register_indexed h item priority⟩
  | unregisterItem item => exact ⟨_,rfl,unregister_indexed h item⟩
  | getRoundRobinItem len =>
    rcases h with hi | hn
    · obtain ⟨p,c,hp,hl⟩ := looked_call len hi
      exact ⟨p.manager,by rw [Manager.act,hp _ (Nat.le_refl _),Option.map_some],hl.indexed⟩
    · exact ⟨m,by rw [Manager.act,call_empty _ _ hn.1,Option.map_some],.inr hn⟩

theorem acts_indexed [DecidableEq T] (h : Indexed m) (ops : List (Op T)) :
    ∃ m', m.acts ops = some m' ∧ Indexed m' := by
  induction ops generalizing m with
  | nil => exact ⟨m,rfl,h⟩
  | cons o ops ih =>
    obtain ⟨m',hm',hi'⟩ := act_indexed h o
    rw [Manager.acts,hm']
    exact ih hi'

theorem new_indexed : Indexed (Manager.new : Manager T) := .inr ⟨rfl,rfl⟩

theorem round_reaches (hs : start < n) (hi : i < n) : ∃ d < n, (start + d) % n = i := by
  rcases Nat.lt_or_ge i start with hlt | hge
  · refine ⟨i + n - start,by omega,?_⟩
    rw [Nat.add_sub_cancel' (by omega),Nat.add_mod_right,Nat.mod_eq_of_lt hi]
  · refine ⟨i - start,by omega,?_⟩
    rw [Nat.add_sub_cancel' hge,Nat.mod_eq_of_lt hi]

theorem round_inj {a b : ℕ} (h : (start + a) % n = (start + b) % n) (ha : a < n) (hb : b < n) :
    a = b :=
  (Nat.ModEq.add_left_cancel' start h).eq_of_lt_of_lt ha hb

theorem Looked.spot (h : Looked len m start 0 c p) (hp : p.item.isSome = true) :
    p.spot = some ((start + (c - 1)) % m.items.length) := by
  have hne : c ≠ 0 := Nat.ne_of_gt h.pos
  rw [Picked.spot,if_pos hp,h.looks,List.getLast?_map,List.getLast?_range',if_neg hne]
  simp

-- A call either returns an entry that is never empty or comes closer to it.
theorem Looked.closer {r : Registered T} {d : ℕ} (h : Looked len m start 0 c p)
    (hr : m.items[(start + d) % m.items.length]? = some r) (hne : ∀ k, 0 < len k r.item) :
    (p.spot = some ((start + d) % m.items.length) ∧ p.item = some r.item) ∨
    ∃ d' < d, (p.manager.roundRobinIndex + d') % m.items.length = (start + d) % m.items.length := by
  have hpos := h.pos
  rcases Nat.lt_or_ge d c with hdc | hcd
  · left
    have hsome : p.item.isSome = true ∧ ¬d + 1 < c := by
      by_contra hno
      refine Nat.ne_of_gt (hne d) (h.empty d r (Nat.zero_le d) (by omega) ?_ hr)
      by_cases hlt : d + 1 < c
      · exact .inl (by omega)
      · exact .inr (by simpa [hlt] using hno)
    obtain rfl : c = d + 1 := by omega
    obtain ⟨x,hx⟩ := Option.isSome_iff_exists.mp hsome.1
    obtain ⟨r',hr',hrx,-⟩ := h.item x hx
    have heq : 0 + (d + 1) - 1 = d := by omega
    rw [heq] at hr'
    cases hr.symm.trans hr'
    exact ⟨h.spot hsome.1,by rw [hx,hrx]⟩
  · refine .inr ⟨d - c,by omega,?_⟩
    rw [h.index,Nat.mod_add_mod]
    congr 1
    omega

theorem calls_some (hi : Indexed m) (lens : List (ℕ → T → ℕ)) :
    ∃ ps, m.calls lens = some ps ∧ ps.length = lens.length := by
  induction lens generalizing m with
  | nil => exact ⟨[],rfl,rfl⟩
  | cons len lens ih =>
    obtain ⟨p,hp,hi'⟩ : ∃ p, m.getRoundRobinItem m.count len = some p ∧ Indexed p.manager := by
      rcases hi with hi | hn
      · obtain ⟨p,c,hp,hl⟩ := looked_call len hi
        exact ⟨p,hp _ (Nat.le_refl _),hl.indexed⟩
      · exact ⟨_,call_empty _ _ hn.1,.inr hn⟩
    obtain ⟨ps,hps,hlen⟩ := ih hi'
    refine ⟨p :: ps,?_,by rw [List.length_cons,List.length_cons,hlen]⟩
    rw [Manager.calls,hp]
    simp only [hps,Option.map_some]

theorem calls_serve {r : Registered T} {d : ℕ} {lens : List (ℕ → T → ℕ)} {ps : List (Picked T)}
    (hi : m.roundRobinIndex < m.items.length) (hd : d < m.items.length) (hlens : d < lens.length)
    (hspot : (m.roundRobinIndex + d) % m.items.length = i) (hr : m.items[i]? = some r)
    (hne : ∀ len ∈ lens, ∀ k, 0 < len k r.item) (hps : m.calls lens = some ps) :
    ∃ p ∈ ps, p.spot = some i ∧ p.item = some r.item := by
  induction lens generalizing m d ps with
  | nil => exact absurd hlens (Nat.not_lt_zero d)
  | cons len lens ih =>
    obtain ⟨p,c,hp,hl⟩ := looked_call len hi
    rw [Manager.calls,hp _ (Nat.le_refl _)] at hps
    obtain ⟨ps,hrest,rfl⟩ := Option.map_eq_some_iff.mp hps
    subst hspot
    rcases hl.closer hr (hne len List.mem_cons_self) with hdone | ⟨d',hd',hspot⟩
    · exact ⟨p,List.mem_cons_self,hdone⟩
    · have hitems := hl.items
      rcases hl.indexed with hi' | hn
      · obtain ⟨q,hq,hq'⟩ := ih (d := d') hi' (by rw [hitems]; omega) (by
          rw [List.length_cons] at hlens
          omega) (by rw [hitems,hspot]) (by rw [hitems,hr])
          (fun len' hlen' => hne len' (List.mem_cons_of_mem _ hlen')) hrest
        exact ⟨q,List.mem_cons_of_mem _ hq,hq'⟩
      · rw [← hitems,hn.1] at hd
        exact absurd hd (Nat.not_lt_zero d)

theorem spot_item (h : p.spot = some i) : p.item.isSome = true := by
  rw [Picked.spot] at h
  split at h
  · assumption
  · cases h

-- The entry just returned is the last one that the next call looks at.
theorem Looked.others_empty {r : Registered T} (h : Looked len m start 0 c p)
    (hs : start = (i + 1) % m.items.length) (hi : i < m.items.length) (hspot : p.spot = some i)
    (hr : m.items[j]? = some r) (hj : j ≠ i) : ∃ k, len k r.item = 0 := by
  have hpos := h.pos
  have hn : 0 < m.items.length := Nat.lt_of_le_of_lt (Nat.zero_le i) hi
  have hlast := h.spot (spot_item hspot)
  rw [hspot,hs,Option.some.injEq,Nat.mod_add_mod,Nat.add_assoc] at hlast
  have hround : c = m.items.length := by
    have hle := h.le
    have hstart := (round_start (k := c - 1) hi (by omega)).mp
    rw [Nat.add_comm 1] at hlast
    have := hstart hlast.symm
    omega
  obtain ⟨hlt,-⟩ := List.getElem?_eq_some_iff.mp hr
  obtain ⟨d,hd,hdj⟩ := round_reaches (Nat.mod_lt (i + 1) hn) hlt
  rw [← hs] at hdj
  have hne : d + 1 ≠ m.items.length := by
    rintro heq
    rw [hs,Nat.mod_add_mod,Nat.add_assoc,Nat.add_comm 1,heq,Nat.add_mod_right,
      Nat.mod_eq_of_lt hi] at hdj
    exact hj hdj.symm
  exact ⟨d,h.empty d r (Nat.zero_le d) (by omega) (.inl (by omega)) (hdj ▸ hr)⟩

-- Of two calls in a row the second starts just past the entry of the first.
theorem next_start (h : Looked len m start 0 c p) (hspot : p.spot = some i) :
    p.manager.roundRobinIndex = (i + 1) % m.items.length ∧ i < m.items.length := by
  have hpos := h.pos
  have hle := h.le
  have hlast := h.spot (spot_item hspot)
  rw [hspot,Option.some.injEq] at hlast
  subst hlast
  rw [h.index,Nat.mod_add_mod]
  refine ⟨?_,Nat.mod_lt _ (by omega)⟩
  congr 1
  omega

-- What holds of one call: it ends, and it looks at no entry twice and out of no range.
structure Ends (m : Manager T) (len : ℕ → T → ℕ) (p : Picked T) : Prop where
  fuel : ∀ f ≥ m.count, m.getRoundRobinItem f len = some p
  once : p.looks.Nodup
  inside : ∀ i ∈ p.looks, i < m.count
  items : p.manager.items = m.items
  item : ∀ x, p.item = some x → ∃ i r, p.spot = some i ∧ m.items[i]? = some r ∧ r.item = x

theorem Looked.ends (h : Looked len m start 0 c p) (hs : start < m.items.length)
    (hp : ∀ f ≥ m.count, m.getRoundRobinItem f len = some p) : Ends m len p := by
  have hle := h.le
  refine ⟨hp,?_,fun i hi => ?_,h.items,fun x hx => ?_⟩
  · rw [h.looks]
    refine List.Nodup.map_on (fun a ha b hb hab => ?_) List.nodup_range'
    obtain ⟨ia,hia,rfl⟩ := List.mem_range'.mp ha
    obtain ⟨ib,hib,rfl⟩ := List.mem_range'.mp hb
    exact round_inj hab (by omega) (by omega)
  · rw [h.looks] at hi
    obtain ⟨j,-,rfl⟩ := List.mem_map.mp hi
    exact Nat.mod_lt _ (Nat.lt_of_le_of_lt (Nat.zero_le _) hs)
  · obtain ⟨r,hr,hrx,-⟩ := h.item x hx
    rw [Nat.zero_add] at hr
    refine ⟨_,r,h.spot (by rw [hx]; rfl),hr,hrx⟩

-- An item is an entry of items: a source registered twice is two of them.
structure RoundRobin (m : Manager T) : Prop where
  index : m.items ≠ [] → m.roundRobinIndex < m.count
  ends : ∀ len, ∃ p, Ends m len p
  stretch : ∀ lens, ∃ ps, m.calls lens = some ps ∧ ps.length = lens.length
  served : ∀ lens ps, m.count ≤ lens.length → m.calls lens = some ps → ∀ i r, m.items[i]? = some r →
    (∀ len ∈ lens, ∀ k, 0 < len k r.item) → ∃ p ∈ ps, p.spot = some i ∧ p.item = some r.item
  turns : ∀ len len' p p' i j r, m.getRoundRobinItem m.count len = some p →
    p.manager.getRoundRobinItem p.manager.count len' = some p' → p.spot = some i →
    m.items[j]? = some r → j ≠ i → (∀ k, 0 < len' k r.item) → p'.spot ≠ some i

theorem Indexed.lt (h : Indexed m) {r : Registered T} (hr : m.items[i]? = some r) :
    m.roundRobinIndex < m.items.length := by
  rcases h with h | ⟨hn,-⟩
  · exact h
  · rw [hn] at hr
    cases hr

theorem ends_call (h : Indexed m) (len : ℕ → T → ℕ) : ∃ p, Ends m len p := by
  rcases h with hi | hn
  · obtain ⟨p,c,hp,hl⟩ := looked_call len hi
    exact ⟨p,hl.ends hi hp⟩
  · refine ⟨⟨m,none,[]⟩,fun f _ => call_empty f len hn.1,List.nodup_nil,(fun i hi => by cases hi),rfl,
      (fun x hx => by cases hx)⟩

theorem Indexed.roundRobin (h : Indexed m) : RoundRobin m := by
  refine ⟨fun hne => h.resolve_right fun hn => hne hn.1,ends_call h,calls_some h,?_,?_⟩
  · intro lens ps hlens hps i r hr hne
    have hi := h.lt hr
    obtain ⟨hlt,-⟩ := List.getElem?_eq_some_iff.mp hr
    obtain ⟨d,hd,hspot⟩ := round_reaches hi hlt
    exact calls_serve hi hd (Nat.lt_of_lt_of_le hd hlens) hspot hr hne hps
  · intro len len' p p' i j r hp hp' hspot hr hj hne hspot'
    obtain ⟨q,c,hq,hl⟩ := looked_call len (h.lt hr)
    cases (hq _ (Nat.le_refl _)).symm.trans hp
    obtain ⟨hstart,hlt⟩ := next_start hl hspot
    have hr' : p.manager.items[j]? = some r := by rw [hl.items,hr]
    obtain ⟨q',c',hq',hl'⟩ := looked_call len' (hl.indexed.lt hr')
    cases (hq' _ (Nat.le_refl _)).symm.trans hp'
    rw [← hl.items] at hstart hlt
    obtain ⟨k,hk⟩ := hl'.others_empty hstart hlt hspot' hr' hj
    exact Nat.ne_of_gt (hne k) hk

theorem round_robin_safe_and_fair [DecidableEq T] (ops : List (Op T)) :
    ∃ m, Manager.new.acts ops = some m ∧ RoundRobin m := by
  obtain ⟨m,hm,hi⟩ := acts_indexed new_indexed ops
  exact ⟨m,hm,hi.roundRobin⟩

end Varmq.Sources
