import Varmq.Group.Basic

namespace Varmq.Group

open Interleaving
open Varmq.Jobs (Status Error Outcome closeable notClosed)

variable {R : Type} {s s' : Shared R} {l l' : Thread R} {c : Choice R}
  {new xs ys ts : List (Thread R)}

inductive CloseAct (s : Shared R) (m : ℕ) (f : Fate) : ClosePc → Shared R → ClosePc → Prop
  | refused {e : Error} (hq : closeable (s.statusOf m) = some e) :
      CloseAct s m f .claimLoad s (.returned (some e))
  | load (hq : closeable (s.statusOf m) = none) :
      CloseAct s m f .claimLoad s (.claimCas (s.statusOf m))
  | claim : CloseAct s m f (.claimCas (s.statusOf m)) (s.setStatus m .closed) .doneLoad
  | retry {q : Status} : CloseAct s m f (.claimCas q) s .claimLoad
  | none (hc : s.count = 0) : CloseAct s m f .doneLoad s (.returned none)
  | loaded (hc : s.count ≠ 0) : CloseAct s m f .doneLoad s (.doneCas s.count)
  | counted : CloseAct s m f (.doneCas s.count)
      { s with count := s.count - 1, counted := (m,f) :: s.counted } (.wgDone (s.count = 1))
  | again {n : ℕ} : CloseAct s m f (.doneCas n) s .doneLoad
  | negative {last : Bool} (hw : s.wg < 1) : CloseAct s m f (.wgDone last) s .panicked
  | wgDone {last : Bool} (hw : 1 ≤ s.wg) : CloseAct s m f (.wgDone last) { s with wg := s.wg - 1 }
      (if last then .closeResp else .returned Option.none)
  | twice (hc : 0 < s.closes) : CloseAct s m f .closeResp s .panicked
  | closeResp (hc : s.closes = 0) :
      CloseAct s m f .closeResp { s with closes := s.closes + 1 } (.returned Option.none)

theorem close_act {m : ℕ} {f : Fate} {pc pc' : ClosePc} (hs : closeStep s m f pc = some (s',pc')) :
    CloseAct s m f pc s' pc' := by
  cases pc with
  | claimLoad =>
    simp only [closeStep] at hs
    split at hs <;> cases hs
    · exact .refused ‹_›
    · exact .load ‹_›
  | claimCas q =>
    simp only [closeStep] at hs
    split at hs
    · rename_i hq
      cases hs
      subst hq
      exact .claim
    · cases hs
      exact .retry
  | doneLoad =>
    cases hs
    split
    · exact .none ‹_›
    · exact .loaded ‹_›
  | doneCas n =>
    simp only [closeStep] at hs
    split at hs
    · rename_i hn
      cases hs
      subst hn
      exact .counted
    · cases hs
      exact .again
  | wgDone last =>
    simp only [closeStep] at hs
    split at hs <;> cases hs
    · exact .negative (by omega)
    · exact .wgDone (by omega)
  | closeResp =>
    simp only [closeStep] at hs
    split at hs <;> cases hs
    · exact .twice ‹_›
    · exact .closeResp (by omega)
  | returned r => cases hs
  | panicked => cases hs

theorem statusOf_set (s : Shared R) (i m : ℕ) (q : Status) :
    (s.setStatus i q).statusOf m = if m = i ∧ i < s.status.length then q else s.statusOf m := by
  simp only [Shared.statusOf,Shared.setStatus,List.getD_eq_getElem?_getD,List.getElem?_set]
  split
  · rename_i hi
    subst hi
    split
    · simp [*]
    · simp [*]
  · rename_i hi
    rw [if_neg (fun h => hi h.1.symm)]

theorem statusOf_new (s : Shared R) (m : ℕ) :
    ({ s with status := s.status ++ [.created] } : Shared R).statusOf m = s.statusOf m := by
  simp only [Shared.statusOf,List.getD_eq_getElem?_getD]
  rcases Nat.lt_trichotomy m s.status.length with h | h | h
  · rw [List.getElem?_append_left h]
  · subst h
    simp
  · rw [List.getElem?_eq_none (by simp; omega),List.getElem?_eq_none (by omega)]

def ClosePc.uncounted : ClosePc → Bool
  | .claimLoad | .claimCas _ | .doneLoad | .doneCas _ => true
  | _ => false

-- The members a goroutine has in hand and has not counted off yet.
def owned : Thread R → List ℕ
  | .addAll (.enqueue i) => [i]
  | .addAll (.close i pc) => if pc.uncounted then [i] else []
  | .run _ .done | .run _ .panicked => []
  | .run m (.close _ pc) => if pc.uncounted then [m] else []
  | .run m _ => [m]
  | .purge (.next rest) => rest
  | .purge (.close m rest pc) => (if pc.uncounted then [m] else []) ++ rest
  | _ => []

def owns (m : ℕ) (l : Thread R) : ℕ := (owned l).count m

def isOpen (q : Status) : Prop := q = .created ∨ q = .queued

def Closing (s : Shared R) (m : ℕ) : ClosePc → Prop
  | .claimLoad | .claimCas _ => closeable (s.statusOf m) = none
  | .doneLoad | .doneCas _ => s.statusOf m = .closed
  | _ => True

def Knows (s : Shared R) : Thread R → Prop
  | .addAll (.enqueue i) => isOpen (s.statusOf i)
  | .addAll (.close i pc) => Closing s i pc
  | .run m .check | .run m .stale | .run m .startLoad | .run m (.startCas _) => isOpen (s.statusOf m)
  | .run m .exec | .run m (.sendResult _) | .run m (.sendError _) | .run m .finish =>
      s.statusOf m = .processing
  | .run m (.close _ pc) => Closing s m pc
  | .purge (.next ms) => ∀ m ∈ ms, isOpen (s.statusOf m)
  | .purge (.close m ms pc) => Closing s m pc ∧ ∀ m ∈ ms, isOpen (s.statusOf m)
  | _ => True

-- markQueued is the one change another goroutine can make to a member in hand.
def Later (q q' : Status) : Prop := q' = q ∨ q = .created ∧ q' = .queued

theorem Later.isOpen {q q' : Status} (h : Later q q') (ho : isOpen q) : Group.isOpen q' := by
  rcases h with rfl | ⟨-,rfl⟩
  · exact ho
  · exact .inr rfl

theorem Later.of_ne {q q' : Status} (h : Later q q') (hq : q ≠ .created) : q' = q :=
  h.elim id fun h => absurd h.1 hq

theorem closing_later {m : ℕ} {pc : ClosePc} (h : Closing s m pc)
    (hl : pc.uncounted = true → Later (s.statusOf m) (s'.statusOf m)) : Closing s' m pc := by
  cases pc with
  | claimLoad | claimCas q =>
    rcases hl rfl with hl | ⟨-,hl⟩
    · simp only [Closing,hl]
      exact h
    · simp only [Closing,hl]
      rfl
  | doneLoad | doneCas n =>
    have h : s.statusOf m = .closed := h
    have := (hl rfl).of_ne (by rw [h]; simp)
    exact this.trans h
  | _ => trivial

theorem knows_later (h : Knows s l) (hl : ∀ m ∈ owned l, Later (s.statusOf m) (s'.statusOf m)) :
    Knows s' l := by
  cases l with
  | addAll pc =>
    cases pc with
    | enqueue i => exact (hl i (by simp [owned])).isOpen h
    | close i pc => exact closing_later h fun hu => hl i (by simp [owned,hu])
    | _ => trivial
  | run m pc =>
    cases pc with
    | check | stale | startLoad | startCas q => exact (hl m (by simp [owned])).isOpen h
    | exec | sendResult r | sendError e | finish =>
      have h : s.statusOf m = .processing := h
      exact ((hl m (by simp [owned])).of_ne (by rw [h]; simp)).trans h
    | close f pc => exact closing_later h fun hu => hl m (by simp [owned,hu])
    | _ => trivial
  | purge pc =>
    cases pc with
    | next ms => exact fun m hm => (hl m hm).isOpen (h m hm)
    | close m ms pc =>
      refine ⟨closing_later h.1 fun hu => hl m (by simp [owned,hu]),fun i hi => ?_⟩
      exact (hl i (List.mem_append_right _ hi)).isOpen (h.2 i hi)
    | _ => trivial
  | _ => trivial

def isAdd : Thread R → ℕ
  | .addAll _ => 1
  | _ => 0

-- AddAll has made as many members as it has got to.
def Adds (s : Shared R) : Thread R → Prop
  | .addAll (.new i) => s.status.length = i
  | .addAll (.enqueue i) | .addAll (.mark i) | .addAll (.close i _) => s.status.length = i + 1
  | _ => True

def made (s : Shared R) (m : ℕ) : ℕ := if m < s.status.length then 1 else 0

def left (s : Shared R) (m : ℕ) : ℕ := (s.counted.map Prod.fst).count m

structure Members (s s' : Shared R) (l l' : Thread R) : Prop where
  moved : ∀ m, s'.stored.count m + owns m l' + left s' m + made s m =
    s.stored.count m + owns m l + left s m + made s' m
  later : ∀ m, m ∉ owned l → Later (s.statusOf m) (s'.statusOf m)
  stored : ∀ m ∈ s'.stored, m ∈ s.stored ∨ isOpen (s'.statusOf m)
  knows : Knows s' l'
  adds : Adds s' l'
  isAdd : isAdd l' = isAdd l
  length : s'.status.length = s.status.length ∨ Group.isAdd l = 1

def Caller.rest : Caller → List ℕ
  | .purge _ rest => rest
  | _ => []

theorem owned_caller (k : Caller) (pc : ClosePc) :
    owned (k.thread pc : Thread R) = (if pc.uncounted then [k.member] else []) ++ k.rest := by
  cases k <;> simp [Caller.thread,Caller.member,Caller.rest,owned]

theorem owned_after (k : Caller) : owned (k.after : Thread R) = k.rest := by
  cases k <;> rfl

theorem knows_caller (k : Caller) (pc : ClosePc) :
    Knows s (k.thread pc) ↔ Closing s k.member pc ∧ ∀ m ∈ k.rest, isOpen (s.statusOf m) := by
  cases k <;> simp [Caller.thread,Caller.member,Caller.rest,Knows]

theorem adds_caller {k : Caller} {pc pc' : ClosePc} (h : Adds s (k.thread pc))
    (hs : s'.status.length = s.status.length) : Adds s' (k.thread pc') := by
  cases k with
  | addAll i =>
    have h : s.status.length = i + 1 := h
    exact hs.trans h
  | _ => trivial

theorem isAdd_caller (k : Caller) (pc pc' : ClosePc) :
    isAdd (k.thread pc : Thread R) = isAdd (k.thread pc' : Thread R) := by
  cases k <;> rfl

theorem length_set (s : Shared R) (i : ℕ) (q : Status) :
    (s.setStatus i q).status.length = s.status.length := List.length_set

theorem made_set (s : Shared R) (i m : ℕ) (q : Status) : made (s.setStatus i q) m = made s m := by
  rw [made,made,length_set]

theorem statusOf_set_ne {i m : ℕ} (h : m ≠ i) (q : Status) :
    (s.setStatus i q).statusOf m = s.statusOf m := by
  rw [statusOf_set,if_neg fun h' => h h'.1]

theorem statusOf_set_self {m : ℕ} (h : m < s.status.length) (q : Status) :
    (s.setStatus m q).statusOf m = q := by
  rw [statusOf_set,if_pos ⟨rfl,h⟩]

theorem caller_members {k : Caller} {pc pc' : ClosePc} (hk : Knows s (k.thread pc))
    (ha : Adds s (k.thread pc)) (hd : (owned (k.thread pc : Thread R)).Nodup)
    (hlt : ∀ m ∈ owned (k.thread pc : Thread R), m < s.status.length)
    (hpos : pc = .doneLoad → s.count ≠ 0) (hp : CloseAct s k.member k.fate pc s' pc') :
    Members s s' (k.thread pc) (k.thread pc') := by
  obtain ⟨hk,hrest⟩ := (knows_caller k pc).mp hk
  have same : ∀ {pc' : ClosePc}, pc'.uncounted = pc.uncounted → Closing s k.member pc' →
      Members s s (k.thread pc) (k.thread pc') := by
    intro pc' hu hc
    refine ⟨fun m => ?_,fun m _ => .inl rfl,fun m hm => .inl hm,(knows_caller k pc').mpr ⟨hc,hrest⟩,
      adds_caller ha rfl,isAdd_caller k _ _,.inl rfl⟩
    simp only [owns,owned_caller,hu]
  cases hp with
  | refused hq =>
    rw [show closeable (s.statusOf k.member) = none from hk] at hq
    cases hq
  | load hq => exact same rfl hq
  | claim =>
    rw [owned_caller] at hd hlt
    simp only [ClosePc.uncounted,if_true,List.cons_append,List.nil_append] at hd hlt
    have hm := hlt k.member (by simp)
    refine ⟨fun m => ?_,fun m hn => .inl ?_,fun m hm => .inl hm,?_,
      adds_caller ha (length_set _ _ _),isAdd_caller k _ _,.inl (length_set _ _ _)⟩
    · simp only [owns,owned_caller,ClosePc.uncounted,made_set]
      rfl
    · refine statusOf_set_ne ?_ _
      rintro rfl
      exact hn (by simp [owned_caller,ClosePc.uncounted])
    · refine (knows_caller k _).mpr ⟨statusOf_set_self hm _,fun m hmr => ?_⟩
      rw [statusOf_set_ne]
      · exact hrest m hmr
      · rintro rfl
        exact (List.nodup_cons.mp hd).1 hmr
  | retry => exact same rfl hk
  | none hc => exact absurd hc (hpos rfl)
  | loaded hc => exact same rfl hk
  | counted =>
    refine ⟨fun m => ?_,fun m _ => .inl rfl,fun m hm => .inl hm,
      (knows_caller k _).mpr ⟨trivial,hrest⟩,adds_caller ha rfl,isAdd_caller k _ _,.inl rfl⟩
    simp only [owns,owned_caller,ClosePc.uncounted,left,made,List.map_cons,List.count_cons,
      List.count_append,List.count_nil,if_true,Bool.false_eq_true,if_false]
    omega
  | again => exact same rfl hk
  | negative hw => exact same rfl trivial
  | @wgDone last hw =>
    refine ⟨fun m => ?_,fun m _ => .inl rfl,fun m hm => .inl hm,
      (knows_caller k _).mpr ⟨?_,hrest⟩,adds_caller ha rfl,isAdd_caller k _ _,.inl rfl⟩
    · cases last <;> simp only [owns,owned_caller,ClosePc.uncounted,left,made] <;> rfl
    · cases last <;> trivial
  | twice hc => exact same rfl trivial
  | closeResp hc =>
    refine ⟨fun m => ?_,fun m _ => .inl rfl,fun m hm => .inl hm,
      (knows_caller k _).mpr ⟨trivial,hrest⟩,adds_caller ha rfl,isAdd_caller k _ _,.inl rfl⟩
    simp only [owns,owned_caller,ClosePc.uncounted]
    rfl

-- A goroutine that keeps its members and leaves the others alone.
theorem Members.keep (h1 : s'.status = s.status) (h2 : s'.stored = s.stored)
    (h3 : s'.counted = s.counted) (ho : owned l' = owned l) (hk : Knows s l') (ha : Adds s l')
    (hi : Group.isAdd l' = Group.isAdd l) : Members s s' l l' := by
  have hst : ∀ m, s'.statusOf m = s.statusOf m := fun m => by rw [Shared.statusOf,h1,Shared.statusOf]
  refine ⟨fun m => ?_,fun m _ => .inl (hst m),fun m hm => .inl (h2 ▸ hm),
    knows_later hk fun m _ => .inl (hst m),?_,hi,.inl (by rw [h1])⟩
  · rw [h2,owns,owns,ho,left,left,h3,made,made,h1]
  · cases l' with
    | addAll pc => cases pc <;> simp only [Adds,h1] <;> exact ha
    | _ => trivial

theorem members_set {m : ℕ} {q : Status} {pc pc' : RunPc R}
    (hm : owned (.run m pc) = [m]) (hm' : owned (.run m pc') = [m])
    (hk : Knows (s.setStatus m q) (.run m pc')) :
    Members s (s.setStatus m q) (.run m pc) (.run m pc') := by
  refine ⟨fun i => ?_,fun i hi => .inl ?_,fun i hi => .inl hi,hk,trivial,rfl,.inl (length_set _ _ _)⟩
  · rw [owns,owns,hm,hm',made_set]
    rfl
  · refine statusOf_set_ne ?_ _
    rintro rfl
    exact hi (by simp [hm])

theorem step_members (hk : Knows s l) (ha : Adds s l) (hd : (owned l).Nodup)
    (hlt : ∀ m ∈ owned l, m < s.status.length) (ho : ∀ m ∈ s.stored, isOpen (s.statusOf m))
    (hpos : ∀ k : Caller, l = k.thread .doneLoad → s.count ≠ 0) (hc : 0 < s.closes → owned l = [])
    (hs : Act s l s' l') : Members s s' l l' := by
  cases hs with
  | close hp =>
    exact caller_members hk ha hd hlt (by rintro rfl; exact hpos _ rfl) (close_act hp)
  | @closed k r =>
    obtain ⟨-,hrest⟩ := (knows_caller k _).mp hk
    refine ⟨fun m => ?_,fun m _ => .inl rfl,fun m hm => .inl hm,?_,?_,by cases k <;> rfl,.inl rfl⟩
    · rw [owns,owns,owned_after,owned_caller]
      rfl
    · cases k with
      | purge m ms => exact hrest
      | _ => trivial
    · cases k with
      | addAll i => exact ha
      | _ => trivial
  | @new i hi =>
    have ha : s.status.length = i := ha
    refine ⟨fun m => ?_,fun m _ => .inl (statusOf_new s m),fun m hm => .inl hm,?_,?_,rfl,.inr rfl⟩
    · simp only [owns,owned,left,made,List.length_append,List.length_cons,List.length_nil,
        List.count_cons,List.count_nil,ha]
      rcases Nat.lt_trichotomy m i with h | h | h <;> grind
    · refine .inl ?_
      rw [statusOf_new]
      simp [Shared.statusOf,← ha]
    · simp [Adds,ha]
  | added hi => exact .keep rfl rfl rfl rfl trivial trivial rfl
  | @accept i =>
    refine ⟨fun m => ?_,fun m _ => .inl rfl,fun m hm => ?_,trivial,ha,rfl,.inl rfl⟩
    · simp only [owns,owned,left,made,List.count_append,List.count_nil]
      omega
    · rcases List.mem_append.mp hm with hm | hm
      · exact .inl hm
      · rw [List.mem_singleton.mp hm]
        exact .inr hk
  | refuse =>
    refine .keep rfl rfl rfl rfl ?_ ha rfl
    rcases hk with hk | hk <;> simp [Knows,Closing,hk,closeable]
  | @mark i =>
    have ha : s.status.length = i + 1 := ha
    have hl : ∀ m, Later (s.statusOf m)
        ((if s.statusOf i = .created then s.setStatus i .queued else s).statusOf m) := by
      intro m
      split
      · rename_i hi
        rw [statusOf_set]
        split
        · rename_i hm
          rw [hm.1]
          exact .inr ⟨hi,rfl⟩
        · exact .inl rfl
      · exact .inl rfl
    have hlen : (if s.statusOf i = .created then s.setStatus i .queued else s).status.length =
        s.status.length := by
      split
      · exact length_set _ _ _
      · rfl
    refine ⟨fun m => ?_,fun m _ => hl m,fun m hm => .inl ?_,trivial,hlen.trans ha,rfl,.inl hlen⟩
    · rw [made,made,hlen]
      split <;> rfl
    · split at hm <;> exact hm
  | @take m hm =>
    refine ⟨fun i => ?_,fun i _ => .inl rfl,fun i hi => .inl (List.mem_of_mem_erase hi),ho m hm,
      trivial,rfl,.inl rfl⟩
    simp only [owns,owned,left,made,List.count_erase,List.count_cons,List.count_nil]
    have := List.count_pos_iff.mpr hm
    by_cases h : m = i <;> grind
  | @skip m pc hpc hq =>
    rcases hpc with rfl | rfl
    · rcases hk with hk | hk <;> rw [hk] at hq <;> cases hq
    · rcases hk with hk | hk <;> rw [hk] at hq <;> cases hq
  | checked => exact .keep rfl rfl rfl rfl hk trivial rfl
  | stale =>
    refine .keep rfl rfl rfl rfl ?_ trivial rfl
    rcases hk with hk | hk <;> simp [Knows,Closing,hk,closeable]
  | fresh => exact .keep rfl rfl rfl rfl hk trivial rfl
  | loaded => exact .keep rfl rfl rfl rfl hk trivial rfl
  | @started m =>
    exact members_set rfl rfl (statusOf_set_self (hlt m (by simp [owned])) _)
  | raced => exact .keep rfl rfl rfl rfl hk trivial rfl
  | @ran m o pc hpc =>
    rcases hpc with ⟨rfl,-⟩ | ⟨r,rfl,-⟩ | ⟨e,rfl,-⟩
    all_goals exact .keep rfl rfl rfl rfl hk trivial rfl
  | late hc' hpc =>
    have := hc hc'
    rcases hpc with ⟨r,rfl⟩ | ⟨e,rfl⟩ <;> cases this
  | sendResult hc' hb => exact .keep rfl rfl rfl rfl hk trivial rfl
  | sendError hc' hb => exact .keep rfl rfl rfl rfl hk trivial rfl
  | @finish m =>
    refine members_set rfl rfl ?_
    simp only [Knows,Closing]
    rw [statusOf_set_self (hlt m (by simp [owned]))]
    rfl
  | values =>
    refine ⟨fun m => ?_,fun m _ => .inl rfl,(fun m hm => by cases hm),ho,trivial,rfl,.inl rfl⟩
    simp only [owns,owned,left,made,List.count_nil]
    omega
  | purged => exact .keep rfl rfl rfl rfl trivial trivial rfl
  | @next m ms =>
    refine .keep rfl rfl rfl rfl ?_ trivial rfl
    refine ⟨?_,fun i hi => hk i (List.mem_cons_of_mem _ hi)⟩
    rcases hk m List.mem_cons_self with hk | hk <;> simp [Closing,hk,closeable]
  | read hb => exact .keep rfl rfl rfl rfl trivial trivial rfl

end Varmq.Group
