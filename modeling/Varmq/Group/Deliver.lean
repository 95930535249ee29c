import Mathlib.Data.List.Nodup
import Mathlib.Data.List.Perm.Subperm
import Varmq.Group.Members

namespace Varmq.Group

open Interleaving
open Varmq.Jobs (Status Error Outcome closeable notClosed)

variable {R : Type} {s s' : Shared R} {l l' : Thread R} {c : Choice R}
  {new xs ys ts : List (Thread R)}

def atClose : Thread R → Option ClosePc
  | .addAll (.close _ pc) | .run _ (.close _ pc) | .purge (.close _ _ pc) => some pc
  | _ => none

@[simp] theorem atClose_caller (k : Caller) (pc : ClosePc) :
    atClose (k.thread pc : Thread R) = some pc := by
  cases k <;> rfl

@[simp] theorem atClose_after (k : Caller) : atClose (k.after : Thread R) = none := by
  cases k <;> rfl

-- The Close has counted its member off and not told the WaitGroup yet.
def telling (l : Thread R) : ℕ :=
  match atClose l with
  | some (.wgDone _) => 1
  | _ => 0

-- The Close has brought the count to 0 and not closed the channel yet.
def last (l : Thread R) : ℕ :=
  match atClose l with
  | some (.wgDone true) | some .closeResp => 1
  | _ => 0

def panicked (l : Thread R) : Bool := atClose l = some .panicked ||
  match l with
  | .run _ .panicked => true
  | _ => false

-- The run of the member has returned and the member is not counted off yet.
def returned (m : ℕ) : Thread R → ℕ
  | .run i (.sendResult _) | .run i (.sendError _) | .run i .finish => if i = m then 1 else 0
  | .run i (.close .ran pc) => if i = m ∧ pc.uncounted then 1 else 0
  | _ => 0

-- The value a goroutine is about to send.
def sending (s : Shared R) : Thread R → Option (ℕ × Message R)
  | .run m (.sendResult r) => some (m,.data (s.idOf m) r)
  | .run m (.sendError e) => some (m,failure s.kind (s.idOf m) e)
  | _ => none

-- What the runs so far owe the channel.
def dues (s : Shared R) : List (ℕ × Message R) :=
  s.ran.filterMap fun x => (message s.kind (s.idOf x.1) x.2).map fun y => (x.1,y)

variable [DecidableEq R]

def due (s : Shared R) (x : ℕ × Message R) (l : Thread R) : ℕ :=
  if sending s l = some x then 1 else 0

def sends (s : Shared R) (l : Thread R) : ℕ := if (sending s l).isSome then 1 else 0

def runsOf (s : Shared R) (m : ℕ) : ℕ := (s.ran.map Prod.fst).count m

structure Delivery (s s' : Shared R) (l l' : Thread R) : Prop where
  kind : s'.kind = s.kind
  ids : s'.ids = s.ids
  count : (s'.count = s.count ∧ s'.counted.length = s.counted.length ∧
      s'.closes + last l' = s.closes + last l) ∨
    (s.count = s'.count + 1 ∧ s'.counted.length = s.counted.length + 1 ∧ s'.closes = s.closes ∧
      last l = 0 ∧ last l' = if s'.count = 0 then 1 else 0)
  wg : s'.wg + s.count + telling l = s.wg + s'.count + telling l'
  ran : ∀ m, runsOf s' m + returned m l + s.counted.count (m,.ran) =
    runsOf s m + returned m l' + s'.counted.count (m,.ran)
  sent : ∀ x, s'.sent.count x + due s x l' + (dues s).count x =
    s.sent.count x + due s x l + (dues s').count x
  sends : s'.sent.length + sends s l' + (dues s).length = s.sent.length + sends s l + (dues s').length
  buffer : s.buffer.length ≤ s.sent.length → s'.buffer.length ≤ s'.sent.length
  calm : panicked l' = false

-- A step that neither closes, runs nor sends.
theorem Delivery.keep (h1 : s'.kind = s.kind) (h2 : s'.ids = s.ids) (h3 : s'.count = s.count)
    (h4 : s'.counted = s.counted) (h5 : s'.closes = s.closes) (h6 : s'.wg = s.wg)
    (h7 : s'.ran = s.ran) (h8 : s'.sent = s.sent) (h9 : s'.buffer = s.buffer)
    (k1 : last l' = last l) (k2 : telling l' = telling l) (k3 : ∀ m, returned m l' = returned m l)
    (k4 : sending s l' = sending s l) (k5 : panicked l' = false) : Delivery s s' l l' := by
  have hd : dues s' = dues s := by
    simp only [dues,Shared.idOf,h1,h2,h7]
  refine ⟨h1,h2,.inl ⟨h3,by rw [h4],by rw [h5,k1]⟩,by rw [h3,h6,k2],fun m => ?_,fun x => ?_,?_,?_,k5⟩
  · rw [runsOf,runsOf,h7,h4,k3]
  · rw [h8,hd,due,due,k4]
  · rw [h8,hd,Group.sends,Group.sends,k4]
  · rw [h8,h9]
    exact id

omit [DecidableEq R] in
theorem returned_caller (k : Caller) (pc : ClosePc) (m : ℕ) :
    returned m (k.thread pc : Thread R) =
      if (k.member,k.fate) = (m,.ran) ∧ pc.uncounted then 1 else 0 := by
  cases k with
  | addAll i => simp [Caller.thread,Caller.member,Caller.fate,returned]
  | run i f => cases f <;> simp [Caller.thread,Caller.member,Caller.fate,returned]
  | purge i rest => simp [Caller.thread,Caller.member,Caller.fate,returned]

omit [DecidableEq R] in
theorem sending_caller (k : Caller) (pc : ClosePc) : sending s (k.thread pc) = none := by
  cases k <;> rfl

omit [DecidableEq R] in
theorem panicked_caller (k : Caller) (pc : ClosePc) :
    panicked (k.thread pc : Thread R) = decide (pc = .panicked) := by
  cases k <;> simp [Caller.thread,panicked,atClose]

omit [DecidableEq R] in
theorem uncounted_quiet {pc : ClosePc} (hu : pc.uncounted = true) (k : Caller) :
    last (k.thread pc : Thread R) = 0 ∧ telling (k.thread pc : Thread R) = 0 ∧ pc ≠ .panicked := by
  cases pc <;> simp_all [ClosePc.uncounted,last,telling]

theorem caller_delivery {k : Caller} {pc pc' : ClosePc} (hk : Closing s k.member pc)
    (hpos : pc.uncounted = true → s.count ≠ 0)
    (hwg : telling (k.thread pc : Thread R) = 1 → 1 ≤ s.wg) (hlast : pc = .closeResp → s.closes = 0)
    (hp : CloseAct s k.member k.fate pc s' pc') : Delivery s s' (k.thread pc) (k.thread pc') := by
  have same : ∀ {pc' : ClosePc} {s' : Shared R}, s'.kind = s.kind → s'.ids = s.ids →
      s'.count = s.count → s'.counted = s.counted → s'.closes = s.closes → s'.wg = s.wg →
      s'.ran = s.ran → s'.sent = s.sent → s'.buffer = s.buffer → pc.uncounted = true →
      pc'.uncounted = true → Delivery s s' (k.thread pc) (k.thread pc') := by
    intro pc' s' h1 h2 h3 h4 h5 h6 h7 h8 h9 hu hu'
    refine .keep h1 h2 h3 h4 h5 h6 h7 h8 h9 ?_ ?_ (fun m => ?_) ?_ ?_
    · rw [(uncounted_quiet hu k).1,(uncounted_quiet hu' k).1]
    · rw [(uncounted_quiet hu k).2.1,(uncounted_quiet hu' k).2.1]
    · rw [returned_caller,returned_caller,hu,hu']
    · rw [sending_caller,sending_caller]
    · rw [panicked_caller]
      exact decide_eq_false (uncounted_quiet (R := R) hu' k).2.2
  cases hp with
  | refused hq =>
    rw [show closeable (s.statusOf k.member) = none from hk] at hq
    cases hq
  | load hq => exact same rfl rfl rfl rfl rfl rfl rfl rfl rfl rfl rfl
  | claim => exact same rfl rfl rfl rfl rfl rfl rfl rfl rfl rfl rfl
  | retry => exact same rfl rfl rfl rfl rfl rfl rfl rfl rfl rfl rfl
  | none hc => exact absurd hc (hpos rfl)
  | loaded hc => exact same rfl rfl rfl rfl rfl rfl rfl rfl rfl rfl rfl
  | again => exact same rfl rfl rfl rfl rfl rfl rfl rfl rfl rfl rfl
  | counted =>
    have hne := hpos rfl
    refine ⟨rfl,rfl,.inr ⟨by simp only; omega,rfl,rfl,by simp [last],?_⟩,?_,fun m => ?_,fun x => ?_,?_,id,?_⟩
    · by_cases h : s.count = 1
      · simp [last,h]
      · have h' : s.count - 1 ≠ 0 := by omega
        simp [last,h,h']
    · simp only [telling,atClose_caller]
      omega
    · simp only [returned_caller,ClosePc.uncounted,List.count_cons,and_true,Bool.false_eq_true,
        and_false,if_false,beq_iff_eq,runsOf]
      omega
    · simp only [due,sending_caller]
      rfl
    · simp only [Group.sends,sending_caller]
      rfl
    · rw [panicked_caller]
      rfl
  | negative hw =>
    have := hwg (by simp [telling])
    omega
  | @wgDone b hw =>
    refine ⟨rfl,rfl,.inl ⟨rfl,rfl,?_⟩,?_,fun m => ?_,fun x => ?_,?_,id,?_⟩
    · cases b <;> simp [last]
    · cases b <;> simp [telling] <;> omega
    · cases b <;> simp [returned_caller,ClosePc.uncounted,runsOf]
    · simp only [due,sending_caller]
      rfl
    · simp only [Group.sends,sending_caller]
      rfl
    · rw [panicked_caller]
      cases b <;> rfl
  | twice hc =>
    have := hlast rfl
    omega
  | closeResp hc =>
    refine ⟨rfl,rfl,.inl ⟨rfl,rfl,?_⟩,?_,fun m => ?_,fun x => ?_,?_,id,?_⟩
    · simp [last]
    · simp [telling]
    · simp [returned_caller,ClosePc.uncounted,runsOf]
    · simp only [due,sending_caller]
      rfl
    · simp only [Group.sends,sending_caller]
      rfl
    · rw [panicked_caller]
      rfl

omit [DecidableEq R] in
theorem dues_none {m : ℕ} {o : Outcome R} (h : message s.kind (s.idOf m) o = none) :
    dues { s with ran := (m,o) :: s.ran } = dues s :=
  List.filterMap_cons_none (by rw [Option.map_eq_none_iff]; exact h)

omit [DecidableEq R] in
theorem dues_some {m : ℕ} {o : Outcome R} {y : Message R}
    (h : message s.kind (s.idOf m) o = some y) :
    dues { s with ran := (m,o) :: s.ran } = (m,y) :: dues s :=
  List.filterMap_cons_some (by rw [Option.map_eq_some_iff]; exact ⟨y,h,rfl⟩)

-- A run that returned counts as one and owes the value its goroutine goes on to send.
theorem ran_delivery {m : ℕ} {o : Outcome R} {pc : RunPc R}
    (hr : ∀ i, returned i (.run m pc) = if m = i then 1 else 0) (hc : atClose (.run m pc) = none)
    (hp : panicked (.run m pc) = false)
    (hd : dues { s with ran := (m,o) :: s.ran } = (sending s (.run m pc)).toList ++ dues s) :
    Delivery s { s with ran := (m,o) :: s.ran } (.run m .exec) (.run m pc) := by
  refine ⟨rfl,rfl,.inl ⟨rfl,rfl,by simp only [last,hc]; rfl⟩,by simp only [telling,hc]; rfl,fun i => ?_,
    fun x => ?_,?_,id,hp⟩
  · rw [hr]
    simp only [runsOf,returned,List.map_cons,List.count_cons,beq_iff_eq]
    omega
  · have hx : sending s (.run m .exec) = none := rfl
    rw [hd,List.count_append,due,due,hx]
    cases sending s (.run m pc) <;> simp [List.count_cons]
    omega
  · have hx : sending s (.run m .exec) = none := rfl
    rw [hd,List.length_append,sends,sends,hx]
    cases sending s (.run m pc) <;> simp
    omega

theorem send_delivery {m : ℕ} {x : Message R} {pc : RunPc R}
    (hr : ∀ i, returned i (.run m pc) = if m = i then 1 else 0) (hc : atClose (.run m pc) = none)
    (hx : sending s (.run m pc) = some (m,x)) :
    Delivery s (s.send m x) (.run m pc) (.run m .finish) := by
  refine ⟨rfl,rfl,.inl ⟨rfl,rfl,by simp only [last,hc]; rfl⟩,by simp only [telling,hc]; rfl,fun i => ?_,
    fun y => ?_,?_,fun hb => ?_,rfl⟩
  · rw [hr]
    rfl
  · have hd : dues (s.send m x) = dues s := rfl
    have hx' : sending s (.run m .finish) = none := rfl
    have hs : (s.send m x).sent = (m,x) :: s.sent := rfl
    simp only [due,hx,hx',hd,hs,List.count_cons,beq_iff_eq,Option.some.injEq,reduceCtorEq,if_false]
    omega
  · have hd : dues (s.send m x) = dues s := rfl
    have hx' : sending s (.run m .finish) = none := rfl
    have hs : (s.send m x).sent = (m,x) :: s.sent := rfl
    simp only [sends,hx,hx',hd,hs,List.length_cons,Option.isSome_none,Option.isSome_some,if_true,
      Bool.false_eq_true,if_false]
  · simp only [Shared.send,List.length_append,List.length_cons,List.length_nil]
    omega

theorem step_delivery (hk : Knows s l) (hpos : owned l ≠ [] → s.count ≠ 0 ∧ s.closes = 0)
    (hwg : telling l = 1 → 1 ≤ s.wg) (hlast : atClose l = some .closeResp → s.closes = 0)
    (hs : Act s l s' l') : Delivery s s' l l' := by
  cases hs with
  | @close k pc pc' s' hp =>
    obtain ⟨hc,-⟩ := (knows_caller k pc).mp hk
    refine caller_delivery hc (fun hu => ?_) hwg (fun hpc => ?_) (close_act hp)
    · exact (hpos (by rw [owned_caller,hu]; simp)).1
    · exact hlast (by rw [hpc,atClose_caller])
  | @closed k r =>
    refine .keep rfl rfl rfl rfl rfl rfl rfl rfl rfl ?_ ?_ (fun m => ?_) ?_ ?_
    · simp [last]
    · simp [telling]
    · rw [returned_caller]
      cases k <;> simp [Caller.after,returned,ClosePc.uncounted]
    · cases k <;> rfl
    · cases k <;> rfl
  | mark =>
    split
    · exact .keep rfl rfl rfl rfl rfl rfl rfl rfl rfl rfl rfl (fun _ => rfl) rfl rfl
    · exact .keep rfl rfl rfl rfl rfl rfl rfl rfl rfl rfl rfl (fun _ => rfl) rfl rfl
  | @ran m o pc hpc =>
    rcases hpc with ⟨rfl,h⟩ | ⟨r,rfl,h⟩ | ⟨e,rfl,h⟩
    · exact ran_delivery (fun _ => rfl) rfl rfl (dues_none h)
    · exact ran_delivery (fun _ => rfl) rfl rfl (dues_some h)
    · exact ran_delivery (fun _ => rfl) rfl rfl (dues_some h)
  | late hc hpc =>
    rcases hpc with ⟨r,rfl⟩ | ⟨e,rfl⟩
    · have := (hpos (by simp [owned])).2
      omega
    · have := (hpos (by simp [owned])).2
      omega
  | sendResult hc hb => exact send_delivery (fun _ => rfl) rfl rfl
  | sendError hc hb => exact send_delivery (fun _ => rfl) rfl rfl
  | @read x rest hb =>
    refine ⟨rfl,rfl,.inl ⟨rfl,rfl,rfl⟩,rfl,fun _ => rfl,fun _ => rfl,rfl,fun h => ?_,rfl⟩
    rw [hb,List.length_cons] at h
    simp only
    omega
  | skip hpc hq =>
    rcases hpc with rfl | rfl
    · rcases hk with hk | hk <;> rw [hk] at hq <;> cases hq
    · rcases hk with hk | hk <;> rw [hk] at hq <;> cases hq
  | finish =>
    exact .keep rfl rfl rfl rfl rfl rfl rfl rfl rfl rfl rfl
      (fun m => by simp [returned,ClosePc.uncounted]) rfl rfl
  | _ => exact .keep rfl rfl rfl rfl rfl rfl rfl rfl rfl rfl rfl (fun _ => rfl) rfl rfl

omit [DecidableEq R] in
theorem step_size (ha : Adds s l) (hz : s.status.length ≤ s.ids.length) (hs : Act s l s' l') :
    s'.status.length ≤ s'.ids.length := by
  cases hs with
  | close hp =>
    cases close_act hp <;> first | exact hz | exact Nat.le_trans (Nat.le_of_eq (length_set _ _ _)) hz
  | @new i hi =>
    have ha : s.status.length = i := ha
    simp only [List.length_append,List.length_cons,List.length_nil]
    omega
  | mark =>
    split
    · exact Nat.le_trans (Nat.le_of_eq (length_set _ _ _)) hz
    · exact hz
  | started => exact Nat.le_trans (Nat.le_of_eq (length_set _ _ _)) hz
  | finish => exact Nat.le_trans (Nat.le_of_eq (length_set _ _ _)) hz
  | _ => exact hz

structure Inv (n : ℕ) (s : Shared R) (ts : List (Thread R)) : Prop where
  ids : s.ids.length = n
  adding : total isAdd ts = 1
  adds : ∀ t ∈ ts, Adds s t
  places : ∀ m, s.stored.count m + total (owns m) ts + left s m = made s m
  waiting : ∀ m ∈ s.stored, isOpen (s.statusOf m)
  knows : ∀ t ∈ ts, Knows s t
  size : s.status.length ≤ s.ids.length
  count : s.count + s.counted.length = n
  wg : s.wg = s.count + total telling ts
  closes : s.closes + total last ts = if s.count = 0 then 1 else 0
  ran : ∀ m, runsOf s m = total (returned m) ts + s.counted.count (m,.ran)
  sent : ∀ x, s.sent.count x + total (due s x) ts = (dues s).count x
  sends : s.sent.length + total (sends s) ts = (dues s).length
  buffer : s.buffer.length ≤ s.sent.length
  calm : ∀ t ∈ ts, panicked t = false

variable {n : ℕ}

omit [DecidableEq R] in
theorem made_le (s : Shared R) (m : ℕ) : made s m ≤ 1 := by
  unfold made
  split <;> omega

omit [DecidableEq R] in
theorem lt_of_made {m : ℕ} (h : made s m ≠ 0) : m < s.status.length := by
  unfold made at h
  split at h
  · assumption
  · exact absurd rfl h

theorem Inv.owned_made (h : Inv n s ts) (hl : l ∈ ts) {m : ℕ} (hm : m ∈ owned l) :
    m < s.status.length ∧ left s m = 0 ∧ owns m l = 1 := by
  have h1 := h.places m
  have h2 := le_total (f := owns m) hl
  have h3 : 0 < owns m l := List.count_pos_iff.mpr hm
  have h4 := made_le s m
  exact ⟨lt_of_made (by omega),by omega,by omega⟩

-- Somebody has a member in hand that is not counted off.
theorem Inv.open_group (h : Inv n s ts) (hl : l ∈ ts) (ho : owned l ≠ []) :
    s.count ≠ 0 ∧ s.closes = 0 := by
  obtain ⟨m,hm⟩ := List.exists_mem_of_ne_nil _ ho
  obtain ⟨hlt,hleft,-⟩ := h.owned_made hl hm
  have hnodup : (m :: s.counted.map Prod.fst).Nodup := by
    refine List.nodup_cons.mpr ⟨List.count_eq_zero.mp hleft,List.nodup_iff_count_le_one.mpr fun i => ?_⟩
    have h1 := h.places i
    have h2 := made_le s i
    have h3 : left s i ≤ 1 := by omega
    exact h3
  have hsub : m :: s.counted.map Prod.fst ⊆ List.range n := by
    intro i hi
    rw [List.mem_range,← h.ids]
    rcases List.mem_cons.mp hi with rfl | hi
    · exact Nat.lt_of_lt_of_le hlt h.size
    · have h1 := h.places i
      have h2 : 0 < left s i := List.count_pos_iff.mpr hi
      exact Nat.lt_of_lt_of_le (lt_of_made (by omega)) h.size
  have hlen := (List.subperm_of_subset hnodup hsub).length_le
  rw [List.length_cons,List.length_map,List.length_range] at hlen
  have hcount := h.count
  have hne : s.count ≠ 0 := by omega
  have hcl := h.closes
  rw [if_neg hne] at hcl
  exact ⟨hne,by omega⟩

theorem Inv.members (h : Inv n s (xs ++ l :: ys)) (hs : Act s l s' l') : Members s s' l l' := by
  have hl : l ∈ xs ++ l :: ys := by simp
  refine step_members (h.knows l hl) (h.adds l hl) ?_ (fun m hm => (h.owned_made hl hm).1) h.waiting
    (fun k hk => ?_) (fun hc => ?_) hs
  · refine List.nodup_iff_count_le_one.mpr fun m => ?_
    by_cases hm : m ∈ owned l
    · exact Nat.le_of_eq (h.owned_made hl hm).2.2
    · exact Nat.le_trans (Nat.le_of_eq (List.count_eq_zero.mpr hm)) (Nat.zero_le 1)
  · refine (h.open_group hl ?_).1
    rw [hk,owned_caller]
    simp [ClosePc.uncounted]
  · by_contra hne
    have := (h.open_group hl hne).2
    omega

theorem Inv.delivery (h : Inv n s (xs ++ l :: ys)) (hs : Act s l s' l') : Delivery s s' l l' := by
  have hl : l ∈ xs ++ l :: ys := by simp
  refine step_delivery (h.knows l hl) (h.open_group hl) (fun ht => ?_) (fun hc => ?_) hs
  · have h1 := h.wg
    have h2 := le_total (f := telling) hl
    omega
  · have h1 := h.closes
    have h2 := le_total (f := last) hl
    have h3 : last l = 1 := by simp [last,hc]
    split at h1 <;> omega

omit [DecidableEq R] in
theorem total_same {f g : Thread R → ℕ} (h : ∀ t, f t = g t) (ts : List (Thread R)) :
    total f ts = total g ts := by
  rw [funext h]

theorem inv_act (h : Inv n s (xs ++ l :: ys)) (hs : Act s l s' l') : Inv n s' (xs ++ l' :: ys) := by
  have hm := h.members hs
  have hd := h.delivery hs
  have hl : l ∈ xs ++ l :: ys := by simp
  have hother : ∀ {p : Thread R → Prop}, (∀ u ∈ xs ++ ys, p u) → p l' → ∀ u ∈ xs ++ l' :: ys, p u := by
    intro p hp hpl u hu
    rcases mem_split hu with hu | rfl
    · exact hp u hu
    · exact hpl
  have hsend : ∀ u, sending s' u = sending s u := by
    intro u
    simp only [sending,Shared.idOf,hd.kind,hd.ids]
  have hids := h.ids
  have hadd := h.adding
  have hcount := h.count
  have hwg := h.wg
  have hcl := h.closes
  have hsends := h.sends
  rw [total_split] at hadd hwg hcl hsends
  refine ⟨by rw [hd.ids,hids],?_,hother (fun u hu => ?_) hm.adds,fun m => ?_,fun m hms => ?_,
    hother (fun u hu => ?_) hm.knows,step_size (h.adds l hl) h.size hs,?_,?_,?_,fun m => ?_,fun x => ?_,
    ?_,hd.buffer h.buffer,hother (fun u hu => h.calm u (mem_of_other hu)) hd.calm⟩
  · rw [total_split,hm.isAdd]
    exact hadd
  · have hu' := h.adds u (mem_of_other hu)
    rcases hm.length with hlen | hlen
    · cases u with
      | addAll pc => cases pc <;> simp only [Adds,hlen] <;> exact hu'
      | _ => trivial
    · have hle := le_total (f := isAdd) hu
      cases u with
      | addAll pc =>
        have : isAdd (.addAll pc : Thread R) = 1 := rfl
        omega
      | _ => trivial
  · have h1 := h.places m
    have h2 := hm.moved m
    rw [total_split] at h1 ⊢
    omega
  · rcases hm.stored m hms with hold | hop
    · by_cases hown : m ∈ owned l
      · have h1 := h.places m
        have h2 := le_total (f := owns m) hl
        have h3 : 0 < owns m l := List.count_pos_iff.mpr hown
        have h4 : 0 < s.stored.count m := List.count_pos_iff.mpr hold
        have h5 := made_le s m
        omega
      · exact (hm.later m hown).isOpen (h.waiting m hold)
    · exact hop
  · refine knows_later (h.knows u (mem_of_other hu)) fun m hmu => hm.later m fun hml => ?_
    have h1 := h.places m
    rw [total_split] at h1
    have h2 := le_total (f := owns m) hu
    have h3 : 0 < owns m u := List.count_pos_iff.mpr hmu
    have h4 : 0 < owns m l := List.count_pos_iff.mpr hml
    have h5 := made_le s m
    omega
  · rcases hd.count with ⟨h1,h2,-⟩ | ⟨h1,h2,-⟩ <;> omega
  · have h1 := hd.wg
    rw [total_split]
    omega
  · rw [total_split]
    rcases hd.count with ⟨h1,-,h3⟩ | ⟨h1,-,h3,h4,h5⟩
    · rw [h1]
      omega
    · rw [if_neg (by omega)] at hcl
      rw [h5]
      omega
  · have h1 := h.ran m
    have h2 := hd.ran m
    rw [total_split] at h1 ⊢
    omega
  · have h1 := h.sent x
    have h2 := hd.sent x
    have h3 : total (due s' x) (xs ++ l' :: ys) = total (due s x) (xs ++ l' :: ys) :=
      total_same (fun u => by rw [due,due,hsend]) _
    rw [h3]
    rw [total_split] at h1 ⊢
    omega
  · have h1 := hd.sends
    have h3 : total (sends s') (xs ++ l' :: ys) = total (sends s) (xs ++ l' :: ys) :=
      total_same (fun u => by rw [sends,sends,hsend]) _
    rw [h3,total_split]
    omega

theorem inv_call (h : Inv n s ts) (he : entry s l = true) : Inv n s (ts ++ [l]) := by
  have hl : Adds s l ∧ Knows s l ∧ panicked l = false ∧ isAdd l = 0 ∧ owned l = [] ∧ telling l = 0 ∧
      last l = 0 ∧ (∀ m, returned m l = 0) ∧ sending s l = none := by
    unfold entry at he
    split at he <;>
      first | exact ⟨trivial,trivial,rfl,rfl,rfl,rfl,rfl,fun _ => rfl,rfl⟩ | cases he
  obtain ⟨h1,h2,h3,h4,h5,h6,h7,h8,h9⟩ := hl
  refine ⟨h.ids,?_,forall_call h.adds h1,fun m => ?_,h.waiting,forall_call h.knows h2,h.size,h.count,
    ?_,?_,fun m => ?_,fun x => ?_,?_,h.buffer,forall_call h.calm h3⟩
  · rw [total_call,h4]
    exact h.adding
  · rw [total_call,owns,h5]
    exact h.places m
  · rw [total_call,h6]
    exact h.wg
  · rw [total_call,h7]
    exact h.closes
  · rw [total_call,h8]
    exact h.ran m
  · rw [total_call,due,h9]
    exact h.sent x
  · rw [total_call,sends,h9]
    exact h.sends

end Varmq.Group
