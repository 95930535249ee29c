import Varmq.Sources.Order
import Varmq.Sources.Round
import Varmq.Sources.First
import Varmq.Interleaving.World
import Mathlib.Data.List.Rotate

namespace Varmq.Sources

open Selection

variable {T : Type}

namespace Manager

def line (m : Manager T) : List T := m.items.map (·.item)

def getMaxLenItem (len : T → ℕ) (m : Manager T) : Option T :=
  match m.items with
  | [] => none
  | r :: rs =>
      let maxItem := maxFunc (fun a b => (len a.item : ℤ) - len b.item) r rs
      if len maxItem.item = 0 then none else some maxItem.item

-- minItem and minLen after one more item.
def shorter (len : T → ℕ) (s : Option T × ℤ) (r : Registered T) : Option T × ℤ :=
  if 0 < (len r.item : ℤ) ∧ (s.2 = -1 ∨ len r.item < s.2) then (some r.item,len r.item) else s

def getMinLenItem (len : T → ℕ) (m : Manager T) : Option T :=
  let s := m.items.foldl (shorter len) (none,-1)
  if s.2 = -1 then none else s.1

def getPriorityItem (len : T → ℕ) (m : Manager T) : Option T :=
  (m.items.find? fun r => 0 < len r.item).map (·.item)

-- strategyManager.next, with the lengths held fixed.
def next (s : Strategy) (len : T → ℕ) (m : Manager T) : Option (Manager T × Option T) :=
  match s with
  | .roundRobin => (m.getRoundRobinItem m.count fun _ => len).map fun p => (p.manager,p.item)
  | .maxLen => some (m,m.getMaxLenItem len)
  | .minLen => some (m,m.getMinLenItem len)
  | .priority => some (m,m.getPriorityItem len)

-- strategyManager.Next: the source picked is asked for its next job.
def pull {J E : Type} (errNoReadySource : E) (next : T → Except E J) (s : Strategy) (len : T → ℕ)
    (m : Manager T) : Option (Manager T × Except E J) :=
  (m.next s len).map fun (m',src) =>
    (m',match src with
      | none => .error errNoReadySource
      | some src => next src)

end Manager

-- What each strategy promises of its pick x from the line, and where the index goes.
def Picks (len : T → ℕ) (line : List T) (i i' : ℕ) (x : T) : Strategy → Prop
  | .roundRobin => ∃ as bs, line.rotate i = as ++ x :: bs ∧ (∀ a ∈ as, len a = 0) ∧
      i' = (i + as.length + 1) % line.length
  | .maxLen => First line x (fun a => len a < len x) (fun b => len b ≤ len x) ∧ i' = i
  | .minLen => First line x (fun a => 0 < len a → len x < len a)
      (fun b => 0 < len b → len x ≤ len b) ∧ i' = i
  | .priority => First line x (fun a => len a = 0) (fun _ => True) ∧ i' = i

-- A pick is a source that is not empty, and there is none only if all are empty.
def Answered (len : T → ℕ) (line : List T) (good : T → Prop) (r : Option T) : Prop :=
  (∃ x, r = some x ∧ x ∈ line ∧ 0 < len x ∧ good x) ∨ (r = none ∧ ∀ x ∈ line, len x = 0)

variable {m : Manager T} {len : T → ℕ} {xs : List T} {good : T → Prop} {r : Option T}

theorem Answered.none_iff (h : Answered len xs good r) : r = none ↔ ∀ x ∈ xs, len x = 0 := by
  rcases h with ⟨x,rfl,hx,hpos,-⟩ | ⟨rfl,hz⟩
  · exact ⟨(fun hn => by cases hn),fun hz => absurd (hz x hx) (Nat.ne_of_gt hpos)⟩
  · exact ⟨fun _ => hz,fun _ => rfl⟩

theorem Answered.some {x : T} (h : Answered len xs good r) (hr : r = some x) :
    0 < len x ∧ good x := by
  rcases h with ⟨y,rfl,-,hpos,hgood⟩ | ⟨rfl,-⟩
  · cases hr
    exact ⟨hpos,hgood⟩
  · cases hr

theorem Answered.imp {good' : T → Prop} (h : Answered len xs good r) (hg : ∀ x, good x → good' x) :
    Answered len xs good' r := by
  rcases h with ⟨x,hr,hx,hpos,hgood⟩ | h
  · exact .inl ⟨x,hr,hx,hpos,hg x hgood⟩
  · exact .inr h

theorem mem_line {e : Registered T} (he : e ∈ m.items) : e.item ∈ m.line :=
  List.mem_map_of_mem he

theorem line_empty (h : ∀ e ∈ m.items, len e.item = 0) : ∀ x ∈ m.line, len x = 0 := by
  intro x hx
  obtain ⟨e,he,rfl⟩ := List.mem_map.mp hx
  exact h e he

theorem priority_answered : Answered len m.line
    (fun x => First m.line x (fun a => len a = 0) fun _ => True) (m.getPriorityItem len) := by
  rw [Manager.getPriorityItem]
  cases hf : m.items.find? (fun e => 0 < len e.item) with
  | none =>
    refine .inr ⟨rfl,line_empty fun e he => ?_⟩
    simpa using List.find?_eq_none.mp hf e he
  | some e =>
    have hfirst := first_of_find hf
    simp only [decide_eq_false_iff_not,Nat.not_lt,Nat.le_zero] at hfirst
    have hpos := List.find?_some hf
    exact .inl ⟨e.item,rfl,mem_line hfirst.mem,by simpa using hpos,hfirst.map⟩

theorem maxLen_answered : Answered len m.line
    (fun x => First m.line x (fun a => len a < len x) fun b => len b ≤ len x)
    (m.getMaxLenItem len) := by
  rw [Manager.getMaxLenItem,Manager.line]
  cases m.items with
  | nil => exact .inr ⟨rfl,(fun x hx => by cases hx)⟩
  | cons e es =>
    have hone : First [e] e (fun a => (len a.item : ℤ) < len e.item)
        fun a => (len a.item : ℤ) ≤ len e.item :=
      @first_last _ [] e _ _ (fun a ha => by cases ha)
    have hmax := first_maxFunc (f := fun e : Registered T => (len e.item : ℤ)) hone es
    simp only [Int.ofNat_lt,Int.ofNat_le,List.singleton_append] at hmax
    simp only
    split
    · rename_i hz
      refine .inr ⟨rfl,fun x hx => ?_⟩
      obtain ⟨a,ha,rfl⟩ := List.mem_map.mp hx
      have hall := hmax.each (fun a ha => Nat.le_of_lt ha) (Nat.le_refl _) a ha
      omega
    · rename_i hne
      exact .inl ⟨_,rfl,List.mem_map_of_mem hmax.mem,Nat.pos_of_ne_zero hne,hmax.map⟩

-- What the loop of GetMinLenItem knows of the entries it has seen.
def Shortest (len : T → ℕ) (seen : List (Registered T)) (s : Option T × ℤ) : Prop :=
  (s = (none,-1) ∧ ∀ r ∈ seen, len r.item = 0) ∨
  ∃ r, s = (some r.item,(len r.item : ℤ)) ∧ 0 < len r.item ∧
    First seen r (fun a => 0 < len a.item → len r.item < len a.item)
      fun b => 0 < len b.item → len r.item ≤ len b.item

theorem shortest_step {seen : List (Registered T)} {s : Option T × ℤ} (h : Shortest len seen s)
    (y : Registered T) : Shortest len (seen ++ [y]) (Manager.shorter len s y) := by
  rw [Manager.shorter]
  rcases h with ⟨rfl,hz⟩ | ⟨r,rfl,hpos,hfirst⟩
  · split
    · rename_i hy
      refine .inr ⟨y,rfl,by omega,first_last fun a ha hpos => ?_⟩
      have := hz a ha
      omega
    · rename_i hy
      have hy : len y.item = 0 := by
        by_contra hne
        exact hy ⟨by omega,.inl rfl⟩
      refine .inl ⟨rfl,fun a ha => ?_⟩
      rcases List.mem_append.mp ha with ha | ha
      · exact hz a ha
      · rw [List.mem_singleton.mp ha]
        exact hy
  · have hall := hfirst.each (fun a ha hpos' => Nat.le_of_lt (ha hpos')) fun _ => Nat.le_refl _
    split
    · rename_i hy
      refine .inr ⟨y,rfl,by omega,first_last fun a ha hpos' => ?_⟩
      have := hall a ha hpos'
      omega
    · rename_i hy
      refine .inr ⟨r,rfl,hpos,hfirst.keep fun hpos' => ?_⟩
      by_contra hlt
      exact hy ⟨by omega,.inr (by omega)⟩

theorem shortest_loop {seen : List (Registered T)} {s : Option T × ℤ} (h : Shortest len seen s)
    (ys : List (Registered T)) : Shortest len (seen ++ ys) (ys.foldl (Manager.shorter len) s) := by
  induction ys generalizing seen s with
  | nil =>
    rw [List.append_nil]
    exact h
  | cons y ys ih =>
    rw [List.append_cons,List.foldl_cons]
    exact ih (shortest_step h y)

theorem shortest_items (len : T → ℕ) (m : Manager T) :
    Shortest len m.items (m.items.foldl (Manager.shorter len) (none,-1)) :=
  @shortest_loop _ len [] _ (.inl ⟨rfl,(fun _ h => by cases h)⟩) m.items

theorem minLen_answered : Answered len m.line
    (fun x => First m.line x (fun a => 0 < len a → len x < len a) fun b => 0 < len b → len x ≤ len b)
    (m.getMinLenItem len) := by
  rw [Manager.getMinLenItem]
  rcases shortest_items len m with ⟨hs,hz⟩ | ⟨e,hs,hpos,hfirst⟩
  · rw [hs]
    exact .inr ⟨rfl,line_empty hz⟩
  · have hne : (len e.item : ℤ) ≠ -1 := by omega
    simp only [hs,if_neg hne]
    exact .inl ⟨e.item,rfl,mem_line hfirst.mem,hpos,hfirst.map⟩

theorem rotate_line {i j : ℕ} {e : Registered T} (hj : j < m.items.length)
    (he : m.items[(i + j) % m.items.length]? = some e) : (m.line.rotate i)[j]? = some e.item := by
  have hlen : m.line.length = m.items.length := List.length_map _
  rw [List.getElem?_rotate (by omega),hlen,Nat.add_comm,Manager.line,List.getElem?_map,he,
    Option.map_some]

theorem rotate_entry {i j : ℕ} (hj : j < m.items.length) :
    ∃ e, m.items[(i + j) % m.items.length]? = some e :=
  ⟨_,List.getElem?_eq_getElem (Nat.mod_lt (i + j) (Nat.lt_of_le_of_lt (Nat.zero_le j) hj))⟩

theorem roundRobin_answered {i c : ℕ} {p : Picked T} (h : Looked (fun _ => len) m i 0 c p) :
    Answered len m.line (fun x => ∃ as bs, m.line.rotate i = as ++ x :: bs ∧ (∀ a ∈ as, len a = 0) ∧
      p.manager.roundRobinIndex = (i + as.length + 1) % m.line.length) p.item := by
  have hlen : m.line.length = m.items.length := List.length_map _
  have hrot : (m.line.rotate i).length = m.items.length := (List.length_rotate _ _).trans hlen
  have hpos := h.pos
  have hle := h.le
  -- The look at place j of the rotated line.
  have hempty : ∀ j < c, j + 1 < c ∨ p.item = none → ∀ x, (m.line.rotate i)[j]? = some x →
      len x = 0 := by
    intro j hj hor x hx
    obtain ⟨e,he⟩ := @rotate_entry _ m i j (by omega)
    cases (rotate_line (by omega) he).symm.trans hx
    exact h.empty j e (Nat.zero_le j) (by omega) (hor.imp_left fun hlt => by omega) he
  cases hitem : p.item with
  | none =>
    refine .inr ⟨rfl,fun x hx => ?_⟩
    obtain ⟨j,hj,hx⟩ := List.mem_iff_getElem.mp (List.mem_rotate.mpr hx : x ∈ m.line.rotate i)
    have hall := h.none hitem
    exact hempty j (by omega) (.inr hitem) x (by rw [← hx]; exact List.getElem?_eq_getElem hj)
  | some x =>
    obtain ⟨e,he,rfl,hx⟩ := h.item x hitem
    rw [Nat.zero_add] at he
    obtain ⟨as,bs,hsplit,has,-⟩ := Interleaving.set_split (rotate_line (by omega) he)
    refine .inl ⟨e.item,rfl,mem_line (List.mem_of_getElem? he),hx,as,bs,hsplit,fun a ha => ?_,?_⟩
    · obtain ⟨j,hj,rfl⟩ := List.mem_iff_getElem.mp ha
      refine hempty j (by omega) (.inl (by omega)) _ ?_
      rw [hsplit,List.getElem?_append_left hj,List.getElem?_eq_getElem hj]
    · rw [h.index,hlen,has]
      congr 1
      omega

theorem next_answered (h : Indexed m) (s : Strategy) (len : T → ℕ) : ∃ m' r,
    m.next s len = some (m',r) ∧ m'.items = m.items ∧
    Answered len m.line (fun x => Picks len m.line m.roundRobinIndex m'.roundRobinIndex x s) r := by
  cases s with
  | priority => exact ⟨m,_,rfl,rfl,priority_answered.imp fun x hx => ⟨hx,rfl⟩⟩
  | maxLen => exact ⟨m,_,rfl,rfl,maxLen_answered.imp fun x hx => ⟨hx,rfl⟩⟩
  | minLen => exact ⟨m,_,rfl,rfl,minLen_answered.imp fun x hx => ⟨hx,rfl⟩⟩
  | roundRobin =>
    rcases h with hi | hn
    · obtain ⟨p,c,hp,hl⟩ := looked_call (fun _ => len) hi
      exact ⟨p.manager,p.item,by rw [Manager.next,hp _ (Nat.le_refl _),Option.map_some],hl.items,
        roundRobin_answered hl⟩
    · refine ⟨m,none,by rw [Manager.next,call_empty _ _ hn.1,Option.map_some],rfl,.inr ⟨rfl,?_⟩⟩
      rw [Manager.line,hn.1]
      exact fun x hx => by cases hx

-- The bindings after the calls on a Manager, each at its place in their order as its time.
def enlist (bs : List Binding) : Op Source × ℕ → List Binding
  | (.register src priority,time) => bind bs (.addSource src priority,time)
  | (.unregisterItem src,time) => bind bs (.removeSource src,time)
  | (.getRoundRobinItem _,_) => bs

def enlisted (ops : List (Op Source)) : List Binding := ops.zipIdx.foldl enlist []

theorem act_lined {n : ℕ} {bs xs : List Binding} {m m' : Manager Source} {o : Op Source}
    (h : Lined n bs xs) (hm : m.items = xs.map Binding.registered) (hi : Indexed m)
    (ho : m.act o = some m') :
    ∃ xs', Lined (n + 1) (enlist bs (o,n)) xs' ∧ m'.items = xs'.map Binding.registered := by
  obtain ⟨items,i⟩ := m
  simp only at hm
  subst hm
  cases o with
  | register src priority =>
    cases ho
    have hplace := register_place ⟨src,priority,n⟩ xs i
    exact ⟨_,h.place src priority,by rw [hplace]⟩
  | unregisterItem src =>
    cases ho
    obtain ⟨j,hj⟩ := unregister_discard src xs i
    exact ⟨_,h.discard src,by rw [hj]⟩
  | getRoundRobinItem len =>
    have hlater : Lined (n + 1) bs xs :=
      ⟨h.perm,h.sorted,fun b hb => Nat.lt_succ_of_lt (h.past b hb)⟩
    obtain ⟨p,hp⟩ := ends_call hi len
    rw [Manager.act,hp.fuel _ (Nat.le_refl _)] at ho
    cases ho
    exact ⟨xs,hlater,hp.items⟩

theorem acts_lined {n : ℕ} {bs xs : List Binding} {m m' : Manager Source} (ops : List (Op Source))
    (h : Lined n bs xs) (hm : m.items = xs.map Binding.registered) (hi : Indexed m)
    (ho : m.acts ops = some m') :
    ∃ xs', Lined (n + ops.length) ((ops.zipIdx n).foldl enlist bs) xs' ∧
      m'.items = xs'.map Binding.registered := by
  induction ops generalizing n bs xs m with
  | nil =>
    cases ho
    exact ⟨xs,h,hm⟩
  | cons o ops ih =>
    obtain ⟨m₁,hm₁,hi₁⟩ := act_indexed hi o
    rw [Manager.acts,hm₁] at ho
    obtain ⟨xs₁,h₁,hx₁⟩ := act_lined h hm hi hm₁
    obtain ⟨xs',h',hx'⟩ := ih h₁ hx₁ hi₁ ho
    refine ⟨xs',?_,hx'⟩
    rw [List.length_cons,Nat.add_comm ops.length,← Nat.add_assoc]
    exact h'

theorem items_in_order {m : Manager Source} {ops : List (Op Source)}
    (h : Manager.new.acts ops = some m) :
    m.items = (inOrder (enlisted ops)).map Binding.registered := by
  have h0 : Lined 0 [] [] := ⟨.refl _,List.Pairwise.nil,(fun _ hb => by cases hb)⟩
  obtain ⟨xs,hl,hx⟩ := acts_lined ops h0 rfl new_indexed h
  rw [hx,enlisted,inOrder_eq hl.sorted hl.perm]

theorem strategies_pick_as_documented (ops : List (Op Source)) : ∃ m,
    Manager.new.acts ops = some m ∧ ∀ s len, ∃ m' r, m.next s len = some (m',r) ∧
      (∀ x, r = some x → 0 < len x ∧ Picks len ((inOrder (enlisted ops)).map Binding.src)
        m.roundRobinIndex m'.roundRobinIndex x s) ∧
      (r = none ↔ ∀ x ∈ (inOrder (enlisted ops)).map Binding.src, len x = 0) ∧
      ∀ (J E : Type) (errNoReadySource : E) (next : Source → Except E J),
        (r = none → m.pull errNoReadySource next s len = some (m',.error errNoReadySource)) ∧
        ∀ x, r = some x → m.pull errNoReadySource next s len = some (m',next x) := by
  obtain ⟨m,hm,hi⟩ := acts_indexed new_indexed ops
  have hline : m.line = (inOrder (enlisted ops)).map Binding.src := by
    rw [Manager.line,items_in_order hm,List.map_map]
    rfl
  refine ⟨m,hm,fun s len => ?_⟩
  obtain ⟨m',r,hnext,-,hanswer⟩ := next_answered hi s len
  rw [hline] at hanswer
  refine ⟨m',r,hnext,fun x hx => hanswer.some hx,hanswer.none_iff,fun J E err next => ⟨?_,?_⟩⟩
  · rintro rfl
    rw [Manager.pull,hnext,Option.map_some]
  · rintro x rfl
    rw [Manager.pull,hnext,Option.map_some]

end Varmq.Sources
