import Varmq.Park.Order
import Mathlib.Data.List.Perm.Subperm

namespace Varmq.Park

variable {J : Type}

-- One worker's parked jobs, the purge counters and the queues that are paused.
structure State (J : Type) where
  parked : Parked J
  gens : ℕ → ℕ
  paused : ℕ → Bool

inductive Call (J : Type) where
  | park (jobs : List J) (st : Stamp)
  | unpark (k : ℕ)
  | dropParked (gen : ℕ)
  | bump (gen : ℕ)
  | pause (queue : ℕ) (on : Bool)

-- What a call did: a stale batch is closed, a drop closes what it takes out.
inductive Event (J : Type) where
  | parked (jobs : List J) (st : Stamp)
  | stale (closed : List J) (st : Stamp)
  | returned (jobs : List J) (st : Stamp)
  | dropped (gen : ℕ) (closed : List J)
  | changed

def step (s : State J) : Call J → State J × Event J
  | .park js st =>
      let (p,closed) := park s.gens s.paused s.parked js st
      ({ s with parked := p },if st.stale s.gens then .stale closed st else .parked js st)
  | .unpark k =>
      let (js,st,p) := unpark s.paused s.parked k
      ({ s with parked := p },.returned js st)
  | .dropParked gen =>
      let (closed,p) := dropParked gen s.parked
      ({ s with parked := p },.dropped gen closed)
  | .bump gen => ({ s with gens := fun g => if g = gen then s.gens g + 1 else s.gens g },.changed)
  | .pause queue on =>
      ({ s with paused := fun i => if i = queue then on else s.paused i },.changed)

-- Where the job with a dispatch number is.
inductive Place where
  | fresh
  | parked (gen : Option ℕ)
  | out
  | closed
  deriving DecidableEq, Repr

section Numbers

variable (number : J → ℕ)

def mark (f : ℕ → Place) : Event J → ℕ → Place
  | .parked js st, n => if n ∈ js.map number then .parked st.gen else f n
  | .stale js _, n => if n ∈ js.map number then .closed else f n
  | .returned js _, n => if n ∈ js.map number then .out else f n
  | .dropped _ js, n => if n ∈ js.map number then .closed else f n
  | .changed, n => f n

def place (log : List (Event J)) : ℕ → Place := log.foldl (mark number) fun _ => .fresh

-- A batch is parked with the numbers its stamp says, each of them fresh or handed out before.
def Valid (f : ℕ → Place) : Call J → Prop
  | .park js st => js ≠ [] ∧ Numbered number js st ∧
      ∀ n ∈ js.map number, f n = .fresh ∨ f n = .out
  | .unpark k => 1 ≤ k
  | _ => True

inductive Runs : State J → List (Event J) → Prop
  | start (gens : ℕ → ℕ) (paused : ℕ → Bool) : Runs ⟨.empty,gens,paused⟩ []
  | step {s : State J} {log : List (Event J)} {c : Call J} (h : Runs s log)
      (hc : Valid number (place number log) c) : Runs (step s c).1 (log ++ [(step s c).2])

end Numbers

variable {number : J → ℕ} {s : State J} {log : List (Event J)} {p q : Parked J} {f : ℕ → Place}

theorem place_concat (log : List (Event J)) (e : Event J) :
    place number (log ++ [e]) = mark number (place number log) e := by
  simp [place]

-- The parked jobs are those marked as parked, each under the counter of its batch.
structure Placed (number : J → ℕ) (f : ℕ → Place) (p : Parked J) : Prop where
  nodup : (p.jobs.map number).Nodup
  batch : ∀ b ∈ p.batches, ∀ n ∈ b.jobs.map number, f n = .parked b.stamp.gen
  listed : ∀ n g, f n = .parked g → n ∈ p.jobs.map number

theorem mem_jobs {n : ℕ} : n ∈ p.jobs.map number ↔ ∃ b ∈ p.batches, n ∈ b.jobs.map number := by
  simp only [Parked.jobs,jobsOf,List.mem_map,List.mem_flatMap]
  constructor
  · rintro ⟨j,⟨b,hb,hj⟩,rfl⟩
    exact ⟨b,hb,j,hj,rfl⟩
  · rintro ⟨b,hb,j,hj,rfl⟩
    exact ⟨j,⟨b,hb,hj⟩,rfl⟩

-- Jobs taken out of their batches, the others left under the same counters.
theorem Placed.took (h : Placed number f p) {js : List J} {g : ℕ → Place}
    (hperm : (js ++ q.jobs).Perm p.jobs)
    (hfrom : ∀ c ∈ q.batches, ∃ b ∈ p.batches, c.stamp.gen = b.stamp.gen ∧ ∀ j ∈ c.jobs, j ∈ b.jobs)
    (hin : ∀ n ∈ js.map number, ∀ a, g n ≠ .parked a)
    (hout : ∀ n, n ∉ js.map number → g n = f n) : Placed number g q := by
  have hmap := hperm.map number
  rw [List.map_append] at hmap
  have hnd := hmap.nodup_iff.mpr h.nodup
  have hapart : ∀ n ∈ q.jobs.map number, n ∉ js.map number := fun n hn hj =>
    (List.nodup_append.mp hnd).2.2 n hj n hn rfl
  refine ⟨(List.nodup_append.mp hnd).2.1,fun c hc n hn => ?_,fun n a ha => ?_⟩
  · obtain ⟨b,hb,hgen,hsub⟩ := hfrom c hc
    have hnb : n ∈ b.jobs.map number := by
      obtain ⟨j,hj,rfl⟩ := List.mem_map.mp hn
      exact List.mem_map_of_mem (hsub j hj)
    rw [hout n (hapart n (mem_jobs.mpr ⟨c,hc,hn⟩)),hgen]
    exact h.batch b hb n hnb
  · have hnj : n ∉ js.map number := fun hj => hin n hj a ha
    have hn := hmap.mem_iff.mpr (h.listed n a ((hout n hnj).symm.trans ha))
    exact (List.mem_append.mp hn).resolve_left hnj

theorem unpark_from {paused : ℕ → Bool} {k : ℕ} {c : ParkedBatch J}
    (hc : c ∈ (unpark paused p k).2.2.batches) :
    ∃ b ∈ p.batches, c.stamp.gen = b.stamp.gen ∧ ∀ j ∈ c.jobs, j ∈ b.jobs := by
  have ht := unpark_taken paused p k
  generalize unpark paused p k = r at ht hc
  cases ht with
  | none hall hq =>
    rcases hq with ⟨hq,-⟩ | hq
    · exact ⟨c,hq ▸ hc,rfl,fun j hj => hj⟩
    · exact ⟨c,(Apart.mem_sorted c).mp (hq ▸ hc),rfl,fun j hj => hj⟩
  | @some q pre post b hs hpre hb hq =>
    have hin : ∀ d ∈ pre ++ b :: post, d ∈ p.batches := fun d hd =>
      (Apart.mem_sorted d).mp (hs ▸ hd)
    rw [hq] at hc
    rcases List.mem_append.mp hc with hc | hc
    · exact ⟨c,hin c (List.mem_append_left _ hc),rfl,fun j hj => hj⟩
    · rcases List.mem_append.mp hc with hc | hc
      · obtain ⟨hj,-,hst⟩ := mem_rest hc
        refine ⟨b,hin b (List.mem_append_right _ List.mem_cons_self),by rw [hst],fun j h => ?_⟩
        rw [hj] at h
        exact List.mem_of_mem_drop h
      · exact ⟨c,hin c (List.mem_append_right _ (List.mem_cons_of_mem b hc)),rfl,fun j hj => hj⟩

theorem Placed.unpark (h : Placed number f p) (paused : ℕ → Bool) (k : ℕ) (st : Stamp) :
    Placed number (mark number f (.returned (unpark paused p k).1 st)) (unpark paused p k).2.2 := by
  refine h.took (unpark_perm paused p k) (fun c hc => unpark_from hc) (fun n hn a ha => ?_)
    fun n hn => if_neg hn
  simp only [mark,if_pos hn] at ha
  cases ha

theorem Placed.drop (h : Placed number f p) (gen : ℕ) :
    Placed number (mark number f (.dropped gen (dropParked gen p).1)) (dropParked gen p).2 := by
  refine h.took (dropParked_perm gen p)
    (fun c hc => ⟨c,List.mem_of_mem_filter hc,rfl,fun j hj => hj⟩) (fun n hn a ha => ?_)
    fun n hn => if_neg hn
  simp only [mark,if_pos hn] at ha
  cases ha

theorem not_parked {n : ℕ} (h : f n = .fresh ∨ f n = .out) {a : Option ℕ} : f n ≠ .parked a := by
  rcases h with h | h <;> rw [h] <;> exact fun he => by cases he

theorem Placed.stale (h : Placed number f p) {js : List J} (st : Stamp)
    (hf : ∀ n ∈ js.map number, f n = .fresh ∨ f n = .out) :
    Placed number (mark number f (.stale js st)) p := by
  have hkeep : ∀ n a, f n = .parked a → mark number f (.stale js st) n = .parked a := fun n a ha => by
    have hn : n ∉ js.map number := fun hn => not_parked (hf n hn) ha
    simp only [mark,if_neg hn,ha]
  refine ⟨h.nodup,fun b hb n hn => hkeep n _ (h.batch b hb n hn),fun n a ha => ?_⟩
  by_cases hn : n ∈ js.map number
  · simp only [mark,if_pos hn] at ha
    cases ha
  · simp only [mark,if_neg hn] at ha
    exact h.listed n a ha

theorem Placed.parked (h : Placed number f p) {js : List J} {st : Stamp}
    (hnum : Numbered number js st) (hf : ∀ n ∈ js.map number, f n = .fresh ∨ f n = .out)
    (hq : q.batches = p.batches ++ [⟨js,st⟩]) :
    Placed number (mark number f (.parked js st)) q := by
  have hkeep : ∀ n a, f n = .parked a → mark number f (.parked js st) n = .parked a := fun n a ha => by
    have hn : n ∉ js.map number := fun hn => not_parked (hf n hn) ha
    simp only [mark,if_neg hn,ha]
  have hjobs : q.jobs = p.jobs ++ js := by simp [Parked.jobs,hq]
  refine ⟨?_,fun b hb n hn => ?_,fun n a ha => ?_⟩
  · rw [hjobs,List.map_append]
    refine List.nodup_append.mpr ⟨h.nodup,hnum.nodup,fun n hn m hm he => ?_⟩
    obtain ⟨b,hb,hnb⟩ := mem_jobs.mp hn
    exact not_parked (hf n (he ▸ hm)) (h.batch b hb n hnb)
  · rw [hq] at hb
    rcases List.mem_append.mp hb with hb | hb
    · exact hkeep n _ (h.batch b hb n hn)
    · rw [List.mem_singleton.mp hb] at hn ⊢
      exact if_pos hn
  · rw [hjobs,List.map_append]
    by_cases hn : n ∈ js.map number
    · exact List.mem_append_right _ hn
    · simp only [mark,if_neg hn] at ha
      exact List.mem_append_left _ (h.listed n a ha)

structure Inv (number : J → ℕ) (s : State J) (f : ℕ → Place) : Prop where
  counted : s.parked.Counted
  apart : Apart number s.parked
  placed : Placed number f s.parked

theorem Inv.clear (h : Inv number s f) {js : List J} {st : Stamp} (hj : js ≠ [])
    (hnum : Numbered number js st) (hf : ∀ n ∈ js.map number, f n = .fresh ∨ f n = .out) :
    ∀ b ∈ s.parked.batches, Clear b ⟨js,st⟩ := fun b hb =>
  clear_of_disjoint (h.apart.numbered b hb) hnum (h.apart.whole b hb) hj fun n hn hm =>
    not_parked (hf n hm) (h.placed.batch b hb n hn)

theorem Inv.step (h : Inv number s f) {c : Call J} (hc : Valid number f c) :
    Inv number (step s c).1 (mark number f (step s c).2) := by
  cases c with
  | park js st =>
    obtain ⟨hj,hnum,hf⟩ := hc
    refine ⟨park_counted h.counted,h.apart.park hj hnum (h.clear hj hnum hf),?_⟩
    simp only [Park.step,Park.park]
    split
    · exact h.placed.stale st hf
    · exact h.placed.parked hnum hf rfl
  | unpark k =>
    exact ⟨unpark_counted h.counted,h.apart.unpark _ k,h.placed.unpark _ k _⟩
  | dropParked gen =>
    exact ⟨dropParked_counted h.counted,h.apart.dropParked gen,h.placed.drop gen⟩
  | bump gen => exact ⟨h.counted,h.apart,h.placed⟩
  | pause queue on => exact ⟨h.counted,h.apart,h.placed⟩

theorem Runs.inv (h : Runs number s log) : Inv number s (place number log) := by
  induction h with
  | start gens paused =>
    exact ⟨rfl,apart_empty,List.nodup_nil,(fun b hb => by cases hb),fun n g hg => by cases hg⟩
  | step h hc ih =>
    rw [place_concat]
    exact ih.step hc

-- What a call does to a job agrees with where the job was.
def Fits (number : J → ℕ) (f : ℕ → Place) : Event J → Prop
  | .parked js _ | .stale js _ => ∀ n ∈ js.map number, f n = .fresh ∨ f n = .out
  | .returned js _ => ∀ n ∈ js.map number, ∃ g, f n = .parked g
  | .dropped gen js => ∀ n ∈ js.map number, f n = .parked (some gen)
  | .changed => True

theorem Inv.fits (h : Inv number s f) {c : Call J} (hc : Valid number f c) :
    Fits number f (Park.step s c).2 := by
  cases c with
  | park js st =>
    simp only [Park.step,Park.park]
    split
    · exact hc.2.2
    · exact hc.2.2
  | unpark k =>
    intro n hn
    have hmem := ((unpark_perm s.paused s.parked k).map number).mem_iff.mp
      (List.map_append ▸ List.mem_append_left _ hn)
    obtain ⟨b,hb,hnb⟩ := mem_jobs.mp hmem
    exact ⟨_,h.placed.batch b hb n hnb⟩
  | dropParked gen =>
    intro n hn
    simp only [jobsOf,List.mem_map,List.mem_flatMap,List.mem_filter] at hn
    obtain ⟨j,⟨b,⟨hb,hgen⟩,hj⟩,rfl⟩ := hn
    have hgen : b.stamp.gen = some gen := by simpa using hgen
    rw [← hgen]
    exact h.placed.batch b hb _ (List.mem_map_of_mem hj)
  | bump gen => trivial
  | pause queue on => trivial

theorem Runs.fits (h : Runs number s log) {i : ℕ} {e : Event J} (he : log[i]? = some e) :
    Fits number (place number (log.take i)) e := by
  induction h with
  | start gens paused => cases he
  | @step s log c h hc ih =>
    by_cases hi : i < log.length
    · rw [List.getElem?_append_left hi] at he
      rw [List.take_append_of_le_length (Nat.le_of_lt hi)]
      exact ih he
    · have hlt := (List.getElem?_eq_some_iff.mp he).1
      rw [List.length_append,List.length_singleton] at hlt
      obtain rfl : i = log.length := by omega
      rw [List.getElem?_concat_length] at he
      cases he
      rw [List.take_append_of_le_length (Nat.le_refl _),List.take_length]
      exact h.inv.fits hc

theorem place_take_succ {i : ℕ} {e : Event J} (he : log[i]? = some e) :
    place number (log.take (i + 1)) = mark number (place number (log.take i)) e := by
  rw [List.take_add_one,he,Option.toList_some,place_concat]

theorem mark_parked {e : Event J} {n : ℕ} {g : Option ℕ} (h : mark number f e n = .parked g) :
    (∃ js st, e = .parked js st ∧ n ∈ js.map number) ∨ f n = .parked g := by
  cases e with
  | parked js st =>
    by_cases hn : n ∈ js.map number
    · exact .inl ⟨js,st,rfl,hn⟩
    · exact .inr (by simpa only [mark,if_neg hn] using h)
  | changed => exact .inr h
  | _ =>
    simp only [mark] at h
    split at h
    · cases h
    · exact .inr h

-- A job that is not parked now and is later was parked in between.
theorem became_parked {a b n : ℕ} {g : Option ℕ} (hb : b ≤ log.length) (hab : a ≤ b)
    (ha : ∀ g, place number (log.take a) n ≠ .parked g)
    (hp : place number (log.take b) n = .parked g) :
    ∃ m js st, a ≤ m ∧ m < b ∧ log[m]? = some (.parked js st) ∧ n ∈ js.map number := by
  induction b, hab using Nat.le_induction generalizing g with
  | base => exact absurd hp (ha g)
  | succ b hab ih =>
    have he : log[b]? = some log[b] := List.getElem?_eq_getElem (Nat.lt_of_succ_le hb)
    rw [place_take_succ he] at hp
    rcases mark_parked hp with ⟨js,st,hej,hn⟩ | hp
    · exact ⟨b,js,st,hab,Nat.lt_succ_self b,by rw [he,hej],hn⟩
    · obtain ⟨m,js,st,ham,hmb,hm⟩ := ih (Nat.le_of_succ_le hb) hp
      exact ⟨m,js,st,ham,Nat.lt_succ_of_lt hmb,hm⟩

theorem Runs.parked_between (h : Runs number s log) {i k n : ℕ} {js js' : List J} {st st' : Stamp}
    (hi : log[i]? = some (.returned js st)) (hk : log[k]? = some (.returned js' st')) (hik : i < k)
    (hn : n ∈ js.map number) (hn' : n ∈ js'.map number) :
    ∃ m js'' st'', i < m ∧ m < k ∧ log[m]? = some (.parked js'' st'') ∧ n ∈ js''.map number := by
  have hlt := (List.getElem?_eq_some_iff.mp hk).1
  have hout : place number (log.take (i + 1)) n = .out := by
    rw [place_take_succ hi]
    exact if_pos hn
  obtain ⟨g,hg⟩ := h.fits hk n hn'
  obtain ⟨m,js'',st'',him,hmk,hm⟩ := became_parked (Nat.le_of_lt hlt) (Nat.succ_le_of_lt hik)
    (fun g he => by rw [hout] at he; cases he) hg
  exact ⟨m,js'',st'',him,hmk,hm⟩

-- What has become of a parked job by the b-th call.
theorem Runs.accounted (h : Runs number s log) {i b n : ℕ} {js : List J} {st : Stamp}
    (hi : log[i]? = some (.parked js st)) (hn : n ∈ js.map number) (hib : i + 1 ≤ b)
    (hb : b ≤ log.length) :
    (∃ m js' st', i < m ∧ m < b ∧ log[m]? = some (.returned js' st') ∧ n ∈ js'.map number) ∨
    (∃ m gen js', i < m ∧ m < b ∧ log[m]? = some (.dropped gen js') ∧ st.gen = some gen ∧
      n ∈ js'.map number) ∨
    place number (log.take b) n = .parked st.gen := by
  induction b, hib using Nat.le_induction with
  | base =>
    rw [place_take_succ hi]
    exact .inr (.inr (if_pos hn))
  | succ b hib ih =>
    have he : log[b]? = some log[b] := List.getElem?_eq_getElem (Nat.lt_of_succ_le hb)
    have hlt := Nat.lt_succ_self b
    rcases ih (Nat.le_of_succ_le hb) with ⟨m,js',st',him,hmb,hm⟩ | ⟨m,gen,js',him,hmb,hm⟩ | hp
    · exact .inl ⟨m,js',st',him,Nat.lt_succ_of_lt hmb,hm⟩
    · exact .inr (.inl ⟨m,gen,js',him,Nat.lt_succ_of_lt hmb,hm⟩)
    · have hfits := h.fits he
      rw [place_take_succ he]
      generalize log[b] = e at he hfits ⊢
      cases e with
      | parked js' st' =>
        have hnot : n ∉ js'.map number := fun hm => not_parked (hfits n hm) hp
        exact .inr (.inr (by simpa only [mark,if_neg hnot] using hp))
      | stale js' st' =>
        have hnot : n ∉ js'.map number := fun hm => not_parked (hfits n hm) hp
        exact .inr (.inr (by simpa only [mark,if_neg hnot] using hp))
      | returned js' st' =>
        by_cases hm : n ∈ js'.map number
        · exact .inl ⟨b,js',st',hib,hlt,he,hm⟩
        · exact .inr (.inr (by simpa only [mark,if_neg hm] using hp))
      | dropped gen js' =>
        by_cases hm : n ∈ js'.map number
        · have hgen := hfits n hm
          rw [hp] at hgen
          cases hg : st.gen with
          | none => rw [hg] at hgen; cases hgen
          | some g =>
            rw [hg] at hgen
            cases hgen
            exact .inr (.inl ⟨b,_,js',hib,hlt,he,rfl,hm⟩)
        · exact .inr (.inr (by simpa only [mark,if_neg hm] using hp))
      | changed => exact .inr (.inr hp)

theorem Runs.stays_closed (h : Runs number s log) {a b n : ℕ} (hab : a ≤ b) (hb : b ≤ log.length)
    (ha : place number (log.take a) n = .closed) : place number (log.take b) n = .closed := by
  induction b, hab using Nat.le_induction with
  | base => exact ha
  | succ b hab ih =>
    have he : log[b]? = some log[b] := List.getElem?_eq_getElem (Nat.lt_of_succ_le hb)
    have hc := ih (Nat.le_of_succ_le hb)
    have hfits := h.fits he
    rw [place_take_succ he]
    generalize log[b] = e at hfits ⊢
    cases e with
    | parked js st =>
      have hnot : n ∉ js.map number := fun hm => by
        rcases hfits n hm with hf | hf <;> rw [hc] at hf <;> cases hf
      simpa only [mark,if_neg hnot] using hc
    | stale js st =>
      simp only [mark]
      split
      · rfl
      · exact hc
    | returned js st =>
      have hnot : n ∉ js.map number := fun hm => by
        obtain ⟨g,hg⟩ := hfits n hm
        rw [hc] at hg
        cases hg
      simpa only [mark,if_neg hnot] using hc
    | dropped gen js =>
      simp only [mark]
      split
      · rfl
      · exact hc
    | changed => exact hc

theorem parked_jobs_come_back (number : J → ℕ) (s : State J) (log : List (Event J))
    (h : Runs number s log) :
    s.parked.nParked = s.parked.jobs.length ∧
    (∀ k, 1 ≤ k → HandsOut number s.paused s.parked k (unpark s.paused s.parked k)) ∧
    (∀ (i k n : ℕ) (js js' : List J) (st st' : Stamp),
      log[i]? = some (.returned js st) → log[k]? = some (.returned js' st') → i < k → n ∈ js.map number → n ∈ js'.map number →
      ∃ m js'' st'', i < m ∧ m < k ∧ log[m]? = some (.parked js'' st'') ∧ n ∈ js''.map number) ∧
    (∀ (i n : ℕ) (js : List J) (st : Stamp), log[i]? = some (.parked js st) → n ∈ js.map number →
      (∃ m js' st', i < m ∧ log[m]? = some (.returned js' st') ∧ n ∈ js'.map number) ∨
      (∃ m gen js', i < m ∧ log[m]? = some (.dropped gen js') ∧ st.gen = some gen ∧
        n ∈ js'.map number) ∨
      n ∈ s.parked.jobs.map number) ∧
    (∀ (i n : ℕ) (js : List J) (st : Stamp), log[i]? = some (.stale js st) → n ∈ js.map number →
      ∀ m js' st', i < m → log[m]? = some (.returned js' st') → n ∉ js'.map number) := by
  refine ⟨h.inv.counted,fun k hk => h.inv.apart.handsOut hk,
    fun i k n js js' st st' hi hk hik hn hn' => h.parked_between hi hk hik hn hn',
    fun i n js st hi hn => ?_,fun i n js st hi hn m js' st' him hm hn' => ?_⟩
  · have hlt := (List.getElem?_eq_some_iff.mp hi).1
    rcases h.accounted hi hn hlt (Nat.le_refl _) with ⟨m,js',st',him,-,hm⟩ | ⟨m,gen,js',him,-,hm⟩ | hp
    · exact .inl ⟨m,js',st',him,hm⟩
    · exact .inr (.inl ⟨m,gen,js',him,hm⟩)
    · rw [List.take_length] at hp
      exact .inr (.inr (h.inv.placed.listed n _ hp))
  · have hlt := (List.getElem?_eq_some_iff.mp hm).1
    have hclosed : place number (log.take (i + 1)) n = .closed := by
      rw [place_take_succ hi]
      exact if_pos hn
    have hstill := h.stays_closed (Nat.succ_le_of_lt him) (Nat.le_of_lt hlt) hclosed
    obtain ⟨g,hg⟩ := h.fits hm n hn'
    rw [hstill] at hg
    cases hg

theorem numbered_of_map {js : List ℕ} {st : Stamp} (h : js = List.range' st.seq js.length) :
    Numbered id js st := by
  intro i j hj
  rw [h] at hj
  obtain ⟨hi,rfl⟩ := List.getElem?_eq_some_iff.mp hj
  simp

def ranged (seq : ℕ) : Stamp := ⟨some 0,0,seq,none⟩

def outOfOrder : Parked ℕ := ⟨[⟨[20,21],ranged 20⟩,⟨[0,1,2],ranged 0⟩],true,5,false⟩

def cutOnce : Parked ℕ := ⟨[⟨[2],ranged 2⟩,⟨[20,21],ranged 20⟩],false,3,false⟩

def parkedAgain : Parked ℕ :=
  ⟨[⟨[2],ranged 2⟩,⟨[20,21],ranged 20⟩,⟨[0,1],ranged 0⟩],true,5,false⟩

theorem unpark_outOfOrder :
    unpark (fun _ => false) outOfOrder 2 = ([0,1],ranged 0,cutOnce) := by
  have hs : outOfOrder.sorted = [⟨[0,1,2],ranged 0⟩,⟨[20,21],ranged 20⟩] := by
    simp [outOfOrder,Parked.sorted,List.mergeSort,List.MergeSort.Internal.splitInTwo,before,ranged]
  rw [unpark,if_neg (by simp [outOfOrder]),hs]
  rfl

def running (p : Parked ℕ) : State ℕ := ⟨p,fun _ => 0,fun _ => false⟩

def pieceLog : List (Event ℕ) :=
  [.parked [20,21] (ranged 20),.parked [0,1,2] (ranged 0),.returned [0,1] (ranged 0),
    .parked [0,1] (ranged 0)]

-- Two batches parked out of order, and the piece handed out parked again.
theorem runs_parkedAgain : Runs id (running parkedAgain) pieceLog := by
  have h1 : Runs id (running ⟨[⟨[20,21],ranged 20⟩],true,2,false⟩) (pieceLog.take 1) :=
    (Runs.start (fun _ => 0) fun _ => false).step (c := .park [20,21] (ranged 20))
      ⟨by decide,numbered_of_map rfl,by decide⟩
  have h2 : Runs id (running outOfOrder) (pieceLog.take 2) :=
    h1.step (c := .park [0,1,2] (ranged 0)) ⟨by decide,numbered_of_map rfl,by decide⟩
  have h3 : Runs id (running cutOnce) (pieceLog.take 3) := by
    have h := h2.step (c := .unpark 2) (Nat.le_succ 1)
    have hs : step (running outOfOrder) (.unpark 2) =
        (running cutOnce,.returned [0,1] (ranged 0)) := by
      simp only [step,running,unpark_outOfOrder]
    rw [hs] at h
    exact h
  exact h3.step (c := .park [0,1] (ranged 0)) ⟨by decide,numbered_of_map rfl,by decide⟩

theorem parked_jobs_come_back_again : Runs id (running parkedAgain) pieceLog ∧
    parkedAgain.nParked = parkedAgain.jobs.length ∧
    HandsOut id (fun _ => false) parkedAgain 5 (unpark (fun _ => false) parkedAgain 5) := by
  obtain ⟨hn,hout,-⟩ := parked_jobs_come_back id _ _ runs_parkedAgain
  exact ⟨runs_parkedAgain,hn,hout 5 (by decide)⟩

end Varmq.Park
