import Varmq.Topics.Reads

namespace Varmq.Topics

open Interleaving

variable {T : Type} {s : Log T} {r r' : Plain T} {a : Call T} {v : Ret T} {l : Thread T}

theorem result_stops (s : Log T) (l : Thread T) (h : (result l).isSome = true) : step s l () = none := by
  unfold result at h
  split at h <;> first | rfl | cases h

theorem alone_refines (h : Ends (fun s' w => w = v ∧ Matches s' r') s l) :
    ∃ n s', Refines s' r' ∧ ∀ f ≥ n, (program T).alone () result f s l = some (s',v) := by
  have hl : (program T).Leads () (fun s l => ∃ w, result l = some w ∧
      (Inv s [] ∧ w = v ∧ Matches s r')) s l := h
  obtain ⟨n,s',w,⟨hi,rfl,hm⟩,hall⟩ :=
    Program.alone_of_leads (Q := fun s w => Inv s [] ∧ w = v ∧ Matches s r') hl result_stops
  exact ⟨n,s',⟨hi,hm⟩,hall⟩

theorem close_log_ends (h : Refines s r) :
    Ends (fun s' w => w = .done ∧ Matches s' { r with closed := true }) s (.close false) := by
  have hi : Inv s [.close false] := inv_call h.inv trivial
  refine ends_step hi rfl fun _ hi => ends_done hi trivial rfl ⟨rfl,?_⟩
  obtain ⟨h1,h2,-,h4,h5,h6,h7,h8⟩ := h.view
  exact ⟨h1,h2,rfl,h4,h5,h6,h7,h8⟩

-- The bound may change between two calls, whatever it is.
theorem inv_limit (h : Inv s []) (n : ℕ) : Inv { s with limit := n } [] := by
  obtain ⟨hchain,h2,h3,h4,h5,h6,-,-,-,h10,h11,h12,h13,h14,h15⟩ := h
  have he : Ext s { s with limit := n } :=
    ⟨Nat.le_refl _,Nat.le_refl _,List.prefix_refl _,id,fun _ => id⟩
  exact ⟨⟨hchain.made,hchain.tail,hchain.empty,hchain.head⟩,h2,h3,h4,h5,h6,(fun _ _ h => by cases h),
    (fun _ h => by cases h),(fun _ _ h => by cases h),
    (fun c hc => (h10 c hc).mono he),h11,h12,h13,h14,h15⟩

theorem call_refines (h : Refines s r) (hr : r.call a = some (r',v)) :
    ∃ n s', Refines s' r' ∧ ∀ f ≥ n, s.call f a = some (s',v) := by
  have hm : s.mx = false := one_eq_zero h.inv.log
  cases a with
  | newCursor => exact alone_refines (new_ends h hr)
  | newConsumer => exact alone_refines (new_ends h hr)
  | append x => exact alone_refines (append_ends h hr)
  | dequeue c => exact alone_refines (dequeue_ends h hr)
  | values c => exact alone_refines (values_ends h hr)
  | purge c => exact alone_refines (purge_ends h hr)
  | closeCursor c => exact alone_refines (close_ends h hr)
  | close =>
    cases hr
    exact alone_refines (close_log_ends h)
  | setLimit n =>
    cases hr
    obtain ⟨h1,-,h3,h4,h5,h6,h7,h8⟩ := h.view
    refine ⟨0,{ s with limit := (max 0 n).toNat },⟨inv_limit h.inv _,h1,rfl,h3,h4,h5,h6,h7,h8⟩,
      fun f _ => ?_⟩
    simp only [Log.call,hm,Bool.false_eq_true,if_false]
  | full =>
    cases hr
    refine ⟨0,s,h,fun f _ => ?_⟩
    simp only [Log.call,hm,Bool.false_eq_true,if_false,full_matches h.view h.inv.chain.head]
  | len c =>
    obtain ⟨rd,hrd,heq⟩ := Option.map_eq_some_iff.mp hr
    cases heq
    refine ⟨0,s,h,fun f _ => ?_⟩
    have hcur := reader_at h.view hrd
    have hopen : (s.cursor c).chunk.isSome = rd.isOpen := congrArg Reader.isOpen hcur
    have hoff : (s.cursor c).offset = rd.offset := congrArg Reader.offset hcur
    simp only [Log.call,Log.len,Log.unread,hoff,h.inv.chain.head,h.view.items,← hopen]
    cases (s.cursor c).chunk <;> rfl

theorem calls_refine {as : List (Call T)} {vs : List (Ret T)} (h : Refines s r)
    (hr : r.calls as = some (r',vs)) :
    ∃ n s', Refines s' r' ∧ ∀ f ≥ n, s.calls f as = some (s',vs) := by
  induction as generalizing s r vs with
  | nil =>
    cases hr
    exact ⟨0,s,h,fun _ _ => rfl⟩
  | cons a as ih =>
    simp only [Plain.calls] at hr
    split at hr
    · cases hr
    · rename_i r₁ v₁ hcall
      obtain ⟨⟨r₂,vs₂⟩,hrest,heq⟩ := Option.map_eq_some_iff.mp hr
      cases heq
      obtain ⟨n,s₁,h₁,hn⟩ := call_refines h hcall
      obtain ⟨m,s₂,h₂,hm⟩ := ih h₁ hrest
      refine ⟨max n m,s₂,h₂,fun f hf => ?_⟩
      rw [Log.calls,hn f (Nat.le_trans (Nat.le_max_left _ _) hf)]
      simp only [hm f (Nat.le_trans (Nat.le_max_right _ _) hf),Option.map_some]

theorem refines_new (limit : ℕ) : Refines (newBoundedLog limit : Log T) (Plain.new limit) :=
  ⟨inv_new limit,rfl,rfl,rfl,rfl,rfl,(fun _ _ o ho => absurd ho (Nat.not_lt_zero o)),
    (fun _ h => by cases h),fun _ => rfl⟩

theorem chunked_log_refines_list {limit : ℕ} {as : List (Call T)} {vs : List (Ret T)}
    (h : (Plain.new limit).calls as = some (r,vs)) :
    ∃ n s, (∀ f ≥ n, (newBoundedLog limit : Log T).calls f as = some (s,vs)) ∧ Refines s r ∧
      ∀ c, (s.cursor c).consume = true → ∀ o < (s.cursor c).offset, s.slot o = none := by
  obtain ⟨n,s,hs,hn⟩ := calls_refine (refines_new limit) h
  exact ⟨n,s,hn,hs,hs.view.cleared⟩

-- A consumer on a log of limit 2, which is raised to 3 and then closed.
def consumerCalls : List (Call ℕ) :=
  [.append 5,.newConsumer,.append 6,.append 7,.append 8,.full,.setLimit 3,.append 8,.values 0,
    .dequeue 0,.len 0,.purge 0,.dequeue 0,.close,.append 9,.closeCursor 0,.len 0]

def consumerRets : List (Ret ℕ) :=
  [.count 0,.cursor 0,.count 1,.count 1,.count 0,.flag true,.done,.count 1,
    .items [some 6,some 7,some 8],.items [some 6],.count 2,.items [some 7,some 8],.items [],.done,
    .count 0,.items [],.count 0]

theorem chunked_log_refines_list_consumer : ∃ n s, ∀ f ≥ n,
    (newBoundedLog 2 : Log ℕ).calls f consumerCalls = some (s,consumerRets) := by
  have h : (Plain.new 2).calls consumerCalls = some (⟨[6,7,8],3,true,[⟨3,false,true⟩]⟩,consumerRets) := rfl
  obtain ⟨n,s,hn,-⟩ := chunked_log_refines_list h
  exact ⟨n,s,hn⟩

end Varmq.Topics
