import LayeredMemory.Proofs.Spaces.FailedStores

namespace LayeredMemory

namespace AddressSpaces

inductive Request (μ : Type)
  | load (a : Nat) (w : Width)
  | store (a : Nat) (v : Expr) (w : Width)
  | missing (a : Nat) (w : Width)
  | blocks
  | insert (m : μ)
  | remove
  | get
  | storeThrough (a : Nat) (v : Expr) (w : Width)

inductive Answer
  | done
  | value (e : Option Expr)
  | addresses (set : IntervalSet Nat)
  | found (known : Bool)
  deriving DecidableEq

structure Reply (δ : Type) where
  report : Traced Fault Answer
  memory? : Option (Memory δ) := none

structure Call (δ : Type) where
  key : String
  request : Request (Memory δ)

def Request.Binds {μ : Type} : Request μ → Prop
  | .store .. | .insert _ => True
  | _ => False

variable {δ : Type} {s s' : AddressSpaces δ} {key k : String} {calls : List (Call δ)}

def StaysBound (calls : List (Call δ)) (key : String) : Prop :=
  ∃ earlier c later, calls = earlier ++ c :: later ∧ c.key = key ∧ c.request.Binds ∧
    ∀ c' ∈ later, c'.key = key → c'.request ≠ .remove

theorem staysBound_cons {c : Call δ} : StaysBound (c :: calls) key ↔
    (c.key = key ∧ c.request.Binds ∧ ∀ c' ∈ calls, c'.key = key → c'.request ≠ .remove) ∨ StaysBound calls key := by
  constructor
  · rintro ⟨earlier, c', later, hcalls, hkey, hbinds, hlater⟩
    cases earlier with
    | nil =>
      obtain ⟨rfl, rfl⟩ := List.cons.inj hcalls
      exact .inl ⟨hkey, hbinds, hlater⟩
    | cons _ earlier => exact .inr ⟨earlier, c', later, (List.cons.inj hcalls).2, hkey, hbinds, hlater⟩
  · rintro (⟨hkey, hbinds, hlater⟩ | ⟨earlier, c', later, rfl, hkey, hbinds, hlater⟩)
    · exact ⟨[], c, calls, rfl, hkey, hbinds, hlater⟩
    · exact ⟨c :: earlier, c', later, rfl, hkey, hbinds, hlater⟩

theorem mem_keys : key ∈ s.keys ↔ (s.get? key).isSome := by
  rw [keys, Std.TreeMap.mem_keys, Std.TreeMap.mem_iff_isSome_getElem?]
  exact Iff.rfl

theorem ascending_keys (s : AddressSpaces δ) : s.keys.Pairwise (· < ·) := by
  apply (Std.TreeMap.ordered_keys (t := s.bound)).imp
  intro k k' h
  exact compareOfLessAndEq_eq_lt.1 h

structure AgreeOn (key : String) (s s' : AddressSpaces δ) : Prop where
  diagnostics : s.diagnostics = s'.diagnostics
  memory : s.get? key = s'.get? key

namespace AgreeOn

theorem reached (h : AgreeOn key s s') : s.reached key = s'.reached key := by
  rw [AddressSpaces.reached, h.memory, h.diagnostics, AddressSpaces.reached]

theorem bind (h : AgreeOn key s s') (m : Memory δ) : AgreeOn key (s.insert key m).1 (s'.insert key m).1 where
  diagnostics := h.diagnostics
  memory := by rw [get?_insert, get?_insert, if_pos rfl, if_pos rfl]

end AgreeOn

variable [Device δ]

def respond (s : AddressSpaces δ) (key : String) : Request (Memory δ) → AddressSpaces δ × Reply δ
  | .load a w => (s, { report := return .value (← s.load key a w) })
  | .store a v w =>
    let step := s.store key a v w
    (step.state, { report := step.report >>= fun _ => return .done })
  | .missing a w => (s, { report := return .addresses (← s.missing key a w) })
  | .blocks => (s, { report := return .addresses (s.blocks key) })
  | .insert m =>
    let (s', old?) := s.insert key m
    (s', { report := return .found old?.isSome, memory? := old? })
  | .remove =>
    let (s', old?) := s.remove key
    (s', { report := return .found old?.isSome, memory? := old? })
  | .get => (s, { report := return .found (s.get? key).isSome, memory? := s.get? key })
  | .storeThrough a v w =>
    match s.modify? key (·.store a v w) with
    | none => (s, { report := return .found false })
    | some step => (step.state, { report := step.report >>= fun _ => return .found true })

def after (s : AddressSpaces δ) (calls : List (Call δ)) : AddressSpaces δ :=
  calls.foldl (fun s c => (s.respond c.key c.request).1) s

def replies (s : AddressSpaces δ) : List (Call δ) → List (String × Reply δ)
  | [] => []
  | c :: rest => (c.key, (s.respond c.key c.request).2) :: replies (s.respond c.key c.request).1 rest

namespace AgreeOn

theorem store (h : AgreeOn key s s') (a : Nat) (v : Expr) (w : Width) :
    AgreeOn key (s.store key a v w).state (s'.store key a v w).state ∧
      (s.store key a v w).report = (s'.store key a v w).report := by
  constructor
  · rw [state_store, state_store, h.reached]
    exact h.bind _
  · rw [AddressSpaces.store, AddressSpaces.store, h.memory, h.diagnostics]
    cases s'.get? key with
    | some m => rfl
    | none => rfl

theorem respond (h : AgreeOn key s s') (r : Request (Memory δ)) :
    AgreeOn key (s.respond key r).1 (s'.respond key r).1 ∧ (s.respond key r).2 = (s'.respond key r).2 := by
  cases r with
  | load a w =>
    refine ⟨h, ?_⟩
    simp only [AddressSpaces.respond, AddressSpaces.load, h.memory]
  | store a v w =>
    obtain ⟨hstate, hreport⟩ := h.store a v w
    refine ⟨hstate, ?_⟩
    simp only [AddressSpaces.respond, hreport]
  | missing a w =>
    refine ⟨h, ?_⟩
    simp only [AddressSpaces.respond, AddressSpaces.missing, h.memory]
  | blocks =>
    refine ⟨h, ?_⟩
    simp only [AddressSpaces.respond, AddressSpaces.blocks, h.memory]
  | insert m =>
    refine ⟨h.bind m, ?_⟩
    simp only [AddressSpaces.respond, AddressSpaces.insert, h.memory]
  | remove =>
    refine ⟨⟨h.diagnostics, ?_⟩, ?_⟩
    · simp only [AddressSpaces.respond, get?_remove, if_true]
    · simp only [AddressSpaces.respond, AddressSpaces.remove, h.memory]
  | get =>
    refine ⟨h, ?_⟩
    simp only [AddressSpaces.respond, h.memory]
  | storeThrough a v w =>
    simp only [AddressSpaces.respond, modify?, h.memory]
    cases s'.get? key with
    | none => exact ⟨h, rfl⟩
    | some m => exact ⟨h.bind _, rfl⟩

end AgreeOn

theorem diagnostics_respond (s : AddressSpaces δ) (key : String) (r : Request (Memory δ)) :
    (s.respond key r).1.diagnostics = s.diagnostics := by
  cases r with
  | store a v w =>
    simp only [respond, state_store]
    rfl
  | storeThrough a v w =>
    simp only [respond, modify?]
    cases s.get? key with
    | none => rfl
    | some m => rfl
  | _ => rfl

theorem get?_respond_of_ne (hne : k ≠ key) (r : Request (Memory δ)) :
    (s.respond key r).1.get? k = s.get? k := by
  cases r with
  | store a v w => simp only [respond, state_store, get?_insert, if_neg hne]
  | insert m => simp only [respond, get?_insert, if_neg hne]
  | remove => simp only [respond, get?_remove, if_neg hne]
  | storeThrough a v w =>
    simp only [respond, modify?]
    cases s.get? key with
    | none => rfl
    | some m => exact (get?_insert ..).trans (if_neg hne)
  | _ => rfl

theorem isSome_get?_respond (r : Request (Memory δ)) :
    ((s.respond key r).1.get? key).isSome ↔ r.Binds ∨ (r ≠ .remove ∧ (s.get? key).isSome) := by
  cases r with
  | store a v w => simp [respond, state_store, get?_insert, Request.Binds]
  | insert m => simp [respond, get?_insert, Request.Binds]
  | remove => simp [respond, get?_remove, Request.Binds]
  | storeThrough a v w =>
    simp only [respond, modify?]
    cases hget : s.get? key with
    | none => simp [hget, Request.Binds]
    | some m => simp [Step.inside, get?_insert, Request.Binds]
  | _ => simp [respond, Request.Binds]

theorem filter_replies (h : AgreeOn key s s') :
    (s.replies calls).filter (fun reply => decide (reply.1 = key)) =
      s'.replies (calls.filter fun c => decide (c.key = key)) := by
  -- the run without the other calls lags behind in `s'`, which is the same under `key`
  induction calls generalizing s s' with
  | nil => rfl
  | cons c calls ih =>
    obtain ⟨k, r⟩ := c
    by_cases hkey : k = key
    · subst hkey
      obtain ⟨hstate, hreply⟩ := h.respond r
      rw [replies, List.filter_cons_of_pos (by simp), List.filter_cons_of_pos (by simp), replies, ih hstate, hreply]
    · have hframe : AgreeOn key (s.respond k r).1 s' :=
        ⟨(diagnostics_respond s k r).trans h.diagnostics, (get?_respond_of_ne (Ne.symm hkey) r).trans h.memory⟩
      rw [replies, List.filter_cons_of_neg (by simpa using hkey), List.filter_cons_of_neg (by simpa using hkey),
        ih hframe]

theorem isSome_get?_after : ((s.after calls).get? key).isSome ↔
    StaysBound calls key ∨ ((s.get? key).isSome ∧ ∀ c ∈ calls, c.key = key → c.request ≠ .remove) := by
  induction calls generalizing s with
  | nil =>
    constructor
    · intro h
      exact .inr ⟨h, fun c hc => by cases hc⟩
    · rintro (⟨earlier, c, later, hnil, -⟩ | ⟨h, -⟩)
      · simp at hnil
      · exact h
  | cons c calls ih =>
    change ((after _ calls).get? key).isSome ↔ _
    rw [ih, staysBound_cons, List.forall_mem_cons]
    by_cases hkey : c.key = key
    · subst hkey
      rw [isSome_get?_respond]
      simp only [true_and, true_implies]
      generalize StaysBound calls c.key = stays, (∀ c' ∈ calls, c'.key = c.key → c'.request ≠ .remove) = kept
      grind
    · rw [get?_respond_of_ne (Ne.symm hkey)]
      simp only [hkey, false_and, false_or, false_implies, true_and]

theorem keys_do_not_interfere (d : Diagnostics) (calls : List (Call δ)) :
    let fresh : AddressSpaces δ := { diagnostics := d }
    (∀ key, (fresh.replies calls).filter (fun reply => decide (reply.1 = key)) =
        fresh.replies (calls.filter fun c => decide (c.key = key))) ∧
      (fresh.after calls).keys.Pairwise (· < ·) ∧
      ∀ key, key ∈ (fresh.after calls).keys ↔ StaysBound calls key := by
  intro fresh
  refine ⟨fun key => filter_replies ⟨rfl, rfl⟩, ascending_keys _, fun key => ?_⟩
  have hunbound : fresh.get? key = none := rfl
  rw [mem_keys, isSome_get?_after, hunbound]
  simp

end AddressSpaces

end LayeredMemory
