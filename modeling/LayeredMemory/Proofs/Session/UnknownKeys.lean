import LayeredMemory.Proofs.Session.Diagnostics

namespace LayeredMemory

namespace SparseLayer

variable {a : Nat} {w : Width}

theorem load_fresh (d : Diagnostics) (a : Nat) (w : Width) :
    (load { diagnostics := d } a w).outcome =
      if 0 < w.bytes ∧ Address.last < a + w.bytes then .error (.rangeOverflow a w) else .ok none := by
  unfold load
  by_cases hw : 0 < w.bytes
  · rw [if_neg (Width.not_isZero hw)]
    by_cases hlast : a + w.bytes ≤ Address.last
    · rw [if_neg fun h => Nat.not_lt.2 hlast h.2, Address.rangeEnd_ok hlast,
        Traced.outcome_bind_ok (a := a + w.bytes) rfl]
      have hgap : coveredTo a (overlapping { diagnostics := d } a (a + w.bytes)) < a + w.bytes :=
        Nat.lt_add_of_pos_right hw
      dsimp only
      rw [if_pos hgap]
      rfl
    · have hover := Nat.lt_of_not_le hlast
      rw [if_pos ⟨hw, hover⟩, Address.rangeEnd_error hover]
      rfl
  · rw [if_pos (Width.isZero_of_bytes (by omega)), if_neg fun h => hw h.1]
    rfl

theorem missing_fresh (d : Diagnostics) (a : Nat) (w : Width) :
    missing { diagnostics := d } a w = Address.requested a w := by
  by_cases hlast : a + w.bytes ≤ Address.last
  · rw [missing, Address.rangeEnd_ok hlast, Address.requested_ok hlast]
    apply congrArg Except.ok
    apply IntervalSet.ext_of_mem
    intro p
    rw [IntervalSet.mem_difference]
    apply and_iff_left
    rw [IntervalSet.mem_ofList]
    rintro ⟨i, hi, -⟩
    cases hi
  · have hover := Nat.lt_of_not_le hlast
    rw [missing, Address.requested, Address.rangeEnd_error hover]
    rfl

theorem blocks_fresh (d : Diagnostics) : blocks { diagnostics := d } = .empty := rfl

end SparseLayer

namespace AddressSpaces

variable {δ : Type}

def bindEmpty (s : AddressSpaces δ) (key : String) (d : Diagnostics) : AddressSpaces δ :=
  (s.insert key (.sparse { diagnostics := d })).1

variable {s : AddressSpaces δ} {key : String}

theorem get?_bindEmpty (s : AddressSpaces δ) (key k : String) (d : Diagnostics) :
    (s.bindEmpty key d).get? k = if k = key then some (.sparse { diagnostics := d }) else s.get? k :=
  get?_insert ..

theorem reached_bindEmpty (h : s.get? key = none) (d : Diagnostics) :
    (s.reached key).Alike ((s.bindEmpty key d).reached key) := by
  rw [reached, reached, h, get?_bindEmpty, if_pos rfl]
  exact .fresh s.diagnostics d

variable [Device δ]

theorem store_bindEmpty (h : s.Alike s) (hkey : s.get? key = none) (d : Diagnostics) (a : Nat) (v : Expr) (w : Width) :
    (s.store key a v w).state.Alike ((s.bindEmpty key d).store key a v w).state ∧
      (s.store key a v w).report.outcome = ((s.bindEmpty key d).store key a v w).report.outcome := by
  obtain ⟨hstate, hreport⟩ := (reached_bindEmpty hkey d).store a v w
  constructor
  · intro k
    rw [state_store, state_store, get?_insert, get?_insert, get?_bindEmpty]
    by_cases hk : k = key
    · rw [if_pos hk, if_pos hk]
      exact .some hstate
    · rw [if_neg hk, if_neg hk, if_neg hk]
      exact h k
  · rw [outcome_store, outcome_store, hreport]

end AddressSpaces

namespace Session

variable {δ : Type} [Device δ]

theorem outcomes_eq_of_agree {l l' : List (Traced Failure Answer)} (h : List.Forall₂ Traced.Agree l l') :
    l.map (·.outcome) = l'.map (·.outcome) := by
  induction h with
  | nil => rfl
  | cons hreport _ ih => rw [List.map_cons, List.map_cons, hreport.outcome, ih]

theorem outcome_ofKey {x y : Traced Fault AddressSpaces.Answer} (h : x.outcome = y.outcome) :
    (do return .ofKey (← x) : Traced Failure Answer).outcome =
      (do return .ofKey (← y) : Traced Failure Answer).outcome := by
  rw [Traced.outcome_bind, Traced.outcome_bind]
  exact congrArg (fun outcome => outcome.mapError Failure.fault >>= _) h

theorem store_unknown {σ : Session δ} (h : σ.Alike σ) {n : Nat} {s : AddressSpaces δ} (hs : σ.spaces n = some s)
    {key : String} (hkey : s.get? key = none) (fresh d d' : Diagnostics) (a : Nat) (v : Expr) (w : Width) (dest : Nat) :
    let σ' := σ.putSpaces n (s.bindEmpty key fresh)
    let store : Command δ := .ask n key (.store a v w) dest
    (σ.execute d store).state.Alike (σ'.execute d' store).state ∧
      (σ.execute d store).report.outcome = (σ'.execute d' store).report.outcome := by
  intro σ' store
  have hsound : s.Alike s := by
    have hspaces := h.spaces n
    rw [hs] at hspaces
    cases hspaces with
    | some hss => exact hss
  obtain ⟨hstate, houtcome⟩ := AddressSpaces.store_bindEmpty hsound hkey fresh a v w
  have hs' : σ'.spaces n = some (s.bindEmpty key fresh) := if_pos rfl
  simp only [store, execute, hs, hs', AddressSpaces.Request.resolve, Option.map_some, AddressSpaces.respond, take]
  constructor
  · refine ⟨h.memories, fun k => ?_⟩
    by_cases hk : k = n
    · simp only [putSpaces, if_pos hk]
      exact .some hstate
    · simp only [σ', putSpaces, if_neg hk]
      exact h.spaces k
  · have hreply : ((s.store key a v w).report >>= fun _ => return AddressSpaces.Answer.done).outcome =
        (((s.bindEmpty key fresh).store key a v w).report >>= fun _ => return AddressSpaces.Answer.done).outcome := by
      rw [Traced.outcome_bind, Traced.outcome_bind, houtcome]
    exact outcome_ofKey hreply

/-- An unknown key acts as an empty sparse layer, but for loads past the end of the address space. -/
theorem unknown_key_acts_empty (d : Nat → Diagnostics) (program : List (Command δ)) {n : Nat} {s : AddressSpaces δ}
    (hs : (after {} d program).spaces n = some s) {key : String} (hkey : s.get? key = none) (fresh : Diagnostics) :
    let σ : Session δ := after {} d program
    let bound := s.bindEmpty key fresh
    (∀ a w, w.bytes = 0 ∨ a + w.bytes ≤ Address.last → (s.load key a w).outcome = (bound.load key a w).outcome) ∧
      (∀ a w, 0 < w.bytes → Address.last < a + w.bytes →
        (s.load key a w).outcome = .ok none ∧ (bound.load key a w).outcome = .error (.rangeOverflow a w)) ∧
      (∀ a w, s.missing key a w = bound.missing key a w) ∧
      s.blocks key = bound.blocks key ∧
      ∀ a v w dest later d₁ d₂,
        (σ.reports d₁ (.ask n key (.store a v w) dest :: later)).map (·.outcome) =
          ((σ.putSpaces n bound).reports d₂ (.ask n key (.store a v w) dest :: later)).map (·.outcome) := by
  intro σ bound
  have hbound : bound.get? key = some (.sparse { diagnostics := fresh }) := by
    rw [AddressSpaces.get?_bindEmpty, if_pos rfl]
  have hload : ∀ a w, (s.load key a w).outcome = .ok none := by
    intro a w
    rw [AddressSpaces.load, hkey]
    rfl
  have hload' : ∀ a w, (bound.load key a w).outcome =
      if 0 < w.bytes ∧ Address.last < a + w.bytes then .error (.rangeOverflow a w) else .ok none := by
    intro a w
    rw [AddressSpaces.load, hbound]
    exact SparseLayer.load_fresh fresh a w
  refine ⟨?_, ?_, ?_, ?_, ?_⟩
  · intro a w hfit
    rw [hload, hload', if_neg (by omega)]
  · intro a w hw hlast
    exact ⟨hload a w, (hload' a w).trans (if_pos ⟨hw, hlast⟩)⟩
  · intro a w
    rw [AddressSpaces.missing, AddressSpaces.missing, hkey, hbound]
    exact (SparseLayer.missing_fresh fresh a w).symm
  · rw [AddressSpaces.blocks, AddressSpaces.blocks, hkey, hbound]
    exact (SparseLayer.blocks_fresh fresh).symm
  · intro a v w dest later d₁ d₂
    have hsound : σ.Alike σ := (Alike.fresh.run d d program).1
    obtain ⟨hstate, houtcome⟩ := store_unknown hsound hs hkey fresh (d₁ 0) (d₂ 0) a v w dest
    rw [reports, reports, List.map_cons, List.map_cons, houtcome]
    exact congrArg _ (outcomes_eq_of_agree (hstate.run _ _ later).2)

theorem unknown_key_acts_empty_beside_known :
    let v : Expr := .symbol "x" .w8
    let program : List (Command Empty) := [.spaces 0, .ask 0 "io" (.store 0 v .w8) 0]
    let later : List (Command Empty) := [.ask 0 "mem" (.load 4 .w8) 0, .keys 0]
    ∃ s, (after {} (fun _ => .strict) program).spaces 0 = some s ∧ s.get? "mem" = none ∧
      (s.load "mem" Address.last .w16).outcome = .ok none ∧
      ((s.bindEmpty "mem" .fast).load "mem" Address.last .w16).outcome = .error (.rangeOverflow Address.last .w16) ∧
      s.missing "mem" Address.last .w16 = (s.bindEmpty "mem" .fast).missing "mem" Address.last .w16 ∧
      ((after {} (fun _ => .strict) program).reports (fun _ => .fast) (.ask 0 "mem" (.store 4 v .w8) 0 :: later)).map
          (·.outcome) =
        (((after {} (fun _ => .strict) program).putSpaces 0 (s.bindEmpty "mem" .fast)).reports (fun _ => .strict)
          (.ask 0 "mem" (.store 4 v .w8) 0 :: later)).map (·.outcome) := by
  intro v program later
  let s : AddressSpaces Empty := (AddressSpaces.store { diagnostics := .strict } "io" 0 v .w8).state
  have hs : (after {} (fun _ => .strict) program).spaces 0 = some s := rfl
  have hkey : s.get? "mem" = none := by
    unfold s
    rw [AddressSpaces.state_store, AddressSpaces.get?_insert, if_neg (by decide)]
    rfl
  obtain ⟨-, hpast, hmissing, -, hstores⟩ := unknown_key_acts_empty (fun _ => .strict) program hs hkey .fast
  obtain ⟨hload, hload'⟩ := hpast Address.last .w16 (by decide) (by decide)
  exact ⟨s, hs, hkey, hload, hload', hmissing Address.last .w16, hstores 4 v .w8 0 later _ _⟩

/-- Two bytes at the last address: no memory finds nothing there, and an empty one fails. -/
theorem load_past_end_of_unknown_key :
    let s : AddressSpaces Empty := {}
    s.get? "mem" = none ∧
      (s.load "mem" Address.last .w16).outcome ≠ ((s.bindEmpty "mem" {}).load "mem" Address.last .w16).outcome := by
  intro s
  have hbound : (s.bindEmpty "mem" {}).get? "mem" = some (.sparse {}) := by
    rw [AddressSpaces.get?_bindEmpty, if_pos rfl]
  have hload : ((s.bindEmpty "mem" {}).load "mem" Address.last .w16).outcome =
      .error (.rangeOverflow Address.last .w16) := by
    rw [AddressSpaces.load, hbound]
    exact (SparseLayer.load_fresh {} Address.last .w16).trans (if_pos (by decide))
  refine ⟨rfl, ?_⟩
  rw [hload]
  intro hnone
  cases hnone

end Session

end LayeredMemory
