import LayeredMemory.AddressSpaces
import LayeredMemory.Proofs.Memory.FailedStores
import Std.Data.TreeMap.Lemmas

namespace LayeredMemory

namespace AddressSpaces

section

variable {δ : Type} (s : AddressSpaces δ) (key k : String)

theorem compare_eq_iff : compare key k = .eq ↔ k = key := by
  rw [Std.LawfulEqCmp.compare_eq_iff_eq]
  exact eq_comm

theorem get?_insert (m : Memory δ) : (s.insert key m).1.get? k = if k = key then some m else s.get? k := by
  change (s.bound.insert key m)[k]? = if k = key then some m else s.bound[k]?
  rw [Std.TreeMap.getElem?_insert]
  simp only [compare_eq_iff]

theorem get?_remove : (s.remove key).1.get? k = if k = key then none else s.get? k := by
  change (s.bound.erase key)[k]? = if k = key then none else s.bound[k]?
  rw [Std.TreeMap.getElem?_erase]
  simp only [compare_eq_iff]

def reached : Memory δ := (s.get? key).getD (.sparse { diagnostics := s.diagnostics })

variable [Device δ] (a : Nat) (v : Expr) (w : Width)

theorem state_store :
    (s.store key a v w).state = (s.insert key ((s.reached key).store a v w).state).1 := by
  unfold store reached
  cases s.get? key with
  | some m => rfl
  | none => rfl

theorem outcome_store :
    (s.store key a v w).report.outcome = ((s.reached key).store a v w).report.outcome := by
  unfold store reached
  cases s.get? key with
  | some m => rfl
  | none => exact Traced.outcome_bind_ok (Traced.outcome_record _) _

end

/-- Operations have led to the spaces: memories with a history were bound or taken out, and there were stores to
keys or to the memories under them, successful or not. -/
inductive Reachable : AddressSpaces Empty → Prop
  | fresh (d : Diagnostics) : Reachable { diagnostics := d }
  | insert {s : AddressSpaces Empty} {m : Memory Empty} {layers : Layers} {stored : List Expr} (h : Reachable s)
    (key : String) (hm : Memory.History m layers stored) : Reachable (s.insert key m).1
  | remove {s : AddressSpaces Empty} (h : Reachable s) (key : String) : Reachable (s.remove key).1
  | store {s : AddressSpaces Empty} (h : Reachable s) (key : String) (a : Nat) (v : Expr) (w : Width) :
    Reachable (s.store key a v w).state
  | modify {s : AddressSpaces Empty} {key : String} {a : Nat} {v : Expr} {w : Width}
    {step : Step (AddressSpaces Empty) Fault Unit} (h : Reachable s)
    (hstep : s.modify? key (·.store a v w) = some step) : Reachable step.state

variable {s : AddressSpaces Empty} {key : String}

def Valid (s : AddressSpaces Empty) : Prop := ∀ k m, s.get? k = some m → m.Valid

namespace Valid

theorem insert (h : s.Valid) {m : Memory Empty} (hm : m.Valid) (key : String) : (s.insert key m).1.Valid := by
  intro k m' hk
  rw [get?_insert] at hk
  split at hk
  · obtain rfl := Option.some.inj hk
    exact hm
  · exact h k m' hk

theorem reached (h : s.Valid) (key : String) : (s.reached key).Valid := by
  unfold AddressSpaces.reached
  cases hk : s.get? key with
  | some m => exact h key m hk
  | none => exact SparseLayer.valid_fresh s.diagnostics

end Valid

theorem Reachable.valid (h : Reachable s) : s.Valid := by
  induction h with
  | fresh d =>
    intro k m hk
    cases hk
  | insert _ key hm ih => exact ih.insert hm.tracks.valid key
  | remove _ key ih =>
    intro k m hk
    rw [get?_remove] at hk
    split at hk
    · cases hk
    · exact ih k m hk
  | @store s _ key a v w ih =>
    rw [state_store]
    exact ih.insert (Memory.valid_store (ih.reached key) a v w) key
  | @modify s key a v w step _ hstep ih =>
    obtain ⟨m, hm, rfl⟩ := Option.map_eq_some_iff.1 hstep
    exact ih.insert (Memory.valid_store (ih key m hm) a v w) key

theorem get?_store_error (h : s.Valid) {a : Nat} {v : Expr} {w : Width} {e : Fault}
    (herr : (s.store key a v w).report.outcome = .error e) (k : String) :
    (s.store key a v w).state.get? k = if k = key then some (s.reached key) else s.get? k := by
  rw [outcome_store] at herr
  rw [state_store, Memory.state_of_store_error (h.reached key) herr, get?_insert]

theorem get?_store_error_of_known (h : s.Valid) {a : Nat} {v : Expr} {w : Width} {e : Fault}
    (herr : (s.store key a v w).report.outcome = .error e) {k : String} {m : Memory Empty}
    (hk : s.get? k = some m) : (s.store key a v w).state.get? k = some m := by
  rw [get?_store_error h herr]
  split
  · rename_i heq
    rw [reached, ← heq, hk]
    rfl
  · exact hk

end AddressSpaces

/-- An image refuses a value before it looks at the range. -/
theorem store_fails_exactly {m : Memory Empty} {layers : Layers} {stored : List Expr}
    (h : Memory.History m layers stored) {s : AddressSpaces Empty} (hs : s.Reachable) (image : ImageLayer)
    (key : String) (a : Nat) (v : Expr) (w : Width) :
    ((∃ e, (m.store a v w).report.outcome = .error e) ↔
        0 < w.bytes ∧ ((m.TargetsImage ∧ ∀ c, v.fold ≠ .const c) ∨ Address.last < a + w.bytes)) ∧
      (∀ path step, m.storeAt path a v w = some step →
        (∃ e, step.report.outcome = .error e) → step.state = m) ∧
      (0 < w.bytes → (∀ c, v.fold ≠ .const c) →
        (image.tryStore a v w).report.outcome = .error (.refusal (.notConstant v.text)) ∧
          (image.tryStore a v w).state = image) ∧
      ((∃ e, (s.store key a v w).report.outcome = .error e) →
        (∀ k, (s.get? k).isSome →
          (∀ b u, (s.store key a v w).state.load k b u = s.load k b u) ∧
            (∀ b u, (s.store key a v w).state.missing k b u = s.missing k b u) ∧
            (s.store key a v w).state.blocks k = s.blocks k) ∧
          ∀ k, (s.store key a v w).state.get? k =
            if k = key ∧ s.get? key = none then some (.sparse { diagnostics := s.diagnostics })
            else s.get? k) := by
  have hvalid := hs.valid
  refine ⟨Memory.store_error_iff h.tracks.valid, ?_, ?_, ?_⟩
  · rintro path step hstep ⟨e, herr⟩
    exact Memory.state_of_storeAt_error h.tracks.valid hstep herr
  · intro hw hv
    rw [ImageLayer.tryStore_not_const hw hv]
    exact ⟨rfl, rfl⟩
  · rintro ⟨e, herr⟩
    refine ⟨fun k hk => ?_, fun k => ?_⟩
    · obtain ⟨m', hm'⟩ := Option.isSome_iff_exists.1 hk
      have hsame := AddressSpaces.get?_store_error_of_known hvalid herr hm'
      simp only [AddressSpaces.load, AddressSpaces.missing, AddressSpaces.blocks, hsame, hm', implies_true,
        and_self]
    · rw [AddressSpaces.get?_store_error hvalid herr, AddressSpaces.reached]
      by_cases hk : k = key
      · subst hk
        cases hget : s.get? k with
        | none => simp
        | some m' => simp
      · simp [hk]

theorem store_fails_exactly_at_last_address :
    let s : AddressSpaces Empty := (AddressSpaces.insert {} "io" Memory.symbolOnImage).1
    let v : Expr := .symbol "y" .w8
    s.Reachable ∧ (∃ layers stored, Memory.History Memory.symbolOnImage layers stored) ∧
      (∃ e, (Memory.symbolOnImage.store Address.last v .w8).report.outcome = .error e) ∧
      (ImageLayer.tryStore {} Address.last v .w8).report.outcome = .error (.refusal (.notConstant v.text)) ∧
      (s.store "mem" Address.last v .w8).state.get? "mem" = some (.sparse {}) ∧
      (s.store "mem" Address.last v .w8).state.blocks "io" = Memory.symbolOnImage.blocks := by
  intro s v
  have hreachable : s.Reachable := .insert (.fresh {}) "io" Memory.history_symbolOnImage
  have hw : 0 < Width.w8.bytes := by decide
  have hlast : Address.last < Address.last + Width.w8.bytes := by decide
  have hio : s.get? "io" = some Memory.symbolOnImage := by
    rw [AddressSpaces.get?_insert, if_pos rfl]
  have hmem : s.get? "mem" = none := by
    rw [AddressSpaces.get?_insert, if_neg (by decide)]
    rfl
  have hfails : ∃ e, (s.store "mem" Address.last v .w8).report.outcome = .error e := by
    rw [AddressSpaces.outcome_store, AddressSpaces.reached, hmem]
    exact ⟨_, rfl⟩
  obtain ⟨htree, -, himage, hspaces⟩ :=
    store_fails_exactly Memory.history_symbolOnImage hreachable {} "mem" Address.last v .w8
  obtain ⟨hqueries, hbound⟩ := hspaces hfails
  refine ⟨hreachable, ⟨_, _, Memory.history_symbolOnImage⟩, htree.2 ⟨hw, .inr hlast⟩, ?_, ?_, ?_⟩
  · exact (himage hw fun c hc => by cases hc).1
  · rw [hbound, if_pos ⟨rfl, hmem⟩]
    rfl
  · rw [(hqueries "io" (by rw [hio]; rfl)).2.2, AddressSpaces.blocks, hio]

end LayeredMemory
