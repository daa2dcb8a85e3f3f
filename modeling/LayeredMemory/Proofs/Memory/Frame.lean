import LayeredMemory.Proofs.Image.Runs
import LayeredMemory.Proofs.Lists
import LayeredMemory.Proofs.Memory.Equivalence
import LayeredMemory.Proofs.Memory.FailedStores
import LayeredMemory.Proofs.Sparse.Frame

namespace LayeredMemory

namespace ImageLayer

variable {m n : ImageLayer} {a b : Nat} {v : Expr} {w u : Width}

theorem byteIn_store_of_not_mem (h : m.Valid) {p : Nat} (hp : p ∉ Address.range a w) :
    Block.byteIn (m.store a v w).state.blocks p = Block.byteIn m.blocks p := by
  cases store_cases h a v w with
  | empty _ _ hstate => rw [hstate]
  | refused _ _ hstate => rw [hstate]
  | written _ _ _ _ hbyte =>
    rw [hbyte]
    exact if_neg hp

theorem load_congr (hm : m.Valid) (hn : n.Valid) (hw : 0 < w.bytes) (hlast : a + w.bytes ≤ Address.last)
    (h : ∀ p, a ≤ p → p < a + w.bytes → Block.byteIn m.blocks p = Block.byteIn n.blocks p) :
    (m.load a w).outcome = (n.load a w).outcome := by
  obtain ⟨r, hr, hsome, hvalue⟩ := load_bytes hm hw hlast
  obtain ⟨t, ht, hsome', hvalue'⟩ := load_bytes hn hw hlast
  have hboth : r.isSome ↔ t.isSome := by
    rw [hsome, hsome']
    constructor
    · intro hall p hlo hhi
      rw [← h p hlo hhi]
      exact hall p hlo hhi
    · intro hall p hlo hhi
      rw [h p hlo hhi]
      exact hall p hlo hhi
  rw [hr, ht]
  apply congrArg Except.ok
  apply Option.ext_of_isSome hboth
  intro e f he hf
  obtain ⟨c, rfl, hcw, hc⟩ := hvalue e he
  obtain ⟨d, rfl, hdw, hd⟩ := hvalue' f hf
  apply congrArg Expr.const
  apply Constant.ext_of_getElem?_bytes (hcw.trans hdw.symm)
  intro i hi
  rw [hcw] at hi
  have hci := hc (a + i) (by omega) (by omega)
  have hdi := hd (a + i) (by omega) (by omega)
  rw [Nat.add_sub_cancel_left] at hci hdi
  rw [hci, hdi, h (a + i) (by omega) (by omega)]

theorem load_store_apart (h : m.Valid) (hapart : Address.Apart a w b u) (hlast : b + u.bytes ≤ Address.last) :
    ((m.store a v w).state.load b u).outcome = (m.load b u).outcome := by
  by_cases hu : 0 < u.bytes
  · apply load_congr (valid_store h a v w) h hu hlast
    intro p hlo hhi
    exact byteIn_store_of_not_mem h fun hin => hapart p ⟨hin, hlo, hhi⟩
  · have hzero : u.bytes = 0 := by omega
    rw [load_zero _ hzero, load_zero _ hzero]

end ImageLayer

namespace Memory

variable {m : Memory Empty} {base top top' : Loads} {layers : Layers} {stored : List Expr} {a b : Nat} {v : Expr}
  {w u : Width} {path : List Side}

theorem held_store_of_not_mem (h : m.Valid) {p : Nat} (hp : p ∉ Address.range a w) :
    (m.store a v w).state.held p = m.held p := by
  induction m with
  | sparse m =>
    by_cases hfit : w.bytes = 0 ∨ a + w.bytes ≤ Address.last
    · obtain ⟨-, -, hheld⟩ := SparseLayer.store_ok h hfit v
      change (m.store a v w).state.held p = m.held p
      rw [hheld]
      exact if_neg hp
    · have hsame : (m.store a v w).state = m := (SparseLayer.store_overflow (by omega) (by omega) v).1
      change (m.store a v w).state.held p = m.held p
      rw [hsame]
  | image m => exact congrArg (Option.map ValueByte.ofByte) (ImageLayer.byteIn_store_of_not_mem h hp)
  | overlay base top _ iht =>
    change (top.store a v w).state.held.onto base.held p = top.held.onto base.held p
    rw [Contents.onto, Contents.onto, iht h.2]
  | device d => cases d

theorem missing_store_apart (h : m.Valid) (hapart : Address.Apart a w b u) (hlast : b + u.bytes ≤ Address.last) :
    (m.store a v w).state.missing b u = m.missing b u := by
  obtain ⟨s, hs, hmem⟩ := (answers h).missing b u hlast
  obtain ⟨t, ht, hmem'⟩ := (answers (valid_store h a v w)).missing b u hlast
  have hsame : t = s := by
    apply IntervalSet.ext_of_mem
    intro p
    rw [hmem, hmem']
    apply and_congr_right
    intro hp
    rw [held_store_of_not_mem h fun hin => hapart p ⟨hin, hp⟩]
  rw [hsame] at ht
  exact ht.trans hs.symm

theorem readPieces_congr {load load' : Loads} {l : List (Interval Nat)}
    (h : ∀ i ∈ l, ∀ w, w.bytes = i.hi - i.lo → (load i.lo w).outcome = (load' i.lo w).outcome) :
    (readPieces load l).outcome = (readPieces load' l).outcome := by
  induction l with
  | nil => rfl
  | cons i rest ih =>
    have hrest := ih fun j hj => h j (.tail _ hj)
    rw [readPieces, readPieces]
    cases hwidth : Address.widthOf (i.hi - i.lo) with
    | error e => rfl
    | ok width =>
      have hload := h i (by simp) width (Address.bytes_of_widthOf hwidth)
      rw [Traced.outcome_bind_ok (Traced.outcome_liftM _), Traced.outcome_bind_ok (Traced.outcome_liftM _),
        Traced.outcome_bind, Traced.outcome_bind, hload]
      apply bind_congr
      intro r
      cases r with
      | none => rfl
      | some e => rw [Traced.outcome_bind, Traced.outcome_bind, hrest]

theorem readSplit_congr {fromBase fromTop : IntervalSet Nat}
    (h : (readPieces top fromTop.intervals).outcome = (readPieces top' fromTop.intervals).outcome) :
    (readSplit base top fromBase fromTop a w).outcome = (readSplit base top' fromBase fromTop a w).outcome := by
  rw [readSplit, readSplit, Traced.outcome_bind_ok (Traced.outcome_record _),
    Traced.outcome_bind_ok (Traced.outcome_record _), Traced.outcome_bind, Traced.outcome_bind]
  apply bind_congr
  intro lower
  cases lower with
  | none => rfl
  | some lower => rw [Traced.outcome_bind, Traced.outcome_bind, h]

theorem readThrough_congr (hlast : a + w.bytes ≤ Address.last) {gaps : IntervalSet Nat}
    (h : ∀ b u, a ≤ b → b + u.bytes ≤ a + w.bytes → (top b u).outcome = (top' b u).outcome) :
    (readThrough base top gaps a w).outcome = (readThrough base top' gaps a w).outcome := by
  unfold readThrough
  by_cases hempty : gaps.isEmpty
  · rw [if_pos hempty, if_pos hempty]
    exact h a w (Nat.le_refl a) (Nat.le_refl _)
  · rw [if_neg hempty, if_neg hempty, Address.requested_ok hlast, Traced.outcome_bind_ok (Traced.outcome_liftM _),
      Traced.outcome_bind_ok (Traced.outcome_liftM _)]
    by_cases hwhole : gaps = .ofInterval (Address.range a w)
    · rw [if_pos hwhole, if_pos hwhole]
    · rw [if_neg hwhole, if_neg hwhole]
      apply readSplit_congr
      apply readPieces_congr
      intro i hi width hwidth
      obtain ⟨-, hlo, hhi⟩ := IntervalSet.bounds_of_mem (a := a) (b := a + w.bytes)
        (fun p hp => IntervalSet.mem_ofInterval.1 (IntervalSet.mem_difference.1 hp).1) hi
      have hle := i.lo_le_hi
      exact h i.lo width hlo (by omega)

theorem state_store_overlay (base top : Memory Empty) (a : Nat) (v : Expr) (w : Width) :
    ((overlay base top).store a v w).state = overlay base (top.store a v w).state := rfl

theorem load_overlay_congr {base top top' : Memory Empty} (hlast : a + w.bytes ≤ Address.last)
    (hgaps : top.missing a w = top'.missing a w)
    (h : ∀ b u, a ≤ b → b + u.bytes ≤ a + w.bytes → (top.load b u).outcome = (top'.load b u).outcome) :
    ((overlay base top).load a w).outcome = ((overlay base top').load a w).outcome := by
  rw [load, load, hgaps]
  cases top'.missing a w with
  | error e =>
    rw [Traced.outcome_bind_error (Traced.outcome_liftM _), Traced.outcome_bind_error (Traced.outcome_liftM _)]
  | ok gaps =>
    rw [Traced.outcome_bind_ok (Traced.outcome_liftM _), Traced.outcome_bind_ok (Traced.outcome_liftM _)]
    exact readThrough_congr hlast h

theorem load_store_apart (h : m.Valid) (hapart : Address.Apart a w b u) (hlast : b + u.bytes ≤ Address.last) :
    ((m.store a v w).state.load b u).outcome = (m.load b u).outcome := by
  induction m generalizing b u with
  | sparse m => exact SparseLayer.load_store_apart h hapart hlast
  | image m => exact ImageLayer.load_store_apart h hapart hlast
  | overlay base top _ iht =>
    rw [state_store_overlay]
    apply load_overlay_congr hlast (missing_store_apart h.2 hapart hlast)
    intro c t hlo hhi
    exact iht h.2 (hapart.within hlo hhi) (Nat.le_trans hhi hlast)
  | device d => cases d

theorem layerAt_store_of_base (hpath : Side.base ∈ path) :
    (m.store a v w).state.layerAt path = m.layerAt path := by
  induction path generalizing m with
  | nil => cases hpath
  | cons side path ih =>
    cases m with
    | overlay base top =>
      cases side with
      | base => rfl
      | top => exact ih (m := top) (by simpa using hpath)
    | _ => cases side <;> rfl

theorem layerAt_store_of_tops (hpath : Side.base ∉ path) :
    (m.store a v w).state.layerAt path = (m.layerAt path).map fun layer => (layer.store a v w).state := by
  induction path generalizing m with
  | nil => rfl
  | cons side path ih =>
    cases m with
    | overlay base top =>
      cases side with
      | base => simp at hpath
      | top => exact ih (m := top) (by simpa using hpath)
    | _ => cases side <;> rfl

/-- Off the way from top to top every layer is as it was, and on this way each is what the same store makes of it
alone. -/
theorem store_frame (h : History m layers stored) (v : Expr) (hapart : Address.Apart a w b u)
    (hlast : b + u.bytes ≤ Address.last) :
    let after := (m.store a v w).state
    (∃ r, (m.load b u).outcome = .ok r ∧ (after.load b u).outcome = .ok r) ∧
      (∃ s, m.missing b u = .ok s ∧ after.missing b u = .ok s) ∧
      (∀ path, Side.base ∈ path → after.layerAt path = m.layerAt path) ∧
      ∀ path, Side.base ∉ path → after.layerAt path = (m.layerAt path).map fun layer => (layer.store a v w).state := by
  intro after
  have hvalid := h.tracks.valid
  obtain ⟨r, hload⟩ := outcome_load hvalid hlast
  obtain ⟨s, hmissing, -⟩ := (answers hvalid).missing b u hlast
  refine ⟨⟨r, hload, ?_⟩, ⟨s, hmissing, ?_⟩, fun path => layerAt_store_of_base, fun path => layerAt_store_of_tops⟩
  · exact (load_store_apart hvalid hapart hlast).trans hload
  · exact (missing_store_apart hvalid hapart hlast).trans hmissing

/-- The store cuts the symbol that the load reads from. -/
theorem store_frame_symbolOnImage :
    let after := (symbolOnImage.store 1 (.const (.ofNat .w8 0xff)) .w8).state
    Address.Apart 1 .w8 2 .w16 ∧ 2 + Width.w16.bytes ≤ Address.last ∧
      (∃ e, (symbolOnImage.load 2 .w16).outcome = .ok (some e) ∧ (after.load 2 .w16).outcome = .ok (some e)) ∧
      after.layerAt [.base] = symbolOnImage.layerAt [.base] := by
  intro after
  have hapart : Address.Apart 1 .w8 2 .w16 := by
    rintro p ⟨⟨-, hhi⟩, hlo, -⟩
    change p < 1 + 1 at hhi
    change 2 ≤ p at hlo
    omega
  have hlast : 2 + Width.w16.bytes ≤ Address.last := by decide
  obtain ⟨⟨r, hbefore, hafter⟩, -, hbase, -⟩ :=
    store_frame history_symbolOnImage (.const (.ofNat .w8 0xff)) hapart hlast
  have hpresent : ∀ p < 4, (symbolOnImage.held p).isSome := by decide
  obtain ⟨e, he⟩ := exists_load (a := 2) (w := .w16) history_symbolOnImage.tracks.valid (by decide) hlast
    fun p _ => hpresent p
  obtain rfl : r = some e := Except.ok.inj (hbefore.symm.trans he)
  exact ⟨hapart, hlast, ⟨e, hbefore, hafter⟩, hbase [.base] (by decide)⟩

end Memory

end LayeredMemory
