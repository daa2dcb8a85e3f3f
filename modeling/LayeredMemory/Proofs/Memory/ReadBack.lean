import LayeredMemory.Proofs.Expr.NormalForm
import LayeredMemory.Proofs.Memory.Frame

namespace LayeredMemory

namespace ImageLayer

variable {m : ImageLayer} {a : Nat} {v : Expr} {w : Width}

theorem load_eq_const (h : m.Valid) (hw : 0 < w.bytes) (hlast : a + w.bytes ≤ Address.last) {c : Constant}
    (hbyte : ∀ p, a ≤ p → p < a + w.bytes → Block.byteIn m.blocks p = some (c.byte (p - a))) :
    (m.load a w).outcome = .ok (some (.const (c.resize w))) := by
  obtain ⟨r, hload, hsome, hvalue⟩ := load_bytes h hw hlast
  have hpresent : r.isSome := by
    apply hsome.2
    intro p hlo hhi
    rw [hbyte p hlo hhi]
    rfl
  obtain ⟨e, rfl⟩ := Option.isSome_iff_exists.1 hpresent
  obtain ⟨d, rfl, hdw, hread⟩ := hvalue e rfl
  have hsame : d = c.resize w := by
    apply Constant.ext_of_getElem?_bytes hdw
    intro i hi
    rw [hdw] at hi
    have hdi := hread (a + i) (by omega) (by omega)
    rw [hbyte (a + i) (by omega) (by omega), Nat.add_sub_cancel_left] at hdi
    rw [hdi, Constant.getElem?_bytes, Constant.width_resize, if_pos hi, Constant.byte_resize, if_pos hi]
  rw [hload, hsame]

theorem load_store_self (h : m.Valid) (hw : 0 < w.bytes) (hlast : a + w.bytes ≤ Address.last)
    (hok : (m.store a v w).report.outcome = .ok ()) :
    ((m.store a v w).state.load a w).outcome = .ok (some (v.fold.resized w)) := by
  cases store_cases h a v w with
  | empty hzero _ _ => omega
  | refused e herr _ =>
    rw [hok] at herr
    cases herr
  | written c hfold _ hvalid hbyte =>
    rw [hfold, Expr.resized_const]
    apply load_eq_const hvalid hw hlast
    intro p hlo hhi
    rw [hbyte, if_pos ⟨hlo, hhi⟩]

end ImageLayer

namespace Memory

variable {m : Memory Empty} {layers : Layers} {stored : List Expr} {a p : Nat} {v : Expr} {w : Width}

theorem fits_of_store_ok (h : m.Valid) (hw : 0 < w.bytes) (hok : (m.store a v w).report.outcome = .ok ()) :
    a + w.bytes ≤ Address.last := by
  apply Nat.le_of_not_lt
  intro hover
  obtain ⟨e, he⟩ := (store_error_iff h).2 ⟨hw, .inr hover⟩
  rw [hok] at he
  cases he

theorem isSome_held_store (h : m.Valid) (hok : (m.store a v w).report.outcome = .ok ())
    (hp : p ∈ Address.range a w) : ((m.store a v w).state.held p).isSome := by
  induction m with
  | sparse m =>
    obtain ⟨-, -, hheld⟩ := SparseLayer.store_ok h (SparseLayer.fits_of_store_ok hok) v
    change ((m.store a v w).state.held p).isSome
    rw [hheld]
    exact congrArg Option.isSome (if_pos hp)
  | image m =>
    change ((m.store a v w).state.held p).isSome
    rw [ImageLayer.isSome_held]
    cases ImageLayer.store_cases h a v w with
    | empty hzero _ _ =>
      have hlo : a ≤ p := hp.1
      have hhi : p < a + w.bytes := hp.2
      omega
    | refused e herr _ =>
      change (m.store a v w).report.outcome = .ok () at hok
      rw [hok] at herr
      cases herr
    | written c _ _ _ hbyte =>
      rw [hbyte]
      exact congrArg Option.isSome (if_pos hp)
  | overlay base top _ iht =>
    change (((top.store a v w).state.held p).or (base.held p)).isSome
    rw [Option.isSome_or, iht h.2 hok]
    rfl
  | device d => cases d

theorem missing_store_self (h : m.Valid) (hok : (m.store a v w).report.outcome = .ok ())
    (hlast : a + w.bytes ≤ Address.last) : (m.store a v w).state.missing a w = .ok .empty := by
  obtain ⟨s, hs, hmem⟩ := (answers (valid_store h a v w)).missing a w hlast
  have hempty : s = .empty := by
    apply IntervalSet.ext_of_mem
    intro p
    rw [hmem]
    refine iff_of_false ?_ IntervalSet.not_mem_empty
    rintro ⟨hp, hnone⟩
    have hsome := isSome_held_store h hok hp
    rw [hnone] at hsome
    cases hsome
  rw [hempty] at hs
  exact hs

theorem blocks_store (h : m.Valid) (hok : (m.store a v w).report.outcome = .ok ()) :
    (m.store a v w).state.blocks = m.blocks.union (.ofInterval (Address.range a w)) := by
  apply IntervalSet.ext_of_mem
  intro p
  have hafter : p ∈ (m.store a v w).state.blocks ↔ ((m.store a v w).state.held p).isSome :=
    (answers (valid_store h a v w)).mem_blocks p
  have hbefore : p ∈ m.blocks ↔ (m.held p).isSome := (answers h).mem_blocks p
  rw [IntervalSet.mem_union, IntervalSet.mem_ofInterval, hafter, hbefore]
  by_cases hp : p ∈ Address.range a w
  · exact iff_of_true (isSome_held_store h hok hp) (.inr hp)
  · rw [held_store_of_not_mem h hp]
    exact (or_iff_left hp).symm

theorem load_store_self (h : m.Valid) (hw : 0 < w.bytes) (hok : (m.store a v w).report.outcome = .ok ()) :
    ∃ e, ((m.store a v w).state.load a w).outcome = .ok (some e) ∧
      ((∃ layer, m.target = .sparse layer) ∧ e = v.resized w ∨ m.TargetsImage ∧ e = v.fold.resized w) := by
  have hlast := fits_of_store_ok h hw hok
  induction m with
  | sparse m => exact ⟨_, SparseLayer.load_store_self h hw hlast v, .inl ⟨⟨m, rfl⟩, rfl⟩⟩
  | image m => exact ⟨_, ImageLayer.load_store_self h hw hlast hok, .inr ⟨⟨m, rfl⟩, rfl⟩⟩
  | overlay base top _ iht =>
    rw [state_store_overlay, load_overlay_of_isEmpty (missing_store_self h.2 hok hlast) rfl]
    exact iht h.2 hok
  | device d => cases d

theorem store_reads_back (h : History m layers stored) (hw : 0 < w.bytes)
    (hok : (m.store a v w).report.outcome = .ok ()) :
    let after := (m.store a v w).state
    (∃ e, (after.load a w).outcome = .ok (some e) ∧ e.fold = v.fold.resized w ∧
        ∀ layer, m.target = .sparse layer → e = v.resized w) ∧
      after.missing a w = .ok .empty ∧ after.blocks = m.blocks.union (.ofInterval (Address.range a w)) := by
  intro after
  have hvalid := h.tracks.valid
  refine ⟨?_, missing_store_self hvalid hok (fits_of_store_ok hvalid hw hok), blocks_store hvalid hok⟩
  obtain ⟨e, hload, ⟨-, rfl⟩ | ⟨⟨image, himage⟩, rfl⟩⟩ := load_store_self hvalid hw hok
  · exact ⟨_, hload, Expr.fold_resized v w, fun _ _ => rfl⟩
  · refine ⟨_, hload, ?_, fun layer hlayer => ?_⟩
    · rw [Expr.fold_resized, Expr.fold_fold]
    · rw [himage] at hlayer
      cases hlayer

theorem store_reads_back_symbolOnImage :
    let v : Expr := .binary .add (.symbol "y" .w8) (.const (.zero .w8)) .w8
    let after := (symbolOnImage.store 2 v .w16).state
    0 < Width.w16.bytes ∧ (symbolOnImage.store 2 v .w16).report.outcome = .ok () ∧
      (after.load 2 .w16).outcome = .ok (some (v.resized .w16)) ∧
      (v.resized .w16).fold = .resize (.symbol "y" .w8) .w16 ∧ after.missing 2 .w16 = .ok .empty := by
  intro v after
  have hok : (symbolOnImage.store 2 v .w16).report.outcome = .ok () := rfl
  obtain ⟨⟨e, hload, hfold, hsparse⟩, hmissing, -⟩ := store_reads_back history_symbolOnImage (by decide) hok
  rw [hsparse _ rfl] at hload hfold
  exact ⟨by decide, hok, hload, hfold, hmissing⟩

end Memory

end LayeredMemory
