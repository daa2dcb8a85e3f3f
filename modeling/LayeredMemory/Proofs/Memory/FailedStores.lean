import LayeredMemory.Proofs.Memory.History

namespace LayeredMemory

theorem SparseLayer.valid_store {m : SparseLayer} (h : m.Valid) (a : Nat) (v : Expr) (w : Width) :
    (m.store a v w).state.Valid := by
  by_cases hfit : w.bytes = 0 ∨ a + w.bytes ≤ Address.last
  · exact (store_ok h hfit v).2.1
  · rw [(store_overflow (by omega) (by omega) v).1]
    exact h

theorem SparseLayer.store_error_iff {m : SparseLayer} (h : m.Valid) {a : Nat} {v : Expr} {w : Width} :
    (∃ e, (m.store a v w).report.outcome = .error e) ↔ 0 < w.bytes ∧ Address.last < a + w.bytes := by
  by_cases hfit : w.bytes = 0 ∨ a + w.bytes ≤ Address.last
  · rw [(store_ok h hfit v).1]
    apply iff_of_false
    · rintro ⟨e, he⟩
      cases he
    · omega
  · have hw : 0 < w.bytes := by omega
    have hlast : Address.last < a + w.bytes := by omega
    rw [(store_overflow hw hlast v).2]
    exact iff_of_true ⟨_, rfl⟩ ⟨hw, hlast⟩

namespace ImageLayer

variable {m : ImageLayer} {a : Nat} {v : Expr} {w : Width} {c : Constant}

theorem valid_store (h : m.Valid) (a : Nat) (v : Expr) (w : Width) : (m.store a v w).state.Valid := by
  cases store_cases h a v w with
  | empty _ _ hstate =>
    rw [hstate]
    exact h
  | refused _ _ hstate =>
    rw [hstate]
    exact h
  | written _ _ _ hvalid _ => exact hvalid

theorem tryStore_zero (hw : w.bytes = 0) : m.tryStore a v w = .stay m (Traced.record (.emptyImageStore a)) :=
  if_pos (Width.isZero_of_bytes hw)

theorem tryStore_not_const (hw : 0 < w.bytes) (hv : ∀ c, v.fold ≠ .const c) :
    m.tryStore a v w = .stay m (Traced.fail (.refusal (.notConstant v.text))) := by
  rw [tryStore, if_neg (Width.not_isZero hw)]
  cases hfold : v.fold.asConst? with
  | none => rfl
  | some c => exact absurd (Expr.eq_const_of_asConst? hfold) (hv c)

theorem tryStore_const (hw : 0 < w.bytes) (hv : v.fold = .const c) :
    m.tryStore a v w = (m.overwritten a c w).examined examine := by
  rw [tryStore, if_neg (Width.not_isZero hw), hv]
  rfl

theorem tryStore_error_iff (h : m.Valid) :
    (∃ e, (m.tryStore a v w).report.outcome = .error e) ↔
      0 < w.bytes ∧ ((∀ c, v.fold ≠ .const c) ∨ Address.last < a + w.bytes) := by
  by_cases hw : 0 < w.bytes
  · cases hfold : v.fold.asConst? with
    | none =>
      have hv : ∀ c, v.fold ≠ .const c := by
        intro c hc
        rw [hc] at hfold
        cases hfold
      rw [tryStore_not_const hw hv]
      exact iff_of_true ⟨_, rfl⟩ ⟨hw, .inl hv⟩
    | some c =>
      have hc := Expr.eq_const_of_asConst? hfold
      rw [tryStore_const hw hc]
      by_cases hlast : a + w.bytes ≤ Address.last
      · obtain ⟨hok, hvalid, -⟩ := overwritten_ok h hlast c
        rw [(Step.examined_ok rfl hok (outcome_examine hvalid)).2]
        apply iff_of_false
        · rintro ⟨e, he⟩
          cases he
        · rintro ⟨-, hv | hover⟩
          · exact hv c hc
          · omega
      · have hover : Address.last < a + w.bytes := by omega
        obtain ⟨hsame, e, he⟩ := overwritten_overflow (m := m) hover c
        rw [(Step.examined_error hsame he _).2]
        exact iff_of_true ⟨e, rfl⟩ ⟨hw, .inr hover⟩
  · rw [tryStore_zero (by omega)]
    apply iff_of_false
    · rintro ⟨e, he⟩
      cases he
    · exact fun hlt => hw hlt.1

theorem store_error_iff (h : m.Valid) :
    (∃ e, (m.store a v w).report.outcome = .error e) ↔
      0 < w.bytes ∧ ((∀ c, v.fold ≠ .const c) ∨ Address.last < a + w.bytes) :=
  Traced.exists_error_mapError.trans (tryStore_error_iff h)

end ImageLayer

namespace Memory

def target {δ : Type} : Memory δ → Memory δ
  | overlay _ top => target top
  | m => m

def layerAt {δ : Type} : List Side → Memory δ → Option (Memory δ)
  | [], m => some m
  | side :: path, m => (m.side? side).bind (layerAt path)

def TargetsImage {δ : Type} (m : Memory δ) : Prop := ∃ layer, m.target = .image layer

variable {m : Memory Empty} {a : Nat} {v : Expr} {w : Width}

theorem store_error_iff (h : m.Valid) :
    (∃ e, (m.store a v w).report.outcome = .error e) ↔
      0 < w.bytes ∧ ((m.TargetsImage ∧ ∀ c, v.fold ≠ .const c) ∨ Address.last < a + w.bytes) := by
  induction m with
  | sparse m =>
    have hnot : ¬ (sparse m : Memory Empty).TargetsImage := by
      rintro ⟨layer, hlayer⟩
      cases hlayer
    simp only [hnot, false_and, false_or]
    exact SparseLayer.store_error_iff h
  | image m =>
    have himage : (image m : Memory Empty).TargetsImage := ⟨m, rfl⟩
    simp only [himage, true_and]
    exact ImageLayer.store_error_iff h
  | overlay base top _ iht => exact iht h.2
  | device d => cases d

theorem valid_store (h : m.Valid) (a : Nat) (v : Expr) (w : Width) : (m.store a v w).state.Valid := by
  induction m with
  | sparse m => exact SparseLayer.valid_store h a v w
  | image m => exact ImageLayer.valid_store h a v w
  | overlay base top _ iht => exact ⟨h.1, iht h.2⟩
  | device d => cases d

end Memory

end LayeredMemory
