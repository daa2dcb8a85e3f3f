import LayeredMemory.Proofs.Expr.Composition
import LayeredMemory.Proofs.Expr.Folding

namespace LayeredMemory

namespace Expr

variable {l r : Expr} {w : Width} {op : BinaryOp} {c : Constant} {name : String}

theorem mem_names_foldBinary_or :
    name ∈ (foldBinary .or l r w).names ↔ name ∈ l.names ∨ name ∈ r.names := by
  unfold foldBinary
  split
  · rename_i a b ha hb
    rw [eq_const_of_asConst? ha, eq_const_of_asConst? hb]
    simp
  · rename_i b _ hb
    rw [eq_const_of_asConst? hb]
    split
    · simp [withZeroRight]
    · simp [BinaryOp.isShift]
  · rename_i a ha _
    rw [eq_const_of_asConst? ha]
    split
    · simp [withZeroLeft]
    · simp
  · simp

theorem names_foldBinary_shift (hop : op.isShift = true) (hc : c.value < w.bits) :
    (foldBinary op l (const c) w).names = l.names := by
  unfold foldBinary
  split
  · rename_i a b ha _
    rw [eq_const_of_asConst? ha]
    rfl
  · rename_i b _ hb
    obtain rfl : c = b := Option.some.inj hb
    split
    · cases op with
      | shl | shr => exact names_resized l w
      | _ => cases hop
    · split
      · rename_i hout
        rw [Bool.and_eq_true] at hout
        exact absurd (of_decide_eq_true hout.2) (Nat.not_le.2 hc)
      · simp
  · rename_i hnone
    cases hnone
  · rename_i hnone
    cases hnone

structure Listing (listed : Expr → List String) : Prop where
  resized : ∀ e w, listed (e.resized w) = listed e
  or : ∀ {x y : Expr} {w : Width} {name : String},
    name ∈ listed (binary .or x y w) ↔ name ∈ listed x ∨ name ∈ listed y
  shift : ∀ {op : BinaryOp} {c : Constant} {w : Width} (e : Expr), op.isShift = true → c.value < w.bits →
    listed (binary op e (const c) w) = listed e

theorem listing_names : Listing names where
  resized := names_resized
  or := by simp
  shift := by simp

theorem listing_names_fold : Listing fun e => e.fold.names where
  resized := by
    intro e w
    rw [fold_resized, names_resized]
  or := mem_names_foldBinary_or
  shift := fun e hop hc => names_foldBinary_shift hop hc

end Expr

namespace Slice

variable {s : Slice}

theorem value_shift (s : Slice) : (Constant.ofNat .w64 s.lo.bits).value = 8 * s.lo.bytes :=
  Constant.value_ofNat_w64 (by have := s.lo.fits; simp only [Width.bits]; omega)

theorem names_shifted (s : Slice) : s.shifted.names = s.source.names := by
  unfold shifted
  split
  · rfl
  · simp

theorem names_fold_shifted (h : s.lo.bytes < s.source.width.bytes) :
    s.shifted.fold.names = s.source.fold.names := by
  unfold shifted
  split
  · rfl
  · apply Expr.names_foldBinary_shift rfl
    rw [value_shift, Width.bits]
    omega

end Slice

theorem Tiles.bounds {stop a : Nat} {pieces : List Piece} {p : Piece} (h : Tiles stop a pieces)
    (hp : p ∈ pieces) : a ≤ p.1 ∧ 0 < p.2.width.bytes ∧ p.1 + p.2.width.bytes ≤ stop := by
  induction pieces generalizing a with
  | nil => cases hp
  | cons q rest ih =>
    obtain ⟨hstart, hpos, hrest⟩ := h
    rcases List.mem_cons.1 hp with rfl | hp
    · have := hrest.le
      omega
    · have := ih hrest hp
      omega

namespace Expr.Listing

variable {listed : Expr → List String} {base : Nat} {w : Width} {e : Expr} {name : String}

theorem placed (h : Listing listed) {p : Piece} (hlo : base ≤ p.1) (hhi : p.1 < base + w.bytes) :
    listed (p.placed base w) = listed p.2 := by
  unfold Piece.placed
  split
  · rfl
  · apply h.shift p.2 rfl
    rw [Constant.value_ofNat_w64 (by have := w.fits; omega), Width.bits]
    omega

theorem mem_joined (h : Listing listed) {pieces : List Expr} :
    name ∈ listed (joined w e pieces) ↔ name ∈ listed e ∨ ∃ x ∈ pieces, name ∈ listed x := by
  induction pieces generalizing e with
  | nil => simp [joined]
  | cons p rest ih =>
    rw [joined, List.foldl_cons, ← joined, ih, h.or, or_assoc]
    simp

theorem mem_compose (h : Listing listed) {pieces : List Piece} (ht : Tiles (base + w.bytes) base pieces)
    (he : compose base w pieces = .ok (some e)) : name ∈ listed e ↔ ∃ p ∈ pieces, name ∈ listed p.2 := by
  have hplaced : ∀ p ∈ pieces, listed (p.placed base w) = listed p.2 := by
    intro p hp
    obtain ⟨hlo, hpos, hhi⟩ := ht.bounds hp
    exact h.placed hlo (by omega)
  rw [compose, mapM_place_eq (Nat.le_refl base) (Nat.le_refl _) ht] at he
  cases pieces with
  | nil => cases he
  | cons p rest =>
    obtain rfl : joined w (p.placed base w) (rest.map (Piece.placed base w)) = e :=
      Option.some.inj (Except.ok.inj he)
    rw [h.mem_joined, hplaced p (by simp)]
    simp only [List.mem_cons, List.mem_map, exists_eq_or_imp]
    apply or_congr_right
    constructor
    · rintro ⟨-, ⟨q, hq, rfl⟩, hname⟩
      rw [hplaced q (.tail _ hq)] at hname
      exact ⟨q, hq, hname⟩
    · rintro ⟨q, hq, hname⟩
      refine ⟨_, ⟨q, hq, rfl⟩, ?_⟩
      rw [hplaced q (.tail _ hq)]
      exact hname

end Expr.Listing

end LayeredMemory
