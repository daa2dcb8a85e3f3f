import LayeredMemory.Expr.Slice
import LayeredMemory.Proofs.Expr.Evaluation

namespace LayeredMemory

/-- The values at addresses `lo` up to `hi` are the bytes of the expression, read as a value that begins at `base`;
its other bytes are zero. -/
def Expr.Shows (bind : Binding) (held : Nat → Option UInt8) (base lo hi : Nat) (e : Expr) : Prop :=
  ∃ c, e.evaluate bind = some c ∧ ∀ i,
    if lo ≤ base + i ∧ base + i < hi then held (base + i) = some (c.byte i) else c.byte i = 0

theorem Constant.value_ofNat_w64 {n : Nat} (h : n < 2 ^ 64) : (ofNat .w64 n).value = n := by
  rw [value_ofNat]
  exact Nat.mod_eq_of_lt h

namespace Slice

def shifted (s : Slice) : Expr :=
  if s.lo.isZero then s.source
  else .binary .shr s.source (.const (.ofNat .w64 s.lo.bits)) s.source.width

theorem expr_eq {s : Slice} (h : s.lo.bytes < s.hi.bytes) : s.expr = .ok (s.shifted.resized s.width) :=
  if_pos h

theorem evaluate_shifted {bind : Binding} {s : Slice} {c : Constant}
    (h : s.source.evaluate bind = some c) :
    ∃ d, s.shifted.evaluate bind = some d ∧ ∀ i, d.byte i = c.byte (s.lo.bytes + i) := by
  unfold shifted
  split
  · rename_i hz
    have hz : s.lo.bytes = 0 := by simpa [Width.isZero] using hz
    exact ⟨c, h, fun i => by rw [hz, Nat.zero_add]⟩
  · have hv : (Constant.ofNat .w64 s.lo.bits).value = 8 * s.lo.bytes :=
      Constant.value_ofNat_w64 (by have := s.lo.fits; simp only [Width.bits]; omega)
    refine ⟨_, Expr.evaluate_binary.2 ⟨c, _, h, rfl, rfl⟩, fun i => ?_⟩
    exact Constant.byte_shr c _ _ s.lo.bytes i hv (Expr.width_of_evaluate h)

theorem evaluate_expr {bind : Binding} {s : Slice} {c : Constant}
    (h : s.source.evaluate bind = some c) :
    ∃ d, (s.shifted.resized s.width).evaluate bind = some d ∧
      ∀ i, d.byte i = if i < s.width.bytes then c.byte (s.lo.bytes + i) else 0 := by
  obtain ⟨d, hd, hbyte⟩ := evaluate_shifted h
  refine ⟨d.resize s.width, Expr.evaluate_resized s.width hd, fun i => ?_⟩
  rw [Constant.byte_resize, hbyte]

end Slice

def Tiles (stop : Nat) : Nat → List Piece → Prop
  | a, [] => a = stop
  | a, (start, e) :: rest => start = a ∧ 0 < e.width.bytes ∧ Tiles stop (a + e.width.bytes) rest

theorem Tiles.le {stop a : Nat} {pieces : List Piece} (h : Tiles stop a pieces) : a ≤ stop := by
  induction pieces generalizing a with
  | nil => exact Nat.le_of_eq h
  | cons p rest ih =>
    have := ih h.2.2
    omega

def Piece.Shows (bind : Binding) (held : Nat → Option UInt8) (p : Piece) : Prop :=
  p.2.Shows bind held p.1 p.1 (p.1 + p.2.width.bytes)

namespace Piece

def placed (base : Nat) (w : Width) (p : Piece) : Expr :=
  if p.1 = base then p.2 else .binary .shl p.2 (.const (.ofNat .w64 (8 * (p.1 - base)))) w

theorem place_eq {base : Nat} {w : Width} {p : Piece} (hlo : base ≤ p.1) (hhi : p.1 ≤ base + w.bytes) :
    p.place base w = .ok (p.placed base w) := by
  obtain ⟨start, e⟩ := p
  have hfits := w.fits
  change base ≤ start at hlo
  change start ≤ base + w.bytes at hhi
  simp only [place, placed]
  rw [if_neg (by omega)]
  split
  · rfl
  · rw [if_neg (by omega)]

theorem shows_placed {bind : Binding} {held : Nat → Option UInt8} {base : Nat} {w : Width} {p : Piece}
    (hlo : base ≤ p.1) (hhi : p.1 + p.2.width.bytes ≤ base + w.bytes) (h : p.Shows bind held) :
    (p.placed base w).Shows bind held base p.1 (p.1 + p.2.width.bytes) := by
  unfold placed
  split
  · rename_i hbase
    rw [Piece.Shows, hbase] at h
    rw [hbase]
    exact h
  · obtain ⟨c, hc, hbytes⟩ := h
    have hv : (Constant.ofNat .w64 (8 * (p.1 - base))).value = 8 * (p.1 - base) :=
      Constant.value_ofNat_w64 (by have := w.fits; omega)
    refine ⟨_, Expr.evaluate_binary.2 ⟨c, _, hc, rfl, rfl⟩, fun i => ?_⟩
    rw [Constant.byte_shl c _ w (p.1 - base) i hv]
    by_cases hi : p.1 ≤ base + i
    · have hat := hbytes (i - (p.1 - base))
      rw [show p.1 + (i - (p.1 - base)) = base + i by omega] at hat
      by_cases hw : i < w.bytes
      · rw [if_pos (show p.1 - base ≤ i ∧ i < w.bytes by omega)]
        exact hat
      · rw [if_neg (by omega), if_neg (by omega)]
    · rw [if_neg (by omega), if_neg (by omega)]

end Piece

theorem Expr.shows_or {bind : Binding} {held : Nat → Option UInt8} {base lo mid hi : Nat} {w : Width}
    {x y : Expr} (hlo : lo ≤ mid) (hmid : mid ≤ hi) (hhi : hi ≤ base + w.bytes)
    (hx : x.Shows bind held base lo mid) (hy : y.Shows bind held base mid hi) :
    (Expr.binary .or x y w).Shows bind held base lo hi := by
  obtain ⟨c, hc, hcbytes⟩ := hx
  obtain ⟨d, hd, hdbytes⟩ := hy
  refine ⟨_, Expr.evaluate_binary.2 ⟨c, d, hc, hd, rfl⟩, fun i => ?_⟩
  have hci := hcbytes i
  have hdi := hdbytes i
  rw [Constant.byte_or]
  by_cases hlow : lo ≤ base + i ∧ base + i < mid
  · rw [if_pos hlow] at hci
    rw [if_neg (by omega)] at hdi
    rw [if_pos (by omega), if_pos (by omega), hci, hdi, UInt8.or_zero]
  · rw [if_neg hlow] at hci
    by_cases hhigh : mid ≤ base + i ∧ base + i < hi
    · rw [if_pos hhigh] at hdi
      rw [if_pos (by omega), if_pos (by omega), hci, hdi, UInt8.zero_or]
    · rw [if_neg hhigh] at hdi
      rw [if_neg (by omega), hci, hdi]
      simp

def joined (w : Width) (e : Expr) (pieces : List Expr) : Expr :=
  pieces.foldl (fun all piece => .binary .or all piece w) e

theorem width_joined {w : Width} {e : Expr} {pieces : List Expr} (h : e.width = w) :
    (joined w e pieces).width = w := by
  induction pieces generalizing e with
  | nil => exact h
  | cons p rest ih => exact ih rfl

theorem shows_joined {bind : Binding} {held : Nat → Option UInt8} {base mid stop : Nat} {w : Width}
    {e : Expr} {pieces : List Piece} (hbase : base ≤ mid) (hstop : stop ≤ base + w.bytes)
    (ht : Tiles stop mid pieces) (he : e.Shows bind held base base mid)
    (hp : ∀ p ∈ pieces, p.Shows bind held) :
    (joined w e (pieces.map (Piece.placed base w))).Shows bind held base base stop := by
  induction pieces generalizing e mid with
  | nil =>
    obtain rfl : mid = stop := ht
    exact he
  | cons p rest ih =>
    obtain ⟨hstart, hpos, hrest⟩ := ht
    have hle := hrest.le
    subst hstart
    have hplaced := Piece.shows_placed (w := w) hbase (by omega) (hp p (by simp))
    exact ih (by omega) hrest (Expr.shows_or hbase (by omega) (by omega) he hplaced)
      fun q hq => hp q (.tail _ hq)

theorem mapM_place_eq {base stop mid : Nat} {w : Width} {pieces : List Piece} (hbase : base ≤ mid)
    (hstop : stop ≤ base + w.bytes) (ht : Tiles stop mid pieces) :
    pieces.mapM (Piece.place base w) = .ok (pieces.map (Piece.placed base w)) := by
  induction pieces generalizing mid with
  | nil => rfl
  | cons p rest ih =>
    obtain ⟨hstart, hpos, hrest⟩ := ht
    have hle := hrest.le
    subst hstart
    rw [List.mapM_cons, Piece.place_eq hbase (by omega), ih (by omega) hrest]
    rfl

theorem compose_tiles {base : Nat} {w : Width} {pieces : List Piece} (hw : 0 < w.bytes)
    (ht : Tiles (base + w.bytes) base pieces) :
    ∃ e, compose base w pieces = .ok (some e) ∧ e.width = w ∧
      ∀ bind held, (∀ p ∈ pieces, p.Shows bind held) → e.Shows bind held base base (base + w.bytes) := by
  cases pieces with
  | nil =>
    have : base = base + w.bytes := ht
    omega
  | cons p rest =>
    have hplace := mapM_place_eq (Nat.le_refl base) (Nat.le_refl _) ht
    obtain ⟨hstart, hpos, hrest⟩ := ht
    have hle := hrest.le
    refine ⟨joined w (p.placed base w) (rest.map (Piece.placed base w)), ?_, ?_, ?_⟩
    · rw [compose, hplace]
      rfl
    · have hself : p.placed base w = p.2 := if_pos hstart
      cases rest with
      | nil =>
        have hend : base + p.2.width.bytes = base + w.bytes := hrest
        rw [hself]
        exact Width.ext (by change p.2.width.bytes = w.bytes; omega)
      | cons q rest =>
        rw [List.map_cons, joined, List.foldl_cons]
        exact width_joined rfl
    · intro bind held hp
      have hfirst := Piece.shows_placed (w := w) (Nat.le_of_eq hstart.symm) (by rw [hstart]; exact hle)
        (hp p (by simp))
      rw [hstart] at hfirst
      exact shows_joined (Nat.le_add_right _ _) (Nat.le_refl _) hrest hfirst fun q hq => hp q (.tail _ hq)

end LayeredMemory
