import LayeredMemory.Expr.Basic
import LayeredMemory.Report.Failure

namespace LayeredMemory

structure Slice where
  source : Expr
  lo : Width
  hi : Width
  lo_le_hi : lo.bytes ≤ hi.bytes
  deriving DecidableEq

namespace Slice

def full (source : Expr) (w : Width) : Slice := ⟨source, .zero, w, Nat.zero_le _⟩

def width (s : Slice) : Width :=
  ⟨s.hi.bytes - s.lo.bytes, Nat.lt_of_le_of_lt (Nat.sub_le ..) s.hi.fits⟩

def low (s : Slice) (length : Width) : Except Fault Slice :=
  if h : length.bytes ≤ s.width.bytes then
    .ok ⟨s.source, s.lo, ⟨s.lo.bytes + length.bytes, by
      have := s.hi.fits; have := s.lo_le_hi; simp only [width] at h; omega⟩, Nat.le_add_right _ _⟩
  else .error (.shortSlice s.width length)

def high (s : Slice) (length : Width) : Except Fault Slice :=
  if length.bytes ≤ s.width.bytes then
    .ok ⟨s.source, ⟨s.hi.bytes - length.bytes, Nat.lt_of_le_of_lt (Nat.sub_le ..) s.hi.fits⟩, s.hi,
      Nat.sub_le ..⟩
  else .error (.shortSlice s.width length)

def expr (s : Slice) : Except Fault Expr :=
  if s.lo.bytes < s.hi.bytes then
    let shifted :=
      if s.lo.isZero then s.source
      else .binary .shr s.source (.const (.ofNat .w64 s.lo.bits)) s.source.width
    .ok (shifted.resized s.width)
  else .error (.emptySlice s.lo s.hi)

end Slice

abbrev Piece := Nat × Expr

def Piece.startsFirst (p q : Piece) : Bool := decide (p.1 ≤ q.1)

def Piece.place (base : Nat) (w : Width) : Piece → Except Fault Expr
  | (start, e) =>
    if start < base then .error (.overflow .subtract)
    else if start = base then .ok e
    else if 2 ^ 64 ≤ 8 * (start - base) then .error (.overflow .multiply)
    else .ok (.binary .shl e (.const (.ofNat .w64 (8 * (start - base)))) w)

def compose (base : Nat) (w : Width) (pieces : List Piece) : Except Fault (Option Expr) := do
  match ← pieces.mapM (Piece.place base w) with
  | [] => return none
  | e :: rest => return some (rest.foldl (fun all piece => .binary .or all piece w) e)

end LayeredMemory
