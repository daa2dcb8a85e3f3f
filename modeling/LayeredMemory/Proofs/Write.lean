import LayeredMemory.Proofs.Contents

namespace LayeredMemory

structure Write where
  start : Nat
  value : Expr
  width : Width

namespace Write

variable {s : Write} {bind : Binding} {p : Nat}

def Covers (s : Write) (p : Nat) : Prop := s.start ≤ p ∧ p < s.start + s.width.bytes

instance (s : Write) (p : Nat) : Decidable (s.Covers p) :=
  inferInstanceAs (Decidable (_ ∧ _))

def Fits (s : Write) : Prop := s.start + s.width.bytes ≤ Address.last

def byte? (s : Write) (bind : Binding) (p : Nat) : Option UInt8 :=
  (s.value.evaluate bind).bind fun c => (c.resize s.width).bytes.data[p - s.start]?

def byteAt (s : Write) (p : Nat) : ValueByte := ⟨s.value, p - s.start⟩

def record (s : Write) (last : Nat → Option Write) : Nat → Option Write :=
  fun p => if s.Covers p then some s else last p

theorem record_of_covers {last : Nat → Option Write} (h : s.Covers p) : s.record last p = some s := if_pos h

theorem record_of_not_covers {last : Nat → Option Write} (h : ¬ s.Covers p) : s.record last p = last p := if_neg h

theorem record_of_zero (hw : s.width.bytes = 0) (last : Nat → Option Write) : s.record last = last := by
  funext p
  apply record_of_not_covers
  rintro ⟨hlo, hhi⟩
  omega

theorem byte?_eq_under (h : s.Covers p) : s.byte? bind p = (s.byteAt p).under bind := by
  have hin : p - s.start < s.width.bytes := by
    have hlo := h.1
    have hhi := h.2
    omega
  cases hc : s.value.evaluate bind with
  | none => simp [byte?, byteAt, ValueByte.under, hc]
  | some c =>
    simp only [byte?, byteAt, ValueByte.under, hc, Option.bind_some, Option.map_some]
    rw [Constant.getElem?_bytes, Constant.width_resize, if_pos hin, Constant.byte_resize, if_pos hin]

theorem write_of_covers {held : Contents} (h : s.Covers p) :
    held.write s.start s.value s.width p = some (s.byteAt p) :=
  if_pos h

theorem write_of_not_covers {held : Contents} (h : ¬ s.Covers p) :
    held.write s.start s.value s.width p = held p :=
  if_neg h

end Write

end LayeredMemory
