import LayeredMemory.Proofs.Checked.Intervals
import LayeredMemory.Report.Failure

namespace LayeredMemory

inductive Misfit
  | fault (cause : Fault)
  | refused (cause : Refusal)
  | reversed (bounds : ReversedBounds Nat)
  /-- An entry whose range has another width than its slice. -/
  | mismatch (start stop : Nat)
  | outside (stop size : Nat)
  | shiftedOut (amount : Nat)
  | stuck (position : Nat)

namespace Checked

instance : MonadLift (Except Fault) (Except Misfit) := ⟨fun x => x.mapError .fault⟩

instance : MonadLift (Except Overflow) (Except Misfit) := ⟨fun x => x.mapError fun cause => .fault (.overflow cause)⟩

instance : MonadLift (Except (ReversedBounds Nat)) (Except Misfit) := ⟨fun x => x.mapError .reversed⟩

section

variable {α β : Type} {a : α}

theorem bind_ok {x : Except Misfit α} (h : x = .ok a) (f : α → Except Misfit β) : x >>= f = f a := by
  rw [h]
  rfl

theorem fault_ok {x : Except Fault α} (h : x = .ok a) : (liftM x : Except Misfit α) = .ok a := by
  rw [h]
  rfl

theorem overflow_ok {x : Except Overflow α} (h : x = .ok a) : (liftM x : Except Misfit α) = .ok a := by
  rw [h]
  rfl

theorem overflow_ok_iff {x : Except Overflow α} : (liftM x : Except Misfit α) = .ok a ↔ x = .ok a := by
  refine ⟨fun h => ?_, overflow_ok⟩
  cases x with
  | error cause => cases h
  | ok b => exact congrArg Except.ok (Except.ok.inj h)

theorem bounds_ok {x : Except (ReversedBounds Nat) α} (h : x = .ok a) : (liftM x : Except Misfit α) = .ok a := by
  rw [h]
  rfl

end

def add (a b : Nat) : Except Overflow Nat := if a + b ≤ Address.last then .ok (a + b) else .error .add

def sub (a b : Nat) : Except Overflow Nat := if b ≤ a then .ok (a - b) else .error .subtract

def mul (a b : Nat) : Except Overflow Nat := if a * b ≤ Address.last then .ok (a * b) else .error .multiply

variable {a b : Nat}

theorem add_ok (h : a + b ≤ Address.last) : add a b = .ok (a + b) := if_pos h

theorem sub_ok (h : b ≤ a) : sub a b = .ok (a - b) := if_pos h

theorem sub_eq_ok {c : Nat} (h : sub a b = .ok c) : b ≤ a ∧ c = a - b := by
  unfold sub at h
  split at h
  · rename_i hle
    exact ⟨hle, (Except.ok.inj h).symm⟩
  · cases h

theorem bits_le_last {n : Nat} (h : n < 2 ^ 32) : n * 8 ≤ Address.last := by
  change n * 8 ≤ 2 ^ 64 - 1
  omega

theorem mul_ok (h : a * b ≤ Address.last) : mul a b = .ok (a * b) := if_pos h

def within (stop size : Nat) : Except Misfit Unit := if stop ≤ size then .ok () else .error (.outside stop size)

theorem within_ok {stop size : Nat} (h : stop ≤ size) : within stop size = .ok () := if_pos h

def byteAt (bytes : List UInt8) (i : Nat) : Except Misfit UInt8 :=
  if h : i < bytes.length then .ok bytes[i] else .error (.outside (i + 1) bytes.length)

def putByte (bytes : List UInt8) (i : Nat) (b : UInt8) : Except Misfit (List UInt8) := do
  within (i + 1) bytes.length
  return bytes.set i b

def shl (b : UInt8) (n : Nat) : Except Misfit UInt8 :=
  if n < 8 then .ok (b <<< UInt8.ofNat n) else .error (.shiftedOut n)

def shr (b : UInt8) (n : Nat) : Except Misfit UInt8 :=
  if n < 8 then .ok (b >>> UInt8.ofNat n) else .error (.shiftedOut n)

variable {bytes : List UInt8} {b : UInt8} {i n : Nat}

theorem byteAt_ok (h : i < bytes.length) : byteAt bytes i = .ok bytes[i] := dif_pos h

theorem putByte_ok (h : i < bytes.length) : putByte bytes i b = .ok (bytes.set i b) := by
  rw [putByte, within_ok h]
  rfl

theorem shl_ok (h : n < 8) : shl b n = .ok (b <<< UInt8.ofNat n) := if_pos h

theorem shr_ok (h : n < 8) : shr b n = .ok (b >>> UInt8.ofNat n) := if_pos h

def requested (a : Nat) (w : Width) : Except Misfit (List (Interval Nat)) := do
  let stop ← Address.rangeEnd a w
  let i ← Interval.ofBounds a stop
  return (IntervalSet.ofInterval i).intervals

theorem requested_ok {w : Width} (h : a + w.bytes ≤ Address.last) :
    requested a w = .ok (IntervalSet.ofInterval (Address.range a w)).intervals := by
  have hstop : Address.rangeEnd a w = .ok (a + w.bytes) := if_pos h
  have hbounds : Interval.ofBounds a (a + w.bytes) = .ok (Address.range a w) :=
    Interval.ofBounds_ok (Nat.le_add_right a w.bytes)
  rw [requested, bind_ok (fault_ok hstop), bind_ok (bounds_ok hbounds)]
  rfl

end Checked

end LayeredMemory
