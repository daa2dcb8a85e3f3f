import LayeredMemory.Memory.Device
import LayeredMemory.Proofs.Expr.Composition
import LayeredMemory.Proofs.IntervalSet.Membership
import LayeredMemory.Proofs.Outcome

/-!
What a memory holds, byte by byte: at each address, nothing or one byte of the value of an expression. A device
answers for its contents if loads, missing ranges and blocks can all be read off them.
-/

namespace LayeredMemory

namespace Address

variable {a : Nat} {w : Width}

theorem widthOf_ok {n : Nat} (h : n < 2 ^ 32) : widthOf n = .ok ⟨n, h⟩ := by
  simp only [widthOf, Width.ofBytes?, dif_pos h]

theorem bytes_of_widthOf {n : Nat} (h : widthOf n = .ok w) : w.bytes = n := by
  unfold widthOf Width.ofBytes? at h
  split at h
  · rename_i hw
    split at hw
    · obtain rfl := Option.some.inj hw
      obtain rfl := Except.ok.inj h
      rfl
    · cases hw
  · cases h

theorem rangeEnd_ok (h : a + w.bytes ≤ last) : rangeEnd a w = .ok (a + w.bytes) := if_pos h

theorem rangeEnd_error (h : last < a + w.bytes) : rangeEnd a w = .error (.rangeOverflow a w) :=
  if_neg (Nat.not_le.2 h)

theorem requested_ok (h : a + w.bytes ≤ last) : requested a w = .ok (.ofInterval (range a w)) := by
  rw [requested, rangeEnd_ok h]
  rfl

end Address

structure ValueByte where
  source : Expr
  index : Nat

def ValueByte.under (bind : Binding) (b : ValueByte) : Option UInt8 :=
  (b.source.evaluate bind).map (·.byte b.index)

abbrev Contents := Nat → Option ValueByte

namespace Contents

def empty : Contents := fun _ => none

def under (held : Contents) (bind : Binding) : Nat → Option UInt8 :=
  fun p => (held p).bind (·.under bind)

def write (held : Contents) (a : Nat) (v : Expr) (w : Width) : Contents :=
  fun p => if a ≤ p ∧ p < a + w.bytes then some ⟨v, p - a⟩ else held p

def onto (top base : Contents) : Contents := fun p => (top p).or (base p)

def Present (held : Contents) (a : Nat) (w : Width) : Prop :=
  ∀ p, a ≤ p → p < a + w.bytes → (held p).isSome

end Contents

def Expr.Reads (held : Contents) (a : Nat) (w : Width) (e : Expr) : Prop :=
  e.width = w ∧ ∀ bind, (∀ p, a ≤ p → p < a + w.bytes → (held.under bind p).isSome) →
    e.Shows bind (held.under bind) a a (a + w.bytes)

theorem Expr.Shows.congr {bind : Binding} {held held' : Nat → Option UInt8} {base lo hi : Nat} {e : Expr}
    (h : e.Shows bind held base lo hi) (heq : ∀ p, lo ≤ p → p < hi → held p = held' p) :
    e.Shows bind held' base lo hi := by
  obtain ⟨c, hc, hbytes⟩ := h
  refine ⟨c, hc, fun i => ?_⟩
  have hi := hbytes i
  split
  · rename_i hrange
    rw [if_pos hrange] at hi
    rw [← heq _ hrange.1 hrange.2, hi]
  · rename_i hrange
    rw [if_neg hrange] at hi
    exact hi

theorem Expr.Reads.congr {held held' : Contents} {a : Nat} {w : Width} {e : Expr}
    (h : e.Reads held a w) (heq : ∀ p, a ≤ p → p < a + w.bytes → held p = held' p) :
    e.Reads held' a w := by
  have hunder : ∀ bind p, a ≤ p → p < a + w.bytes → held.under bind p = held'.under bind p := by
    intro bind p hlo hhi
    rw [Contents.under, Contents.under, heq p hlo hhi]
  refine ⟨h.1, fun bind hbound => ?_⟩
  exact (h.2 bind fun p hlo hhi => by rw [hunder bind p hlo hhi]; exact hbound p hlo hhi).congr
    (hunder bind)

theorem Expr.Reads.bytes {held : Contents} {a : Nat} {w : Width} {e : Expr} (h : e.Reads held a w)
    (bind : Binding) (hbound : ∀ p, a ≤ p → p < a + w.bytes → (held.under bind p).isSome) :
    ∃ c, e.evaluate bind = some c ∧ c.width = w ∧
      ∀ p, a ≤ p → p < a + w.bytes → c.bytes.data[p - a]? = held.under bind p := by
  obtain ⟨hwidth, hshows⟩ := h
  obtain ⟨c, hc, hbytes⟩ := hshows bind hbound
  have hcw : c.width = w := (Expr.width_of_evaluate hc).trans hwidth
  refine ⟨c, hc, hcw, fun p hlo hhi => ?_⟩
  have hp := hbytes (p - a)
  rw [show a + (p - a) = p by omega, if_pos ⟨hlo, hhi⟩] at hp
  rw [Constant.getElem?_bytes, hcw, if_pos (by omega), hp]

def LoadsFrom (load : Nat → Width → Traced Fault (Option Expr)) (held : Contents) : Prop :=
  ∀ a w, 0 < w.bytes → a + w.bytes ≤ Address.last →
    ∃ r, (load a w).outcome = .ok r ∧ (r.isSome ↔ held.Present a w) ∧ ∀ e, r = some e → e.Reads held a w

structure Answers {μ : Type} [Device μ] (m : μ) (held : Contents) : Prop where
  load : LoadsFrom (Device.load m) held
  load_zero : ∀ a w, w.bytes = 0 → a ≤ Address.last → (Device.load m a w).outcome = .ok none
  missing : ∀ a w, a + w.bytes ≤ Address.last → ∃ s, Device.missing m a w = .ok s ∧
    ∀ p, p ∈ s ↔ p ∈ Address.range a w ∧ held p = none
  mem_blocks : ∀ p, p ∈ Device.blocks m ↔ (held p).isSome
  bounded : ∀ p, (held p).isSome → p < Address.last

namespace Answers

variable {μ : Type} [Device μ] {m : μ} {held : Contents} {a : Nat} {w : Width}

theorem missing_eq (h : Answers m held) (hlast : a + w.bytes ≤ Address.last) :
    Device.missing m a w = .ok ((IntervalSet.ofInterval (Address.range a w)).difference (Device.blocks m)) := by
  obtain ⟨s, hs, hmem⟩ := h.missing a w hlast
  rw [hs]
  apply congrArg Except.ok
  apply IntervalSet.ext_of_mem
  intro p
  rw [hmem, IntervalSet.mem_difference, IntervalSet.mem_ofInterval, h.mem_blocks, Option.not_isSome_iff_eq_none]

theorem present_iff (h : Answers m held) :
    held.Present a w ↔ ((IntervalSet.ofInterval (Address.range a w)).difference (Device.blocks m)).isEmpty := by
  rw [IntervalSet.isEmpty_iff]
  constructor
  · intro hpresent p hp
    obtain ⟨hin, hout⟩ := IntervalSet.mem_difference.1 hp
    obtain ⟨hlo, hhi⟩ := IntervalSet.mem_ofInterval.1 hin
    exact hout ((h.mem_blocks p).2 (hpresent p hlo hhi))
  · intro hempty p hlo hhi
    apply Classical.not_not.1
    intro hnone
    apply hempty p
    apply IntervalSet.mem_difference.2
    exact ⟨IntervalSet.mem_ofInterval.2 ⟨hlo, hhi⟩, fun hp => hnone ((h.mem_blocks p).1 hp)⟩

end Answers

theorem tiles_of_covers {a stop : Nat} {pieces : List Piece} (hle : a ≤ stop)
    (hpos : ∀ p ∈ pieces, 0 < p.2.width.bytes)
    (hasc : pieces.Pairwise (fun p q => p.1 + p.2.width.bytes ≤ q.1))
    (hcov : ∀ x, (∃ p ∈ pieces, p.1 ≤ x ∧ x < p.1 + p.2.width.bytes) ↔ a ≤ x ∧ x < stop) :
    Tiles stop a pieces := by
  induction pieces generalizing a with
  | nil =>
    have hempty := hcov a
    simp only [List.not_mem_nil, false_and, exists_false, false_iff] at hempty
    change a = stop
    omega
  | cons p rest ih =>
    obtain ⟨hrest, hasc⟩ := List.pairwise_cons.1 hasc
    have hp := hpos p (by simp)
    have hself : ∀ x, p.1 ≤ x → x < p.1 + p.2.width.bytes → a ≤ x ∧ x < stop :=
      fun x hlo hhi => (hcov x).1 ⟨p, by simp, hlo, hhi⟩
    have hfirst := hself p.1 (Nat.le_refl _) (by omega)
    have hlast := hself (p.1 + p.2.width.bytes - 1) (by omega) (by omega)
    have hstart : p.1 = a := by
      obtain ⟨q, hq, hlo, hhi⟩ := (hcov a).2 ⟨Nat.le_refl _, by omega⟩
      rcases List.mem_cons.1 hq with rfl | hq
      · omega
      · have := hrest q hq
        omega
    refine ⟨hstart, hp, ih (by omega) (fun q hq => hpos q (.tail _ hq)) hasc fun x => ?_⟩
    constructor
    · rintro ⟨q, hq, hlo, hhi⟩
      have hafter := hrest q hq
      have hin := (hcov x).1 ⟨q, .tail _ hq, hlo, hhi⟩
      omega
    · rintro ⟨hlo, hhi⟩
      obtain ⟨q, hq, hlo', hhi'⟩ := (hcov x).2 ⟨by omega, hhi⟩
      rcases List.mem_cons.1 hq with rfl | hq
      · omega
      · exact ⟨q, hq, hlo', hhi'⟩

end LayeredMemory
