import LayeredMemory.Proofs.Follows
import LayeredMemory.Proofs.Image.State

namespace LayeredMemory.ImageLayer

variable {stored : List Expr} {last : Nat → Option Write} {a : Nat} {v : Expr} {w : Width} {m : ImageLayer}

theorem store_follows (h : m.Valid) (hf : Follows stored m.held last)
    (hok : (m.store a v w).report.outcome = .ok ()) :
    (m.store a v w).state.Valid ∧
      Follows (v :: stored) (m.store a v w).state.held ((Write.mk a v w).record last) := by
  cases store_cases h a v w with
  | empty hw _ hstate =>
    rw [hstate]
    refine ⟨h, hf.record ⟨a, v, w⟩ ?_ fun p _ => rfl⟩
    rintro p ⟨hlo, hhi⟩
    dsimp only at hlo hhi
    omega
  | refused e herr _ =>
    rw [herr] at hok
    cases hok
  | written c hfold _ hvalid hbyte =>
    refine ⟨hvalid, hf.record ⟨a, v, w⟩ ?_ ?_⟩
    · intro p hp
      have hin := (hbyte p).trans (if_pos hp)
      refine ⟨isSome_held.2 (by rw [hin]; rfl), fun bind hbind => ?_⟩
      obtain ⟨d, hd, hread⟩ := hbind.byte? hp
      have hfolded := Expr.evaluate_fold hd
      rw [hfold] at hfolded
      obtain rfl : c = d := Option.some.inj hfolded
      rw [under_held, hin, hread]
    · intro p hp
      have hout := (hbyte p).trans (if_neg hp)
      rw [held, hout]
      rfl

theorem store_error (h : m.Valid) {e : Fault} (herr : (m.store a v w).report.outcome = .error e) :
    (m.store a v w).state = m := by
  cases store_cases h a v w with
  | empty _ _ hstate => exact hstate
  | refused _ _ hstate => exact hstate
  | written c _ hok _ _ =>
    rw [hok] at herr
    cases herr

def givenByte (p : Nat) (u : UInt8) : Write := ⟨p, .const (.ofNat .w8 u.toNat), .w8⟩

def given (blocks : List Block) : Nat → Option Write := fun p => (Block.byteIn blocks p).map (givenByte p)

theorem byte?_givenByte (p : Nat) (u : UInt8) (bind : Binding) : (givenByte p u).byte? bind p = some u := by
  have hp : (givenByte p u).Covers p := ⟨Nat.le_refl p, Nat.lt_succ_self p⟩
  have hat : (givenByte p u).byteAt p = .ofByte u := by
    change ValueByte.mk _ (p - p) = _
    rw [Nat.sub_self]
    rfl
  rw [Write.byte?_eq_under hp, hat, ValueByte.under_ofByte]

theorem ofBlocks_follows {blocks : List Block} {d : Diagnostics} (h : (ofBlocks blocks d).outcome = .ok m) :
    m.Valid ∧ Follows stored m.held (given blocks) := by
  obtain ⟨hvalid, hbyte⟩ := ofBlocks_ok h
  refine ⟨hvalid, ?_, ?_⟩
  · intro p
    rw [isSome_held, hbyte, given, Option.isSome_map]
  · intro bind _ p s hs
    obtain ⟨u, hu, rfl⟩ := Option.map_eq_some_iff.1 hs
    rw [under_held, hbyte, byte?_givenByte, hu]
    exact ⟨u, rfl, rfl⟩

end LayeredMemory.ImageLayer
