import LayeredMemory.Proofs.Image.State

namespace LayeredMemory

namespace Block

variable {b : Block} {l : List Block} {a p : Nat} {w : Width}

theorem byte_read (b : Block) (a : Nat) (w : Width) (i : Nat) :
    (b.read a w).byte i = if i < w.bytes then b.bytes.data[a - b.start + i]?.getD 0 else 0 := by
  rw [read, Constant.byte_ofNat, LittleEndian.read_eq, LittleEndian.byte_value]
  by_cases hi : i < w.bytes
  · rw [if_pos hi, if_pos hi, List.getElem?_take_of_lt hi, List.getElem?_drop, Array.getElem?_toList]
  · rw [if_neg hi, if_neg hi]

theorem read_of_contains (ha : b.Contains a) {i : Nat} (hi : i < w.bytes) (hp : b.Contains (a + i)) :
    b.at? (a + i) = some ((b.read a w).byte i) := by
  obtain ⟨u, hu⟩ := Option.isSome_iff_exists.1 (isSome_at?.2 hp)
  have hstart := ha.1
  have hread := hu
  rw [at?, if_pos hp.1, show a + i - b.start = a - b.start + i by omega] at hread
  rw [hu, byte_read, if_pos hi, hread]
  rfl

theorem Ordered.byteIn_stop (h : Ordered 1 l) (hb : b ∈ l) : byteIn l b.stop = none := by
  apply byteIn_eq_none.2
  intro c hc hp
  have hlo := hp.1
  have hhi := hp.2
  have hne := h.nonempty b hb
  rcases h.eq_or_apart hb hc with rfl | hapart
  · omega
  · omega

theorem mem_ofList_intervals : p ∈ IntervalSet.ofList (l.map interval) ↔ (byteIn l p).isSome := by
  rw [IntervalSet.mem_ofList, isSome_byteIn]
  constructor
  · rintro ⟨i, hi, hp⟩
    obtain ⟨b, hb, rfl⟩ := List.mem_map.1 hi
    exact ⟨b, hb, hp⟩
  · rintro ⟨b, hb, hp⟩
    exact ⟨b.interval, List.mem_map_of_mem hb, hp⟩

end Block

namespace ImageLayer

variable {m : ImageLayer} {a p : Nat} {w : Width}

theorem outcome_load (hw : 0 < w.bytes) (hlast : a + w.bytes ≤ Address.last) :
    (m.load a w).outcome = .ok (match Block.find? m.blocks a with
      | none => none
      | some b => if b.stop < a + w.bytes then none else some (.const (b.read a w))) := by
  rw [load, if_neg (Width.not_isZero hw), Address.rangeEnd_ok hlast,
    Traced.outcome_bind_ok (a := a + w.bytes) rfl]
  cases Block.find? m.blocks a with
  | none => rfl
  | some b =>
    dsimp only
    split
    · rfl
    · rfl

theorem reads_block (h : m.Valid) {b : Block} (hb : b ∈ m.blocks) (ha : b.Contains a)
    (hstop : a + w.bytes ≤ b.stop) : (Expr.const (b.read a w)).Reads m.held a w := by
  refine ⟨rfl, fun bind _ => ⟨b.read a w, rfl, fun i => ?_⟩⟩
  by_cases hi : i < w.bytes
  · have hstart := ha.1
    have hp : b.Contains (a + i) := ⟨by omega, by omega⟩
    rw [if_pos ⟨by omega, by omega⟩, under_held, h.byteIn_of_mem hb hp]
    exact Block.read_of_contains ha hi hp
  · rw [if_neg (by omega), Block.byte_read, if_neg hi]

theorem present_iff (h : m.Valid) {b : Block} (hb : b ∈ m.blocks) (ha : b.Contains a) :
    m.held.Present a w ↔ a + w.bytes ≤ b.stop := by
  have hlo := ha.1
  have hhi := ha.2
  constructor
  · intro hpresent
    apply Nat.le_of_not_lt
    intro hstop
    have hend := hpresent b.stop (Nat.le_of_lt hhi) hstop
    rw [isSome_held, h.byteIn_stop hb] at hend
    cases hend
  · intro hstop p hpa hpw
    apply isSome_held.2
    apply Block.isSome_byteIn.2
    exact ⟨b, hb, by omega, by omega⟩

theorem loadsFrom (h : m.Valid) : LoadsFrom m.load m.held := by
  intro a w hw hlast
  refine ⟨_, outcome_load hw hlast, ?_⟩
  cases hfind : Block.find? m.blocks a with
  | none =>
    refine ⟨?_, fun e he => by cases he⟩
    constructor
    · intro hsome
      cases hsome
    · intro hpresent
      have hfirst := hpresent a (Nat.le_refl a) (by omega)
      rw [isSome_held, h.find?_eq_none hfind] at hfirst
      exact hfirst
  | some b =>
    obtain ⟨hb, ha⟩ := Block.find?_eq_some hfind
    rw [present_iff h hb ha]
    dsimp only
    split
    · refine ⟨?_, fun e he => by cases he⟩
      simp only [Option.isSome_none, Bool.false_eq_true, false_iff]
      omega
    · refine ⟨?_, fun e he => ?_⟩
      · simp only [Option.isSome_some, true_iff]
        omega
      · obtain rfl := Option.some.inj he
        exact reads_block h hb ha (by omega)

theorem load_zero (m : ImageLayer) (hw : w.bytes = 0) (a : Nat) : (m.load a w).outcome = .ok none := by
  rw [load, if_pos (Width.isZero_of_bytes hw)]
  rfl

theorem load_past_end (hlast : Address.last < a + w.bytes) (e : Expr) : (m.load a w).outcome ≠ .ok (some e) := by
  unfold load
  split
  · exact nofun
  · rw [Address.rangeEnd_error hlast]
    exact nofun

theorem missing_spec (hlast : a + w.bytes ≤ Address.last) :
    ∃ s, m.missing a w = .ok s ∧ ∀ p, p ∈ s ↔ p ∈ Address.range a w ∧ m.held p = none := by
  refine ⟨_, by rw [missing, Address.requested_ok hlast]; rfl, fun p => ?_⟩
  rw [IntervalSet.mem_difference, IntervalSet.mem_ofInterval, blockSet, Block.mem_ofList_intervals,
    ← isSome_held, Option.not_isSome_iff_eq_none]

theorem answers (h : m.Valid) : Answers m m.held where
  load := loadsFrom h
  load_zero := fun a w hw _ => load_zero m hw a
  missing := fun a w hlast => missing_spec hlast
  mem_blocks := by
    intro p
    rw [isSome_held]
    exact Block.mem_ofList_intervals
  bounded := by
    intro p hp
    obtain ⟨b, hb, hc⟩ := Block.isSome_byteIn.1 (isSome_held.1 hp)
    exact Nat.lt_of_lt_of_le hc.2 (h.bounded b hb)

end ImageLayer

end LayeredMemory
