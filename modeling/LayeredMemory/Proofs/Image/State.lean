import LayeredMemory.Proofs.Contents
import LayeredMemory.Proofs.Image.Coalesce
import LayeredMemory.Proofs.Image.Overwrite

namespace LayeredMemory

def ValueByte.ofByte (u : UInt8) : ValueByte := ⟨.const (.ofNat .w8 u.toNat), 0⟩

theorem ValueByte.under_ofByte (u : UInt8) (bind : Binding) : (ofByte u).under bind = some u := by
  have hbyte : (Constant.ofNat .w8 u.toNat).byte 0 = u := by
    rw [Constant.byte_ofNat, if_pos (by decide)]
    exact UInt8.ofNat_toNat
  change some ((Constant.ofNat .w8 u.toNat).byte 0) = some u
  rw [hbyte]

namespace ImageLayer

variable {m : ImageLayer} {a p : Nat} {v : Expr} {w : Width} {given : List Block}

def Valid (m : ImageLayer) : Prop := Block.Ordered 1 m.blocks

def held (m : ImageLayer) : Contents := fun p => (Block.byteIn m.blocks p).map .ofByte

theorem under_held (m : ImageLayer) (bind : Binding) : m.held.under bind = Block.byteIn m.blocks := by
  funext p
  cases hp : Block.byteIn m.blocks p with
  | none => simp [Contents.under, held, hp]
  | some u => simp [Contents.under, held, hp, ValueByte.under_ofByte]

theorem isSome_held : (m.held p).isSome ↔ (Block.byteIn m.blocks p).isSome := by
  rw [held, Option.isSome_map]

theorem byteIn_filled (l : List Block) (p : Nat) :
    Block.byteIn (l.filter (fun b => !b.bytes.isEmpty)) p = Block.byteIn l p := by
  induction l with
  | nil => rfl
  | cons b l ih =>
    by_cases hb : b.bytes.isEmpty
    · have hsize : b.bytes.size = 0 := by simpa [ByteArray.isEmpty] using hb
      have hnone : b.at? p = none := by
        apply Block.at?_eq_none.2
        rintro ⟨hlo, hhi⟩
        unfold Block.stop at hhi
        omega
      rw [List.filter_cons_of_neg (by simp [hb]), ih, Block.byteIn_cons, hnone, Option.none_or]
    · rw [List.filter_cons_of_pos (by simp [hb]), Block.byteIn_cons, Block.byteIn_cons, ih]

theorem ofBlocks_ok {d : Diagnostics} (h : (ofBlocks given d).outcome = .ok m) :
    m.Valid ∧ ∀ p, Block.byteIn m.blocks p = Block.byteIn given p := by
  let filled := given.filter (fun b => !b.bytes.isEmpty)
  have hfilled : ∀ b ∈ filled, b.start < b.stop := by
    intro b hb
    have hsize := (List.mem_filter.1 hb).2
    simp only [ByteArray.isEmpty, Bool.not_eq_true', beq_eq_false_iff_ne] at hsize
    unfold Block.stop
    omega
  have hperm := List.mergeSort_perm filled Block.startsFirst
  unfold ofBlocks at h
  dsimp only at h
  split at h
  · cases h
  · rename_i hfind
    have hlast : ∀ b ∈ filled, b.stop ≤ Address.last := by
      intro b hb
      simpa using List.find?_eq_none.1 hfind b hb
    cases hjoined : (Block.coalesce (filled.mergeSort Block.startsFirst)).outcome with
    | error e =>
      rw [Traced.outcome_bind_error hjoined] at h
      cases h
    | ok joined =>
      rw [Traced.outcome_bind_ok hjoined] at h
      obtain rfl : ⟨joined, d⟩ = m := Except.ok.inj h
      have hsorted := Block.ordered_of_coalesce (fun b hb => hfilled b (hperm.mem_iff.1 hb))
        (fun b hb => hlast b (hperm.mem_iff.1 hb)) hjoined
      obtain ⟨joined', hjoined', hordered, hbyte⟩ := Block.coalesce_ok hsorted
      obtain rfl := Except.ok.inj (hjoined.symm.trans hjoined')
      refine ⟨hordered, fun p => ?_⟩
      rw [hbyte, ← hsorted.byteIn_perm hperm]
      exact byteIn_filled given p

theorem unseparated?_eq_none {l : List Block} (h : Block.Ordered 1 l) : unseparated? l = none := by
  induction l with
  | nil => rfl
  | cons b l ih =>
    cases l with
    | nil => rfl
    | cons next rest =>
      have := h.before_tail next (by simp)
      rw [unseparated?, if_pos (by omega)]
      exact ih h.tail

theorem check_of_valid (h : m.Valid) : m.check = .ok () := by
  have hfind : m.blocks.find? (fun b => b.bytes.isEmpty) = none := by
    apply List.find?_eq_none.2
    intro b hb hempty
    have hne := h.nonempty b hb
    have hsize : b.bytes.size = 0 := by simpa [ByteArray.isEmpty] using hempty
    unfold Block.stop at hne
    omega
  rw [check, hfind]
  dsimp only
  rw [unseparated?_eq_none h]

theorem examine_of_valid (h : m.Valid) : m.examine = pure () := by
  unfold examine
  split
  · rw [check_of_valid h]
    rfl
  · rfl

theorem outcome_examine (h : m.Valid) : m.examine.outcome = .ok () := by
  rw [examine_of_valid h]
  rfl

theorem leads_overwriting {c : Constant} {l joined : List Block} (hlast : a + w.bytes ≤ Address.last)
    (h : (Block.coalesce (Block.write l a (c.resize w).bytes)).outcome = .ok joined) :
    (overwriting a c w).Leads l ⟨⟩ joined := by
  have hrange : (liftM (Address.rangeEnd a w) : Change (List Block) Failure Nat).Leads l (a + w.bytes) l := by
    rw [Address.rangeEnd_ok hlast]
    exact ⟨rfl, rfl⟩
  have hput : (set joined : Change (List Block) Failure PUnit).Leads [] ⟨⟩ joined := ⟨rfl, rfl⟩
  exact hrange.bind ((Change.leads_record _ l).bind ((Change.leads_modify _ l).bind
    (.bind ⟨rfl, rfl⟩ (.bind ⟨rfl, Traced.outcome_mapError_ok h _⟩ hput))))

theorem overwritten_eq {c : Constant} {joined : List Block} (hlast : a + w.bytes ≤ Address.last)
    (h : (Block.coalesce (Block.write m.blocks a (c.resize w).bytes)).outcome = .ok joined) :
    (m.overwritten a c w).state = { m with blocks := joined } ∧ (m.overwritten a c w).report.outcome = .ok () := by
  obtain ⟨hblocks, hok⟩ := leads_overwriting hlast h
  refine ⟨?_, hok⟩
  rw [← hblocks]
  rfl

theorem overwritten_ok (h : m.Valid) (hlast : a + w.bytes ≤ Address.last) (c : Constant) :
    (m.overwritten a c w).report.outcome = .ok () ∧ (m.overwritten a c w).state.Valid ∧
      ∀ p, Block.byteIn (m.overwritten a c w).state.blocks p =
        if a ≤ p ∧ p < a + w.bytes then some (c.byte (p - a)) else Block.byteIn m.blocks p := by
  have hsize : (c.resize w).bytes.size = w.bytes := Constant.size_bytes _
  have hfit : a + (c.resize w).bytes.size ≤ Address.last := by omega
  have hbyte := Block.byteIn_write h.loosen hfit
  obtain ⟨joined, hjoined, hordered, hsame⟩ := Block.coalesce_ok (Block.ordered_write h.loosen hfit)
  obtain ⟨hstate, hok⟩ := overwritten_eq hlast hjoined
  rw [hstate]
  refine ⟨hok, hordered, fun p => ?_⟩
  rw [hsame, hbyte, hsize]
  split
  · rw [Constant.getElem?_bytes, Constant.width_resize, if_pos (by omega), Constant.byte_resize,
      if_pos (by omega)]
  · rfl

theorem overwritten_overflow (hlast : Address.last < a + w.bytes) (c : Constant) :
    (m.overwritten a c w).state = m ∧ ∃ e, (m.overwritten a c w).report.outcome = .error e := by
  rw [overwritten, overwriting, Address.rangeEnd_error hlast]
  exact ⟨rfl, _, rfl⟩

inductive Stores (m : ImageLayer) (a : Nat) (v : Expr) (w : Width) (step : Step ImageLayer Fault Unit) : Prop
  | empty (hw : w.bytes = 0) (hok : step.report.outcome = .ok ()) (hstate : step.state = m)
  | refused (e : Fault) (herr : step.report.outcome = .error e) (hstate : step.state = m)
  | written (c : Constant) (hfold : v.fold = .const c) (hok : step.report.outcome = .ok ())
    (hvalid : step.state.Valid) (hbyte : ∀ p, Block.byteIn step.state.blocks p =
      if a ≤ p ∧ p < a + w.bytes then some (c.byte (p - a)) else Block.byteIn m.blocks p)

theorem store_cases (h : m.Valid) (a : Nat) (v : Expr) (w : Width) : Stores m a v w (m.store a v w) := by
  unfold store tryStore
  by_cases hw : w.bytes = 0
  · rw [if_pos (Width.isZero_of_bytes hw)]
    exact .empty hw rfl rfl
  · rw [if_neg (Width.not_isZero (Nat.pos_of_ne_zero hw))]
    cases hfold : v.fold.asConst? with
    | none => exact .refused _ rfl rfl
    | some c =>
      by_cases hlast : a + w.bytes ≤ Address.last
      · obtain ⟨hok, hvalid, hbyte⟩ := overwritten_ok h hlast c
        obtain ⟨-, hok⟩ := Step.examined_ok rfl hok (outcome_examine hvalid)
        exact .written c (Expr.eq_const_of_asConst? hfold) (Traced.outcome_mapError_ok hok _) hvalid hbyte
      · obtain ⟨hsame, e, he⟩ := overwritten_overflow (m := m) (a := a) (w := w) (by omega) c
        obtain ⟨hstate, herror⟩ := Step.examined_error hsame he examine
        exact .refused _ (Traced.outcome_mapError_error herror _) hstate

end ImageLayer

end LayeredMemory
