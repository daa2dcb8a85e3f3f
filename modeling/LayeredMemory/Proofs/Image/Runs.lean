import LayeredMemory.Proofs.Image.Answers
import LayeredMemory.Proofs.Write

namespace LayeredMemory

namespace Block

variable {b c : Block} {l l' : List Block} {p : Nat} {bytes : Nat → Option UInt8}

structure MaximalRuns (bytes : Nat → Option UInt8) (l : List Block) : Prop where
  ascending : l.Pairwise (fun b c => b.start < c.start)
  nonempty : ∀ b ∈ l, 0 < b.bytes.size
  holds : ∀ b ∈ l, ∀ i < b.bytes.size, bytes (b.start + i) = b.bytes.data[i]?
  gap_before : ∀ b ∈ l, ∀ p, p + 1 = b.start → bytes p = none
  gap_behind : ∀ b ∈ l, bytes b.stop = none
  covers : ∀ p, (bytes p).isSome → ∃ b ∈ l, b.Contains p

theorem Ordered.maximalRuns (h : Ordered 1 l) : MaximalRuns (byteIn l) l where
  ascending := h.ascending.imp_of_mem fun {b c} hb _ hbc => by
    have := h.nonempty b hb
    omega
  nonempty := by
    intro b hb
    have hne := h.nonempty b hb
    have hstop : b.stop = b.start + b.bytes.size := rfl
    omega
  holds := by
    intro b hb i hi
    have hstop : b.stop = b.start + b.bytes.size := rfl
    rw [h.byteIn_of_mem hb ⟨by omega, by omega⟩, at?, if_pos (by omega), Nat.add_sub_cancel_left]
  gap_before := by
    intro b hb p hp
    apply byteIn_eq_none.2
    intro c hc hcp
    have hlo := hcp.1
    have hhi := hcp.2
    have hne := h.nonempty b hb
    rcases h.eq_or_apart hb hc with rfl | hapart
    · omega
    · omega
  gap_behind := fun b hb => h.byteIn_stop hb
  covers := fun p hp => isSome_byteIn.1 hp

namespace MaximalRuns

theorem isSome (h : MaximalRuns bytes l) (hb : b ∈ l) (hp : b.Contains p) : (bytes p).isSome := by
  have hlo := hp.1
  have hhi := hp.2
  have hstop : b.stop = b.start + b.bytes.size := rfl
  have hi : p - b.start < b.bytes.size := by omega
  have hbyte := h.holds b hb (p - b.start) hi
  rw [show b.start + (p - b.start) = p by omega] at hbyte
  rw [hbyte, isSome_getElem?]
  exact hi

theorem start_le (h : MaximalRuns bytes l) (h' : MaximalRuns bytes l') (hb : b ∈ l) (hc : c ∈ l')
    (hbc : c.Contains b.start) : b.start ≤ c.start := by
  have hhi := hbc.2
  apply Nat.le_of_not_lt
  intro hlt
  have hsome := h'.isSome hc (p := b.start - 1) ⟨by omega, by omega⟩
  rw [h.gap_before b hb (b.start - 1) (by omega)] at hsome
  cases hsome

theorem stop_le (h : MaximalRuns bytes l) (h' : MaximalRuns bytes l') (hb : b ∈ l) (hc : c ∈ l')
    (hbc : c.Contains b.start) : b.stop ≤ c.stop := by
  have hlo := hbc.1
  have hhi := hbc.2
  apply Nat.le_of_not_lt
  intro hlt
  have hsome := h.isSome hb (p := c.stop) ⟨by omega, hlt⟩
  rw [h'.gap_behind c hc] at hsome
  cases hsome

theorem mem_of_mem (h : MaximalRuns bytes l) (h' : MaximalRuns bytes l') (hb : b ∈ l) : b ∈ l' := by
  have hpos := h.nonempty b hb
  have hstop : b.stop = b.start + b.bytes.size := rfl
  have hself : b.Contains b.start := ⟨Nat.le_refl _, by omega⟩
  obtain ⟨c, hc, hbc⟩ := h'.covers b.start (h.isSome hb hself)
  have hstart : c.start = b.start := Nat.le_antisymm hbc.1 (h.start_le h' hb hc hbc)
  have hcself : b.Contains c.start := by rwa [hstart]
  have hstops : c.stop = b.stop := Nat.le_antisymm (h'.stop_le h hc hb hcself) (h.stop_le h' hb hc hbc)
  have hsize : b.bytes.size = c.bytes.size := by
    have hstop' : c.stop = c.start + c.bytes.size := rfl
    omega
  have hbytes : b.bytes = c.bytes := by
    apply ByteArray.ext
    apply Array.ext_getElem?
    intro i
    by_cases hi : i < b.bytes.size
    · rw [← h.holds b hb i hi, ← h'.holds c hc i (by omega), hstart]
    · rw [Array.getElem?_eq_none (Nat.le_of_not_lt hi), Array.getElem?_eq_none]
      rw [ByteArray.size_data]
      omega
  have heq : b = c := by
    obtain ⟨start, contents⟩ := b
    obtain ⟨start', contents'⟩ := c
    obtain rfl : start' = start := hstart
    obtain rfl : contents = contents' := hbytes
    rfl
  rw [heq]
  exact hc

theorem unique (h : MaximalRuns bytes l) (h' : MaximalRuns bytes l') : l = l' := by
  have hnodup : ∀ {l}, MaximalRuns bytes l → l.Nodup := fun h => h.ascending.imp fun {b c} hbc heq => by
    rw [heq] at hbc
    exact Nat.lt_irrefl _ hbc
  have hperm : l.Perm l' := (List.perm_ext_iff_of_nodup (hnodup h) (hnodup h')).2 fun b =>
    ⟨fun hb => h.mem_of_mem h' hb, fun hb => h'.mem_of_mem h hb⟩
  apply hperm.eq_of_pairwise _ h.ascending h'.ascending
  intro b c _ _ hbc hcb
  exact absurd hbc (Nat.lt_asymm hcb)

end MaximalRuns

theorem maximalRuns_iff (h : Ordered 1 l) : MaximalRuns (byteIn l) l' ↔ l' = l := by
  constructor
  · intro h'
    exact h'.unique h.maximalRuns
  · rintro rfl
    exact h.maximalRuns

end Block

def Write.foldedByte? (s : Write) (p : Nat) : Option UInt8 :=
  s.value.fold.asConst?.bind fun c => (c.resize s.width).bytes.data[p - s.start]?

def Write.update (s : Write) (bytes : Nat → Option UInt8) : Nat → Option UInt8 :=
  fun p => if s.Covers p then s.foldedByte? p else bytes p

namespace ImageLayer

/-- Stores to an image layer: those that hand a refusal to the caller, and those that nobody expects to be
refused. -/
inductive Op
  | tryStore (s : Write)
  | store (s : Write)

namespace Op

def write : Op → Write
  | tryStore s | store s => s

def after (m : ImageLayer) : Op → ImageLayer
  | tryStore s => (m.tryStore s.start s.value s.width).state
  | store s => (m.store s.start s.value s.width).state

def succeeds (m : ImageLayer) : Op → Bool
  | tryStore s => (m.tryStore s.start s.value s.width).report.outcome.isOk
  | store s => (m.store s.start s.value s.width).report.outcome.isOk

end Op

/-- Goes on after a store that fails. -/
def run (m : ImageLayer) (ops : List Op) : ImageLayer := ops.foldl Op.after m

def bytesAfter (m : ImageLayer) (bytes : Nat → Option UInt8) : List Op → Nat → Option UInt8
  | [] => bytes
  | op :: ops => bytesAfter (op.after m) (if op.succeeds m then op.write.update bytes else bytes) ops

variable {m : ImageLayer} {a : Nat} {w : Width} {op : Op}

theorem succeeds_eq_store (m : ImageLayer) (op : Op) :
    op.succeeds m = (m.store op.write.start op.write.value op.write.width).report.outcome.isOk := by
  cases op with
  | store s => rfl
  | tryStore s =>
    change _ = ((m.tryStore s.start s.value s.width).report.mapError Failure.asFault).outcome.isOk
    cases h : (m.tryStore s.start s.value s.width).report.outcome with
    | ok u =>
      rw [Op.succeeds, h, Traced.outcome_mapError_ok h]
      rfl
    | error e =>
      rw [Op.succeeds, h, Traced.outcome_mapError_error h]
      rfl

theorem after_eq_store (m : ImageLayer) (op : Op) :
    op.after m = (m.store op.write.start op.write.value op.write.width).state := by
  cases op with
  | tryStore s => rfl
  | store s => rfl

theorem foldedByte?_of_const {s : Write} {c : Constant} {p : Nat} (hfold : s.value.fold = .const c)
    (hp : s.Covers p) : s.foldedByte? p = some (c.byte (p - s.start)) := by
  have hlo := hp.1
  have hhi := hp.2
  have hin : p - s.start < s.width.bytes := by omega
  rw [Write.foldedByte?, hfold]
  change (c.resize s.width).bytes.data[p - s.start]? = _
  rw [Constant.getElem?_bytes, Constant.width_resize, if_pos hin, Constant.byte_resize, if_pos hin]

theorem step_spec (h : m.Valid) (op : Op) :
    (op.after m).Valid ∧ Block.byteIn (op.after m).blocks =
      if op.succeeds m then op.write.update (Block.byteIn m.blocks) else Block.byteIn m.blocks := by
  rw [after_eq_store, succeeds_eq_store]
  generalize op.write = s
  cases store_cases h s.start s.value s.width with
  | empty hw hok hstate =>
    rw [hstate, if_pos (by rw [hok]; rfl)]
    refine ⟨h, ?_⟩
    funext p
    have hout : ¬ s.Covers p := by
      rintro ⟨hlo, hhi⟩
      omega
    exact (if_neg hout).symm
  | refused e herr hstate =>
    rw [herr, hstate]
    exact ⟨h, rfl⟩
  | written c hfold hok hvalid hbyte =>
    rw [if_pos (by rw [hok]; rfl)]
    refine ⟨hvalid, ?_⟩
    funext p
    by_cases hp : s.Covers p
    · have hin := (hbyte p).trans (if_pos hp)
      rw [hin, Write.update, if_pos hp, foldedByte?_of_const hfold hp]
    · have hout := (hbyte p).trans (if_neg hp)
      rw [hout, Write.update, if_neg hp]

theorem run_spec (h : m.Valid) (ops : List Op) :
    (m.run ops).Valid ∧ Block.byteIn (m.run ops).blocks = bytesAfter m (Block.byteIn m.blocks) ops := by
  induction ops generalizing m with
  | nil => exact ⟨h, rfl⟩
  | cons op ops ih =>
    obtain ⟨hvalid, hbytes⟩ := step_spec h op
    obtain ⟨hrest, heq⟩ := ih hvalid
    refine ⟨hrest, ?_⟩
    rw [bytesAfter, ← hbytes]
    exact heq

theorem run_of_ofBlocks {given : List Block} {d : Diagnostics} (h : (ofBlocks given d).outcome = .ok m)
    (ops : List Op) :
    (m.run ops).Valid ∧ Block.byteIn (m.run ops).blocks = bytesAfter m (Block.byteIn given) ops := by
  obtain ⟨hvalid, hgiven⟩ := ofBlocks_ok h
  rw [← funext hgiven]
  exact run_spec hvalid ops

theorem const_of_load (hw : 0 < w.bytes) (hlast : a + w.bytes ≤ Address.last) {e : Expr}
    (h : (m.load a w).outcome = .ok (some e)) : ∃ c, e = .const c := by
  rw [outcome_load hw hlast] at h
  have h := Except.ok.inj h
  split at h
  · cases h
  · split at h
    · cases h
    · exact ⟨_, (Option.some.inj h).symm⟩

theorem load_bytes (h : m.Valid) (hw : 0 < w.bytes) (hlast : a + w.bytes ≤ Address.last) :
    ∃ r, (m.load a w).outcome = .ok r ∧
      (r.isSome ↔ ∀ p, a ≤ p → p < a + w.bytes → (Block.byteIn m.blocks p).isSome) ∧
      ∀ e, r = some e → ∃ c, e = .const c ∧ c.width = w ∧
        ∀ p, a ≤ p → p < a + w.bytes → c.bytes.data[p - a]? = Block.byteIn m.blocks p := by
  obtain ⟨r, hload, hsome, hreads⟩ := loadsFrom h a w hw hlast
  have hpresent : r.isSome ↔ ∀ p, a ≤ p → p < a + w.bytes → (Block.byteIn m.blocks p).isSome := by
    rw [hsome]
    apply forall_congr'
    intro p
    rw [isSome_held]
  refine ⟨r, hload, hpresent, fun e he => ?_⟩
  obtain ⟨c, rfl⟩ := const_of_load hw hlast (hload.trans (congrArg Except.ok he))
  obtain ⟨d, hd, hdw, hbytes⟩ := (hreads _ he).bytes (fun _ => none) fun p hlo hhi => by
    rw [under_held]
    exact hpresent.1 (by rw [he]; rfl) p hlo hhi
  obtain rfl : c = d := Option.some.inj hd
  refine ⟨c, rfl, hdw, fun p hlo hhi => ?_⟩
  rw [hbytes p hlo hhi, under_held]

/-- The blocks do not depend on how the bytes came to their addresses. -/
theorem blocks_are_runs {given : List Block} {d : Diagnostics} (h : (ofBlocks given d).outcome = .ok m)
    (ops : List Op) :
    (∀ l, Block.MaximalRuns (bytesAfter m (Block.byteIn given) ops) l ↔ l = (m.run ops).blocks) ∧
      (∀ given' d' m' ops', (ofBlocks given' d').outcome = .ok m' →
        bytesAfter m' (Block.byteIn given') ops' = bytesAfter m (Block.byteIn given) ops →
          (m'.run ops').blocks = (m.run ops).blocks) ∧
      ∀ a w, 0 < w.bytes → a + w.bytes ≤ Address.last → ∃ r, ((m.run ops).load a w).outcome = .ok r ∧
        (r.isSome ↔ ∀ p, a ≤ p → p < a + w.bytes → (bytesAfter m (Block.byteIn given) ops p).isSome) ∧
        ∀ e, r = some e → ∃ c, e = .const c ∧ c.width = w ∧
          ∀ p, a ≤ p → p < a + w.bytes → c.bytes.data[p - a]? = bytesAfter m (Block.byteIn given) ops p := by
  obtain ⟨hvalid, hbytes⟩ := run_of_ofBlocks h ops
  rw [← hbytes]
  refine ⟨fun l => Block.maximalRuns_iff hvalid, ?_, fun a w hw hlast => load_bytes hvalid hw hlast⟩
  intro given' d' m' ops' h' hsame
  obtain ⟨hvalid', hbytes'⟩ := run_of_ofBlocks h' ops'
  rw [← Block.maximalRuns_iff hvalid, ← hsame, ← hbytes']
  exact Block.Ordered.maximalRuns hvalid'

theorem blocks_are_runs_bridged :
    let given : List Block := [⟨4, ⟨#[5, 6]⟩⟩, ⟨0, ⟨#[1, 2]⟩⟩]
    let ops : List Op := [.tryStore ⟨5, .symbol "x" .w8, .w8⟩, .store ⟨1, .const (.ofNat .w16 0x0307), .w32⟩]
    ∃ m, (ofBlocks given {}).outcome = .ok m ∧
      (∀ l, Block.MaximalRuns (bytesAfter m (Block.byteIn given) ops) l ↔ l = [⟨0, ⟨#[1, 7, 3, 0, 0, 6]⟩⟩]) ∧
      ∃ c, ((m.run ops).load 1 .w16).outcome = .ok (some (.const c)) ∧ c.bytes.data[1]? = some 3 := by
  intro given ops
  let runs : Block := ⟨0, ⟨#[1, 7, 3, 0, 0, 6]⟩⟩
  have hfilled : given.filter (fun b => !b.bytes.isEmpty) = given := rfl
  have hsorted : given.mergeSort Block.startsFirst = [⟨0, ⟨#[1, 2]⟩⟩, ⟨4, ⟨#[5, 6]⟩⟩] := by
    simp [given, List.mergeSort, Block.startsFirst]
  have h : (ofBlocks given {}).outcome = .ok ⟨[⟨0, ⟨#[1, 2]⟩⟩, ⟨4, ⟨#[5, 6]⟩⟩], {}⟩ := by
    unfold ofBlocks
    dsimp only
    rw [hfilled, hsorted]
    rfl
  have hvalue : ((Constant.ofNat .w16 0x0307).resize .w32).bytes = ⟨#[7, 3, 0, 0]⟩ := by
    apply ByteArray.ext
    apply Array.toList_inj.1
    rw [Constant.bytes, LittleEndian.toList_ofNat]
    rfl
  -- the write goes over the end of the first block, the gap, and the start of the second block
  have hwrite : Block.write [⟨0, ⟨#[1, 2]⟩⟩, ⟨4, ⟨#[5, 6]⟩⟩] 1 ⟨#[7, 3, 0, 0]⟩ =
      [⟨0, ⟨#[1, 7]⟩⟩, ⟨2, ⟨#[3, 0]⟩⟩, ⟨4, ⟨#[0, 6]⟩⟩] := by
    rw [Block.write, Block.Writing.run, if_pos (by decide), Block.Writing.run, if_pos (by decide),
      Block.Writing.run, if_pos (by decide), Block.Writing.run, if_neg (by decide)]
    rfl
  have hjoined : (Block.coalesce (Block.write [⟨0, ⟨#[1, 2]⟩⟩, ⟨4, ⟨#[5, 6]⟩⟩] 1
      ((Constant.ofNat .w16 0x0307).resize .w32).bytes)).outcome = .ok [runs] := by
    rw [hvalue, hwrite]
    rfl
  obtain ⟨hover, hok⟩ := overwritten_eq (m := ⟨_, {}⟩) (w := .w32) (by decide) hjoined
  have hexamined : (examine ⟨[runs], {}⟩).outcome = .ok () := rfl
  have hblocks : (run ⟨[⟨0, ⟨#[1, 2]⟩⟩, ⟨4, ⟨#[5, 6]⟩⟩], {}⟩ ops).blocks = [runs] :=
    congrArg ImageLayer.blocks (Step.examined_ok hover hok hexamined).1
  obtain ⟨hruns, -, hload⟩ := blocks_are_runs h ops
  rw [hblocks] at hruns
  have hone := (hruns [runs]).2 rfl
  have hstop : runs.stop = 6 := rfl
  obtain ⟨r, hr, hsome, hvalue⟩ := hload 1 .w16 (by decide) (by decide)
  obtain ⟨e, rfl⟩ := Option.isSome_iff_exists.1 (hsome.2 fun p hlo hhi => by
    change p < 1 + 2 at hhi
    exact hone.isSome (List.mem_singleton_self runs) ⟨Nat.zero_le p, by omega⟩)
  obtain ⟨c, rfl, -, hbytes⟩ := hvalue e rfl
  refine ⟨_, h, hruns, c, hr, ?_⟩
  exact (hbytes 2 (by decide) (by decide)).trans (hone.holds runs (List.mem_singleton_self runs) 2 (by decide))

end ImageLayer

end LayeredMemory
