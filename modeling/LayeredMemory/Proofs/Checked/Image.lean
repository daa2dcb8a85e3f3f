import LayeredMemory.Proofs.Checked.Folding
import LayeredMemory.Proofs.Memory.FailedStores

namespace LayeredMemory.Checked.Image

/-- Where the blocks of a list end. A search by ends may ask any of them. -/
def stops (l : List Block) : Except Overflow (List Nat) := l.mapM Block.stop?

def find? (l : List Block) (a : Nat) : Except Misfit (Option Block) := do
  let _ ← stops l
  return Block.find? l a

def load (m : ImageLayer) (a : Nat) (w : Width) : Except Misfit (Option Expr) :=
  if w.isZero then return none
  else do
    let stop ← Address.rangeEnd a w
    match ← find? m.blocks a with
    | none => return none
    | some b => do
      let blockStop ← b.stop?
      if blockStop < stop then return none
      else do
        let offset ← sub a b.start
        let last ← add offset w.bytes
        within last b.bytes.size
        return some (.const (b.read a w))

def step (start : Nat) (bytes : ByteArray) (s : Block.Writing) : Except Misfit Block.Writing := do
  let _ ← stops s.blocks
  let a ← add start s.written
  let left ← sub bytes.size s.written
  match Block.Writing.skip a s.done s.ahead with
  | (done, []) => return ⟨⟨a, bytes.extract s.written bytes.size⟩ :: done, [], bytes.size⟩
  | (done, b :: ahead) =>
    if b.start ≤ a then do
      let offset ← sub a b.start
      let room ← sub b.bytes.size offset
      let last ← add offset (min left room)
      within last b.bytes.size
      let written ← add s.written (min left room)
      return ⟨done, b.overwrite a (bytes.extract s.written written) :: ahead, written⟩
    else do
      let gap ← sub b.start a
      let written ← add s.written (min left gap)
      return ⟨⟨a, bytes.extract s.written written⟩ :: done, b :: ahead, written⟩

def run (start : Nat) (bytes : ByteArray) (s : Block.Writing) : Except Misfit Block.Writing :=
  if s.written < bytes.size then do
    let t ← step start bytes s
    if s.written < t.written then run start bytes t else throw (.stuck s.written)
  else return s
termination_by bytes.size - s.written

def write (l : List Block) (a : Nat) (bytes : ByteArray) : Except Misfit (List Block) := do
  let s ← run a bytes ⟨[], l, 0⟩
  return s.blocks

def joinFrom (last : Block) : List Block → Except Misfit (List Block)
  | [] => return [last]
  | b :: rest => do
    let stop ← last.stop?
    if b.start < stop then throw (.refused (.overlappingBlocks stop b.start))
    else if b.start = stop then joinFrom (last.join b) rest
    else do
      let joined ← joinFrom b rest
      return last :: joined

def coalesce : List Block → Except Misfit (List Block)
  | [] => return []
  | b :: rest => joinFrom b rest

def ofBlocks (given : List Block) (diagnostics : Diagnostics) : Except Misfit ImageLayer :=
  let filled := given.filter (fun b => !b.bytes.isEmpty)
  match filled.find? (fun b => decide (Address.last < b.stop)) with
  | some b => throw (.refused (.addressOverflow b.start b.bytes.size))
  | none => do
    let blocks ← coalesce (filled.mergeSort Block.startsFirst)
    return ⟨blocks, diagnostics⟩

def check (m : ImageLayer) : Except Misfit Unit := do
  let _ ← stops m.blocks
  m.check

def store (m : ImageLayer) (a : Nat) (v : Expr) (w : Width) : Except Misfit ImageLayer :=
  if w.isZero then return m
  else do
    let folded ← Folding.fold v
    match folded.asConst? with
    | none => throw (.refused (.notConstant v.text))
    | some c => do
      let _ ← Address.rangeEnd a w
      let resized ← Folding.resize c w
      let written ← write m.blocks a resized.bytes
      let blocks ← coalesce written
      let next := { m with blocks }
      if next.diagnostics.checksInvariants then check next
      return next

def intervals (l : List Block) : Except Misfit (List (Interval Nat)) :=
  l.mapM fun b => do
    let stop ← b.stop?
    liftM (Interval.ofBounds b.start stop)

def blocks (m : ImageLayer) : Except Misfit (List (Interval Nat)) := do
  let found ← intervals m.blocks
  ofList found

def missing (m : ImageLayer) (a : Nat) (w : Width) : Except Misfit (List (Interval Nat)) := do
  let whole ← requested a w
  let present ← blocks m
  difference whole present

variable {b last : Block} {l joined : List Block} {m : ImageLayer} {gap a start : Nat} {w : Width}
  {bytes : ByteArray} {old : List Block} {s : Block.Writing}

theorem stop?_ok (h : b.stop ≤ Address.last) : b.stop? = .ok b.stop := if_pos h

theorem stops_ok (h : ∀ b ∈ l, b.stop ≤ Address.last) : stops l = .ok (l.map Block.stop) :=
  Except.mapM_ok fun b hb => stop?_ok (h b hb)

theorem find?_ok (h : ∀ b ∈ l, b.stop ≤ Address.last) (a : Nat) : find? l a = .ok (Block.find? l a) := by
  rw [find?, bind_ok (overflow_ok (stops_ok h))]
  rfl

theorem load_ok (h : m.Valid) (hlast : a + w.bytes ≤ Address.last) {r : Option Expr}
    (hload : (m.load a w).outcome = .ok r) : load m a w = .ok r := by
  by_cases hw : 0 < w.bytes
  · rw [ImageLayer.outcome_load hw hlast] at hload
    obtain rfl := Except.ok.inj hload
    rw [load, if_neg (Width.not_isZero hw), bind_ok (fault_ok (Address.rangeEnd_ok hlast)),
      bind_ok (find?_ok h.bounded a)]
    cases hfind : Block.find? m.blocks a with
    | none => rfl
    | some b =>
      obtain ⟨hb, hstart, hin⟩ := Block.find?_eq_some hfind
      dsimp only
      rw [bind_ok (overflow_ok (stop?_ok (h.bounded b hb)))]
      split
      · rfl
      · rename_i hstop
        have hstop' : b.stop = b.start + b.bytes.size := rfl
        have hbounded := h.bounded b hb
        rw [bind_ok (overflow_ok (sub_ok hstart)), bind_ok (overflow_ok (add_ok (by omega))),
          bind_ok (within_ok (by omega))]
        rfl
  · have hzero := (ImageLayer.answers h).load_zero a w (by omega) (by omega)
    obtain rfl := Except.ok.inj (hzero.symm.trans hload)
    exact if_pos (Width.isZero_of_bytes (by omega))

theorem step_ok (h : Block.Writing.Sound start bytes old s) (hleft : s.written < bytes.size)
    (hlast : start + bytes.size ≤ Address.last) : step start bytes s = .ok (s.step start bytes) := by
  rw [step, bind_ok (overflow_ok (stops_ok h.ordered.bounded)), bind_ok (overflow_ok (add_ok (by omega))),
    bind_ok (overflow_ok (sub_ok h.written_le)), Block.Writing.step]
  dsimp only
  cases hskip : Block.Writing.skip (start + s.written) s.done s.ahead with
  | mk done rest =>
    cases rest with
    | nil => rfl
    | cons b ahead =>
      have hstop := Block.Writing.lt_stop_of_skip hskip
      have hsize : b.stop = b.start + b.bytes.size := rfl
      dsimp only
      split
      · rename_i hstart
        -- room counted from the offset in the block is room counted up to its end
        have hroom : b.bytes.size - (start + s.written - b.start) = b.stop - (start + s.written) := by omega
        rw [bind_ok (overflow_ok (sub_ok hstart)), bind_ok (overflow_ok (sub_ok (by omega))), hroom,
          bind_ok (overflow_ok (add_ok (by omega))), bind_ok (within_ok (by omega)),
          bind_ok (overflow_ok (add_ok (by omega)))]
        rfl
      · rw [bind_ok (overflow_ok (sub_ok (by omega))), bind_ok (overflow_ok (add_ok (by omega)))]
        rfl

theorem run_ok (h : Block.Writing.Sound start bytes old s) (hlast : start + bytes.size ≤ Address.last) :
    run start bytes s = .ok (s.run start bytes) := by
  induction s using Block.Writing.run.induct start bytes with
  | case1 s hleft ih =>
    rw [run, if_pos hleft, bind_ok (step_ok h hleft hlast), if_pos (Block.Writing.written_lt_step start bytes s hleft),
      ih (h.step hleft hlast), Block.Writing.run.eq_def start bytes s, if_pos hleft]
  | case2 s hdone =>
    rw [run, if_neg hdone, Block.Writing.run, if_neg hdone]
    rfl

theorem write_ok (h : Block.Ordered 0 l) (hlast : a + bytes.size ≤ Address.last) :
    write l a bytes = .ok (Block.write l a bytes) := by
  rw [write, bind_ok (run_ok (.init h) hlast)]
  rfl

theorem joinFrom_eq (h : ∀ b ∈ last :: l, b.stop ≤ Address.last) :
    joinFrom last l = (Block.joinFrom last l).outcome.mapError .refused := by
  induction l generalizing last with
  | nil => rfl
  | cons b rest ih =>
    rw [joinFrom, bind_ok (overflow_ok (stop?_ok (h last (by simp)))), Block.joinFrom]
    by_cases hover : b.start < last.stop
    · rw [if_pos hover, if_pos hover]
      rfl
    · rw [if_neg hover, if_neg hover]
      by_cases htouch : b.start = last.stop
      · rw [if_pos htouch, if_pos htouch, Traced.outcome_bind_ok (Traced.outcome_record _)]
        apply ih
        intro c hc
        rcases List.mem_cons.1 hc with rfl | hc
        · rw [Block.stop_join htouch]
          exact h b (by simp)
        · exact h c (.tail _ (.tail _ hc))
      · rw [if_neg htouch, if_neg htouch, ih fun c hc => h c (.tail _ hc), Traced.outcome_bind, Except.mapError_bind]
        rfl

theorem coalesce_eq (h : ∀ b ∈ l, b.stop ≤ Address.last) :
    coalesce l = (Block.coalesce l).outcome.mapError .refused := by
  cases l with
  | nil => rfl
  | cons b rest => exact joinFrom_eq h

theorem ofBlocks_eq (given : List Block) (d : Diagnostics) :
    ofBlocks given d = (ImageLayer.ofBlocks given d).outcome.mapError .refused := by
  rw [ofBlocks, ImageLayer.ofBlocks]
  cases hfind : (given.filter (fun b => !b.bytes.isEmpty)).find? (fun b => decide (Address.last < b.stop)) with
  | some b => rfl
  | none =>
    have hlast : ∀ b ∈ (given.filter (fun b => !b.bytes.isEmpty)).mergeSort Block.startsFirst,
        b.stop ≤ Address.last := by
      intro b hb
      simpa using List.find?_eq_none.1 hfind b (List.mem_mergeSort.1 hb)
    dsimp only
    rw [coalesce_eq hlast, Traced.outcome_bind, Except.mapError_bind]
    rfl

theorem check_ok (h : m.Valid) : check m = .ok () := by
  rw [check, bind_ok (overflow_ok (stops_ok h.bounded))]
  exact fault_ok (ImageLayer.check_of_valid h)

theorem store_ok (h : m.Valid) (hlast : a + w.bytes ≤ Address.last) {v : Expr}
    (hok : (m.store a v w).report.outcome = .ok ()) : store m a v w = .ok (m.store a v w).state := by
  rw [ImageLayer.store] at hok ⊢
  by_cases hw : 0 < w.bytes
  · rw [store, if_neg (Width.not_isZero hw), bind_ok (Folding.fold_ok v)]
    cases hfold : v.fold.asConst? with
    | none =>
      rw [ImageLayer.tryStore, if_neg (Width.not_isZero hw), hfold] at hok
      cases hok
    | some c =>
      have hsize : (c.resize w).bytes.size = w.bytes := Constant.size_bytes _
      have hfit : a + (c.resize w).bytes.size ≤ Address.last := by omega
      have hwritten := Block.ordered_write h.loosen hfit
      obtain ⟨joined, hjoined, hordered, -⟩ := Block.coalesce_ok hwritten
      obtain ⟨hjoins, hwrites⟩ := ImageLayer.overwritten_eq hlast hjoined
      have hvalid : (ImageLayer.mk joined m.diagnostics).Valid := hordered
      rw [ImageLayer.tryStore_const hw (Expr.eq_const_of_asConst? hfold)]
      have hstate := (Step.examined_ok hjoins hwrites (ImageLayer.outcome_examine hvalid)).1
      dsimp only
      rw [bind_ok (fault_ok (Address.rangeEnd_ok hlast)), bind_ok (Folding.resize_ok c w),
        bind_ok (write_ok h.loosen hfit), bind_ok ((coalesce_eq hwritten.bounded).trans (congrArg _ hjoined))]
      refine Eq.trans ?_ (congrArg Except.ok hstate.symm)
      split
      · rw [bind_ok (check_ok hvalid)]
        rfl
      · rfl
  · rw [ImageLayer.tryStore_zero (by omega)]
    exact if_pos (Width.isZero_of_bytes (by omega))

theorem intervals_ok (h : ∀ b ∈ l, b.stop ≤ Address.last) : intervals l = .ok (l.map Block.interval) := by
  apply Except.mapM_ok
  intro b hb
  rw [bind_ok (overflow_ok (stop?_ok (h b hb)))]
  exact bounds_ok (Interval.ofBounds_ok (Nat.le_add_right ..))

theorem blocks_ok (h : m.Valid) : blocks m = .ok m.blockSet.intervals := by
  rw [blocks, bind_ok (intervals_ok h.bounded)]
  exact bounds_ok (ofList_eq _)

theorem missing_ok (h : m.Valid) (hlast : a + w.bytes ≤ Address.last) {t : IntervalSet Nat}
    (ht : m.missing a w = .ok t) : missing m a w = .ok t.intervals := by
  rw [ImageLayer.missing, Address.requested_ok hlast] at ht
  obtain rfl := Except.ok.inj ht
  rw [missing, bind_ok (requested_ok hlast), bind_ok (blocks_ok h)]
  exact bounds_ok (difference_eq _ _)

end LayeredMemory.Checked.Image
