import LayeredMemory.Proofs.Checked.Folding
import LayeredMemory.Proofs.Sparse.Answers

/-!
The sparse layer once more, with entries as a machine keeps them: where an entry ends and which bytes of its value it
shows are separate words. Each operation works them out with checked arithmetic, and takes an entry over only if
its range has the width of its slice. On a valid layer nothing of this ever fails.
-/

namespace LayeredMemory

@[ext] structure Span where
  start : Nat
  stop : Nat
  source : Expr
  lo : Width
  hi : Width

def Entry.span (e : Entry) : Span := ⟨e.start, e.stop, e.slice.source, e.slice.lo, e.slice.hi⟩

namespace Span

open Checked (sub)

def width (s : Span) : Except Overflow Width := s.hi.sub s.lo

def low (s : Span) (stop : Nat) (length : Width) : Except Misfit Span := do
  let width ← s.width
  if length.bytes ≤ width.bytes then do
    let hi ← s.lo.add length
    return { s with stop, hi }
  else throw (.fault (.shortSlice width length))

def high (s : Span) (start : Nat) (length : Width) : Except Misfit Span := do
  let width ← s.width
  if length.bytes ≤ width.bytes then do
    let lo ← s.hi.sub length
    return { s with start, lo }
  else throw (.fault (.shortSlice width length))

def upTo (a : Nat) (s : Span) : Except Misfit Span := do
  let size ← sub a s.start
  let length ← Address.widthOf size
  s.low a length

def onward (a : Nat) (s : Span) : Except Misfit Span := do
  let size ← sub s.stop a
  let length ← Address.widthOf size
  s.high a length

def expr (s : Span) : Except Misfit Expr :=
  if s.lo.bytes < s.hi.bytes then do
    let width ← s.width
    let shifted :=
      if s.lo.isZero then s.source
      else .binary .shr s.source (.const (.ofNat .w64 s.lo.bits)) s.source.width
    Checked.Folding.resized shifted width
  else throw (.fault (.emptySlice s.lo s.hi))

def piece (a stop : Nat) (s : Span) : Except Misfit Piece := do
  let s ← (if s.start < a then s.onward a else return s)
  let s ← (if stop < s.stop then s.upTo stop else return s)
  let e ← s.expr
  return (s.start, e)

def entry (s : Span) : Except Misfit Entry :=
  if h : s.lo.bytes ≤ s.hi.bytes ∧ s.stop = s.start + (s.hi.bytes - s.lo.bytes) then
    .ok ⟨s.start, s.source, s.lo, s.hi, h.1⟩
  else .error (.mismatch s.start s.stop)

end Span

namespace Checked.Sparse

def apart (last : Option Nat) (s : Span) : Except Misfit Unit :=
  match last with
  | some stop => if s.start < stop then throw (.fault (.breach (.overlappingEntry s.start stop))) else return ()
  | none => return ()

def checkFrom (last : Option Nat) : List Span → Except Misfit Unit
  | [] => return ()
  | s :: rest =>
    if s.stop ≤ s.start then throw (.fault (.breach (.emptyEntry s.start)))
    else do
      let size ← sub s.stop s.start
      let width ← s.width
      if size = width.bytes then do
        apart last s
        checkFrom (some s.stop) rest
      else throw (.mismatch s.start s.stop)

def check (m : SparseLayer) : Except Misfit Unit := checkFrom none (m.entries.map Entry.span)

def load (m : SparseLayer) (a : Nat) (w : Width) : Except Misfit (Option Expr) :=
  if w.isZero then return none
  else do
    let stop ← Address.rangeEnd a w
    let found := m.overlapping a stop
    if SparseLayer.coveredTo a found < stop then return none
    else do
      let pieces ← found.mapM (fun e => e.span.piece a stop)
      compose a w pieces

def keepBelow (a : Nat) (s : Span) (entries : List Entry) : Except Misfit (List Entry) :=
  if s.start < a then do
    let part ← s.upTo a
    let part ← part.entry
    return SparseLayer.replaceAt part.start [part] entries
  else return entries

def keepAbove (stop : Nat) (s : Span) (entries : List Entry) : Except Misfit (List Entry) :=
  if stop < s.stop then do
    let part ← s.onward stop
    let part ← part.entry
    return SparseLayer.replaceAt part.start [part] entries
  else return entries

def cut (a stop : Nat) (entries : List Entry) (e : Entry) : Except Misfit (List Entry) := do
  let entries ← keepBelow a e.span (SparseLayer.replaceAt e.start [] entries)
  keepAbove stop e.span entries

def overwritten (m : SparseLayer) (a : Nat) (v : Expr) (w : Width) : Except Misfit SparseLayer := do
  let stop ← Address.rangeEnd a w
  let entries ← (SparseLayer.scan m.entries a stop).foldlM (cut a stop) m.entries
  let fresh ← (Span.mk a stop v .zero w).entry
  return { m with entries := SparseLayer.replaceAt a [fresh] entries }

def store (m : SparseLayer) (a : Nat) (v : Expr) (w : Width) : Except Misfit SparseLayer :=
  if w.isZero then return m
  else do
    let next ← overwritten m a v w
    if next.diagnostics.checksInvariants then check next
    return next

def intervals (l : List Entry) : Except Misfit (List (Interval Nat)) :=
  l.mapM fun e => liftM (Interval.ofBounds e.span.start e.span.stop)

def missing (m : SparseLayer) (a : Nat) (w : Width) : Except Misfit (List (Interval Nat)) := do
  let stop ← Address.rangeEnd a w
  let found ← intervals (m.overlapping a stop)
  let present ← ofList found
  let whole ← requested a w
  difference whole present

def blocks (m : SparseLayer) : Except Misfit (List (Interval Nat)) := do
  let found ← intervals m.entries
  ofList found

end Checked.Sparse

theorem Entry.start_onward {e f : Entry} {a : Nat} (h : e.onward a = .ok f) : f.start = a := by
  obtain ⟨w, -, h⟩ := Except.bind_eq_ok.1 h
  obtain ⟨s, -, h⟩ := Except.bind_eq_ok.1 h
  obtain rfl := Except.ok.inj h
  rfl

theorem Entry.within_eq_bind (start stop : Nat) (e : Entry) :
    e.within start stop = (if e.start < start then e.onward start else pure e) >>= fun cut =>
      if stop < cut.stop then cut.upTo stop else pure cut := by
  unfold within
  split
  · rfl
  · rfl

namespace Span

variable {e f : Entry} {a stop : Nat} {s : Slice} {w : Width}

@[simp] theorem start_span (e : Entry) : e.span.start = e.start := rfl

@[simp] theorem stop_span (e : Entry) : e.span.stop = e.stop := rfl

theorem width_span (e : Entry) : e.span.width = .ok e.slice.width := if_pos e.slice.lo_le_hi

theorem bytes_of_width {s : Span} (h : s.width = .ok w) :
    s.lo.bytes ≤ s.hi.bytes ∧ w.bytes = s.hi.bytes - s.lo.bytes := by
  unfold width Width.sub at h
  split at h
  · rename_i hle
    obtain rfl := Except.ok.inj h
    exact ⟨hle, rfl⟩
  · cases h

theorem low_span (h : e.slice.low w = .ok s) : e.span.low (e.start + w.bytes) w = .ok (Entry.mk e.start s).span := by
  unfold Slice.low at h
  split at h
  · rename_i hle
    obtain rfl := Except.ok.inj h
    have hlo := e.slice.lo_le_hi
    have hhi := e.slice.hi.fits
    have hwidth : e.slice.width.bytes = e.slice.hi.bytes - e.slice.lo.bytes := rfl
    have hadd : e.span.lo.add w = .ok _ := dif_pos (show e.slice.lo.bytes + w.bytes < 2 ^ 32 by omega)
    rw [low, Checked.bind_ok (Checked.overflow_ok (width_span e)), if_pos hle,
      Checked.bind_ok (Checked.overflow_ok hadd)]
    apply congrArg Except.ok
    refine Span.ext rfl ?_ rfl rfl rfl
    change e.start + w.bytes = e.start + (e.slice.lo.bytes + w.bytes - e.slice.lo.bytes)
    rw [Nat.add_sub_cancel_left]
  · cases h

theorem high_span (h : e.slice.high w = .ok s) (hstop : a + w.bytes = e.stop) :
    e.span.high a w = .ok (Entry.mk a s).span := by
  unfold Slice.high at h
  split at h
  · rename_i hle
    obtain rfl := Except.ok.inj h
    have hlo := e.slice.lo_le_hi
    have hwidth : e.slice.width.bytes = e.slice.hi.bytes - e.slice.lo.bytes := rfl
    have hsub : e.span.hi.sub w = .ok _ := if_pos (show w.bytes ≤ e.slice.hi.bytes by omega)
    rw [high, Checked.bind_ok (Checked.overflow_ok (width_span e)), if_pos hle,
      Checked.bind_ok (Checked.overflow_ok hsub)]
    apply congrArg Except.ok
    refine Span.ext rfl ?_ rfl rfl rfl
    change e.stop = a + (e.slice.hi.bytes - (e.slice.hi.bytes - w.bytes))
    rw [← hstop, Nat.sub_sub_self (by omega)]
  · cases h

theorem upTo_span (h : e.upTo a = .ok f) (hlo : e.start ≤ a) : e.span.upTo a = .ok f.span := by
  obtain ⟨w, hw, h⟩ := Except.bind_eq_ok.1 h
  obtain ⟨s, hs, h⟩ := Except.bind_eq_ok.1 h
  obtain rfl := Except.ok.inj h
  have hlow := low_span hs
  rw [Address.bytes_of_widthOf hw, Nat.add_sub_of_le hlo] at hlow
  rw [upTo, start_span, Checked.bind_ok (Checked.overflow_ok (Checked.sub_ok hlo)), Checked.bind_ok (Checked.fault_ok hw)]
  exact hlow

theorem onward_span (h : e.onward a = .ok f) (hhi : a ≤ e.stop) : e.span.onward a = .ok f.span := by
  obtain ⟨w, hw, h⟩ := Except.bind_eq_ok.1 h
  obtain ⟨s, hs, h⟩ := Except.bind_eq_ok.1 h
  obtain rfl := Except.ok.inj h
  have hstop : a + w.bytes = e.stop := by
    rw [Address.bytes_of_widthOf hw, Nat.add_sub_of_le hhi]
  rw [onward, stop_span, Checked.bind_ok (Checked.overflow_ok (Checked.sub_ok hhi)), Checked.bind_ok (Checked.fault_ok hw)]
  exact high_span hs hstop

theorem expr_span {x : Expr} (h : e.slice.expr = .ok x) : e.span.expr = .ok x := by
  unfold Slice.expr at h
  split at h
  · rename_i hlt
    have hne : e.span.lo.bytes < e.span.hi.bytes := hlt
    rw [expr, if_pos hne, Checked.bind_ok (Checked.overflow_ok (width_span e)), Checked.Folding.resized_ok]
    exact congrArg Except.ok (Except.ok.inj h)
  · cases h

theorem entry_span (e : Entry) : e.span.entry = .ok e := dif_pos ⟨e.slice.lo_le_hi, rfl⟩

theorem piece_span (h : e.Overlaps a stop) (hne : e.start < e.stop) (hlt : a < stop) :
    e.span.piece a stop = .ok (e.clip a stop).toPiece := by
  have hpiece := Entry.piece_eq h hne hlt
  obtain ⟨f, hwithin, hpiece⟩ := Except.bind_eq_ok.1 hpiece
  rw [Entry.within_eq_bind] at hwithin
  obtain ⟨g, hcut, hwithin⟩ := Except.bind_eq_ok.1 hwithin
  obtain ⟨x, hx, hpiece⟩ := Except.bind_eq_ok.1 hpiece
  have hfirst : (if e.span.start < a then e.span.onward a else return e.span) = .ok g.span ∧ g.start < stop := by
    rw [start_span]
    split
    · rename_i hstart
      rw [if_pos hstart] at hcut
      refine ⟨onward_span hcut (Nat.le_of_lt h.1), ?_⟩
      rw [Entry.start_onward hcut]
      exact hlt
    · rename_i hstart
      rw [if_neg hstart] at hcut
      obtain rfl := Except.ok.inj hcut
      exact ⟨rfl, h.2⟩
  have hlast : (if stop < g.span.stop then g.span.upTo stop else return g.span) = .ok f.span := by
    rw [stop_span]
    split
    · rename_i hstop
      rw [if_pos hstop] at hwithin
      exact upTo_span hwithin (Nat.le_of_lt hfirst.2)
    · rename_i hstop
      rw [if_neg hstop] at hwithin
      obtain rfl := Except.ok.inj hwithin
      rfl
  rw [piece, Checked.bind_ok hfirst.1, Checked.bind_ok hlast, Checked.bind_ok (expr_span hx)]
  exact congrArg Except.ok (Except.ok.inj hpiece)

end Span

namespace Checked.Sparse

variable {m : SparseLayer} {l : List Entry} {a : Nat} {w : Width}

theorem size_span (e : Entry) : sub e.span.stop e.start = .ok e.slice.width.bytes :=
  (sub_ok (Nat.le_add_right ..)).trans (congrArg Except.ok (Nat.add_sub_cancel_left ..))

theorem checkFrom_span (last : Option Nat) (l : List Entry) :
    checkFrom last (l.map Entry.span) =
      (SparseLayer.breach? last l).elim (.ok ()) fun b => .error (.fault (.breach b)) := by
  induction l generalizing last with
  | nil => rfl
  | cons e l ih =>
    have hstop : e.span.stop = e.start + e.slice.width.bytes := rfl
    rw [List.map_cons, checkFrom, SparseLayer.breach?.eq_def, Span.start_span]
    dsimp only
    by_cases hzero : e.slice.width.isZero
    · have hbytes : e.slice.width.bytes = 0 := beq_iff_eq.1 hzero
      rw [if_pos (by omega), if_pos hzero]
      rfl
    · have hbytes : e.slice.width.bytes ≠ 0 := fun h => hzero (Width.isZero_of_bytes h)
      rw [if_neg (by omega), if_neg hzero, bind_ok (overflow_ok (size_span e)),
        bind_ok (overflow_ok (Span.width_span e)), if_pos rfl]
      cases last with
      | none => exact ih (some e.span.stop)
      | some stop =>
        dsimp only
        by_cases hover : e.start < stop
        · have hapart : apart (some stop) e.span = .error (.fault (.breach (.overlappingEntry e.start stop))) :=
            if_pos hover
          rw [hapart, if_pos hover]
          rfl
        · have hapart : apart (some stop) e.span = .ok () := if_neg hover
          rw [bind_ok hapart, if_neg hover]
          exact ih (some e.span.stop)

/-- Where an entry ends need not be compared with its slice: the check of separate words finds what the layer finds. -/
theorem check_eq (m : SparseLayer) : check m = m.check.mapError .fault := by
  rw [check, checkFrom_span, SparseLayer.check]
  cases SparseLayer.breach? none m.entries with
  | none => rfl
  | some b => rfl

theorem entry_of_checkFrom {last : Option Nat} {s : Span} {rest : List Span} (h : checkFrom last (s :: rest) = .ok ()) :
    (∃ e : Entry, e.span = s) ∧ checkFrom (some s.stop) rest = .ok () := by
  unfold checkFrom at h
  split at h
  · cases h
  · rename_i hne
    obtain ⟨size, hsize, h⟩ := Except.bind_eq_ok.1 h
    obtain ⟨width, hwidth, h⟩ := Except.bind_eq_ok.1 h
    split at h
    · rename_i hsame
      obtain ⟨-, -, hrest⟩ := Except.bind_eq_ok.1 h
      obtain ⟨hle, hbytes⟩ := Span.bytes_of_width (overflow_ok_iff.1 hwidth)
      obtain ⟨hbounds, hsize⟩ := sub_eq_ok (overflow_ok_iff.1 hsize)
      have hstop : s.start + (s.hi.bytes - s.lo.bytes) = s.stop := by omega
      exact ⟨⟨⟨s.start, s.source, s.lo, s.hi, hle⟩, Span.ext rfl hstop rfl rfl rfl⟩, hrest⟩
    · cases h

theorem checkFrom_eq_ok_iff {last : Option Nat} {spans : List Span} :
    checkFrom last spans = .ok () ↔ ∃ l : List Entry, l.map Entry.span = spans ∧ SparseLayer.breach? last l = none := by
  constructor
  · intro h
    have hentries : ∃ l : List Entry, l.map Entry.span = spans := by
      induction spans generalizing last with
      | nil => exact ⟨[], rfl⟩
      | cons s rest ih =>
        obtain ⟨⟨e, he⟩, hrest⟩ := entry_of_checkFrom h
        obtain ⟨l, hl⟩ := ih hrest
        exact ⟨e :: l, by rw [List.map_cons, he, hl]⟩
    obtain ⟨l, rfl⟩ := hentries
    rw [checkFrom_span] at h
    refine ⟨l, rfl, ?_⟩
    cases hbreach : SparseLayer.breach? last l with
    | none => rfl
    | some b =>
      rw [hbreach] at h
      cases h
  · rintro ⟨l, rfl, hbreach⟩
    rw [checkFrom_span, hbreach]
    rfl

theorem check_ok (h : m.Valid) : check m = .ok () := by
  rw [check_eq, SparseLayer.check_of_valid h]
  rfl

theorem load_ok (h : m.Valid) (hlast : a + w.bytes ≤ Address.last) {r : Option Expr}
    (hload : (m.load a w).outcome = .ok r) : load m a w = .ok r := by
  by_cases hw : 0 < w.bytes
  · rw [SparseLayer.outcome_load hw hlast] at hload
    rw [load, if_neg (Width.not_isZero hw), bind_ok (fault_ok (Address.rangeEnd_ok hlast))]
    dsimp only
    split at hload
    · rename_i hgap
      rw [if_pos hgap]
      exact congrArg Except.ok (Except.ok.inj hload)
    · rename_i hgap
      rw [SparseLayer.assemble_eq h hw] at hload
      have hpieces : (m.overlapping a (a + w.bytes)).mapM (fun e => e.span.piece a (a + w.bytes)) =
          .ok ((Entry.restrict a (a + w.bytes) m.entries).map Entry.toPiece) := by
        rw [SparseLayer.overlapping_eq h, Entry.restrict, List.map_map]
        apply Except.mapM_ok
        intro e he
        obtain ⟨he, hover⟩ := List.mem_filter.1 he
        exact Span.piece_span (of_decide_eq_true hover) (h.nonempty e he) (by omega)
      rw [if_neg hgap, bind_ok hpieces]
      exact fault_ok hload
  · have hzero := (SparseLayer.answers h).load_zero a w (by omega) (by omega)
    obtain rfl := Except.ok.inj (hzero.symm.trans hload)
    exact if_pos (Width.isZero_of_bytes (by omega))

theorem keepBelow_ok {e : Entry} {stop : Nat} (h : e.Overlaps a stop) (l : List Entry) :
    keepBelow a e.span l = .ok (SparseLayer.keepBelow a e l).state := by
  unfold keepBelow SparseLayer.keepBelow
  rw [Span.start_span]
  split
  · rename_i hstart
    have hcut := Entry.upTo_eq hstart (Nat.le_of_lt h.1) (Nat.zero_le _)
    rw [hcut, bind_ok (Span.upTo_span hcut (Nat.le_of_lt hstart)), bind_ok (Span.entry_span _)]
    rfl
  · rfl

theorem keepAbove_ok {e : Entry} {stop : Nat} (h : e.Overlaps a stop) (hlast : e.stop ≤ Address.last) (l : List Entry) :
    keepAbove stop e.span l = .ok (SparseLayer.keepAbove stop e l).state := by
  unfold keepAbove SparseLayer.keepAbove
  rw [Span.stop_span]
  split
  · rename_i hstop
    have hcut := Entry.onward_eq (Nat.le_of_lt h.2) hstop hlast
    rw [hcut, bind_ok (Span.onward_span hcut (Nat.le_of_lt hstop)), bind_ok (Span.entry_span _)]
    rfl
  · rfl

theorem cut_ok {e : Entry} {stop : Nat} (h : e.Overlaps a stop) (hlast : e.stop ≤ Address.last) (l : List Entry) :
    cut a stop l e = .ok (Entry.cutOut a stop e l) := by
  obtain ⟨hbelow, -⟩ := Entry.leads_keepBelow h (SparseLayer.replaceAt e.start [] l)
  rw [cut, bind_ok (keepBelow_ok h _), keepAbove_ok h hlast, hbelow]
  exact congrArg Except.ok (Entry.leads_keepAbove h hlast _).1

theorem overwritten_ok (h : m.Valid) (hw : 0 < w.bytes) (hlast : a + w.bytes ≤ Address.last) (v : Expr) :
    overwritten m a v w = .ok { m with entries := Entry.overwrite m.entries a (a + w.bytes) v w } := by
  have hcut : (SparseLayer.scan m.entries a (a + w.bytes)).foldlM (cut a (a + w.bytes)) m.entries = .ok _ :=
    Except.foldlM_ok (fun e he => cut_ok (Entry.overlaps_of_mem_scan h he) (Entry.bounded_of_mem_scan h he)) m.entries
  have hfresh : (Span.mk a (a + w.bytes) v .zero w).entry = .ok ⟨a, .full v w⟩ := Span.entry_span ⟨a, .full v w⟩
  rw [overwritten, bind_ok (fault_ok (Address.rangeEnd_ok hlast)), bind_ok hcut, bind_ok hfresh,
    Entry.replaceAt_foldl_cutOut h (Nat.lt_add_of_pos_right hw)]
  rfl

theorem store_ok (h : m.Valid) (hlast : a + w.bytes ≤ Address.last) (v : Expr) :
    store m a v w = .ok (m.store a v w).state := by
  by_cases hw : 0 < w.bytes
  · obtain ⟨-, hvalid, -⟩ := SparseLayer.store_ok h (.inr hlast) v
    obtain ⟨hstate, -⟩ := SparseLayer.store_eq h hw hlast v
    rw [hstate] at hvalid ⊢
    rw [store, if_neg (Width.not_isZero hw), bind_ok (overwritten_ok h hw hlast v)]
    split
    · rw [check_ok hvalid]
      rfl
    · rfl
  · rw [(SparseLayer.store_zero (m := m) (by omega) a v).1]
    exact if_pos (Width.isZero_of_bytes (by omega))

theorem intervals_ok (l : List Entry) : intervals l = .ok (l.map Entry.interval) := by
  apply Except.mapM_ok
  intro e _
  exact bounds_ok (Interval.ofBounds_ok (show e.start ≤ e.stop from Nat.le_add_right ..))

theorem missing_ok (hlast : a + w.bytes ≤ Address.last) {s : IntervalSet Nat} (hs : m.missing a w = .ok s) :
    missing m a w = .ok s.intervals := by
  rw [SparseLayer.missing, Address.rangeEnd_ok hlast, Address.requested_ok hlast] at hs
  obtain rfl := Except.ok.inj hs
  rw [missing, bind_ok (fault_ok (Address.rangeEnd_ok hlast)), bind_ok (intervals_ok _), bind_ok (bounds_ok (ofList_eq _)),
    bind_ok (requested_ok hlast)]
  exact bounds_ok (difference_eq _ _)

theorem blocks_ok (m : SparseLayer) : blocks m = .ok m.blocks.intervals := by
  rw [blocks, bind_ok (intervals_ok _)]
  exact bounds_ok (ofList_eq _)

end Checked.Sparse

end LayeredMemory
