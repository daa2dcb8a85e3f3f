import LayeredMemory.Proofs.Checked.Flatten
import LayeredMemory.Proofs.Checked.Image
import LayeredMemory.Proofs.Memory.Flatten

namespace LayeredMemory

namespace Memory

variable {δ : Type}

def Accepts (m : Memory δ) (v : Expr) (w : Width) : Prop := m.TargetsImage → w.bytes = 0 ∨ ∃ c, v.fold = .const c

end Memory

namespace Checked.Tree

def readPieces (load : Loads) : List (Interval Nat) → Except Misfit (Option (List Piece))
  | [] => return some []
  | range :: rest => do
    let size ← sub range.hi range.lo
    let width ← Address.widthOf size
    match ← load range.lo width with
    | none => return none
    | some e =>
      let pieces ← readPieces load rest
      return pieces.map ((range.lo, e) :: ·)

def readSplit (base top : Loads) (fromBase fromTop : List (Interval Nat)) (a : Nat) (w : Width) :
    Except Misfit (Option Expr) := do
  match ← readPieces base fromBase with
  | none => return none
  | some low =>
    match ← readPieces top fromTop with
    | none => return none
    | some high => compose a w (low.merge high Piece.startsFirst)

def readThrough (base top : Loads) (gaps : List (Interval Nat)) (a : Nat) (w : Width) :
    Except Misfit (Option Expr) :=
  if gaps.isEmpty then top a w
  else do
    let whole ← requested a w
    if gaps = whole then base a w
    else do
      let rest ← difference whole gaps
      readSplit base top gaps rest a w

def missing : Memory Empty → Nat → Width → Except Misfit (List (Interval Nat))
  | .sparse m, a, w => Sparse.missing m a w
  | .image m, a, w => Image.missing m a w
  | .overlay base top, a, w => do
    let fromBase ← missing base a w
    let fromTop ← missing top a w
    intersect fromBase fromTop

def load : Memory Empty → Loads
  | .sparse m, a, w => Sparse.load m a w
  | .image m, a, w => Image.load m a w
  | .overlay base top, a, w => do
    let gaps ← missing top a w
    readThrough (load base) (load top) gaps a w

def store : Memory Empty → Nat → Expr → Width → Except Misfit (Memory Empty)
  | .sparse m, a, v, w => return .sparse (← Sparse.store m a v w)
  | .image m, a, v, w => return .image (← Image.store m a v w)
  | .overlay base top, a, v, w => return .overlay base (← store top a v w)

def storeAt : List Side → Memory Empty → Nat → Expr → Width → Option (Except Misfit (Memory Empty))
  | [], m, a, v, w => some (store m a v w)
  | .base :: path, .overlay base top, a, v, w => (storeAt path base a v w).map (·.map (.overlay · top))
  | .top :: path, .overlay base top, a, v, w => (storeAt path top a v w).map (·.map (.overlay base))
  | _ :: _, _, _, _, _ => none

def blocks : Memory Empty → Except Misfit (List (Interval Nat))
  | .sparse m => Sparse.blocks m
  | .image m => Image.blocks m
  | .overlay base top => do
    let below ← blocks base
    let above ← blocks top
    union below above

def check : Memory Empty → Except Misfit Unit
  | .sparse m => Sparse.check m
  | .image m => Image.check m
  | .overlay base top => do
    check base
    check top

variable {m : Memory Empty} {a : Nat} {v : Expr} {w : Width}

theorem missing_ok (h : m.Valid) (hlast : a + w.bytes ≤ Address.last) {s : IntervalSet Nat}
    (hs : m.missing a w = .ok s) : missing m a w = .ok s.intervals := by
  induction m generalizing s with
  | sparse m => exact Sparse.missing_ok hlast hs
  | image m => exact Image.missing_ok h hlast hs
  | overlay base top ihb iht =>
    obtain ⟨fromBase, hbase, hs⟩ := Except.bind_eq_ok.1 hs
    obtain ⟨fromTop, htop, hs⟩ := Except.bind_eq_ok.1 hs
    obtain rfl := Except.ok.inj hs
    rw [missing, bind_ok (ihb h.1 hbase), bind_ok (iht h.2 htop)]
    exact bounds_ok (intersect_eq _ _)
  | device d => cases d

def Agrees (load : Memory.Loads) (checked : Loads) : Prop :=
  ∀ a w r, a + w.bytes ≤ Address.last → (load a w).outcome = .ok r → checked a w = .ok r

theorem readPieces_ok {load : Memory.Loads} {checked : Loads} (h : Agrees load checked) {l : List (Interval Nat)}
    (hlast : ∀ i ∈ l, i.hi ≤ Address.last) {r : Option (List Piece)}
    (hr : (Memory.readPieces load l).outcome = .ok r) : readPieces checked l = .ok r := by
  induction l generalizing r with
  | nil => exact congrArg Except.ok (Except.ok.inj hr)
  | cons i rest ih =>
    obtain ⟨width, hwidth, hr⟩ := Traced.outcome_bind_eq_ok.1 hr
    obtain ⟨x, hload, hr⟩ := Traced.outcome_bind_eq_ok.1 hr
    have hwidth : Address.widthOf (i.hi - i.lo) = .ok width := hwidth
    have hsize := Address.bytes_of_widthOf hwidth
    have hle := i.lo_le_hi
    have hend := hlast i (by simp)
    have hchecked := h i.lo width x (by omega) hload
    rw [readPieces, bind_ok (overflow_ok (sub_ok hle)), bind_ok (fault_ok hwidth), bind_ok hchecked]
    cases x with
    | none => exact congrArg Except.ok (Except.ok.inj hr)
    | some e =>
      obtain ⟨pieces, hrest, hr⟩ := Traced.outcome_bind_eq_ok.1 hr
      dsimp only
      rw [bind_ok (ih (fun j hj => hlast j (.tail _ hj)) hrest)]
      exact congrArg Except.ok (Except.ok.inj hr)

theorem readSplit_ok {base top : Memory.Loads} {below above : Loads} (hbase : Agrees base below)
    (htop : Agrees top above) {gaps rest : IntervalSet Nat} (hgaps : ∀ i ∈ gaps.intervals, i.hi ≤ Address.last)
    (hrest : ∀ i ∈ rest.intervals, i.hi ≤ Address.last) {r : Option Expr}
    (hr : (Memory.readSplit base top gaps rest a w).outcome = .ok r) :
    readSplit below above gaps.intervals rest.intervals a w = .ok r := by
  obtain ⟨-, -, hr⟩ := Traced.outcome_bind_eq_ok.1 hr
  obtain ⟨low, hlow, hr⟩ := Traced.outcome_bind_eq_ok.1 hr
  rw [readSplit, bind_ok (readPieces_ok hbase hgaps hlow)]
  cases low with
  | none => exact congrArg Except.ok (Except.ok.inj hr)
  | some low =>
    obtain ⟨high, hhigh, hr⟩ := Traced.outcome_bind_eq_ok.1 hr
    dsimp only
    rw [bind_ok (readPieces_ok htop hrest hhigh)]
    cases high with
    | none => exact congrArg Except.ok (Except.ok.inj hr)
    | some high => exact fault_ok hr

theorem readThrough_ok {base top : Memory.Loads} {below above : Loads} (hbase : Agrees base below)
    (htop : Agrees top above) (hlast : a + w.bytes ≤ Address.last) {gaps : IntervalSet Nat}
    (hgaps : ∀ p, p ∈ gaps → p ∈ Address.range a w) {r : Option Expr}
    (hr : (Memory.readThrough base top gaps a w).outcome = .ok r) :
    readThrough below above gaps.intervals a w = .ok r := by
  unfold Memory.readThrough at hr
  unfold readThrough
  by_cases hempty : gaps.isEmpty
  · have hnil : gaps.intervals.isEmpty := hempty
    rw [if_pos hempty] at hr
    rw [if_pos hnil]
    exact htop a w r hlast hr
  · have hnil : ¬ gaps.intervals.isEmpty := hempty
    rw [if_neg hempty, Address.requested_ok hlast, Traced.outcome_bind_ok (Traced.outcome_liftM _)] at hr
    rw [if_neg hnil, bind_ok (requested_ok hlast)]
    by_cases hwhole : gaps = .ofInterval (Address.range a w)
    · rw [if_pos hwhole] at hr
      rw [if_pos (congrArg IntervalSet.intervals hwhole)]
      exact hbase a w r hlast hr
    · rw [if_neg hwhole] at hr
      rw [if_neg (fun heq => hwhole (IntervalSet.ext heq)), bind_ok (bounds_ok (difference_eq _ _))]
      apply readSplit_ok hbase htop _ _ hr
      · intro i hi
        exact Nat.le_trans (IntervalSet.bounds_of_mem hgaps hi).2.2 hlast
      · intro i hi
        refine Nat.le_trans (IntervalSet.bounds_of_mem (a := a) (fun p hp => ?_) hi).2.2 hlast
        exact IntervalSet.mem_ofInterval.1 (IntervalSet.mem_difference.1 hp).1

theorem load_ok (h : m.Valid) : Agrees m.load (load m) := by
  induction m with
  | sparse m => exact fun a w r hlast hr => Sparse.load_ok h hlast hr
  | image m => exact fun a w r hlast hr => Image.load_ok h hlast hr
  | overlay base top ihb iht =>
    intro a w r hlast hr
    obtain ⟨gaps, hgaps, hmem⟩ := (Memory.answers h.2).missing a w hlast
    have hmissing : top.missing a w = .ok gaps := hgaps
    rw [Memory.load, hmissing, Traced.outcome_bind_ok (Traced.outcome_liftM _)] at hr
    rw [load, bind_ok (missing_ok h.2 hlast hmissing)]
    exact readThrough_ok (ihb h.1) (iht h.2) hlast (fun p hp => ((hmem p).1 hp).1) hr
  | device d => cases d

theorem store_ok (h : m.Valid) (hlast : a + w.bytes ≤ Address.last)
    (hok : (m.store a v w).report.outcome = .ok ()) : store m a v w = .ok (m.store a v w).state := by
  induction m with
  | sparse m =>
    rw [store, bind_ok (Sparse.store_ok h hlast v)]
    rfl
  | image m =>
    rw [store, bind_ok (Image.store_ok h hlast hok)]
    rfl
  | overlay base top _ iht =>
    rw [store, bind_ok (iht h.2 hok)]
    rfl
  | device d => cases d

theorem outcome_store (h : m.Valid) (hlast : a + w.bytes ≤ Address.last) (haccepts : m.Accepts v w) :
    (m.store a v w).report.outcome = .ok () := by
  cases hok : (m.store a v w).report.outcome with
  | ok u => rfl
  | error e =>
    exfalso
    obtain ⟨hw, ⟨himage, hconst⟩ | hover⟩ := (Memory.store_error_iff h).1 ⟨e, hok⟩
    · rcases haccepts himage with hzero | ⟨c, hc⟩
      · omega
      · exact hconst c hc
    · omega

theorem storeAt_ok (h : m.Valid) (hlast : a + w.bytes ≤ Address.last) {path : List Side} {layer : Memory Empty}
    (hlayer : m.layerAt path = some layer) (haccepts : layer.Accepts v w) :
    ∃ step, m.storeAt path a v w = some step ∧ step.report.outcome = .ok () ∧
      storeAt path m a v w = some (.ok step.state) := by
  induction path generalizing m with
  | nil =>
    obtain rfl := Option.some.inj hlayer
    have hok := outcome_store h hlast haccepts
    exact ⟨_, rfl, hok, congrArg some (store_ok h hlast hok)⟩
  | cons side path ih =>
    obtain ⟨below, hside, hlayer⟩ := Option.bind_eq_some_iff.1 hlayer
    cases m with
    | sparse m => cases side <;> cases hside
    | image m => cases side <;> cases hside
    | device d => cases d
    | overlay base top =>
      cases side with
      | base =>
        obtain rfl := Option.some.inj hside
        obtain ⟨step, hstep, hok, hchecked⟩ := ih h.1 hlayer
        exact ⟨_, congrArg (Option.map _) hstep, hok, congrArg (Option.map _) hchecked⟩
      | top =>
        obtain rfl := Option.some.inj hside
        obtain ⟨step, hstep, hok, hchecked⟩ := ih h.2 hlayer
        exact ⟨_, congrArg (Option.map _) hstep, hok, congrArg (Option.map _) hchecked⟩

theorem blocks_ok (h : m.Valid) : blocks m = .ok m.blocks.intervals := by
  induction m with
  | sparse m => exact Sparse.blocks_ok m
  | image m => exact Image.blocks_ok h
  | overlay base top ihb iht =>
    rw [blocks, bind_ok (ihb h.1), bind_ok (iht h.2)]
    exact bounds_ok (union_eq _ _)
  | device d => cases d

theorem check_ok (h : m.Valid) : check m = .ok () := by
  induction m with
  | sparse m => exact Sparse.check_ok h
  | image m => exact Image.check_ok h
  | overlay base top ihb iht =>
    rw [check, bind_ok (ihb h.1)]
    exact iht h.2
  | device d => cases d

theorem faithful_load (h : m.Valid) : Faithful m (load m) := by
  intro a w hlast
  obtain ⟨r, hr⟩ := Memory.outcome_load h hlast
  have hr' : (Device.load m a w).outcome = .ok r := hr
  rw [load_ok h a w r hlast hr, loadsOf, hr']
  rfl

theorem flatten_ok (h : m.Valid) {flat : SparseLayer} (hflat : (LayeredMemory.flatten m).outcome = .ok flat) :
    flatten (load m) (blocks m) = .ok flat := by
  rw [flatten_eq (faithful_load h) (blocks_ok h) (Flatten.inSpace_of_answers (Memory.answers h)), hflat]
  rfl

end Checked.Tree

namespace Memory

open Checked

/-- All accesses to a range end well, the stores wherever the layer accepts the value. No promise of a layer turns
out broken, and no number leaves its machine word. -/
structure Completes (m : Memory Empty) (a : Nat) (w : Width) : Prop where
  load : ∃ r, (m.load a w).outcome = .ok r ∧ Tree.load m a w = .ok r
  missing : ∃ s, m.missing a w = .ok s ∧ Tree.missing m a w = .ok s.intervals
  blocks : Tree.blocks m = .ok m.blocks.intervals
  flatten : ∃ flat, (LayeredMemory.flatten m).outcome = .ok flat ∧
    Checked.flatten (Tree.load m) (Tree.blocks m) = .ok flat
  store : ∀ path layer v, m.layerAt path = some layer → layer.Accepts v w →
    ∃ step, m.storeAt path a v w = some step ∧ step.report.outcome = .ok () ∧
      Tree.storeAt path m a v w = some (.ok step.state)
  check : Tree.check m = .ok ()

variable {m : Memory Empty} {layers : Layers} {stored : List Expr} {a : Nat} {w : Width}

theorem completes_of_history (h : History m layers stored) (hlast : a + w.bytes ≤ Address.last) :
    Completes m a w := by
  have hvalid := h.tracks.valid
  have hanswers := answers hvalid
  obtain ⟨r, hload⟩ := outcome_load hvalid hlast
  obtain ⟨s, hmissing, -⟩ := hanswers.missing a w hlast
  obtain ⟨flat, hflat, -⟩ := flatten_ok hanswers
  constructor
  · exact ⟨r, hload, Tree.load_ok hvalid a w r hlast hload⟩
  · exact ⟨s, hmissing, Tree.missing_ok hvalid hlast hmissing⟩
  · exact Tree.blocks_ok hvalid
  · exact ⟨flat, hflat, Tree.flatten_ok hvalid hflat⟩
  · intro path layer v hlayer haccepts
    exact Tree.storeAt_ok hvalid hlast hlayer haccepts
  · exact Tree.check_ok hvalid

theorem completes_of_history_symbolOnImage :
    1 + Width.w16.bytes ≤ Address.last ∧ (∃ e, Tree.load symbolOnImage 1 .w16 = .ok (some e)) ∧
      ∃ m, Tree.storeAt [.base] symbolOnImage 1 (.const (.ofNat .w16 0x0605)) .w16 = some (.ok m) := by
  have hlast : 1 + Width.w16.bytes ≤ Address.last := by decide
  have hpresent : symbolOnImage.held.Present 1 .w16 := by
    intro p hlo hhi
    have hp : p = 1 ∨ p = 2 := by
      change p < 1 + 2 at hhi
      omega
    obtain rfl | rfl := hp <;> rfl
  have hcompletes := completes_of_history history_symbolOnImage hlast
  obtain ⟨r, hload, hchecked⟩ := hcompletes.load
  obtain ⟨e, he⟩ := exists_load history_symbolOnImage.tracks.valid (by decide) hlast hpresent
  obtain rfl := Except.ok.inj (hload.symm.trans he)
  have haccepts : (image ⟨[⟨0, ⟨#[1, 2, 3, 4]⟩⟩], {}⟩ : Memory Empty).Accepts (.const (.ofNat .w16 0x0605)) .w16 :=
    fun _ => .inr ⟨_, rfl⟩
  obtain ⟨step, -, -, hstore⟩ := hcompletes.store [.base] _ _ rfl haccepts
  exact ⟨hlast, ⟨e, hchecked⟩, step.state, hstore⟩

end Memory

end LayeredMemory
