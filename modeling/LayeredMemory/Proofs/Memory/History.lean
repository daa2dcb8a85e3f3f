import LayeredMemory.Proofs.Image.LastWrite
import LayeredMemory.Proofs.Memory.Answers
import LayeredMemory.Proofs.Sparse.LastWrite

namespace LayeredMemory

inductive Layers
  | leaf (last : Nat → Option Write)
  | overlay (base top : Layers)

namespace Layers

def lastWrite : Layers → Nat → Option Write
  | leaf last, p => last p
  | overlay base top, p => (top.lastWrite p).or (base.lastWrite p)

def Holds (layers : Layers) (p : Nat) : Prop := (layers.lastWrite p).isSome

instance (layers : Layers) (p : Nat) : Decidable (layers.Holds p) :=
  inferInstanceAs (Decidable (_ = true))

def byte? (layers : Layers) (bind : Binding) (p : Nat) : Option UInt8 :=
  (layers.lastWrite p).bind (·.byte? bind p)

def store (s : Write) : Layers → Layers
  | leaf last => leaf (s.record last)
  | overlay base top => overlay base (top.store s)

def storeAt (s : Write) : List Side → Layers → Layers
  | [], layers => layers.store s
  | .base :: path, overlay base top => overlay (storeAt s path base) top
  | .top :: path, overlay base top => overlay base (storeAt s path top)
  | _ :: _, leaf last => leaf last

theorem holds_overlay (below above : Layers) (p : Nat) :
    (overlay below above).Holds p ↔ above.Holds p ∨ below.Holds p := by
  unfold Holds
  rw [lastWrite, Option.isSome_or, Bool.or_eq_true]

theorem byte?_overlay (below above : Layers) (bind : Binding) (p : Nat) :
    (overlay below above).byte? bind p =
      if above.Holds p then above.byte? bind p else below.byte? bind p := by
  rw [byte?, lastWrite]
  by_cases hp : above.Holds p
  · obtain ⟨s, hs⟩ := Option.isSome_iff_exists.1 hp
    rw [if_pos hp, byte?, hs, Option.some_or]
  · have hnone : above.lastWrite p = none := Option.not_isSome_iff_eq_none.1 hp
    rw [if_neg hp, byte?, hnone, Option.none_or]

theorem lastWrite_store (s : Write) (layers : Layers) (p : Nat) :
    (layers.store s).lastWrite p = s.record layers.lastWrite p := by
  induction layers with
  | leaf last => rfl
  | overlay base top _ ih =>
    rw [store, lastWrite, ih]
    by_cases hp : s.Covers p
    · rw [Write.record_of_covers hp, Write.record_of_covers hp, Option.some_or]
    · rw [Write.record_of_not_covers hp, Write.record_of_not_covers hp]
      rfl

end Layers

namespace Memory

/-- Operations have led to a memory, with the given last writes in its layers and all values stored so far.
Stores that fail count, too; they write nothing. -/
inductive History : Memory Empty → Layers → List Expr → Prop
  | sparse (d : Diagnostics) : History (.sparse { diagnostics := d }) (.leaf fun _ => none) []
  | image {blocks : List Block} {d : Diagnostics} {m : ImageLayer}
    (h : (ImageLayer.ofBlocks blocks d).outcome = .ok m) : History (.image m) (.leaf (ImageLayer.given blocks)) []
  | overlay {base top : Memory Empty} {below above : Layers} {stored stored' : List Expr}
    (hbase : History base below stored) (htop : History top above stored') :
    History (.overlay base top) (.overlay below above) (stored ++ stored')
  | base {base top : Memory Empty} {below above : Layers} {stored : List Expr}
    (h : History (.overlay base top) (.overlay below above) stored) : History base below stored
  | top {base top : Memory Empty} {below above : Layers} {stored : List Expr}
    (h : History (.overlay base top) (.overlay below above) stored) : History top above stored
  | clear {m : SparseLayer} {layers : Layers} {stored : List Expr} (h : History (.sparse m) layers stored) :
    History (.sparse m.clear) (.leaf fun _ => none) stored
  | store {m : Memory Empty} {layers : Layers} {stored : List Expr} {path : List Side} {s : Write}
    {step : Step (Memory Empty) Fault Unit} (h : History m layers stored)
    (hstep : m.storeAt path s.start s.value s.width = some step) (hok : step.report.outcome = .ok ()) :
    History step.state (layers.storeAt s path) (s.value :: stored)
  | failed {m : Memory Empty} {layers : Layers} {stored : List Expr} {path : List Side} {s : Write} {e : Fault}
    {step : Step (Memory Empty) Fault Unit} (h : History m layers stored)
    (hstep : m.storeAt path s.start s.value s.width = some step) (herr : step.report.outcome = .error e) :
    History step.state layers stored

inductive Tracks (stored : List Expr) : Memory Empty → Layers → Prop
  | sparse {m : SparseLayer} {last : Nat → Option Write} (hvalid : m.Valid) (hlast : Follows stored m.held last) :
    Tracks stored (.sparse m) (.leaf last)
  | image {m : ImageLayer} {last : Nat → Option Write} (hvalid : m.Valid) (hlast : Follows stored m.held last) :
    Tracks stored (.image m) (.leaf last)
  | overlay {base top : Memory Empty} {below above : Layers} (hbase : Tracks stored base below)
    (htop : Tracks stored top above) : Tracks stored (.overlay base top) (.overlay below above)

variable {m : Memory Empty} {layers : Layers} {stored stored' : List Expr} {s : Write} {path : List Side}
  {step : Step (Memory Empty) Fault Unit}

namespace Tracks

theorem valid (h : Tracks stored m layers) : m.Valid := by
  induction h with
  | sparse hvalid _ => exact hvalid
  | image hvalid _ => exact hvalid
  | overlay _ _ ihb iht => exact ⟨ihb, iht⟩

theorem follows (h : Tracks stored m layers) : Follows stored m.held layers.lastWrite := by
  induction h with
  | sparse _ hlast => exact hlast
  | image _ hlast => exact hlast
  | overlay _ _ ihb iht => exact iht.onto ihb

theorem mono (h : Tracks stored m layers) (hsub : ∀ v ∈ stored, v ∈ stored') : Tracks stored' m layers := by
  induction h with
  | sparse hvalid hlast => exact .sparse hvalid (hlast.mono hsub)
  | image hvalid hlast => exact .image hvalid (hlast.mono hsub)
  | overlay _ _ ihb iht => exact .overlay ihb iht

theorem later (h : Tracks stored m layers) (v : Expr) : Tracks (v :: stored) m layers :=
  h.mono fun _ hv => .tail _ hv

theorem store (h : Tracks stored m layers)
    (hok : (m.store s.start s.value s.width).report.outcome = .ok ()) :
    Tracks (s.value :: stored) (m.store s.start s.value s.width).state (layers.store s) := by
  induction h with
  | sparse hvalid hlast =>
    obtain ⟨hvalid, hlast⟩ := SparseLayer.store_follows hvalid hlast hok
    exact .sparse hvalid hlast
  | image hvalid hlast =>
    obtain ⟨hvalid, hlast⟩ := ImageLayer.store_follows hvalid hlast hok
    exact .image hvalid hlast
  | overlay hbase _ _ iht => exact .overlay (hbase.later s.value) (iht hok)

theorem storeAt (h : Tracks stored m layers) (hstep : m.storeAt path s.start s.value s.width = some step)
    (hok : step.report.outcome = .ok ()) :
    Tracks (s.value :: stored) step.state (layers.storeAt s path) := by
  induction path generalizing m layers step with
  | nil =>
    obtain rfl := Option.some.inj hstep
    exact h.store hok
  | cons side path ih =>
    cases h with
    | sparse _ _ => cases side <;> cases hstep
    | image _ _ => cases side <;> cases hstep
    | overlay hbase htop =>
      cases side with
      | base =>
        obtain ⟨inner, hinner, rfl⟩ := Option.map_eq_some_iff.1 hstep
        exact .overlay (ih hbase hinner hok) (htop.later s.value)
      | top =>
        obtain ⟨inner, hinner, rfl⟩ := Option.map_eq_some_iff.1 hstep
        exact .overlay (hbase.later s.value) (ih htop hinner hok)

end Tracks

theorem state_of_store_error (h : m.Valid) {a : Nat} {v : Expr} {w : Width} {e : Fault}
    (herr : (m.store a v w).report.outcome = .error e) : (m.store a v w).state = m := by
  induction m with
  | sparse m => exact congrArg Memory.sparse (SparseLayer.store_error h herr)
  | image m => exact congrArg Memory.image (ImageLayer.store_error h herr)
  | overlay base top _ iht => exact congrArg (Memory.overlay base) (iht h.2 herr)
  | device d => cases d

theorem state_of_storeAt_error (h : m.Valid) {a : Nat} {v : Expr} {w : Width} {e : Fault}
    (hstep : m.storeAt path a v w = some step) (herr : step.report.outcome = .error e) : step.state = m := by
  induction path generalizing m step with
  | nil =>
    obtain rfl := Option.some.inj hstep
    exact state_of_store_error h herr
  | cons side path ih =>
    cases m with
    | sparse m => cases side <;> cases hstep
    | image m => cases side <;> cases hstep
    | device d => cases d
    | overlay base top =>
      cases side with
      | base =>
        obtain ⟨inner, hinner, rfl⟩ := Option.map_eq_some_iff.1 hstep
        exact congrArg (Memory.overlay · top) (ih h.1 hinner herr)
      | top =>
        obtain ⟨inner, hinner, rfl⟩ := Option.map_eq_some_iff.1 hstep
        exact congrArg (Memory.overlay base) (ih h.2 hinner herr)

theorem History.tracks (h : History m layers stored) : Tracks stored m layers := by
  induction h with
  | sparse d => exact .sparse (SparseLayer.valid_fresh d) .empty
  | image h =>
    obtain ⟨hvalid, hlast⟩ := ImageLayer.ofBlocks_follows h
    exact .image hvalid hlast
  | overlay _ _ ihb iht =>
    exact .overlay (ihb.mono fun v hv => List.mem_append_left _ hv)
      (iht.mono fun v hv => List.mem_append_right _ hv)
  | base _ ih =>
    cases ih with
    | overlay hbase _ => exact hbase
  | top _ ih =>
    cases ih with
    | overlay _ htop => exact htop
  | clear _ _ => exact .sparse Entry.Ordered.nil .empty
  | store _ hstep hok ih => exact ih.storeAt hstep hok
  | failed _ hstep herr ih =>
    rw [state_of_storeAt_error ih.valid hstep herr]
    exact ih

theorem History.storeHere (h : History m layers stored) (s : Write)
    (hok : (m.store s.start s.value s.width).report.outcome = .ok ()) :
    History (m.store s.start s.value s.width).state (layers.storeAt s []) (s.value :: stored) := by
  have hstep : m.storeAt [] s.start s.value s.width = some (m.store s.start s.value s.width) := rfl
  exact .store h hstep hok

def symbolOnImage : Memory Empty :=
  .overlay (.image ⟨[⟨0, ⟨#[1, 2, 3, 4]⟩⟩], {}⟩) (.sparse { entries := [⟨1, .full (.symbol "x" .w16) .w16⟩] })

theorem history_symbolOnImage :
    History symbolOnImage
      (.overlay (.leaf (ImageLayer.given [⟨0, ⟨#[1, 2, 3, 4]⟩⟩]))
        ((Layers.leaf fun _ => none).store ⟨1, .symbol "x" .w16, .w16⟩)) [.symbol "x" .w16] := by
  have himage : (ImageLayer.ofBlocks [⟨0, ⟨#[1, 2, 3, 4]⟩⟩] {}).outcome =
      .ok ⟨[⟨0, ⟨#[1, 2, 3, 4]⟩⟩], {}⟩ := by
    have hfilled : [(⟨0, ⟨#[1, 2, 3, 4]⟩⟩ : Block)].filter (fun b => !b.bytes.isEmpty) =
      [⟨0, ⟨#[1, 2, 3, 4]⟩⟩] := rfl
    unfold ImageLayer.ofBlocks
    dsimp only
    rw [hfilled, List.mergeSort_singleton]
    rfl
  exact (History.overlay (.image himage) (.sparse {})).storeHere ⟨1, .symbol "x" .w16, .w16⟩ rfl

end Memory

end LayeredMemory
