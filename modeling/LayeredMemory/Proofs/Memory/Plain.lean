import LayeredMemory.Proofs.Memory.Chunks
import LayeredMemory.Proofs.Memory.FailedStores

namespace LayeredMemory

namespace Step

variable {σ τ ε : Type} {examine : σ → Traced ε Unit}

theorem examined_inside (step : Step σ ε Unit) (f : σ → τ) {examine' : τ → Traced ε Unit}
    (h : step.report.outcome = .ok () → examine' (f step.state) = examine step.state) :
    (step.inside f).examined examine' = (step.examined examine).inside f := by
  obtain ⟨s, log, _ | ⟨⟩⟩ := step
  · rfl
  · rw [inside, examined, examined, inside, h rfl]

end Step

namespace SparseLayer

variable {m : SparseLayer} {a : Nat} {v : Expr} {w : Width}

def plain (m : SparseLayer) : SparseLayer := { entries := m.entries }

theorem valid_plain (h : m.Valid) : m.plain.Valid := h

theorem store_plain (h : m.Valid) (a : Nat) (v : Expr) (w : Width) :
    m.plain.store a v w = (m.store a v w).inside plain := by
  by_cases hw : w.isZero
  · rw [store, if_pos hw, store, if_pos hw]
    rfl
  · have hstored := valid_store h a v w
    rw [store, if_neg hw] at hstored
    have hvalid : (m.overwritten a v w).state.Valid := hstored
    rw [store, if_neg hw, store, if_neg hw]
    apply Step.examined_inside (m.overwritten a v w) plain
    intro _
    rw [examine_of_valid hvalid, examine_of_valid (valid_plain hvalid)]

end SparseLayer

namespace ImageLayer

variable {m : ImageLayer} {a : Nat} {v : Expr} {w : Width}

def plain (m : ImageLayer) : ImageLayer := { blocks := m.blocks }

theorem valid_plain (h : m.Valid) : m.plain.Valid := h

theorem tryStore_plain (h : m.Valid) (a : Nat) (v : Expr) (w : Width) :
    m.plain.tryStore a v w = (m.tryStore a v w).inside plain := by
  have hstored : (m.tryStore a v w).state.Valid := valid_store h a v w
  unfold tryStore at hstored ⊢
  by_cases hw : w.isZero
  · rw [if_pos hw, if_pos hw]
    rfl
  · rw [if_neg hw] at hstored
    rw [if_neg hw, if_neg hw]
    cases hfold : v.fold.asConst? with
    | none => rfl
    | some c =>
      rw [hfold] at hstored
      have hvalid : (m.overwritten a c w).state.Valid := hstored
      apply Step.examined_inside (m.overwritten a c w) plain
      intro _
      rw [examine_of_valid hvalid, examine_of_valid (valid_plain hvalid)]

theorem store_plain (h : m.Valid) (a : Nat) (v : Expr) (w : Width) :
    m.plain.store a v w = (m.store a v w).inside plain := by
  rw [store, tryStore_plain h]
  rfl

theorem ofBlocks_cases (given : List Block) :
    (∃ log e, ∀ d, ofBlocks given d = ⟨log, .error e⟩) ∨
      ∃ log blocks, Block.Ordered 1 blocks ∧ ∀ d, ofBlocks given d = ⟨log, .ok ⟨blocks, d⟩⟩ := by
  have hform : (∃ log e, ∀ d, ofBlocks given d = ⟨log, .error e⟩) ∨
      ∃ log blocks, ∀ d, ofBlocks given d = ⟨log, .ok ⟨blocks, d⟩⟩ := by
    unfold ofBlocks
    dsimp only
    split
    · exact .inl ⟨_, _, fun d => rfl⟩
    · generalize Block.coalesce _ = joined
      obtain ⟨log, e | blocks⟩ := joined
      · exact .inl ⟨_, _, fun d => rfl⟩
      · exact .inr ⟨log ++ [.imageCreated blocks.length], blocks, fun d => rfl⟩
  refine hform.imp_right ?_
  rintro ⟨log, blocks, h⟩
  exact ⟨log, blocks, (ofBlocks_ok (congrArg Traced.outcome (h {}))).1, h⟩

end ImageLayer

namespace Memory

variable {δ : Type}

def Sound : Memory δ → Prop
  | sparse m => m.Valid
  | image m => m.Valid
  | overlay base top => base.Sound ∧ top.Sound
  | device _ => True

def plain : Memory δ → Memory δ
  | sparse m => sparse m.plain
  | image m => image m.plain
  | overlay base top => overlay base.plain top.plain
  | device d => device d

theorem side?_plain (m : Memory δ) (side : Side) : m.plain.side? side = (m.side? side).map plain := by
  cases m with
  | overlay base top =>
    cases side with
    | base => rfl
    | top => rfl
  | _ => cases side <;> rfl

theorem sound_side? {m part : Memory δ} {side : Side} (h : m.Sound) (hpart : m.side? side = some part) :
    part.Sound := by
  cases m with
  | overlay base top =>
    cases side with
    | base => exact Option.some.inj hpart ▸ h.1
    | top => exact Option.some.inj hpart ▸ h.2
  | _ => cases side <;> cases hpart

structure Alike (m m' : Memory δ) : Prop where
  sound : m.Sound
  sound' : m'.Sound
  plain_eq : m.plain = m'.plain

namespace Alike

variable {m m' : Memory δ}

theorem refl (h : m.Sound) : Alike m m := ⟨h, h, rfl⟩

theorem fresh (d d' : Diagnostics) :
    Alike (.sparse { diagnostics := d } : Memory δ) (.sparse { diagnostics := d' }) :=
  ⟨SparseLayer.valid_fresh d, SparseLayer.valid_fresh d', rfl⟩

theorem step {ε α : Type} {work : Memory δ → Step (Memory δ) ε α} (h : Alike m m')
    (hplain : ∀ {m}, m.Sound → work m.plain = (work m).inside plain)
    (hsound : ∀ {m}, m.Sound → (work m).state.Sound) :
    Alike (work m).state (work m').state ∧ (work m).report = (work m').report := by
  have hsame : (work m).inside plain = (work m').inside plain := by
    rw [← hplain h.sound, ← hplain h.sound', h.plain_eq]
  obtain ⟨hstate, hreport⟩ := Step.mk.inj hsame
  exact ⟨⟨hsound h.sound, hsound h.sound', hstate⟩, hreport⟩

theorem overlay {n n' : Memory δ} (h : Alike m m') (hn : Alike n n') : Alike (.overlay m n) (.overlay m' n') where
  sound := ⟨h.sound, hn.sound⟩
  sound' := ⟨h.sound', hn.sound'⟩
  plain_eq := by rw [plain, plain, h.plain_eq, hn.plain_eq]

theorem side? (h : Alike m m') (side : Side) : Option.Rel Alike (m.side? side) (m'.side? side) := by
  have hsame : (m.side? side).map plain = (m'.side? side).map plain := by
    rw [← side?_plain, h.plain_eq, side?_plain]
  cases hm : m.side? side with
  | none =>
    rw [hm] at hsame
    rw [Option.map_eq_none_iff.1 hsame.symm]
    exact .none
  | some part =>
    rw [hm] at hsame
    obtain ⟨part', hm', hpart⟩ := Option.map_eq_some_iff.1 hsame.symm
    rw [hm']
    exact .some ⟨sound_side? h.sound hm, sound_side? h.sound' hm', hpart.symm⟩

end Alike

variable [Device δ] {m m' : Memory δ}

theorem missing_plain (m : Memory δ) : m.plain.missing = m.missing := by
  induction m with
  | overlay base top ihb iht =>
    funext a w
    rw [plain, missing, missing, ihb, iht]
  | _ => rfl

theorem load_plain (m : Memory δ) : m.plain.load = m.load := by
  induction m with
  | overlay base top ihb iht =>
    funext a w
    rw [plain, load, load, missing_plain, ihb, iht]
  | _ => rfl

theorem blocks_plain (m : Memory δ) : m.plain.blocks = m.blocks := by
  induction m with
  | overlay base top ihb iht => rw [plain, blocks, blocks, ihb, iht]
  | _ => rfl

theorem depth_plain (m : Memory δ) : m.plain.depth = m.depth := by
  induction m with
  | overlay base top ihb iht => rw [plain, depth, depth, ihb, iht]
  | _ => rfl

theorem store_plain (h : m.Sound) (a : Nat) (v : Expr) (w : Width) :
    m.plain.store a v w = (m.store a v w).inside plain := by
  induction m with
  | sparse m =>
    rw [plain, store, SparseLayer.store_plain h]
    rfl
  | image m =>
    rw [plain, store, ImageLayer.store_plain h]
    rfl
  | overlay base top _ iht =>
    rw [plain, store, iht h.2]
    rfl
  | device d => rfl

theorem sound_store (h : m.Sound) (a : Nat) (v : Expr) (w : Width) : (m.store a v w).state.Sound := by
  induction m with
  | sparse m => exact SparseLayer.valid_store h a v w
  | image m => exact ImageLayer.valid_store h a v w
  | overlay base top _ iht => exact ⟨h.1, iht h.2⟩
  | device d => trivial

theorem storeAt_plain (h : m.Sound) (path : List Side) (a : Nat) (v : Expr) (w : Width) :
    m.plain.storeAt path a v w = (m.storeAt path a v w).map (·.inside plain) := by
  induction path generalizing m with
  | nil => exact congrArg some (store_plain h a v w)
  | cons side path ih =>
    cases m with
    | overlay base top =>
      cases side with
      | base =>
        rw [plain, storeAt, storeAt, ih h.1, Option.map_map, Option.map_map]
        rfl
      | top =>
        rw [plain, storeAt, storeAt, ih h.2, Option.map_map, Option.map_map]
        rfl
    | _ => cases side <;> rfl

theorem sound_storeAt {step : Step (Memory δ) Fault Unit} {path : List Side} {a : Nat} {v : Expr} {w : Width}
    (h : m.Sound) (hstep : m.storeAt path a v w = some step) : step.state.Sound := by
  induction path generalizing m step with
  | nil =>
    obtain rfl := Option.some.inj hstep
    exact sound_store h a v w
  | cons side path ih =>
    cases m with
    | overlay base top =>
      cases side with
      | base =>
        obtain ⟨inner, hinner, rfl⟩ := Option.map_eq_some_iff.1 hstep
        exact ⟨ih h.1 hinner, h.2⟩
      | top =>
        obtain ⟨inner, hinner, rfl⟩ := Option.map_eq_some_iff.1 hstep
        exact ⟨h.1, ih h.2 hinner⟩
    | _ => cases side <;> cases hstep

theorem flatten_plain (m : Memory δ) : flatten m.plain = flatten m := by
  have hload : Device.load m.plain = Device.load m := load_plain m
  have hblocks : Device.blocks m.plain = Device.blocks m := blocks_plain m
  have hdepth : Device.depth m.plain = Device.depth m := depth_plain m
  have hcopy : Flatten.copyChunk m.plain = Flatten.copyChunk m := by
    funext flat chunk
    rw [Flatten.copyChunk, Flatten.copyChunk, hload]
  simp only [flatten, Flatten.copyRange_eq_foldlM, hcopy, hblocks, hdepth]

namespace Alike

theorem store (h : Alike m m') (a : Nat) (v : Expr) (w : Width) :
    Alike (m.store a v w).state (m'.store a v w).state ∧ (m.store a v w).report = (m'.store a v w).report :=
  h.step (fun hm => store_plain hm a v w) (fun hm => sound_store hm a v w)

theorem load (h : Alike m m') : m.load = m'.load := by
  rw [← load_plain, h.plain_eq, load_plain]

theorem missing (h : Alike m m') : m.missing = m'.missing := by
  rw [← missing_plain, h.plain_eq, missing_plain]

theorem blocks (h : Alike m m') : m.blocks = m'.blocks := by
  rw [← blocks_plain, h.plain_eq, blocks_plain]

theorem flatten (h : Alike m m') : LayeredMemory.flatten m = LayeredMemory.flatten m' := by
  rw [← flatten_plain, h.plain_eq, flatten_plain]

end Alike

end Memory

end LayeredMemory
