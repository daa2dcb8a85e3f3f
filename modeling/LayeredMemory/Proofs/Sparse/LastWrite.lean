import LayeredMemory.Proofs.Follows
import LayeredMemory.Proofs.Sparse.Answers

namespace LayeredMemory

namespace SparseLayer

inductive Op
  | store (s : Write)
  | clear

namespace Op

def apply (m : SparseLayer) : Op → Traced Fault SparseLayer
  | store s => (m.store s.start s.value s.width).result
  | clear => return m.clear

def Fits : Op → Prop
  | store s => s.Fits
  | clear => True

def BoundBy (bind : Binding) : Op → Prop
  | store s => s.value.BoundBy bind
  | clear => True

end Op

def run (m : SparseLayer) (ops : List Op) : Traced Fault SparseLayer := ops.foldlM Op.apply m

/-- The stores since the last clearing, the last one first, of operations given the last one first. -/
def storesSinceClear : List Op → List Write
  | .store s :: earlier => s :: storesSinceClear earlier
  | .clear :: _ => []
  | [] => []

def lastWrite (stores : List Write) (p : Nat) : Option Write := stores.find? (fun s => decide (s.Covers p))

theorem lastWrite_cons (s : Write) (earlier : List Write) (p : Nat) :
    lastWrite (s :: earlier) p = if s.Covers p then some s else lastWrite earlier p := by
  unfold lastWrite
  rw [List.find?_cons]
  by_cases h : s.Covers p
  · simp [h]
  · simp [h]

theorem lastWrite_store (s : Write) (past : List Op) :
    lastWrite (storesSinceClear (.store s :: past)) = s.record (lastWrite (storesSinceClear past)) := by
  funext p
  exact lastWrite_cons s _ p

theorem isSome_lastWrite {stores : List Write} {p : Nat} :
    (lastWrite stores p).isSome ↔ ∃ s ∈ stores, s.Covers p := by
  rw [lastWrite, List.find?_isSome]
  simp only [decide_eq_true_eq]

variable {m : SparseLayer}

theorem store_follows {stored : List Expr} {last : Nat → Option Write} {a : Nat} {v : Expr} {w : Width}
    (h : m.Valid) (hf : Follows stored m.held last) (hok : (m.store a v w).report.outcome = .ok ()) :
    (m.store a v w).state.Valid ∧
      Follows (v :: stored) (m.store a v w).state.held ((Write.mk a v w).record last) := by
  obtain ⟨-, hvalid, hheld⟩ := store_ok h (fits_of_store_ok hok) v
  rw [hheld]
  exact ⟨hvalid, hf.write ⟨a, v, w⟩⟩

theorem store_error {a : Nat} {v : Expr} {w : Width} (h : m.Valid) {e : Fault}
    (herr : (m.store a v w).report.outcome = .error e) : (m.store a v w).state = m := by
  by_cases hfit : w.bytes = 0 ∨ a + w.bytes ≤ Address.last
  · rw [(store_ok h hfit v).1] at herr
    cases herr
  · exact (store_overflow (by omega) (by omega) v).1

theorem run_keeps {P : SparseLayer → List Op → Prop}
    (hkeeps : ∀ {m past op}, P m past → op.Fits → ∃ m', (op.apply m).outcome = .ok m' ∧ P m' (op :: past))
    {past ops : List Op} (h : P m past) (hfits : ∀ op ∈ ops, op.Fits) :
    ∃ m', (run m ops).outcome = .ok m' ∧ P m' (ops.reverse ++ past) := by
  -- `past` holds what the run has done already, the last operation first
  induction ops generalizing m past with
  | nil => exact ⟨m, rfl, h⟩
  | cons op ops ih =>
    obtain ⟨m₁, happly, h₁⟩ := hkeeps h (hfits op (by simp))
    obtain ⟨m₂, hrun, h₂⟩ := ih h₁ fun op' hop => hfits op' (.tail _ hop)
    refine ⟨m₂, ?_, ?_⟩
    · rw [run, List.foldlM_cons, Traced.outcome_bind_ok happly]
      exact hrun
    · rw [List.reverse_cons, List.append_assoc]
      exact h₂

def values : List Op → List Expr
  | [] => []
  | .store s :: ops => s.value :: values ops
  | .clear :: ops => values ops

theorem binds_values {ops : List Op} {bind : Binding} (h : ∀ op ∈ ops, op.BoundBy bind) :
    Binds bind (values ops) := by
  induction ops with
  | nil =>
    intro v hv
    cases hv
  | cons op ops ih =>
    have hrest := ih fun op' hop => h op' (.tail _ hop)
    cases op with
    | store s =>
      intro v hv
      rcases List.mem_cons.1 hv with rfl | hv
      · exact h (.store s) (by simp)
      · exact hrest v hv
    | clear => exact hrest

def Tracks (m : SparseLayer) (past : List Op) : Prop :=
  m.Valid ∧ Follows (values past) m.held (lastWrite (storesSinceClear past))

theorem tracks_apply {past : List Op} {op : Op} (h : m.Tracks past) (hfits : op.Fits) :
    ∃ m', (op.apply m).outcome = .ok m' ∧ m'.Tracks (op :: past) := by
  cases op with
  | store s =>
    obtain ⟨hok, -, -⟩ := store_ok h.1 (.inr hfits) s.value
    obtain ⟨hvalid, hlast⟩ := store_follows h.1 h.2 hok
    refine ⟨_, Step.outcome_result_ok hok, hvalid, ?_⟩
    rw [lastWrite_store]
    exact hlast
  | clear => exact ⟨m.clear, rfl, Entry.Ordered.nil, .empty⟩

theorem tracks_run {past ops : List Op} (h : m.Tracks past) (hfits : ∀ op ∈ ops, op.Fits) :
    ∃ m', (run m ops).outcome = .ok m' ∧ m'.Tracks (ops.reverse ++ past) :=
  run_keeps tracks_apply h hfits

theorem load_run (d : Diagnostics) (ops : List Op) (hfits : ∀ op ∈ ops, op.Fits) (a : Nat) (w : Width)
    (hw : 0 < w.bytes) (hlast : a + w.bytes ≤ Address.last) :
    ∃ m r, (run { diagnostics := d } ops).outcome = .ok m ∧ (m.load a w).outcome = .ok r ∧
      (r.isSome ↔ ∀ p, a ≤ p → p < a + w.bytes → ∃ s ∈ storesSinceClear ops.reverse, s.Covers p) ∧
      ∀ e, r = some e → e.width = w ∧
        ∀ bind, (∀ op ∈ ops, op.BoundBy bind) →
          ∃ c, e.evaluate bind = some c ∧ c.width = w ∧
            ∀ p, a ≤ p → p < a + w.bytes →
              ∃ s, lastWrite (storesSinceClear ops.reverse) p = some s ∧
                ∃ u, s.byte? bind p = some u ∧ c.bytes.data[p - a]? = some u := by
  have hfresh : Tracks { diagnostics := d } [] := ⟨valid_fresh d, .empty⟩
  obtain ⟨m, hrun, hvalid, hfollows⟩ := tracks_run hfresh hfits
  rw [List.append_nil] at hfollows
  obtain ⟨r, hload, hsome, hvalue⟩ := hfollows.load (answers hvalid) hw hlast
  refine ⟨m, r, hrun, hload, ?_, fun e he => ?_⟩
  · rw [hsome]
    simp only [isSome_lastWrite]
  · obtain ⟨hwidth, hbytes⟩ := hvalue e he
    refine ⟨hwidth, fun bind hbound => ?_⟩
    obtain ⟨c, hc, hcw, hread⟩ := hbytes bind (binds_values fun op hop => hbound op (List.mem_reverse.1 hop))
    refine ⟨c, hc, hcw, fun p hlo hhi => ?_⟩
    obtain ⟨s, u, hs, hbyte, hu⟩ := hread p hlo hhi
    exact ⟨s, hs, u, hbyte, hu⟩

theorem load_run_cut_symbol :
    let ops : List Op :=
      [.store ⟨0, .symbol "x" .w32, .w32⟩, .store ⟨1, .const (.ofNat .w8 0xff), .w16⟩]
    (∀ op ∈ ops, op.Fits) ∧ 0 < Width.w32.bytes ∧ 0 + Width.w32.bytes ≤ Address.last ∧
      ∃ m e, (run {} ops).outcome = .ok m ∧ (m.load 0 .w32).outcome = .ok (some e) ∧ e.width = .w32 ∧
        ∀ bind, (∀ op ∈ ops, op.BoundBy bind) →
          ∃ c, e.evaluate bind = some c ∧ ∃ s, lastWrite (storesSinceClear ops.reverse) 2 = some s ∧
            s.start = 1 ∧ c.bytes.data[2]? = s.byte? bind 2 := by
  intro ops
  have hfits : ∀ op ∈ ops, op.Fits := by
    intro op hop
    simp only [ops, List.mem_cons, List.not_mem_nil, or_false] at hop
    obtain rfl | rfl := hop
    · exact (by decide : 0 + 4 ≤ Address.last)
    · exact (by decide : 1 + 2 ≤ Address.last)
  have hw : 0 < Width.w32.bytes := by decide
  have hlast : 0 + Width.w32.bytes ≤ Address.last := by decide
  obtain ⟨m, r, hrun, hload, hsome, hvalue⟩ := load_run {} ops hfits 0 .w32 hw hlast
  have hcovered : r.isSome := by
    apply hsome.2
    intro p hlo hhi
    exact ⟨⟨0, .symbol "x" .w32, .w32⟩, by simp [ops, storesSinceClear], hlo, hhi⟩
  obtain ⟨e, rfl⟩ := Option.isSome_iff_exists.1 hcovered
  obtain ⟨hwidth, hbytes⟩ := hvalue e rfl
  refine ⟨hfits, hw, hlast, m, e, hrun, hload, hwidth, fun bind hbound => ?_⟩
  obtain ⟨c, hc, -, hread⟩ := hbytes bind hbound
  obtain ⟨s, hs, u, hu, hcu⟩ := hread 2 (by decide) (by decide)
  have hlate : lastWrite (storesSinceClear ops.reverse) 2 =
      some ⟨1, .const (.ofNat .w8 0xff), .w16⟩ := rfl
  obtain rfl : s = ⟨1, .const (.ofNat .w8 0xff), .w16⟩ := Option.some.inj (hs.symm.trans hlate)
  exact ⟨c, hc, _, hlate, rfl, hcu.trans hu.symm⟩

end SparseLayer

end LayeredMemory
