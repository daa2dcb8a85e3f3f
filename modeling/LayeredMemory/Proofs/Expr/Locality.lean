import LayeredMemory.Proofs.Expr.Evaluation

namespace LayeredMemory

namespace Expr

variable {bind bind' : Binding}

theorem isSome_of_evaluate {e : Expr} {c : Constant} (h : e.evaluate bind = some c) :
    ∀ name ∈ e.names, (bind name).isSome := by
  induction e generalizing c with
  | const d => simp
  | symbol name w =>
    obtain ⟨d, hd, -⟩ := Option.map_eq_some_iff.1 h
    simp [hd]
  | unary op x w ih =>
    obtain ⟨a, ha, -⟩ := evaluate_unary.1 h
    exact ih ha
  | binary op l r w ihl ihr =>
    obtain ⟨a, b, ha, hb, -⟩ := evaluate_binary.1 h
    intro name hn
    rw [names_binary, List.mem_append] at hn
    exact hn.elim (ihl ha name) (ihr hb name)
  | resize x w ih =>
    obtain ⟨a, ha, -⟩ := evaluate_resize.1 h
    exact ih ha

theorem isSome_evaluate_iff {e : Expr} : (e.evaluate bind).isSome ↔ e.BoundBy bind := by
  constructor
  · intro h name hn
    obtain ⟨c, hc⟩ := Option.isSome_iff_exists.1 h
    exact isSome_of_evaluate hc name (mem_symbols.1 hn)
  · intro h
    exact Option.isSome_iff_exists.2 h.evaluate

theorem evaluate_congr {e : Expr} (h : ∀ name ∈ e.names, bind name = bind' name) :
    e.evaluate bind = e.evaluate bind' := by
  induction e with
  | const c => rfl
  | symbol name w => simp only [evaluate, h name (by simp)]
  | unary op x w ih => simp only [evaluate, ih h]
  | binary op l r w ihl ihr =>
    rw [names_binary] at h
    have hl := ihl fun name hn => h name (List.mem_append_left _ hn)
    have hr := ihr fun name hn => h name (List.mem_append_right _ hn)
    simp only [evaluate, hl, hr]
  | resize x w ih => simp only [evaluate, ih h]

theorem evaluate_by_symbols (e : Expr) (bind : Binding) :
    ((e.evaluate bind).isSome ↔ ∀ name ∈ e.symbols, (bind name).isSome) ∧
      (∀ c, e.evaluate bind = some c → c.width = e.width) ∧
      ∀ bind' : Binding, (∀ name ∈ e.symbols, bind name = bind' name) →
        e.evaluate bind = e.evaluate bind' := by
  refine ⟨isSome_evaluate_iff, fun c hc => width_of_evaluate hc, ?_⟩
  intro bind' h
  exact evaluate_congr fun name hn => h name (mem_symbols.2 hn)

/-- The symbol `x` under a mask that is zero whatever `y` is. -/
def masked : Expr :=
  binary .and (symbol "x" .w16) (binary .shl (const (.zero .w8)) (symbol "y" .w32) .w32) .w16

def bindingOf (y z : Option Constant) : Binding := fun name =>
  if name = "x" then some (.ofNat .w32 0x12345678) else if name = "y" then y else if name = "z" then z else none

theorem symbols_masked : masked.symbols = ["x", "y"] := by
  have hnames : masked.names = ["x", "y"] := rfl
  rw [symbols, hnames, List.mergeSort_of_pairwise (by decide)]
  rfl

theorem evaluate_by_symbols_masked :
    (masked.evaluate (bindingOf none none)).isSome = false ∧
      (∃ c, masked.evaluate (bindingOf (some (.zero .w8)) none) = some c ∧ c.width = .w16) ∧
      masked.evaluate (bindingOf (some (.zero .w8)) none) =
        masked.evaluate (bindingOf (some (.zero .w8)) (some (.zero .w64))) := by
  obtain ⟨unbound, -, -⟩ := evaluate_by_symbols masked (bindingOf none none)
  obtain ⟨bound, width, alike⟩ := evaluate_by_symbols masked (bindingOf (some (.zero .w8)) none)
  rw [symbols_masked] at unbound bound alike
  refine ⟨?_, ?_, alike _ (by decide)⟩
  · rw [Bool.eq_false_iff, Ne, unbound]
    decide
  · obtain ⟨c, hc⟩ := Option.isSome_iff_exists.1 (bound.2 (by decide))
    exact ⟨c, hc, width c hc⟩

end Expr

end LayeredMemory
