import LayeredMemory.Report.Traced

namespace LayeredMemory

namespace Traced

variable {ε ε' α β : Type}

@[simp] theorem outcome_pure (a : α) : (pure a : Traced ε α).outcome = .ok a := rfl

@[simp] theorem outcome_record (e : Event) : (record e : Traced ε Unit).outcome = .ok () := rfl

@[simp] theorem outcome_liftM (x : Except ε α) : (liftM x : Traced ε α).outcome = x := rfl

theorem outcome_bind_ok {x : Traced ε α} {a : α} (h : x.outcome = .ok a) (f : α → Traced ε β) :
    (x >>= f).outcome = (f a).outcome := by
  obtain ⟨log, outcome⟩ := x
  obtain rfl : outcome = .ok a := h
  rfl

theorem outcome_bind_error {x : Traced ε α} {e : ε} (h : x.outcome = .error e) (f : α → Traced ε β) :
    (x >>= f).outcome = .error e := by
  obtain ⟨log, outcome⟩ := x
  obtain rfl : outcome = .error e := h
  rfl

theorem outcome_bind (x : Traced ε α) (f : α → Traced ε β) :
    (x >>= f).outcome = x.outcome >>= fun a => (f a).outcome := by
  cases h : x.outcome with
  | ok a => exact outcome_bind_ok h f
  | error e => exact outcome_bind_error h f

theorem outcome_bind_eq_ok {x : Traced ε α} {f : α → Traced ε β} {b : β} :
    (x >>= f).outcome = .ok b ↔ ∃ a, x.outcome = .ok a ∧ (f a).outcome = .ok b := by
  cases h : x.outcome with
  | ok a => simp [outcome_bind_ok h]
  | error e => simp [outcome_bind_error h]

theorem outcome_mapError_ok {x : Traced ε α} {a : α} (h : x.outcome = .ok a) (f : ε → ε') :
    (x.mapError f).outcome = .ok a := by
  rw [mapError, h]
  rfl

theorem outcome_mapError_error {x : Traced ε α} {e : ε} (h : x.outcome = .error e) (f : ε → ε') :
    (x.mapError f).outcome = .error (f e) := by
  rw [mapError, h]
  rfl

theorem outcome_mapError_eq_ok {x : Traced ε α} {a : α} {f : ε → ε'} :
    (x.mapError f).outcome = .ok a ↔ x.outcome = .ok a := by
  cases h : x.outcome with
  | ok b => simp [outcome_mapError_ok h]
  | error e => simp [outcome_mapError_error h]

theorem exists_error_mapError {x : Traced ε α} {f : ε → ε'} :
    (∃ e, (x.mapError f).outcome = .error e) ↔ ∃ e, x.outcome = .error e := by
  cases h : x.outcome with
  | ok a => simp [outcome_mapError_ok h]
  | error e => simp [outcome_mapError_error h]

end Traced

theorem Except.bind_eq_ok {ε α β : Type} {x : Except ε α} {f : α → Except ε β} {b : β} :
    x >>= f = .ok b ↔ ∃ a, x = .ok a ∧ f a = .ok b := by
  cases x with
  | ok a => exact ⟨fun h => ⟨a, rfl, h⟩, fun ⟨_, ha, h⟩ => Except.ok.inj ha ▸ h⟩
  | error e => exact ⟨nofun, nofun⟩

theorem Except.mapError_bind {ε ε' α β : Type} (x : Except ε α) (f : α → Except ε β) (g : ε → ε') :
    (x >>= f).mapError g = x.mapError g >>= fun a => (f a).mapError g := by
  cases x with
  | ok a => rfl
  | error e => rfl

theorem Except.mapM_ok {ε α β : Type} {f : α → Except ε β} {g : α → β} {l : List α}
    (h : ∀ a ∈ l, f a = .ok (g a)) : l.mapM f = .ok (l.map g) := by
  induction l with
  | nil => rfl
  | cons a l ih =>
    rw [List.mapM_cons, h a (by simp), ih fun b hb => h b (.tail _ hb)]
    rfl

theorem Except.foldlM_ok {ε α σ : Type} {f : σ → α → Except ε σ} {g : σ → α → σ} {l : List α}
    (h : ∀ a ∈ l, ∀ s, f s a = .ok (g s a)) (s : σ) : l.foldlM f s = .ok (l.foldl g s) := by
  induction l generalizing s with
  | nil => rfl
  | cons a l ih =>
    rw [List.foldlM_cons, h a (by simp)]
    exact ih (fun b hb => h b (.tail _ hb)) _

namespace Step

variable {σ τ ε ε' α : Type}

theorem examined_ok {step : Step σ ε Unit} {t : σ} {examine : σ → Traced ε Unit} (hstate : step.state = t)
    (hok : step.report.outcome = .ok ()) (ht : (examine t).outcome = .ok ()) :
    (step.examined examine).state = t ∧ (step.examined examine).report.outcome = .ok () := by
  subst hstate
  exact ⟨rfl, (Traced.outcome_bind_ok hok _).trans ht⟩

theorem examined_error {step : Step σ ε Unit} {t : σ} {e : ε} (hstate : step.state = t)
    (herror : step.report.outcome = .error e) (examine : σ → Traced ε Unit) :
    (step.examined examine).state = t ∧ (step.examined examine).report.outcome = .error e :=
  ⟨hstate, Traced.outcome_bind_error herror _⟩

theorem outcome_result_ok {step : Step σ ε Unit} (h : step.report.outcome = .ok ()) :
    step.result.outcome = .ok step.state := by
  rw [result, Traced.outcome_bind_ok h]
  rfl

theorem outcome_result_error {step : Step σ ε Unit} {e : ε} (h : step.report.outcome = .error e) :
    step.result.outcome = .error e := by
  rw [result, Traced.outcome_bind_error h]

theorem outcome_result_iff {step : Step σ ε Unit} {t : σ} :
    step.result.outcome = .ok t ↔ step.report.outcome = .ok () ∧ step.state = t := by
  cases h : step.report.outcome with
  | ok u => simp [outcome_result_ok h]
  | error e => simp [outcome_result_error h]

end Step

namespace Change

variable {σ ε α β : Type} {x : Change σ ε α} {f : α → Change σ ε β} {s t u : σ} {a : α} {b : β}

def Leads (x : Change σ ε α) (s : σ) (a : α) (t : σ) : Prop := (x s).state = t ∧ (x s).report.outcome = .ok a

theorem Leads.bind (hx : x.Leads s a t) (hf : (f a).Leads t b u) : (x >>= f).Leads s b u := by
  obtain ⟨rfl, hok⟩ := hx
  change (Change.bind x f s).state = u ∧ (Change.bind x f s).report.outcome = .ok b
  simp only [Change.bind, hok]
  exact hf

theorem leads_pure (a : α) (s : σ) : (pure a : Change σ ε α).Leads s a s := ⟨rfl, rfl⟩

theorem leads_modify (g : σ → σ) (s : σ) : (modify g : Change σ ε PUnit).Leads s ⟨⟩ (g s) := ⟨rfl, rfl⟩

theorem leads_record (e : Event) (s : σ) : (record e : Change σ ε Unit).Leads s () s := ⟨rfl, rfl⟩

theorem leads_forM {γ : Type} {f : γ → Change σ ε PUnit} {g : γ → σ → σ} {l : List γ}
    (h : ∀ c ∈ l, ∀ s, (f c).Leads s ⟨⟩ (g c s)) (s : σ) :
    (l.forM f).Leads s ⟨⟩ (l.foldl (fun s c => g c s) s) := by
  induction l generalizing s with
  | nil => exact leads_pure _ _
  | cons c l ih => exact (h c (by simp) s).bind (ih (fun d hd => h d (.tail _ hd)) _)

end Change

end LayeredMemory
