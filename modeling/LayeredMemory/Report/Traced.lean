import LayeredMemory.Report.Event
import LayeredMemory.Report.Failure

namespace LayeredMemory

structure Traced (ε α : Type) where
  log : List Event
  outcome : Except ε α

namespace Traced

variable {ε ε' α β : Type}

protected def pure (a : α) : Traced ε α := ⟨[], .ok a⟩

protected def bind (x : Traced ε α) (f : α → Traced ε β) : Traced ε β :=
  match x.outcome with
  | .ok a =>
    let y := f a
    ⟨x.log ++ y.log, y.outcome⟩
  | .error e => ⟨x.log, .error e⟩

instance : Monad (Traced ε) where
  pure := Traced.pure
  bind := Traced.bind

theorem pure_eq (a : α) : (pure a : Traced ε α) = ⟨[], .ok a⟩ := rfl

theorem bind_ok (log : List Event) (a : α) (f : α → Traced ε β) :
    (⟨log, .ok a⟩ : Traced ε α) >>= f = ⟨log ++ (f a).log, (f a).outcome⟩ := rfl

instance : LawfulMonad (Traced ε) := LawfulMonad.mk' _
  (by rintro α ⟨log, _ | a⟩ <;> simp [Functor.map, Traced.bind, Traced.pure])
  (by intro α β a f; simp [pure_eq, bind_ok])
  (by rintro α β γ ⟨log, _ | a⟩ f g
      · rfl
      · simp only [bind_ok]
        rcases f a with ⟨log', _ | b⟩
        · rfl
        · simp [bind_ok])

def record (e : Event) : Traced ε Unit := ⟨[e], .ok ()⟩

def fail (e : ε) : Traced ε α := ⟨[], .error e⟩

def ofExcept (x : Except ε α) : Traced ε α := ⟨[], x⟩

instance : MonadLift (Except ε) (Traced ε) := ⟨ofExcept⟩

def mapError (f : ε → ε') (x : Traced ε α) : Traced ε' α := ⟨x.log, x.outcome.mapError f⟩

instance : MonadLift (Traced Fault) (Traced Failure) := ⟨mapError .fault⟩

instance : MonadLift (Traced Refusal) (Traced Failure) := ⟨mapError .refusal⟩

end Traced

/-- A change of state: the state afterwards, also when the change failed, and the report about it. -/
structure Step (σ ε α : Type) where
  state : σ
  report : Traced ε α

namespace Step

variable {σ τ ε ε' α : Type}

def stay (s : σ) (report : Traced ε α) : Step σ ε α := ⟨s, report⟩

def inside (f : σ → τ) (step : Step σ ε α) : Step τ ε α := ⟨f step.state, step.report⟩

def mapError (f : ε → ε') (step : Step σ ε α) : Step σ ε' α := ⟨step.state, step.report.mapError f⟩

def examined (step : Step σ ε Unit) (examine : σ → Traced ε Unit) : Step σ ε Unit :=
  ⟨step.state, step.report >>= fun _ => examine step.state⟩

def result (step : Step σ ε Unit) : Traced ε σ := step.report >>= fun _ => pure step.state

end Step

/-- Changes one after the other. Where one of them fails, the state stays as those before it have left it. -/
def Change (σ ε α : Type) := σ → Step σ ε α

namespace Change

variable {σ ε α β : Type}

protected def pure (a : α) : Change σ ε α := fun s => ⟨s, pure a⟩

protected def bind (x : Change σ ε α) (f : α → Change σ ε β) : Change σ ε β := fun s =>
  let step := x s
  match step.report.outcome with
  | .ok a =>
    let next := f a step.state
    ⟨next.state, step.report.log ++ next.report.log, next.report.outcome⟩
  | .error e => ⟨step.state, step.report.log, .error e⟩

instance : Monad (Change σ ε) where
  pure := Change.pure
  bind := Change.bind

instance : MonadStateOf σ (Change σ ε) where
  get := fun s => ⟨s, pure s⟩
  set := fun s _ => ⟨s, pure ()⟩
  modifyGet := fun f s => ⟨(f s).2, pure (f s).1⟩

instance : MonadLift (Traced ε) (Change σ ε) := ⟨fun report s => ⟨s, report⟩⟩

def record (e : Event) : Change σ ε Unit := fun s => ⟨s, Traced.record e⟩

end Change

end LayeredMemory
