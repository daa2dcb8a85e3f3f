import LayeredMemory.Memory.Flatten
import LayeredMemory.Proofs.Spaces.Independence

namespace LayeredMemory

inductive Answer
  | done
  | value (e : Option Expr)
  | addresses (set : IntervalSet Nat)
  | number (n : Nat)
  | flag (b : Bool)
  | bytes (blocks : List Block)
  | ofKey (answer : AddressSpaces.Answer)
  | keys (names : List String) (size : Nat) (isEmpty : Bool)
  | absent
  deriving DecidableEq

def Step.done {σ : Type} (step : Step σ Failure Unit) : Step σ Failure Answer :=
  ⟨step.state, step.report >>= fun _ => return .done⟩

inductive Operation
  | load (a : Nat) (w : Width)
  | missing (a : Nat) (w : Width)
  | blocks
  | depth
  | store (path : List Side) (a : Nat) (v : Expr) (w : Width)
  | tryStore (a : Nat) (v : Expr) (w : Width)
  | size
  | isEmpty
  | bytes
  | clear
  | check

/-- The first five operations are those of any memory, the others belong to sparse layers or images. -/
def Memory.perform {δ : Type} [Device δ] : Memory δ → Operation → Step (Memory δ) Failure Answer
  | m, .load a w => .stay m (do return .value (← m.load a w))
  | m, .missing a w => .stay m (do return .addresses (← m.missing a w))
  | m, .blocks => .stay m (return .addresses m.blocks)
  | m, .depth => .stay m (return .number m.depth)
  | m, .store path a v w =>
    match m.storeAt path a v w with
    | none => .stay m (return .absent)
    | some step => (step.mapError .fault).done
  | image l, .tryStore a v w => ((l.tryStore a v w).inside image).done
  | sparse l, .size => .stay (sparse l) (return .number l.size)
  | sparse l, .isEmpty => .stay (sparse l) (return .flag l.isEmpty)
  | image l, .bytes => .stay (image l) (return .bytes l.blocks)
  | sparse l, .clear => .stay (sparse l.clear) (return .done)
  | sparse l, .check => .stay (sparse l) (do l.check; return .done)
  | image l, .check => .stay (image l) (do l.check; return .done)
  | m, _ => .stay m (return .absent)

inductive Source (δ : Type)
  | sparse
  | image (given : List Block)
  | emptyImage
  | device (layer : δ)
  | layered (base top : Nat)
  /-- An overlay that is built without a look at its depth. -/
  | boxed (base top : Nat)
  | part (n : Nat) (side : Side)
  | flattened (n : Nat)

inductive Command (δ : Type)
  | build (source : Source δ) (dest : Nat)
  | perform (n : Nat) (op : Operation)
  | spaces (dest : Nat)
  | ask (n : Nat) (key : String) (r : AddressSpaces.Request Nat) (dest : Nat)
  | keys (n : Nat)

def AddressSpaces.Request.resolve {μ ν : Type} (find : μ → Option ν) : Request μ → Option (Request ν)
  | .load a w => some (.load a w)
  | .store a v w => some (.store a v w)
  | .missing a w => some (.missing a w)
  | .blocks => some .blocks
  | .insert m => (find m).map .insert
  | .remove => some .remove
  | .get => some .get
  | .storeThrough a v w => some (.storeThrough a v w)

structure Session (δ : Type) where
  memories : Nat → Option (Memory δ) := fun _ => none
  spaces : Nat → Option (AddressSpaces δ) := fun _ => none

namespace Session

variable {δ : Type}

def put (σ : Session δ) (n : Nat) (m : Memory δ) : Session δ :=
  { σ with memories := fun k => if k = n then some m else σ.memories k }

def putSpaces (σ : Session δ) (n : Nat) (s : AddressSpaces δ) : Session δ :=
  { σ with spaces := fun k => if k = n then some s else σ.spaces k }

def take (σ : Session δ) (n : Nat) : Option (Memory δ) → Session δ
  | none => σ
  | some m => σ.put n m

def absent (σ : Session δ) : Step (Session δ) Failure Answer := .stay σ (return .absent)

variable [Device δ]

def make (σ : Session δ) (d : Diagnostics) : Source δ → Option (Traced Failure (Memory δ))
  | .sparse => some (return .sparse { diagnostics := d })
  | .image given => some (.image <$> (ImageLayer.ofBlocks given d).mapError .refusal)
  | .emptyImage => some (return .image { diagnostics := d })
  | .device layer => some (return .device layer)
  | .layered base top => do
    let m ← σ.memories base
    let n ← σ.memories top
    some (m.layered n d)
  | .boxed base top => do
    let m ← σ.memories base
    let n ← σ.memories top
    some (return .overlay m n)
  | .part n side => do
    let m ← σ.memories n
    let part ← m.side? side
    some (return part)
  | .flattened n => (σ.memories n).map fun m => .sparse <$> flatten m

def execute (σ : Session δ) (d : Diagnostics) : Command δ → Step (Session δ) Failure Answer
  | .build source dest =>
    match σ.make d source with
    | none => σ.absent
    | some made =>
      let σ' := match made.outcome with
        | .ok m => σ.put dest m
        | .error _ => σ
      ⟨σ', made >>= fun _ => return .done⟩
  | .perform n op =>
    match σ.memories n with
    | none => σ.absent
    | some m => (m.perform op).inside (σ.put n)
  | .spaces dest => .stay (σ.putSpaces dest { diagnostics := d }) (return .done)
  | .ask n key r dest =>
    match σ.spaces n with
    | none => σ.absent
    | some s =>
      match (r.resolve σ.memories).map (s.respond key) with
      | none => σ.absent
      | some (s', reply) =>
        ⟨(σ.putSpaces n s').take dest reply.memory?, do return .ofKey (← reply.report)⟩
  | .keys n =>
    match σ.spaces n with
    | none => σ.absent
    | some s => .stay σ (return .keys s.keys s.size s.isEmpty)

def after (σ : Session δ) (d : Nat → Diagnostics) : List (Command δ) → Session δ
  | [] => σ
  | c :: program => after (σ.execute (d 0) c).state (fun i => d (i + 1)) program

def reports (σ : Session δ) (d : Nat → Diagnostics) : List (Command δ) → List (Traced Failure Answer)
  | [] => []
  | c :: program => (σ.execute (d 0) c).report :: reports (σ.execute (d 0) c).state (fun i => d (i + 1)) program

theorem getElem?_reports (σ : Session δ) (d : Nat → Diagnostics) (program : List (Command δ)) (i : Nat) :
    (σ.reports d program)[i]? =
      program[i]?.map fun c => ((σ.after d (program.take i)).execute (d i) c).report := by
  induction program generalizing σ d i with
  | nil => rfl
  | cons c program ih =>
    cases i with
    | zero => rfl
    | succ i => exact ih _ _ i

end Session

end LayeredMemory
