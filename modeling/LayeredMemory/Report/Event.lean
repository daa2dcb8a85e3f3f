import LayeredMemory.Text
import LayeredMemory.Words

namespace LayeredMemory

open Text (hexNumber)

inductive Severity
  | warn
  | debug
  | trace
  deriving DecidableEq, Repr

namespace Severity

def label : Severity → String
  | warn => "WARN"
  | debug => "DEBUG"
  | trace => "TRACE"

def detail : Severity → Nat
  | warn => 0
  | debug => 1
  | trace => 2

def keptBy (s limit : Severity) : Bool := decide (s.detail ≤ limit.detail)

end Severity

/-- Ranges are given by their first address and the address behind them. -/
inductive Event
  | emptySparseStore (address : Nat)
  | sparseStore (start stop entries : Nat)
  | keptPart (start stop entry : Nat)
  | sparseGap (start stop covered : Nat)
  | sparseLoad (start stop entries : Nat)
  | emptyImageStore (address : Nat)
  | imageStore (start stop : Nat)
  | imageEnd (start stop blockStop : Nat)
  | imageCreated (blocks : Nat)
  | mergedBlocks (start into : Nat)
  | splitLoad (address baseReads topReads : Nat)
  | deepOverlay (depth threshold : Nat)
  | flattening (blocks depth : Nat)
  | createdSpace (key : String)
  deriving DecidableEq

namespace Event

def severity : Event → Severity
  | emptySparseStore .. | sparseStore .. | sparseGap .. | sparseLoad .. => .trace
  | emptyImageStore .. | imageStore .. | imageEnd .. | splitLoad .. => .trace
  | keptPart .. | imageCreated .. | mergedBlocks .. | flattening .. | createdSpace .. => .debug
  | deepOverlay .. => .warn

def range (start stop : Nat) : String := s!"[{hexNumber start}, {hexNumber stop})"

def message : Event → String
  | emptySparseStore address => s!"sparse store of zero width at {hexNumber address} ignored"
  | sparseStore start stop entries => s!"sparse store {range start stop} over {entries} entries"
  | keptPart start stop entry => s!"keeping {range start stop} of entry at {hexNumber entry}"
  | sparseGap start stop covered =>
    s!"sparse load {range start stop} not covered past {hexNumber covered}"
  | sparseLoad start stop entries => s!"sparse load {range start stop} from {entries} entries"
  | emptyImageStore address => s!"bytes store of zero width at {hexNumber address} ignored"
  | imageStore start stop => s!"bytes store {range start stop}"
  | imageEnd start stop blockStop =>
    s!"bytes load {range start stop} crosses block end {hexNumber blockStop}"
  | imageCreated blocks => s!"bytes memory created with {blocks} blocks"
  | mergedBlocks start into => s!"merging block at {hexNumber start} into block at {hexNumber into}"
  | splitLoad address baseReads topReads =>
    s!"overlay load at {hexNumber address} split into {baseReads} base and {topReads} overlay reads"
  | deepOverlay depth threshold =>
    s!"overlay nested {depth} levels deep (warning threshold {threshold}); consider squashing it"
  | flattening blocks depth => s!"squashing {blocks} blocks of a memory {depth} layers deep"
  | createdSpace key => s!"creating sparse memory for address space {Text.quote key}"

def text (e : Event) : String := s!"{e.severity.label} {e.message}"

end Event

structure Diagnostics where
  depthThreshold : Nat := 4
  checksInvariants : Bool := true
  deriving DecidableEq, Inhabited

namespace Diagnostics

def standard : Diagnostics := {}

def strict : Diagnostics := ⟨2, true⟩

def fast : Diagnostics := ⟨2 ^ 64 - 1, false⟩

end Diagnostics

end LayeredMemory
