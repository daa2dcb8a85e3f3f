import LayeredMemory.Constant
import LayeredMemory.Report.Failure
import LayeredMemory.Report.Traced

namespace LayeredMemory

structure Block where
  start : Nat
  bytes : ByteArray
  deriving DecidableEq

namespace Block

def stop (b : Block) : Nat := b.start + b.bytes.size

def stop? (b : Block) : Except Overflow Nat :=
  if b.stop ≤ Address.last then .ok b.stop else .error .add

def interval (b : Block) : Interval Nat := ⟨b.start, b.stop, Nat.le_add_right _ _⟩

def read (b : Block) (a : Nat) (w : Width) : Constant :=
  .ofNat w (LittleEndian.read b.bytes (a - b.start) w.bytes)

def overwrite (b : Block) (a : Nat) (chunk : ByteArray) : Block :=
  { b with bytes := chunk.copySlice 0 b.bytes (a - b.start) chunk.size }

def join (b next : Block) : Block := { b with bytes := b.bytes ++ next.bytes }

def endsBy (a : Nat) (b : Block) : Bool := decide (b.stop ≤ a)

def find? (blocks : List Block) (a : Nat) : Option Block :=
  (blocks.dropWhile (endsBy a)).head?.filter (fun b => decide (b.start ≤ a))

/-- A write of some bytes in progress: the blocks that end at or before the next address to write, the last one
first, the other blocks, and how many bytes are written. -/
structure Writing where
  done : List Block
  ahead : List Block
  written : Nat

namespace Writing

def blocks (s : Writing) : List Block := s.done.reverse ++ s.ahead

def skip (a : Nat) (done : List Block) : List Block → List Block × List Block
  | [] => (done, [])
  | b :: ahead => if endsBy a b then skip a (b :: done) ahead else (done, b :: ahead)

def step (start : Nat) (bytes : ByteArray) (s : Writing) : Writing :=
  let a := start + s.written
  let left := bytes.size - s.written
  match skip a s.done s.ahead with
  | (done, []) => ⟨⟨a, bytes.extract s.written bytes.size⟩ :: done, [], bytes.size⟩
  | (done, b :: ahead) =>
    if b.start ≤ a then
      let stop := s.written + min left (b.stop - a)
      ⟨done, b.overwrite a (bytes.extract s.written stop) :: ahead, stop⟩
    else
      let stop := s.written + min left (b.start - a)
      ⟨⟨a, bytes.extract s.written stop⟩ :: done, b :: ahead, stop⟩

theorem skip_eq (a : Nat) (done blocks : List Block) :
    skip a done blocks =
      ((blocks.takeWhile (endsBy a)).reverse ++ done, blocks.dropWhile (endsBy a)) := by
  induction blocks generalizing done with
  | nil => rfl
  | cons b ahead ih =>
    rw [skip]
    by_cases h : endsBy a b
    · rw [if_pos h, ih, List.takeWhile_cons_of_pos h, List.dropWhile_cons_of_pos h, List.reverse_cons,
        List.append_assoc, List.singleton_append]
    · rw [if_neg h, List.takeWhile_cons_of_neg h, List.dropWhile_cons_of_neg h]
      rfl

theorem lt_stop_of_skip {a : Nat} {done blocks done' ahead : List Block} {b : Block}
    (h : skip a done blocks = (done', b :: ahead)) : a < b.stop := by
  rw [skip_eq, Prod.mk.injEq] at h
  have := List.head_dropWhile_not (endsBy a) (l := blocks) (by simp [h.2])
  simpa [h.2, endsBy] using this

theorem written_lt_step (start : Nat) (bytes : ByteArray) (s : Writing) (h : s.written < bytes.size) :
    s.written < (step start bytes s).written := by
  dsimp only [step]
  split
  · exact h
  · rename_i done b ahead found
    have := lt_stop_of_skip found
    split
    · dsimp only
      omega
    · dsimp only
      omega

def run (start : Nat) (bytes : ByteArray) (s : Writing) : Writing :=
  if s.written < bytes.size then run start bytes (step start bytes s) else s
termination_by bytes.size - s.written
decreasing_by
  have := written_lt_step start bytes s ‹_›
  omega

end Writing

def write (blocks : List Block) (a : Nat) (bytes : ByteArray) : List Block :=
  (Writing.run a bytes ⟨[], blocks, 0⟩).blocks

def joinFrom (last : Block) : List Block → Traced Refusal (List Block)
  | [] => return [last]
  | b :: rest =>
    if b.start < last.stop then Traced.fail (.overlappingBlocks last.stop b.start)
    else if b.start = last.stop then do
      Traced.record (.mergedBlocks b.start last.start)
      joinFrom (last.join b) rest
    else do
      let joined ← joinFrom b rest
      return last :: joined

def coalesce : List Block → Traced Refusal (List Block)
  | [] => return []
  | b :: rest => joinFrom b rest

def startsFirst (b c : Block) : Bool := decide (b.start ≤ c.start)

end Block

end LayeredMemory
