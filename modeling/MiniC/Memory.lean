/-
  The simulated memory: a space of 32-bit addresses in which regions live.

  Regions are kept in the order of their addresses.  `Memory.allocate` places a new region, filled
  with zeros, in the lowest gap that is large enough, so that freed addresses are used again.
  Bytes are read and written one at a time or four at a time, and all bytes of one access lie in
  one region.  A region holds the bytes that have been written; all others are zero.

  The space may go on behind the last address.  The address of a region is then cut to 32 bits, and
  the search for a gap overflows at a region that starts below it (`MemoryError.overflow`).

  A memory can be watched: then every successful write has one notice of the address and the value
  written, and nothing else has any (`Memory.notices`).
-/
import MiniC.Word
import Std.Data.TreeMap

namespace MiniC

/-- The first address that a region can have. -/
def addressSpaceStart : Nat := 0x1000

/-- A live region: its first address, its size and the bytes written so far, by their offset. -/
structure Region where
  start : Address
  size : Nat
  written : Std.TreeMap Nat UInt8

namespace Region

/-- A region of zeros. -/
def zeros (start : Address) (size : Nat) : Region := ⟨start, size, ∅⟩

/-- The address after the last byte. -/
def stop (r : Region) : Nat := r.start.toNat + r.size

/-- The byte at an offset. -/
def byte (r : Region) (i : Nat) : UInt8 := r.written.getD i 0

/-- Change the byte at an offset. -/
def setByte (r : Region) (i : Nat) (b : UInt8) : Region := { r with written := r.written.insert i b }

/-- Change the bytes from an offset on. -/
def setBytes (r : Region) (i : Nat) : List UInt8 → Region
  | [] => r
  | b :: bs => (r.setByte i b).setBytes (i + 1) bs

/-- The first `n` bytes, or all if there are fewer. -/
def bytes (r : Region) (n : Nat) : List UInt8 := (List.range (min n r.size)).map r.byte

end Region

/-- Why memory refuses an operation. -/
inductive MemoryError where
  | zeroSize
  | outOfMemory (requested : Nat)
  | invalidFree (a : Address)
  | unmapped (a : Address) (width : Nat)
  /-- An operation on addresses has left the numbers that they are.  Nothing recovers from this: the
  process ends, and what a run winds up after it is seen by nobody. -/
  | overflow (operation : String)
  deriving Repr, DecidableEq

/-- The message of a refusal. -/
def MemoryError.message : MemoryError → String
  | zeroSize => "cannot allocate a region of 0 bytes"
  | outOfMemory requested => "out of memory: no free region of " ++ toString requested ++ " bytes"
  | invalidFree a => "invalid free of address " ++ a.text
  | unmapped a width =>
    "access to " ++ toString width ++ " byte(s) at unallocated address " ++ a.text
  | overflow operation => "attempt to " ++ operation ++ " with overflow"

/-- A space of `capacity` bytes with its live regions in the order of their addresses. -/
structure Memory where
  capacity : UInt32
  regions : List Region
  watched : Bool

namespace Memory

/-- A space without regions. -/
def empty (capacity : UInt32) : Memory := ⟨capacity, [], false⟩

/-- The address after the last one that a region can have. -/
def limit (m : Memory) : Nat := addressSpaceStart + m.capacity.toNat

/-! ## Allocation -/

/-- The start of the first gap of `size` bytes at or after `cursor`, between or behind regions.  The
distance to a region that starts before the cursor is no number, and the search overflows. -/
def firstGap (size : Nat) (cursor : Nat) : List Region → Except MemoryError Nat
  | [] => .ok cursor
  | r :: rs =>
    if r.start.toNat < cursor then .error (.overflow "subtract")
    else if size ≤ r.start.toNat - cursor then .ok cursor
    else firstGap size r.stop rs

/-- Put a region in its place by address; one that starts at the same address gives way. -/
def insertRegion (new : Region) : List Region → List Region
  | [] => [new]
  | r :: rs =>
    if new.start < r.start then new :: r :: rs
    else if new.start = r.start then new :: rs
    else r :: insertRegion new rs

/-- A new region of `size` zeros in the lowest gap: its address and the memory that holds it. -/
def allocate (m : Memory) (size : Nat) : Except MemoryError (Address × Memory) :=
  if size = 0 then .error .zeroSize
  else
    match firstGap size addressSpaceStart m.regions with
    | .error e => .error e
    | .ok cursor =>
      if m.limit - cursor < size then .error (.outOfMemory size)
      else
        let a := UInt32.ofNat cursor
        .ok (a, { m with regions := insertRegion (.zeros a size) m.regions })

/-- The region that starts at `a`. -/
def region? (m : Memory) (a : Address) : Option Region := m.regions.find? fun r => r.start = a

/-- The regions without the one that starts at `a`. -/
def removeRegion (a : Address) : List Region → List Region
  | [] => []
  | r :: rs => if r.start = a then rs else r :: removeRegion a rs

/-- Give up the region that starts at `a`. -/
def free (m : Memory) (a : Address) : Except MemoryError Memory :=
  if (m.region? a).isSome then .ok { m with regions := removeRegion a m.regions }
  else .error (.invalidFree a)

/-- Give up all regions. -/
def clear (m : Memory) : Memory := { m with regions := [] }

/-- The bytes in regions. -/
def totalSize : List Region → Nat
  | [] => 0
  | r :: rs => r.size + totalSize rs

/-- The bytes in live regions. -/
def allocatedBytes (m : Memory) : Nat := totalSize m.regions

/-! ## Access -/

/-- The last region that starts at or below `a`. -/
def lastBelow (a : Address) : List Region → Option Region
  | [] => none
  | r :: rs =>
    if a < r.start then none
    else
      match lastBelow a rs with
      | some s => some s
      | none => some r

/-- The region that holds the `width` bytes at `a`, and the offset of the first of them. -/
def locate (m : Memory) (a : Address) (width : Nat) : Option (Region × Nat) :=
  match lastBelow a m.regions with
  | none => none
  | some r =>
    let i := a.toNat - r.start.toNat
    if i + width ≤ r.size then some (r, i) else none

/-- The byte at an address, if a region holds it. -/
def byte? (m : Memory) (a : Address) : Option UInt8 :=
  (m.locate a 1).map fun (r, i) => r.byte i

/-- The word at an address, if one region holds all of it. -/
def word? (m : Memory) (a : Address) : Option Word :=
  (m.locate a 4).map fun (r, i) =>
    Word.ofBytes (r.byte i) (r.byte (i + 1)) (r.byte (i + 2)) (r.byte (i + 3))

/-- The byte at an address. -/
def read (m : Memory) (a : Address) : Except MemoryError UInt8 :=
  match m.byte? a with
  | some b => .ok b
  | none => .error (.unmapped a 1)

/-- The word at an address. -/
def readWord (m : Memory) (a : Address) : Except MemoryError Word :=
  match m.word? a with
  | some w => .ok w
  | none => .error (.unmapped a 4)

/-- Change the region that starts at `a`. -/
def modifyRegion (a : Address) (f : Region → Region) : List Region → List Region
  | [] => []
  | r :: rs => if r.start = a then f r :: rs else r :: modifyRegion a f rs

/-- Change the bytes at `a`, all in one region. -/
def writeBytes (m : Memory) (a : Address) (bs : List UInt8) : Except MemoryError Memory :=
  match m.locate a bs.length with
  | none => .error (.unmapped a bs.length)
  | some (r, i) => .ok { m with regions := modifyRegion r.start (·.setBytes i bs) m.regions }

/-- Change the byte at an address. -/
def write (m : Memory) (a : Address) (b : UInt8) : Except MemoryError Memory := m.writeBytes a [b]

/-- Change the word at an address, lowest byte first. -/
def writeWord (m : Memory) (a : Address) (w : Word) : Except MemoryError Memory :=
  m.writeBytes a w.bytes

/-- What the watcher of a memory hears of a successful write of `w` at `a`. -/
def notices (m : Memory) (a : Address) (w : Word) : List (Address × Word) :=
  if m.watched then [(a, w)] else []

end Memory

end MiniC
