import Ia32.Abi
import Ia32.Machine.Fault
import Std.Data.HashMap

/-!
# Memory

Byte memory that is mapped page by page: a table holds the bytes of each mapped
page. A mapped byte that was never written is zero; access outside the mapped
pages faults, and a write that faults keeps the bytes stored before it. Addresses
wrap at the end of the address space.

The operations that open the table are irreducible: all else goes by their laws.
-/

namespace Ia32

/-- The bytes of a page. -/
abbrev Page := Vector UInt8 Abi.pageSize

/-- A page to which nothing was written. -/
def Page.zero : Page := .replicate Abi.pageSize 0

/-- The mapped pages, each under its first address. -/
structure Memory where
  pages : Std.HashMap UInt32 Page := {}

namespace Memory

/-- The number of the page that an address lies in. -/
def pageOf (addr : UInt32) : Nat :=
  addr.toNat / Abi.pageSize

/-- The first address of the page that an address lies in. -/
def pageStart (addr : UInt32) : UInt32 :=
  UInt32.ofNat (Abi.pageSize * pageOf addr)

/-- The place of an address in its page. -/
def offset (addr : UInt32) : Fin Abi.pageSize :=
  ⟨addr.toNat % Abi.pageSize, Nat.mod_lt _ (by decide)⟩

/-- Whether an address lies in a mapped page. -/
@[irreducible]
def isMapped (mem : Memory) (addr : UInt32) : Bool :=
  mem.pages.contains (pageStart addr)

/-- The byte at an address, if it is mapped. -/
@[irreducible]
def get? (mem : Memory) (addr : UInt32) : Option UInt8 :=
  mem.pages[pageStart addr]?.map fun page => page[offset addr]

/-- Maps a page by its first address. A page that is mapped already keeps its contents. -/
@[irreducible]
def enter (mem : Memory) (page : UInt32) : Memory :=
  ⟨mem.pages.insertIfNew page .zero⟩

/-- Maps one page after another. The next page is not mapped if there is none, or if it starts
behind the last address. -/
def enterTo (mem : Memory) (last page : UInt32) : Memory :=
  if _ : page.toNat + Abi.pageSize < 4294967296 then
    let next := UInt32.ofNat (page.toNat + Abi.pageSize)
    if next ≤ last then (mem.enter page).enterTo last next else mem.enter page
  else mem.enter page
termination_by 4294967296 - page.toNat
decreasing_by
  rename_i hroom _
  rw [UInt32.toNat_ofNat_of_lt' hroom]
  simp only [Abi.pageSize] at hroom ⊢
  omega

/-- The last address of a range that is not empty, cut off at the last address of all. -/
def lastPlace (addr : UInt32) (length : Nat) : UInt32 :=
  UInt32.ofNat (min (addr.toNat + (length - 1)) 4294967295)

/-- Maps the pages of the bytes from an address on; pages that are mapped
already keep their contents. -/
def map (mem : Memory) (addr : UInt32) (length : Nat) : Memory :=
  if length = 0 then mem else mem.enterTo (lastPlace addr length) (pageStart addr)

/-- Stores a byte at a mapped address. -/
@[irreducible]
def set (mem : Memory) (addr : UInt32) (value : UInt8) : Memory :=
  ⟨mem.pages.modify (pageStart addr) fun page => page.set (offset addr) value⟩

/-- The byte at an address. -/
def read8 (mem : Memory) (addr : UInt32) : Except Fault UInt8 :=
  match mem.get? addr with
  | some b => .ok b
  | none => .error (.unmapped addr)

/-- Appends the bytes from an address on. -/
def readOnto (mem : Memory) (addr : UInt32) (found : Array UInt8) :
    Nat → Except Fault (Array UInt8)
  | 0 => .ok found
  | length + 1 =>
      match mem.get? addr with
      | some b => mem.readOnto (addr + 1) (found.push b) length
      | none => .error (.unmapped addr)

/-- The bytes from an address on. -/
def read (mem : Memory) (addr : UInt32) (length : Nat) : Except Fault Bytes :=
  (mem.readOnto addr #[] length).map Array.toList

/-- The word at an address. -/
def read32 (mem : Memory) (addr : UInt32) : Except Fault UInt32 := do
  return Word.ofBytes (← mem.read8 addr) (← mem.read8 (addr + 1)) (← mem.read8 (addr + 2))
    (← mem.read8 (addr + 3))

/-- The bytes from an address on, up to a number or to the first address that
is not mapped. -/
def fetch (mem : Memory) (addr : UInt32) : Nat → Bytes
  | 0 => []
  | length + 1 =>
      match mem.get? addr with
      | none => []
      | some b => b :: mem.fetch (addr + 1) length

/-- Stores bytes from an address on. The memory comes back with the bytes
stored before a fault. -/
def write (mem : Memory) (addr : UInt32) : Bytes → Memory × Except Fault Unit
  | [] => (mem, .ok ())
  | b :: rest =>
      if mem.isMapped addr then (mem.set addr b).write (addr + 1) rest
      else (mem, .error (.unmapped addr))

/-- Stores one byte. -/
def write8 (mem : Memory) (addr : UInt32) (value : UInt8) : Memory × Except Fault Unit :=
  mem.write addr [value]

/-- Stores a word. -/
def write32 (mem : Memory) (addr value : UInt32) : Memory × Except Fault Unit :=
  mem.write addr (Word.toBytes value)

end Memory

end Ia32
