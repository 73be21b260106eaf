import ScalarJit.Bytes
import ScalarJit.Image.Section
import ScalarJit.Word

/-! # Loading sections

Sections are placed one after another in the memory of their rights class, each at a multiple of
sixteen. The memory of a class comes in whole pages of zeros at an address that the host chooses.
Then the bytes are copied, the links are resolved, and last the pages get their rights. -/

namespace ScalarJit

inductive LoadFault where
  | badLink (l : Link)
  | badEntry (id : SectionId) (offset : Nat)
  | panic (p : Panic)
deriving DecidableEq, Repr, Inhabited

def LoadFault.message : LoadFault → String
  | .badLink l => "Link " ++ l.describe ++ " does not fit its sections"
  | .badEntry id offset => s!"Entry point ({id}, {offset}) is not in an executable section"
  | .panic p => p.message

inductive LoadStep where
  | allocate (rights : Rights) (size : Nat)
  | copy (id : SectionId)
  | link (l : Link) (address : Nat)
  | protect (rights : Rights)
deriving DecidableEq, Repr, Inhabited

structure Region where
  rights : Rights
  base : Nat
  bytes : Array UInt8
deriving DecidableEq, Repr, Inhabited

/-- The address of an offset. The host has put the pages below the end of memory, so that only the sum
with an offset behind them can be too large. -/
def Region.address (g : Region) (offset : Nat) : Except Panic Nat :=
  if offset ≤ g.bytes.size then .ok (g.base + offset) else checkedAdd g.base offset

structure Placement where
  rights : Rights
  offset : Nat
deriving DecidableEq, Repr, Inhabited

structure Image where
  regions : List Region
  placements : List Placement
  journal : List LoadStep
deriving DecidableEq, Repr, Inhabited

abbrev Bases := Rights → Nat

/-- Classes of four gigabytes each, far from the addresses of host functions. -/
def Bases.standard : Bases
  | .readOnly => 0x7f5a00000000
  | .readWrite => 0x7f5b00000000
  | .executable => 0x7f5c00000000

def pageSize : Nat := 4096

namespace Image

/-! ### Placement -/

/-- Offsets of sections in their classes, given how much of each class is in use; with the final
use. -/
def place : (Rights → Nat) → List Section → List Placement × (Rights → Nat)
  | used, [] => ([], used)
  | used, s :: rest =>
    let offset := roundUp 16 (used s.rights)
    let next (r : Rights) := if r = s.rights then offset + s.data.size else used r
    let (placements, final) := place next rest
    (⟨s.rights, offset⟩ :: placements, final)

def layout (sections : List Section) : List Placement × (Rights → Nat) := place (fun _ => 0) sections

def allocate (bases : Bases) (sizes : Rights → Nat) : List Region :=
  (Rights.all.filter fun r => 0 < sizes r).map fun r =>
    ⟨r, bases r, Array.replicate (roundUp pageSize (sizes r)) 0⟩

/-! ### Memory -/

def region? (image : Image) (rights : Rights) : Option Region :=
  image.regions.find? (·.rights == rights)

def base? (image : Image) (rights : Rights) : Option Nat := (image.region? rights).map (·.base)

def address? (image : Image) (id : SectionId) (offset : Nat) : Except Panic (Option Nat) :=
  match image.placements[id]? with
  | none => .ok none
  | some placement =>
    match image.region? placement.rights with
    | none => .ok none
    | some region => some <$> region.address (placement.offset + offset)

def write (image : Image) (rights : Rights) (offset : Nat) (bytes : List UInt8) : Image :=
  let regions := image.regions.map fun r =>
    if r.rights = rights then { r with bytes := Bytes.overwrite r.bytes offset bytes } else r
  { image with regions }

def note (image : Image) (step : LoadStep) : Image := { image with journal := image.journal ++ [step] }

def copy (image : Image) : SectionId → List Section → Image
  | _, [] => image
  | id, s :: rest =>
    match image.placements[id]? with
    | none => image
    | some placement =>
      let image :=
        if s.data.isEmpty then image
        else (image.write placement.rights placement.offset s.data.toList).note (.copy id)
      copy image (id + 1) rest

/-! ### Links -/

def fits (sections : List Section) (id : SectionId) (offset width : Nat) : Except Panic Bool :=
  match sections[id]? with
  | some s => return (← checkedAdd offset width) ≤ s.data.size
  | none => return false

def admits (sections : List Section) (l : Link) : Except Panic Bool := do
  if (← fits sections l.pointerSection l.pointerOffset 8) then
    fits sections l.pointeeSection l.pointeeOffset 0
  else return false

def resolveLink (sections : List Section) (image : Image) (l : Link) : Except LoadFault Image := do
  if (← (admits sections l).mapError .panic) then
    let pointer ← (image.address? l.pointerSection l.pointerOffset).mapError .panic
    let pointee ← (image.address? l.pointeeSection l.pointeeOffset).mapError .panic
    match image.placements[l.pointerSection]?, pointer, pointee with
    | some placement, some _, some address =>
      let offset := placement.offset + l.pointerOffset
      return (image.write placement.rights offset (Bytes.littleEndian 8 address)).note (.link l address)
    | _, _, _ => throw (.badLink l)
  else throw (.badLink l)

def resolveLinks (sections : List Section) : Image → List Link → Except LoadFault Image
  | image, [] => .ok image
  | image, l :: rest => do resolveLinks sections (← resolveLink sections image l) rest

/-! ### The whole -/

def protect (image : Image) : Image :=
  let closed := (image.regions.map (·.rights)).filter (· ≠ .readWrite)
  { image with journal := image.journal ++ closed.map .protect }

def load (bases : Bases) (sections : List Section) (links : List Link) : Except LoadFault Image := do
  let (placements, sizes) := layout sections
  let regions := allocate bases sizes
  let journal := regions.map fun r => LoadStep.allocate r.rights (sizes r.rights)
  let image := (Image.mk regions placements journal).copy 0 sections
  let image ← resolveLinks sections image links
  return image.protect

/-- The eight bytes at an offset of a section, if the pages of its class reach that far. -/
def readWord (image : Image) (id : SectionId) (offset : Nat) : Except Panic (Option UInt64) :=
  match image.placements[id]? with
  | none => return none
  | some placement =>
    match image.region? placement.rights with
    | none => return none
    | some region => do
      let start ← checkedAdd placement.offset offset
      let stop ← checkedAdd start 8
      if region.bytes.size < stop then return none
      else return some (Bytes.toWord (region.bytes.extract start stop).toList)

/-- The class and offset that an address stands for; the end of a class counts as part of it. -/
def locate? (image : Image) (address : Nat) : Option (Rights × Nat) :=
  (image.regions.find? fun r => r.base ≤ address && address ≤ r.base + r.bytes.size).map
    fun r => (r.rights, address - r.base)

def entryAddress (image : Image) (id : SectionId) (offset : Nat) : Except LoadFault Nat := do
  match image.placements[id]? with
  | some ⟨.executable, _⟩ =>
    match (← (image.address? id offset).mapError .panic) with
    | some address => return address
    | none => throw (.badEntry id offset)
  | _ => throw (.badEntry id offset)

end Image
end ScalarJit
