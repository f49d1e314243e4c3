import Cop4600.Traversal
import Cop4600.Storage

/-!
# The class `Wad`

The data members of `Wad.h` together with the contents of the file behind `fd`,
and the public operations of `Wad.cpp` on them. `int` arguments are `Int32`,
`uint32_t` fields are `UInt32`; conversions between the two keep the bits.

Every `pwrite` takes from outside how many bytes it transfers: an operation gets
a `Pwrites`, which answers for each of its calls in turn. As in `Traversal`,
`none` is a read through a pointer outside the descriptor vector.
-/

namespace Cop4600

open Storage

/-! ## The file format -/

/-- The sixteen bytes of a `WadDescriptor`. -/
def descriptorBytes (d : WadDescriptor) : Bytes :=
  leBytes 4 d.offset.toNat ++ (leBytes 4 d.size.toNat ++ d.name.toList)

/-- The bytes of a run of descriptors. -/
def tableBytes : List WadDescriptor → Bytes
  | [] => []
  | d :: ds => descriptorBytes d ++ tableBytes ds

/-- Sixteen bytes of a file as a descriptor. -/
def readDescriptor (bs : Bytes) : WadDescriptor where
  offset := UInt32.ofNat (leNat (bs.take 4))
  size := UInt32.ofNat (leNat ((bs.drop 4).take 4))
  name := Name.ofBytes ((bs.drop 8).take 8)

/-- The first `n` descriptors in these bytes. -/
def readTable : Nat → Bytes → List WadDescriptor
  | 0, _ => []
  | n + 1, bs => readDescriptor (bs.take 16) :: readTable n (bs.drop 16)

/-! ## The state, and loading it -/

/-- A `Wad` object and the file it has open. -/
structure Wad : Type where
  /-- what `fd` refers to -/
  file : Bytes
  magic : Bytes
  doffset : UInt32
  descriptors : List WadDescriptor
  deriving DecidableEq

/-- `Wad::loadWad` on a file that could be opened. A file too short for a header
leaves the header's fields indeterminate: no state can be told then. Descriptors
the table is too short for stay zeroed, as `resize` made them. -/
def Wad.loadWad (file : Bytes) : Option Wad :=
  if file.length < 12 then none
  else
    let dcount := leNat (readAt file 4 4)
    let doffset := leNat (readAt file 4 8)
    some
      { file
        magic := readAt file 4 0
        doffset := UInt32.ofNat doffset
        descriptors :=
          readTable dcount ((readAt file (dcount * 16) doffset).takeD (dcount * 16) 0) }

/-- A WAD without data: a header, and the table right after it. -/
def withoutData (ds : List WadDescriptor) : Wad where
  file := chars ['I', 'W', 'A', 'D'] ++ leBytes 4 ds.length ++ leBytes 4 12 ++ tableBytes ds
  magic := chars ['I', 'W', 'A', 'D']
  doffset := 12
  descriptors := ds

/-! ## Reading -/

/-- `is_file(desc)`, with the descriptor itself where the answer is yes. -/
def isFile (ds : List WadDescriptor) : DescPtr → Option (Option (Nat × WadDescriptor))
  | .null => some none
  | .root => some none
  | .entry i => ds[i]?.map fun d => if isStart d.name || isMap d.name then none else some (i, d)

/-- `is_dir(desc)`. -/
def isDir (ds : List WadDescriptor) : DescPtr → Option Bool
  | .null => some false
  | .root => some true
  | .entry i => ds[i]?.map fun d => isStart d.name || isMap d.name

/-- The file a path resolves to. -/
def Wad.resolveFile (w : Wad) (path : Bytes) : Option (Option (Nat × WadDescriptor)) :=
  (resolve w.descriptors path none).bind fun (desc, _) => isFile w.descriptors desc

/-- `isContent`. -/
def Wad.isContent (w : Wad) (path : Bytes) : Option Bool :=
  (w.resolveFile path).map Option.isSome

/-- `isDirectory`. -/
def Wad.isDirectory (w : Wad) (path : Bytes) : Option Bool :=
  (resolve w.descriptors path none).bind fun (desc, _) => isDir w.descriptors desc

/-- `getSize`: the size of a file as an `int`, or `-1`. -/
def Wad.getSize (w : Wad) (path : Bytes) : Option Int :=
  (w.resolveFile path).map fun
    | none => -1
    | some (_, d) => d.size.toInt32.toInt

/-- `pread(fd, buffer, length, off)`: the result, and the bytes put into the
buffer. A negative `length` is refused by the system. -/
def pread (file : Bytes) (length : Int) (off : UInt32) : Int × Bytes :=
  if length < 0 then (-1, [])
  else
    let bs := readAt file length.toNat off.toNat
    (bs.length, bs)

/-- `getContents`: what it returns, and what `pread` has put into the buffer. -/
def Wad.getContents (w : Wad) (path : Bytes) (length offset : Int32) : Option (Int × Bytes) :=
  (w.resolveFile path).map fun
    | none => (-1, [])
    | some (_, desc) =>
      let size := desc.size.toInt32.toInt
      if size ≤ offset.toInt then (0, [])
      else
        let length :=
          if size - offset.toInt < length.toInt then size - offset.toInt else length.toInt
        pread w.file length (desc.offset + offset.toUInt32)

/-! ## Writing -/

/-- How many bytes each `pwrite` of an operation transfers: the number of the
call and the bytes requested are given. -/
abbrev Pwrites : Type := Nat → Nat → Nat

/-- Every `pwrite` transfers every byte. -/
def allBytes : Pwrites := fun _ n => n

/-- `pwrite(fd, buf, count, off)`. A count that is negative as an `ssize_t` is
refused by the system and writes nothing. -/
def pwrite (sent : Nat → Nat) (file buf : Bytes) (count : Int) (off : Nat) : Bytes :=
  writeAt file ((buf.take count.toNat).take (sent count.toNat)) off

/-- The common end of `createDirectory` and `createFile`: insert descriptors at
`desc`, write the new `dcount` and the table from the insertion on. `index` and
`dcount` are `uint32_t`. -/
def Wad.insert (io : Pwrites) (w : Wad) (desc : Nat) (new : List WadDescriptor) : Wad :=
  let index := UInt32.ofNat desc
  let descriptors :=
    w.descriptors.take index.toNat ++ (new ++ w.descriptors.drop index.toNat)
  let dcount := UInt32.ofNat descriptors.length
  let file := pwrite (io 0) w.file (leBytes 4 dcount.toNat) 4 4
  { w with
    descriptors
    file := pwrite (io 1) file (tableBytes (descriptors.drop index.toNat))
      ((dcount - index).toNat * 16) (w.doffset.toNat + index.toNat * 16) }

/-- A zeroed `char name[8]`. -/
def zeroName : Name := Name.ofBytes []

/-- `createDirectory`: two markers, for a name of two bytes at most. -/
def Wad.createDirectory (io : Pwrites) (w : Wad) (path : Bytes) : Option Wad :=
  (resolve w.descriptors path (some zeroName)).map fun
    | (.entry desc, some name) =>
      let namelen := strnlen name.toList 8
      if 2 < namelen then w
      else
        w.insert io desc
          [⟨0, 0, name.blit namelen suffixStart⟩, ⟨0, 0, name.blit namelen suffixEnd⟩]
    | _ => w

/-- `createFile`: an empty lump, if the name is no marker. -/
def Wad.createFile (io : Pwrites) (w : Wad) (path : Bytes) : Option Wad :=
  (resolve w.descriptors path (some zeroName)).map fun
    | (.entry desc, some name) =>
      if isStart name || isMap name || isEnd name then w
      else w.insert io desc [⟨0, 0, name⟩]
    | _ => w

/-- The accepting end of `writeToFile`: the descriptor at `i`, its data starting
at `start`, grows by `length` bytes; the header, the data and the whole table
behind it are written. -/
def Wad.append (io : Pwrites) (w : Wad) (i : Nat) (start : UInt32) (buffer : Bytes)
    (length : Int32) : Wad :=
  let doffset := w.doffset + length.toUInt32
  let descriptors := w.descriptors.modify i fun desc =>
    { desc with offset := start, size := desc.size + length.toUInt32 }
  let file := pwrite (io 0) w.file (leBytes 4 doffset.toNat) 4 8
  let file := pwrite (io 1) file buffer length.toInt (doffset - length.toUInt32).toNat
  { w with
    doffset
    descriptors
    file := pwrite (io 2) file (tableBytes descriptors) (descriptors.length * 16) doffset.toNat }

/-- `writeToFile`: memory is changed first, then the three `pwrite`s are made, whose results
nobody looks at. -/
def Wad.writeToFile (io : Pwrites) (w : Wad) (path buffer : Bytes) (length offset : Int32) :
    Option (Wad × Int) :=
  (w.resolveFile path).map fun
    | none => (w, -1)
    | some (i, desc) =>
      if offset.toUInt32 ≠ desc.size then (w, 0)
      else if desc.size = 0 then (w.append io i w.doffset buffer length, length.toInt)
      else if desc.offset + desc.size ≠ w.doffset then (w, 0)
      else (w.append io i desc.offset buffer length, length.toInt)

/-! ## Runs -/

/-- A call of one of the three mutators. -/
inductive WadOp : Type where
  | createDirectory (path : Bytes)
  | createFile (path : Bytes)
  | writeToFile (path buffer : Bytes) (length offset : Int32)

/-- One call: the state it leaves and its return value (`0` for `void`). -/
def Wad.step (io : Pwrites) (w : Wad) : WadOp → Option (Wad × Int)
  | .createDirectory path => (w.createDirectory io path).map fun w' => (w', 0)
  | .createFile path => (w.createFile io path).map fun w' => (w', 0)
  | .writeToFile path buffer length offset => w.writeToFile io path buffer length offset

end Cop4600
