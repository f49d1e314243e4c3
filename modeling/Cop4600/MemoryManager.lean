import Cop4600.PackedBits

/-!
# The class `MemoryManager`

The data members of `MemoryManager.h` and the operations of `MemoryManager.cpp`
on them. Of the memory that `mmap` returns only the bytes from `map` on are state:
the pool in front of them belongs to the callers.

A pointer is an `Option Nat`, `none` being `nullptr`. Where an operation returns an
`Option` around that, `none` is undefined behaviour: an index outside the map or
outside an array, an `int` that overflows, a division by zero, a variable read
before it is written.
-/

namespace Cop4600

open PackedBits

/-- `MemoryAllocator`: from the words asked for and the list of holes to an offset.
The list holds the entries that were written. -/
abbrev MemoryAllocator : Type := Int32 → List UInt16 → Option Int32

/-- The fields of the class. Without a pool, `pool` is null, and there is no map. -/
structure MemoryManager : Type where
  wordSize : UInt32
  allocator : MemoryAllocator
  numWords : UInt32
  poolSize : UInt32
  totalSize : UInt32
  pool : Option Nat
  /-- the bytes from `map` to the end of the mapping -/
  map : List UInt8

/-! ## The map's entries -/

/-- `shamt(i)`. -/
def shamt (i : Nat) : Nat := (i &&& 3) <<< 1

/-- `map[i >> 2] >> shamt(i) & 3`, where `i` is an `int`. -/
def typeAt (map : List UInt8) (i : Nat) : Option UInt8 :=
  if i < 2 ^ 31 then map[i >>> 2]?.map fun b => b >>> UInt8.ofNat (shamt i) &&& 3 else none

/-- `map[i >> 2] |= bits << shamt(i)`. -/
def orEntry (map : List UInt8) (bits i : Nat) : Option (List UInt8) :=
  if i >>> 2 < map.length then some (orAt map (i >>> 2) (UInt8.ofNat (bits <<< shamt i))) else none

/-- `map[i >> 2] &= ~(bits << shamt(i))`. -/
def clearEntry (map : List UInt8) (bits i : Nat) : Option (List UInt8) :=
  if i >>> 2 < map.length then some (andNotAt map (i >>> 2) (UInt8.ofNat (bits <<< shamt i)))
  else none

namespace MemoryManager

/-! ## Setting up -/

/-- The constructor; `pool` is `nullptr` and nothing else is set. -/
def new (wordSize : UInt32) (allocator : MemoryAllocator) : MemoryManager :=
  { wordSize, allocator, numWords := 0, poolSize := 0, totalSize := 0, pool := none, map := [] }

/-- `shutdown`: the mapping is given up. -/
def shutdown (m : MemoryManager) : MemoryManager :=
  match m.pool with
  | none => m
  | some _ => { m with pool := none, map := [] }

/-- `initialize(sizeInWords)`, with what `mmap` answers; the new memory is zero.
When `mmap` fails its answer is used as an address all the same. -/
def initializePool (m : MemoryManager) (mmap : UInt32 → Option Nat) (sizeInWords : UInt64) :
    Option MemoryManager :=
  let m := m.shutdown
  let numWords := sizeInWords.toUInt32
  let poolSize := numWords * m.wordSize
  let totalSize := poolSize + (numWords >>> 2) + 1
  match mmap totalSize with
  | none => none
  | some pool =>
    let map := List.replicate (totalSize.toNat - poolSize.toNat) 0
    if map.length = 0 then none
    else
      (orEntry (map.set 0 1) 2 numWords.toNat).map fun map =>
        { m with numWords, poolSize, totalSize, pool := some pool, map }

/-- `setAllocator`. -/
def setAllocator (m : MemoryManager) (allocator : MemoryAllocator) : MemoryManager :=
  { m with allocator }

/-! ## The list of holes -/

/-- The first loop of `getList`, from index `i` on with `todo` indices to go. -/
def countHoles (map : List UInt8) : (todo i numHoles : Nat) → Option Nat
  | 0, _, numHoles => some numHoles
  | todo + 1, i, numHoles =>
    (typeAt map i).bind fun type =>
      countHoles map todo (i + 1) (if type = 1 then numHoles + 1 else numHoles)

/-- The second loop of `getList`. The array has room for `room` entries; `begin` is
`none` as long as it has not been assigned. -/
def listHoles (map : List UInt8) (room : Nat) :
    (todo i : Nat) → (begin : Option Nat) → List UInt16 → Option (List UInt16)
  | 0, _, _, list => some list
  | todo + 1, i, begin, list =>
    (typeAt map i).bind fun type =>
      if type = 1 then
        if list.length < room then
          listHoles map room todo (i + 1) (some i) (list ++ [UInt16.ofNat i])
        else none
      else if type = 2 then
        begin.bind fun b =>
          if list.length < room then
            listHoles map room todo (i + 1) begin (list ++ [UInt16.ofNat (i - b)])
          else none
      else listHoles map room todo (i + 1) begin list

/-- What `getList` returns where there is a pool. -/
def holeList (m : MemoryManager) : Option (List UInt16) :=
  (countHoles m.map m.numWords.toNat 0 0).bind fun numHoles =>
    listHoles m.map (1 + numHoles * 2) (m.numWords.toNat + 1) 0 none [UInt16.ofNat numHoles]

/-- `getList`: null without a pool, or the number of holes and where they are and how long. -/
def getList (m : MemoryManager) : Option (Option (List UInt16)) :=
  match m.pool with
  | none => some none
  | some _ => m.holeList.map some

/-! ## The bitmap and the dump -/

/-- The loop of `getBitmap`; `inBlock` is `none` as long as it has not been assigned. -/
def fillBitmap (map : List UInt8) :
    (todo i : Nat) → (inBlock : Option Bool) → (p : List UInt8) → Option (List UInt8)
  | 0, _, _, p => some p
  | todo + 1, i, inBlock, p =>
    (typeAt map i).bind fun type =>
      let inBlock := if type ≠ 0 then some (type != 1) else inBlock
      inBlock.bind fun inside =>
        if inside then
          if i >>> 3 < p.length then
            fillBitmap map todo (i + 1) inBlock
              (orAt p (i >>> 3) (UInt8.ofNat (1 <<< (i &&& 7))))
          else none
        else fillBitmap map todo (i + 1) inBlock p

/-- What `getBitmap` returns where there is a pool. -/
def bitmap (m : MemoryManager) : Option (List UInt8) :=
  let len := ((m.numWords + 7) >>> 3).toUInt16
  (fillBitmap m.map m.numWords.toNat 0 none (List.replicate len.toNat 0)).map fun p =>
    (len &&& 0xff).toUInt8 :: (len >>> 8).toUInt8 :: p

/-- `getBitmap`: null without a pool, or the length in two bytes and a bit for each word. -/
def getBitmap (m : MemoryManager) : Option (Option (List UInt8)) :=
  match m.pool with
  | none => some none
  | some _ => m.bitmap.map some

/-- What `sprintf` puts into `buf`; another hole follows where `count` is not zero. -/
def holeText (start len : UInt16) (count : Nat) : List Char :=
  '[' :: Nat.toDigits 10 start.toNat ++ [',', ' '] ++ Nat.toDigits 10 len.toNat ++
    if count = 0 then [']'] else [']', ' ', '-', ' ']

/-- The loop of `dumpMemoryMap`: the texts it writes, one `write` each. There are 32
characters in `buf`, and the last one it needs is a NUL. -/
def dumpHoles : (count : Nat) → (p : List UInt16) → Option (List (List Char))
  | 0, _ => some []
  | count + 1, start :: len :: p =>
    if (holeText start len count).length < 32 then
      (dumpHoles count p).map fun written => holeText start len count :: written
    else none
  | _ + 1, _ => none

/-- `dumpMemoryMap` with whether `open` succeeds: what it returns and what it writes. -/
def dumpMemoryMap (m : MemoryManager) (opens : Bool) : Option (Int × List (List Char)) :=
  match m.pool with
  | none => some (-1, [])
  | some _ =>
    if opens then
      m.holeList.bind fun list =>
        match list with
        | [] => none
        | count :: p => (dumpHoles count.toNat p).map fun written => (0, written)
    else some (-1, [])

/-- `getMemoryStart`: the address of the pool. -/
def getMemoryStart (m : MemoryManager) : Option Nat := m.pool

/-- `getMemoryLimit`: how many bytes there are. -/
def getMemoryLimit (m : MemoryManager) : UInt32 :=
  match m.pool with
  | none => 0
  | some _ => m.poolSize

/-! ## Allocating and freeing -/

/-- `(size - 1) / word_size + 1`, all of it as `size_t`. -/
def sizeWords (m : MemoryManager) (size : UInt64) : UInt64 :=
  (size - 1) / m.wordSize.toUInt64 + 1

/-- The two stores of `allocate`. -/
def markBlock (map : List UInt8) (i j : Nat) : Option (List UInt8) :=
  (orEntry map 2 i).bind fun map => orEntry map 1 j

/-- `allocate`: the allocator is asked for a place, and the two ends of the block are marked
in the map. -/
def allocate (m : MemoryManager) (size : UInt64) : Option (Option Nat × MemoryManager) :=
  match m.pool with
  | none => some (none, m)
  | some pool =>
    if size = 0 then some (none, m)
    else if m.wordSize = 0 then none
    else
      let sizeWords := m.sizeWords size
      m.holeList.bind fun list =>
        -- the words are narrowed to `int` for the call
        (m.allocator (Int32.ofNat sizeWords.toNat) list).bind fun i =>
          if i < 0 then some (none, m)
          else
            -- `i + size_words` is a `size_t`, and narrowed to `int` again
            let j := Int32.ofNat (UInt64.ofNat i.toNatClampNeg + sizeWords).toNat
            if j < 0 then none
            else
              (markBlock m.map i.toNatClampNeg j.toNatClampNeg).map fun map =>
                (some (pool + (UInt32.ofNat i.toNatClampNeg * m.wordSize).toNat), { m with map })

/-- `do ++i; while (!(map[i >> 2] & 1 << shamt(i)))`: where it stops. -/
def scan (map : List UInt8) (i : Nat) : Option Nat :=
  match h : map[(i + 1) >>> 2]? with
  | none => none
  | some b =>
    if i + 1 < 2 ^ 31 then
      if b &&& UInt8.ofNat (1 <<< shamt (i + 1)) ≠ 0 then some (i + 1) else scan map (i + 1)
    else none
termination_by 4 * map.length - i
decreasing_by
  have hlt := (List.getElem?_eq_some_iff.mp h).1
  rw [Nat.shiftRight_eq_div_pow] at hlt
  omega

/-- What `free` does to the map, from its index `i` on. -/
def clearBlock (map : List UInt8) (i : Nat) : Option (List UInt8) :=
  (clearEntry map 2 i).bind fun map => (scan map i).bind fun j => clearEntry map 1 j

/-- `free`: the marks of the block at the address are taken back. -/
def free (m : MemoryManager) (address : Option Nat) : Option MemoryManager :=
  match m.pool, address with
  | some pool, some address =>
    if m.wordSize = 0 then none
    else
      let i := Int32.ofInt (((address : Int) - pool).tdiv m.wordSize.toNat)
      if i < 0 then none
      else (clearBlock m.map i.toNatClampNeg).map fun map => { m with map }
  | _, _ => some m

end MemoryManager

/-! ## The allocators -/

/-- The loop of `bestFit` and `worstFit`: the offset of a hole whose length is
`better` than the best one so far replaces the offset. `p` is what the pointer has
still in front of it. -/
def fitLoop (better : (len best : Int) → Bool) :
    (count : Nat) → (p : List UInt16) → (best offset : Int) → Option Int
  | 0, _, _, offset => some offset
  | count + 1, offset' :: len :: p, best, offset =>
    if better len.toNat best then fitLoop better count p len.toNat offset'.toNat
    else fitLoop better count p best offset
  | _ + 1, _, _, _ => none

/-- `len >= sizeInWords && len < min_len`. -/
def betterFit (sizeInWords len minLen : Int) : Bool := sizeInWords ≤ len && len < minLen

/-- `bestFit`: the shortest of the holes that are long enough, of these the first. -/
def bestFit : MemoryAllocator := fun sizeInWords list =>
  match list with
  | [] => none
  | count :: p =>
    (fitLoop (betterFit sizeInWords.toInt) count.toNat p (2 ^ 31 - 1) (-1)).map Int32.ofInt

/-- `len > max_len`. -/
def worseFit (len maxLen : Int) : Bool := maxLen < len

/-- `sizeInWords - 1` overflows for the smallest `int`. -/
def worstFit : MemoryAllocator := fun sizeInWords list =>
  match list with
  | [] => none
  | count :: p =>
    if sizeInWords.toInt = -2 ^ 31 then none
    else (fitLoop worseFit count.toNat p (sizeInWords.toInt - 1) (-1)).map Int32.ofInt

end Cop4600
