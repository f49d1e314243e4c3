import Cop4600.Reactions
import Cop4600.Wadfs

/-!
# The callbacks of `wadfs.cpp`

What FUSE calls when the WAD is mounted: the six operations in `wadfs_ops`, each on
the one global `wad`. Parameters that a callback ignores (modes, device numbers, the
`fuse_file_info`, the offset of `wadfs_readdir`) are left out. `mount` is the
beginning of `main`: a program started on the file that the last one left.
-/

namespace Cop4600

/-- `errno.h` -/
def ENOENT : Int := 2

def ENOTDIR : Int := 20

/-- `sys/stat.h` -/
def S_IFREG : UInt32 := 0o100000

def S_IFDIR : UInt32 := 0o040000

/-- The members of a `struct stat` that the callbacks set. -/
structure Stat : Type where
  st_mode : UInt32
  st_size : Int
  deriving DecidableEq

/-- `wadfs_getattr`: the return value, and `*st` afterwards. -/
def wadfsGetattr (wad : Wad) (path : Bytes) (st : Stat) : Option (Int × Stat) :=
  (wad.isContent path).bind fun
    | true => (wad.getSize path).map fun size =>
      (0, { st with st_mode := S_IFREG ||| 0o777, st_size := size })
    | false => (wad.isDirectory path).map fun
      | true => (0, { st with st_mode := S_IFDIR ||| 0o777 })
      | false => (-ENOENT, st)

/-- `wadfs_mknod`. -/
def wadfsMknod (io : Pwrites) (wad : Wad) (path : Bytes) : Option (Wad × Int) :=
  (wad.createFile io path).map fun wad' => (wad', 0)

/-- `wadfs_mkdir`. -/
def wadfsMkdir (io : Pwrites) (wad : Wad) (path : Bytes) : Option (Wad × Int) :=
  (wad.createDirectory io path).map fun wad' => (wad', 0)

/-- `wadfs_readdir`: the return value, and the strings `filler` is called with. Nothing is
known of a call in which the number of entries overflows. -/
def wadfsReaddir (wad : Wad) (path : Bytes) : Option (Int × List Bytes) :=
  (getDirectory wad.descriptors path []).bind fun (count, entries) =>
    count.map fun count =>
      if count = -1 then (-ENOTDIR, [])
      else (0, chars ['.'] :: chars ['.', '.'] :: entries.map cstr)

/-! ## A mounted WAD -/

/-- A call of one of the callbacks, or the end of the program and a new start. -/
inductive Callback : Type where
  | getattr (path : Bytes) (st : Stat)
  | mknod (path : Bytes)
  | mkdir (path : Bytes)
  | read (path : Bytes) (len : UInt64) (offset : Int64)
  | write (path buf : Bytes) (len : UInt64) (offset : Int64)
  | readdir (path : Bytes)
  | mount

/-- What comes back. -/
inductive Reply : Type where
  | status (res : Int)
  | attr (res : Int) (st : Stat)
  | data (res : Int) (buf : Bytes)
  | names (res : Int) (entries : List Bytes)
  | mounted
  deriving DecidableEq

/-- One call: the state it leaves, and what comes back. -/
def wadfsStep (io : Pwrites) (wad : Wad) : Callback → Option (Wad × Reply)
  | .getattr path st => (wadfsGetattr wad path st).map fun (res, st') => (wad, .attr res st')
  | .mknod path => (wadfsMknod io wad path).map fun (wad', res) => (wad', .status res)
  | .mkdir path => (wadfsMkdir io wad path).map fun (wad', res) => (wad', .status res)
  | .read path len offset =>
    (wadfsRead wad path len offset).map fun (res, buf) => (wad, .data res buf)
  | .write path buf len offset =>
    (wadfsWrite io wad path buf len offset).map fun (wad', res) => (wad', .status res)
  | .readdir path => (wadfsReaddir wad path).map fun (res, entries) => (wad, .names res entries)
  | .mount => (Wad.loadWad wad.file).map fun wad' => (wad', .mounted)

/-- A call whose length and offset are an `int`, and whose buffer is as long as `len`
says. -/
def Callback.Given : Callback → Prop
  | .read _ len offset => len.toNat < 2 ^ 31 ∧ 0 ≤ offset.toInt ∧ offset.toInt < 2 ^ 31
  | .write _ buf len offset => len.toNat < 2 ^ 31 ∧ 0 ≤ offset.toInt ∧ offset.toInt < 2 ^ 31 ∧
    len.toNat ≤ buf.length
  | _ => True

instance : (call : Callback) → Decidable call.Given
  | .read _ _ _ => inferInstanceAs (Decidable (_ ∧ _))
  | .write _ _ _ _ => inferInstanceAs (Decidable (_ ∧ _))
  | .getattr _ _ | .mknod _ | .mkdir _ | .readdir _ | .mount => isTrue trivial

/-! ## Room -/

/-- The bytes a call may add to the data. -/
def Callback.bytes : Callback → Nat
  | .write _ _ len _ => len.toNat
  | _ => 0

/-- The descriptors it may add to the table. -/
def Callback.descriptors : Callback → Nat
  | .mknod _ => 1
  | .mkdir _ => 2
  | _ => 0

def bytesAsked : List Callback → Nat
  | [] => 0
  | call :: calls => call.bytes + bytesAsked calls

def descriptorsAsked : List Callback → Nat
  | [] => 0
  | call :: calls => call.descriptors + descriptorsAsked calls

/-- There is room for all that these calls may add: no size and no position becomes
too large for its type, and no directory has more entries than an `int` counts. -/
structure Room (wad : Wad) (calls : List Callback) : Prop where
  /-- the data ends below `2 ^ 32`, whatever is written -/
  doffset : wad.doffset.toNat + bytesAsked calls < 2 ^ 32
  /-- no file grows beyond an `int` -/
  sizes : ∀ d ∈ wad.descriptors, d.size.toNat + bytesAsked calls < 2 ^ 31
  /-- nor does a new one -/
  new : bytesAsked calls < 2 ^ 31
  /-- `readdir` can count all entries in an `int` -/
  dcount : wad.descriptors.length + descriptorsAsked calls < 2 ^ 31

/-- What remains to be asked for has room, too. -/
theorem Room.tail {wad wad' : Wad} {call : Callback} {calls : List Callback}
    (h : Room wad (call :: calls)) (hdoffset : wad'.doffset.toNat ≤ wad.doffset.toNat + call.bytes)
    (hsizes : ∀ d' ∈ wad'.descriptors, d'.size = 0 ∨
      ∃ d ∈ wad.descriptors, d'.size.toNat ≤ d.size.toNat + call.bytes)
    (hdcount : wad'.descriptors.length ≤ wad.descriptors.length + call.descriptors) :
    Room wad' calls := by
  have hbytes : bytesAsked (call :: calls) = call.bytes + bytesAsked calls := rfl
  have hdescriptors : descriptorsAsked (call :: calls) =
      call.descriptors + descriptorsAsked calls := rfl
  obtain ⟨hd, hs, hn, hc⟩ := h
  rw [hbytes] at hd hs hn
  rw [hdescriptors] at hc
  refine ⟨by omega, fun d' hd' => ?_, by omega, by omega⟩
  rcases hsizes d' hd' with hzero | ⟨d, hmem, hle⟩
  · rw [hzero, UInt32.toNat_zero]
    omega
  · have hfit := hs d hmem
    omega

end Cop4600
