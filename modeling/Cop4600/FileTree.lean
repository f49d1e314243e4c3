import Cop4600.Callbacks
import Cop4600.Create
import Cop4600.Relabel

/-!
# A file system of names and contents

What a mounted WAD is for: a tree of directories and files. A file has a name and
contents, and a mark that it may still grow; a directory has entries in their order.
Some directories are maps: nothing can be created in them. Neither positions in a
descriptor table nor places in the WAD occur here.

`FileTree.answer` says what each callback does to such a tree and what it answers.
-/

namespace Cop4600

open Outline

/-- What there is to know of a file. -/
structure FsEntry : Type where
  name : Bytes
  data : Bytes
  /-- its contents are not empty, and the last in the WAD -/
  last : Bool
  deriving DecidableEq

/-- The mark of a directory: a name only. -/
def FsEntry.named (name : Bytes) : FsEntry := ⟨name, [], false⟩

/-- Files are items, maps are blocks, and all other directories are groups. -/
abbrev FileTree : Type := List (Outline FsEntry)

namespace FileTree

/-! ## Looking -/

/-- Where a path leads. -/
def locate (T : FileTree) (path : Bytes) : Option (List Nat) :=
  if (cstr path).head? = some slash then lookup FsEntry.name T (components (cstr path)) else none

/-- What is there. -/
inductive Found : Type where
  | nothing
  | file (e : FsEntry)
  | directory (entries : FileTree)

def found (T : FileTree) (as : List Nat) : Found :=
  match kidsAt T as, nodeAt T as with
  | some H, _ => .directory H
  | none, some t => .file t.label
  | none, none => .nothing

def look (T : FileTree) (path : Bytes) : Found :=
  match locate T path with
  | none => .nothing
  | some as => found T as

/-! ## Creating -/

/-- Where a new entry for the directory at an address goes: to its end. A map that is
the last entry of its own directory passes it on to that directory, and any other map
refuses. -/
def site (T : FileTree) (as : List Nat) : Option (List Nat) :=
  match nodeAt T as, as.getLast? with
  | some (block _ _), some k =>
    if (kidsAt T as.dropLast).map List.length = some (k + 1) then some as.dropLast else none
  | _, _ => some as

/-- The place and the name of the entry a creation asks for, if it is accepted. -/
def wanted (T : FileTree) (kind : Creation) (path : Bytes) : Option (List Nat × Bytes) :=
  if path.head? = some slash ∧ T.length ≠ 0 then
    (components path).getLast?.bind fun c =>
      (lookup FsEntry.name T (components path).dropLast).bind fun as =>
        (kidsAt T as).bind fun H =>
          if firstKid FsEntry.name H c = none ∧ c.length ≤ 8 ∧ kind.accepts c then
            (site T as).map fun place => (place, c)
          else none
  else none

/-- An empty file or directory. -/
def newEntry : Creation → Bytes → Outline FsEntry
  | .file, c => item (FsEntry.named c)
  | .directory, c => group (FsEntry.named c) [] (FsEntry.named [])

/-- A new entry, if the path asks for one. -/
def create (T : FileTree) (kind : Creation) (path : Bytes) : FileTree :=
  match wanted T kind (cstr path) with
  | none => T
  | some (as, c) => appendAt T as (newEntry kind c)

/-! ## Writing -/

/-- No file's contents are the last ones. -/
def noneLast : Relabel FsEntry FsEntry where
  item e := { e with last := false }
  marker := id
  closing := FsEntry.named []

/-- A file with more contents, which are now the last ones. -/
def grown (buf : Bytes) (e : FsEntry) : FsEntry := { e with data := e.data ++ buf, last := true }

/-- The file at an address has got some more bytes. -/
def append (T : FileTree) (as : List Nat) (buf : Bytes) : FileTree :=
  if buf = [] then T else updateAt (relabelAll noneLast T) as (grown buf)

/-- A write: the tree afterwards, and the answer. It must begin where the file ends,
and the file must be empty or the last one. -/
def write (T : FileTree) (path buf : Bytes) (len offset : Nat) : FileTree × Int :=
  match locate T path with
  | none => (T, -EPERM)
  | some as =>
    match found T as with
    | .file e =>
      if offset = e.data.length ∧ (e.data = [] ∨ e.last) then (append T as (buf.take len), len)
      else (T, if len = 0 then 0 else -EPERM)
    | _ => (T, -EPERM)

/-! ## The callbacks -/

/-- What a callback does to the tree, and what comes back. -/
def answer (T : FileTree) : Callback → FileTree × Reply
  | .getattr path st =>
    (T, match look T path with
      | .file e => .attr 0 { st with st_mode := S_IFREG ||| 0o777, st_size := e.data.length }
      | .directory _ => .attr 0 { st with st_mode := S_IFDIR ||| 0o777 }
      | .nothing => .attr (-ENOENT) st)
  | .mknod path => (create T .file path, .status 0)
  | .mkdir path => (create T .directory path, .status 0)
  | .read path len offset =>
    (T, match look T path with
      | .file e =>
        let buf := (e.data.drop offset.toInt.toNat).take len.toNat
        .data buf.length buf
      | _ => .data (-EPERM) [])
  | .write path buf len offset =>
    ((write T path buf len.toNat offset.toInt.toNat).1,
      .status (write T path buf len.toNat offset.toInt.toNat).2)
  | .readdir path =>
    (T, match look T path with
      | .directory H =>
        .names 0 (chars ['.'] :: chars ['.', '.'] :: H.map fun t => t.label.name)
      | _ => .names (-ENOTDIR) [])
  | .mount => (T, .mounted)

end FileTree

end Cop4600
