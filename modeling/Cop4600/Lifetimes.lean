import Cop4600.Ledger
import Cop4600.Reactions

/-!
# All calls of a memory manager

The public functions of `MemoryManager.h` as one machine: a call, and what it returns
together with the system calls it makes. `initialize` unmaps the pool there was and maps
a new one, and `shutdown` unmaps; the destructor does what `shutdown` does. Whatever
the calls, nothing stays mapped that is not unmapped again, once and with the length it
was mapped with (`mappings_are_returned`).
-/

namespace Cop4600

open MemoryManager

/-! ## Calls -/

/-- The calls; an allocator is given as an `α`. `mapped` is what `mmap` will answer, and
`opens` whether `open` will succeed. -/
inductive ManagerCall (α : Type) : Type where
  | initializePool (sizeInWords : UInt64) (mapped : Nat)
  | shutdown
  | allocate (size : UInt64)
  | free (address : Option Nat)
  | setAllocator (allocator : α)
  | dumpMemoryMap (opens : Bool)
  | getList
  | getBitmap
  | getWordSize
  | getMemoryStart
  | getMemoryLimit

/-- The same call with another kind of allocator. -/
def ManagerCall.map {α β : Type} (f : α → β) : ManagerCall α → ManagerCall β
  | .initializePool sizeInWords mapped => .initializePool sizeInWords mapped
  | .shutdown => .shutdown
  | .allocate size => .allocate size
  | .free address => .free address
  | .setAllocator allocator => .setAllocator (f allocator)
  | .dumpMemoryMap opens => .dumpMemoryMap opens
  | .getList => .getList
  | .getBitmap => .getBitmap
  | .getWordSize => .getWordSize
  | .getMemoryStart => .getMemoryStart
  | .getMemoryLimit => .getMemoryLimit

inductive SysCall : Type where
  | mmap (length address : Nat)
  | munmap (address length : Nat)
  deriving DecidableEq, Repr

/-- What a call returns, and the system calls of `initialize` and `shutdown`. Of
`dumpMemoryMap` also what it writes. -/
inductive ManagerReply : Type where
  | done (sysCalls : List SysCall)
  | address (address : Option Nat)
  | list (list : Option (List UInt16))
  | bitmap (bitmap : Option (List UInt8))
  | dumped (ret : Int) (written : List Char)
  | number (number : UInt32)
  deriving DecidableEq, Repr

namespace MemoryManager

/-- The system call of `shutdown`. -/
def unmaps (m : MemoryManager) : List SysCall :=
  match m.pool with
  | none => []
  | some pool => [.munmap pool m.totalSize.toNat]

def step (m : MemoryManager) :
    ManagerCall MemoryAllocator → Option (MemoryManager × ManagerReply)
  | .initializePool sizeInWords mapped =>
    (m.initializePool (fun _ => some mapped) sizeInWords).map fun m' =>
      (m', .done (m.unmaps ++ [.mmap m'.totalSize.toNat mapped]))
  | .shutdown => some (m.shutdown, .done m.unmaps)
  | .allocate size => (m.allocate size).map fun (address, m') => (m', .address address)
  | .free address => (m.free address).map fun m' => (m', .done [])
  | .setAllocator allocator => some (m.setAllocator allocator, .done [])
  | .dumpMemoryMap opens =>
    (m.dumpMemoryMap opens).map fun (ret, written) => (m, .dumped ret written.flatten)
  | .getList => m.getList.map fun list => (m, .list list)
  | .getBitmap => m.getBitmap.map fun bitmap => (m, .bitmap bitmap)
  | .getWordSize => some (m, .number m.wordSize)
  | .getMemoryStart => some (m, .address m.getMemoryStart)
  | .getMemoryLimit => some (m, .number m.getMemoryLimit)

end MemoryManager

/-! ## What is mapped -/

/-- The system calls that a call made. -/
def ManagerReply.sysCalls : ManagerReply → List SysCall
  | .done sysCalls => sysCalls
  | _ => []

/-- A pool, mapped and unmapped. -/
def lifetime (pool : Nat × Nat) : List SysCall := [.mmap pool.2 pool.1, .munmap pool.1 pool.2]

/-- Every pool has been mapped and unmapped, one after the other, and the last one is
mapped still. -/
def MemoryManager.Keeps (m : MemoryManager) (sysCalls : List SysCall) : Prop :=
  ∃ pools : List (Nat × Nat), sysCalls ++ m.unmaps = pools.flatMap lifetime

namespace MemoryManager

variable {m m' : MemoryManager}

/-- Where `initialize` gets to an end, the pool is what `mmap` has answered. -/
theorem initializePool_pool {mapped : Nat} {sizeInWords : UInt64}
    (h : m.initializePool (fun _ => some mapped) sizeInWords = some m') :
    m'.pool = some mapped := by
  rw [initializePool] at h
  dsimp only at h
  split at h
  · cases h
  · obtain ⟨map, -, rfl⟩ := Option.map_eq_some_iff.mp h
    rfl

namespace Keeps

variable {sysCalls : List SysCall}

/-- A call that leaves pool and length alone. -/
theorem same (h : m.Keeps sysCalls) (hpool : m'.pool = m.pool)
    (htotal : m'.totalSize = m.totalSize) : m'.Keeps (sysCalls ++ []) := by
  have hunmaps : m'.unmaps = m.unmaps := by rw [unmaps, hpool, htotal, unmaps]
  rw [Keeps, List.append_nil, hunmaps]
  exact h

/-- The pool that there was is unmapped. -/
theorem shutdown (h : m.Keeps sysCalls) : m.shutdown.Keeps (sysCalls ++ m.unmaps) := by
  have hunmaps : m.shutdown.unmaps = [] := by
    rw [MemoryManager.shutdown]
    split
    · next hpool => rw [unmaps, hpool]
    · rfl
  rw [Keeps, hunmaps, List.append_nil]
  exact h

theorem step (h : m.Keeps sysCalls) {call : ManagerCall MemoryAllocator} {reply : ManagerReply}
    (hstep : m.step call = some (m', reply)) : m'.Keeps (sysCalls ++ reply.sysCalls) := by
  cases call with
  | initializePool sizeInWords mapped =>
    obtain ⟨m₁, hinit, heq⟩ := Option.map_eq_some_iff.mp hstep
    obtain ⟨rfl, rfl⟩ := Prod.mk.inj heq
    obtain ⟨pools, hpools⟩ := h
    refine ⟨pools ++ [(mapped, m₁.totalSize.toNat)], ?_⟩
    have hunmaps : m₁.unmaps = [.munmap mapped m₁.totalSize.toNat] := by
      rw [unmaps, initializePool_pool hinit]
    rw [List.flatMap_append, ← hpools, hunmaps, List.flatMap_singleton, ManagerReply.sysCalls,
      lifetime]
    simp only [List.append_assoc, List.singleton_append]
  | shutdown =>
    obtain ⟨rfl, rfl⟩ := Prod.mk.inj (Option.some.inj hstep)
    exact h.shutdown
  | allocate size =>
    obtain ⟨⟨a, m₁⟩, hallocate, heq⟩ := Option.map_eq_some_iff.mp hstep
    obtain ⟨rfl, rfl⟩ := Prod.mk.inj heq
    rw [allocate_frame hallocate]
    exact h.same rfl rfl
  | free address =>
    obtain ⟨m₁, hfree, heq⟩ := Option.map_eq_some_iff.mp hstep
    obtain ⟨rfl, rfl⟩ := Prod.mk.inj heq
    rw [free_frame hfree]
    exact h.same rfl rfl
  | setAllocator allocator =>
    obtain ⟨rfl, rfl⟩ := Prod.mk.inj (Option.some.inj hstep)
    exact h.same rfl rfl
  | dumpMemoryMap opens | getList | getBitmap =>
    obtain ⟨_, -, heq⟩ := Option.map_eq_some_iff.mp hstep
    obtain ⟨rfl, rfl⟩ := Prod.mk.inj heq
    exact h.same rfl rfl
  | getWordSize | getMemoryStart | getMemoryLimit =>
    obtain ⟨rfl, rfl⟩ := Prod.mk.inj (Option.some.inj hstep)
    exact h.same rfl rfl

end Keeps

end MemoryManager

/-- **What is mapped is unmapped.** Whatever is called on a new manager, in any order: once
the destructor has made its system call, every pool that was mapped has been unmapped,
once, with its own length, and before the next one was mapped. -/
theorem mappings_are_returned {wordSize : UInt32} {allocator : MemoryAllocator}
    {calls : List (ManagerCall MemoryAllocator)} {m' : MemoryManager}
    {replies : List ManagerReply}
    (hrun : Reactions.run MemoryManager.step (new wordSize allocator) calls =
      some (m', replies)) :
    ∃ pools : List (Nat × Nat),
      replies.flatMap ManagerReply.sysCalls ++ m'.unmaps = pools.flatMap lifetime := by
  have hstart : (new wordSize allocator).Keeps ([].flatMap ManagerReply.sysCalls) := ⟨[], rfl⟩
  refine Reactions.run_of_history
    (R := fun m replies => m.Keeps (replies.flatMap ManagerReply.sysCalls)) ?_ calls hstart hrun
  intro m replies call m' reply h hstep
  rw [List.flatMap_append, List.flatMap_singleton]
  exact h.step hstep

/-- Two pools, the first one with a block in it still when the second is asked for. -/
theorem mappings_are_returned_sample :
    ∃ m' replies, Reactions.run MemoryManager.step (new 2 bestFit)
        [.initializePool 6 4096, .allocate 3, .initializePool 9 8192, .getMemoryStart] =
          some (m', replies) ∧
      ∃ pools : List (Nat × Nat),
        replies.flatMap ManagerReply.sysCalls ++ m'.unmaps = pools.flatMap lifetime := by
  have hrun : (Reactions.run MemoryManager.step (new 2 bestFit)
      [.initializePool 6 4096, .allocate 3, .initializePool 9 8192, .getMemoryStart]).isSome =
        true := by
    decide
  obtain ⟨⟨m', replies⟩, hrun⟩ := Option.isSome_iff_exists.mp hrun
  exact ⟨m', replies, hrun, mappings_are_returned hrun⟩

end Cop4600
