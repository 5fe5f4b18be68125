import LuojiOs.Support.Bytes

/-!
# The heap of `mem.c`

The heap is a stretch of memory from `heap_ptr` to `heap_end`, cut into blocks that each
begin with a `struct heap_mem`.  The fields `next` and `prev` are offsets from `heap_ptr`.
All sizes, offsets and pointers are 32-bit numbers.

A call that does not return either waits for `heap_sem` or goes round a loop for ever: the
loop of a failed `RT_ASSERT`, or a walk along `next` that does not end.
-/

namespace LuojiOs

/-- Why a call does not return. -/
inductive Halt
  /-- it waits for `heap_sem` -/
  | blocks
  /-- it is in a loop without end -/
  | hangs
  deriving DecidableEq, Repr

def HEAP_MAGIC : BitVec 16 := 0x1ea0

/-- `RT_ALIGN(size, RT_ALIGN_SIZE)` -/
def rtAlign (size : BitVec 32) : BitVec 32 := (size + 8 - 1) &&& ~~~(8 - 1)

/-- `RT_ALIGN_DOWN(size, RT_ALIGN_SIZE)` -/
def rtAlignDown (size : BitVec 32) : BitVec 32 := size &&& ~~~(8 - 1)

def MIN_SIZE : BitVec 32 := 12

/-- `RT_ALIGN(MIN_SIZE, RT_ALIGN_SIZE)` -/
def MIN_SIZE_ALIGNED : BitVec 32 := 16

/-- `RT_ALIGN(sizeof(struct heap_mem), RT_ALIGN_SIZE)`, where the structure has 12 bytes -/
def SIZEOF_STRUCT_MEM : BitVec 32 := 16

/-- `struct heap_mem` -/
@[ext] structure HeapMem where
  magic : BitVec 16
  used : BitVec 16
  next : BitVec 32
  prev : BitVec 32
  deriving DecidableEq, Repr

/-- The memory and the static variables of `mem.c`. -/
structure Heap where
  bytes : Bytes
  heapPtr : BitVec 32
  heapEnd : BitVec 32
  lfree : BitVec 32
  memSizeAligned : BitVec 32
  /-- `heap_sem.value` -/
  heapSem : BitVec 16
  usedMem : BitVec 32
  maxMem : BitVec 32

namespace Heap

/-- `*mem` -/
def hdr (mem : BitVec 32) (σ : Heap) : HeapMem where
  magic := Bytes.load16 σ.bytes mem.toNat
  used := Bytes.load16 σ.bytes (mem.toNat + 2)
  next := Bytes.load32 σ.bytes (mem.toNat + 4)
  prev := Bytes.load32 σ.bytes (mem.toNat + 8)

/-- `mem->magic = v` -/
def setMagic (mem : BitVec 32) (v : BitVec 16) (σ : Heap) : Heap :=
  { σ with bytes := Bytes.store16 σ.bytes mem.toNat v }

/-- `mem->used = v` -/
def setUsed (mem : BitVec 32) (v : BitVec 16) (σ : Heap) : Heap :=
  { σ with bytes := Bytes.store16 σ.bytes (mem.toNat + 2) v }

/-- `mem->next = v` -/
def setNext (mem v : BitVec 32) (σ : Heap) : Heap :=
  { σ with bytes := Bytes.store32 σ.bytes (mem.toNat + 4) v }

/-- `mem->prev = v` -/
def setPrev (mem v : BitVec 32) (σ : Heap) : Heap :=
  { σ with bytes := Bytes.store32 σ.bytes (mem.toNat + 8) v }

def setLfree (mem : BitVec 32) (σ : Heap) : Heap := { σ with lfree := mem }

/-- The statistics of `RT_MEM_STATS` after `n` more bytes are in use. -/
def countUsed (n : BitVec 32) (σ : Heap) : Heap :=
  { σ with
    usedMem := σ.usedMem + n
    maxMem := if σ.maxMem < σ.usedMem + n then σ.usedMem + n else σ.maxMem }

/-- The statistics after `n` bytes are given back. -/
def countFreed (n : BitVec 32) (σ : Heap) : Heap := { σ with usedMem := σ.usedMem - n }

end Heap

/-- `RT_ASSERT`: a failed assertion is reported and never left. -/
def rtAssert (p : Prop) [Decidable p] : Except Halt Unit :=
  if p then .ok () else .error .hangs

/-- `rt_sem_take(&heap_sem, RT_WAITING_FOREVER)` -/
def takeHeapSem (σ : Heap) : Except Halt Heap :=
  if 0 < σ.heapSem then .ok { σ with heapSem := σ.heapSem - 1 } else .error .blocks

/-- `rt_sem_release(&heap_sem)`, with no thread waiting -/
def releaseHeapSem (σ : Heap) : Heap := { σ with heapSem := σ.heapSem + 1 }

/-- `rt_system_heap_init` for a memory with these contents.  A range that is too small is
reported and not used. -/
def rtSystemHeapInit (bytes : Bytes) (beginAddr endAddr : BitVec 32) : Option Heap :=
  let beginAlign := rtAlign beginAddr
  let endAlign := rtAlignDown endAddr
  if 2 * SIZEOF_STRUCT_MEM < endAlign ∧ beginAlign ≤ endAlign - 2 * SIZEOF_STRUCT_MEM then
    let memSizeAligned := endAlign - beginAlign - 2 * SIZEOF_STRUCT_MEM
    let mem := beginAlign
    let next := memSizeAligned + SIZEOF_STRUCT_MEM
    let heapEnd := beginAlign + next
    let σ : Heap :=
      { bytes := bytes, heapPtr := beginAlign, heapEnd := heapEnd, lfree := mem,
        memSizeAligned := memSizeAligned, heapSem := 1, usedMem := 0, maxMem := 0 }
    let σ := (((σ.setMagic mem HEAP_MAGIC).setNext mem next).setPrev mem 0).setUsed mem 0
    some ((((σ.setMagic heapEnd HEAP_MAGIC).setUsed heapEnd 1).setNext heapEnd next).setPrev
      heapEnd next)
  else none

/-! ## Joining free blocks -/

/-- The first half of `plug_holes`: join `mem` with the block after it. -/
def plugForward (mem : BitVec 32) (σ : Heap) : Heap :=
  let nmem := σ.heapPtr + (σ.hdr mem).next
  if mem ≠ nmem ∧ (σ.hdr nmem).used = 0 ∧ nmem ≠ σ.heapEnd then
    let σ := if σ.lfree = nmem then σ.setLfree mem else σ
    let σ := σ.setNext mem (σ.hdr nmem).next
    σ.setPrev (σ.heapPtr + (σ.hdr nmem).next) (mem - σ.heapPtr)
  else σ

/-- The second half of `plug_holes`: join `mem` with the block before it. -/
def plugBackward (mem : BitVec 32) (σ : Heap) : Heap :=
  let pmem := σ.heapPtr + (σ.hdr mem).prev
  if pmem ≠ mem ∧ (σ.hdr pmem).used = 0 then
    let σ := if σ.lfree = mem then σ.setLfree pmem else σ
    let σ := σ.setNext pmem (σ.hdr mem).next
    σ.setPrev (σ.heapPtr + (σ.hdr mem).next) (pmem - σ.heapPtr)
  else σ

def plugHoles (mem : BitVec 32) (σ : Heap) : Except Halt Heap := do
  rtAssert (σ.heapPtr ≤ mem)
  rtAssert (mem < σ.heapEnd)
  rtAssert ((σ.hdr mem).used = 0)
  return plugBackward mem (plugForward mem σ)

/-- Create the block `mem2` behind the first `size` bytes of the block at the offset `ptr`
and insert it in the list, as `malloc` and `realloc` both do.  In between, `malloc` marks
the first block as used. -/
def splitBlock (ptr size : BitVec 32) (take : Bool) (σ : Heap) : Heap :=
  let mem := σ.heapPtr + ptr
  let ptr2 := ptr + SIZEOF_STRUCT_MEM + size
  let mem2 := σ.heapPtr + ptr2
  let σ := (σ.setMagic mem2 HEAP_MAGIC).setUsed mem2 0
  let σ := σ.setNext mem2 (σ.hdr mem).next
  let σ := σ.setPrev mem2 ptr
  let σ := σ.setNext mem ptr2
  let σ := if take then σ.setUsed mem 1 else σ
  if (σ.hdr mem2).next ≠ σ.memSizeAligned + SIZEOF_STRUCT_MEM then
    σ.setPrev (σ.heapPtr + (σ.hdr mem2).next) ptr2
  else σ

/-! ## `malloc` -/

/-- A walk that takes this many rounds has come twice to the same place. -/
def maxRounds : ℕ := 4294967296

/-- The search of `malloc` for a free block of at least `size` bytes, from the offset `ptr`
on: the offset of the block it finds. -/
def findFree (size : BitVec 32) (σ : Heap) : ℕ → BitVec 32 → Except Halt (Option (BitVec 32))
  | 0, _ => .error .hangs
  | fuel + 1, ptr =>
    if ptr < σ.memSizeAligned - size then
      let mem := σ.hdr (σ.heapPtr + ptr)
      if mem.used = 0 ∧ size ≤ mem.next - (ptr + SIZEOF_STRUCT_MEM) then .ok (some ptr)
      else findFree size σ fuel mem.next
    else .ok none

/-- `while (lfree->used && lfree != heap_end) lfree = &heap_ptr[lfree->next];` -/
def nextFree (σ : Heap) : ℕ → BitVec 32 → Except Halt (BitVec 32)
  | 0, _ => .error .hangs
  | fuel + 1, lfree =>
    if (σ.hdr lfree).used ≠ 0 ∧ lfree ≠ σ.heapEnd then
      nextFree σ fuel (σ.heapPtr + (σ.hdr lfree).next)
    else .ok lfree

/-- Give out the block at the offset `ptr`, cut down to `size` bytes if what is left makes
a block of its own. -/
def takeBlock (ptr size : BitVec 32) (σ : Heap) : Heap :=
  let mem := σ.heapPtr + ptr
  let room := (σ.hdr mem).next - (ptr + SIZEOF_STRUCT_MEM)
  let σ :=
    if size + SIZEOF_STRUCT_MEM + MIN_SIZE_ALIGNED ≤ room then
      (splitBlock ptr size true σ).countUsed (size + SIZEOF_STRUCT_MEM)
    else
      let σ := σ.setUsed mem 1
      σ.countUsed ((σ.hdr mem).next - (mem - σ.heapPtr))
  σ.setMagic mem HEAP_MAGIC

/-- Find the next free block if the lowest one has been given out. -/
def moveLfree (mem : BitVec 32) (σ : Heap) : Except Halt Heap :=
  if mem = σ.lfree then (nextFree σ maxRounds σ.lfree).map fun f => σ.setLfree f else .ok σ

/-- The body of `malloc` for the size it looks for. -/
def mallocAligned (size : BitVec 32) (σ : Heap) : Except Halt (BitVec 32 × Heap) := do
  match ← findFree size σ maxRounds (σ.lfree - σ.heapPtr) with
  | none => return (0, releaseHeapSem σ)
  | some ptr =>
    let mem := σ.heapPtr + ptr
    let σ ← moveLfree mem (takeBlock ptr size σ)
    rtAssert (mem + SIZEOF_STRUCT_MEM + size ≤ σ.heapEnd)
    rtAssert ((mem + SIZEOF_STRUCT_MEM) % 8 = 0)
    rtAssert (mem &&& (8 - 1) = 0)
    return (mem + SIZEOF_STRUCT_MEM, releaseHeapSem σ)

def malloc (size : BitVec 32) (σ : Heap) : Except Halt (BitVec 32 × Heap) := do
  let σ ← takeHeapSem σ
  if size = 0 then return (0, σ) -- `heap_sem` is not given back
  let size := rtAlign size
  if σ.memSizeAligned < size then return (0, σ) -- nor here
  mallocAligned (if size < MIN_SIZE_ALIGNED then MIN_SIZE_ALIGNED else size) σ

/-! ## `free`, `realloc` and `calloc` -/

/-- Give the block at the address `mem` back, up to the joining with its neighbours. -/
def releaseBlock (mem : BitVec 32) (σ : Heap) : Heap :=
  let σ := (σ.setUsed mem 0).setMagic mem HEAP_MAGIC
  let σ := if mem < σ.lfree then σ.setLfree mem else σ
  σ.countFreed ((σ.hdr mem).next - (mem - σ.heapPtr))

def free (rmem : BitVec 32) (σ : Heap) : Except Halt Heap := do
  let σ ← takeHeapSem σ
  if rmem = 0 then return σ -- `heap_sem` is not given back
  rtAssert (rmem &&& (8 - 1) = 0)
  rtAssert (σ.heapPtr ≤ rmem ∧ rmem < σ.heapEnd)
  if rmem < σ.heapPtr ∨ σ.heapEnd ≤ rmem then return σ
  let mem := rmem - SIZEOF_STRUCT_MEM
  rtAssert ((σ.hdr mem).used ≠ 0)
  rtAssert ((σ.hdr mem).magic = HEAP_MAGIC)
  return releaseHeapSem (← plugHoles mem (releaseBlock mem σ))

/-- The rest of `realloc` when the block is neither of the right size nor cut down. -/
def reallocMove (rmem size newsize : BitVec 32) (σ : Heap) :
    Except Halt (BitVec 32 × Heap) := do
  let (nmem, σ) ← malloc newsize σ
  if nmem ≠ 0 then
    let n := if size < newsize then size else newsize
    let σ := { σ with bytes := Bytes.copy σ.bytes nmem.toNat rmem.toNat n.toNat }
    return (nmem, ← free rmem σ)
  return (nmem, σ)

def realloc (rmem newsize : BitVec 32) (σ : Heap) : Except Halt (BitVec 32 × Heap) := do
  let newsize := rtAlign newsize
  if σ.memSizeAligned < newsize then return (0, σ)
  else if newsize = 0 then return (0, ← free rmem σ)
  if rmem = 0 then malloc newsize σ
  else
    let σ ← takeHeapSem σ
    if rmem < σ.heapPtr ∨ σ.heapEnd ≤ rmem then return (rmem, releaseHeapSem σ)
    let mem := rmem - SIZEOF_STRUCT_MEM
    let ptr := mem - σ.heapPtr
    let size := (σ.hdr mem).next - ptr - SIZEOF_STRUCT_MEM
    if size = newsize then return (rmem, releaseHeapSem σ)
    if newsize + SIZEOF_STRUCT_MEM + MIN_SIZE < size then
      let mem2 := σ.heapPtr + (ptr + SIZEOF_STRUCT_MEM + newsize)
      let σ := splitBlock ptr newsize false (σ.countFreed (size - newsize))
      return (rmem, releaseHeapSem (← plugHoles mem2 σ))
    reallocMove rmem size newsize (releaseHeapSem σ)

def calloc (count size : BitVec 32) (σ : Heap) : Except Halt (BitVec 32 × Heap) := do
  let (p, σ) ← malloc (count * size) σ
  if p ≠ 0 then
    return (p, { σ with bytes := Bytes.fill σ.bytes p.toNat 0 (count * size).toNat })
  return (p, σ)

/-! ## Calls -/

/-- The calls on the heap. -/
inductive HeapCall
  | malloc (size : BitVec 32)
  | calloc (count size : BitVec 32)
  | realloc (rmem newsize : BitVec 32)
  | free (rmem : BitVec 32)
  deriving DecidableEq, Repr

/-- A call with its result; `free` has none. -/
def HeapCall.exec : HeapCall → Heap → Except Halt (BitVec 32 × Heap)
  | .malloc size, σ => LuojiOs.malloc size σ
  | .calloc count size, σ => LuojiOs.calloc count size σ
  | .realloc rmem newsize, σ => LuojiOs.realloc rmem newsize σ
  | .free rmem, σ => (LuojiOs.free rmem σ).map fun σ => (0, σ)

end LuojiOs
