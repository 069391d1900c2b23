import WeensyOS.Lib.SelectionSort
import WeensyOS.Kernel.ProgramBreak

namespace WeensyOS.RustMalloc

open ByteMemory Loop WordArray LibC ProgramBreak

inductive BlockState
  | free
  | used
  | internal
  deriving DecidableEq

def BlockState.code : BlockState → Nat
  | .free => 0
  | .used => 1
  | .internal => 2

/-- A `Header` as it is read from memory: `state` at offset 0, `size` at 8. -/
structure Header where
  state : Nat
  size : Nat
  deriving DecidableEq

def headerSize : Nat := 16

def minSplit : Nat := headerSize

def headerAt (m : Memory) (block : Nat) : Header := ⟨readLE m block 1, readLE m (block + 8) 8⟩

def setState (m : Memory) (block : Nat) (state : BlockState) : Memory := writeLE m block 1 state.code

def setSize (m : Memory) (block size : Nat) : Memory := writeLE m (block + 8) 8 size

/-- `*block = Header { state, size }`; the padding of the struct keeps its bytes. -/
def setHeader (m : Memory) (block : Nat) (state : BlockState) (size : Nat) : Memory :=
  setSize (setState m block state) block size

/-- The statics of the library, with the memory of the process and its break. A
pointer is its address, and `None` is 0. -/
structure Heap where
  mem : Memory
  heapStart : Nat
  heapEnd : Nat
  breaks : Breaks

def sbrk (increment : Nat) (s : Heap) : Nat × Heap :=
  ((ProgramBreak.sbrk s.breaks increment).1, { s with breaks := (ProgramBreak.sbrk s.breaks increment).2 })

def heapBounds (s : Heap) : Heap :=
  if s.heapStart = 0 then
    let (start, s) := sbrk 0 s
    { s with heapStart := start, heapEnd := start }
  else s

def nextBlock (m : Memory) (block : Nat) : Nat := (block + (headerAt m block).size) % 2 ^ 64

def payloadOf (block : Nat) : Nat := (block + headerSize) % 2 ^ 64

def blockOf (ptr : Nat) : Nat := (ptr + (2 ^ 64 - headerSize)) % 2 ^ 64

def growHeap (minExtra : Nat) (s : Heap) : Option Nat × Heap :=
  let growBy := roundUp minExtra pageSize
  let (oldBreak, s) := sbrk growBy s
  if oldBreak = 2 ^ 64 - 1 then (none, s)
  else
    (some oldBreak,
      { s with mem := setHeader s.mem oldBreak .free growBy, heapEnd := (oldBreak + growBy) % 2 ^ 64 })

def splitOrUse (m : Memory) (block need : Nat) (state : BlockState) : Nat × Memory :=
  let remainder := ((headerAt m block).size + (2 ^ 64 - need)) % 2 ^ 64
  if minSplit ≤ remainder then
    let m := setHeader m block state need
    (payloadOf block, setHeader m (nextBlock m block) .free remainder)
  else (payloadOf block, setState m block state)

abbrev fits (need : Nat) (h : Header) : Prop := h.state = BlockState.free.code ∧ need ≤ h.size

/-- The first-fit search: the first block that fits, or the end of the heap. -/
def firstFit (m : Memory) (last need : Nat) : Nat → Option Nat :=
  cwhile (fun block => block < last ∧ ¬fits need (headerAt m block)) (fun block => some (nextBlock m block))

def malloc (sz : Nat) (s : Heap) : Option (Nat × Heap) :=
  if sz = 0 then some (0, s)
  else
    let need := (roundUp sz 8 + headerSize) % 2 ^ 64
    let s := heapBounds s
    (firstFit s.mem s.heapEnd need s.heapStart).bind fun block =>
      if block < s.heapEnd then
        let (ptr, m) := splitOrUse s.mem block need .used
        some (ptr, { s with mem := m })
      else
        match growHeap need s with
        | (none, s) => some (0, s)
        | (some block, s) =>
            let (ptr, m) := splitOrUse s.mem block need .used
            some (ptr, { s with mem := m })

def calloc (num sz : Nat) (s : Heap) : Option (Nat × Heap) :=
  if num = 0 ∨ sz = 0 then some (0, s)
  else if 2 ^ 64 ≤ num * sz then some (0, s)
  else
    (malloc (num * sz) s).bind fun (ptr, s) =>
      if ptr = 0 then some (0, s)
      else some (ptr, { s with mem := memset s.mem ptr 0 (num * sz) })

def free (ptr : Nat) (s : Heap) : Heap :=
  if ptr = 0 then s else { s with mem := setState s.mem (blockOf ptr) .free }

/-- The payload size of a block, in `u64` arithmetic. -/
def payloadSize (h : Header) : Nat := (h.size + (2 ^ 64 - headerSize)) % 2 ^ 64

def realloc (ptr sz : Nat) (s : Heap) : Option (Nat × Heap) :=
  if ptr = 0 then malloc sz s
  else if sz = 0 then some (0, free ptr s)
  else
    let oldSize := payloadSize (headerAt s.mem (blockOf ptr))
    (malloc sz s).bind fun (newPtr, s) =>
      if newPtr = 0 then some (0, s)
      else some (newPtr, free ptr { s with mem := memcpy s.mem newPtr ptr (min oldSize sz) })

/-- The inner loop of `defrag`, with `total` and `next`. -/
def mergeFree (m : Memory) (last : Nat) : Nat × Nat → Option (Nat × Nat) :=
  cwhile (fun c => c.2 < last ∧ (headerAt m c.2).state = BlockState.free.code)
    (fun c => some ((c.1 + (headerAt m c.2).size) % 2 ^ 64, nextBlock m c.2))

def defragStep (last : Nat) (c : Memory × Nat) : Option (Memory × Nat) :=
  let (m, block) := c
  if (headerAt m block).state ≠ BlockState.free.code then some (m, nextBlock m block)
  else
    (mergeFree m last ((headerAt m block).size, nextBlock m block)).bind fun (total, _) =>
      let m := setSize m block total
      some (m, nextBlock m block)

def defrag (s : Heap) : Option Heap :=
  let s := heapBounds s
  (cwhile (fun c => c.2 < s.heapEnd) (defragStep s.heapEnd) (s.mem, s.heapStart)).bind fun (m, _) =>
    some { s with mem := m }

structure HeapInfo where
  numAllocs : Int
  sizeArray : Nat
  ptrArray : Nat
  freeSpace : Int
  largestFreeChunk : Int
  deriving DecidableEq

/-- `as i32`. -/
def asI32 (n : Nat) : Int := (BitVec.ofNat 32 n).toInt

def failHeapInfo (s : Heap) : Option (Int × HeapInfo × Heap) := some (-1, ⟨0, 0, 0, 0, 0⟩, s)

/-- The counters of the first pass of `heap_info`. -/
structure Counts where
  numAllocs : Nat
  freeSpace : Nat
  largestFreeChunk : Nat

def Counts.add (c : Counts) (h : Header) : Counts :=
  if h.state = BlockState.used.code then { c with numAllocs := c.numAllocs + 1 }
  else if h.state = BlockState.free.code then
    { c with freeSpace := c.freeSpace + h.size, largestFreeChunk := max c.largestFreeChunk h.size }
  else c

def countBlocks (s : Heap) : Option Counts :=
  (cwhile (fun c : Counts × Nat => c.2 < s.heapEnd)
    (fun c => some (c.1.add (headerAt s.mem c.2), nextBlock s.mem c.2)) (⟨0, 0, 0⟩, s.heapStart)).bind fun c => some c.1

/-- The variables of the second pass. -/
structure Pass where
  mem : Memory
  block : Nat
  i : Nat

def fillStep (sizeArray ptrArray : Nat) (c : Pass) : Pass :=
  let h := headerAt c.mem c.block
  let c :=
    if h.state = BlockState.used.code then
      let m := setWord c.mem sizeArray c.i (payloadSize h)
      let m := setWord m ptrArray c.i (payloadOf c.block)
      { c with mem := m, i := c.i + 1 }
    else c
  { c with block := nextBlock c.mem c.block }

def fill (sizeArray ptrArray n : Nat) (s : Heap) : Option Pass :=
  cwhile (fun c : Pass => c.block < s.heapEnd ∧ c.i < n) (fun c => some (fillStep sizeArray ptrArray c))
    ⟨s.mem, s.heapStart, 0⟩

def sortDescending (sizeArray ptrArray n : Nat) (m : Memory) : Option Memory :=
  SelectionSort.selectionSort (SelectionSort.swapPair · sizeArray ptrArray) sizeArray n m

/-- The returned value, the contents of `*info`, and the heap. -/
def heapInfo (s : Heap) : Option (Int × HeapInfo × Heap) :=
  let s := heapBounds s
  (countBlocks s).bind fun c =>
  if c.numAllocs = 0 then some (0, ⟨0, 0, 0, asI32 c.freeSpace, asI32 c.largestFreeChunk⟩, s)
  else
    (malloc (c.numAllocs * 8 % 2 ^ 64) s).bind fun (sizeBuf, s) =>
    if sizeBuf = 0 then failHeapInfo s
    else
      (malloc (c.numAllocs * 8 % 2 ^ 64) s).bind fun (ptrBuf, s) =>
      if ptrBuf = 0 then failHeapInfo (free sizeBuf s)
      else
        let m := setState s.mem (blockOf sizeBuf) .internal
        let m := setState m (blockOf ptrBuf) .internal
        let s := heapBounds { s with mem := m }
        (fill sizeBuf ptrBuf c.numAllocs s).bind fun p =>
        (sortDescending sizeBuf ptrBuf c.numAllocs p.mem).bind fun m =>
        some (0, ⟨asI32 c.numAllocs, sizeBuf, ptrBuf, asI32 c.freeSpace, asI32 c.largestFreeChunk⟩,
          { s with mem := m })

end WeensyOS.RustMalloc
