import WeensyOS.CMalloc.MergeSort
import WeensyOS.CMalloc.Realloc
import WeensyOS.Lib.SelectionSort

namespace WeensyOS.CMalloc

open ByteMemory Loop WordArray LibC ProgramBreak Tiling Tiling.Layout MergeSort

/-- The body of the exchange in `sort_descending`'s fallback. -/
def exchange (sizes ptrs : Nat) (m : Memory) (i maxIdx : Nat) : Memory :=
  if maxIdx ≠ i then SelectionSort.swapPair m sizes ptrs i maxIdx else m

def sortDescending (sizes ptrs n : Nat) (s : Heap) : Option Heap :=
  (malloc (8 * n % 2 ^ 64) s).bind fun (tmpSizes, s) =>
  (malloc (8 * n % 2 ^ 64) s).bind fun (tmpPtrs, s) =>
  (if tmpSizes ≠ null ∧ tmpPtrs ≠ null then
    let m := setState s.mem (headerOf tmpSizes) .internal
    let m := setState m (headerOf tmpPtrs) .internal
    mergeSortDescending ⟨sizes, ptrs, tmpSizes, tmpPtrs⟩ n 0 n m
  else SelectionSort.selectionSort (exchange sizes ptrs) sizes n s.mem).bind fun m =>
  some (free tmpPtrs (free tmpSizes { s with mem := m }))

structure HeapInfo where
  numAllocs : Nat
  sizeArray : Nat
  ptrArray : Nat
  freeSpace : Nat
  largestFreeChunk : Nat
  deriving DecidableEq

def HeapInfo.zero : HeapInfo := ⟨0, null, null, 0, 0⟩

/-- The first pass of `heap_info`. -/
def countUsed (s : Heap) : Option Nat :=
  (cwhile (fun c : Nat × Nat => c.2 < s.lastValidAddress)
    (fun c => some (if (headerAt s.mem c.2).state = BlockState.used.code then c.1 + 1 else c.1,
      (c.2 + (headerAt s.mem c.2).size) % 2 ^ 64)) (0, s.managedMemoryStart)).bind fun c => some c.1

/-- The variables of the second pass. -/
structure Pass where
  mem : Memory
  index : Nat
  freeSpace : Nat
  largestFreeChunk : Nat
  cur : Nat

def fillStep (sizeArray ptrArray : Nat) (c : Pass) : Pass :=
  let h := headerAt c.mem c.cur
  let c :=
    if h.state = BlockState.used.code then
      let m := setWord c.mem sizeArray c.index (usable h)
      let m := setWord m ptrArray c.index (payloadOf c.cur)
      { c with mem := m, index := c.index + 1 }
    else if h.state = BlockState.free.code then
      { c with
        freeSpace := c.freeSpace + h.size
        largestFreeChunk := if c.largestFreeChunk < h.size then h.size else c.largestFreeChunk }
    else c
  { c with cur := (c.cur + (headerAt c.mem c.cur).size) % 2 ^ 64 }

def fill (sizeArray ptrArray : Nat) (s : Heap) : Option Pass :=
  cwhile (fun c : Pass => c.cur < s.lastValidAddress) (fun c => some (fillStep sizeArray ptrArray c))
    ⟨s.mem, 0, 0, 0, s.managedMemoryStart⟩

/-- `heap_info` from the second pass on; `none` when its assertion fails. -/
def report (numAllocs sizeArray ptrArray : Nat) (s : Heap) : Option (Int × HeapInfo × Heap) :=
  (fill sizeArray ptrArray s).bind fun c =>
  if c.index = numAllocs then
    (if 0 < numAllocs then sortDescending sizeArray ptrArray numAllocs { s with mem := c.mem }
      else some { s with mem := c.mem }).bind fun s =>
    some (0, ⟨numAllocs, sizeArray, ptrArray, c.freeSpace, c.largestFreeChunk⟩, s)
  else none

/-- The returned value, the contents of `*info`, and the heap. -/
def heapInfo (s : Heap) : Option (Int × HeapInfo × Heap) :=
  if s.initialized = false then some (-1, .zero, s)
  else
    (countUsed s).bind fun numAllocs =>
    if 0 < numAllocs then
      (malloc (8 * numAllocs % 2 ^ 64) s).bind fun (sizeArray, s) =>
      (malloc (8 * numAllocs % 2 ^ 64) s).bind fun (ptrArray, s) =>
      if sizeArray = null ∨ ptrArray = null then
        some (-1, .zero, free ptrArray (free sizeArray s))
      else
        let m := setState s.mem (headerOf sizeArray) .internal
        let m := setState m (headerOf ptrArray) .internal
        report numAllocs sizeArray ptrArray { s with mem := m }
    else report numAllocs null null s

end WeensyOS.CMalloc
