import WeensyOS.Lib.Loop
import WeensyOS.Kernel.ProgramBreak

namespace WeensyOS.CMalloc

open ByteMemory Loop LibC ProgramBreak

inductive BlockState
  | free
  | internal
  | used
  deriving DecidableEq

def BlockState.code : BlockState → Nat
  | .free => 0
  | .internal => 1
  | .used => 2

/-- The bytes of a `block_header` that the allocator reads: `state` at offset
0, `slop` at 1, `size` at 4. -/
structure BlockHeader where
  state : Nat
  slop : Nat
  size : Nat
  deriving DecidableEq

def sizeofHeader : Nat := 8

def align : Nat := 8

def null : Nat := 0

def headerAt (m : Memory) (h : Nat) : BlockHeader := ⟨readLE m h 1, readLE m (h + 1) 1, readLE m (h + 4) 4⟩

def setState (m : Memory) (h : Nat) (s : BlockState) : Memory := writeLE m h 1 s.code

def setSlop (m : Memory) (h slop : Nat) : Memory := writeLE m (h + 1) 1 slop

def setSize (m : Memory) (h size : Nat) : Memory := writeLE m (h + 4) 4 size

def payloadOf (h : Nat) : Nat := (h + sizeofHeader) % 2 ^ 64

def headerOf (payload : Nat) : Nat := (payload + (2 ^ 64 - sizeofHeader)) % 2 ^ 64

/-- The statics of `malloc.c`, with the memory of the process and its break. -/
structure Heap where
  mem : Memory
  initialized : Bool
  managedMemoryStart : Nat
  lastValidAddress : Nat
  breaks : Breaks

def sbrk (increment : Nat) (s : Heap) : Nat × Heap :=
  ((ProgramBreak.sbrk s.breaks increment).1, { s with breaks := (ProgramBreak.sbrk s.breaks increment).2 })

def roundUp (a n : Nat) : Nat := (a + n - 1) % 2 ^ 64 / n * n

def init (s : Heap) : Heap :=
  if s.initialized then s
  else
    let (start, s) := sbrk 0 s
    { s with managedMemoryStart := start, lastValidAddress := start, initialized := true }

abbrev fits (blockSize : Nat) (h : BlockHeader) : Prop :=
  h.state = BlockState.free.code ∧ blockSize ≤ h.size

/-- The first-fit walk: the first header that fits, or the end of the heap. -/
def firstFit (m : Memory) (last blockSize : Nat) : Nat → Option Nat :=
  cwhile (fun cur => cur < last ∧ ¬fits blockSize (headerAt m cur))
    (fun cur => some ((cur + (headerAt m cur).size) % 2 ^ 64))

/-- What `malloc` writes once the walk has stopped at a header that fits. -/
def place (m : Memory) (cur blockSize slop : Nat) : Memory :=
  let remainder := ((headerAt m cur).size + (2 ^ 32 - blockSize % 2 ^ 32)) % 2 ^ 32
  if 16 ≤ remainder then
    let next := (cur + blockSize) % 2 ^ 64
    let m := setState m next .free
    let m := setSize m next remainder
    let m := setSize m cur (blockSize % 2 ^ 32)
    let m := setState m cur .used
    setSlop m cur slop
  else
    let m := setState m cur .used
    setSlop m cur remainder

/-- What `malloc` does when the walk has reached the end of the heap. -/
def grow (blockSize slop : Nat) (s : Heap) : Nat × Heap :=
  let (old, s) := sbrk blockSize s
  if old = 2 ^ 64 - 1 then (null, s)
  else
    let h := s.lastValidAddress
    let m := setState s.mem h .used
    let m := setSlop m h slop
    let m := setSize m h (blockSize % 2 ^ 32)
    (payloadOf h, { s with mem := m, lastValidAddress := (h + blockSize) % 2 ^ 64 })

def malloc (sz : Nat) (s : Heap) : Option (Nat × Heap) :=
  if sz = 0 then some (null, s)
  else
    let s := init s
    let rounded := roundUp sz align
    let slop := (rounded + (2 ^ 64 - sz)) % 2 ^ 64 % 2 ^ 8
    let blockSize := (rounded + sizeofHeader) % 2 ^ 64
    (firstFit s.mem s.lastValidAddress blockSize s.managedMemoryStart).bind fun cur =>
      if cur < s.lastValidAddress then
        some (payloadOf cur, { s with mem := place s.mem cur blockSize slop })
      else some (grow blockSize slop s)

def calloc (num sz : Nat) (s : Heap) : Option (Nat × Heap) :=
  if num = 0 ∨ sz = 0 then some (null, s)
  else if (2 ^ 64 - 1) / sz < num then some (null, s)
  else
    let total := num * sz % 2 ^ 64
    (malloc total s).bind fun (ptr, s) =>
      if ptr = null then some (ptr, s)
      else some (ptr, { s with mem := memset s.mem ptr 0 total })

def free (ptr : Nat) (s : Heap) : Heap :=
  if ptr = null then s else { s with mem := setState s.mem (headerOf ptr) .free }

/-- `h->size - sizeof(block_header) - h->slop`, in `size_t` arithmetic. -/
def usable (h : BlockHeader) : Nat := (h.size + (2 ^ 64 - sizeofHeader) + (2 ^ 64 - h.slop)) % 2 ^ 64

def realloc (ptr sz : Nat) (s : Heap) : Option (Nat × Heap) :=
  if ptr = null then malloc sz s
  else if sz = 0 then some (null, free ptr s)
  else
    let oldUsable := usable (headerAt s.mem (headerOf ptr))
    (malloc sz s).bind fun (newPtr, s) =>
      if newPtr = null then some (null, s)
      else
        let m := memcpy s.mem newPtr ptr (if oldUsable < sz then oldUsable else sz)
        some (newPtr, free ptr { s with mem := m })

/-- The inner loop of `defrag`: past every free block from `next` on. -/
def skipFree (m : Memory) (last : Nat) : Nat → Option Nat :=
  cwhile (fun next => next < last ∧ (headerAt m next).state = BlockState.free.code)
    (fun next => some ((next + (headerAt m next).size) % 2 ^ 64))

def defragStep (last : Nat) (c : Memory × Nat) : Option (Memory × Nat) :=
  let (m, cur) := c
  let h := headerAt m cur
  if h.state = BlockState.free.code then
    (skipFree m last ((cur + h.size) % 2 ^ 64)).bind fun next =>
      let m := if next ≠ (cur + h.size) % 2 ^ 64 then setSize m cur ((next + (2 ^ 64 - cur)) % 2 ^ 64 % 2 ^ 32) else m
      some (m, (cur + (headerAt m cur).size) % 2 ^ 64)
  else some (m, (cur + h.size) % 2 ^ 64)

def defrag (s : Heap) : Option Heap :=
  (cwhile (fun c => c.2 < s.lastValidAddress) (defragStep s.lastValidAddress)
    (s.mem, s.managedMemoryStart)).bind fun (m, _) => some { s with mem := m }

end WeensyOS.CMalloc
