import WeensyOS.Kernel.Process
import WeensyOS.Lib.Runs

namespace WeensyOS.Kernel

open ByteMemory LibC ProgramBreak

def procStartAddr : Nat := 0x100000

/-- A page that `palloc` hands out, with the bytes that it leaves in it. -/
structure NewPage where
  number : Nat
  contents : Nat → UInt8

/-- The precompiled `palloc` chooses the page; it is never the one at address 0, which is the null pointer. -/
def NewPage.Free (page : NewPage) (s : Machine) : Prop :=
  0 < page.number ∧ page.number < npages ∧ (s.pageinfo page.number).refcount = 0

instance (page : NewPage) (s : Machine) : Decidable (page.Free s) := inferInstanceAs (Decidable (_ ∧ _ ∧ _))

namespace Machine

/-- The page of `palloc`, when it does not return null. -/
def palloc (s : Machine) (page : NewPage) (pid : Nat) : Machine where
  mem x := if x / pageSize = page.number then page.contents (x % pageSize) else s.mem x
  pageinfo := Function.update s.pageinfo page.number ⟨pid, 1⟩
  processes := s.processes

def setState (s : Machine) (pid : Nat) (state : ProcState) : Machine :=
  { s with processes := Function.update s.processes pid { s.processes pid with pState := state } }

/-- What the precompiled `process_free` is for: the pages that `pid` owns and its slot are free. -/
def processFree (s : Machine) (pid : Nat) : Machine :=
  { s.setState pid .free with pageinfo := fun pn => if (s.pageinfo pn).owner = pid then ⟨poFree, 0⟩ else s.pageinfo pn }

/-- A process that is broken gives its slot back. -/
def exit (s : Machine) (pid : Nat) : Machine := (s.setState pid .broken).processFree pid

end Machine

/-- The flags of a page of the heap. -/
def heapPerm : BitVec 32 := 7

/-- The case `INT_PAGEFAULT` of `exception`, for a fault of the process `current` at
`addr`. The last argument is what `palloc` returns, when it is called. -/
def pageFault (s : Machine) (current addr : Nat) (missing : Bool) (page : Option NewPage) : Option Machine :=
  let proc := s.processes current
  let inHeap := proc.originalBreak ≤ addr ∧ addr < proc.programBreak
  if missing = true ∧ inHeap then
    let pageAddr := roundDown addr pageSize
    match page with
    | none => some (s.exit current)
    | some page =>
        let s := s.palloc page current
        (virtualMemoryMap s.mem proc.pPagetable pageAddr (page.number * pageSize) pageSize heapPerm).map fun (r, mem) =>
          if 0 ≤ r then { s with mem := mem } else ({ s with mem := mem } : Machine).exit current
  else some (s.exit current)

/-- What the processes do that involves the heap. -/
inductive HeapEvent where
  | brk (pid rdi : Nat)
  | sbrk (pid rdi : Nat)
  | pageFault (pid addr : Nat) (missing : Bool) (page : Option NewPage)

namespace HeapEvent

def pid : HeapEvent → Nat
  | brk pid _ => pid
  | sbrk pid _ => pid
  | pageFault pid _ _ _ => pid

/-- A runnable process traps, its registers hold words, and `palloc` behaves as documented. -/
def Allowed (s : Machine) (e : HeapEvent) : Prop :=
  e.pid < nproc ∧ (s.processes e.pid).pState = .runnable ∧
    match e with
    | brk _ rdi => rdi < 2 ^ 64
    | sbrk _ rdi => rdi < 2 ^ 64
    | pageFault _ addr _ page => addr < 2 ^ 64 ∧ ∀ new ∈ page, new.Free s

instance (s : Machine) (e : HeapEvent) : Decidable (e.Allowed s) :=
  match e with
  | brk _ _ => inferInstanceAs (Decidable (_ ∧ _ ∧ _))
  | sbrk _ _ => inferInstanceAs (Decidable (_ ∧ _ ∧ _))
  | pageFault _ _ _ _ => inferInstanceAs (Decidable (_ ∧ _ ∧ _ ∧ ∀ new ∈ _, NewPage.Free new s))

/-- A failed assertion stops the kernel: there is no next state. -/
def step (s : Machine) : HeapEvent → Option Machine
  | brk pid rdi => (sysBrk s pid rdi).map Prod.fst
  | sbrk pid rdi => (sysSbrk s pid rdi).map Prod.fst
  | pageFault pid addr missing page => Kernel.pageFault s pid addr missing page

end HeapEvent

def heapSystem : Runs.System Machine HeapEvent where
  step := HeapEvent.step
  Allowed := HeapEvent.Allowed

instance (s : Machine) (e : HeapEvent) : Decidable (heapSystem.Allowed s e) := inferInstanceAs (Decidable (e.Allowed s))

end WeensyOS.Kernel
