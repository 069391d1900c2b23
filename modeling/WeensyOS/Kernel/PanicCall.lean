import WeensyOS.Kernel.HeapMemory
import WeensyOS.Shared.ConsoleBounds
import WeensyOS.Shared.Verbatim

namespace WeensyOS.Kernel

open ByteMemory LibC ProgramBreak Printer Console

def ccol (cpos : Int) : Int := cpos.tmod 80

/-- Where the messages of the kernel go: the `log.txt` of the host and the console. -/
structure Terminal where
  log : List UInt8
  cells : Nat → UInt16

def parallelPortPutc (log : List UInt8) (c : UInt8) (_ : Int) : List UInt8 := log ++ [c]

/-- What `error_vprintf` leaves and returns, with the numbers of arguments that it has taken from `val2` and from `val`. -/
structure Printed where
  terminal : Terminal
  cpos : Int
  val2 : Nat
  val : Nat

def errorVprintf (rounds : Nat) (t : Terminal) (cpos color : Int) (format : CString) (val : VaList) : Option Printed :=
  (printerVprintf parallelPortPutc rounds t.log 0 format val).bind fun log =>
  (printerVprintf consolePutc rounds ⟨t.cells, startPos cpos⟩ color format val).map fun screen =>
  ⟨⟨log.out, screen.out.cells⟩, screen.out.pos, log.args, screen.args⟩

def panicColon : CString := ⟨panicPrefix, by decide +kernel⟩

def panicAlone : CString := ⟨['P', 'A', 'N', 'I', 'C'].map chr, by decide +kernel⟩

def endOfLine : CString := ⟨[newline], by decide⟩

/-- The kernel's `kernel_panic` up to its endless loop, with what each call of `error_printf` and `error_vprintf` in it leaves. -/
def kernelPanic (rounds : Nat) (t : Terminal) (format : Option CString) (val : VaList) : Option (List Printed) :=
  match format with
  | some format =>
      (errorVprintf rounds t (cposAt 23 0) 0xC000 panicColon val).bind fun e =>
      (errorVprintf rounds e.terminal e.cpos 0xC000 format val).bind fun e' =>
      if ccol e'.cpos ≠ 0 then
        (errorVprintf rounds e'.terminal e'.cpos 0xC000 endOfLine val).map fun e'' => [e, e', e'']
      else some [e, e']
  | none => (errorVprintf rounds t (cposAt 23 0) 0xC000 panicAlone val).map fun e => [e]

/-- The string in an array; without a NUL in it there is none. -/
def arrayString (msg : List UInt8) : Option CString :=
  if (0 : UInt8) ∈ msg then some ⟨stringAt msg 0, fun hzero => stringAt_ne_zero msg 0 0 hzero rfl⟩ else none

/-- The case `INT_SYS_PANIC` of `exception`; `val` is what is found where arguments of `kernel_panic` would be. The kernel
copies with its own page table, which maps the physical memory: with `none` it faults, and the message is never printed. -/
def sysPanic (rounds : Nat) (s : Machine) (current rdi : Nat) (t : Terminal) (val : VaList) : Option (List Printed) :=
  if rdi = 0 then kernelPanic rounds t none val
  else
    let map := virtualMemoryLookup s.mem (s.processes current).pPagetable rdi
    if map.pa + 160 ≤ memsizePhysical then
      let msg := (List.range 160).map fun i => s.mem (map.pa + i)
      (arrayString msg).bind fun format => kernelPanic rounds t (some format) val
    else none

/-- The process has the message with its NUL at the address, in one mapped page. -/
structure HoldsMessage (s : Machine) (p addr : Nat) (message : CString) : Prop where
  mapped : Reaches s.mem (s.processes p).pPagetable addr 4
  page : pageOffset addr + message.bytes.length < pageSize
  bytes : ∀ i ≤ message.bytes.length, message.read i = some (loadByte s p (addr + i))

/-- A call has printed the text, in the color of panics, and has taken no argument. -/
structure Shows (t : Terminal) (cpos : Int) (text : List UInt8) (e : Printed) : Prop where
  log : e.terminal.log = t.log ++ text
  cells : e.terminal.cells = (putChars consolePutc 0xC000 ⟨t.cells, startPos cpos⟩ text).cells
  cpos : e.cpos = (putChars consolePutc 0xC000 ⟨t.cells, startPos cpos⟩ text).pos
  val2 : e.val2 = 0
  val : e.val = 0

/-- The 160 bytes that the kernel copies are all in the physical memory. -/
def CopyMapped (s : Machine) (p addr : Nat) : Prop :=
  (virtualMemoryLookup s.mem (s.processes p).pPagetable addr).pa + 160 ≤ memsizePhysical

instance (s : Machine) (p addr : Nat) : Decidable (CopyMapped s p addr) := inferInstanceAs (Decidable (_ ≤ _))

/-- What is printed begins with `PANIC: ` and the message. -/
def ShownVerbatim (calls : Option (List Printed)) (t : Terminal) (message : List UInt8) : Prop :=
  ∃ e e' rest, calls = some (e :: e' :: rest) ∧ Shows t (cposAt 23 0) panicPrefix e ∧ Shows e.terminal e.cpos message e'

variable {s : Machine} {p addr rounds : Nat} {message : CString}

section Message

theorem message_address (h : HoldsMessage s p addr message) {i : Nat} (hi : i ≤ message.bytes.length) :
    (virtualMemoryLookup s.mem (s.processes p).pPagetable addr).pa + i = physicalAddress s p (addr + i) := by
  have hpage := h.page
  have hsize : pageSize = 4096 := rfl
  have hoffset (a : Nat) : pageOffset a = a % 4096 := rfl
  have hsame : (addr + i) / 4096 = addr / 4096 := by
    rw [hoffset, hsize] at hpage
    omega
  obtain ⟨hregion, hindex⟩ := same_page_iff.mp hsame
  have htable : tableAt s.mem (s.processes p).pPagetable (addr + i) 4 = tableAt s.mem (s.processes p).pPagetable addr 4 := by
    rw [tableAt_succ, tableAt_succ, levelEntry, levelEntry, tableAt_region hregion _ _ (Nat.le_refl 3), hindex]
  rw [lookup_present h.mapped, physicalAddress, htable]
  simp only [hoffset] at hpage ⊢
  rw [hsize] at hpage
  omega

theorem arrayString_message {msg : List UInt8} (hlen : message.bytes.length < msg.length)
    (h : ∀ i (hi : i < msg.length), i ≤ message.bytes.length → message.read i = some msg[i]) :
    arrayString msg = some message := by
  have htake : msg.take (message.bytes.length + 1) = message.bytes ++ [0] := by
    apply List.ext_getElem?
    intro i
    rcases Nat.lt_or_ge message.bytes.length i with hgt | hle
    · rw [List.getElem?_eq_none (by rw [List.length_take]; omega), List.getElem?_eq_none (by simp; omega)]
    · have hi : i < msg.length := by omega
      rw [List.getElem?_take_of_lt (Nat.lt_succ_of_le hle), List.getElem?_eq_getElem hi, ← h i hi hle, CString.read]
  have hmsg : msg = message.bytes ++ 0 :: msg.drop (message.bytes.length + 1) := by
    conv_lhs => rw [← List.take_append_drop (message.bytes.length + 1) msg, htake]
    rw [List.append_assoc, List.singleton_append]
  have hzero : (0 : UInt8) ∈ msg := by
    rw [hmsg]
    simp
  have hbytes : stringAt msg 0 = message.bytes := by
    rw [hmsg, stringAt, List.drop_zero, List.takeWhile_append_of_pos, List.takeWhile_cons_of_neg (by simp), List.append_nil]
    intro c hc
    exact decide_eq_true (message.ne_zero c hc)
  rw [arrayString, if_pos hzero, Option.some.injEq, CString.mk.injEq]
  exact hbytes

theorem sysPanic_message (h : HoldsMessage s p addr message) (haddr : addr ≠ 0) (hcopy : CopyMapped s p addr)
    (hlen : message.bytes.length < 160) (t : Terminal) (val : VaList) :
    sysPanic rounds s p addr t val = kernelPanic rounds t (some message) val := by
  have hmsg : arrayString ((List.range 160).map fun i =>
      s.mem ((virtualMemoryLookup s.mem (s.processes p).pPagetable addr).pa + i)) = some message := by
    apply arrayString_message
    · simpa using hlen
    · intro i hi hle
      rw [List.getElem_map, List.getElem_range, message_address h hle]
      exact h.bytes i hle
  rw [CopyMapped] at hcopy
  simp only [sysPanic, if_neg haddr, if_pos hcopy, hmsg, Option.bind_some]

end Message

section Printing

theorem log_out (log : List UInt8) (out : List (UInt8 × Int)) :
    replay parallelPortPutc log out = log ++ out.map Prod.fst := by
  induction out generalizing log with
  | nil => simp [replay]
  | cons call out ih =>
      rw [replay, List.foldl_cons]
      refine (ih (parallelPortPutc log call.1 call.2)).trans ?_
      rw [parallelPortPutc, List.append_assoc, List.map_cons, List.singleton_append]

/-- A call of `error_vprintf` shows its format exactly when no percent sign stands before the last character. -/
theorem errorVprintf_shows (t : Terminal) (cpos : Int) (format : CString) (val : VaList)
    (hrounds : format.bytes.length < rounds) :
    ∃ e, errorVprintf rounds t cpos 0xC000 format val = some e ∧
      (Shows t cpos format.bytes e ↔ percent ∉ format.bytes.dropLast) := by
  obtain ⟨p, hp, hverbatim⟩ := verbatim_iff format val 0 hrounds
  obtain ⟨screen, hscreen⟩ :=
    printerVprintf_returns format val consolePutc ⟨t.cells, startPos cpos⟩ 0xC000 hrounds
  have hlog : printerVprintf parallelPortPutc rounds t.log 0 format val = some (p.replay parallelPortPutc t.log) := by
    rw [printerVprintf_replay, hp, Option.map_some]
  refine ⟨_, by rw [errorVprintf, hlog, Option.bind_some, hscreen, Option.map_some], fun h => ?_, fun hplain => ?_⟩
  · apply hverbatim.mp
    refine ⟨?_, h.val2⟩
    have hout : t.log ++ p.out.map Prod.fst = t.log ++ format.bytes := (log_out t.log p.out).symm.trans h.log
    exact List.append_cancel_left hout
  · obtain ⟨hout, hargs⟩ := hverbatim.mpr hplain
    have hsame := Option.some.inj
      (hscreen.symm.trans (printerVprintf_plain consolePutc hplain hrounds 0xC000 ⟨t.cells, startPos cpos⟩))
    subst hsame
    refine ⟨?_, rfl, rfl, hargs, rfl⟩
    exact (log_out t.log p.out).trans (congrArg (t.log ++ ·) hout)

theorem kernelPanic_shows (t : Terminal) (message : CString) (val : VaList) (hrounds : 160 ≤ rounds)
    (hlen : message.bytes.length < 160) : ShownVerbatim (kernelPanic rounds t (some message) val) t message.bytes ↔
      percent ∉ message.bytes.dropLast := by
  obtain ⟨e, he, hpre⟩ := errorVprintf_shows t (cposAt 23 0) panicColon val (Nat.lt_of_lt_of_le (by decide) hrounds)
  obtain ⟨e', he', hmessage⟩ := errorVprintf_shows e.terminal e.cpos message val (Nat.lt_of_lt_of_le hlen hrounds)
  obtain ⟨e'', he'', -⟩ := errorVprintf_shows e'.terminal e'.cpos endOfLine val (Nat.lt_of_lt_of_le (by decide) hrounds)
  have hshown : Shows t (cposAt 23 0) panicPrefix e := hpre.mpr (by decide +kernel)
  have hcalls : ∃ rest, kernelPanic rounds t (some message) val = some (e :: e' :: rest) := by
    rw [kernelPanic]
    simp only [he, he', he'', Option.bind_some, Option.map_some]
    split
    · exact ⟨[e''], rfl⟩
    · exact ⟨[], rfl⟩
  obtain ⟨rest, hrest⟩ := hcalls
  rw [← hmessage, hrest]
  constructor
  · rintro ⟨e₁, e₂, rest', heq, -, hsecond⟩
    cases heq
    exact hsecond
  · intro hsecond
    exact ⟨e, e', rest, rfl, hshown, hsecond⟩

theorem sysPanic_null (s : Machine) (p : Nat) (t : Terminal) (val : VaList) (message : List UInt8) :
    ¬ShownVerbatim (sysPanic rounds s p 0 t val) t message := by
  rintro ⟨e, e', rest, hcalls, -⟩
  rw [sysPanic, if_pos rfl, kernelPanic] at hcalls
  obtain ⟨e₁, -, h⟩ := Option.map_eq_some_iff.mp hcalls
  cases h

/-- The copy faults. -/
theorem sysPanic_fault (haddr : addr ≠ 0) (hcopy : ¬CopyMapped s p addr) (t : Terminal) (val : VaList) :
    sysPanic rounds s p addr t val = none := by
  rw [CopyMapped] at hcopy
  simp only [sysPanic, if_neg haddr, if_neg hcopy]

end Printing

/-- The message of a process is shown as it is exactly when its pointer is not null, the kernel can copy 160 bytes from
there, and no percent sign stands before its last character: it is the format of the kernel's message. -/
theorem panic_shown_iff (t : Terminal) (val : VaList) (hrounds : 160 ≤ rounds) (hlen : message.bytes.length < 160)
    (h : HoldsMessage s p addr message) : ShownVerbatim (sysPanic rounds s p addr t val) t message.bytes ↔
      addr ≠ 0 ∧ CopyMapped s p addr ∧ percent ∉ message.bytes.dropLast := by
  by_cases haddr : addr = 0
  · subst haddr
    exact iff_of_false (sysPanic_null s p t val message.bytes) fun hne => hne.1 rfl
  by_cases hcopy : CopyMapped s p addr
  · rw [sysPanic_message h haddr hcopy hlen, kernelPanic_shows t message val hrounds hlen]
    exact ⟨fun hplain => ⟨haddr, hcopy, hplain⟩, fun hplain => hplain.2.2⟩
  · rw [sysPanic_fault haddr hcopy]
    exact iff_of_false (fun ⟨_, _, _, hcalls, _⟩ => nomatch hcalls) fun hall => hcopy hall.2.1

section Examples

/-- Process 1 with the message at the start of its data, on page 6. -/
def messageProcess (message : CString) : Machine :=
  { freshProcess with mem := storeBytes (setEntry emptyTables 0x4000 256 0x6007) 0x6000 (message.bytes ++ [0]) }

def clearTerminal : Terminal := ⟨[], fun _ => 0x0720⟩

/-- The message `100%`. -/
def fullMessage : CString := ⟨['1', '0', '0', '%'].map chr, by decide +kernel⟩

/-- The message `%d`. -/
def percentD : CString := ⟨['%', 'd'].map chr, by decide +kernel⟩

theorem fullMessage_shown :
    ShownVerbatim (sysPanic 160 (messageProcess fullMessage) 1 0x100000 clearTerminal minusSeven) clearTerminal
      fullMessage.bytes :=
  (panic_shown_iff clearTerminal minusSeven (Nat.le_refl 160) (by decide)
    ⟨by decide +kernel, by decide +kernel, by decide +kernel⟩).mpr ⟨by decide, by decide +kernel, by decide +kernel⟩

/-- A message that takes an argument: what is printed is the number found there. -/
theorem percentD_not_shown : HoldsMessage (messageProcess percentD) 1 0x100000 percentD ∧
    (sysPanic 160 (messageProcess percentD) 1 0x100000 clearTerminal minusSeven).map (·.map (·.terminal.log)) =
      some [panicPrefix, panicPrefix ++ ['-', '7'].map chr, panicPrefix ++ ['-', '7', Char.ofNat 10].map chr] ∧
    ¬ShownVerbatim (sysPanic 160 (messageProcess percentD) 1 0x100000 clearTerminal minusSeven) clearTerminal
      percentD.bytes := by
  have hholds : HoldsMessage (messageProcess percentD) 1 0x100000 percentD :=
    ⟨by decide +kernel, by decide +kernel, by decide +kernel⟩
  refine ⟨hholds, by decide +kernel, ?_⟩
  rw [sysPanic_message hholds (by decide) (by decide +kernel) (by decide), kernelPanic_shows _ _ _ (Nat.le_refl 160) (by decide)]
  decide +kernel

end Examples

end WeensyOS.Kernel
