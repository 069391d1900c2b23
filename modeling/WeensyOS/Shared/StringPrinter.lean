import WeensyOS.Shared.Scanner
import WeensyOS.Lib.ByteMemory

namespace WeensyOS.Printer

open ByteMemory

section

variable {σ : Type*} (putc : σ → UInt8 → Int → σ) {format : CString} {val : VaList} {rounds : Nat}

/-- The printer that keeps the calls of `putc`. -/
def record (out : List (UInt8 × Int)) (c : UInt8) (color : Int) : List (UInt8 × Int) := out ++ [(c, color)]

def replay (start : σ) (out : List (UInt8 × Int)) : σ := out.foldl (fun s call => putc s call.1 call.2) start

/-- A state of `printer_vprintf` with the recorded calls made by another printer. -/
def Printing.replay (start : σ) (p : Printing (List (UInt8 × Int))) : Printing σ :=
  ⟨p.pos, p.args, p.color, Printer.replay putc start p.out⟩

theorem replay_record (start : σ) (out : List (UInt8 × Int)) (c : UInt8) (color : Int) :
    replay putc start (record out c color) = putc (replay putc start out) c color := by
  rw [replay, record, List.foldl_append]
  rfl

theorem putChars_record (color : Int) (out : List (UInt8 × Int)) (chars : List UInt8) :
    putChars record color out chars = out ++ chars.map (·, color) := by
  induction chars generalizing out with
  | nil => simp [putChars]
  | cons c chars ih =>
      rw [putChars, List.foldl_cons]
      refine (ih (record out c color)).trans ?_
      simp [record]

theorem replay_putChars (start : σ) (color : Int) (out : List (UInt8 × Int)) (chars : List UInt8) :
    replay putc start (putChars record color out chars) = putChars putc color (replay putc start out) chars := by
  induction chars generalizing out with
  | nil => rfl
  | cons c chars ih =>
      rw [putChars, List.foldl_cons]
      refine (ih (record out c color)).trans ?_
      rw [replay_record]
      rfl

theorem convert_replay (start : σ) (s : Scan) (color : Int) (out : List (UInt8 × Int)) :
    convert putc format val s color (replay putc start out) =
      (convert record format val s color out).map (Printing.replay putc start) := by
  rw [convert, convert]
  cases format.read s.pos with
  | none => rfl
  | some c =>
      rw [Option.bind_some, Option.bind_some]
      split
      next => rfl
      next =>
        obtain ⟨conv, taken⟩ := conversion c s (val s.args)
        simp only
        cases field (List.replicate numbufsiz 0) conv s.width s.precision with
        | none => rfl
        | some chars => simp only [Option.bind_some, Option.map_some, Printing.replay, replay_putChars]

theorem printerLoop_replay (start : σ) (n : Nat) (p : Printing (List (UInt8 × Int))) :
    printerLoop putc format val rounds n (p.replay putc start) =
      (printerLoop record format val rounds n p).map (Printing.replay putc start) := by
  induction n generalizing p with
  | zero => rfl
  | succ n ih =>
      rw [printerLoop, printerLoop]
      have hpos : (p.replay putc start).pos = p.pos := rfl
      rw [hpos]
      cases format.read p.pos with
      | none => rfl
      | some c =>
          rw [Option.bind_some, Option.bind_some]
          split
          next => rfl
          next =>
            split
            next =>
              rw [Option.bind_some, Option.bind_some, ← ih]
              simp only [Printing.replay, replay_record]
            next =>
              rw [directive, directive]
              have hargs : (p.replay putc start).args = p.args := rfl
              rw [hpos, hargs]
              cases scan format val rounds { pos := p.pos + 1, args := p.args } with
              | none => rfl
              | some s =>
                  have hout : (p.replay putc start).out = replay putc start p.out := rfl
                  have hcolor : (p.replay putc start).color = p.color := rfl
                  rw [Option.bind_some, Option.bind_some, hout, hcolor, convert_replay]
                  cases convert record format val s p.color p.out with
                  | none => rfl
                  | some p' => exact ih { p' with pos := p'.pos + 1 }

/-- The output of `printer_vprintf`, without its colors. -/
def output (rounds : Nat) (color : Int) (format : CString) (val : VaList) : Option (List UInt8) :=
  (printerVprintf record rounds [] color format val).map fun p => p.out.map Prod.fst

theorem printerVprintf_replay (start : σ) (rounds : Nat) (color : Int) (format : CString) (val : VaList) :
    printerVprintf putc rounds start color format val =
      (printerVprintf record rounds [] color format val).map (Printing.replay putc start) :=
  printerLoop_replay putc start rounds ⟨0, 0, color, []⟩

end

section

variable {σ : Type*} {putc : σ → UInt8 → Int → σ} {format : CString} {val : VaList} {rounds : Nat} {P : σ → Prop}

theorem putChars_keeps (hputc : ∀ out c color, c ≠ 0 → P out → P (putc out c color)) {chars : List UInt8}
    (hchars : ∀ c ∈ chars, c ≠ 0) (color : Int) {out : σ} (hout : P out) : P (putChars putc color out chars) := by
  induction chars generalizing out with
  | nil => exact hout
  | cons c chars ih =>
      rw [List.forall_mem_cons] at hchars
      exact ih hchars.2 (hputc out c color hchars.1 hout)

theorem stringAt_ne_zero (buf : List UInt8) (p : Nat) : ∀ c ∈ stringAt buf p, c ≠ 0 := by
  intro c hc
  simpa using List.all_eq_true.mp List.all_takeWhile c hc

theorem prefixOf_ne_zero (c : Conversion) : ∀ b ∈ prefixOf c, b ≠ 0 := by
  rw [prefixOf]
  split_ifs <;> decide +kernel

/-- Nothing that is printed is a NUL. -/
theorem field_ne_zero {numbuf : List UInt8} {c : Conversion} {width precision : Int} {chars : List UInt8}
    (hdata : ∀ b ∈ c.data, b ≠ 0) (h : field numbuf c width precision = some chars) : ∀ b ∈ chars, b ≠ 0 := by
  rw [field, Option.bind_eq_some_iff] at h
  obtain ⟨data, hbytes, h⟩ := h
  have hne : ∀ b ∈ data, b ≠ 0 := by
    split at hbytes
    next =>
      obtain ⟨b, -, hb⟩ := Option.bind_eq_some_iff.mp hbytes
      rw [Option.some.injEq] at hb
      exact hb ▸ stringAt_ne_zero _ _
    next =>
      rw [Option.some.injEq] at hbytes
      exact hbytes ▸ hdata
  rw [Option.some.injEq] at h
  subst h
  have hspace (n : Nat) : ∀ b ∈ List.replicate n (chr ' '), b ≠ 0 := by
    intro b hb
    rw [List.eq_of_mem_replicate hb]
    decide
  have hzero (n : Nat) : ∀ b ∈ List.replicate n (chr '0'), b ≠ 0 := by
    intro b hb
    rw [List.eq_of_mem_replicate hb]
    decide
  intro b hb
  simp only [List.mem_append] at hb
  obtain (((hb | hb) | hb) | hb) | hb := hb
  · exact hspace _ b hb
  · exact prefixOf_ne_zero c b hb
  · exact hzero _ b hb
  · exact hne b (List.mem_of_mem_take hb)
  · exact hspace _ b hb

theorem CString.ne_zero (s : CString) : ∀ b ∈ s.bytes, b ≠ 0 :=
  fun _ hb hzero => s.nul_notMem (hzero ▸ hb)

theorem conversion_ne_zero (c : UInt8) (s : Scan) (a : Arg) : ∀ b ∈ (conversion c s a).1.data, b ≠ 0 := by
  have hnil : ∀ b ∈ ([] : List UInt8), b ≠ 0 := fun _ hb => absurd hb List.not_mem_nil
  rw [conversion]
  split_ifs with h1 h2 h3 h4 h5 h6 h7 h8
  · exact hnil
  · exact hnil
  · exact hnil
  · exact hnil
  · exact hnil
  · exact a.text.ne_zero
  · exact stringAt_ne_zero _ _
  · simpa using h8
  · simp only [List.mem_singleton]
    rintro b rfl
    decide

/-- What `putc` keeps for every character but NUL holds when `printer_vprintf` returns. -/
theorem printerLoop_keeps (hputc : ∀ out c color, c ≠ 0 → P out → P (putc out c color)) {n : Nat} {p p' : Printing σ}
    (hp : P p.out) (h : printerLoop putc format val rounds n p = some p') : P p'.out := by
  induction n generalizing p with
  | zero => cases h
  | succ n ih =>
      rw [printerLoop] at h
      obtain ⟨c, -, h⟩ := Option.bind_eq_some_iff.mp h
      split at h
      next =>
        rw [Option.some.injEq] at h
        exact h ▸ hp
      next hzero =>
        obtain ⟨q, hq, h⟩ := Option.bind_eq_some_iff.mp h
        apply ih _ h
        split at hq
        next =>
          rw [Option.some.injEq] at hq
          exact hq ▸ hputc _ _ _ hzero hp
        next =>
          obtain ⟨s, -, hq⟩ := Option.bind_eq_some_iff.mp hq
          obtain ⟨c, -, hq⟩ := Option.bind_eq_some_iff.mp hq
          split at hq
          next =>
            rw [Option.some.injEq] at hq
            exact hq ▸ hp
          next =>
            obtain ⟨chars, hchars, hq⟩ := Option.bind_eq_some_iff.mp hq
            rw [Option.some.injEq] at hq
            subst hq
            exact putChars_keeps hputc (field_ne_zero (conversion_ne_zero c s _) hchars) _ hp

end

theorem output_spec (format : CString) (val : VaList) (color : Int) {rounds : Nat}
    (hrounds : format.bytes.length < rounds) :
    ∃ p, printerVprintf record rounds [] color format val = some p ∧
      output rounds color format val = some (p.out.map Prod.fst) ∧ ∀ c ∈ p.out.map Prod.fst, c ≠ 0 := by
  obtain ⟨p, hp⟩ := printerVprintf_returns format val record [] color hrounds
  refine ⟨p, hp, ?_, ?_⟩
  · rw [output, hp]
    rfl
  · apply printerLoop_keeps (P := fun out => ∀ c ∈ out.map Prod.fst, c ≠ 0) _ _ hp
    · intro out c color hc hout
      rw [record, List.map_append, List.forall_mem_append]
      exact ⟨hout, by simpa using hc⟩
    · exact fun c hc => absurd hc (by simp)

/-- `string_printer`, with the memory it writes to. -/
structure StringPrinter where
  mem : Memory
  s : Nat
  limit : Nat

def stringPutc (sp : StringPrinter) (c : UInt8) (_ : Int) : StringPrinter :=
  if sp.s < sp.limit then { sp with mem := Function.update sp.mem sp.s c, s := (sp.s + 1) % 2 ^ 64 } else sp

/-- The returned value and the memory. -/
def vsnprintf (rounds : Nat) (mem : Memory) (s size : Nat) (format : CString) (val : VaList) : Option (Int × Memory) :=
  if size ≠ 0 then
    (printerVprintf stringPutc rounds ⟨mem, s, (s + size - 1) % 2 ^ 64⟩ 0 format val).bind fun p =>
    some (asInt (p.out.s - s), Function.update p.out.mem p.out.s 0)
  else some (0, mem)

theorem stringPutc_replay (mem : Memory) {s limit : Nat} (out : List (UInt8 × Int)) (hle : s ≤ limit)
    (hlimit : limit < 2 ^ 64) :
    replay stringPutc ⟨mem, s, limit⟩ out =
      ⟨storeBytes mem s ((out.map Prod.fst).take (limit - s)), s + min out.length (limit - s), limit⟩ := by
  induction out generalizing mem s with
  | nil => simp [replay, storeBytes]
  | cons call out ih =>
      rw [replay, List.foldl_cons]
      rcases Nat.lt_or_eq_of_le hle with hlt | rfl
      · have hput : stringPutc ⟨mem, s, limit⟩ call.1 call.2 = ⟨Function.update mem s call.1, s + 1, limit⟩ := by
          rw [stringPutc, if_pos hlt, Nat.mod_eq_of_lt (by omega : s + 1 < 2 ^ 64)]
        have hroom : limit - s = (limit - (s + 1)) + 1 := by omega
        rw [hput]
        refine (ih _ hlt).trans ?_
        rw [hroom, List.map_cons, List.take_succ_cons, storeBytes, List.length_cons, Nat.add_min_add_right]
        congr 1
        omega
      · have hput : stringPutc ⟨mem, s, s⟩ call.1 call.2 = ⟨mem, s, s⟩ := if_neg (Nat.lt_irrefl s)
        rw [hput]
        refine (ih mem (Nat.le_refl s)).trans ?_
        simp

/-- `vsnprintf` stores as much of the output as there is room for, and a NUL behind it. -/
theorem vsnprintf_spec (mem : Memory) {s size : Nat} (hbuf : s + size ≤ 2 ^ 64) {format : CString} {val : VaList}
    {rounds : Nat} {chars : List UInt8} (hout : output rounds 0 format val = some chars) :
    vsnprintf rounds mem s size format val =
      some (asInt (min chars.length (size - 1) : Nat),
        if size = 0 then mem else storeBytes mem s (chars.take (size - 1) ++ [0])) := by
  by_cases hsize : size = 0
  · subst hsize
    simp [vsnprintf, asInt]
  · have hlimit : (s + size - 1) % 2 ^ 64 = s + (size - 1) := by
      rw [Nat.mod_eq_of_lt (by omega)]
      omega
    rw [output, Option.map_eq_some_iff] at hout
    obtain ⟨p, hp, rfl⟩ := hout
    have hroom : s + (size - 1) - s = size - 1 := Nat.add_sub_cancel_left ..
    rw [vsnprintf, if_pos hsize, hlimit, printerVprintf_replay, hp, Option.map_some, Option.bind_some, if_neg hsize]
    simp only [Printing.replay]
    rw [stringPutc_replay mem p.out (Nat.le_add_right s _) (by omega), hroom, List.length_map, storeBytes_append,
      List.length_take, List.length_map, Nat.min_comm (size - 1)]
    have hdiff : ((s + min p.out.length (size - 1) : Nat) : Int) - s = (min p.out.length (size - 1) : Nat) := by omega
    simp only [hdiff]
    rfl

def panicPrefix : List UInt8 := ['P', 'A', 'N', 'I', 'C', ':', ' '].map chr

/-- The process's `kernel_panic`, up to the printing of `buf`, which is the array of 160 bytes at address `buf`. -/
def kernelPanic (rounds : Nat) (mem : Memory) (buf : Nat) (format : CString) (val : VaList) : Option Memory :=
  let mem := storeBytes mem buf panicPrefix
  (vsnprintf rounds mem (buf + 7) (160 - 7) format val).bind fun (n, mem) =>
  let len := asInt (n + 7)
  if 0 < len ∧ mem (buf + (len - 1).toNat) ≠ newline then
    some (storeBytes mem (buf + (len - if len = 160 - 1 then 1 else 0).toNat) [newline, 0])
  else some mem

/-- The string that `kernel_panic` shows, for a message whose text is `chars`. -/
def panicText (chars : List UInt8) : List UInt8 :=
  let text := panicPrefix ++ chars.take 152
  if text.getLast? = some newline then text
  else if text.length = 159 then text.dropLast ++ [newline]
  else text ++ [newline]

theorem kernelPanic_text (mem : Memory) {buf : Nat} (hbuf : buf + 160 ≤ 2 ^ 64) {format : CString} {val : VaList}
    {rounds : Nat} {chars : List UInt8} (hout : output rounds 0 format val = some chars) :
    kernelPanic rounds mem buf format val = some (storeBytes mem buf (panicText chars ++ [0])) := by
  have hspec : vsnprintf rounds (storeBytes mem buf panicPrefix) (buf + 7) (160 - 7) format val =
      some (asInt (min chars.length 152 : Nat), storeBytes (storeBytes mem buf panicPrefix) (buf + 7)
        (chars.take 152 ++ [0])) := by
    rw [vsnprintf_spec (storeBytes mem buf panicPrefix) (s := buf + 7) (by omega : buf + 7 + (160 - 7) ≤ 2 ^ 64) hout]
    rfl
  have hmem : storeBytes (storeBytes mem buf panicPrefix) (buf + 7) (chars.take 152 ++ [0]) =
      storeBytes mem buf (panicPrefix ++ chars.take 152 ++ [0]) := by
    rw [List.append_assoc, storeBytes_append mem buf panicPrefix]
    rfl
  have hlen : (panicPrefix ++ chars.take 152).length = min chars.length 152 + 7 := by
    rw [List.length_append, List.length_take, Nat.min_comm, Nat.add_comm]
    rfl
  rw [panicText]
  generalize panicPrefix ++ chars.take 152 = text at hmem hlen ⊢
  have hne : text ≠ [] := by
    rintro rfl
    simp at hlen
  have hlast : storeBytes mem buf (text ++ [0]) (buf + (text.length - 1)) = text.getLast hne := by
    rw [storeBytes_inside _ (by rw [List.length_append, List.length_singleton]; omega),
      List.getElem_append_left (by omega), List.getLast_eq_getElem]
  have hint : asInt (asInt (min chars.length 152 : Nat) + 7) = text.length := by
    rw [asInt_eq (n := (min chars.length 152 : Nat)) (by omega) (by omega), asInt_eq (by omega) (by omega)]
    omega
  have hpos : ((text.length : Int) - 1).toNat = text.length - 1 := by omega
  have hsome : text.getLast? = some newline ↔ text.getLast hne = newline := by
    rw [List.getLast?_eq_some_getLast hne, Option.some.injEq]
  rw [hmem] at hspec
  rw [kernelPanic, hspec, Option.bind_some]
  simp only [hint, hpos, hlast, hsome]
  by_cases hnl : text.getLast hne = newline
  · rw [if_neg (not_and.mpr fun _ => not_not.mpr hnl), if_pos hnl]
  · have hlenpos : (0 : Int) < text.length := by omega
    rw [if_pos ⟨hlenpos, hnl⟩, if_neg hnl]
    by_cases hfull : text.length = 159
    · have hdrop : text ++ [0] = text.dropLast ++ [text.getLast hne, 0] := by
        conv_lhs => rw [← List.dropLast_append_getLast hne]
        simp
      have hstart : ((text.length : Int) - if (text.length : Int) = 160 - 1 then 1 else 0).toNat = text.dropLast.length := by
        rw [if_pos (by omega), List.length_dropLast]
        omega
      rw [if_pos hfull, hstart, hdrop, storeBytes_replace _ _ _ (by simp), List.append_assoc]
      rfl
    · have hstart : ((text.length : Int) - if (text.length : Int) = 160 - 1 then 1 else 0).toNat = text.length := by
        rw [if_neg (by omega)]
        omega
      rw [if_neg hfull, hstart, storeBytes_replace _ _ _ (by simp), List.append_assoc]
      rfl

/-- The text fits in the buffer with its NUL, and is a line that starts as panics do. -/
theorem panicText_spec {chars : List UInt8} (hchars : ∀ c ∈ chars, c ≠ 0) :
    (panicText chars).length < 160 ∧ panicPrefix <+: panicText chars ∧ (panicText chars).getLast? = some newline ∧
      ∀ c ∈ panicText chars, c ≠ 0 := by
  have hpre : ∀ c ∈ panicPrefix, c ≠ 0 := by decide +kernel
  have hnl : newline ≠ 0 := by decide
  have htext : ∀ c ∈ panicPrefix ++ chars.take 152, c ≠ 0 := by
    rw [List.forall_mem_append]
    exact ⟨hpre, fun c hc => hchars c (List.mem_of_mem_take hc)⟩
  have hlen : (panicPrefix ++ chars.take 152).length = min chars.length 152 + 7 := by
    rw [List.length_append, List.length_take, Nat.min_comm, Nat.add_comm]
    rfl
  rw [panicText]
  split
  next hlast => exact ⟨by omega, List.prefix_append .., hlast, htext⟩
  next =>
    split
    next hfull =>
      refine ⟨?_, ?_, List.getLast?_concat, ?_⟩
      · rw [List.length_append, List.length_dropLast, List.length_singleton]
        omega
      · have hdrop : (panicPrefix ++ chars.take 152).dropLast = panicPrefix ++ (chars.take 152).dropLast := by
          apply List.dropLast_append_of_ne_nil
          rintro hnil
          rw [hnil] at hfull
          exact absurd hfull (by decide)
        rw [hdrop, List.append_assoc]
        exact List.prefix_append ..
      · rw [List.forall_mem_append]
        exact ⟨fun c hc => htext c (List.dropLast_subset _ hc), by simpa using hnl⟩
    next hshort =>
      refine ⟨?_, ?_, List.getLast?_concat, ?_⟩
      · rw [List.length_append, List.length_singleton]
        omega
      · rw [List.append_assoc]
        exact List.prefix_append ..
      · rw [List.forall_mem_append]
        exact ⟨htext, by simpa using hnl⟩

/-- `vsnprintf` cuts its output to the buffer, and `kernel_panic` leaves one line in its own. -/
theorem string_printing (format : CString) (val : VaList) {rounds : Nat} (hrounds : format.bytes.length < rounds) :
    ∃ chars, output rounds 0 format val = some chars ∧
      (∀ mem s size, s + size ≤ 2 ^ 64 → ∃ mem',
        vsnprintf rounds mem s size format val = some (asInt (min chars.length (size - 1) : Nat), mem') ∧
        (size ≤ 2 ^ 31 → asInt (min chars.length (size - 1) : Nat) = (min chars.length (size - 1) : Nat)) ∧
        mem' = (if size = 0 then mem else storeBytes mem s (chars.take (size - 1) ++ [0])) ∧
        ∀ x, (x < s ∨ s + size ≤ x) → mem' x = mem x) ∧
      ∀ mem buf, buf + 160 ≤ 2 ^ 64 → ∃ mem' text,
        kernelPanic rounds mem buf format val = some mem' ∧ mem' = storeBytes mem buf (text ++ [0]) ∧
        (text.length < 160 ∧ panicPrefix <+: text ∧ text.getLast? = some newline ∧ ∀ c ∈ text, c ≠ 0) ∧
        ∀ x, (x < buf ∨ buf + 160 ≤ x) → mem' x = mem x := by
  obtain ⟨p, -, hout, hne⟩ := output_spec format val 0 hrounds
  refine ⟨_, hout, ?_, ?_⟩
  · intro mem s size hbuf
    refine ⟨_, vsnprintf_spec mem hbuf hout, ?_, rfl, ?_⟩
    · intro hsize
      apply asInt_eq <;> omega
    · intro x hx
      by_cases hsize : size = 0
      · rw [if_pos hsize]
      · rw [if_neg hsize, storeBytes_outside]
        rw [List.length_append, List.length_take, List.length_singleton]
        omega
  · intro mem buf hbuf
    have htext := panicText_spec hne
    refine ⟨_, _, kernelPanic_text mem hbuf hout, rfl, htext, ?_⟩
    intro x hx
    apply storeBytes_outside
    rw [List.length_append, List.length_singleton]
    omega

theorem cutFormat_panics : ∃ mem', kernelPanic 7 (fun _ => 0) 4096 cutFormat fives = some mem' := by
  obtain ⟨chars, -, -, hpanic⟩ := string_printing cutFormat fives (by decide : cutFormat.bytes.length < 7)
  obtain ⟨mem', text, hrun, -⟩ := hpanic (fun _ => 0) 4096 (by decide)
  exact ⟨mem', hrun⟩

end WeensyOS.Printer
