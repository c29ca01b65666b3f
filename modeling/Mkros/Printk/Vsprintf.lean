import Mathlib
/-!
# printk — `vsprintf`, the model

`vsprintf` walks its format. A `%` starts a directive: its flags (`-`, then
any `0`s), its width (`*` takes an `int` argument, else decimal digits) and
its conversion, which prints the next argument through `__printk_int` or
`__printk_str`. Any other byte is printed as it is, a newline after a `\r`.

Bytes are `UInt8`; the format is the list of its bytes before the NUL, and
the output is the list of bytes `__printk_char` passes on, in order. The
arguments are the 64-bit slots RV64 passes them in: `va_arg` of a narrower
type reads the slot's low bytes. The union `u` of `vsprintf` is one 64-bit
word kept from one directive to the next, holding at first whatever the
stack held: a conversion stores its argument into the low bytes of a member
(RISC-V is little-endian) and reads back the member the source names, which
for `%hu`, `%hx` and the like is all eight bytes of `u.lli`.

`__printk_int` keeps `s` as an index into `print_buf`, which the model lets
run below `0`, and the string from `s` up to the NUL it put in the last byte.
The digit loop writes each byte at `--s`, so where `s` ends is the lowest
index of `print_buf` the call wrote.

Where the source reads past the format's NUL (a directive the format ends
in the middle of) or past its arguments, the model gives `none`.
-/

namespace Mkros

namespace Printk

/-- A character as the byte a `char` holds. -/
def ch (c : Char) : UInt8 := c.toNat.toUInt8

/-- A byte as the character it is. -/
def byteChar (c : UInt8) : Char := Char.ofNat c.toNat

/-- `enum flags`. -/
def PAD_ZERO : Nat := 1

def PAD_RIGHT : Nat := 2

/-- `PRINT_BUF_LEN`. -/
def PRINT_BUF_LEN : Nat := 64

/-! ## `__printk_str` and `__printk_int` -/

/-- `__printk_str`: the bytes it prints for the C string `string` in a field
of `width`. Its count is their number. -/
def printkStr (string : List UInt8) (width : Int32) (flags : Nat) : List UInt8 :=
  let len := string.length
  -- the pad left after the string, and the pad byte
  let (width, padchar) : Int32 × UInt8 :=
    if width > 0 then
      (if (len : Int) ≥ width.toInt then 0 else width - Int32.ofNat len,
        if flags &&& PAD_ZERO ≠ 0 then ch '0' else ch ' ')
    else (width, ch ' ')
  -- without `PAD_RIGHT` the first loop pads and leaves `width` at `0`
  if flags &&& PAD_RIGHT = 0 then List.replicate width.toInt.toNat padchar ++ string
  else string ++ List.replicate width.toInt.toNat padchar

/-- The byte of digit `t`: `t + '0'`, after `t += letbase - '0' - 10` past 9. -/
def digitChar (letbase : UInt8) (t : Nat) : UInt8 :=
  if t ≥ 10 then (t + letbase.toNat - 10).toUInt8 else (t + (ch '0').toNat).toUInt8

/-- The digit loop's state: `s`, the string from `s` to the NUL, and `u`. -/
structure Digits where
  s : Int
  str : List UInt8
  u : Nat
  deriving DecidableEq, Repr

/-- One pass of `while (u)`: `*--s = t + '0'` for `t = u % base`, then
`u /= base`. -/
def digitStep (base : Nat) (letbase : UInt8) (st : Digits) : Digits :=
  ⟨st.s - 1, digitChar letbase (st.u % base) :: st.str, st.u / base⟩

/-- `while (u) …`, for at most `fuel` passes. An `unsigned long long` has 64
bits, so with a base of 2 or more 64 passes always suffice. -/
def digitLoop (base : Nat) (letbase : UInt8) : Nat → Digits → Digits
  | 0, st => st
  | fuel + 1, st => if st.u = 0 then st else digitLoop base letbase fuel (digitStep base letbase st)

/-- What `__printk_int` leaves: where `s` ended, the lowest index of
`print_buf` written, and the bytes printed, whose number is its count. -/
structure IntOut where
  low : Int
  out : List UInt8
  deriving DecidableEq, Repr

/-- `__printk_int` of the `long long` `i`. -/
def printkInt (i : Int) (base : Nat) (sign : Bool) (width : Int32) (flags : Nat) (letbase : UInt8) :
    IntOut :=
  if i = 0 then
    -- `print_buf[0] = '0'; print_buf[1] = '\0'`
    ⟨0, printkStr [ch '0'] width flags⟩
  else
    let neg := sign && base == 10 && decide (i < 0)
    -- `unsigned long long u = i`, or `u = -i`
    let u := if neg then (-i % 2 ^ 64).toNat else (i % 2 ^ 64).toNat
    -- `s = print_buf + PRINT_BUF_LEN - 1; *s = '\0'`
    let st := digitLoop base letbase 64 ⟨PRINT_BUF_LEN - 1, [], u⟩
    if neg then
      if width ≠ 0 ∧ flags &&& PAD_ZERO ≠ 0 then ⟨st.s, ch '-' :: printkStr st.str (width - 1) flags⟩
      else ⟨st.s - 1, printkStr (ch '-' :: st.str) width flags⟩
    else ⟨st.s, printkStr st.str width flags⟩

/-! ## The arguments and the union -/

/-- `va_arg`: the next slot, `none` past the last. -/
def vaArg : List UInt64 → Option (UInt64 × List UInt64)
  | [] => none
  | w :: ap => some (w, ap)

/-- The union after storing the low `n` bytes of `v` into a member of `n`
bytes. -/
def storeMember (u : UInt64) (n : Nat) (v : UInt64) : UInt64 :=
  (u.toNat / 2 ^ (8 * n) * 2 ^ (8 * n) + v.toNat % 2 ^ (8 * n)).toUInt64

/-- A member of `n` bytes, read as the `long long` `__printk_int` takes: a
signed member sign-extended, and an `unsigned long long` above `LLONG_MAX`
wrapped. -/
def readMember (u : UInt64) (n : Nat) (signed : Bool) : Int :=
  let x := u.toNat % 2 ^ (8 * n)
  if (signed || n == 8) && decide (2 ^ (8 * n - 1) ≤ x) then (x : Int) - 2 ^ (8 * n) else x

/-- An integer conversion: `va_arg` is stored into a member of `store` bytes,
and `__printk_int` is passed the member of `read` bytes, signed or not, with
`base`, `sign` and `letbase`. -/
structure IntConv where
  store : Nat
  read : Nat
  signed : Bool
  base : Nat
  sign : Bool
  letbase : UInt8
  deriving DecidableEq, Repr

/-- What a directive prints. -/
inductive Conv where
  | int (c : IntConv)
  /-- `%c`. -/
  | char
  /-- `%s`. -/
  | str
  /-- `default: break;`: nothing. -/
  | skip
  deriving DecidableEq, Repr

/-! ## The directive -/

/-- `while (*format == '0') flags |= PAD_ZERO`. -/
def zeroFlags (flags : Nat) : List UInt8 → Nat × List UInt8
  | [] => (flags, [])
  | c :: fmt => if c = ch '0' then zeroFlags (flags ||| PAD_ZERO) fmt else (flags, c :: fmt)

/-- The flags: `-`, then any `0`s. -/
def parseFlags : List UInt8 → Nat × List UInt8
  | [] => (0, [])
  | c :: fmt => if c = ch '-' then zeroFlags PAD_RIGHT fmt else zeroFlags 0 (c :: fmt)

/-- `width *= 10; width += *format - '0'` over the digits, in `int`. -/
def widthDigits (width : Int32) : List UInt8 → Int32 × List UInt8
  | [] => (width, [])
  | c :: fmt =>
    if ch '0' ≤ c ∧ c ≤ ch '9' then widthDigits (width * 10 + Int32.ofNat (c.toNat - (ch '0').toNat)) fmt
    else (width, c :: fmt)

/-- The width: `*` reads an `int` argument, else the digits. -/
def parseWidth (ap : List UInt64) : List UInt8 → Option (Int32 × List UInt64 × List UInt8)
  | [] => some (0, ap, [])
  | c :: fmt =>
    if c = ch '*' then do
      let (w, ap) ← vaArg ap
      some (w.toUInt32.toInt32, ap, fmt)
    else
      let (width, fmt) := widthDigits 0 (c :: fmt)
      some (width, ap, fmt)

/-- After `ll`: `d` signed, `u`, `x`, `X` unsigned, all `long long`. -/
def parseLongLong : List UInt8 → Option (Conv × List UInt8)
  | [] => none
  | c :: fmt =>
    match byteChar c with
    | 'd' => some (.int ⟨8, 8, true, 10, true, ch 'a'⟩, fmt)
    | 'u' => some (.int ⟨8, 8, false, 10, false, ch 'a'⟩, fmt)
    | 'x' => some (.int ⟨8, 8, false, 16, false, ch 'a'⟩, fmt)
    | 'X' => some (.int ⟨8, 8, false, 16, false, ch 'A'⟩, fmt)
    | _ => some (.skip, fmt)

/-- After `l`: the same for `long`, or a second `l`. -/
def parseLong : List UInt8 → Option (Conv × List UInt8)
  | [] => none
  | c :: fmt =>
    match byteChar c with
    | 'd' => some (.int ⟨8, 8, true, 10, true, ch 'a'⟩, fmt)
    | 'u' => some (.int ⟨8, 8, false, 10, false, ch 'a'⟩, fmt)
    | 'x' => some (.int ⟨8, 8, false, 16, false, ch 'a'⟩, fmt)
    | 'X' => some (.int ⟨8, 8, false, 16, false, ch 'A'⟩, fmt)
    | 'l' => parseLongLong fmt
    | _ => some (.skip, fmt)

/-- After `hh`: `d` stores and reads `u.hhi`; `u`, `x`, `X` store `u.hhu` and
read `u.lli`. -/
def parseChar : List UInt8 → Option (Conv × List UInt8)
  | [] => none
  | c :: fmt =>
    match byteChar c with
    | 'd' => some (.int ⟨1, 1, true, 10, true, ch 'a'⟩, fmt)
    | 'u' => some (.int ⟨1, 8, true, 10, false, ch 'a'⟩, fmt)
    | 'x' => some (.int ⟨1, 8, true, 16, false, ch 'a'⟩, fmt)
    | 'X' => some (.int ⟨1, 8, true, 16, false, ch 'A'⟩, fmt)
    | _ => some (.skip, fmt)

/-- After `h`: `d` stores and reads `u.hi`; `u`, `x`, `X` store `u.hu` and
read `u.lli`; or a second `h`. -/
def parseShort : List UInt8 → Option (Conv × List UInt8)
  | [] => none
  | c :: fmt =>
    match byteChar c with
    | 'd' => some (.int ⟨2, 2, true, 10, true, ch 'a'⟩, fmt)
    | 'u' => some (.int ⟨2, 8, true, 10, false, ch 'a'⟩, fmt)
    | 'x' => some (.int ⟨2, 8, true, 16, false, ch 'a'⟩, fmt)
    | 'X' => some (.int ⟨2, 8, true, 16, false, ch 'A'⟩, fmt)
    | 'h' => parseChar fmt
    | _ => some (.skip, fmt)

/-- The conversion, and the format after it. The `switch` reads one byte
past the flags and width, or past `l`, `ll`, `h`, `hh`, and the loop's
`++format` steps over it: a NUL there is read past. -/
def parseConv : List UInt8 → Option (Conv × List UInt8)
  | [] => none
  | c :: fmt =>
    match byteChar c with
    | 'd' => some (.int ⟨4, 4, true, 10, true, ch 'a'⟩, fmt)
    | 'b' => some (.int ⟨4, 4, true, 2, true, ch 'a'⟩, fmt)
    | 'u' => some (.int ⟨4, 4, false, 10, false, ch 'a'⟩, fmt)
    | 'p' => some (.int ⟨8, 8, false, 16, false, ch 'a'⟩, fmt)
    | 'x' => some (.int ⟨4, 4, false, 16, false, ch 'a'⟩, fmt)
    | 'X' => some (.int ⟨4, 4, false, 16, false, ch 'A'⟩, fmt)
    | 'c' => some (.char, fmt)
    | 's' => some (.str, fmt)
    | 'l' => parseLong fmt
    | 'h' => parseShort fmt
    | _ => some (.skip, fmt)

/-! ## `vsprintf` -/

/-- What `vsprintf` has done so far: the bytes printed, its count `pc`, the
arguments left, the union, and the lowest index of `print_buf` any
`__printk_int` wrote (`PRINT_BUF_LEN` before any). -/
structure VState where
  out : List UInt8
  pc : Nat
  ap : List UInt64
  u : UInt64
  low : Int
  deriving DecidableEq, Repr

/-- The bytes `printkStr` or `printkInt` printed, added to the state. -/
def VState.print (st : VState) (o : List UInt8) : VState :=
  { st with out := st.out ++ o, pc := st.pc + o.length }

/-- A directive's conversion, in a field of `width` with `flags`. `strAt`
is the C string at each address. -/
def convert (strAt : UInt64 → List UInt8) (st : VState) (width : Int32) (flags : Nat) :
    Conv → Option VState
  | .int c => do
    let (w, ap) ← vaArg st.ap
    let u := storeMember st.u c.store w
    let r := printkInt (readMember u c.read c.signed) c.base c.sign width flags c.letbase
    some { st.print r.out with ap, u, low := min st.low r.low }
  | .char => do
    let (w, ap) ← vaArg st.ap
    let u := storeMember st.u 1 w
    -- `scr[0] = u.c; scr[1] = '\0'`: an empty string where `u.c` is NUL
    let scr := if u.toNat % 256 = 0 then [] else [u.toNat.toUInt8]
    some { st.print (printkStr scr width flags) with ap, u }
  | .str => do
    let (w, ap) ← vaArg st.ap
    let s := if w = 0 then "(null)".toList.map ch else strAt w
    some { st.print (printkStr s width flags) with ap, u := w }
  | .skip => some st

/-- A directive, from the byte after `%`: the state after it and the format
after it. -/
def directive (strAt : UInt64 → List UInt8) (st : VState) (fmt : List UInt8) :
    Option (VState × List UInt8) := do
  let (flags, fmt) := parseFlags fmt
  let (width, ap, fmt) ← parseWidth st.ap fmt
  let (conv, fmt) ← parseConv fmt
  let st ← convert strAt { st with ap } width flags conv
  some (st, fmt)

/-- The `out:` branch: a byte printed as it is, a newline after a `\r`, and
counted once. -/
def VState.putByte (st : VState) (c : UInt8) : VState :=
  { st with out := st.out ++ (if c = ch '\n' then [ch '\r', c] else [c]), pc := st.pc + 1 }

/-- The loop `for (; *format != 0; ++format)`, for at most `fuel` passes;
each pass takes a byte at least, so the format's length suffices. -/
def vsprintfLoop (strAt : UInt64 → List UInt8) : Nat → VState → List UInt8 → Option VState
  | 0, st, _ => some st
  | _ + 1, st, [] => some st
  | fuel + 1, st, c :: fmt =>
    if c = ch '%' then
      match fmt with
      -- `if (*format == '\0') break;`
      | [] => some st
      | c' :: fmt' =>
        -- `if (*format == '%') goto out;`
        if c' = ch '%' then vsprintfLoop strAt fuel (st.putByte c') fmt'
        else do
          let (st, fmt) ← directive strAt st (c' :: fmt')
          vsprintfLoop strAt fuel st fmt
    else vsprintfLoop strAt fuel (st.putByte c) fmt

/-- `vsprintf(out, format, ap)`, with the union holding `u` at first. With a
ring buffer `out` a NUL follows the output. -/
def vsprintf (strAt : UInt64 → List UInt8) (out : Bool) (format : List UInt8) (ap : List UInt64)
    (u : UInt64) : Option VState :=
  (vsprintfLoop strAt format.length ⟨[], 0, ap, u, PRINT_BUF_LEN⟩ format).map fun st =>
    if out then { st with out := st.out ++ [0] } else st

end Printk

end Mkros
