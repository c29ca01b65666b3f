import Mkros.Printk.Vsprintf
import Mathlib.Data.Nat.Digits.Lemmas
/-!
# printk — what `vsprintf`'s integer conversions print, and where

The digit loop writes the value's digits (`Nat.digits`) most significant
first, from `print_buf[PRINT_BUF_LEN - 2]` down (`digitLoop_spec`). So
`__printk_int` of a nonzero value prints the field `__printk_str` makes of the
digits, with a `-` for a negative signed decimal, ahead of a zero padding
(`printkInt_of_ne_zero`, `printkStr_eq`), and writes `print_buf` down to index
`PRINT_BUF_LEN - 1 - k`, `k` the number of digits, or one lower for a `-` it
puts there.

A 64-bit value has at most 20 decimal digits and 16 hexadecimal ones, so the
decimal and hexadecimal conversions stay inside `print_buf`
(`printkInt_low_nonneg`), as base 2 does for a value below `2 ^ 63`
(`printkInt_base_two_low_nonneg`). A negative value in base 2, though, is the
`unsigned long long` `2 ^ 64 + i`, of 64 digits, and the loop writes
`print_buf[-1]` (`printkInt_base_two_neg`): `%b` of every negative `int`
does, whatever its flags and width (`vsprintf_b_writes_below_print_buf`).
-/

namespace Mkros

namespace Printk

/-- The digits of `u` in `base`, most significant first, as `__printk_int`
writes them. -/
def digitStr (base : Nat) (letbase : UInt8) (u : Nat) : List UInt8 :=
  (Nat.digits base u).reverse.map (digitChar letbase)

/-- The pad byte of `__printk_str`: `'0'` with `PAD_ZERO` in a positive
field, else a space. -/
def padChar (width : Int32) (flags : Nat) : UInt8 :=
  if width > 0 ∧ flags &&& PAD_ZERO ≠ 0 then ch '0' else ch ' '

/-! ## `__printk_str` -/

/-- **The field `__printk_str` prints**: the string, padded with the pad
byte up to `width`, on the left unless `PAD_RIGHT`. -/
theorem printkStr_eq (string : List UInt8) (width : Int32) (flags : Nat) (hlen : string.length < 2 ^ 31) :
    printkStr string width flags =
      if flags &&& PAD_RIGHT = 0 then
        List.replicate (width.toInt - string.length).toNat (padChar width flags) ++ string
      else string ++ List.replicate (width.toInt - string.length).toNat (padChar width flags) := by
  have hlt := Int32.toInt_lt width
  by_cases hw : width > 0
  · have hw' : 0 < width.toInt := Int32.lt_iff_toInt_lt.mp hw
    -- what is left of the field after the string
    have hleft : (if (string.length : Int) ≥ width.toInt then (0 : Int32) else width - Int32.ofNat string.length).toInt.toNat =
        (width.toInt - string.length).toNat := by
      split
      · rw [Int32.toInt_zero]
        omega
      · rw [Int32.toInt_sub, Int32.toInt_ofNat_of_lt hlen, Int.bmod_eq_of_le (by omega) (by omega)]
    simp only [printkStr, padChar, hw, true_and, if_true]
    rw [hleft]
  · have hw' : width.toInt ≤ 0 := by
      simp only [gt_iff_lt, Int32.lt_iff_toInt_lt, Int32.toInt_zero, not_lt] at hw
      exact hw
    have hnone : (width.toInt - string.length).toNat = width.toInt.toNat := by omega
    simp only [printkStr, padChar, hw, false_and, if_false, hnone]

/-! ## The digit loop -/

/-- **The digit loop writes the digits**, most significant first, below what
`s` held, and ends with `u = 0`, given passes enough for them. -/
theorem digitLoop_spec {base : Nat} (hb : 2 ≤ base) (letbase : UInt8) (fuel : Nat) (st : Digits)
    (hu : st.u < base ^ fuel) :
    digitLoop base letbase fuel st = ⟨st.s - (Nat.digits base st.u).length, digitStr base letbase st.u ++ st.str, 0⟩ := by
  induction fuel generalizing st with
  | zero =>
    obtain ⟨s, str, u⟩ := st
    have hu0 : u = 0 := by simpa using hu
    subst hu0
    simp [digitLoop, digitStr]
  | succ fuel ih =>
    obtain ⟨s, str, u⟩ := st
    by_cases hu0 : u = 0
    · subst hu0
      simp [digitLoop, digitStr]
    · -- one digit, then the loop on `u / base`
      have hdiv : u / base < base ^ fuel := by
        rw [Nat.div_lt_iff_lt_mul (by omega), ← Nat.pow_succ]
        exact hu
      rw [digitLoop, if_neg hu0, ih _ hdiv]
      simp only [digitStep, digitStr, Nat.digits_def' (by omega : 1 < base) (Nat.pos_of_ne_zero hu0),
        List.length_cons, List.reverse_cons, List.map_append, List.map_cons, List.map_nil, List.append_assoc,
        List.singleton_append, Digits.mk.injEq, and_true]
      omega

/-- A value's residue modulo `2 ^ 64`, the `unsigned long long` it becomes,
has its digits within 64 passes. -/
theorem toNat_emod_lt_pow {base : Nat} (hb : 2 ≤ base) (i : Int) : (i % 2 ^ 64).toNat < base ^ 64 := by
  have hlt : (i % 2 ^ 64).toNat < 2 ^ 64 := by omega
  exact lt_of_lt_of_le hlt (Nat.pow_le_pow_left hb 64)

/-! ## `__printk_int` -/

section PrintkInt

variable (sign : Bool) (width : Int32) (flags : Nat) (letbase : UInt8)

/-- **`__printk_int` of a nonzero value**: the digits of `u` below the NUL,
and the `-` of a negative signed decimal, printed first ahead of a zero
padding, else put in `print_buf` below the digits. -/
theorem printkInt_of_ne_zero {i : Int} (hi : i ≠ 0) {base : Nat} (hb : 2 ≤ base) :
    printkInt i base sign width flags letbase =
      let neg := sign && base == 10 && decide (i < 0)
      let u := if neg then (-i % 2 ^ 64).toNat else (i % 2 ^ 64).toNat
      let k := (Nat.digits base u).length
      if neg then
        if width ≠ 0 ∧ flags &&& PAD_ZERO ≠ 0 then
          ⟨PRINT_BUF_LEN - 1 - k, ch '-' :: printkStr (digitStr base letbase u) (width - 1) flags⟩
        else ⟨PRINT_BUF_LEN - 1 - k - 1, printkStr (ch '-' :: digitStr base letbase u) width flags⟩
      else ⟨PRINT_BUF_LEN - 1 - k, printkStr (digitStr base letbase u) width flags⟩ := by
  have hu : ∀ neg : Bool, (if neg then (-i % 2 ^ 64).toNat else (i % 2 ^ 64).toNat) < base ^ 64 := by
    intro neg
    cases neg
    · exact toNat_emod_lt_pow hb i
    · exact toNat_emod_lt_pow hb (-i)
  unfold printkInt
  dsimp only
  rw [if_neg hi, digitLoop_spec hb letbase 64 _ (hu _)]
  simp only [List.append_nil]

/-- Where `__printk_int` of a nonzero value that is not a negative signed
decimal ends `s`: below its `k` digits. -/
theorem printkInt_low_of_not_neg {i : Int} (hi : i ≠ 0) {base : Nat} (hb : 2 ≤ base)
    (hneg : (sign && base == 10 && decide (i < 0)) = false) :
    (printkInt i base sign width flags letbase).low = PRINT_BUF_LEN - 1 - (Nat.digits base (i % 2 ^ 64).toNat).length := by
  rw [printkInt_of_ne_zero sign width flags letbase hi hb]
  simp only [hneg, Bool.false_eq_true, if_false]

/-- **Decimal and hexadecimal conversions stay inside `print_buf`**: a value
of 64 bits has at most 20 digits, and a `-` makes 21. -/
theorem printkInt_low_nonneg (i : Int) {base : Nat} (hb : 10 ≤ base) :
    0 ≤ (printkInt i base sign width flags letbase).low := by
  by_cases hi : i = 0
  · simp [printkInt, hi]
  have hdigits : ∀ j : Int, (Nat.digits base (j % 2 ^ 64).toNat).length ≤ 20 := by
    intro j
    rw [Nat.digits_length_le_iff (by omega)]
    have hpow : 2 ^ 64 ≤ base ^ 20 := le_trans (by norm_num) (Nat.pow_le_pow_left hb 20)
    omega
  have hpos := hdigits i
  have hneg := hdigits (-i)
  rw [printkInt_of_ne_zero sign width flags letbase hi (by omega)]
  dsimp only
  unfold PRINT_BUF_LEN
  split_ifs <;> dsimp only <;> omega

/-- `%d` of `-1`, with no flags and no width. -/
theorem printkInt_low_nonneg_minus_one : 10 ≤ 10 ∧ 0 ≤ (printkInt (-1) 10 true 0 0 (ch 'a')).low :=
  ⟨le_rfl, printkInt_low_nonneg true 0 0 (ch 'a') (-1) le_rfl⟩

/-- Base 2 stays inside `print_buf` for a value below `2 ^ 63`, of 63
digits at most. -/
theorem printkInt_base_two_low_nonneg {i : Int} (h0 : 0 ≤ i) (hlt : i < 2 ^ 63) :
    0 ≤ (printkInt i 2 sign width flags letbase).low := by
  by_cases hi : i = 0
  · simp [printkInt, hi]
  rw [printkInt_low_of_not_neg sign width flags letbase hi le_rfl (by simp)]
  have hle : (Nat.digits 2 (i % 2 ^ 64).toNat).length ≤ 63 :=
    (Nat.digits_length_le_iff (by decide) _).mpr (by omega)
  unfold PRINT_BUF_LEN
  omega

/-- `%b` of `5`. -/
theorem printkInt_base_two_low_nonneg_five : 0 ≤ (5 : Int) ∧ (5 : Int) < 2 ^ 63 ∧ 0 ≤ (printkInt 5 2 true 0 0 (ch 'a')).low :=
  ⟨by decide, by decide, printkInt_base_two_low_nonneg true 0 0 (ch 'a') (by decide) (by decide)⟩

/-- **In base 2 a negative value writes `print_buf[-1]`**: it is the
`unsigned long long` `2 ^ 64 + i`, whose 64 binary digits are one more than
the 63 bytes below the NUL. -/
theorem printkInt_base_two_neg {i : Int} (hi : i < 0) (hmin : -2 ^ 63 ≤ i) :
    (printkInt i 2 sign width flags letbase).low = -1 := by
  rw [printkInt_low_of_not_neg sign width flags letbase (by omega) le_rfl (by simp)]
  -- `2 ^ 63 ≤ u < 2 ^ 64`: exactly 64 digits
  have hle : (Nat.digits 2 (i % 2 ^ 64).toNat).length ≤ 64 :=
    (Nat.digits_length_le_iff (by decide) _).mpr (by omega)
  have hgt : 63 < (Nat.digits 2 (i % 2 ^ 64).toNat).length :=
    (Nat.lt_digits_length_iff (by decide) _).mpr (by omega)
  unfold PRINT_BUF_LEN
  omega

end PrintkInt

/-! ## The union -/

/-- **A member read back just after a store reads the bytes stored.** -/
theorem readMember_storeMember (u v : UInt64) {n : Nat} (hn : n ≤ 8) (signed : Bool) :
    readMember (storeMember u n v) n signed = readMember v n signed := by
  have hdvd : 2 ^ (8 * n) ∣ 2 ^ 64 := Nat.pow_dvd_pow 2 (by omega)
  have hlow : (storeMember u n v).toNat % 2 ^ (8 * n) = v.toNat % 2 ^ (8 * n) := by
    rw [storeMember, Nat.toUInt64_eq, UInt64.toNat_ofNat', Nat.mod_mod_of_dvd _ hdvd, Nat.add_comm,
      Nat.add_mul_mod_self_right, Nat.mod_mod]
  simp only [readMember, hlow]

/-- A store of all eight bytes replaces the union. -/
theorem storeMember_eight (u v : UInt64) : storeMember u 8 v = v := by
  have hu : u.toNat / 2 ^ 64 = 0 := Nat.div_eq_of_lt u.toNat_lt
  apply UInt64.toNat_inj.mp
  rw [storeMember, show 8 * 8 = 64 from rfl, hu, Nat.zero_mul, Nat.zero_add, Nat.toUInt64_eq, UInt64.toNat_ofNat',
    Nat.mod_mod, Nat.mod_eq_of_lt v.toNat_lt]

/-- An eight-byte member reads the same signed or not. -/
theorem readMember_eight (u : UInt64) (signed : Bool) : readMember u 8 signed = readMember u 8 false := by
  simp only [readMember, beq_self_eq_true, Bool.or_true]

section Directive

variable (rest : List UInt8)

/-- The width's digits run up to the first byte that is not one, or to the
format's end. -/
theorem widthDigits_append (w : Int32) {ds : List UInt8} (hds : ∀ d ∈ ds, ch '0' ≤ d ∧ d ≤ ch '9')
    (hc : ∀ c ∈ rest.head?, ¬(ch '0' ≤ c ∧ c ≤ ch '9')) : ∃ w', widthDigits w (ds ++ rest) = (w', rest) := by
  induction ds generalizing w with
  | nil =>
    cases rest with
    | nil => exact ⟨w, rfl⟩
    | cons c rest => exact ⟨w, by simp [widthDigits, hc c rfl]⟩
  | cons d ds ih =>
    obtain ⟨w', hw'⟩ := ih (w * 10 + Int32.ofNat (d.toNat - (ch '0').toNat))
      fun e he => hds e (List.mem_cons_of_mem _ he)
    exact ⟨w', by rw [List.cons_append, widthDigits, if_pos (hds d List.mem_cons_self), hw']⟩

/-- The `0` flags take the leading zeros of the digits and leave digits. -/
theorem zeroFlags_append (f : Nat) {ds : List UInt8} (hds : ∀ d ∈ ds, ch '0' ≤ d ∧ d ≤ ch '9')
    (hc : ∀ c ∈ rest.head?, ¬(ch '0' ≤ c ∧ c ≤ ch '9')) :
    ∃ f' ds', (∀ d ∈ ds', ch '0' ≤ d ∧ d ≤ ch '9') ∧ zeroFlags f (ds ++ rest) = (f', ds' ++ rest) := by
  induction ds generalizing f with
  | nil =>
    refine ⟨f, [], fun d hd => absurd hd List.not_mem_nil, ?_⟩
    cases rest with
    | nil => rfl
    | cons c rest =>
      have hc0 : c ≠ ch '0' := fun h => hc c rfl (by subst h; decide)
      simp [zeroFlags, hc0]
  | cons d ds ih =>
    by_cases hd : d = ch '0'
    · obtain ⟨f', ds', hds', h⟩ := ih (f ||| PAD_ZERO) fun e he => hds e (List.mem_cons_of_mem _ he)
      exact ⟨f', ds', hds', by rw [List.cons_append, zeroFlags, if_pos hd, h]⟩
    · exact ⟨f, d :: ds, hds, by rw [List.cons_append, zeroFlags, if_neg hd]⟩

/-- A flags-and-width text: decimal digits, after a `-` or not; the leading
`0`s of the digits are the `0` flag. -/
def FieldText (pre : List UInt8) : Prop :=
  ∃ ds, (∀ d ∈ ds, ch '0' ≤ d ∧ d ≤ ch '9') ∧ (pre = ds ∨ pre = ch '-' :: ds)

/-- A byte of a flags-and-width text is a `-` or a digit. -/
theorem FieldText.mem {pre : List UInt8} (hpre : FieldText pre) {d : UInt8} (hd : d ∈ pre) :
    d = ch '-' ∨ (ch '0' ≤ d ∧ d ≤ ch '9') := by
  obtain ⟨ds, hds, rfl | rfl⟩ := hpre
  · exact .inr (hds d hd)
  · rcases List.mem_cons.mp hd with rfl | hd
    · exact .inl rfl
    · exact .inr (hds d hd)

/-- Without a `-` in front, the flags are the `0`s. -/
theorem parseFlags_of_head {fmt : List UInt8} (hdash : ∀ c ∈ fmt.head?, c ≠ ch '-') :
    parseFlags fmt = zeroFlags 0 fmt := by
  cases fmt with
  | nil => rfl
  | cons c fmt => rw [parseFlags, if_neg (hdash c rfl)]

/-- The flags of a flags-and-width text leave its width's digits. -/
theorem parseFlags_fieldText {pre : List UInt8} (hpre : FieldText pre)
    (hc : ∀ c ∈ rest.head?, ¬(ch '0' ≤ c ∧ c ≤ ch '9')) (hdash : ∀ c ∈ rest.head?, c ≠ ch '-') :
    ∃ f ds', (∀ d ∈ ds', ch '0' ≤ d ∧ d ≤ ch '9') ∧ parseFlags (pre ++ rest) = (f, ds' ++ rest) := by
  obtain ⟨ds, hds, rfl | rfl⟩ := hpre
  · cases pre with
    | nil =>
      rw [List.nil_append, parseFlags_of_head hdash]
      exact zeroFlags_append rest 0 (fun d (hd : d ∈ ([] : List UInt8)) => absurd hd List.not_mem_nil) hc
    | cons d ds =>
      -- a digit is not a `-`
      have hd : d ≠ ch '-' := fun h => by have := hds d List.mem_cons_self; subst h; revert this; decide
      rw [List.cons_append, parseFlags, if_neg hd, ← List.cons_append]
      exact zeroFlags_append rest 0 hds hc
  · rw [List.cons_append, parseFlags, if_pos rfl]
    exact zeroFlags_append rest PAD_RIGHT hds hc

/-- Without a `*` in front, the width is the digits' and takes no argument. -/
theorem parseWidth_of_head (ap : List UInt64) {fmt : List UInt8} (hstar : ∀ c ∈ fmt.head?, c ≠ ch '*') :
    parseWidth ap fmt = some ((widthDigits 0 fmt).1, ap, (widthDigits 0 fmt).2) := by
  cases fmt with
  | nil => rfl
  | cons c fmt => simp only [parseWidth, if_neg (hstar c rfl)]

/-- Digits up to a byte that is not `*`, or to the end, give the width, with
no argument. -/
theorem parseWidth_digits (ap : List UInt64) {ds : List UInt8} (hds : ∀ d ∈ ds, ch '0' ≤ d ∧ d ≤ ch '9')
    (hc : ∀ c ∈ rest.head?, ¬(ch '0' ≤ c ∧ c ≤ ch '9')) (hstar : ∀ c ∈ rest.head?, c ≠ ch '*') :
    ∃ w, parseWidth ap (ds ++ rest) = some (w, ap, rest) := by
  obtain ⟨w, hw⟩ := widthDigits_append rest 0 hds hc
  -- the first byte is a digit, or the first of `rest`
  have hstar' : ∀ c ∈ (ds ++ rest).head?, c ≠ ch '*' := by
    cases ds with
    | nil => exact hstar
    | cons d ds =>
      have hd : d ≠ ch '*' := fun h => by have := hds d List.mem_cons_self; subst h; revert this; decide
      intro c hc
      rw [List.cons_append, List.head?_cons, Option.mem_some_iff] at hc
      exact hc ▸ hd
  exact ⟨w, by rw [parseWidth_of_head ap hstar', hw]⟩

/-- **A flags-and-width text leads to its conversion**: the directive reads
it through, takes no argument for it, and converts with some flags and
width what follows it. -/
theorem directive_fieldText (strAt : UInt64 → List UInt8) (st : VState) {pre : List UInt8} (hpre : FieldText pre)
    (hc : ∀ c ∈ rest.head?, ¬(ch '0' ≤ c ∧ c ≤ ch '9')) (hdash : ∀ c ∈ rest.head?, c ≠ ch '-')
    (hstar : ∀ c ∈ rest.head?, c ≠ ch '*') :
    ∃ flags width, directive strAt st (pre ++ rest) = (do
      let (conv, fmt) ← parseConv rest
      let st ← convert strAt st width flags conv
      some (st, fmt)) := by
  obtain ⟨flags, ds, hds, hflags⟩ := parseFlags_fieldText rest hpre hc hdash
  obtain ⟨width, hwidth⟩ := parseWidth_digits rest st.ap hds hc hstar
  exact ⟨flags, width, by simp only [directive, hflags, hwidth, Option.bind_eq_bind, Option.bind_some]⟩

end Directive

/-! ## `%b` -/

/-- The loop with nothing left. -/
theorem vsprintfLoop_nil (strAt : UInt64 → List UInt8) (fuel : Nat) (st : VState) :
    vsprintfLoop strAt fuel st [] = some st := by
  cases fuel <;> rfl

/-- A directive in the loop. -/
theorem vsprintfLoop_directive (strAt : UInt64 → List UInt8) (fuel : Nat) (st : VState) {c : UInt8}
    (fmt : List UInt8) (hc : c ≠ ch '%') :
    vsprintfLoop strAt (fuel + 1) st (ch '%' :: c :: fmt) = (do
      let (st, fmt) ← directive strAt st (c :: fmt)
      vsprintfLoop strAt fuel st fmt) := by
  simp only [vsprintfLoop, if_true, hc, if_false]

/-- The first byte after the `%` of a flags-and-width text is not a `%`. -/
theorem FieldText.head_ne_percent {pre : List UInt8} (hpre : FieldText pre) {rest fmt : List UInt8} {c : UInt8}
    (hcons : pre ++ rest = c :: fmt) (hpct : ∀ c ∈ rest.head?, c ≠ ch '%') : c ≠ ch '%' := by
  cases pre with
  | nil =>
    rw [List.nil_append] at hcons
    exact hpct c (by rw [hcons]; rfl)
  | cons d ds =>
    obtain ⟨rfl, -⟩ := List.cons.inj hcons
    rcases hpre.mem List.mem_cons_self with rfl | hd
    · decide
    · rintro rfl
      revert hd
      decide

/-- **A format that starts with a directive**: the loop's first pass reads
the flags and width through, converts what follows them, and goes on with the
format after the conversion. -/
theorem vsprintf_fieldText (strAt : UInt64 → List UInt8) (out : Bool) {pre : List UInt8} (rest : List UInt8)
    (hpre : FieldText pre) (hne : pre ++ rest ≠ []) (hc : ∀ c ∈ rest.head?, ¬(ch '0' ≤ c ∧ c ≤ ch '9'))
    (hdash : ∀ c ∈ rest.head?, c ≠ ch '-') (hstar : ∀ c ∈ rest.head?, c ≠ ch '*')
    (hpct : ∀ c ∈ rest.head?, c ≠ ch '%') (ap : List UInt64) (u : UInt64) :
    ∃ flags width, vsprintf strAt out (ch '%' :: pre ++ rest) ap u = (do
      let (conv, fmt) ← parseConv rest
      let st ← convert strAt ⟨[], 0, ap, u, PRINT_BUF_LEN⟩ width flags conv
      vsprintfLoop strAt (pre ++ rest).length st fmt).map
        fun (st : VState) => if out then { st with out := st.out ++ [0] } else st := by
  obtain ⟨flags, width, hdir⟩ := directive_fieldText rest strAt ⟨[], 0, ap, u, PRINT_BUF_LEN⟩ hpre hc hdash hstar
  obtain ⟨c, fmt, hcons⟩ := List.exists_cons_of_ne_nil hne
  refine ⟨flags, width, ?_⟩
  unfold vsprintf
  rw [List.cons_append, List.length_cons, hcons,
    vsprintfLoop_directive strAt _ _ fmt (hpre.head_ne_percent hcons hpct), ← hcons, hdir]
  simp only [Option.bind_eq_bind, Option.bind_assoc, Option.bind_some]

/-- **`%b` of a negative `int` writes `print_buf[-1]`.** For every flags and
width written as digits, after a `-` or not, and every argument slot whose
`int` is negative, `vsprintf` of the directive `%…b` returns, and its
`__printk_int` wrote `print_buf[-1]`: the value is passed as the `long long`
`i < 0`, `u = i` is `2 ^ 64 + i`, and its 64 binary digits take the 63 bytes
below the NUL and one more. -/
theorem vsprintf_b_writes_below_print_buf (strAt : UInt64 → List UInt8) (out : Bool) {pre : List UInt8}
    (hpre : FieldText pre) {w : UInt64} (hw : 2 ^ 31 ≤ w.toNat % 2 ^ 32) (u : UInt64) :
    ∃ st, vsprintf strAt out (ch '%' :: pre ++ [ch 'b']) [w] u = some st ∧ st.low = -1 := by
  obtain ⟨flags, width, hrun⟩ := vsprintf_fieldText strAt out [ch 'b'] hpre (by simp)
    (by decide +kernel) (by decide +kernel) (by decide +kernel) (by decide +kernel) [w] u
  -- the `int` the slot holds, in base 2
  have hval : readMember (storeMember u 4 w) 4 true = ((w.toNat % 2 ^ 32 : Nat) : Int) - 2 ^ 32 := by
    rw [readMember_storeMember u w (by decide)]
    simp only [readMember, Bool.true_or, Bool.true_and, show 8 * 4 - 1 = 31 from rfl, decide_eq_true hw, if_true]
  have hlow := printkInt_base_two_neg true width flags (ch 'a') (i := ((w.toNat % 2 ^ 32 : Nat) : Int) - 2 ^ 32)
    (by omega) (by omega)
  have hconv : parseConv [ch 'b'] = some (.int ⟨4, 4, true, 2, true, ch 'a'⟩, []) := rfl
  rw [hrun, hconv]
  simp only [Option.bind_eq_bind, Option.bind_some, convert, vaArg, hval, vsprintfLoop_nil, Option.map_some]
  refine ⟨_, rfl, ?_⟩
  split <;> simp only [hlow, min_eq_right (show (-1 : Int) ≤ PRINT_BUF_LEN by simp)]

/-- `%08b` of `-1`: `print_buf[-1]` is written. -/
theorem vsprintf_b_writes_below_print_buf_minus_one :
    ∃ st, vsprintf (fun _ => []) false (ch '%' :: [ch '0', ch '8'] ++ [ch 'b']) [0xFFFFFFFFFFFFFFFF] 0 = some st ∧
      st.low = -1 :=
  vsprintf_b_writes_below_print_buf _ _ ⟨[ch '0', ch '8'], by decide +kernel, .inl rfl⟩ (by decide +kernel) 0

/-! ## A directive the format ends in -/

/-- **A directive cut off by the NUL is read past it.** For every flags and
width written as digits, after a `-` or not, then a length modifier `l`,
`ll`, `h`, `hh` or none, with at least one byte after the `%`, and every
arguments and union: the loop's check for the NUL looks only at the byte
after the `%`, so the `switch` reads the NUL, takes its `default` branch (or
the one of the modifier's nested `switch`), and `++format` steps over it:
`vsprintf` reads the format past its end. -/
theorem vsprintf_reads_past_nul (strAt : UInt64 → List UInt8) (out : Bool) {pre : List UInt8}
    (hpre : FieldText pre) {len : List UInt8}
    (hlen : len = [] ∨ len = [ch 'l'] ∨ len = [ch 'l', ch 'l'] ∨ len = [ch 'h'] ∨ len = [ch 'h', ch 'h'])
    (hne : pre ++ len ≠ []) (ap : List UInt64) (u : UInt64) :
    vsprintf strAt out (ch '%' :: pre ++ len) ap u = none := by
  -- a length modifier starts with none of the bytes the flags and width read
  obtain ⟨hc, hdash, hstar, hpct⟩ : (∀ c ∈ len.head?, ¬(ch '0' ≤ c ∧ c ≤ ch '9')) ∧
      (∀ c ∈ len.head?, c ≠ ch '-') ∧ (∀ c ∈ len.head?, c ≠ ch '*') ∧ (∀ c ∈ len.head?, c ≠ ch '%') := by
    rcases hlen with rfl | rfl | rfl | rfl | rfl <;> decide +kernel
  have hconv : parseConv len = none := by
    rcases hlen with rfl | rfl | rfl | rfl | rfl <;> rfl
  obtain ⟨flags, width, hrun⟩ := vsprintf_fieldText strAt out len hpre hne hc hdash hstar hpct ap u
  rw [hrun, hconv]
  rfl

/-- `"%-"`, with no arguments, is read past its NUL. -/
theorem vsprintf_reads_past_nul_dash : vsprintf (fun _ => []) false (ch '%' :: [ch '-'] ++ []) [] 0 = none :=
  vsprintf_reads_past_nul _ _ ⟨[], by decide +kernel, .inr rfl⟩ (.inl rfl) (by decide +kernel) [] 0

/-! ## Short conversions -/

/-- **A `%hu` prints the bytes of an earlier argument.** `"%lld %hu"` with
the arguments `-1, 5` and with `0, 5`: the `%hu` argument is `5` in both, but
the first run prints `18446744073709486085` for it, the six bytes of `-1`
the `%lld` left in the union above the `5`. -/
theorem vsprintf_hu_reads_earlier_argument :
    (vsprintf (fun _ => []) false ("%lld %hu".toList.map ch) [0xFFFFFFFFFFFFFFFF, 5] 0).map VState.out =
        some ("-1 18446744073709486085".toList.map ch) ∧
      (vsprintf (fun _ => []) false ("%lld %hu".toList.map ch) [0, 5] 0).map VState.out =
        some ("0 5".toList.map ch) := by
  decide

end Printk

end Mkros
