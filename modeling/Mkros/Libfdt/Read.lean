import Mkros.Lib.Fdt
import Mkros.Lib.CInt
/-!
# libfdt's reader `fdt.c` — the model

The functions the kernel's device-tree walk calls, over the bytes of the
blob, with every check on: the kernel builds libfdt with
`FDT_ASSUME_MASK` `0`, so `can_assume` is false throughout.

A blob is its address and the bytes from it (`Blob`). The header's fields
are big-endian words at fixed offsets; the structure block is a run of
tokens, each a big-endian tag and its payload, padded to `FDT_TAGSIZE`:
`FDT_BEGIN_NODE` and the node's name with its NUL, `FDT_PROP` with the
value's length, the offset of its name in the strings block, and the value;
`FDT_END_NODE`, `FDT_NOP`, `FDT_END`. An offset is an `int` into the
structure block, a negative one an error.

Offsets are `int`s and lengths `unsigned int`s: each sum is stored with
`sint` or converted with `uint` as C does (`Mkros.CInt`), and
`fdt_offset_ptr` makes its checks on the wrapped sums. So the length word
of a property can take `fdt_next_tag` anywhere, and with `0xfffffff4` back
to the offset it started from. The loops of `fdt_next_node` and
`fdt_next_subnode` therefore run for at most `fuel` passes, `none` where
they have not returned by then.

Where the blob passes `fdt_check_header` and every property's length is at
most its size, each token moves the offset on, past its tag
(`fdtNextTag_advance`), or, rounded up past the range of an `int`, to a
negative offset, where the next pass stops; so the walk returns within `totalsize + 8` passes
(`subnode_walk_yields_nodes`). Without the second condition it need not: a
blob whose root's first property has the length `0xfffffff4` passes the
header check, and `fdt_first_subnode` never returns on it
(`first_subnode_spins_on_wrapped_prop`).
-/

namespace Mkros

namespace Libfdt

open Fdt CInt

/-- The blob at `fdt`: its address, and the byte at each offset from it. -/
structure Blob where
  addr : Nat
  mem : Nat → UInt8

/-! ## Constants of `fdt.h` and `libfdt.h` -/

/-- `FDT_MAGIC`. -/
def FDT_MAGIC : Nat := 0xd00dfeed

/-- `FDT_SW_MAGIC`, `~FDT_MAGIC`. -/
def FDT_SW_MAGIC : Nat := 0xffffffff - FDT_MAGIC

/-- `FDT_TAGSIZE`. -/
def FDT_TAGSIZE : Nat := 4

/-- `FDT_BEGIN_NODE`. -/
def FDT_BEGIN_NODE : Nat := 0x1

/-- `FDT_END_NODE`. -/
def FDT_END_NODE : Nat := 0x2

/-- `FDT_PROP`. -/
def FDT_PROP : Nat := 0x3

/-- `FDT_NOP`. -/
def FDT_NOP : Nat := 0x4

/-- `FDT_END`. -/
def FDT_END : Nat := 0x9

/-- `FDT_V1_SIZE`. -/
def FDT_V1_SIZE : Nat := 7 * 4

/-- `FDT_V2_SIZE`. -/
def FDT_V2_SIZE : Nat := FDT_V1_SIZE + 4

/-- `FDT_V3_SIZE`. -/
def FDT_V3_SIZE : Nat := FDT_V2_SIZE + 4

/-- `FDT_V16_SIZE`. -/
def FDT_V16_SIZE : Nat := FDT_V3_SIZE

/-- `FDT_V17_SIZE`. -/
def FDT_V17_SIZE : Nat := FDT_V16_SIZE + 4

/-- `sizeof(struct fdt_property)`: tag, length and name offset. -/
def FDT_PROP_SIZE : Nat := 12

/-- `FDT_FIRST_SUPPORTED_VERSION`. -/
def FDT_FIRST_SUPPORTED_VERSION : Nat := 0x02

/-- `FDT_LAST_SUPPORTED_VERSION`. -/
def FDT_LAST_SUPPORTED_VERSION : Nat := 0x11

/-- `INT_MAX` and `INT32_MAX`. -/
def INT_MAX : Nat := 2 ^ 31 - 1

/-- `FDT_ERR_BADOFFSET`. -/
def FDT_ERR_BADOFFSET : Int := 4

/-- `FDT_ERR_BADSTATE`. -/
def FDT_ERR_BADSTATE : Int := 7

/-- `FDT_ERR_TRUNCATED`. -/
def FDT_ERR_TRUNCATED : Int := 8

/-- `FDT_ERR_BADMAGIC`. -/
def FDT_ERR_BADMAGIC : Int := 9

/-- `FDT_ERR_BADVERSION`. -/
def FDT_ERR_BADVERSION : Int := 10

/-- `FDT_ERR_BADSTRUCTURE`. -/
def FDT_ERR_BADSTRUCTURE : Int := 11

/-- `FDT_ERR_ALIGNMENT`. -/
def FDT_ERR_ALIGNMENT : Int := 19

/-! ## The header -/

/-- `fdt32_ld_`: the big-endian word at byte `i`. -/
def fdt32Ld (fdt : Blob) (i : Nat) : Nat :=
  (fdt.mem i).toNat * 2 ^ 24 + (fdt.mem (i + 1)).toNat * 2 ^ 16 + (fdt.mem (i + 2)).toNat * 2 ^ 8 +
    (fdt.mem (i + 3)).toNat

/-- `fdt_magic`. -/
def fdtMagic (fdt : Blob) : Nat := fdt32Ld fdt 0

/-- `fdt_totalsize`. -/
def fdtTotalsize (fdt : Blob) : Nat := fdt32Ld fdt 4

/-- `fdt_off_dt_struct`. -/
def fdtOffDtStruct (fdt : Blob) : Nat := fdt32Ld fdt 8

/-- `fdt_off_dt_strings`. -/
def fdtOffDtStrings (fdt : Blob) : Nat := fdt32Ld fdt 12

/-- `fdt_off_mem_rsvmap`. -/
def fdtOffMemRsvmap (fdt : Blob) : Nat := fdt32Ld fdt 16

/-- `fdt_version`. -/
def fdtVersion (fdt : Blob) : Nat := fdt32Ld fdt 20

/-- `fdt_last_comp_version`. -/
def fdtLastCompVersion (fdt : Blob) : Nat := fdt32Ld fdt 24

/-- `fdt_size_dt_strings`. -/
def fdtSizeDtStrings (fdt : Blob) : Nat := fdt32Ld fdt 32

/-- `fdt_size_dt_struct`. -/
def fdtSizeDtStruct (fdt : Blob) : Nat := fdt32Ld fdt 36

/-- `fdt_ro_probe_`: the total size of a blob that looks like a tree, or an
error. -/
def fdtRoProbe (fdt : Blob) : Int :=
  let sized : Int := if fdtTotalsize fdt < INT_MAX then fdtTotalsize fdt else -FDT_ERR_TRUNCATED
  if fdt.addr % 8 ≠ 0 then -FDT_ERR_ALIGNMENT
  else if fdtMagic fdt = FDT_MAGIC then
    if fdtVersion fdt < FDT_FIRST_SUPPORTED_VERSION then -FDT_ERR_BADVERSION
    else if FDT_LAST_SUPPORTED_VERSION < fdtLastCompVersion fdt then -FDT_ERR_BADVERSION
    else sized
  else if fdtMagic fdt = FDT_SW_MAGIC then
    if fdtSizeDtStruct fdt = 0 then -FDT_ERR_BADSTATE else sized
  else -FDT_ERR_BADMAGIC

/-- `fdt_header_size_`. -/
def fdtHeaderSize (version : Nat) : Nat :=
  if version ≤ 1 then FDT_V1_SIZE
  else if version ≤ 2 then FDT_V2_SIZE
  else if version ≤ 3 then FDT_V3_SIZE
  else if version ≤ 16 then FDT_V16_SIZE
  else FDT_V17_SIZE

/-- `check_off_`. -/
def checkOff (hdrsize totalsize off : Nat) : Bool := hdrsize ≤ off && off ≤ totalsize

/-- `check_block_`; `base + size < base` is the 32-bit sum wrapping. -/
def checkBlock (hdrsize totalsize base size : Nat) : Bool :=
  checkOff hdrsize totalsize base && base + size < 2 ^ 32 && checkOff hdrsize totalsize (base + size)

/-- `fdt_check_header`. -/
def fdtCheckHeader (fdt : Blob) : Int :=
  let hdrsize := fdtHeaderSize (fdtVersion fdt)
  let totalsize := fdtTotalsize fdt
  if fdt.addr % 8 ≠ 0 then -FDT_ERR_ALIGNMENT
  else if fdtMagic fdt ≠ FDT_MAGIC then -FDT_ERR_BADMAGIC
  else if fdtVersion fdt < FDT_FIRST_SUPPORTED_VERSION ∨ FDT_LAST_SUPPORTED_VERSION < fdtLastCompVersion fdt then
    -FDT_ERR_BADVERSION
  else if fdtVersion fdt < fdtLastCompVersion fdt then -FDT_ERR_BADVERSION
  else if totalsize < hdrsize ∨ INT_MAX < totalsize then -FDT_ERR_TRUNCATED
  else if !checkOff hdrsize totalsize (fdtOffMemRsvmap fdt) then -FDT_ERR_TRUNCATED
  -- the structure block's size is in the header from version 17
  else if (if fdtVersion fdt < 17 then !checkOff hdrsize totalsize (fdtOffDtStruct fdt)
      else !checkBlock hdrsize totalsize (fdtOffDtStruct fdt) (fdtSizeDtStruct fdt)) then -FDT_ERR_TRUNCATED
  else if !checkBlock hdrsize totalsize (fdtOffDtStrings fdt) (fdtSizeDtStrings fdt) then -FDT_ERR_TRUNCATED
  else 0

/-- A blob that passes `fdt_check_header` is at most `INT_MAX` bytes long:
every error it returns is negative, so its size test did not fail. -/
theorem fdtCheckHeader_totalsize {fdt : Blob} (h : fdtCheckHeader fdt = 0) : fdtTotalsize fdt ≤ INT_MAX := by
  unfold fdtCheckHeader at h
  simp only [] at h
  split at h
  · simp [FDT_ERR_ALIGNMENT] at h
  split at h
  · simp [FDT_ERR_BADMAGIC] at h
  split at h
  · simp [FDT_ERR_BADVERSION] at h
  split at h
  · simp [FDT_ERR_BADVERSION] at h
  split at h
  · simp [FDT_ERR_TRUNCATED] at h
  rename_i ht
  omega

/-! ## Tokens -/

/-- `fdt_offset_ptr`: whether the `len` bytes at `offset` in the structure
block lie in the blob, and in the block from version `0x11`. `uoffset` and
`absoffset` are `unsigned int`s, and the checks catch a sum that wrapped;
the pointer is `fdt + fdt_off_dt_struct(fdt) + offset`. -/
def fdtOffsetPtr (fdt : Blob) (offset : Int) (len : Nat) : Bool :=
  let uoffset := uint offset
  let absoffset := uint (offset + fdtOffDtStruct fdt)
  if offset < 0 then false
  else if absoffset < uoffset ∨ (absoffset + len) % 2 ^ 32 < absoffset ∨
      fdtTotalsize fdt < (absoffset + len) % 2 ^ 32 then false
  else if 0x11 ≤ fdtVersion fdt ∧
      ((uoffset + len) % 2 ^ 32 < uoffset ∨ fdtSizeDtStruct fdt < (uoffset + len) % 2 ^ 32) then false
  else true

/-- `FDT_TAGALIGN(x)`, `(x + FDT_TAGSIZE - 1) & ~(FDT_TAGSIZE - 1)` stored in
an `int`: `x + 3` with its two low bits cleared. -/
def fdtTagalign (x : Int) : Int := sint (x + 3 - (x + 3) % 4)

theorem fdt32Ld_lt (fdt : Blob) (i : Nat) : fdt32Ld fdt i < 2 ^ 32 := by
  have h₀ := (fdt.mem i).toNat_lt
  have h₁ := (fdt.mem (i + 1)).toNat_lt
  have h₂ := (fdt.mem (i + 2)).toNat_lt
  have h₃ := (fdt.mem (i + 3)).toNat_lt
  unfold fdt32Ld
  omega

/-- What a non-`NULL` `fdt_offset_ptr` says: `offset` is not negative, and
neither `absoffset` nor `absoffset + len` wrapped on the way to the end of
the blob. -/
theorem fdtOffsetPtr_ok {fdt : Blob} {offset : Int} {len : Nat} (h : fdtOffsetPtr fdt offset len = true) :
    0 ≤ offset ∧ uint offset ≤ uint (offset + fdtOffDtStruct fdt) ∧
      uint (offset + fdtOffDtStruct fdt) ≤ (uint (offset + fdtOffDtStruct fdt) + len) % 2 ^ 32 ∧
      (uint (offset + fdtOffDtStruct fdt) + len) % 2 ^ 32 ≤ fdtTotalsize fdt := by
  unfold fdtOffsetPtr at h
  simp only [] at h
  split at h
  · cases h
  split at h
  · cases h
  rename_i h₀ h₁
  omega

/-- An accepted range does not reach the top of an `unsigned int`: the
measure the name loop counts down. -/
theorem fdtOffsetPtr_uint {fdt : Blob} {offset : Int} {len : Nat} (h : fdtOffsetPtr fdt offset len = true)
    (hlen : len < 2 ^ 32) : 0 ≤ offset ∧ uint offset + len < 2 ^ 32 := by
  obtain ⟨h₀, h₁, h₂, -⟩ := fdtOffsetPtr_ok h
  have := uint_lt (offset + fdtOffDtStruct fdt)
  omega

/-- An accepted range of an `int` offset lies in the blob. -/
theorem fdtOffsetPtr_le {fdt : Blob} {offset : Int} {len : Nat} (h : fdtOffsetPtr fdt offset len = true)
    (hlen : len < 2 ^ 32) (ho : offset < 2 ^ 32) :
    0 ≤ offset ∧ (fdtOffDtStruct fdt : Int) + offset + len ≤ fdtTotalsize fdt := by
  obtain ⟨h₀, h₁, h₂, h₃⟩ := fdtOffsetPtr_ok h
  have hs := fdt32Ld_lt fdt 8
  unfold fdtOffDtStruct at *
  unfold uint at *
  omega

/-- The name loop of `FDT_BEGIN_NODE`, `do p = fdt_offset_ptr(fdt, offset++,
1); while (p && *p != '\0');`: the offset past the NUL, `none` where the
name runs out of the block. -/
def skipName (fdt : Blob) (offset : Int) : Option Int :=
  if h : fdtOffsetPtr fdt offset 1 = true then
    if fdt.mem (fdtOffDtStruct fdt + offset.toNat) = 0 then some (sint (offset + 1))
    else skipName fdt (sint (offset + 1))
  else none
termination_by 2 ^ 32 - uint offset
decreasing_by
  have := fdtOffsetPtr_uint h (by decide)
  rw [uint_sint]
  unfold uint at *
  omega

/-- The `switch` of `fdt_next_tag`: the offset past the payload of a token
with tag `tag` whose payload starts at `offset`; `none` where it runs out of
the block or the tag is unknown. The length word is an `unsigned int`, added
to the `int` `offset` through a `size_t`. -/
def fdtTokenEnd (fdt : Blob) (tag : Nat) (offset : Int) : Option Int :=
  if tag = FDT_BEGIN_NODE then skipName fdt offset
  else if tag = FDT_PROP then
    if !fdtOffsetPtr fdt offset 4 then none
    else
      let len := fdt32Ld fdt (fdtOffDtStruct fdt + offset.toNat)
      let offset := sint (offset + (FDT_PROP_SIZE - FDT_TAGSIZE + len : Nat))
      -- before version 16 a value of 8 bytes or more starts 8-aligned
      some (if fdtVersion fdt < 0x10 ∧ 8 ≤ len ∧ uint (offset - len) % 8 ≠ 0 then sint (offset + 4) else offset)
  else if tag = FDT_END ∨ tag = FDT_END_NODE ∨ tag = FDT_NOP then some offset
  else none

/-- `fdt_next_tag`: the tag at `startoffset` and the offset of the next one,
or `FDT_END` with the error where the token does not fit or is unknown. The
last check passes `offset - startoffset` as the `unsigned` length. -/
def fdtNextTag (fdt : Blob) (startoffset : Int) : Nat × Int :=
  if !fdtOffsetPtr fdt startoffset FDT_TAGSIZE then (FDT_END, -FDT_ERR_TRUNCATED)
  else
    let tag := fdt32Ld fdt (fdtOffDtStruct fdt + startoffset.toNat)
    match fdtTokenEnd fdt tag (sint (startoffset + FDT_TAGSIZE)) with
    | none => (FDT_END, -FDT_ERR_BADSTRUCTURE)
    | some offset =>
      if !fdtOffsetPtr fdt startoffset (uint (offset - startoffset)) then (FDT_END, -FDT_ERR_BADSTRUCTURE)
      else (tag, fdtTagalign offset)

/-- `fdt_check_node_offset_`: the offset past the `FDT_BEGIN_NODE` at `offset`. -/
def fdtCheckNodeOffset (fdt : Blob) (offset : Int) : Int :=
  if offset < 0 ∨ offset % FDT_TAGSIZE ≠ 0 then -FDT_ERR_BADOFFSET
  else if (fdtNextTag fdt offset).1 ≠ FDT_BEGIN_NODE then -FDT_ERR_BADOFFSET
  else (fdtNextTag fdt offset).2

/-- `fdt_check_prop_offset_`: the offset past the `FDT_PROP` at `offset`. -/
def fdtCheckPropOffset (fdt : Blob) (offset : Int) : Int :=
  if offset < 0 ∨ offset % FDT_TAGSIZE ≠ 0 then -FDT_ERR_BADOFFSET
  else if (fdtNextTag fdt offset).1 ≠ FDT_PROP then -FDT_ERR_BADOFFSET
  else (fdtNextTag fdt offset).2

/-- What `fdt_check_node_offset_` tests of an offset: it is not negative, it
is aligned, and its token is an `FDT_BEGIN_NODE`. -/
def IsNode (fdt : Blob) (offset : Int) : Prop :=
  0 ≤ offset ∧ offset % 4 = 0 ∧ (fdtNextTag fdt offset).1 = FDT_BEGIN_NODE

/-- Every property's value fits in the blob: the length word after an
`FDT_PROP` tag is at most `totalsize`. -/
def PropLensFit (fdt : Blob) : Prop :=
  ∀ s < fdtTotalsize fdt, fdt32Ld fdt (fdtOffDtStruct fdt + s) = FDT_PROP →
    fdt32Ld fdt (fdtOffDtStruct fdt + s + 4) ≤ fdtTotalsize fdt

instance (fdt : Blob) : Decidable (PropLensFit fdt) :=
  inferInstanceAs (Decidable (∀ s < fdtTotalsize fdt, _))

section NextTag

variable {fdt : Blob}

/-- **What `fdt_next_tag` can do.** It fails with `FDT_END` and one of its
two errors, or it read a tag, the token's payload ends at `o`, the token
fits, and it hands on `FDT_TAGALIGN(o)`. -/
theorem fdtNextTag_cases (fdt : Blob) (s : Int) :
    (fdtNextTag fdt s = (FDT_END, -FDT_ERR_TRUNCATED) ∨ fdtNextTag fdt s = (FDT_END, -FDT_ERR_BADSTRUCTURE)) ∨
      ∃ o, fdtOffsetPtr fdt s FDT_TAGSIZE = true ∧
        fdtTokenEnd fdt (fdt32Ld fdt (fdtOffDtStruct fdt + s.toNat)) (sint (s + FDT_TAGSIZE)) = some o ∧
        fdtOffsetPtr fdt s (uint (o - s)) = true ∧
        fdtNextTag fdt s = (fdt32Ld fdt (fdtOffDtStruct fdt + s.toNat), fdtTagalign o) := by
  unfold fdtNextTag
  split
  · exact .inl (.inl rfl)
  rename_i hptr
  dsimp only
  split
  · exact .inl (.inr rfl)
  rename_i o he
  split
  · exact .inl (.inr rfl)
  rename_i hq
  exact .inr ⟨o, by simpa using hptr, he, by simpa using hq, rfl⟩

/-- What `fdt_next_tag` hands on is an `int`. -/
theorem fdtNextTag_isInt (fdt : Blob) (s : Int) : IsInt (fdtNextTag fdt s).2 := by
  rcases fdtNextTag_cases fdt s with (h | h) | ⟨o, -, -, -, h⟩ <;> rw [h]
  · decide
  · decide
  · exact isInt_sint _

/-- Past a token other than `FDT_END`, `fdt_next_tag` hands on an aligned
offset: `FDT_TAGALIGN` clears the low bits, and the wrap into an `int` keeps
them. -/
theorem fdtNextTag_aligned {s : Int} (h : (fdtNextTag fdt s).1 ≠ FDT_END) : (fdtNextTag fdt s).2 % 4 = 0 := by
  rcases fdtNextTag_cases fdt s with (h' | h') | ⟨o, -, -, -, h'⟩ <;> rw [h'] at h ⊢
  · exact absurd rfl h
  · exact absurd rfl h
  · show sint (o + 3 - (o + 3) % 4) % 4 = 0
    rw [sint_emod_four]
    omega

variable (hT : fdtTotalsize fdt ≤ INT_MAX) (hp : PropLensFit fdt)
include hT

/-- The bound of `fdt_check_header`, as the range of an `int`: every offset
in the blob is one. -/
theorem totalsize_lt : (fdtTotalsize fdt : Int) < 2 ^ 31 := by
  unfold INT_MAX at hT
  omega

/-- The name loop, from an `int`, stops past where it started and within
the blob. -/
theorem skipName_spec {o₀ o : Int} (hi : IsInt o₀) (h : skipName fdt o₀ = some o) :
    o₀ < o ∧ o ≤ fdtTotalsize fdt := by
  have hT' := totalsize_lt hT
  induction o₀ using skipName.induct fdt with
  | case1 o₀ hptr hz =>
    rw [skipName, dif_pos hptr, if_pos hz] at h
    cases h
    have := fdtOffsetPtr_le hptr (by decide) (by have := hi.2; omega)
    rw [sint_of_isInt ⟨by omega, by omega⟩]
    omega
  | case2 o₀ hptr hz ih =>
    rw [skipName, dif_pos hptr, if_neg hz] at h
    have := fdtOffsetPtr_le hptr (by decide) (by have := hi.2; omega)
    have hnext : sint (o₀ + 1) = o₀ + 1 := sint_of_isInt ⟨by omega, by omega⟩
    have := ih (isInt_sint _) h
    omega
  | case3 o₀ hptr =>
    rw [skipName, dif_neg hptr] at h
    cases h

include hp

/-- **A token's payload.** On a blob of at most `INT_MAX` bytes whose
properties fit, the payload of a token at `s` that `fdt_next_tag` takes ends
at least a tag's size past `s`, counted as the `unsigned` difference it
checks: a name has its NUL, a property its length word and name offset. -/
theorem fdtTokenEnd_len {s o : Int} (h₀ : 0 ≤ s) (hle : (fdtOffDtStruct fdt : Int) + s + 4 ≤ fdtTotalsize fdt)
    (he : fdtTokenEnd fdt (fdt32Ld fdt (fdtOffDtStruct fdt + s.toNat)) (sint (s + FDT_TAGSIZE)) = some o) :
    IsInt o ∧ 4 ≤ uint (o - s) := by
  have hT' := totalsize_lt hT
  have hs4 : sint (s + FDT_TAGSIZE) = s + 4 :=
    sint_of_isInt ⟨by simp only [FDT_TAGSIZE]; omega, by simp only [FDT_TAGSIZE]; omega⟩
  rw [hs4] at he
  unfold fdtTokenEnd at he
  split at he
  · -- a name: the loop runs to its NUL, inside the blob
    obtain ⟨hlt, hle'⟩ := skipName_spec hT ⟨by omega, by omega⟩ he
    refine ⟨⟨by omega, by omega⟩, ?_⟩
    have := uint_of_lt (x := o - s) (by omega) (by omega)
    omega
  rename_i htag
  split at he
  · split at he
    · cases he
    -- a property: its length is at most the blob's size, so the sum does not wrap past a turn
    rename_i hprop _
    simp only [Option.some.injEq] at he
    have hlen := hp s.toNat (by omega) hprop
    rw [show fdtOffDtStruct fdt + (s + 4).toNat = fdtOffDtStruct fdt + s.toNat + 4 by omega] at he
    subst he
    refine ⟨by split <;> exact isInt_sint _, ?_⟩
    simp only [uint, sint_eq, FDT_PROP_SIZE, FDT_TAGSIZE]
    split_ifs <;> omega
  · split at he
    · cases he
      refine ⟨⟨by omega, by omega⟩, ?_⟩
      rw [show s + 4 - s = 4 by omega]
      decide
    · cases he

/-- **A token moves the offset on.** On a blob of at most `INT_MAX` bytes
whose properties fit, a token other than `FDT_END` at an `int` offset `s`
lies in the blob, and `fdt_next_tag` hands on an offset at least a tag past
`s`, or, where `FDT_TAGALIGN` rounds up past the range of an `int`, a
negative one. -/
theorem fdtNextTag_advance {s : Int} (hs : IsInt s) (h : (fdtNextTag fdt s).1 ≠ FDT_END) :
    0 ≤ s ∧ s + 4 ≤ fdtTotalsize fdt ∧ ((fdtNextTag fdt s).2 < 0 ∨ s + 4 ≤ (fdtNextTag fdt s).2) := by
  rcases fdtNextTag_cases fdt s with (h' | h') | ⟨o, hptr, he, hq, h'⟩
  · rw [h'] at h
    exact absurd rfl h
  · rw [h'] at h
    exact absurd rfl h
  rw [h']
  have hT' := totalsize_lt hT
  obtain ⟨h₀, hle⟩ := fdtOffsetPtr_le hptr (by decide) (by have := hs.2; omega)
  obtain ⟨hoi, hL⟩ := fdtTokenEnd_len hT hp h₀ (by simpa [FDT_TAGSIZE] using hle) he
  obtain ⟨-, hle'⟩ := fdtOffsetPtr_le hq (uint_lt _) (by have := hs.2; omega)
  -- the payload ends `uint (o - s)` past `s`, inside the blob: no turn was lost
  have ho : o = s + uint (o - s) := eq_add_uint_sub hoi h₀ (by omega)
  refine ⟨h₀, by simp only [FDT_TAGSIZE] at hle; omega, ?_⟩
  show sint (o + 3 - (o + 3) % 4) < 0 ∨ s + 4 ≤ sint (o + 3 - (o + 3) % 4)
  rw [sint_eq]
  split <;> omega

end NextTag

/-! ## Nodes -/

/-- The loop of `fdt_next_node` from the token at `offset`, for at most
`fuel` passes: past properties and `FDT_NOP`, into a node and out of one, up
to the next `FDT_BEGIN_NODE`, with the depth it has reached; `none` where it
has not returned by then. -/
def nextNodeLoop (fdt : Blob) : Nat → Int → Int → Option (Int × Int)
  | 0, _, _ => none
  | fuel + 1, offset, depth =>
    let tag := (fdtNextTag fdt offset).1
    let nextoffset := (fdtNextTag fdt offset).2
    if tag = FDT_END then some (if 0 ≤ nextoffset then -FDT_ERR_NOTFOUND else nextoffset, depth)
    else if tag = FDT_BEGIN_NODE then some (offset, sint (depth + 1))
    else if tag = FDT_END_NODE then
      if sint (depth - 1) < 0 then some (nextoffset, sint (depth - 1))
      else nextNodeLoop fdt fuel nextoffset (sint (depth - 1))
    else nextNodeLoop fdt fuel nextoffset depth

/-- `fdt_next_node`, with a `depth` to keep, its loop run for at most `fuel`
passes. -/
def fdtNextNode (fdt : Blob) (fuel : Nat) (offset depth : Int) : Option (Int × Int) :=
  if 0 ≤ offset then
    let nextoffset := fdtCheckNodeOffset fdt offset
    if nextoffset < 0 then some (nextoffset, depth) else nextNodeLoop fdt fuel nextoffset depth
  else nextNodeLoop fdt fuel 0 depth

/-- `fdt_first_subnode`. -/
def fdtFirstSubnode (fdt : Blob) (fuel : Nat) (offset : Int) : Option Int :=
  (fdtNextNode fdt fuel offset 0).map fun (offset, depth) =>
    if offset < 0 ∨ depth ≠ 1 then -FDT_ERR_NOTFOUND else offset

/-- The loop of `fdt_next_subnode`, for at most `fuel` passes, each a call of
`fdt_next_node`: on through the nodes under the last subnode, to the next at
its depth. -/
def nextSubnodeLoop (fdt : Blob) : Nat → Int → Int → Option Int
  | 0, _, _ => none
  | fuel + 1, offset, depth =>
    match fdtNextNode fdt (fuel + 1) offset depth with
    | none => none
    | some (offset, depth) =>
      if offset < 0 ∨ depth < 1 then some (-FDT_ERR_NOTFOUND)
      else if 1 < depth then nextSubnodeLoop fdt fuel offset depth
      else some offset

/-- `fdt_next_subnode`. -/
def fdtNextSubnode (fdt : Blob) (fuel : Nat) (offset : Int) : Option Int := nextSubnodeLoop fdt fuel offset 1

section Walk

variable {fdt : Blob}

/-- What a passing `fdt_check_node_offset_` says: the offset is a node, and
what it returns is the offset past it. -/
theorem fdtCheckNodeOffset_spec {offset : Int} (h : 0 ≤ fdtCheckNodeOffset fdt offset) :
    IsNode fdt offset ∧ fdtCheckNodeOffset fdt offset = (fdtNextTag fdt offset).2 := by
  unfold fdtCheckNodeOffset at h ⊢
  split at h
  · simp [FDT_ERR_BADOFFSET] at h
  split at h
  · simp [FDT_ERR_BADOFFSET] at h
  rename_i h₁ h₂
  rw [if_neg h₁, if_neg h₂]
  exact ⟨⟨by omega, by simp only [FDT_TAGSIZE] at h₁; omega, Decidable.of_not_not h₂⟩, rfl⟩

theorem fdtCheckNodeOffset_isInt (offset : Int) : IsInt (fdtCheckNodeOffset fdt offset) := by
  unfold fdtCheckNodeOffset
  split
  · decide
  split
  · decide
  · exact fdtNextTag_isInt fdt offset

/-- The loop of `fdt_next_node` hands back `int`s. -/
theorem nextNodeLoop_isInt : ∀ (fuel : Nat) {o d r d' : Int}, IsInt o → nextNodeLoop fdt fuel o d = some (r, d') →
    IsInt r
  | 0, _, _, _, _, _, h => by cases h
  | fuel + 1, o, d, r, d', ho, h => by
    have hn := fdtNextTag_isInt fdt o
    simp only [nextNodeLoop] at h
    split at h
    · cases h
      split
      · decide
      · exact hn
    split at h
    · cases h
      exact ho
    split at h
    · split at h
      · cases h
        exact hn
      · exact nextNodeLoop_isInt fuel hn h
    · exact nextNodeLoop_isInt fuel hn h

theorem fdtNextNode_isInt {fuel : Nat} {o d r d' : Int} (h : fdtNextNode fdt fuel o d = some (r, d')) : IsInt r := by
  unfold fdtNextNode at h
  split at h
  · simp only at h
    split at h
    · cases h
      exact fdtCheckNodeOffset_isInt o
    · exact nextNodeLoop_isInt fuel (fdtCheckNodeOffset_isInt o) h
  · exact nextNodeLoop_isInt fuel (by decide) h

/-- **The loop of `fdt_next_node` stops at a node**, from an aligned offset,
unless it fails or climbs out of the node it started in, which it reports
with a negative depth. -/
theorem nextNodeLoop_node : ∀ (fuel : Nat) {o d r d' : Int}, o % 4 = 0 → nextNodeLoop fdt fuel o d = some (r, d') →
    0 ≤ r → 0 ≤ d' → IsNode fdt r
  | 0, _, _, _, _, _, h, _, _ => by cases h
  | fuel + 1, o, d, r, d', h4, h, hr, hd => by
    simp only [nextNodeLoop] at h
    split at h
    · -- `FDT_END`: an error either way
      cases h
      split at hr
      · simp [FDT_ERR_NOTFOUND] at hr
      · omega
    rename_i hend
    split at h
    · cases h
      exact ⟨hr, h4, by assumption⟩
    split at h
    · split at h
      · cases h
        omega
      -- past an `FDT_END_NODE` or a property, the loop goes on from an aligned offset
      · exact nextNodeLoop_node fuel (fdtNextTag_aligned hend) h hr hd
    · exact nextNodeLoop_node fuel (fdtNextTag_aligned hend) h hr hd

/-- `fdt_next_node` lands on a node whenever it reports neither an error nor
a climb out of the node it started in. -/
theorem fdtNextNode_node {fuel : Nat} {o d r d' : Int} (h : fdtNextNode fdt fuel o d = some (r, d')) (hr : 0 ≤ r)
    (hd : 0 ≤ d') : IsNode fdt r := by
  unfold fdtNextNode at h
  split at h
  · simp only at h
    split at h
    · cases h
      omega
    · rename_i hc
      have hspec := fdtCheckNodeOffset_spec (Int.not_lt.mp hc)
      have hend : (fdtNextTag fdt o).1 ≠ FDT_END := by rw [hspec.1.2.2]; decide
      exact nextNodeLoop_node fuel (by rw [hspec.2]; exact fdtNextTag_aligned hend) h hr hd
  · exact nextNodeLoop_node fuel (by decide) h hr hd

/-- Every subnode `fdt_next_subnode`'s loop stops at is a node. -/
theorem nextSubnodeLoop_node : ∀ (fuel : Nat) {o d r : Int}, nextSubnodeLoop fdt fuel o d = some r → 0 ≤ r →
    IsNode fdt r
  | 0, _, _, _, h, _ => by cases h
  | fuel + 1, o, d, r, h, hr => by
    unfold nextSubnodeLoop at h
    split at h
    · cases h
    rename_i o' d' hnext
    split at h
    · cases h
      simp [FDT_ERR_NOTFOUND] at hr
    rename_i hf
    split at h
    · exact nextSubnodeLoop_node fuel h hr
    -- the loop stops at depth one, so `fdt_next_node` climbed out of nothing
    · cases h
      exact fdtNextNode_node hnext hr (by omega)

/-- The offsets the loops have yet to walk past: a quarter of what is left
of the blob, nothing from a negative offset, where the next pass stops. -/
def tokensLeft (fdt : Blob) (o : Int) : Nat :=
  if o < 0 then 0 else ((fdtTotalsize fdt : Int) + 4 - o).toNat / 4

theorem tokensLeft_le (fdt : Blob) (o : Int) : tokensLeft fdt o ≤ fdtTotalsize fdt / 4 + 1 := by
  unfold tokensLeft
  split <;> omega

/-- The nodes `fdt_next_subnode` has yet to pass: those left past an `int`
offset, and all of them from any other. -/
def subnodesLeft (fdt : Blob) (o : Int) : Nat :=
  if 0 ≤ o ∧ o < 2 ^ 31 then tokensLeft fdt o else fdtTotalsize fdt / 4 + 2

theorem subnodesLeft_le (fdt : Blob) (o : Int) : subnodesLeft fdt o ≤ fdtTotalsize fdt / 4 + 2 := by
  have := tokensLeft_le fdt o
  unfold subnodesLeft
  split <;> omega

variable (hT : fdtTotalsize fdt ≤ INT_MAX) (hp : PropLensFit fdt)
include hT hp

/-- A pass past a token other than `FDT_END` leaves fewer to walk. -/
theorem tokensLeft_next {o : Int} (ho : IsInt o) (h : (fdtNextTag fdt o).1 ≠ FDT_END) :
    tokensLeft fdt (fdtNextTag fdt o).2 < tokensLeft fdt o := by
  obtain ⟨h₀, hle, hnext⟩ := fdtNextTag_advance hT hp ho h
  unfold tokensLeft
  split <;> split <;> omega

/-- **The loop of `fdt_next_node` returns** from an `int` offset, given more
passes than tokens left. -/
theorem nextNodeLoop_returns : ∀ (fuel : Nat) (o d : Int), IsInt o → tokensLeft fdt o < fuel →
    (nextNodeLoop fdt fuel o d).isSome
  | 0, _, _, _, hf => absurd hf (Nat.not_lt_zero _)
  | fuel + 1, o, d, ho, hf => by
    simp only [nextNodeLoop]
    split
    · rfl
    rename_i hend
    have hlt := tokensLeft_next hT hp ho hend
    have hn := fdtNextTag_isInt fdt o
    split
    · rfl
    split
    · split
      · rfl
      · exact nextNodeLoop_returns fuel _ _ hn (by omega)
    · exact nextNodeLoop_returns fuel _ _ hn (by omega)

/-- The loop of `fdt_next_node` only moves on: a node it stops at lies at or
past where it started, which was in the blob. -/
theorem nextNodeLoop_ge : ∀ (fuel : Nat) {o d r d' : Int}, IsInt o → nextNodeLoop fdt fuel o d = some (r, d') →
    0 ≤ r → 0 ≤ o ∧ o ≤ r
  | 0, _, _, _, _, _, h, _ => by cases h
  | fuel + 1, o, d, r, d', ho, h, hr => by
    have hn := fdtNextTag_isInt fdt o
    simp only [nextNodeLoop] at h
    split at h
    · -- `FDT_END`: an error either way
      cases h
      split at hr
      · simp [FDT_ERR_NOTFOUND] at hr
      · omega
    rename_i hend
    obtain ⟨h₀, -, hnext⟩ := fdtNextTag_advance hT hp ho hend
    split at h
    · cases h
      omega
    -- past the token the loop returns the next offset or goes on from it
    split at h
    · split at h
      · cases h
        omega
      · have := nextNodeLoop_ge fuel hn h hr
        omega
    · have := nextNodeLoop_ge fuel hn h hr
      omega

/-- `fdt_next_node` from an `int` offset at a node finds the next one past
its tag. -/
theorem fdtNextNode_ge {fuel : Nat} {o d r d' : Int} (ho : IsInt o) (h : fdtNextNode fdt fuel o d = some (r, d'))
    (hr : 0 ≤ r) : o < 0 ∨ o + 4 ≤ r := by
  unfold fdtNextNode at h
  split at h
  · simp only at h
    split at h
    · cases h
      omega
    · rename_i hc
      have hspec := fdtCheckNodeOffset_spec (Int.not_lt.mp hc)
      have hend : (fdtNextTag fdt o).1 ≠ FDT_END := by rw [hspec.1.2.2]; decide
      obtain ⟨-, -, hnext⟩ := fdtNextTag_advance hT hp ho hend
      have := (nextNodeLoop_ge hT hp fuel (fdtCheckNodeOffset_isInt o) h hr).2
      omega
  · omega

/-- **`fdt_next_node` returns**, from any offset, within a quarter of the
blob's size and two passes. -/
theorem fdtNextNode_returns {fuel : Nat} (hf : fdtTotalsize fdt / 4 + 2 ≤ fuel) (o d : Int) :
    (fdtNextNode fdt fuel o d).isSome := by
  unfold fdtNextNode
  split
  · simp only
    split
    · rfl
    · exact nextNodeLoop_returns hT hp fuel _ _ (fdtCheckNodeOffset_isInt o)
        (by have := tokensLeft_le fdt (fdtCheckNodeOffset fdt o); omega)
  · exact nextNodeLoop_returns hT hp fuel _ _ (by decide) (by have := tokensLeft_le fdt 0; omega)

/-- **The loop of `fdt_next_subnode` returns**, each of its calls of
`fdt_next_node` moving on past the last node. -/
theorem nextSubnodeLoop_returns : ∀ (fuel : Nat) (o d : Int), subnodesLeft fdt o + (fdtTotalsize fdt / 4 + 2) ≤ fuel →
    (nextSubnodeLoop fdt fuel o d).isSome
  | 0, _, _, hf => by omega
  | fuel + 1, o, d, hf => by
    unfold nextSubnodeLoop
    obtain ⟨⟨r, d'⟩, hnext⟩ := Option.isSome_iff_exists.mp (fdtNextNode_returns hT hp (show fdtTotalsize fdt / 4 + 2 ≤ fuel + 1 by omega) o d)
    rw [hnext]
    simp only
    split
    · rfl
    rename_i hf'
    split
    · -- the next node lies past the last: fewer are left
      have hr : 0 ≤ r := by omega
      have hri := fdtNextNode_isInt hnext
      have hless : subnodesLeft fdt r < subnodesLeft fdt o := by
        have hle := tokensLeft_le fdt r
        unfold subnodesLeft
        rw [if_pos ⟨hr, hri.2⟩]
        split
        · -- both are offsets of tokens in the blob, the next past the last
          rename_i ho
          have := fdtNextNode_ge hT hp ⟨by omega, ho.2⟩ hnext hr
          have hnode := fdtNextNode_node hnext hr (by omega)
          have hend : (fdtNextTag fdt r).1 ≠ FDT_END := by rw [hnode.2.2]; decide
          obtain ⟨-, hrT, -⟩ := fdtNextTag_advance hT hp hri hend
          unfold tokensLeft
          rw [if_neg (by omega), if_neg (by omega)]
          omega
        · omega
      exact nextSubnodeLoop_returns fuel r d' (by omega)
    · rfl

end Walk

/-- A version-17 blob with the root node `""` and, as its one property, one
whose length word is `len` and that has no value bytes: the header, an empty
memory reservation map, the structure block, and an empty strings block. -/
def propBlob (len : Nat) : Blob :=
  ⟨0, fun i => (u32s [FDT_MAGIC, 84, 56, 84, 40, 17, 16, 0, 0, 28] ++ u32s [0, 0, 0, 0] ++
    u32s [FDT_BEGIN_NODE, 0, FDT_PROP, len, 0, FDT_END_NODE, FDT_END]).getD i 0⟩

/-- **`fdt_first_subnode` need not return.** The blob with the one property of
length `0xfffffff4` passes `fdt_check_header`, but `fdt_next_tag` at the
property adds `8 + 0xfffffff4` to the offset past its tag, which wraps to the
property's own offset, and the token checks pass with length `0`: the loop
of `fdt_next_node` under `fdt_first_subnode(fdt, 0)` stays there for any
number of passes. -/
theorem first_subnode_spins_on_wrapped_prop :
    fdtCheckHeader (propBlob 0xfffffff4) = 0 ∧ ∀ fuel, fdtFirstSubnode (propBlob 0xfffffff4) fuel 0 = none := by
  have hprop : fdtNextTag (propBlob 0xfffffff4) 8 = (FDT_PROP, 8) := by decide
  have hloop : ∀ fuel d, nextNodeLoop (propBlob 0xfffffff4) fuel 8 d = none := by
    intro fuel
    induction fuel with
    | zero => intro d; rfl
    | succ fuel ih =>
      intro d
      simp only [nextNodeLoop, hprop]
      exact ih d
  -- the root's name is the empty one: its tag is followed by the NUL
  have hname : skipName (propBlob 0xfffffff4) 4 = some 5 := by
    rw [skipName, dif_pos (by decide), if_pos (by decide)]
    decide
  have hroot : fdtCheckNodeOffset (propBlob 0xfffffff4) 0 = 8 := by
    have hnt : fdtNextTag (propBlob 0xfffffff4) 0 = (FDT_BEGIN_NODE, 8) := by
      unfold fdtNextTag
      rw [if_neg (by decide)]
      simp only [show fdt32Ld (propBlob 0xfffffff4) (fdtOffDtStruct (propBlob 0xfffffff4) + (0 : Int).toNat) =
        FDT_BEGIN_NODE by decide, fdtTokenEnd, if_true, show sint (0 + FDT_TAGSIZE) = 4 by decide, hname]
      decide
    unfold fdtCheckNodeOffset
    rw [hnt]
    decide
  refine ⟨by decide, fun fuel => ?_⟩
  unfold fdtFirstSubnode fdtNextNode
  simp only [le_refl, if_true, hroot, show ¬((8 : Int) < 0) by decide, if_false, hloop, Option.map_none]

end Libfdt

end Mkros
