import Mathlib.Algebra.Group.Nat.Defs
/-!
# RISC-V virtual-address translation

The translation a RISC-V hart performs in the Sv39 and Sv48 modes, after the
privileged specification's "Virtual Address Translation Process": page tables
of 512 eight-byte entries, `levels` of them (3 for Sv39, 4 for Sv48), read from
a memory of 64-bit words. A PTE is valid with bit 0 (V); bits 1 to 3 (R, W, X)
make it a leaf, and all three clear make it a pointer to the next table; its
physical page number is bits 10 to 53; bits 54 to 63 are reserved.

The translation gives the physical address and the leaf PTE, whose bits the
access is checked against, or `none` for a page fault. The access check and
the update of the A and D bits are left out: they change no address.
-/

namespace Mkros

namespace RiscvPaging

/-- The memory the hart reads PTEs from: the word at each 8-aligned address. -/
abbrev Mem := Nat → UInt64

/-- Bit V. -/
def valid (pte : UInt64) : Bool := pte &&& 1 ≠ 0

/-- Bit R. -/
def readable (pte : UInt64) : Bool := pte &&& 2 ≠ 0

/-- Bit W. -/
def writable (pte : UInt64) : Bool := pte &&& 4 ≠ 0

/-- Bit X. -/
def executable (pte : UInt64) : Bool := pte &&& 8 ≠ 0

/-- The PPN field, bits 10 to 53. -/
def ppn (pte : UInt64) : Nat := (pte >>> 10).toNat % 2 ^ 44

/-- Field `i` of the virtual page number, bits `12 + 9 i` to `20 + 9 i`. -/
def vpn (va i : Nat) : Nat := va / 2 ^ (12 + 9 * i) % 512

/-- Step 3's page fault: an invalid entry, W without R, or a reserved bit. -/
def faults (pte : UInt64) : Bool :=
  !valid pte || (!readable pte && writable pte) || pte >>> 54 ≠ 0

/-- Step 4: R or X make the entry a leaf. -/
def isLeaf (pte : UInt64) : Bool := readable pte || executable pte

/-- Steps 2 to 8 from the table at `a` at level `i`. A leaf above level 0 maps
a superpage, whose PPN must be aligned to it. -/
def translateFrom (mem : Mem) (va : Nat) : Nat → Nat → Option (Nat × UInt64)
  | i, a =>
    let pte := mem (a + vpn va i * 8)
    if faults pte then none
    else if isLeaf pte then
      if ppn pte % 2 ^ (9 * i) ≠ 0 then none
      else some (ppn pte * 4096 + va % 2 ^ (12 + 9 * i), pte)
    else
      match i with
      | 0 => none
      | i + 1 => translateFrom mem va i (ppn pte * 4096)

/-- A 64-bit virtual address the mode translates: bits 63 down to the
highest bit the mode uses are all equal. -/
def Canonical (levels va : Nat) : Prop :=
  va < 2 ^ (12 + 9 * levels - 1) ∨ (2 ^ 64 - 2 ^ (12 + 9 * levels - 1) ≤ va ∧ va < 2 ^ 64)

instance (levels va : Nat) : Decidable (Canonical levels va) :=
  inferInstanceAs (Decidable (_ ∨ _))

/-- The translation with `levels` levels from the root table at `root`. -/
def translate (levels : Nat) (mem : Mem) (root va : Nat) : Option (Nat × UInt64) :=
  if Canonical levels va then translateFrom mem va (levels - 1) root else none

/-- The translation `satp` selects: MODE in bits 60 to 63 (8 for Sv39, 9 for
Sv48) and the root table's PPN in bits 0 to 43. Other modes are not
modelled. -/
def translateSatp (mem : Mem) (satp : UInt64) (va : Nat) : Option (Nat × UInt64) :=
  let root := satp.toNat % 2 ^ 44 * 4096
  match satp.toNat / 2 ^ 60 with
  | 8 => translate 3 mem root va
  | 9 => translate 4 mem root va
  | _ => none

/-! ## One step of the translation -/

section Step

variable {mem : Mem} {va : Nat}

/-- A valid pointer entry leads to the next table down. -/
theorem translateFrom_pointer {i a : Nat} (hf : faults (mem (a + vpn va (i + 1) * 8)) = false)
    (hl : isLeaf (mem (a + vpn va (i + 1) * 8)) = false) :
    translateFrom mem va (i + 1) a = translateFrom mem va i (ppn (mem (a + vpn va (i + 1) * 8)) * 4096) := by
  rw [translateFrom]
  simp only [hf, hl, Bool.false_eq_true, if_false]

/-- A leaf at level 0 maps the 4 KiB page. -/
theorem translateFrom_leaf_zero {a : Nat} (hf : faults (mem (a + vpn va 0 * 8)) = false)
    (hl : isLeaf (mem (a + vpn va 0 * 8)) = true) :
    translateFrom mem va 0 a =
      some (ppn (mem (a + vpn va 0 * 8)) * 4096 + va % 4096, mem (a + vpn va 0 * 8)) := by
  simp only [translateFrom]
  rw [if_neg (by rw [hf]; decide), if_pos hl]
  -- a level-0 page needs no alignment beyond its own
  rw [if_neg (by simp only [Nat.mul_zero, Nat.pow_zero, Nat.mod_one, ne_eq,
    not_true_eq_false, not_false_eq_true])]
  rfl

end Step

end RiscvPaging

end Mkros
