import Mathlib.Logic.Function.Basic
/-!
# `riscv.h` and `memlayout.h`

The page and page-table macros of `riscv.h` in the configuration the
`Makefile` builds (`-D__RISCV_SV48__`), and the addresses of `memlayout.h`.
A PTE is a `uint64_t`, so the PTE macros work on `UInt64`; addresses are
`Nat`.
-/

namespace Mkros

namespace Riscv

/-- `PGSIZE`. -/
def PGSIZE : Nat := 4096

/-- `PGSHIFT`. -/
def PGSHIFT : Nat := 12

/-- `PGROUNDUP(sz)`. -/
def PGROUNDUP (sz : Nat) : Nat := (sz + PGSIZE - 1) / PGSIZE * PGSIZE

/-- `PGROUNDDOWN(a)`. -/
def PGROUNDDOWN (a : Nat) : Nat := a / PGSIZE * PGSIZE

/-- `PTE_V`. -/
def PTE_V : UInt64 := (1 : UInt64) <<< (0 : UInt64)

/-- `PTE_R`. -/
def PTE_R : UInt64 := (1 : UInt64) <<< (1 : UInt64)

/-- `PTE_W`. -/
def PTE_W : UInt64 := (1 : UInt64) <<< (2 : UInt64)

/-- `PTE_X`. -/
def PTE_X : UInt64 := (1 : UInt64) <<< (3 : UInt64)

/-- `PTE_U`. -/
def PTE_U : UInt64 := (1 : UInt64) <<< (4 : UInt64)

/-- `PA2PTE(pa)`. -/
def PA2PTE (pa : Nat) : UInt64 := ((pa.toUInt64) >>> 12) <<< 10

/-- `PTE2PA(pte)`. -/
def PTE2PA (pte : UInt64) : Nat := ((pte >>> 10) <<< 12).toNat

/-- `PTE_FLAGS(pte)`. -/
def PTE_FLAGS (pte : UInt64) : UInt64 := pte &&& 0x3FF

/-- `PXMASK`. -/
def PXMASK : Nat := 0x1FF

/-- `PXSHIFT(level)`. -/
def PXSHIFT (level : Nat) : Nat := PGSHIFT + 9 * level

/-- `PX(level, va)`: the 9-bit index of `va` at `level`. -/
def PX (level va : Nat) : Nat := (va >>> PXSHIFT level) &&& PXMASK

/-- `MAX_VA` under `__RISCV_SV48__`. -/
def MAX_VA : Nat := 1 <<< (9 + 9 + 9 + 9 + 12 - 1)

/-- The first `level` of `walk` under `__RISCV_SV48__`. -/
def WALK_LEVEL : Nat := 3

/-- `SATP_SV39`. -/
def SATP_SV39 : UInt64 := (8 : UInt64) <<< (60 : UInt64)

/-- `MAKE_SATP(pagetable)`. -/
def MAKE_SATP (pagetable : Nat) : UInt64 := SATP_SV39 ||| (pagetable.toUInt64 >>> 12)

/-- `UART0`. -/
def UART0 : Nat := 0x10000000

/-- `VIRTIO0`. -/
def VIRTIO0 : Nat := 0x10001000

/-- `PLIC`. -/
def PLIC : Nat := 0x0c000000

/-- `TRAMPOLINE`. -/
def TRAMPOLINE : Nat := MAX_VA - PGSIZE

end Riscv

end Mkros
