import Mathlib.Algebra.Group.Nat.Defs
/-!
# A flattened device tree, as libfdt reads it

A blob that passes the header check is, to its reader, a tree of nodes: each
has a name, its properties in blob order and its subnodes in blob order, and
a property's value is a string of bytes. This is what libfdt hands a parser;
the offsets it works with are left out.

The readers here are libfdt's: the first property of a name, the big-endian
32-bit cells of a value, the C string a value holds, `#address-cells` and
`#size-cells` with their defaults, and the phandle. A reader that would go
past the end of a value returns `none`.
-/

namespace Mkros

namespace Fdt

/-- A node of the tree. -/
structure Node where
  name : String
  props : List (String × List UInt8)
  children : List Node

/-- The value of the node's first property called `p`, as `fdt_getprop`
finds it. -/
def Node.getprop (n : Node) (p : String) : Option (List UInt8) :=
  (n.props.find? fun q => q.1 == p).map Prod.snd

/-- The big-endian number the bytes spell. -/
def beNat (bs : List UInt8) : Nat := bs.foldl (fun acc b => acc * 256 + b.toNat) 0

/-- Cell `i` of a value, `fdt32_to_cpu(p[i])`; `none` where the cell would
end past the value. -/
def cell (bs : List UInt8) (i : Nat) : Option Nat :=
  if 4 * i + 4 ≤ bs.length then some (beNat ((bs.drop (4 * i)).take 4)) else none

/-- The length of the C string a value starts with; `none` where the value
holds no NUL, so that a C reader runs past its end. -/
def strlen (bs : List UInt8) : Option Nat := bs.findIdx? (· = 0)

/-- `FDT_MAX_NCELLS`. -/
def FDT_MAX_NCELLS : Nat := 4

/-- `FDT_ERR_NOTFOUND`. -/
def FDT_ERR_NOTFOUND : Int := 1

/-- `FDT_ERR_BADNCELLS`. -/
def FDT_ERR_BADNCELLS : Int := 14

/-- `fdt_cells`: a one-cell property of at most `FDT_MAX_NCELLS`, or the
error. -/
def cells (n : Node) (p : String) : Int :=
  match n.getprop p with
  | none => -FDT_ERR_NOTFOUND
  | some v =>
    if v.length ≠ 4 then -FDT_ERR_BADNCELLS
    else if beNat v > FDT_MAX_NCELLS then -FDT_ERR_BADNCELLS
    else beNat v

/-- `fdt_address_cells`: `2` when the property is absent, an error for `0`. -/
def addressCells (n : Node) : Int :=
  let val := cells n "#address-cells"
  if val = 0 then -FDT_ERR_BADNCELLS
  else if val = -FDT_ERR_NOTFOUND then 2
  else val

/-- `fdt_size_cells`: `1` when the property is absent. -/
def sizeCells (n : Node) : Int :=
  let val := cells n "#size-cells"
  if val = -FDT_ERR_NOTFOUND then 1 else val

/-- `fdt_get_phandle`: the one-cell `phandle`, else the one-cell
`linux,phandle`, else `0`. -/
def getPhandle (n : Node) : Nat :=
  match n.getprop "phandle" with
  | some v => if v.length = 4 then beNat v else legacy
  | none => legacy
where
  /-- The older property name. -/
  legacy : Nat :=
    match n.getprop "linux,phandle" with
    | some v => if v.length = 4 then beNat v else 0
    | none => 0

/-! ## Writing values

What a blob's compiler writes: a string with its NUL, and cells big-endian. -/

/-- A string value. -/
def str (s : String) : List UInt8 := s.toUTF8.toList ++ [0]

/-- The four big-endian bytes of a cell. -/
def be32 (v : Nat) : List UInt8 :=
  [(v / 2 ^ 24 % 256).toUInt8, (v / 2 ^ 16 % 256).toUInt8, (v / 2 ^ 8 % 256).toUInt8,
    (v % 256).toUInt8]

/-- A value of cells. -/
def u32s (vs : List Nat) : List UInt8 := vs.flatMap be32

/-! ## Reading cells -/

section Cells

variable {bs : List UInt8} {i : Nat}

theorem cell_of_le (h : 4 * i + 4 ≤ bs.length) :
    cell bs i = some (beNat ((bs.drop (4 * i)).take 4)) := by
  simp only [cell, if_pos h]

end Cells

/-! ## C strings -/

/-- A C string found in a value ends before the value does. -/
theorem strlen_lt {bs : List UInt8} {n : Nat} (h : strlen bs = some n) : n < bs.length := by
  obtain ⟨hlt, -⟩ := List.findIdx?_eq_some_iff_getElem.mp h
  exact hlt

end Fdt

end Mkros
