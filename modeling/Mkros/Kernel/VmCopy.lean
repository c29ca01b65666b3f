import Mkros.Kernel.Vm
import Mkros.Lib.CString
/-!
# `copyinstr` copies one user string

`copyinstr` reads the user's string a page at a time: `walkaddr` of the page
`srcva` lies on, then the bytes from `srcva` to the page's end or to `max`,
until the NUL. Byte by byte this is the reader `CString.scan` over the
user's bytes as the page table gives them (`fetch`): the loop over pages is
that reader split at page boundaries (`copyinstr_eq_scan`). From it, the
string `copyinstr` returns `0` for, and what it writes
(`copyinstr_copies_one_string`).
-/

namespace Mkros

namespace Vm

open Riscv CString

/-- The byte at user address `v`: on the page `walkaddr` gives for `v`'s
page, at `v`'s offset. -/
def userByte (st : Machine) (pagetable v : Nat) : UInt8 :=
  loadByte st.mem (walkaddr st pagetable (PGROUNDDOWN v) + (v - PGROUNDDOWN v))

/-- The user's bytes as `copyinstr` reads them: none on a page `walkaddr`
gives `0` for. -/
def fetch (st : Machine) (pagetable v : Nat) : Option UInt8 :=
  if walkaddr st pagetable (PGROUNDDOWN v) = 0 then none else some (userByte st pagetable v)

/-- The `k`-byte user string at `srcva`, `max` bounding it: every byte up to
the `k`-th on a page `walkaddr` gives, the `k`-th the NUL and no byte before
it. -/
def UserString (st : Machine) (pagetable srcva max k : Nat) : Prop :=
  k < max ∧ (∀ j ≤ k, walkaddr st pagetable (PGROUNDDOWN (srcva + j)) ≠ 0) ∧
    userByte st pagetable (srcva + k) = 0 ∧ ∀ j < k, userByte st pagetable (srcva + j) ≠ 0

/-- A page starts at or below each of its bytes. -/
theorem PGROUNDDOWN_le (v : Nat) : PGROUNDDOWN v ≤ v := by
  simp only [PGROUNDDOWN, PGSIZE]
  omega

/-- The page of a byte less than a page's rest on from `v` is `v`'s page. -/
theorem PGROUNDDOWN_add {v i : Nat} (hi : v - PGROUNDDOWN v + i < PGSIZE) :
    PGROUNDDOWN (v + i) = PGROUNDDOWN v := by
  simp only [PGROUNDDOWN, PGSIZE] at hi ⊢
  omega

/-- **The inner loop is the reader over one page.** Over `n` bytes that the
source gives from `p` on, with `max` at least `n`: where the loop meets the
NUL, the reader stops with the same bytes; where it does not, it has taken
`n` bytes, and the reader goes on from `v + n` with `max - n`. -/
theorem copyBytes_scan (mem : Mem) {get : Nat → Option UInt8} :
    ∀ (n p v max : Nat), n ≤ max → (∀ i < n, get (v + i) = some (loadByte mem (p + i))) →
      ((copyBytes mem p n max).2.2 = true → scan get max v = ((copyBytes mem p n max).1, true)) ∧
      ((copyBytes mem p n max).2.2 = false → (copyBytes mem p n max).2.1 = max - n ∧
        scan get max v = ((copyBytes mem p n max).1 ++ (scan get (max - n) (v + n)).1,
          (scan get (max - n) (v + n)).2))
  | 0, _, _, max, _, _ => ⟨fun h => absurd h Bool.false_ne_true, fun _ => ⟨(Nat.sub_zero max).symm, rfl⟩⟩
  | n + 1, p, v, max, hn, hbytes => by
    obtain ⟨m, rfl⟩ : ∃ m, max = m + 1 := ⟨max - 1, by omega⟩
    have hv : get v = some (loadByte mem p) := by simpa using hbytes 0 (Nat.succ_pos n)
    by_cases hc : loadByte mem p = 0
    · -- the NUL: both stop
      have hcopy : copyBytes mem p (n + 1) (m + 1) = ([0], m + 1, true) := by simp only [copyBytes, hc, if_true]
      rw [hcopy]
      refine ⟨fun _ => by simp only [scan, hv, hc, if_true], fun h => by simp at h⟩
    · -- a byte of the string: both take it and go on one byte further
      have hrest : ∀ i < n, get (v + 1 + i) = some (loadByte mem (p + 1 + i)) := fun i hi => by
        rw [Nat.add_assoc, Nat.add_assoc, Nat.add_comm 1 i]
        exact hbytes (i + 1) (by omega)
      obtain ⟨ihtrue, ihfalse⟩ := copyBytes_scan mem n (p + 1) (v + 1) m (by omega) hrest
      have hcopy : copyBytes mem p (n + 1) (m + 1) =
          (loadByte mem p :: (copyBytes mem (p + 1) n m).1, (copyBytes mem (p + 1) n m).2) := by
        simp only [copyBytes, hc, if_false, Nat.add_sub_cancel]
      rw [hcopy, scan_succ_of_ne hv hc]
      refine ⟨fun h => by rw [ihtrue h], fun h => ?_⟩
      obtain ⟨hmax, hscan⟩ := ihfalse h
      refine ⟨by rw [hmax]; omega, ?_⟩
      rw [hscan, show m + 1 - (n + 1) = m - n by omega, show v + (n + 1) = v + 1 + n by omega]
      rfl

/-- The reader gives nothing on a page `walkaddr` does not give. -/
theorem scan_fetch_of_unmapped (st : Machine) {pagetable srcva m : Nat}
    (h : walkaddr st pagetable (PGROUNDDOWN srcva) = 0) : scan (fetch st pagetable) (m + 1) srcva = ([], false) := by
  simp only [scan, fetch, h, if_true]

/-- The bytes of a page `walkaddr` gives, from `srcva` to the page's end, are
the page's bytes from `srcva`'s offset. -/
theorem fetch_of_page (st : Machine) {pagetable srcva : Nat}
    (h : walkaddr st pagetable (PGROUNDDOWN srcva) ≠ 0) {i : Nat}
    (hi : srcva - PGROUNDDOWN srcva + i < PGSIZE) :
    fetch st pagetable (srcva + i) =
      some (loadByte st.mem (walkaddr st pagetable (PGROUNDDOWN srcva) + (srcva - PGROUNDDOWN srcva) + i)) := by
  have hpage := PGROUNDDOWN_add hi
  have hoff : srcva + i - PGROUNDDOWN srcva = srcva - PGROUNDDOWN srcva + i := by
    have := PGROUNDDOWN_le srcva
    omega
  simp only [fetch, userByte, hpage, h, if_false, hoff, Nat.add_assoc]

/-- **The loop over pages is the reader byte by byte.** With fuel past `max`,
`copyinstr`'s loop writes what the reader takes of the user's bytes, and
returns `0` exactly when the reader met the NUL. -/
theorem copyinstrLoop_scan (st : Machine) (pagetable : Nat) :
    ∀ (fuel srcva max : Nat), max < fuel →
      copyinstrLoop st pagetable fuel srcva max =
        ((scan (fetch st pagetable) max srcva).1, if (scan (fetch st pagetable) max srcva).2 then 0 else -1)
  | 0, _, _, h => absurd h (Nat.not_lt_zero _)
  | fuel + 1, srcva, 0, _ => by simp only [copyinstrLoop, if_true, scan_zero, Bool.false_eq_true, if_false]
  | fuel + 1, srcva, m + 1, hfuel => by
    by_cases hpa : walkaddr st pagetable (PGROUNDDOWN srcva) = 0
    · simp only [copyinstrLoop, hpa, scan_fetch_of_unmapped st hpa, Nat.add_one_ne_zero, if_false, if_true,
        Bool.false_eq_true]
    -- the bytes from `srcva` to the page's end, or to `max`
    have hoff : srcva - PGROUNDDOWN srcva < PGSIZE := by simp only [PGROUNDDOWN, PGSIZE]; omega
    have hle := PGROUNDDOWN_le srcva
    generalize hn : min (PGSIZE - (srcva - PGROUNDDOWN srcva)) (m + 1) = n
    have hbytes : ∀ i < n, fetch st pagetable (srcva + i) =
        some (loadByte st.mem (walkaddr st pagetable (PGROUNDDOWN srcva) + (srcva - PGROUNDDOWN srcva) + i)) :=
      fun i hi => fetch_of_page st hpa (by omega)
    obtain ⟨htrue, hfalse⟩ := copyBytes_scan st.mem n _ srcva (m + 1) (by omega) hbytes
    simp only [copyinstrLoop, Nat.add_one_ne_zero, if_false, hpa, hn]
    generalize hcopy : copyBytes st.mem (walkaddr st pagetable (PGROUNDDOWN srcva) + (srcva - PGROUNDDOWN srcva))
      n (m + 1) = r at htrue hfalse
    obtain ⟨out, max', got⟩ := r
    cases got with
    | true => simp only [htrue rfl, if_true]
    | false =>
      obtain ⟨hmax, hscan⟩ := hfalse rfl
      dsimp only at hmax hscan
      rw [copyinstrLoop_scan st pagetable fuel _ max' (by omega), hscan, hmax]
      -- the loop goes on at the next page; the reader at `srcva + n`, the same place unless `max` ran out
      have hnext : scan (fetch st pagetable) (m + 1 - n) (PGROUNDDOWN srcva + PGSIZE) =
          scan (fetch st pagetable) (m + 1 - n) (srcva + n) := by
        by_cases hpage : n = PGSIZE - (srcva - PGROUNDDOWN srcva)
        · rw [hpage, show srcva + (PGSIZE - (srcva - PGROUNDDOWN srcva)) = PGROUNDDOWN srcva + PGSIZE by omega]
        · rw [show m + 1 - n = 0 by omega, scan_zero, scan_zero]
      simp only [hnext, Bool.false_eq_true, if_false]

/-- `copyinstr` is the reader over the user's bytes. -/
theorem copyinstr_eq_scan (st : Machine) (pagetable srcva max : Nat) :
    copyinstr st pagetable srcva max =
      ((scan (fetch st pagetable) max srcva).1, if (scan (fetch st pagetable) max srcva).2 then 0 else -1) :=
  copyinstrLoop_scan st pagetable (max + 1) srcva max (Nat.lt_succ_self max)

/-- A user string is a string of the source `copyinstr` reads. -/
theorem userString_iff (st : Machine) (pagetable srcva max k : Nat) :
    UserString st pagetable srcva max k ↔ Terminated (fetch st pagetable) srcva max k := by
  simp only [UserString, Terminated, fetch]
  constructor
  · rintro ⟨hk, hmapped, hnul, hbefore⟩
    refine ⟨hk, by simp [hmapped k (Nat.le_refl k), hnul], fun j hj => ?_⟩
    exact ⟨_, by simp [hmapped j (Nat.le_of_lt hj)], hbefore j hj⟩
  · rintro ⟨hk, hnul, hbefore⟩
    have hmapped : ∀ j ≤ k, walkaddr st pagetable (PGROUNDDOWN (srcva + j)) ≠ 0 := by
      intro j hj
      rcases Nat.lt_or_eq_of_le hj with hj | rfl
      · obtain ⟨c, hc, -⟩ := hbefore j hj
        intro h
        simp [h] at hc
      · intro h
        simp [h] at hnul
    refine ⟨hk, hmapped, by simpa [hmapped k (Nat.le_refl k)] using hnul, fun j hj => ?_⟩
    obtain ⟨c, hc, hc0⟩ := hbefore j hj
    simp only [hmapped j (Nat.le_of_lt hj), if_false, Option.some.injEq] at hc
    rwa [hc]

/-- **`copyinstr` copies exactly one user string.** For every page table,
`srcva` and `max`: it writes `dst[0]`, `dst[1]`, … and no more than `max`
of them; it returns `0` exactly when a user string of some `k < max` bytes
lies at `srcva`, each of its bytes on a page `walkaddr` gives; and then
what it wrote is the `k + 1` bytes of that string, the NUL included. -/
theorem copyinstr_copies_one_string (st : Machine) (pagetable srcva max : Nat) :
    (copyinstr st pagetable srcva max).1.length ≤ max ∧
      ((copyinstr st pagetable srcva max).2 = 0 ↔ ∃ k, UserString st pagetable srcva max k) ∧
      ∀ k, UserString st pagetable srcva max k →
        (copyinstr st pagetable srcva max).1 = (List.range (k + 1)).map fun j => userByte st pagetable (srcva + j) := by
  rw [copyinstr_eq_scan]
  refine ⟨scan_length_le max srcva, ⟨fun h => ?_, fun ⟨k, hk⟩ => ?_⟩, fun k hk => ?_⟩
  · -- `0` only where the reader met the NUL
    cases hgot : (scan (fetch st pagetable) max srcva).2 with
    | false => simp [hgot] at h
    | true =>
      obtain ⟨k, hk⟩ := terminated_of_scan hgot
      exact ⟨k, (userString_iff st pagetable srcva max k).mpr hk⟩
  · simp [scan_of_terminated ((userString_iff st pagetable srcva max k).mp hk)]
  · rw [scan_of_terminated ((userString_iff st pagetable srcva max k).mp hk)]
    -- every byte of the string is read through its page
    refine List.map_congr_left fun j hj => ?_
    have hj' : j ≤ k := Nat.lt_succ_iff.mp (List.mem_range.mp hj)
    simp [fetch, hk.2.1 j hj']

end Vm

end Mkros
