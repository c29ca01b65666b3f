import Mkros.Kernel.VmMap
import Mkros.Kernel.VmCopy
/-!
# `copyout` and `copyin`

Both loops go a page at a time: `walkaddr` of the page `va` lies on, then
`memmove` of the bytes from `va` to the page's end or to `len`, between the
user's page and the kernel's buffer. The kernel's buffer is physical memory
too, so a copy may write the words `walk` reads; where it does not, the
translation stays as it was and the loop is the byte-wise copy between the
user's bytes, at `userAddr`, and the kernel's.

`memmove` copies as if through a buffer, whichever way the ranges overlap
(`load_memmove`). The loop rule (`userCopyLoop_rule`) carries an invariant
of the memory through the rounds; from it, what each of `copyout` and
`copyin` does to every byte.
-/

namespace Mkros

namespace Vm

open Riscv ByteMem

/-! ## `memmove` -/

section Move

/-- **Upward copying** is right where the destination does not start inside
the source above its start. -/
theorem load_moveUp (b : Nat) : ∀ (n : Nat) (mem : Mem) (d s : Nat), d ≤ s ∨ s + n ≤ d →
    load (moveUp mem d s n) b = if d ≤ b ∧ b < d + n then load mem (s + (b - d)) else load mem b
  | 0, mem, d, s, _ => by
    rw [moveUp, if_neg (by omega)]
  | n + 1, mem, d, s, h => by
    rw [moveUp, load_moveUp b n _ (d + 1) (s + 1) (by omega), load_store, load_store]
    -- the byte at `d` is written first, and no later round reads it
    by_cases hbd : b = d
    · subst hbd
      rw [if_neg (by omega), if_pos rfl, if_pos (by omega), Nat.sub_self, Nat.add_zero]
    · by_cases hin : d + 1 ≤ b ∧ b < d + 1 + n
      · rw [if_pos hin, if_neg (by omega), if_pos (by omega), show s + 1 + (b - (d + 1)) = s + (b - d) by omega]
      · rw [if_neg hin, if_neg hbd, if_neg (by omega)]

/-- **Downward copying** is right where the source starts at or below the
destination. -/
theorem load_moveDown (b : Nat) : ∀ (n : Nat) (mem : Mem) (d s : Nat), s ≤ d →
    load (moveDown mem d s n) b = if d ≤ b ∧ b < d + n then load mem (s + (b - d)) else load mem b
  | 0, mem, d, s, _ => by
    rw [moveDown, if_neg (by omega)]
  | n + 1, mem, d, s, h => by
    rw [moveDown, load_moveDown b n _ d s h, load_store, load_store]
    -- the byte at `d + n` is written first; the bytes read after it lie below `s + n ≤ d + n`
    by_cases hin : d ≤ b ∧ b < d + n
    · rw [if_pos hin, if_neg (by omega), if_pos (by omega)]
    · by_cases hbn : b = d + n
      · rw [if_neg hin, if_pos hbn, if_pos (by omega), hbn, show s + (d + n - d) = s + n by omega]
      · rw [if_neg hin, if_neg hbn, if_neg (by omega)]

/-- **`memmove` copies as if through a buffer**: after it, each byte of the
destination is the source's byte as it was before, however the two ranges
overlap, and every other byte is as it was. -/
theorem load_memmove (mem : Mem) (d s n b : Nat) :
    load (memmove mem d s n) b = if d ≤ b ∧ b < d + n then load mem (s + (b - d)) else load mem b := by
  unfold memmove
  by_cases h0 : n = 0
  · subst h0
    rw [if_pos rfl, if_neg (by omega)]
  rw [if_neg h0]
  by_cases hdown : s < d ∧ s + n > d
  · rw [if_pos hdown]
    exact load_moveDown b n mem d s (Nat.le_of_lt hdown.1)
  · rw [if_neg hdown]
    exact load_moveUp b n mem d s (by omega)

theorem moveUp_word {w : Nat} : ∀ (n : Nat) (mem : Mem) (d s : Nat), (∀ i < n, (d + i) / 8 * 8 ≠ w) →
    moveUp mem d s n w = mem w
  | 0, _, _, _, _ => rfl
  | n + 1, mem, d, s, h => by
    have hrest : ∀ i < n, (d + 1 + i) / 8 * 8 ≠ w := fun i hi => by
      rw [show d + 1 + i = d + (i + 1) by omega]
      exact h (i + 1) (by omega)
    have hd : w ≠ d / 8 * 8 := fun he => h 0 (Nat.succ_pos n) (by rw [Nat.add_zero]; exact he.symm)
    rw [moveUp, moveUp_word n _ (d + 1) (s + 1) hrest, store_of_ne _ hd]

theorem moveDown_word {w : Nat} : ∀ (n : Nat) (mem : Mem) (d s : Nat), (∀ i < n, (d + i) / 8 * 8 ≠ w) →
    moveDown mem d s n w = mem w
  | 0, _, _, _, _ => rfl
  | n + 1, mem, d, s, h => by
    rw [moveDown, moveDown_word n _ d s fun i hi => h i (by omega), store_of_ne _ (h n (Nat.lt_succ_self n)).symm]

/-- `memmove` changes no word outside the destination's. -/
theorem memmove_word {w : Nat} (mem : Mem) (d s n : Nat) (h : ∀ i < n, (d + i) / 8 * 8 ≠ w) :
    memmove mem d s n w = mem w := by
  unfold memmove
  split_ifs
  · rfl
  · exact moveDown_word n mem d s h
  · exact moveUp_word n mem d s h

end Move

/-! ## What the translation rests on -/

/-- The words `walk` reads for the pages of `[va, va + len)`. -/
def TableWord (st : Machine) (pagetable va len a : Nat) : Prop :=
  ∃ j < len, Reads st.mem (PGROUNDDOWN (va + j)) WALK_LEVEL pagetable a

/-- Every page of `[va, va + len)` is one `walkaddr` gives. -/
def Mapped (st : Machine) (pagetable va len : Nat) : Prop :=
  ∀ j < len, walkaddr st pagetable (PGROUNDDOWN (va + j)) ≠ 0

/-- The physical address of user byte `v`: on the page `walkaddr` gives for
`v`'s page, at `v`'s offset. -/
def userAddr (st : Machine) (pagetable v : Nat) : Nat :=
  walkaddr st pagetable (PGROUNDDOWN v) + (v - PGROUNDDOWN v)

instance decidableReads (mem : Mem) (va : Nat) : ∀ l t a, Decidable (Reads mem va l t a)
  | 0, _, _ => inferInstanceAs (Decidable (_ = _))
  | l + 1, t, a =>
    have := decidableReads mem va l (PTE2PA (mem (t + 8 * PX (l + 1) va))) a
    inferInstanceAs (Decidable (_ ∨ (_ ∧ _)))

instance (st : Machine) (pagetable va len a : Nat) : Decidable (TableWord st pagetable va len a) :=
  inferInstanceAs (Decidable (∃ j < len, _))

instance (st : Machine) (pagetable va len : Nat) : Decidable (Mapped st pagetable va len) :=
  inferInstanceAs (Decidable (∀ j < len, _))

section Congr

variable {mem mem' : Mem} {va : Nat}

/-- Two memories that agree on what a reading looks at look at the same words. -/
theorem reads_congr : ∀ {l t : Nat}, (∀ a, Reads mem va l t a → mem' a = mem a) →
    ∀ a, Reads mem' va l t a ↔ Reads mem va l t a
  | 0, _, _, _ => Iff.rfl
  | l + 1, t, h, a => by
    have he := h _ (Or.inl rfl)
    simp only [Reads, he]
    by_cases hv : mem (t + 8 * PX (l + 1) va) &&& PTE_V ≠ 0
    · rw [reads_congr (fun b hb => h b (Or.inr ⟨hv, hb⟩)) a]
    · simp only [hv, false_and]

/-- **`walkaddr` rests on the words its walk reads.** -/
theorem walkaddr_congr {st st' : Machine} {pagetable : Nat}
    (h : ∀ a, Reads st.mem va WALK_LEVEL pagetable a → st'.mem a = st.mem a) :
    walkaddr st' pagetable va = walkaddr st pagetable va := by
  simp only [walkaddr, walkLoop_false, lookup_congr h]
  cases hl : lookup st.mem va WALK_LEVEL pagetable with
  | none => rfl
  | some e => simp only [Option.getD_some, h e (reads_of_lookup hl)]

end Congr

section Keeps

variable {st : Machine} {pagetable va len : Nat} {mem : Mem}

/-- The table's words for the range as they were. -/
def Keeps (st : Machine) (pagetable va len : Nat) (mem : Mem) : Prop :=
  ∀ a, TableWord st pagetable va len a → mem a = st.mem a

/-- A memory that keeps the table's words gives the range's pages where
`walkaddr` gave them. -/
theorem Keeps.walkaddr (hk : Keeps st pagetable va len mem) {j : Nat} (hj : j < len) :
    walkaddr { st with mem := mem } pagetable (PGROUNDDOWN (va + j)) = walkaddr st pagetable (PGROUNDDOWN (va + j)) :=
  walkaddr_congr fun a ha => hk a ⟨j, hj, ha⟩

theorem Keeps.userAddr (hk : Keeps st pagetable va len mem) {j : Nat} (hj : j < len) :
    userAddr { st with mem := mem } pagetable (va + j) = userAddr st pagetable (va + j) := by
  rw [Vm.userAddr, hk.walkaddr hj, Vm.userAddr]

/-- ... and reads the same words for them. -/
theorem Keeps.tableWord (hk : Keeps st pagetable va len mem) (a : Nat) :
    TableWord { st with mem := mem } pagetable va len a ↔ TableWord st pagetable va len a :=
  exists_congr fun j => and_congr_right fun hj => reads_congr (fun b hb => hk b ⟨j, hj, hb⟩) a

/-- A `memmove` whose destination holds no word of the table keeps it. -/
theorem Keeps.memmove (hk : Keeps st pagetable va len mem) {d s n : Nat}
    (hd : ∀ i < n, ¬TableWord st pagetable va len ((d + i) / 8 * 8)) :
    Keeps st pagetable va len (Vm.memmove mem d s n) := fun a ha => by
  rw [memmove_word mem d s n fun i hi he => hd i hi (he ▸ ha)]
  exact hk a ha

end Keeps

/-! ## The loop -/

/-- A byte's offset in its page. -/
theorem sub_PGROUNDDOWN_lt (v : Nat) : v - PGROUNDDOWN v < PGSIZE := by
  simp only [PGROUNDDOWN, PGSIZE]
  omega

/-- The bytes of the loop's round from `va` with `len` left: to the page's
end or to `len`. -/
def roundLen (va len : Nat) : Nat := min (PGSIZE - (va - PGROUNDDOWN va)) len

section Round

variable {va len : Nat}

theorem roundLen_pos (hlen : len ≠ 0) : 0 < roundLen va len := by
  simp only [roundLen, PGROUNDDOWN, PGSIZE]
  omega

theorem roundLen_le : roundLen va len ≤ len := Nat.min_le_right _ _

/-- The bytes of a round lie on `va`'s page. -/
theorem page_of_lt_roundLen {i : Nat} (hi : i < roundLen va len) : PGROUNDDOWN (va + i) = PGROUNDDOWN va :=
  PGROUNDDOWN_add (by simp only [roundLen] at hi; omega)

/-- A round that leaves bytes over ends at the page's end. -/
theorem next_of_roundLen_lt (h : roundLen va len < len) : PGROUNDDOWN va + PGSIZE = va + roundLen va len := by
  have := PGROUNDDOWN_le va
  have := sub_PGROUNDDOWN_lt va
  simp only [roundLen] at h ⊢
  omega

end Round

/-- The user bytes of one page lie one after another. -/
theorem userAddr_add (st : Machine) (pagetable v : Nat) {i : Nat} (hi : PGROUNDDOWN (v + i) = PGROUNDDOWN v) :
    userAddr st pagetable (v + i) = userAddr st pagetable v + i := by
  have hle := PGROUNDDOWN_le v
  simp only [userAddr, hi]
  omega

section Loop

variable (move : Mem → Nat → Nat → Nat → Mem) (st : Machine) (pagetable va k len : Nat)

theorem userCopyLoop_zero : userCopyLoop move st pagetable va k 0 = (st, 0) := by
  rw [userCopyLoop, dif_pos rfl]

theorem userCopyLoop_unmapped (hlen : len ≠ 0) (h : walkaddr st pagetable (PGROUNDDOWN va) = 0) :
    userCopyLoop move st pagetable va k len = (st, -1) := by
  rw [userCopyLoop, dif_neg hlen]
  simp only [h, if_true]

theorem userCopyLoop_mapped (hlen : len ≠ 0) (h : walkaddr st pagetable (PGROUNDDOWN va) ≠ 0) :
    userCopyLoop move st pagetable va k len =
      userCopyLoop move { st with mem := move st.mem (userAddr st pagetable va) k (roundLen va len) } pagetable
        (PGROUNDDOWN va + PGSIZE) (k + roundLen va len) (len - roundLen va len) := by
  rw [userCopyLoop, dif_neg hlen]
  simp only [h, if_false]
  rfl

end Loop

section Rule

variable (move : Mem → Nat → Nat → Nat → Mem) {st : Machine} {pagetable va : Nat} (k : Nat) {len : Nat}
  (I : Nat → Mem → Prop)

/-- What the loop gives from the state after `m` bytes: `0` exactly when
the pages of the rest are all mapped; the machine but for its memory as it
was; and the invariant after the bytes done, all on mapped pages, all of
them where it returns `0`. -/
def LoopEnd (st : Machine) (pagetable va len : Nat) (I : Nat → Mem → Prop) (m : Nat) (r : Machine × Int) : Prop :=
  (r.2 = 0 ↔ ∀ j, m ≤ j → j < len → walkaddr st pagetable (PGROUNDDOWN (va + j)) ≠ 0) ∧
    r.1 = { st with mem := r.1.mem } ∧
    ∃ m' ≤ len, (∀ j < m', walkaddr st pagetable (PGROUNDDOWN (va + j)) ≠ 0) ∧ I m' r.1.mem ∧ (r.2 = 0 → m' = len)

variable (hpage : ∀ m mem, I m mem → ∀ j < len,
      walkaddr { st with mem := mem } pagetable (PGROUNDDOWN (va + j)) = walkaddr st pagetable (PGROUNDDOWN (va + j)))
    (hround : ∀ m n mem, I m mem → 0 < n → m + n ≤ len → (∀ i < n, PGROUNDDOWN (va + (m + i)) = PGROUNDDOWN (va + m)) →
      walkaddr st pagetable (PGROUNDDOWN (va + m)) ≠ 0 →
      I (m + n) (move mem (userAddr st pagetable (va + m)) (k + m) n))
include hpage hround

/-- A round on a mapped page: the invariant after it, and every byte of it
on a mapped page. -/
theorem round_step {m rem : Nat} {mem : Mem} (hm : m + rem = len) (hrem : rem ≠ 0) (hI : I m mem)
    (hw : walkaddr st pagetable (PGROUNDDOWN (va + m)) ≠ 0) :
    I (m + roundLen (va + m) rem)
        (move mem (userAddr { st with mem := mem } pagetable (va + m)) (k + m) (roundLen (va + m) rem)) ∧
      ∀ j, m ≤ j → j < m + roundLen (va + m) rem → walkaddr st pagetable (PGROUNDDOWN (va + j)) ≠ 0 := by
  have hpage' : ∀ i < roundLen (va + m) rem, PGROUNDDOWN (va + (m + i)) = PGROUNDDOWN (va + m) := fun i hi => by
    rw [← Nat.add_assoc]
    exact page_of_lt_roundLen hi
  have hle : roundLen (va + m) rem ≤ rem := roundLen_le
  have haddr : userAddr { st with mem := mem } pagetable (va + m) = userAddr st pagetable (va + m) := by
    rw [userAddr, hpage m mem hI m (by omega), userAddr]
  refine ⟨haddr ▸ hround m _ mem hI (roundLen_pos hrem) (by omega) hpage' hw, fun j hj hj' => ?_⟩
  obtain ⟨i, rfl⟩ : ∃ i, j = m + i := ⟨j - m, by omega⟩
  rw [hpage' i (by omega)]
  exact hw

/-- The loop rule, from the state after `m` bytes, by induction on the bytes left. -/
theorem userCopyLoop_rule_from : ∀ (rem m : Nat) (mem : Mem) (va' k' : Nat), m + rem = len →
    (rem ≠ 0 → va' = va + m) → k' = k + m → (∀ j < m, walkaddr st pagetable (PGROUNDDOWN (va + j)) ≠ 0) →
    I m mem → LoopEnd st pagetable va len I m (userCopyLoop move { st with mem := mem } pagetable va' k' rem) := by
  intro rem
  induction rem using Nat.strong_induction_on with
  | _ rem ih =>
  intro m mem va' k' hm hva hk hdone hI
  by_cases hrem : rem = 0
  · subst hrem
    rw [userCopyLoop_zero]
    exact ⟨⟨fun _ j hj hj' => absurd hj' (by omega), fun _ => rfl⟩, rfl, m, by omega, hdone, hI, fun _ => by omega⟩
  obtain rfl := hva hrem
  subst hk
  have hcur := hpage m mem hI m (by omega)
  by_cases hw : walkaddr st pagetable (PGROUNDDOWN (va + m)) = 0
  · -- an unmapped page: `-1`, with the bytes before it done
    rw [userCopyLoop_unmapped _ _ _ _ _ _ hrem (hcur.trans hw)]
    refine ⟨⟨fun h => absurd h (by simp), fun h => absurd hw (h m (Nat.le_refl m) (by omega))⟩, rfl, m, by omega,
      hdone, hI, fun h => absurd h (by simp)⟩
  -- a mapped page: the round, then the loop from the next page
  rw [userCopyLoop_mapped _ _ _ _ _ _ hrem (hcur ▸ hw)]
  obtain ⟨hI', hround'⟩ := round_step move k I hpage hround hm hrem hI hw
  have hle : roundLen (va + m) rem ≤ rem := roundLen_le
  have hpos : 0 < roundLen (va + m) rem := roundLen_pos hrem
  have hnext : rem - roundLen (va + m) rem ≠ 0 →
      PGROUNDDOWN (va + m) + PGSIZE = va + (m + roundLen (va + m) rem) := fun h => by
    have hlt : roundLen (va + m) rem < rem := by omega
    rw [next_of_roundLen_lt hlt, Nat.add_assoc]
  obtain ⟨hiff, hst, hrest⟩ := ih (rem - roundLen (va + m) rem) (by omega)
    (m + roundLen (va + m) rem) _ _ (k + m + roundLen (va + m) rem) (by omega) hnext (by omega)
    (fun j hj => if hjm : j < m then hdone j hjm else hround' j (by omega) hj) hI'
  refine ⟨hiff.trans ⟨fun h j hj hj' => ?_, fun h j hj hj' => h j (by omega) hj'⟩, hst, hrest⟩
  by_cases hjn : j < m + roundLen (va + m) rem
  · exact hround' j hj hjn
  · exact h j (by omega) hj'

/-- **The loop rule.** An invariant of the memory after the first `m`
bytes, under which the range's pages stay where `walkaddr` had them and
which each round on a mapped page keeps, holds when the loop ends: the loop
returns `0` exactly when every page of the range is mapped, changes the
machine's memory alone, and ends with the invariant after the bytes it did,
all on mapped pages, all of them where it returns `0`. -/
theorem userCopyLoop_rule (h0 : I 0 st.mem) :
    LoopEnd st pagetable va len I 0 (userCopyLoop move st pagetable va k len) ∧
      ((userCopyLoop move st pagetable va k len).2 = 0 ↔ Mapped st pagetable va len) := by
  have hend := userCopyLoop_rule_from move k I hpage hround len 0 st.mem va k (Nat.zero_add len) (fun _ => rfl) rfl
    (fun _ h => absurd h (Nat.not_lt_zero _)) h0
  exact ⟨hend, hend.1.trans ⟨fun h j hj => h j (Nat.zero_le j) hj, fun h j _ hj => h j hj⟩⟩

end Rule

/-- The bytes of a round lie one after another from the round's first. -/
theorem userAddr_of_page (st : Machine) (pagetable va : Nat) {m i : Nat}
    (hp : PGROUNDDOWN (va + (m + i)) = PGROUNDDOWN (va + m)) :
    userAddr st pagetable (va + (m + i)) = userAddr st pagetable (va + m) + i := by
  rw [← Nat.add_assoc] at hp ⊢
  exact userAddr_add st pagetable (va + m) hp

/-- A byte at or after the first of a round and before its end is one of its bytes. -/
theorem of_mem_round {pa n b : Nat} (hin : pa ≤ b ∧ b < pa + n) : ∃ i < n, b = pa + i :=
  ⟨b - pa, by omega, by omega⟩

/-! ## `copyout` -/

section Copyout

variable {st : Machine} {pagetable va src len : Nat}

/-- `copyout` writes no word of the table: no byte of the range on a mapped
page lies in a word `walk` reads for the range. -/
def OutKeepsTable (st : Machine) (pagetable va len : Nat) : Prop :=
  ∀ i < len, walkaddr st pagetable (PGROUNDDOWN (va + i)) ≠ 0 →
    ¬TableWord st pagetable va len (userAddr st pagetable (va + i) / 8 * 8)

instance (st : Machine) (pagetable va len : Nat) : Decidable (OutKeepsTable st pagetable va len) :=
  inferInstanceAs (Decidable (∀ i < len, _ → ¬_))

/-- After `m` bytes of `copyout`: the table's words, and every byte but the
first `m` user bytes, as they were. -/
def OutFrame (st : Machine) (pagetable va len m : Nat) (mem : Mem) : Prop :=
  Keeps st pagetable va len mem ∧ ∀ b, (∀ j < m, userAddr st pagetable (va + j) ≠ b) → load mem b = load st.mem b

/-- After `m` bytes of `copyout`: each of the first `m` user bytes is the
kernel's. -/
def OutCopied (st : Machine) (pagetable va src m : Nat) (mem : Mem) : Prop :=
  ∀ j < m, load mem (userAddr st pagetable (va + j)) = load st.mem (src + j)

section Round

variable {m n : Nat} {mem : Mem} (hp : ∀ i < n, PGROUNDDOWN (va + (m + i)) = PGROUNDDOWN (va + m))
include hp

/-- A round of `copyout` on a mapped page keeps the frame. -/
theorem outFrame_round (hout : OutKeepsTable st pagetable va len) (hI : OutFrame st pagetable va len m mem)
    (hn : m + n ≤ len) (hw : walkaddr st pagetable (PGROUNDDOWN (va + m)) ≠ 0) :
    OutFrame st pagetable va len (m + n) (memmove mem (userAddr st pagetable (va + m)) (src + m) n) := by
  refine ⟨hI.1.memmove fun i hi => ?_, fun b hb => ?_⟩
  · -- the words written hold bytes of the range on this mapped page
    rw [← userAddr_of_page st pagetable va (hp i hi)]
    exact hout (m + i) (by omega) (by rw [hp i hi]; exact hw)
  · rw [load_memmove, if_neg fun hin => ?_]
    · exact hI.2 b fun j hj => hb j (by omega)
    obtain ⟨i, hi, rfl⟩ := of_mem_round hin
    exact hb (m + i) (by omega) (userAddr_of_page st pagetable va (hp i hi))

/-- A round of `copyout` copies its bytes, where the user bytes are at
distinct addresses and none is a byte of the kernel's source. -/
theorem outCopied_round (hinj : ∀ i < len, ∀ j < len, userAddr st pagetable (va + i) = userAddr st pagetable (va + j) → i = j)
    (hsrc : ∀ i < len, ∀ j < len, userAddr st pagetable (va + i) ≠ src + j)
    (hF : OutFrame st pagetable va len m mem) (hC : OutCopied st pagetable va src m mem) (hn : m + n ≤ len) :
    OutCopied st pagetable va src (m + n) (memmove mem (userAddr st pagetable (va + m)) (src + m) n) := by
  intro j hj
  rw [load_memmove]
  by_cases hjm : j < m
  · -- a byte of an earlier round is not one of this round's
    rw [if_neg fun hin => ?_]
    · exact hC j hjm
    obtain ⟨i, hi, he⟩ := of_mem_round hin
    have := hinj j (by omega) (m + i) (by omega) (he.trans (userAddr_of_page st pagetable va (hp i hi)).symm)
    omega
  · -- a byte of this round, read from the source, which no earlier round wrote
    obtain ⟨i, rfl⟩ : ∃ i, j = m + i := ⟨j - m, by omega⟩
    rw [userAddr_of_page st pagetable va (hp i (by omega)), if_pos (by omega),
      show userAddr st pagetable (va + m) + i - userAddr st pagetable (va + m) = i by omega, Nat.add_assoc]
    exact hF.2 _ fun j' hj' => hsrc j' (by omega) (m + i) (by omega)

end Round

theorem outFrame_zero : OutFrame st pagetable va len 0 st.mem :=
  ⟨fun _ _ => rfl, fun _ _ => rfl⟩

/-- **What `copyout` does.** Where it writes no word of the table, it
returns `0` exactly when every page of the range is mapped; it changes the
machine's memory alone, no word of the table, and no byte but the user
bytes of the range on mapped pages; and where it returns `0`, with the user
bytes at distinct addresses none of which is a byte of `src[0..len)`, each
user byte is the kernel's byte for it. -/
theorem copyout_spec (hout : OutKeepsTable st pagetable va len) :
    ((copyout st pagetable va src len).2 = 0 ↔ Mapped st pagetable va len) ∧
      (copyout st pagetable va src len).1 = { st with mem := (copyout st pagetable va src len).1.mem } ∧
      Keeps st pagetable va len (copyout st pagetable va src len).1.mem ∧
      (∀ b, (∀ j < len, walkaddr st pagetable (PGROUNDDOWN (va + j)) ≠ 0 → userAddr st pagetable (va + j) ≠ b) →
        load (copyout st pagetable va src len).1.mem b = load st.mem b) ∧
      ((copyout st pagetable va src len).2 = 0 →
        (∀ i < len, ∀ j < len, userAddr st pagetable (va + i) = userAddr st pagetable (va + j) → i = j) →
        (∀ i < len, ∀ j < len, userAddr st pagetable (va + i) ≠ src + j) →
        OutCopied st pagetable va src len (copyout st pagetable va src len).1.mem) := by
  have hpage : ∀ m mem, OutFrame st pagetable va len m mem → ∀ j < len,
      walkaddr { st with mem := mem } pagetable (PGROUNDDOWN (va + j)) = walkaddr st pagetable (PGROUNDDOWN (va + j)) :=
    fun _ _ hI _ hj => hI.1.walkaddr hj
  obtain ⟨⟨-, hst, m, hm, hdone, hI, -⟩, hiff⟩ := userCopyLoop_rule (fun mem pa k n => memmove mem pa k n) src
    (OutFrame st pagetable va len) hpage (fun m n mem hI _ hn hp hw => outFrame_round hp hout hI hn hw) outFrame_zero
  refine ⟨hiff, hst, hI.1, fun b hb => hI.2 b fun j hj => hb j (by omega) (hdone j hj), fun hok hinj hsrc => ?_⟩
  -- the copy, with the frame carried beside it
  have hpage' : ∀ m mem, OutFrame st pagetable va len m mem ∧ OutCopied st pagetable va src m mem → ∀ j < len,
      walkaddr { st with mem := mem } pagetable (PGROUNDDOWN (va + j)) = walkaddr st pagetable (PGROUNDDOWN (va + j)) :=
    fun _ _ hI _ hj => hI.1.1.walkaddr hj
  obtain ⟨⟨-, -, m', -, -, hI', hlen⟩, -⟩ := userCopyLoop_rule (fun mem pa k n => memmove mem pa k n) src
    (fun m mem => OutFrame st pagetable va len m mem ∧ OutCopied st pagetable va src m mem) hpage'
    (fun m n mem hI _ hn hp hw => ⟨outFrame_round hp hout hI.1 hn hw, outCopied_round hp hinj hsrc hI.1 hI.2 hn⟩)
    ⟨outFrame_zero, fun _ h => absurd h (Nat.not_lt_zero _)⟩
  exact hlen hok ▸ hI'.2

end Copyout

/-! ## `copyin` -/

section Copyin

variable {st : Machine} {pagetable va dst len : Nat}

/-- `copyin` writes no word of the table: no byte of `dst[0..len)` lies in a
word `walk` reads for the range. -/
def InKeepsTable (st : Machine) (pagetable va dst len : Nat) : Prop :=
  ∀ i < len, ¬TableWord st pagetable va len ((dst + i) / 8 * 8)

instance (st : Machine) (pagetable va dst len : Nat) : Decidable (InKeepsTable st pagetable va dst len) :=
  inferInstanceAs (Decidable (∀ i < len, ¬_))

/-- After `m` bytes of `copyin`: the table's words, and every byte but
`dst[0..m)`, as they were. -/
def InFrame (st : Machine) (pagetable va dst len m : Nat) (mem : Mem) : Prop :=
  Keeps st pagetable va len mem ∧ ∀ b, b < dst ∨ dst + m ≤ b → load mem b = load st.mem b

/-- After `m` bytes of `copyin`: `dst[0..m)` holds the first `m` user bytes. -/
def InCopied (st : Machine) (pagetable va dst m : Nat) (mem : Mem) : Prop :=
  ∀ j < m, load mem (dst + j) = load st.mem (userAddr st pagetable (va + j))

section Round

variable {m n : Nat} {mem : Mem} (hp : ∀ i < n, PGROUNDDOWN (va + (m + i)) = PGROUNDDOWN (va + m))

/-- A round of `copyin` keeps the frame. -/
theorem inFrame_round (hin : InKeepsTable st pagetable va dst len) (hI : InFrame st pagetable va dst len m mem)
    (hn : m + n ≤ len) :
    InFrame st pagetable va dst len (m + n) (memmove mem (dst + m) (userAddr st pagetable (va + m)) n) := by
  refine ⟨hI.1.memmove fun i hi => ?_, fun b hb => ?_⟩
  · rw [Nat.add_assoc]
    exact hin (m + i) (by omega)
  · rw [load_memmove, if_neg (by omega)]
    exact hI.2 b (by omega)

include hp in
/-- A round of `copyin` copies its bytes, where no user byte of the range
is a byte of `dst[0..len)`. -/
theorem inCopied_round (hdst : ∀ i < len, ∀ j < len, userAddr st pagetable (va + i) ≠ dst + j)
    (hF : InFrame st pagetable va dst len m mem) (hC : InCopied st pagetable va dst m mem) (hn : m + n ≤ len) :
    InCopied st pagetable va dst (m + n) (memmove mem (dst + m) (userAddr st pagetable (va + m)) n) := by
  intro j hj
  rw [load_memmove]
  by_cases hjm : j < m
  · rw [if_neg (by omega)]
    exact hC j hjm
  · -- a byte of this round, read from the user's page, which no earlier round wrote
    obtain ⟨i, rfl⟩ : ∃ i, j = m + i := ⟨j - m, by omega⟩
    rw [if_pos (by omega), show dst + (m + i) - (dst + m) = i by omega, ← userAddr_of_page st pagetable va (hp i (by omega))]
    refine hF.2 _ (Decidable.or_iff_not_imp_left.mpr fun hlt => Nat.le_of_not_lt fun hgt => ?_)
    exact hdst (m + i) (by omega) (userAddr st pagetable (va + (m + i)) - dst) (by omega) (by omega)

end Round

theorem inFrame_zero : InFrame st pagetable va dst len 0 st.mem :=
  ⟨fun _ _ => rfl, fun _ _ => rfl⟩

/-- **What `copyin` does.** Where `dst[0..len)` holds no word of the table,
it returns `0` exactly when every page of the range is mapped; it changes
the machine's memory alone, no word of the table, and no byte outside
`dst[0..len)`; and where it returns `0` with no user byte of the range a
byte of `dst[0..len)`, `dst[0..len)` holds the user bytes. -/
theorem copyin_spec (hin : InKeepsTable st pagetable va dst len) :
    ((copyin st pagetable dst va len).2 = 0 ↔ Mapped st pagetable va len) ∧
      (copyin st pagetable dst va len).1 = { st with mem := (copyin st pagetable dst va len).1.mem } ∧
      Keeps st pagetable va len (copyin st pagetable dst va len).1.mem ∧
      (∀ b, b < dst ∨ dst + len ≤ b → load (copyin st pagetable dst va len).1.mem b = load st.mem b) ∧
      ((copyin st pagetable dst va len).2 = 0 →
        (∀ i < len, ∀ j < len, userAddr st pagetable (va + i) ≠ dst + j) →
        InCopied st pagetable va dst len (copyin st pagetable dst va len).1.mem) := by
  have hpage : ∀ m mem, InFrame st pagetable va dst len m mem → ∀ j < len,
      walkaddr { st with mem := mem } pagetable (PGROUNDDOWN (va + j)) = walkaddr st pagetable (PGROUNDDOWN (va + j)) :=
    fun _ _ hI _ hj => hI.1.walkaddr hj
  obtain ⟨⟨-, hst, m, hm, -, hI, -⟩, hiff⟩ := userCopyLoop_rule (fun mem pa k n => memmove mem k pa n) dst
    (InFrame st pagetable va dst len) hpage (fun m n mem hI _ hn _ _ => inFrame_round hin hI hn) inFrame_zero
  refine ⟨hiff, hst, hI.1, fun b hb => hI.2 b (by omega), fun hok hdst => ?_⟩
  have hpage' : ∀ m mem, InFrame st pagetable va dst len m mem ∧ InCopied st pagetable va dst m mem → ∀ j < len,
      walkaddr { st with mem := mem } pagetable (PGROUNDDOWN (va + j)) = walkaddr st pagetable (PGROUNDDOWN (va + j)) :=
    fun _ _ hI _ hj => hI.1.1.walkaddr hj
  obtain ⟨⟨-, -, m', -, -, hI', hlen⟩, -⟩ := userCopyLoop_rule (fun mem pa k n => memmove mem k pa n) dst
    (fun m mem => InFrame st pagetable va dst len m mem ∧ InCopied st pagetable va dst m mem) hpage'
    (fun m n mem hI _ hn hp _ => ⟨inFrame_round hin hI.1 hn, inCopied_round hp hdst hI.1 hI.2 hn⟩)
    ⟨inFrame_zero, fun _ h => absurd h (Nat.not_lt_zero _)⟩
  exact hlen hok ▸ hI'.2

end Copyin

/-! ## The round trip -/

theorem PTE2PA_aligned (pte : UInt64) : PTE2PA pte % PGSIZE = 0 := by
  simp [PTE2PA, PGSIZE, UInt64.toNat_shiftLeft, Nat.shiftLeft_eq]

/-- `walkaddr` gives pages. -/
theorem walkaddr_aligned (st : Machine) (pagetable v : Nat) : walkaddr st pagetable v % PGSIZE = 0 := by
  simp only [walkaddr, walkLoop_false]
  split_ifs <;> simp only [Nat.zero_mod, PTE2PA_aligned]

/-- User bytes on distinct pages, which `walkaddr` gives as distinct pages,
lie at distinct addresses. -/
theorem userAddr_inj {st : Machine} {pagetable va n : Nat}
    (hpages : ∀ i < n, ∀ j < n, PGROUNDDOWN (va + i) ≠ PGROUNDDOWN (va + j) →
      walkaddr st pagetable (PGROUNDDOWN (va + i)) ≠ walkaddr st pagetable (PGROUNDDOWN (va + j)))
    {i j : Nat} (hi : i < n) (hj : j < n) (h : userAddr st pagetable (va + i) = userAddr st pagetable (va + j)) :
    i = j := by
  have hai := walkaddr_aligned st pagetable (PGROUNDDOWN (va + i))
  have haj := walkaddr_aligned st pagetable (PGROUNDDOWN (va + j))
  have hoi := sub_PGROUNDDOWN_lt (va + i)
  have hoj := sub_PGROUNDDOWN_lt (va + j)
  have hli := PGROUNDDOWN_le (va + i)
  have hlj := PGROUNDDOWN_le (va + j)
  simp only [userAddr] at h
  simp only [PGSIZE] at hai haj hoi hoj
  -- the same page address, so the same page, so the same offset
  have hP : walkaddr st pagetable (PGROUNDDOWN (va + i)) = walkaddr st pagetable (PGROUNDDOWN (va + j)) := by
    omega
  have hpage : PGROUNDDOWN (va + i) = PGROUNDDOWN (va + j) := by
    by_contra hne
    exact hpages i hi j hj hne hP
  omega

/-- **`copyout` and `copyin` fail exactly on the pages `walkaddr` does not
give, and are inverse.** Where neither writes a word of the table (no byte
of the range on a mapped page, and no byte of `dst[0..n)`, lies in a word
`walk` reads for the range): each returns `0` exactly when `walkaddr` gives
every page of `[va, va + n)`; `copyout` changes no byte but the range's
user bytes on mapped pages; and after a `copyout` that returns `0`, with the
range's pages on distinct physical pages and no user byte of the range a
byte of `src[0..n)` or `dst[0..n)`, `copyin` returns `0` and leaves
`dst[0..n)` equal to `src[0..n)` as it was. -/
theorem copyout_copyin_inverse (st : Machine) (pagetable va n src dst : Nat)
    (hout : OutKeepsTable st pagetable va n) (hin : InKeepsTable st pagetable va dst n) :
    ((copyout st pagetable va src n).2 = 0 ↔ Mapped st pagetable va n) ∧
      ((copyin st pagetable dst va n).2 = 0 ↔ Mapped st pagetable va n) ∧
      (∀ b, (∀ i < n, walkaddr st pagetable (PGROUNDDOWN (va + i)) ≠ 0 → userAddr st pagetable (va + i) ≠ b) →
        load (copyout st pagetable va src n).1.mem b = load st.mem b) ∧
      ((copyout st pagetable va src n).2 = 0 →
        (∀ i < n, ∀ j < n, PGROUNDDOWN (va + i) ≠ PGROUNDDOWN (va + j) →
          walkaddr st pagetable (PGROUNDDOWN (va + i)) ≠ walkaddr st pagetable (PGROUNDDOWN (va + j))) →
        (∀ i < n, ∀ j < n, userAddr st pagetable (va + i) ≠ src + j ∧ userAddr st pagetable (va + i) ≠ dst + j) →
        (copyin (copyout st pagetable va src n).1 pagetable dst va n).2 = 0 ∧
          ∀ j < n, load (copyin (copyout st pagetable va src n).1 pagetable dst va n).1.mem (dst + j) =
            load st.mem (src + j)) := by
  obtain ⟨hiff, hst, hkeep, hframe, hcopied⟩ := @copyout_spec st pagetable va src n hout
  refine ⟨hiff, (@copyin_spec st pagetable va dst n hin).1, hframe, fun hok hpages hdisj => ?_⟩
  have hcp := hcopied hok (fun i hi j hj h => userAddr_inj hpages hi hj h) fun i hi j hj => (hdisj i hi j hj).1
  -- `copyin` on the machine `copyout` left, whose table reads as before
  set mem1 := (copyout st pagetable va src n).1.mem
  rw [hst]
  have hin1 : InKeepsTable { st with mem := mem1 } pagetable va dst n :=
    fun i hi h => hin i hi ((hkeep.tableWord _).mp h)
  obtain ⟨hiff2, -, -, -, hcopied2⟩ := @copyin_spec { st with mem := mem1 } pagetable va dst n hin1
  have hok2 : (copyin { st with mem := mem1 } pagetable dst va n).2 = 0 :=
    hiff2.mpr fun j hj => by rw [hkeep.walkaddr hj]; exact hiff.mp hok j hj
  refine ⟨hok2, fun j hj => ?_⟩
  rw [hcopied2 hok2 (fun i hi j hj => by rw [hkeep.userAddr hi]; exact (hdisj i hi j hj).2) j hj, hkeep.userAddr hj]
  exact hcp j hj

/-- Two user pages, `0` and `0x1000`, on `0x80000000` and `0x80001000`,
through a four-level table at `0x80400000`. -/
def twoPages : Machine :=
  ⟨fun a =>
    if a = 0x80400000 then PA2PTE 0x80401000 ||| PTE_V
    else if a = 0x80401000 then PA2PTE 0x80402000 ||| PTE_V
    else if a = 0x80402000 then PA2PTE 0x80403000 ||| PTE_V
    else if a = 0x80403000 then PA2PTE 0x80000000 ||| PTE_R ||| PTE_W ||| PTE_U ||| PTE_V
    else if a = 0x80403008 then PA2PTE 0x80001000 ||| PTE_R ||| PTE_W ||| PTE_U ||| PTE_V
    else 0, tableNode, ⟨0, 0, 0, 0⟩, []⟩

/-- Four bytes across the two pages go out from `0x80010000` and back in to
`0x80020000`. -/
theorem copyout_copyin_inverse_across_pages :
    (copyin (copyout twoPages 0x80400000 4094 0x80010000 4).1 0x80400000 0x80020000 4094 4).2 = 0 ∧
      ∀ j < 4, load (copyin (copyout twoPages 0x80400000 4094 0x80010000 4).1 0x80400000 0x80020000 4094 4).1.mem
        (0x80020000 + j) = load twoPages.mem (0x80010000 + j) := by
  obtain ⟨hiff, -, -, hround⟩ := copyout_copyin_inverse twoPages 0x80400000 4094 4 0x80010000 0x80020000
    (by decide +kernel) (by decide +kernel)
  exact hround (hiff.mpr (by decide +kernel)) (by decide +kernel) (by decide +kernel)

/-- A four-level table at `0x80400000` whose one leaf, for page `0`, is
valid, readable, writable and the user's, with page number `0`. -/
def pageZeroLeaf : Machine :=
  ⟨fun a =>
    if a = 0x80400000 then PA2PTE 0x80401000 ||| PTE_V
    else if a = 0x80401000 then PA2PTE 0x80402000 ||| PTE_V
    else if a = 0x80402000 then PA2PTE 0x80403000 ||| PTE_V
    else if a = 0x80403000 then PTE_R ||| PTE_W ||| PTE_U ||| PTE_V
    else 0, tableNode, ⟨0, 0, 0, 0⟩, []⟩

/-- **A user page on physical page `0` reads as unmapped.** Page `0` lies
below `MAX_VA`, and the leaf `walk` finds for it is valid and has `PTE_U`;
but `walkaddr` returns its page, `0`, which is also its answer for no
mapping, so `copyout` and `copyin` of one byte there return `-1`. -/
theorem copyout_fails_on_physical_page_zero :
    0 < MAX_VA ∧ (walkLoop pageZeroLeaf 0x80400000 0 false WALK_LEVEL).2 ≠ 0 ∧
      pageZeroLeaf.mem (walkLoop pageZeroLeaf 0x80400000 0 false WALK_LEVEL).2 &&& PTE_V ≠ 0 ∧
      pageZeroLeaf.mem (walkLoop pageZeroLeaf 0x80400000 0 false WALK_LEVEL).2 &&& PTE_U ≠ 0 ∧
      (copyout pageZeroLeaf 0x80400000 0 0x80010000 1).2 = -1 ∧
      (copyin pageZeroLeaf 0x80400000 0x80020000 0 1).2 = -1 := by
  have hpa : walkaddr pageZeroLeaf 0x80400000 (PGROUNDDOWN 0) = 0 := by decide +kernel
  refine ⟨by decide +kernel, by decide +kernel, by decide +kernel, by decide +kernel, ?_, ?_⟩
  · rw [copyout, userCopyLoop_unmapped _ _ _ _ _ _ one_ne_zero hpa]
  · rw [copyin, userCopyLoop_unmapped _ _ _ _ _ _ one_ne_zero hpa]

end Vm

end Mkros
