/-
Rows as worlds. Below the word size the bit of a column is the bit of the row's
number (`rowBit_of_lt`). Past it a column is false, until its position is too large for 32
bits and starts again at the first bit (`Assignment.world_eq_true_iff_testBit`). Over
distinct columns, fewer than 64 of them, the row numbers below `2 ^ n` are the same thing
as the choices of a truth value for every column: each world is met on the columns by the
row `rowOf` (`world_rowOf`), and by no other (`row_ext`).
-/
import Mathlib.Algebra.Group.Nat.Defs
import Mathlib.Data.List.Nodup
import Mathlib.Data.Nat.Init
import Reasoner.Assignment

namespace Reasoner

/-! ## Bits of a row -/

theorem shiftRight_and_one_beq (n i : Nat) : (n >>> i &&& 1 == 1) = n.testBit i := by
  rw [Nat.testBit_eq_decide_div_mod_eq, Nat.shiftRight_eq_div_pow, Nat.and_one_is_mod]
  rfl

/-- The bit of a column, its position taken as a 32-bit word. -/
theorem rowBit_eq (row : UInt64) (i : Nat) :
    rowBit row i = (decide (i % 2 ^ 32 < 64) && row.toNat.testBit (i % 2 ^ 32)) := by
  have hpos : i.toUInt32.toNat = i % 2 ^ 32 := rfl
  have hlt : (i.toUInt32 < 64) = (i % 2 ^ 32 < 64) := by
    rw [UInt32.lt_iff_toNat_lt, hpos]
    rfl
  by_cases h : i % 2 ^ 32 < 64
  · have hshift : (row >>> i.toUInt32.toUInt64).toNat = row.toNat >>> (i % 2 ^ 32) := by
      rw [UInt64.toNat_shiftRight, UInt32.toNat_toUInt64, hpos, Nat.mod_eq_of_lt h]
    have hbit : ((row >>> i.toUInt32.toUInt64) &&& 1 == 1) = row.toNat.testBit (i % 2 ^ 32) := by
      rw [← shiftRight_and_one_beq, ← hshift, Bool.eq_iff_iff, beq_iff_eq, beq_iff_eq,
        ← UInt64.toNat_inj, UInt64.toNat_and]
      rfl
    simp only [rowBit, hlt, hbit]
  · simp only [rowBit, hlt, h, decide_false, Bool.false_and]

theorem rowBit_of_lt (row : UInt64) {i : Nat} (h : i < 64) : rowBit row i = row.toNat.testBit i := by
  have hmod : i % 2 ^ 32 = i := Nat.mod_eq_of_lt (by omega)
  rw [rowBit_eq, hmod, decide_eq_true h, Bool.true_and]

/-! ## The world of a row -/

theorem anyColumn_eq_true {row : UInt64} {s : Symbol} {i : Nat} {columns : List Symbol} :
    anyColumn row s i columns = true ↔
      ∃ j, columns[j]? = some s ∧ rowBit row (i + j) = true := by
  induction columns generalizing i with
  | nil => simp [anyColumn]
  | cons c columns ih =>
    rw [anyColumn, Bool.or_eq_true, Bool.and_eq_true, decide_eq_true_eq, ih]
    constructor
    · rintro (⟨hb, rfl⟩ | ⟨j, hj, hb⟩)
      · exact ⟨0, rfl, hb⟩
      · exact ⟨j + 1, hj, by rwa [Nat.add_right_comm, Nat.add_assoc] at hb⟩
    · rintro ⟨_ | j, hj, hb⟩
      · exact .inl ⟨hb, by simpa using hj⟩
      · exact .inr ⟨j, by simpa using hj, by rwa [Nat.add_right_comm, Nat.add_assoc]⟩

namespace Assignment

theorem world_eq_true {a : Assignment} {s : Symbol} :
    a.world s = true ↔ ∃ j, a.columns[j]? = some s ∧ rowBit a.row j = true := by
  rw [world, anyColumn_eq_true]
  simp only [Nat.zero_add]

theorem world_of_not_mem {a : Assignment} {s : Symbol} (h : s ∉ a.columns) : a.world s = false := by
  rw [← Bool.not_eq_true, world_eq_true]
  rintro ⟨j, hj, -⟩
  exact h (List.mem_of_getElem? hj)

/-- Over distinct columns each column has its own bit. -/
theorem world_getElem {columns : List Symbol} (hn : columns.Nodup) (hlen : columns.length < 64)
    (row : UInt64) {i : Nat} (hi : i < columns.length) :
    world ⟨columns, row⟩ columns[i] = row.toNat.testBit i := by
  rw [Bool.eq_iff_iff, world_eq_true]
  constructor
  · rintro ⟨j, hj, hb⟩
    obtain ⟨hjl, hj⟩ := List.getElem?_eq_some_iff.1 hj
    obtain rfl : j = i := (hn.getElem_inj_iff).1 hj
    rwa [rowBit_of_lt row (by omega)] at hb
  · intro hb
    exact ⟨i, List.getElem?_eq_getElem hi, by rwa [rowBit_of_lt row (by omega)]⟩

/-! ## Columns past the last bit -/

/-- A column counts at its position as a 32-bit word. -/
theorem world_eq_true_iff_testBit {a : Assignment} {s : Symbol} :
    a.world s = true ↔ ∃ i, a.columns[i]? = some s ∧ i % 2 ^ 32 < 64 ∧
      a.row.toNat.testBit (i % 2 ^ 32) = true := by
  simp only [world_eq_true, rowBit_eq, Bool.and_eq_true, decide_eq_true_eq]

/-- **Which columns make a symbol true.** Those of its name whose bit in the row is set, the
position of a column taken as a 32-bit word. Over `2 ^ 32` columns or fewer this is the
position itself, and the columns from 64 on never count. -/
theorem true_iff_column_bit (columns : List Symbol) (row : UInt64) (s : Symbol) :
    (world ⟨columns, row⟩ s = true ↔
      ∃ i, columns[i]? = some s ∧ i % 2 ^ 32 < 64 ∧ row.toNat.testBit (i % 2 ^ 32) = true) ∧
    (columns.length ≤ 2 ^ 32 →
      (world ⟨columns, row⟩ s = true ↔
        ∃ i < 64, columns[i]? = some s ∧ row.toNat.testBit i = true)) := by
  refine ⟨world_eq_true_iff_testBit, fun hlen => ?_⟩
  rw [world_eq_true_iff_testBit]
  constructor
  · rintro ⟨i, hi, hlow, hbit⟩
    obtain ⟨hplace, -⟩ := List.getElem?_eq_some_iff.1 hi
    have hmod : i % 2 ^ 32 = i := Nat.mod_eq_of_lt (Nat.lt_of_lt_of_le hplace hlen)
    rw [hmod] at hlow hbit
    exact ⟨i, hlow, hi, hbit⟩
  · rintro ⟨i, hlow, hi, hbit⟩
    have hmod : i % 2 ^ 32 = i := Nat.mod_eq_of_lt (by omega)
    exact ⟨i, hi, by rwa [hmod], by rwa [hmod]⟩

/-- With every bit set, the last column that has a bit is true, and the next is not. -/
theorem true_iff_column_bit_last :
    let a : Symbol := ⟨"a"⟩
    let b : Symbol := ⟨"b"⟩
    let c : Symbol := ⟨"c"⟩
    let columns := List.replicate 63 a ++ [b, c]
    let row : UInt64 := .ofNat (2 ^ 64 - 1)
    columns.length ≤ 2 ^ 32 ∧ world ⟨columns, row⟩ b = true ∧ world ⟨columns, row⟩ c = false := by
  intro a b c columns row
  have hlen : columns.length ≤ 2 ^ 32 := by decide
  have hplace : ∀ i < 64, columns[i]? ≠ some c := by decide
  refine ⟨hlen, ?_, ?_⟩
  · exact ((true_iff_column_bit columns row b).2 hlen).2 ⟨63, by decide, rfl, by decide⟩
  · rw [← Bool.not_eq_true, (true_iff_column_bit columns row c).2 hlen]
    rintro ⟨i, hi, hc, -⟩
    exact hplace i hi hc

theorem getElem?_replicate_concat {a b : Symbol} (hne : a ≠ b) {n i : Nat} :
    (List.replicate n a ++ [b])[i]? = some b ↔ i = n := by
  rcases Nat.lt_or_ge i n with hlt | hge
  · rw [List.getElem?_append_left (by rwa [List.length_replicate]), List.getElem?_replicate_of_lt hlt]
    exact iff_of_false (by simpa using hne) (by omega)
  · rw [List.getElem?_append_right (by rwa [List.length_replicate]), List.length_replicate,
      List.getElem?_singleton]
    split
    · exact iff_of_true rfl (by omega)
    · exact iff_of_false (by simp) (by omega)

/-- The column at position `2 ^ 32` is read at bit 0, although it stands past the last bit. -/
theorem far_column_read_at_zero :
    let a : Symbol := ⟨"a"⟩
    let b : Symbol := ⟨"b"⟩
    let columns := List.replicate (2 ^ 32) a ++ [b]
    world ⟨columns, 1⟩ b = true ∧
      ¬ ∃ i < 64, columns[i]? = some b ∧ (1 : UInt64).toNat.testBit i = true := by
  intro a b columns
  have hplace : ∀ i, columns[i]? = some b ↔ i = 2 ^ 32 := fun i =>
    getElem?_replicate_concat (by decide)
  constructor
  · exact world_eq_true_iff_testBit.2 ⟨2 ^ 32, (hplace _).2 rfl, by decide, by decide⟩
  · rintro ⟨i, hlow, hi, -⟩
    have hfar := (hplace i).1 hi
    omega

end Assignment

/-! ## The row of a world -/

/-- The number of the row in which every column has its value in `w`. -/
def rowNumber (columns : List Symbol) (w : World) : Nat :=
  Nat.ofBits fun i : Fin columns.length => w columns[i]

def rowOf (columns : List Symbol) (w : World) : UInt64 :=
  UInt64.ofNat (rowNumber columns w)

theorem toNat_rowOf {columns : List Symbol} (hlen : columns.length < 64) (w : World) :
    (rowOf columns w).toNat = rowNumber columns w := by
  have hlt : rowNumber columns w < 2 ^ columns.length := Nat.ofBits_lt_two_pow _
  have hle : 2 ^ columns.length ≤ 2 ^ 64 := Nat.pow_le_pow_right (by omega) (by omega)
  exact UInt64.toNat_ofNat_of_lt' (Nat.lt_of_lt_of_le hlt hle)

theorem toNat_rowOf_lt {columns : List Symbol} (hlen : columns.length < 64) (w : World) :
    (rowOf columns w).toNat < 2 ^ columns.length := by
  rw [toNat_rowOf hlen]
  exact Nat.ofBits_lt_two_pow _

/-- **Every choice of values has a row**: that of `w` agrees with `w` on the
columns. -/
theorem world_rowOf {columns : List Symbol} (hn : columns.Nodup) (hlen : columns.length < 64)
    (w : World) {s : Symbol} (hs : s ∈ columns) :
    Assignment.world ⟨columns, rowOf columns w⟩ s = w s := by
  obtain ⟨i, hi, rfl⟩ := List.getElem_of_mem hs
  rw [Assignment.world_getElem hn hlen _ hi, toNat_rowOf hlen, rowNumber,
    Nat.testBit_ofBits_lt _ i hi]
  rfl

/-- **Different rows are different choices.** -/
theorem row_ext {columns : List Symbol} (hn : columns.Nodup) (hlen : columns.length < 64)
    {r r' : UInt64} (hr : r.toNat < 2 ^ columns.length) (hr' : r'.toNat < 2 ^ columns.length)
    (h : ∀ s ∈ columns, Assignment.world ⟨columns, r⟩ s = Assignment.world ⟨columns, r'⟩ s) :
    r = r' := by
  rw [← UInt64.toNat_inj]
  refine Nat.eq_of_testBit_eq fun i => ?_
  by_cases hi : i < columns.length
  · have := h columns[i] (List.getElem_mem hi)
    rwa [Assignment.world_getElem hn hlen r hi, Assignment.world_getElem hn hlen r' hi] at this
  · have hle : 2 ^ columns.length ≤ 2 ^ i := Nat.pow_le_pow_right (by omega) (by omega)
    rw [Nat.testBit_lt_two_pow (by omega), Nat.testBit_lt_two_pow (by omega)]

end Reasoner
