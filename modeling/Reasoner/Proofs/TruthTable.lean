/-
Reading a truth table to its end. The rows still to be read are the numbers from
the next row up to the size (`mem_rowsLeft`), in increasing order, and `collect`
keeps those with the wanted answer (`collect_eq`). A table exists over fewer than
64 columns, and over no more than that.
-/
import Mathlib.Algebra.Group.Nat.Defs
import Mathlib.Data.List.Basic
import Reasoner.TruthTable

namespace Reasoner

namespace TruthTable

/-! ## The rows still to be read -/

/-- The rows still to be read, in the order in which they are read. -/
def rowsLeft (t : TruthTable) : List UInt64 :=
  (List.range' t.row.toNat t.remaining).map UInt64.ofNat

theorem mem_rowsLeft {t : TruthTable} {row : UInt64} :
    row ∈ t.rowsLeft ↔ t.row ≤ row ∧ row < t.size := by
  have hsize : t.size.toNat < UInt64.size := t.size.toNat_lt
  rw [rowsLeft, List.mem_map, UInt64.le_iff_toNat_le, UInt64.lt_iff_toNat_lt]
  simp only [List.mem_range'_1, remaining]
  constructor
  · rintro ⟨n, hn, rfl⟩
    rw [UInt64.toNat_ofNat_of_lt' (by omega)]
    omega
  · intro h
    exact ⟨row.toNat, by omega, UInt64.ofNat_toNat⟩

theorem pairwise_rowsLeft (t : TruthTable) : t.rowsLeft.Pairwise (· < ·) := by
  have hsize : t.size.toNat < UInt64.size := t.size.toNat_lt
  rw [rowsLeft, List.pairwise_map]
  refine List.Pairwise.imp_of_mem ?_ List.pairwise_lt_range'
  intro m n hm hn hmn
  simp only [List.mem_range'_1, remaining] at hm hn
  rw [UInt64.lt_iff_toNat_lt, UInt64.toNat_ofNat_of_lt' (by omega),
    UInt64.toNat_ofNat_of_lt' (by omega)]
  exact hmn

theorem rowsLeft_of_next?_none {t : TruthTable} (h : t.next? = none) : t.rowsLeft = [] := by
  rw [List.eq_nil_iff_forall_not_mem]
  intro row hrow
  obtain ⟨hlow, hhigh⟩ := mem_rowsLeft.1 hrow
  have hlt : t.row < t.size := UInt64.lt_of_le_of_lt hlow hhigh
  simp [next?, hlt] at h

/-- Reading a row answers for the first of the rows left and leaves the others. -/
theorem rowsLeft_of_next?_some {t u : TruthTable} {b : Bool} (h : t.next? = some (b, u)) :
    b = t.isModel t.row ∧ u = { t with row := t.row + 1 } ∧ t.rowsLeft = t.row :: u.rowsLeft := by
  unfold next? at h
  split at h
  next lt =>
    cases h
    refine ⟨rfl, rfl, ?_⟩
    have hlt : t.row.toNat < t.size.toNat := UInt64.lt_iff_toNat_lt.1 lt
    have hcount : t.size.toNat - t.row.toNat = (t.size.toNat - (t.row.toNat + 1)) + 1 := by omega
    simp only [rowsLeft, remaining, toNat_row_add_one lt]
    rw [hcount, List.range'_succ, List.map_cons, UInt64.ofNat_toNat]
  next => cases h

/-- **Collecting keeps the rows with the wanted answer**, in their order. -/
theorem collect_eq (wanted : Bool) (t : TruthTable) (found : List UInt64) :
    t.collect wanted found =
      found.reverse ++ t.rowsLeft.filter fun row => t.isModel row = wanted := by
  fun_induction collect wanted t found with
  | case1 t found hread => rw [rowsLeft_of_next?_none hread, List.filter_nil, List.append_nil]
  | case2 t found b u hread ih =>
    obtain ⟨rfl, rfl, hrows⟩ := rowsLeft_of_next?_some hread
    -- the answers do not depend on how far the table has been read
    have hmodel : isModel { t with row := t.row + 1 } = t.isModel := rfl
    by_cases hb : t.isModel t.row = wanted
    · simp only [hb, hmodel, UInt64.add_sub_cancel, dite_true, if_true] at ih ⊢
      rw [ih, hrows]
      simp [hb]
    · simp only [hb, hmodel, dite_false, if_false] at ih ⊢
      rw [ih, hrows]
      simp [hb]

theorem mem_collect {wanted : Bool} {t : TruthTable} {row : UInt64} :
    row ∈ t.collect wanted [] ↔ (t.row ≤ row ∧ row < t.size) ∧ t.isModel row = wanted := by
  rw [collect_eq, List.reverse_nil, List.nil_append, List.mem_filter, mem_rowsLeft,
    decide_eq_true_eq]

/-! ## Tables over columns -/

/-- The rows can be counted in 64 bits when there are fewer columns than bits. -/
theorem rowCount_lt_size_iff {n : Nat} : rowCount n < UInt64.size ↔ n < 64 := by
  have hpow : (2 : Nat) ^ n < 2 ^ 64 ↔ n < 64 := Nat.pow_lt_pow_iff_right (by omega)
  exact hpow

theorem ofColumns?_eq_some {columns : List Symbol} {formulas : List Formula} {t : TruthTable}
    (h : ofColumns? columns formulas = some t) :
    columns.length < 64 ∧ t.columns = columns ∧ t.formulas = formulas ∧ t.row = 0 ∧
      t.size.toNat = 2 ^ columns.length := by
  unfold ofColumns? at h
  split at h
  next fits =>
    cases h
    refine ⟨?_, rfl, rfl, rfl, rfl⟩
    exact rowCount_lt_size_iff.1 fits
  next => cases h

theorem ofColumns?_eq_none_iff {columns : List Symbol} {formulas : List Formula} :
    ofColumns? columns formulas = none ↔ 64 ≤ columns.length := by
  unfold ofColumns?
  split
  next fits => simpa using rowCount_lt_size_iff.1 fits
  next full => simpa [rowCount_lt_size_iff] using full

theorem mem_trueRows_ofColumns? {columns : List Symbol} {formulas : List Formula} {t : TruthTable}
    (h : ofColumns? columns formulas = some t) {row : UInt64} :
    row ∈ t.trueRows ↔ row.toNat < 2 ^ columns.length ∧
      ∀ p ∈ formulas, p.holds (Assignment.world ⟨columns, row⟩) = true := by
  obtain ⟨-, hcolumns, hformulas, hrow, hsize⟩ := ofColumns?_eq_some h
  rw [trueRows, mem_collect, hrow, UInt64.lt_iff_toNat_lt, hsize, isModel, List.all_eq_true,
    hcolumns, hformulas]
  simp

theorem pairwise_collect (wanted : Bool) (t : TruthTable) :
    (t.collect wanted []).Pairwise (· < ·) := by
  rw [collect_eq]
  exact (pairwise_rowsLeft t).filter _

theorem pairwise_trueRows (t : TruthTable) : t.trueRows.Pairwise (· < ·) :=
  pairwise_collect true t

end TruthTable

end Reasoner
