/-
Truth tables read row by row. A reading answers for the next row and counts it, and at the
size there is no next row. So `k` readings give the answers of the first `k` rows
(`answers_take`) and leave the counter at `k`, or at the size if that comes first
(`readsOn_take`). What is left can still be sorted by its answers, each row once and in
order (`splitsRows_take`). Over distinct columns the rows are the choices of a truth value
for every column (`world_bijective`), and so a table goes through all of them.
-/
import Reasoner.Proofs.Assignment
import Reasoner.Proofs.TruthTable

namespace Reasoner.TruthTable

/-! ## Reading on -/

theorem next?_eq_none_iff {t : TruthTable} : t.next? = none ↔ t.size.toNat ≤ t.row.toNat := by
  rw [← UInt64.le_iff_toNat_le, ← UInt64.not_lt]
  unfold next?
  split
  next lt => simp [lt]
  next ge => simp [ge]

/-- `u` is `t` read `k` rows further, or to its end. -/
structure ReadsOn (t : TruthTable) (k : Nat) (u : TruthTable) : Prop where
  columns : u.columns = t.columns
  formulas : u.formulas = t.formulas
  size : u.size = t.size
  row : u.row.toNat = t.row.toNat + min k t.remaining

theorem readsOn_take (k : Nat) (t : TruthTable) : ReadsOn t k (t.take k).2 := by
  induction k generalizing t with
  | zero => exact ⟨rfl, rfl, rfl, by simp [take]⟩
  | succ k ih =>
    by_cases hlt : t.row < t.size
    · have hread : t.next? = some (t.isModel t.row, { t with row := t.row + 1 }) := if_pos hlt
      have hleft := remaining_of_next? hread
      obtain ⟨hcolumns, hformulas, hsize, hon⟩ := ih { t with row := t.row + 1 }
      rw [toNat_row_add_one hlt] at hon
      simp only [take, hread]
      exact ⟨hcolumns, hformulas, hsize, by omega⟩
    · have hread : t.next? = none := if_neg hlt
      have hend : t.remaining = 0 := Nat.sub_eq_zero_of_le (next?_eq_none_iff.1 hread)
      simp only [take, hread]
      exact ⟨rfl, rfl, rfl, by omega⟩

/-- The answers read are those of the first rows left, in their order. -/
theorem answers_take (k : Nat) (t : TruthTable) :
    (t.take k).1 = (t.rowsLeft.take k).map t.isModel := by
  induction k generalizing t with
  | zero => simp [take]
  | succ k ih =>
    cases hread : t.next? with
    | none => simp [take, hread, rowsLeft_of_next?_none hread]
    | some answer =>
      obtain ⟨b, u⟩ := answer
      obtain ⟨hb, hu, hrows⟩ := rowsLeft_of_next?_some hread
      -- the answers do not depend on how far the table has been read
      have hmodel : u.isModel = t.isModel := by rw [hu]; rfl
      simp only [take, hread]
      rw [ih u, hrows, hmodel, hb, List.take_succ_cons, List.map_cons]

/-! ## Sorting what is left -/

/-- The rows left after `k`, sorted by whether all formulas hold in them. -/
structure SplitsRows (columns : List Symbol) (formulas : List Formula) (k : Nat)
    (trueRows falseRows : List UInt64) : Prop where
  increasing_true : trueRows.Pairwise (· < ·)
  increasing_false : falseRows.Pairwise (· < ·)
  disjoint : trueRows.Disjoint falseRows
  /-- Together they are the rows left. -/
  rows : ∀ row, row ∈ trueRows ∨ row ∈ falseRows ↔ k ≤ row.toNat ∧ row.toNat < 2 ^ columns.length
  models : ∀ row ∈ trueRows, ∀ p ∈ formulas, p.holds (Assignment.world ⟨columns, row⟩) = true
  countermodels : ∀ row ∈ falseRows, ∃ p ∈ formulas, p.holds (Assignment.world ⟨columns, row⟩) = false

section Columns

variable {columns : List Symbol} {formulas : List Formula} {t : TruthTable}
  (h : ofColumns? columns formulas = some t)
include h

theorem remaining_ofColumns? : t.remaining = 2 ^ columns.length := by
  obtain ⟨-, -, -, hrow, hsize⟩ := ofColumns?_eq_some h
  rw [remaining, hrow, hsize]
  rfl

theorem rowsLeft_ofColumns? : t.rowsLeft = (List.range (2 ^ columns.length)).map UInt64.ofNat := by
  obtain ⟨-, -, -, hrow, -⟩ := ofColumns?_eq_some h
  rw [rowsLeft, remaining_ofColumns? h, hrow, List.range_eq_range']
  rfl

theorem isModel_ofColumns? (row : UInt64) :
    t.isModel row = decide (∀ p ∈ formulas, p.holds (Assignment.world ⟨columns, row⟩) = true) := by
  obtain ⟨-, hcolumns, hformulas, -, -⟩ := ofColumns?_eq_some h
  rw [isModel, hcolumns, hformulas, List.all_eq]

theorem splitsRows_take (k : Nat) :
    SplitsRows columns formulas k (t.take k).2.trueRows (t.take k).2.falseRows := by
  obtain ⟨-, -, -, hrow, hsize⟩ := ofColumns?_eq_some h
  have hread := readsOn_take k t
  -- a row is left when it comes at `k` or later, and the size bounds it
  have hleft : ∀ row : UInt64, ((t.take k).2.row ≤ row ∧ row < (t.take k).2.size) ↔
      k ≤ row.toNat ∧ row.toNat < 2 ^ columns.length := by
    intro row
    have hat := hread.row
    rw [remaining_ofColumns? h, hrow] at hat
    simp only [UInt64.toNat_zero, Nat.zero_add] at hat
    rw [UInt64.le_iff_toNat_le, UInt64.lt_iff_toNat_lt, hread.size, hsize, hat]
    omega
  have hmodel : ∀ row, (t.take k).2.isModel row =
      decide (∀ p ∈ formulas, p.holds (Assignment.world ⟨columns, row⟩) = true) := by
    intro row
    rw [← isModel_ofColumns? h, isModel, isModel, hread.columns, hread.formulas]
  refine ⟨pairwise_collect true _, pairwise_collect false _, ?_, ?_, ?_, ?_⟩
  · intro row htrue hfalse
    have hno := (mem_collect.1 hfalse).2
    rw [(mem_collect.1 htrue).2] at hno
    cases hno
  · intro row
    have heither : (t.take k).2.isModel row = true ∨ (t.take k).2.isModel row = false :=
      Bool.eq_false_or_eq_true _
    rw [trueRows, falseRows, mem_collect, mem_collect, ← and_or_left, hleft, and_iff_left heither]
  · intro row htrue
    have hyes := (mem_collect.1 htrue).2
    rwa [hmodel, decide_eq_true_eq] at hyes
  · intro row hfalse
    have hno := (mem_collect.1 hfalse).2
    rw [hmodel, decide_eq_false_iff_not] at hno
    simpa using hno

end Columns

/-! ## Rows and choices -/

/-- **Rows are choices.** Over distinct columns each choice of truth values for them is that
of one row. -/
theorem world_bijective {columns : List Symbol} (hn : columns.Nodup) (hlen : columns.length < 64)
    {size : UInt64} (hsize : size.toNat = 2 ^ columns.length) :
    Function.Bijective fun (row : {r : UInt64 // r < size}) (s : {s // s ∈ columns}) =>
      Assignment.world ⟨columns, row⟩ s := by
  constructor
  · rintro ⟨r, hr⟩ ⟨r', hr'⟩ heq
    rw [UInt64.lt_iff_toNat_lt, hsize] at hr hr'
    have hrow : r = r' := row_ext hn hlen hr hr' fun s hs => congrFun heq ⟨s, hs⟩
    exact Subtype.ext hrow
  · intro v
    let w : World := fun s => if hs : s ∈ columns then v ⟨s, hs⟩ else false
    have hlt : rowOf columns w < size := by
      rw [UInt64.lt_iff_toNat_lt, hsize]
      exact toNat_rowOf_lt hlen w
    refine ⟨⟨rowOf columns w, hlt⟩, ?_⟩
    funext s
    have hworld := world_rowOf hn hlen w s.2
    simpa [w, s.2] using hworld

/-! ## The whole table -/

/-- **A truth table goes through every row once.** There is none over 64 columns or more.
Otherwise, also where columns share a name, reading on gives `2 ^ n` answers, and the answer
at place `r` is whether all formulas hold in row `r`. The counter is the number of rows
read; it stops at the size, where the table ends, and so it never wraps round. Wherever a
reader stands, the rows left are the rows with the answer true and those with the answer
false, both in increasing order. Over distinct columns each choice of truth values for the
columns is that of exactly one row. -/
theorem every_row_read_once (columns : List Symbol) (formulas : List Formula) :
    (ofColumns? columns formulas = none ↔ 64 ≤ columns.length) ∧
    ∀ t, ofColumns? columns formulas = some t →
      (∀ k, (t.take k).1 = (List.range (min k (2 ^ columns.length))).map fun r =>
        decide (∀ p ∈ formulas, p.holds (Assignment.world ⟨columns, .ofNat r⟩) = true)) ∧
      (∀ k, let u := (t.take k).2
        u.size.toNat = 2 ^ columns.length ∧ u.row.toNat = min k (2 ^ columns.length) ∧
        u.row ≤ u.size ∧ (u.next? = none ↔ 2 ^ columns.length ≤ k) ∧
        SplitsRows columns formulas k u.trueRows u.falseRows) ∧
      (columns.Nodup →
        Function.Bijective fun (row : {r : UInt64 // r < t.size}) (s : {s // s ∈ columns}) =>
          Assignment.world ⟨columns, row⟩ s) := by
  refine ⟨ofColumns?_eq_none_iff, fun t h => ?_⟩
  obtain ⟨hlen, -, -, hrow, hsize⟩ := ofColumns?_eq_some h
  refine ⟨fun k => ?_, fun k => ?_, fun hn => world_bijective hn hlen hsize⟩
  · rw [answers_take, rowsLeft_ofColumns? h, ← List.map_take, List.take_range, List.map_map]
    exact List.map_congr_left fun r _ => isModel_ofColumns? h _
  · intro u
    have hread : ReadsOn t k u := readsOn_take k t
    have husize : u.size.toNat = 2 ^ columns.length := by rw [hread.size, hsize]
    have hat : u.row.toNat = min k (2 ^ columns.length) := by
      rw [hread.row, remaining_ofColumns? h, hrow]
      exact Nat.zero_add _
    refine ⟨husize, hat, ?_, ?_, splitsRows_take h k⟩
    · rw [UInt64.le_iff_toNat_le]
      omega
    · rw [next?_eq_none_iff]
      omega

/-- Over `a` and `b` the formula `a || b` fails in row 0 only. After two readings rows 2 and
3 are left, and one row makes `a` false and `b` true. -/
theorem every_row_read_once_disjunction :
    let a : Symbol := ⟨"a"⟩
    let b : Symbol := ⟨"b"⟩
    let formulas : List Formula := [.binary .or (.symbol a) (.symbol b)]
    let t : TruthTable := ⟨[a, b], formulas, 4, 0⟩
    ofColumns? [a, b] formulas = some t ∧ [a, b].Nodup ∧
      (t.take 9).1 = [false, true, true, true] ∧ (t.take 9).2.row = 4 ∧
      (∀ row, row ∈ (t.take 2).2.trueRows ∨ row ∈ (t.take 2).2.falseRows ↔
        2 ≤ row.toNat ∧ row.toNat < 4) ∧
      ∃! row : {r : UInt64 // r < t.size}, ∀ s : {s // s ∈ [a, b]},
        Assignment.world ⟨[a, b], row⟩ s = decide (s.val = b) := by
  intro a b formulas t
  have ht : ofColumns? [a, b] formulas = some t := rfl
  have hn : [a, b].Nodup := by decide
  obtain ⟨hanswers, hread, hrows⟩ := (every_row_read_once [a, b] formulas).2 t ht
  have hend : (t.take 9).2.row.toNat = min 9 (2 ^ 2) := (hread 9).2.1
  refine ⟨ht, hn, (hanswers 9).trans (by decide), UInt64.toNat_inj.1 hend,
    (hread 2).2.2.2.2.rows, ?_⟩
  have hone := (hrows hn).existsUnique fun s => decide (s.val = b)
  simpa only [funext_iff] using hone

end Reasoner.TruthTable
