/-
Partial valuations by how much they know. One truth value is below another when
it is unknown or the same, and `k ≤ j` says that `j` knows all that `k` knows,
with the same values. Evaluation respects this order (`value_mono`), and a world
is a valuation with nothing left unknown, so a value settled under `k` is the
value in every world that respects `k` (`holds_of_value`).
-/
import Mathlib.Order.Basic
import Reasoner.Formula

namespace Reasoner

namespace Truth

/-- The order of information: unknown is below every value. -/
instance : PartialOrder Truth where
  le t u := t = unknown ∨ t = u
  le_refl _ := .inr rfl
  le_trans t u v := by
    rintro (rfl | rfl) h
    · exact .inl rfl
    · exact h
  le_antisymm t u := by
    rintro (rfl | rfl) (h | h)
    · exact h.symm
    · exact h.symm
    · rfl
    · rfl

theorem le_iff {t u : Truth} : t ≤ u ↔ t = unknown ∨ t = u := Iff.rfl

@[simp] theorem unknown_le (t : Truth) : unknown ≤ t := .inl rfl

@[simp] theorem ofBool_ne_unknown (b : Bool) : ofBool b ≠ unknown := by
  cases b <;> simp [ofBool]

@[simp] theorem ofBool_inj {a b : Bool} : ofBool a = ofBool b ↔ a = b := by
  cases a <;> cases b <;> simp [ofBool]

@[simp] theorem ofBool_le {b : Bool} {t : Truth} : ofBool b ≤ t ↔ t = ofBool b := by
  rw [le_iff, or_iff_right (ofBool_ne_unknown b), eq_comm]

/-- A value is unknown or one of the two known ones. -/
theorem unknown_or_ofBool (t : Truth) : t = unknown ∨ ∃ b, t = ofBool b := by
  cases t with
  | holds => exact .inr ⟨true, rfl⟩
  | fails => exact .inr ⟨false, rfl⟩
  | unknown => exact .inl rfl

theorem toBool?_eq_none {t : Truth} : t.toBool? = none ↔ t = unknown := by
  cases t <;> simp [toBool?]

@[simp] theorem not_ofBool (b : Bool) : (ofBool b).not = ofBool !b := by
  cases b <;> rfl

theorem not_mono {t u : Truth} (h : t ≤ u) : t.not ≤ u.not := by
  rcases h with rfl | rfl
  · exact unknown_le _
  · exact le_rfl

theorem signed_mono {t u : Truth} (positive : Bool) (h : t ≤ u) :
    t.signed positive ≤ u.signed positive := by
  cases positive with
  | true => exact h
  | false => exact not_mono h

theorem signed_ofBool (b positive : Bool) : (ofBool b).signed positive = ofBool (b == positive) := by
  cases b <;> cases positive <;> rfl

theorem signed_eq_unknown {t : Truth} {positive : Bool} :
    t.signed positive = unknown ↔ t = unknown := by
  cases t <;> cases positive <;> simp [signed, not]

end Truth

/-! ## Evaluation respects the order -/

theorem Connective.onTruth_mono (c : Connective) {t t' u u' : Truth} (ht : t ≤ t') (hu : u ≤ u') :
    c.onTruth t u ≤ c.onTruth t' u' := by
  rcases ht with rfl | rfl
  · rcases hu with rfl | rfl
    · cases c <;> exact Truth.unknown_le _
    · cases c <;> cases u <;> cases t' <;> simp [onTruth, Truth.le_iff]
  · rcases hu with rfl | rfl
    · cases c <;> cases t <;> cases u' <;> simp [onTruth, Truth.le_iff]
    · exact le_rfl

namespace Formula

/-- What is settled stays settled when more becomes known. -/
theorem value_mono {k j : Valuation} (h : k ≤ j) (p : Formula) : p.value k ≤ p.value j := by
  induction p with
  | verum => exact le_rfl
  | symbol s => exact h s
  | not p ih => exact Truth.not_mono ih
  | binary c l r ihl ihr => exact c.onTruth_mono ihl ihr

theorem value_eq_of_le {k j : Valuation} (h : k ≤ j) {p : Formula} {b : Bool}
    (hp : p.value k = .ofBool b) : p.value j = .ofBool b := by
  have := value_mono h p
  rwa [hp, Truth.ofBool_le] at this

/-- A value depends on the formula's own symbols only. -/
theorem value_congr {k j : Valuation} {p : Formula} (h : ∀ s ∈ p.symbols, k s = j s) :
    p.value k = p.value j := by
  induction p with
  | verum => rfl
  | symbol s => exact h s (by simp [symbols])
  | not p ih => simp only [value, ih h]
  | binary c l r ihl ihr =>
    simp only [symbols, List.mem_append] at h
    simp only [value, ihl fun s hs => h s (.inl hs), ihr fun s hs => h s (.inr hs)]

theorem holds_congr {v w : World} {p : Formula} (h : ∀ s ∈ p.symbols, v s = w s) :
    p.holds v = p.holds w := by
  induction p with
  | verum => rfl
  | symbol s => exact h s (by simp [symbols])
  | not p ih => simp only [holds, ih h]
  | binary c l r ihl ihr =>
    simp only [symbols, List.mem_append] at h
    simp only [holds, ihl fun s hs => h s (.inl hs), ihr fun s hs => h s (.inr hs)]

end Formula

/-! ## Worlds -/

/-- To know at least what `k` knows is to agree with every known entry of `k`. -/
theorem Valuation.le_iff {k j : Valuation} : k ≤ j ↔ ∀ s b, k s = .ofBool b → j s = .ofBool b := by
  constructor
  · intro h s b hs
    have hle := h s
    rwa [hs, Truth.ofBool_le] at hle
  · intro h s
    rcases (k s).unknown_or_ofBool with hs | ⟨b, hs⟩
    · rw [hs]; exact Truth.unknown_le _
    · rw [hs, Truth.ofBool_le, h s b hs]

/-- A world as the valuation that leaves nothing unknown. -/
def World.valuation (w : World) : Valuation := fun s => .ofBool (w s)

/-- The world gives every symbol known under `k` its known value. -/
def World.Respects (w : World) (k : Valuation) : Prop :=
  ∀ s b, k s = .ofBool b → w s = b

theorem World.respects_iff {w : World} {k : Valuation} : w.Respects k ↔ k ≤ World.valuation w := by
  rw [Valuation.le_iff]
  simp only [World.Respects, World.valuation, Truth.ofBool_inj]

namespace Formula

theorem value_world (w : World) (p : Formula) :
    p.value (World.valuation w) = .ofBool (p.holds w) := by
  induction p with
  | verum => rfl
  | symbol s => rfl
  | not p ih => simp only [value, ih, holds, Truth.not_ofBool]
  | binary c l r ihl ihr => simp only [value, ihl, ihr, holds, Connective.onTruth_ofBool]

/-- **Settled values are right.** A value known under `k` is the value in every
world that respects `k`. -/
theorem holds_of_value {w : World} {k : Valuation} (hw : w.Respects k) {p : Formula} {b : Bool}
    (hp : p.value k = .ofBool b) : p.holds w = b := by
  have h := value_eq_of_le (World.respects_iff.1 hw) hp
  rwa [value_world, Truth.ofBool_inj] at h

/-- **A value, once settled, is settled for good.** What is settled under `k` keeps its
value under the valuations that know what `k` knows, and has it in the worlds that respect
`k`; single symbols show that it does so under no others. Nothing stays open in a world. -/
theorem value_settled_for_good (k : Valuation) :
    (∀ j : Valuation,
      (∀ (p : Formula) (b : Bool), p.value k = .ofBool b → p.value j = .ofBool b) ↔ k ≤ j) ∧
    (∀ w : World,
      (∀ (p : Formula) (b : Bool), p.value k = .ofBool b → p.holds w = b) ↔ w.Respects k) ∧
    ∀ (w : World) (p : Formula), p.value (World.valuation w) = .ofBool (p.holds w) := by
  refine ⟨fun j => ⟨fun h => ?_, fun hle p b hp => value_eq_of_le hle hp⟩,
    fun w => ⟨fun h => ?_, fun hw p b hp => holds_of_value hw hp⟩, value_world⟩
  · rw [Valuation.le_iff]
    intro s b hs
    exact h (.symbol s) b hs
  · intro s b hs
    exact h (.symbol s) b hs

/-- With `a` known to fail, `(a & b => c) || (b <=> c)` is settled while `b` and `c` are open,
and stays so when `b` becomes known and in a world where `c` fails. -/
theorem value_settled_for_good_short_circuit :
    let p : Formula := .binary .or
      (.binary .implies (.binary .and (.symbol ⟨"a"⟩) (.symbol ⟨"b"⟩)) (.symbol ⟨"c"⟩))
      (.binary .iff (.symbol ⟨"b"⟩) (.symbol ⟨"c"⟩))
    let k : Valuation := fun s => if s = ⟨"a"⟩ then .fails else .unknown
    let j : Valuation := fun s => if s = ⟨"b"⟩ then .holds else k s
    let w : World := fun s => s = ⟨"b"⟩
    p.value k = .holds ∧ k ≤ j ∧ p.value j = .holds ∧ w.Respects k ∧ p.holds w = true := by
  intro p k j w
  have hp : p.value k = .ofBool true := by decide
  have hle : k ≤ j := by
    intro s
    by_cases hs : s = ⟨"b"⟩
    · simp [k, hs]
    · simp [j, hs]
  have hw : w.Respects k := by
    intro s b hs
    by_cases ha : s = ⟨"a"⟩
    · cases b <;> simp_all [k, w, Truth.ofBool]
    · simp only [k, if_neg ha] at hs
      exact absurd hs.symm (Truth.ofBool_ne_unknown b)
  obtain ⟨hmono, hsound, -⟩ := value_settled_for_good k
  exact ⟨hp, hle, (hmono j).2 hle p true hp, hw, (hsound w).2 hw p true hp⟩

end Formula

end Reasoner
