/-
Truth values that may still be open. A statement holds, fails, or is not yet
known to do either; `Truth.toBool?` forgets nothing but the last.
-/

namespace Reasoner

/-- Three-valued truth. -/
inductive Truth where
  | holds
  | fails
  | unknown
deriving DecidableEq

namespace Truth

instance : Inhabited Truth := ⟨unknown⟩

def ofBool : Bool → Truth
  | true => holds
  | false => fails

/-- The two-valued truth, `none` while unknown. -/
def toBool? : Truth → Option Bool
  | holds => some true
  | fails => some false
  | unknown => none

def isKnown (t : Truth) : Bool :=
  t.toBool?.isSome

def not : Truth → Truth
  | holds => fails
  | fails => holds
  | unknown => unknown

/-- The value under a sign: kept as it is, or turned round. -/
def signed (t : Truth) (positive : Bool) : Truth :=
  if positive then t else t.not

/-- The one-letter form used in reports. -/
def text : Truth → String
  | holds => "T"
  | fails => "F"
  | unknown => "?"

@[simp] theorem toBool?_ofBool (b : Bool) : (ofBool b).toBool? = some b := by
  cases b <;> rfl

@[simp] theorem not_not (t : Truth) : t.not.not = t := by
  cases t <;> rfl

theorem toBool?_eq_some {t : Truth} {b : Bool} : t.toBool? = some b ↔ t = ofBool b := by
  cases t <;> cases b <;> simp [toBool?, ofBool]

end Truth

end Reasoner
