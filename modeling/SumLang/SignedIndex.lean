/-!
# Signed indexes

The elements of an array are found from either end: an index from zero on counts from the
first, a negative one from behind the last, so that `-1` is the last element.  An index has an
element exactly if it lies between minus the size and the size: `isSome_signedGet?`.
-/
namespace SumLang

variable {α : Type}

/-- The element at an index, which counts from the end if it is negative. -/
def signedGet? (xs : Array α) (i : Int) : Option α :=
  let k := if i < 0 then xs.size + i else i
  if k < 0 then none else xs[k.toNat]?

theorem signedGet?_of_nonneg (xs : Array α) {i : Int} (h : 0 ≤ i) :
    signedGet? xs i = xs[i.toNat]? := by
  have hi : ¬ i < 0 := by omega
  simp [signedGet?, hi]

theorem signedGet?_of_neg (xs : Array α) {i : Int} (hle : -xs.size ≤ i) (hneg : i < 0) :
    signedGet? xs i = xs[(xs.size + i).toNat]? := by
  have hk : ¬ xs.size + i < 0 := by omega
  simp [signedGet?, hneg, hk]

@[simp] theorem signedGet?_natCast (xs : Array α) (i : Nat) : signedGet? xs i = xs[i]? := by
  simp [signedGet?_of_nonneg xs (Int.natCast_nonneg i)]

theorem isSome_signedGet? (xs : Array α) (i : Int) :
    (signedGet? xs i).isSome ↔ -xs.size ≤ i ∧ i < xs.size := by
  unfold signedGet?
  by_cases hi : i < 0
  · by_cases hk : xs.size + i < 0
    · simp [hi, hk]
      omega
    · simp [hi, hk]
      omega
  · simp [hi]
    omega

theorem lt_size_of_signedGet? {xs : Array α} {i : Int} {x : α}
    (h : signedGet? xs i = some x) : i < xs.size :=
  ((isSome_signedGet? xs i).mp (by simp [h])).2

end SumLang
