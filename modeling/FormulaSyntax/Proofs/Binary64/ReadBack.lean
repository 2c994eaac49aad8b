import FormulaSyntax.Binary64.Shortest
import Mathlib.Algebra.Group.Nat.Defs

/-!
# The shortest decimal reads back

`shortest` tries grids of decimals and takes the first point that reads back. What it falls back
on, should no grid up to seventeen digits have such a point, is the exact value of the number.
**The exact value reads back, too** (`ofDecimal_exactDecimal`): the units of a number are a
multiple of the spacing of its band, so the rounding has nothing to do and the band and the place
come out again. Therefore `ofDecimal_shortest` needs no word on how many digits are enough.

The powers of ten in question have a thousand digits. They stay behind `Nat.pow`, and the proofs
only ever cancel them.

The last section bounds the index that a rounding gives, and concludes that every natural number
with a value below `2 ^ 64` has a finite double precision number next to it.
-/

set_option autoImplicit false

namespace FormulaSyntax

namespace Binary64

theorem bandSize_eq : bandSize = 2 ^ 52 := by decide

theorem unitsPerOne_eq : unitsPerOne = Nat.pow 2 1074 := by
  unfold unitsPerOne
  with_reducible rfl

/-! ## Rounding -/

theorem roundHalfEven_mul_right {k : Nat} (hk : 0 < k) (num den : Nat) :
    roundHalfEven (num * k) (den * k) = roundHalfEven num den := by
  have hlt : ∀ a b : Nat, a * k < b * k ↔ a < b := fun a b => Nat.mul_lt_mul_right hk
  simp only [roundHalfEven, Nat.mul_div_mul_right _ _ hk, Nat.mul_mod_mul_right,
    ← Nat.mul_assoc, hlt]

theorem roundHalfEven_mul_self {den : Nat} (h : 0 < den) (n : Nat) :
    roundHalfEven (n * den) den = n := by
  simp only [roundHalfEven, Nat.mul_div_cancel _ h, Nat.mul_mod_left, Nat.mul_zero, h, if_true]

theorem roundHalfEven_one (n : Nat) : roundHalfEven n 1 = n := by
  have h := roundHalfEven_mul_self Nat.one_pos n
  rwa [Nat.mul_one] at h

theorem nearestIndex_mul_right {k : Nat} (hk : 0 < k) (num den : Nat) :
    nearestIndex (num * k) (den * k) = nearestIndex num den := by
  simp only [nearestIndex, Nat.mul_div_mul_right _ _ hk]
  rw [Nat.mul_right_comm den k, roundHalfEven_mul_right hk]

/-! ## Whole numbers of units -/

/-- Every factor of two moves the first digit by one place. -/
theorem log2_mul_pow {n : Nat} (hn : n ≠ 0) (k : Nat) : (n * Nat.pow 2 k).log2 = n.log2 + k := by
  have hpow : 0 < 2 ^ k := Nat.two_pow_pos k
  rw [Nat.pow_eq, Nat.log2_eq_iff (Nat.mul_ne_zero hn (Nat.ne_of_gt hpow))]
  constructor
  · rw [Nat.pow_add]
    exact Nat.mul_le_mul_right _ (Nat.log2_self_le hn)
  · rw [Nat.add_right_comm, Nat.pow_add]
    exact (Nat.mul_lt_mul_right hpow).mpr Nat.lt_log2_self

/-- The binary logarithm in a band is the number of its first digits, less one, and the shift. -/
theorem log2_mul_two_pow {place : Nat} (h : place < bandSize) (shift : Nat) :
    ((bandSize + place) * 2 ^ shift).log2 = 52 + shift := by
  have hne : bandSize + place ≠ 0 := by
    rw [bandSize_eq]
    omega
  have hlead : (bandSize + place).log2 = 52 := by
    rw [bandSize_eq] at h hne ⊢
    rw [Nat.log2_eq_iff hne]
    omega
  rw [← hlead]
  exact log2_mul_pow hne shift

/-- **The number of units at an index is nearest to that index.** In the first band a unit is the
    spacing; in every other the units are the spacing times the first digits. -/
theorem nearestIndex_units (index : Nat) : nearestIndex (units index) 1 = index := by
  have hdiv : bandSize * (index / bandSize) + index % bandSize = index :=
    Nat.div_add_mod index bandSize
  have hplace : index % bandSize < bandSize := Nat.mod_lt _ (by decide)
  unfold units
  -- Only the sum of band and place is needed from here on.
  generalize index / bandSize = band at hdiv ⊢
  generalize index % bandSize = place at hdiv hplace ⊢
  by_cases hband : band = 0
  · subst hband
    have hlog : place.log2 - 52 = 0 := by
      by_cases hzero : place = 0
      · rw [hzero]
        decide
      · have hlt : place.log2 < 52 := (Nat.log2_lt hzero).mpr (bandSize_eq ▸ hplace)
        omega
    simp only [if_true, nearestIndex, Nat.div_one, hlog, Nat.zero_mul, Nat.zero_add, Nat.pow_eq,
      Nat.pow_zero, Nat.mul_one, roundHalfEven_one]
    omega
  · obtain ⟨shift, rfl⟩ : ∃ shift, band = shift + 1 := ⟨band - 1, by omega⟩
    have hlog := log2_mul_two_pow hplace shift
    simp only [if_neg hband, nearestIndex, Nat.div_one, Nat.pow_eq, Nat.add_sub_cancel,
      hlog, Nat.add_sub_cancel_left, Nat.one_mul,
      roundHalfEven_mul_self (Nat.two_pow_pos shift)]
    rw [← hdiv, Nat.mul_add, Nat.mul_one, Nat.mul_comm, Nat.add_assoc]

theorem units_pos {index : Nat} (h : 0 < index) : 0 < units index := by
  rcases Nat.eq_zero_or_pos (units index) with hzero | hpos
  · have hnearest := nearestIndex_units index
    rw [hzero] at hnearest
    have hnone : nearestIndex 0 1 = 0 := by decide
    omega
  · exact hpos

/-! ## Decimals without places behind the point -/

/-- A whole number with zeros behind it, unless they are far too many, is rounded as it is. -/
theorem ofDecimal_zeros {digits zeros : Nat} (hdigits : digits ≠ 0) (hzeros : zeros ≤ 400) :
    ofDecimal false ⟨digits, .ofNat zeros⟩
      = atIndex false (nearestIndex (digits * Nat.pow 10 zeros * unitsPerOne) 1) := by
  have hlarge : ¬ largestExponent < Int.ofNat zeros := by
    simp only [largestExponent, Int.ofNat_eq_natCast]
    omega
  have hsmall : ¬ Int.ofNat zeros + (Nat.log2 digits + 1 : Nat) < -largestExponent := by
    simp only [largestExponent, Int.ofNat_eq_natCast]
    omega
  simp only [ofDecimal, if_neg hdigits, if_neg hlarge, if_neg hsmall]

theorem ofDecimal_natural {digits : Nat} (hdigits : digits ≠ 0) :
    ofDecimal false ⟨digits, 0⟩ = atIndex false (nearestIndex (digits * unitsPerOne) 1) := by
  show ofDecimal false ⟨digits, .ofNat 0⟩ = _
  rw [ofDecimal_zeros hdigits (by decide), Nat.pow_eq, Nat.pow_zero, Nat.mul_one]

/-- **Zeros that are written out change nothing**, if the number is not too large anyway. -/
theorem ofDecimal_mul_pow {digits zeros : Nat}
    (h : (ofDecimal false ⟨digits, .ofNat zeros⟩).isFinite = true) :
    ofDecimal false ⟨digits * Nat.pow 10 zeros, 0⟩ = ofDecimal false ⟨digits, .ofNat zeros⟩ := by
  by_cases hdigits : digits = 0
  · simp only [ofDecimal, hdigits, Nat.zero_mul, if_true]
  · have hzeros : zeros ≤ 400 := by
      rcases Nat.lt_or_ge 400 zeros with hlarge | hle
      · have hexponent : largestExponent < Int.ofNat zeros := by
          simp only [largestExponent, Int.ofNat_eq_natCast]
          omega
        simp only [ofDecimal, if_neg hdigits, if_pos hexponent] at h
        exact nomatch h
      · exact hle
    have hpow : Nat.pow 10 zeros ≠ 0 := Nat.ne_of_gt (Nat.pow_pos (by decide))
    rw [ofDecimal_zeros hdigits hzeros, ofDecimal_natural (Nat.mul_ne_zero hdigits hpow)]

/-! ## The exact value -/

/-- A decimal with places behind the point that is not far too small is rounded as a fraction. -/
theorem ofDecimal_negSucc {digits n : Nat} (hdigits : digits ≠ 0)
    (hlog : n < digits.log2 + 1 + 400) :
    ofDecimal false ⟨digits, .negSucc n⟩
      = atIndex false (nearestIndex (digits * unitsPerOne) (Nat.pow 10 (n + 1))) := by
  have hlarge : ¬ largestExponent < Int.negSucc n := by
    simp only [largestExponent]
    omega
  have hsmall : ¬ Int.negSucc n + (Nat.log2 digits + 1 : Nat) < -largestExponent := by
    simp only [largestExponent]
    omega
  simp only [ofDecimal, if_neg hdigits, if_neg hlarge, if_neg hsmall]

theorem pow_five_mul_pow_two (n : Nat) : Nat.pow 5 n * Nat.pow 2 n = Nat.pow 10 n := by
  simp only [Nat.pow_eq, ← Nat.mul_pow]

/-- A whole number of units, written with its places behind the point, is rounded as a whole
    number: numerator and denominator have the power of ten in common. -/
theorem ofDecimal_units {count places n : Nat} (hcount : 0 < count) (hplaces : places = n + 1)
    (hunits : unitsPerOne = Nat.pow 2 places) :
    ofDecimal false ⟨count * Nat.pow 5 places, .negSucc n⟩
      = atIndex false (nearestIndex count 1) := by
  subst hplaces
  have hfive : 0 < Nat.pow 5 (n + 1) := Nat.pow_pos (by decide)
  have hten : 0 < Nat.pow 10 (n + 1) := Nat.pow_pos (by decide)
  have hdigits : count * Nat.pow 5 (n + 1) ≠ 0 :=
    Nat.mul_ne_zero (Nat.ne_of_gt hcount) (Nat.ne_of_gt hfive)
  have hlog : n + 1 ≤ (count * Nat.pow 5 (n + 1)).log2 := by
    rw [Nat.le_log2 hdigits]
    exact Nat.le_trans (Nat.pow_le_pow_left (by decide) (n + 1))
      (Nat.le_mul_of_pos_left _ hcount)
  have hcancel := nearestIndex_mul_right hten count 1
  rw [Nat.one_mul, ← pow_five_mul_pow_two, ← Nat.mul_assoc, ← hunits] at hcancel
  rw [ofDecimal_negSucc hdigits (by omega), ← pow_five_mul_pow_two, ← hunits, hcancel]

/-- **The exact value of a number reads back.** -/
theorem ofDecimal_exactDecimal {index : Nat} (h : 0 < index) :
    ofDecimal false (exactDecimal index) = atIndex false index := by
  have hread := ofDecimal_units (n := 1073) (units_pos h) (by decide) unitsPerOne_eq
  rw [nearestIndex_units] at hread
  exact hread

/-! ## The search -/

theorem eq_of_readsBack {index : Nat} {d : Decimal} (h : readsBack index d = true) :
    ofDecimal false d = atIndex false index :=
  eq_of_beq h

theorem reads_of_pick {reads : Decimal → Bool} {lower upper d : Decimal} {above : Bool}
    (h : pick lower upper above (reads lower) (reads upper) = some d) : reads d = true := by
  cases hlower : reads lower with
  | true =>
    cases hupper : reads upper with
    | true =>
      rw [hlower, hupper] at h
      obtain rfl := Option.some.inj h
      split
      · exact hupper
      · exact hlower
    | false =>
      rw [hlower, hupper] at h
      exact Option.some.inj h ▸ hlower
  | false =>
    cases hupper : reads upper with
    | true =>
      rw [hlower, hupper] at h
      exact Option.some.inj h ▸ hupper
    | false =>
      rw [hlower, hupper] at h
      exact nomatch h

theorem readsBack_of_onGrid? {index : Nat} {exponent : Int} {d : Decimal}
    (h : onGrid? index exponent = some d) : readsBack index d = true :=
  reads_of_pick h

/-- **The shortest decimal reads back.** -/
theorem ofDecimal_shortest (index : Nat) :
    ofDecimal false (shortest index) = atIndex false index := by
  unfold shortest
  split
  · next hzero =>
    subst hzero
    rfl
  · next hne =>
    simp only
    -- Which grids are tried plays no part: what is found on one of them reads back.
    generalize htried : List.findSome? _ _ = tried
    cases tried with
    | none => exact ofDecimal_exactDecimal (Nat.pos_of_ne_zero hne)
    | some d =>
      obtain ⟨count, -, hgrid⟩ := List.exists_of_findSome?_eq_some htried
      exact eq_of_readsBack (readsBack_of_onGrid? hgrid)

/-! ## How large an index can be -/

theorem roundHalfEven_le (num den : Nat) : roundHalfEven num den ≤ num / den + 1 := by
  have hparity := Nat.mod_lt (num / den) (by decide : 2 > 0)
  simp only [roundHalfEven]
  split
  · omega
  · split <;> omega

/-- In the spacing of its band a number has 53 binary digits at most. -/
theorem div_two_pow_log2_lt (quotient : Nat) :
    quotient / 2 ^ (quotient.log2 - 52) < 2 * bandSize := by
  have hlt : quotient < 2 ^ (quotient.log2 + 1) := Nat.lt_log2_self
  have hexponent : quotient.log2 + 1 ≤ 53 + (quotient.log2 - 52) := by omega
  have hle := Nat.pow_le_pow_right (by decide : 2 > 0) hexponent
  rw [Nat.div_lt_iff_lt_mul (Nat.two_pow_pos _), bandSize_eq, ← Nat.pow_succ', ← Nat.pow_add]
  exact Nat.lt_of_lt_of_le hlt hle

/-- The bands below a number are as many as its binary digits, less 53, and the number lies in
    the next two. -/
theorem nearestIndex_le (num den : Nat) :
    nearestIndex num den ≤ (Nat.log2 (num / den) - 52 + 2) * bandSize := by
  have hround := roundHalfEven_le num (den * 2 ^ (Nat.log2 (num / den) - 52))
  rw [← Nat.div_div_eq_div_mul] at hround
  simp only [nearestIndex, Nat.pow_eq, Nat.add_mul]
  exact Nat.add_le_add_left (Nat.le_trans hround (div_two_pow_log2_lt _)) _

theorem log2_mul_lt {n m k scale : Nat} (hpos : 0 < n) (h : n < 2 ^ m)
    (hscale : scale = Nat.pow 2 k) : (n * scale).log2 < m + k := by
  have hne : n ≠ 0 := Nat.ne_of_gt hpos
  rw [hscale, log2_mul_pow hne, Nat.add_lt_add_iff_right]
  exact (Nat.log2_lt hne).mpr h

/-- The number nearest to a natural number that 64 bits can hold is finite. -/
theorem isFinite_ofNat {n : Nat} (h : n < 2 ^ 64) : (ofNat n).isFinite = true := by
  by_cases hzero : n = 0
  · subst hzero
    decide
  · have hlog := log2_mul_lt (Nat.pos_of_ne_zero hzero) h unitsPerOne_eq
    have hle := nearestIndex_le (n * unitsPerOne) 1
    have hbands : (Nat.log2 (n * unitsPerOne) - 52 + 2) * bandSize < finiteCount := by
      refine Nat.mul_lt_mul_of_pos_right ?_ (by decide)
      omega
    rw [Nat.div_one] at hle
    rw [ofNat, ofDecimal_natural hzero, isFinite_atIndex]
    exact decide_eq_true (Nat.lt_of_le_of_lt hle hbands)

/-- Whether the number nearest to a decimal is finite does not depend on its sign. -/
theorem isFinite_ofDecimal (negative : Bool) (d : Decimal) :
    (ofDecimal negative d).isFinite = (ofDecimal false d).isFinite := by
  unfold ofDecimal
  split
  · rfl
  split
  · rfl
  split
  · rfl
  split
  · rw [isFinite_atIndex, isFinite_atIndex]
  · rw [isFinite_atIndex, isFinite_atIndex]

theorem isFinite_ofInt {n : Int} (h : n.natAbs < 2 ^ 64) : (ofInt n).isFinite = true := by
  rw [ofInt, isFinite_ofDecimal]
  exact isFinite_ofNat h

end Binary64

end FormulaSyntax
