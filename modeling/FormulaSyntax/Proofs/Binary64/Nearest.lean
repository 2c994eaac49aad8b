import FormulaSyntax.Proofs.Binary64.ReadBack
import Mathlib.Algebra.Order.Field.Power
import Mathlib.Data.Rat.Cast.Order
import Mathlib.Order.Monotone.Basic
import Mathlib.Tactic.Linarith
import Mathlib.Tactic.NormNum
import Mathlib.Tactic.Positivity
import Mathlib.Tactic.Ring

/-!
# Decimals are rounded to the nearest number

`IsNearest` says with rationals, and with no reference to bands and shifts, which double precision
number a rational that is not negative is rounded to: the one with the smallest distance, of two
equally near ones the one with the even index, and infinity from half a step behind the last finite
number on. There is one such number at most (`IsNearest.eq`). **`ofDecimal` gives it for every
decimal** (`isNearest_ofDecimal`).

That a rounding in the band of a number is best among all numbers has one reason: the numbers of
that band and of those behind it are multiples of its spacing, and those in front of it lie below
the first number of the band, which is such a multiple itself (`units_cases`).

Distances are compared as whole numbers, in parts of a unit, and become rational only at the end.
-/

set_option autoImplicit false

namespace FormulaSyntax

namespace Binary64

/-! ## Being nearest -/

/-- The finite number at an index, without its sign. -/
def valueAt (index : Nat) : ℚ := units index / unitsPerOne

/-- Half a step behind the last finite number. -/
def overflow : ℚ := 2 ^ 1024 - 2 ^ 970

/-- The number that a rational is rounded to. -/
inductive IsNearest (q : ℚ) : Binary64 → Prop
  | finite (index : Fin finiteCount) :
      q < overflow →
        (∀ other : Fin finiteCount, |q - valueAt index| ≤ |q - valueAt other| ∧
          (|q - valueAt index| = |q - valueAt other| → other = index ∨ index.val % 2 = 0)) →
        IsNearest q (.finite false index)
  | infinite : overflow ≤ q → IsNearest q (.infinite false)

/-! ## The row of finite numbers -/

theorem bandSize_pos : 0 < bandSize := by decide

theorem units_of_lt {place : Nat} (h : place < bandSize) : units place = place := by
  simp only [units, Nat.div_eq_of_lt h, Nat.mod_eq_of_lt h, if_true]

theorem units_band {place : Nat} (h : place < bandSize) (shift : Nat) :
    units ((shift + 1) * bandSize + place) = (bandSize + place) * 2 ^ shift := by
  have hdiv : ((shift + 1) * bandSize + place) / bandSize = shift + 1 := by
    rw [Nat.add_comm, Nat.add_mul_div_right _ _ bandSize_pos, Nat.div_eq_of_lt h, Nat.zero_add]
  have hmod : ((shift + 1) * bandSize + place) % bandSize = place := by
    rw [Nat.add_comm, Nat.add_mul_mod_self_right, Nat.mod_eq_of_lt h]
  simp only [units, hdiv, hmod, Nat.add_one_ne_zero, if_false, Nat.add_sub_cancel, Nat.pow_eq]

/-- The numbers of a band, and the first one of the next band, are multiples of its spacing. The
    first two bands have the same spacing. -/
theorem units_add {shift place : Nat} (hplace : place ≤ 2 * bandSize)
    (hshift : shift = 0 ∨ bandSize ≤ place) :
    units (shift * bandSize + place) = place * 2 ^ shift := by
  rcases Nat.lt_or_ge place bandSize with hlt | hge
  · obtain rfl : shift = 0 := by omega
    rw [Nat.zero_mul, Nat.zero_add, units_of_lt hlt, Nat.pow_zero, Nat.mul_one]
  · rcases Nat.lt_or_ge place (2 * bandSize) with hlt | hge'
    · have hindex : shift * bandSize + place = (shift + 1) * bandSize + (place - bandSize) := by
        rw [Nat.add_mul]
        omega
      rw [hindex, units_band (by omega), Nat.add_sub_cancel' hge]
    · have hindex : shift * bandSize + place = (shift + 1 + 1) * bandSize + 0 := by
        simp only [Nat.add_mul]
        omega
      rw [hindex, units_band bandSize_pos, Nat.le_antisymm hplace hge', Nat.pow_succ]
      ring

theorem exists_place (index : Nat) :
    ∃ shift place, index = shift * bandSize + place ∧ place < 2 * bandSize ∧
      (shift = 0 ∨ bandSize ≤ place) := by
  have hdiv : bandSize * (index / bandSize) + index % bandSize = index :=
    Nat.div_add_mod index bandSize
  have hplace : index % bandSize < bandSize := Nat.mod_lt _ bandSize_pos
  generalize index / bandSize = band at hdiv
  generalize index % bandSize = place at hdiv hplace
  cases band with
  | zero => exact ⟨0, place, by omega, by omega, .inl rfl⟩
  | succ shift =>
    refine ⟨shift, bandSize + place, ?_, by omega, .inr (Nat.le_add_right _ _)⟩
    rw [← hdiv, Nat.mul_add, Nat.mul_comm]
    omega

theorem strictMono_units : StrictMono units := by
  apply strictMono_nat_of_lt_succ
  intro index
  obtain ⟨shift, place, rfl, hplace, hshift⟩ := exists_place index
  rw [Nat.add_assoc, units_add (Nat.le_of_lt hplace) hshift, units_add hplace (by omega)]
  exact (Nat.mul_lt_mul_right (Nat.two_pow_pos shift)).mpr (Nat.lt_succ_self place)

/-- **Every number is a multiple of a given spacing, or lies in front of the bands with it.** -/
theorem units_cases (shift index : Nat) :
    (∃ count, units index = count * 2 ^ shift) ∨
      0 < shift ∧ units index < bandSize * 2 ^ shift := by
  obtain ⟨own, place, rfl, hplace, hown⟩ := exists_place index
  rw [units_add (Nat.le_of_lt hplace) hown]
  rcases Nat.lt_or_ge own shift with hlt | hge
  · refine .inr ⟨by omega, ?_⟩
    calc place * 2 ^ own < 2 * bandSize * 2 ^ own :=
          (Nat.mul_lt_mul_right (Nat.two_pow_pos own)).mpr hplace
      _ = bandSize * 2 ^ (own + 1) := by rw [Nat.pow_succ]; ring
      _ ≤ bandSize * 2 ^ shift := Nat.mul_le_mul_left _ (Nat.pow_le_pow_right (by decide) hlt)
  · refine .inl ⟨place * 2 ^ (own - shift), ?_⟩
    rw [Nat.mul_assoc, ← Nat.pow_add, Nat.sub_add_cancel hge]

/-! ## Distances -/

/-- How far a count of units is from `num / den` units, in parts of `den`. -/
def distance (num den count : Nat) : Nat := ((num : Int) - (count * den : Nat)).natAbs

/-- **The rounded quotient is nearest among the whole numbers.** Every other one is at least a whole
    `den` away from one of the two neighbours. -/
theorem distance_roundHalfEven_le (num : Nat) {den : Nat} (hden : 0 < den) (count : Nat) :
    distance num den (roundHalfEven num den) ≤ distance num den count ∧
      (distance num den (roundHalfEven num den) = distance num den count →
        count = roundHalfEven num den ∨ roundHalfEven num den % 2 = 0) := by
  have hdiv : den * (num / den) + num % den = num := Nat.div_add_mod num den
  have hrest : num % den < den := Nat.mod_lt num hden
  simp only [roundHalfEven, distance]
  generalize num / den = quotient at hdiv ⊢
  generalize num % den = rest at hdiv hrest ⊢
  have hcount : count = quotient ∨ count = quotient + 1 ∨
      count * den + den ≤ quotient * den ∨ quotient * den + den + den ≤ count * den := by
    rcases Nat.lt_trichotomy count quotient with hlt | heq | hgt
    · refine .inr (.inr (.inl ?_))
      rw [← Nat.succ_mul]
      exact Nat.mul_le_mul_right den hlt
    · exact .inl heq
    · rcases Nat.eq_or_lt_of_le hgt with heq | hgt
      · exact .inr (.inl heq.symm)
      · refine .inr (.inr (.inr ?_))
        rw [← Nat.succ_mul, ← Nat.succ_mul]
        exact Nat.mul_le_mul_right den hgt
  have hsucc : (quotient + 1) * den = quotient * den + den := Nat.succ_mul quotient den
  rw [Nat.mul_comm] at hdiv
  split
  · rcases hcount with rfl | rfl | hcount | hcount <;> omega
  · split
    · rcases hcount with rfl | rfl | hcount | hcount <;> omega
    · rcases Nat.mod_two_eq_zero_or_one quotient with heven | hodd
      · rw [heven, Nat.add_zero]
        rcases hcount with rfl | rfl | hcount | hcount <;> omega
      · rw [hodd]
        rcases hcount with rfl | rfl | hcount | hcount <;> omega

theorem le_roundHalfEven (num den : Nat) : num / den ≤ roundHalfEven num den := by
  simp only [roundHalfEven]
  split
  · exact Nat.le_refl _
  · split <;> omega

/-- What the index of a rounding is made of: the place is the whole number nearest to the quotient in
    the spacing of the band. -/
theorem exists_nearestIndex_eq (num den : Nat) :
    ∃ shift, nearestIndex num den = shift * bandSize + roundHalfEven num (den * 2 ^ shift) ∧
      units (nearestIndex num den) = roundHalfEven num (den * 2 ^ shift) * 2 ^ shift ∧
      (0 < shift → bandSize * 2 ^ shift ≤ num / den) := by
  obtain ⟨shift, hshift⟩ : ∃ shift, shift = (num / den).log2 - 52 := ⟨_, rfl⟩
  have hindex : nearestIndex num den
      = shift * bandSize + roundHalfEven num (den * 2 ^ shift) := by
    rw [hshift]
    rfl
  have habove : 0 < shift → bandSize * 2 ^ shift ≤ num / den := by
    intro hpos
    have hne : num / den ≠ 0 := by
      intro hzero
      rw [hshift, hzero, Nat.log2_zero] at hpos
      exact absurd hpos (by decide)
    rw [bandSize_eq, ← Nat.pow_add, hshift, Nat.add_sub_cancel' (by omega)]
    exact Nat.log2_self_le hne
  have hlower : num / den / 2 ^ shift ≤ roundHalfEven num (den * 2 ^ shift) := by
    rw [Nat.div_div_eq_div_mul]
    exact le_roundHalfEven _ _
  have hupper : roundHalfEven num (den * 2 ^ shift) ≤ num / den / 2 ^ shift + 1 := by
    rw [Nat.div_div_eq_div_mul]
    exact roundHalfEven_le _ _
  have hplace : roundHalfEven num (den * 2 ^ shift) ≤ 2 * bandSize := by
    refine Nat.le_trans hupper ?_
    rw [hshift]
    exact div_two_pow_log2_lt _
  refine ⟨shift, hindex, ?_, habove⟩
  rw [hindex, units_add hplace]
  rcases Nat.eq_zero_or_pos shift with hzero | hpos
  · exact .inl hzero
  · have hle := (Nat.le_div_iff_mul_le (Nat.two_pow_pos shift)).mpr (habove hpos)
    exact .inr (Nat.le_trans hle hlower)

/-- **The rounding to an index is nearest among all numbers**, also those that would follow the last
    finite one. -/
theorem distance_nearestIndex_le (num : Nat) {den : Nat} (hden : 0 < den) (other : Nat) :
    distance num den (units (nearestIndex num den)) ≤ distance num den (units other) ∧
      (distance num den (units (nearestIndex num den)) = distance num den (units other) →
        other = nearestIndex num den ∨ nearestIndex num den % 2 = 0) := by
  obtain ⟨shift, hindex, hunits, habove⟩ := exists_nearestIndex_eq num den
  have hscale : 0 < den * 2 ^ shift := Nat.mul_pos hden (Nat.two_pow_pos shift)
  -- Multiples of the spacing are whole numbers for the rounding of the quotient.
  have hmultiple : ∀ count, distance num den (count * 2 ^ shift)
      = distance num (den * 2 ^ shift) count := by
    intro count
    rw [distance, distance, Nat.mul_assoc, Nat.mul_comm (2 ^ shift)]
  have heven : roundHalfEven num (den * 2 ^ shift) % 2 = 0 → nearestIndex num den % 2 = 0 := by
    intro heven
    have hband : bandSize % 2 = 0 := by decide
    rw [hindex, Nat.add_mod, Nat.mul_mod, hband, heven]
    simp
  rcases units_cases shift other with ⟨count, hcount⟩ | ⟨hpos, hlt⟩
  · obtain ⟨hle, htie⟩ := distance_roundHalfEven_le num hscale count
    rw [hunits, hcount, hmultiple, hmultiple]
    refine ⟨hle, fun heq => ?_⟩
    rcases htie heq with hsame | hround
    · refine .inl (strictMono_units.injective ?_)
      rw [hunits, hcount, hsame]
    · exact .inr (heven hround)
  · obtain ⟨hle, -⟩ := distance_roundHalfEven_le num hscale bandSize
    have hfirst : bandSize * 2 ^ shift * den ≤ num :=
      (Nat.le_div_iff_mul_le hden).mp (habove hpos)
    have hother : units other * den < bandSize * 2 ^ shift * den :=
      (Nat.mul_lt_mul_right hden).mpr hlt
    rw [← hmultiple, ← hmultiple, ← hunits] at hle
    have hfarther : distance num den (bandSize * 2 ^ shift) < distance num den (units other) := by
      simp only [distance]
      omega
    exact ⟨by omega, by omega⟩

/-- **A rounding ends up behind an odd index if and only if the quotient lies halfway to the next
    number, or farther.** -/
theorem nearestIndex_le_iff {num den last : Nat} (hden : 0 < den) (hodd : last % 2 = 1) :
    nearestIndex num den ≤ last ↔ 2 * num < (units last + units (last + 1)) * den := by
  obtain ⟨hlast, -⟩ := distance_nearestIndex_le num hden last
  obtain ⟨hnext, htie⟩ := distance_nearestIndex_le num hden (last + 1)
  have hstep : units last * den < units (last + 1) * den :=
    (Nat.mul_lt_mul_right hden).mpr (strictMono_units (Nat.lt_succ_self last))
  rw [Nat.add_mul]
  simp only [distance] at hlast hnext htie
  constructor
  · intro hle
    have hunits : units (nearestIndex num den) * den ≤ units last * den :=
      Nat.mul_le_mul_right den (strictMono_units.monotone hle)
    rcases Nat.eq_or_lt_of_le hle with heq | hlt
    · rw [heq] at htie hnext
      omega
    · have hunits := (Nat.mul_lt_mul_right hden).mpr (strictMono_units hlt)
      omega
  · intro hhalf
    rcases Nat.lt_or_ge last (nearestIndex num den) with hlt | hle
    · have hunits : units (last + 1) * den ≤ units (nearestIndex num den) * den :=
        Nat.mul_le_mul_right den (strictMono_units.monotone hlt)
      omega
    · exact hle

/-! ## From units to rationals -/

theorem cast_unitsPerOne : (unitsPerOne : ℚ) = 2 ^ 1074 := by
  have hcast : ∀ n, ((Nat.pow 2 n : Nat) : ℚ) = 2 ^ n := by
    intro n
    rw [Nat.pow_eq, Nat.cast_pow, Nat.cast_ofNat]
  rw [unitsPerOne_eq]
  exact hcast 1074

theorem unitsPerOne_pos : (0 : ℚ) < unitsPerOne := by
  rw [cast_unitsPerOne]
  exact pow_pos two_pos _

/-- The last finite number and the one that would follow it have the bound for finite results in the
    middle. -/
theorem units_last_add {last : Nat} (h : last + 1 = finiteCount) :
    ((units last + units (last + 1) : Nat) : ℚ) = 2 * (overflow * unitsPerOne) := by
  have hlast : last = 2045 * bandSize + (2 * bandSize - 1) := by
    simp only [finiteCount, bandSize] at h ⊢
    omega
  have hnext : last + 1 = 2046 * bandSize + bandSize := by
    simp only [finiteCount, bandSize] at h ⊢
    omega
  have hbound : bandSize ≤ 2 * bandSize - 1 := by decide
  have hbands : 2 * bandSize - 1 + bandSize * 2 = 2 ^ 54 - 1 := by decide
  have hsum : ∀ shift, (2 * bandSize - 1) * 2 ^ shift + bandSize * 2 ^ (shift + 1)
      = (2 ^ 54 - 1) * 2 ^ shift := by
    intro shift
    rw [Nat.pow_succ, Nat.mul_comm (2 ^ shift) 2, ← Nat.mul_assoc, ← Nat.add_mul, hbands]
  have htop : (2 : ℚ) ^ 1024 = 2 ^ 54 * 2 ^ 970 := pow_add 2 54 970
  have hshift : (2 : ℚ) ^ 2045 = 2 ^ 970 * 2 ^ 1074 * 2 := by
    rw [← pow_add, ← pow_succ]
  rw [hnext, hlast, units_add (Nat.sub_le _ _) (.inr hbound),
    units_add (by omega) (.inr (Nat.le_refl _)), hsum, cast_unitsPerOne, overflow, Nat.cast_mul,
    Nat.cast_pow, Nat.cast_ofNat, hshift, htop]
  -- The large powers stay unevaluated.
  generalize (2 : ℚ) ^ 970 = step
  generalize (2 : ℚ) ^ 1074 = scale
  push_cast
  ring

theorem abs_sub_valueAt {q : ℚ} {num den : Nat} (hden : 0 < den)
    (hq : q * (den * unitsPerOne) = num) (index : Nat) :
    |q - valueAt index| * (den * unitsPerOne) = distance num den (units index) := by
  have hpos : (0 : ℚ) < den * unitsPerOne := mul_pos (Nat.cast_pos.mpr hden) unitsPerOne_pos
  have hvalue : valueAt index * (den * unitsPerOne) = units index * den := by
    rw [valueAt, mul_comm (den : ℚ), ← mul_assoc, div_mul_cancel₀ _ unitsPerOne_pos.ne']
  calc |q - valueAt index| * (den * unitsPerOne)
      = |q * (den * unitsPerOne) - valueAt index * (den * unitsPerOne)| := by
        rw [← sub_mul, abs_mul, abs_of_pos hpos]
    _ = |((num - (units index * den : Nat) : Int) : ℚ)| := by
        rw [hq, hvalue]
        push_cast
        rfl
    _ = distance num den (units index) := by rw [distance, Nat.cast_natAbs, Int.cast_abs]

theorem isNearest_atIndex {q : ℚ} {num den : Nat} (hden : 0 < den)
    (hq : q * (den * unitsPerOne) = num) :
    IsNearest q (atIndex false (nearestIndex num den)) := by
  have hpos : (0 : ℚ) < den * unitsPerOne := mul_pos (Nat.cast_pos.mpr hden) unitsPerOne_pos
  obtain ⟨last, hlast⟩ : ∃ last, last + 1 = finiteCount := ⟨finiteCount - 1, by decide⟩
  have hodd : last % 2 = 1 := by
    simp only [finiteCount, bandSize] at hlast
    omega
  have hoverflow : nearestIndex num den ≤ last ↔ q < overflow := by
    rw [nearestIndex_le_iff hden hodd, ← @Nat.cast_lt ℚ, Nat.cast_mul, Nat.cast_mul,
      units_last_add hlast, ← hq, Nat.cast_ofNat, mul_assoc, mul_assoc,
      mul_lt_mul_iff_right₀ two_pos, mul_comm (unitsPerOne : ℚ), mul_lt_mul_iff_left₀ hpos]
  rw [atIndex]
  split
  · next hlt =>
    refine .finite _ (hoverflow.mp (by omega)) ?_
    intro other
    obtain ⟨hle, htie⟩ := distance_nearestIndex_le num hden other
    rw [← @Nat.cast_le ℚ, ← abs_sub_valueAt hden hq, ← abs_sub_valueAt hden hq,
      mul_le_mul_iff_left₀ hpos] at hle
    refine ⟨hle, fun heq => ?_⟩
    have hcast : distance num den (units (nearestIndex num den)) = distance num den (units other) := by
      rw [← @Nat.cast_inj ℚ, ← abs_sub_valueAt hden hq, ← abs_sub_valueAt hden hq, heq]
    exact (htie hcast).imp Fin.ext id
  · next hge =>
    refine .infinite ?_
    rw [← not_lt, ← hoverflow]
    omega

/-! ## One number at most -/

theorem strictMono_valueAt : StrictMono valueAt := by
  intro index other hlt
  exact div_lt_div_of_pos_right (Nat.cast_lt.mpr (strictMono_units hlt)) unitsPerOne_pos

/-- Of two equally near numbers one has an odd index, or a third one between them is nearer. -/
theorem not_isNearest_of_lt {q : ℚ} {first second : Fin finiteCount} (hlt : first < second)
    (h : IsNearest q (.finite false first)) : ¬ IsNearest q (.finite false second) := by
  intro h'
  obtain ⟨_, -, hfirst⟩ := h
  obtain ⟨_, -, hsecond⟩ := h'
  have heq : |q - valueAt first| = |q - valueAt second| :=
    le_antisymm (hfirst second).1 (hsecond first).1
  have hvalues : valueAt first < valueAt second := strictMono_valueAt hlt
  have hmiddle : q - valueAt first = valueAt second - q := by
    rcases abs_eq_abs.mp heq with hsame | hopposite
    · linarith
    · linarith
  have hparity : first.val % 2 = 0 ∧ second.val % 2 = 0 := by
    constructor
    · exact ((hfirst second).2 heq).resolve_left hlt.ne'
    · exact ((hsecond first).2 heq.symm).resolve_left hlt.ne
  have hbetween : first.val + 1 < second.val := by
    have hval : first.val < second.val := hlt
    omega
  have hlower : valueAt first < valueAt (first.val + 1) := strictMono_valueAt (Nat.lt_succ_self _)
  have hupper : valueAt (first.val + 1) < valueAt second := strictMono_valueAt hbetween
  have hnearer : |q - valueAt (first.val + 1)| < |q - valueAt first| := by
    rw [abs_of_pos (by linarith : 0 < q - valueAt first), abs_lt]
    constructor
    · linarith
    · linarith
  have hnearest := (hfirst ⟨first.val + 1, by omega⟩).1
  exact absurd hnearest (not_le.mpr hnearer)

/-- **A rational is rounded to one number only.** -/
theorem IsNearest.eq {q : ℚ} {x y : Binary64} (h : IsNearest q x) (h' : IsNearest q y) : x = y := by
  cases h with
  | infinite hoverflow =>
    cases h' with
    | infinite => rfl
    | finite _ hfinite => exact absurd hfinite (not_lt.mpr hoverflow)
  | finite index hfinite hindex =>
    cases h' with
    | infinite hoverflow => exact absurd hfinite (not_lt.mpr hoverflow)
    | finite other _ hother =>
      rcases lt_trichotomy index other with hlt | rfl | hgt
      · exact absurd (.finite other hfinite hother) (not_isNearest_of_lt hlt (.finite _ hfinite hindex))
      · rfl
      · exact absurd (.finite index hfinite hindex) (not_isNearest_of_lt hgt (.finite _ hfinite hother))

/-- Both ends of the row are far from `10 ^ 400`, since ten is more than eight. -/
theorem two_pow_le_ten_pow : (2 : ℚ) ^ 1200 ≤ 10 ^ 400 := by
  have height : (2 : ℚ) ^ (3 * 400) = (2 ^ 3) ^ 400 := pow_mul 2 3 400
  have hpow : ((2 : ℚ) ^ 3) ^ 400 ≤ 10 ^ 400 := pow_le_pow_left₀ (by norm_num) (by norm_num) 400
  exact height.trans_le hpow

theorem isNearest_infinite {q : ℚ} (h : 10 ^ 400 ≤ q) : IsNearest q (.infinite false) := by
  have hpow : (2 : ℚ) ^ 1024 ≤ 2 ^ 1200 := pow_le_pow_right₀ one_le_two (by decide)
  have hstep : (0 : ℚ) ≤ 2 ^ 970 := pow_nonneg zero_le_two 970
  exact .infinite ((sub_le_self _ hstep).trans (hpow.trans (two_pow_le_ten_pow.trans h)))

theorem one_lt_overflow : 1 < overflow := by
  have htop : (2 : ℚ) ^ 1024 = 2 ^ 54 * 2 ^ 970 := pow_add 2 54 970
  have hstep : (1 : ℚ) ≤ 2 ^ 970 := one_le_pow₀ one_le_two
  rw [overflow, htop]
  generalize (2 : ℚ) ^ 970 = step at hstep
  linarith

/-- Less than half a unit is rounded to zero. -/
theorem isNearest_zero {q : ℚ} (hq : 0 ≤ q) (h : q * 10 ^ 400 < 1) :
    IsNearest q (zero false) := by
  have hunits : (unitsPerOne : ℚ) * 2 ≤ 10 ^ 400 := by
    have hpow : (2 : ℚ) ^ 1075 ≤ 2 ^ 1200 := pow_le_pow_right₀ one_le_two (by decide)
    rw [cast_unitsPerOne, ← pow_succ]
    exact hpow.trans two_pow_le_ten_pow
  have hhalf : q * (unitsPerOne * 2) < 1 := (mul_le_mul_of_nonneg_left hunits hq).trans_lt h
  have hone : q < overflow := by
    have hle : q ≤ q * 10 ^ 400 := le_mul_of_one_le_right hq (one_le_pow₀ (by norm_num))
    exact (hle.trans_lt h).trans one_lt_overflow
  have hzero : valueAt 0 = 0 := by
    rw [valueAt, units_of_lt bandSize_pos, Nat.cast_zero, zero_div]
  refine .finite _ hone ?_
  intro other
  rcases Nat.eq_zero_or_pos other.val with hother | hother
  · have hsame : other = ⟨0, by decide⟩ := Fin.ext hother
    rw [hsame]
    exact ⟨le_refl _, fun _ => .inl rfl⟩
  · have hvalue : 1 ≤ valueAt other * unitsPerOne := by
      rw [valueAt, div_mul_cancel₀ _ unitsPerOne_pos.ne', Nat.one_le_cast]
      exact units_pos hother
    have hfarther : q * 2 < valueAt other := by
      refine lt_of_mul_lt_mul_right ?_ unitsPerOne_pos.le
      rw [mul_assoc, mul_comm 2]
      exact hhalf.trans_le hvalue
    have hlt : |q - valueAt 0| < |q - valueAt other| := by
      rw [hzero, sub_zero, abs_of_nonneg hq, abs_sub_comm, abs_of_pos (by linarith)]
      linarith
    exact ⟨hlt.le, fun heq => absurd heq hlt.ne⟩

end Binary64

/-! ## Main result -/

/-- The rational that a decimal stands for. -/
def Decimal.toRat (d : Decimal) : ℚ := d.digits * 10 ^ d.exponent

namespace Binary64

/-- A decimal has fewer digits in base ten than in base two. -/
theorem mul_zpow_mul_lt_one {digits : Nat} {exponent : Int}
    (h : exponent + (Nat.log2 digits + 1 : Nat) < -largestExponent) :
    (digits : ℚ) * 10 ^ exponent * 10 ^ 400 < 1 := by
  have hten : (10 : ℚ) ≠ 0 := by norm_num
  have hnat : digits ≤ 10 ^ (digits.log2 + 1) :=
    Nat.le_trans (Nat.le_of_lt Nat.lt_log2_self) (Nat.pow_le_pow_left (by decide) _)
  have hdigits : (digits : ℚ) ≤ 10 ^ (digits.log2 + 1) := by
    rw [← @Nat.cast_le ℚ, Nat.cast_pow, Nat.cast_ofNat] at hnat
    exact hnat
  have hscale : (10 : ℚ) ^ (digits.log2 + 1) * 10 ^ exponent * 10 ^ 400
      = 10 ^ (exponent + (digits.log2 + 1 : Nat) + 400) := by
    rw [zpow_add₀ hten, zpow_add₀ hten, zpow_natCast, mul_comm (10 ^ exponent : ℚ)]
    rfl
  calc (digits : ℚ) * 10 ^ exponent * 10 ^ 400
      ≤ 10 ^ (digits.log2 + 1) * 10 ^ exponent * 10 ^ 400 := by gcongr
    _ = 10 ^ (exponent + (digits.log2 + 1 : Nat) + 400) := hscale
    _ < 1 := by
      apply zpow_lt_one_of_neg₀ (by norm_num)
      simp only [largestExponent] at h
      omega

/-- **A decimal is rounded to the nearest number**, with its shortcuts as without. -/
theorem isNearest_ofDecimal (d : Decimal) : IsNearest d.toRat (ofDecimal false d) := by
  obtain ⟨digits, exponent⟩ := d
  have hpow : (0 : ℚ) < 10 ^ exponent := zpow_pos (by norm_num) exponent
  unfold ofDecimal Decimal.toRat
  simp only
  split
  · next hzero =>
    rw [hzero, Nat.cast_zero, zero_mul]
    exact isNearest_zero le_rfl (by rw [zero_mul]; exact one_pos)
  · next hdigits =>
    have hone : (1 : ℚ) ≤ digits := Nat.one_le_cast.mpr (Nat.pos_of_ne_zero hdigits)
    split
    · next hlarge =>
      apply isNearest_infinite
      have hexponent : (10 : ℚ) ^ (400 : Int) ≤ 10 ^ exponent :=
        zpow_le_zpow_right₀ (by norm_num) hlarge.le
      calc (10 : ℚ) ^ 400 = 10 ^ (400 : Int) := (zpow_natCast 10 400).symm
        _ ≤ 10 ^ exponent := hexponent
        _ ≤ digits * 10 ^ exponent := le_mul_of_one_le_left hpow.le hone
    · split
      · next hsmall =>
        apply isNearest_zero (mul_nonneg (Nat.cast_nonneg digits) hpow.le)
        exact mul_zpow_mul_lt_one hsmall
      · cases exponent with
        | ofNat zeros =>
          apply isNearest_atIndex one_pos
          simp only [Int.ofNat_eq_natCast, zpow_natCast, Nat.pow_eq, Nat.cast_mul, Nat.cast_pow,
            Nat.cast_one, Nat.cast_ofNat, one_mul]
        | negSucc n =>
          apply isNearest_atIndex (Nat.pow_pos (by decide))
          have hne : (10 : ℚ) ^ (n + 1) ≠ 0 := pow_ne_zero _ (by norm_num)
          simp only [Nat.cast_mul, Nat.cast_pow, Nat.cast_ofNat, zpow_negSucc]
          rw [mul_assoc, inv_mul_cancel_left₀ hne]

theorem isNearest_ofNat (n : Nat) : IsNearest n (ofNat n) := by
  have hnearest := isNearest_ofDecimal ⟨n, 0⟩
  rwa [Decimal.toRat, zpow_zero, mul_one] at hnearest

theorem IsNearest.eq_ofNat {n : Nat} {x : Binary64} (h : IsNearest n x) : x = ofNat n :=
  h.eq (isNearest_ofNat n)

/-! ## Words -/

/-- The digits that a conversion of words keeps are those that a rounding keeps: the first 53 in
    base two, whichever power of two the number is counted in. -/
theorem nearestIndex_mul_pow {n units width scale : Nat} (hn : n ≠ 0)
    (hunits : units = Nat.pow 2 width) (hwidth : width = scale + 52) :
    nearestIndex (n * units) 1 = (n.log2 + scale) * bandSize +
      if n.log2 ≤ 52 then n * Nat.pow 2 (52 - n.log2)
      else roundHalfEven n (Nat.pow 2 (n.log2 - 52)) := by
  have hpos : ∀ k, 0 < Nat.pow 2 k := fun k => Nat.two_pow_pos k
  have hpow : ∀ a b, Nat.pow 2 (a + b) = Nat.pow 2 a * Nat.pow 2 b := fun a b => Nat.pow_add 2 a b
  have hshift : n.log2 + (scale + 52) - 52 = n.log2 + scale := by omega
  rw [hunits, hwidth, nearestIndex, Nat.div_one, log2_mul_pow hn, hshift, Nat.one_mul]
  split
  · next hle =>
    have hscale : scale + 52 = 52 - n.log2 + (n.log2 + scale) := by omega
    rw [hscale, hpow, ← Nat.mul_assoc, roundHalfEven_mul_self (hpos _)]
  · next hgt =>
    have hscale : n.log2 + scale = n.log2 - 52 + (scale + 52) := by omega
    rw [hscale, hpow (n.log2 - 52), roundHalfEven_mul_right (hpos _)]

/-- **A word is converted to the nearest number.** -/
theorem isNearest_ofWord (word : UInt64) : IsNearest word.toNat (ofWord word) := by
  rw [ofWord]
  split
  · next hzero =>
    rw [hzero, Nat.cast_zero]
    exact isNearest_zero le_rfl (by rw [zero_mul]; exact one_pos)
  · next hne =>
    rw [← nearestIndex_mul_pow hne unitsPerOne_eq (rfl : 1074 = 1022 + 52)]
    apply isNearest_atIndex one_pos
    rw [Nat.cast_one, one_mul, Nat.cast_mul]

/-- **The conversion of words and the rounding of decimals agree.** -/
theorem ofWord_eq_ofNat (word : UInt64) : ofWord word = ofNat word.toNat :=
  (isNearest_ofWord word).eq_ofNat

end Binary64

end FormulaSyntax
