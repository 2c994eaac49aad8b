/-!
# Binary64: double precision numbers as exact data

A number literal denotes a double precision number, and everything that is done with it here,
reading, writing and comparing, is exact. So the numbers are plain data and no machine
arithmetic is involved.

The finite numbers of one sign stand in a row: zero, the subnormal numbers, then band after band
of `2 ^ 52` numbers each, every band twice as wide as the one before. A finite number is its sign
and its place in that row, its **index**. The index is at the same time the bit pattern of the
number without the sign bit, so the order of indices is the order of magnitudes and the next
larger number has the next index.

Every finite number is a multiple of `2 ^ -1074`, the smallest positive one. `units` counts them.
-/

set_option autoImplicit false

namespace FormulaSyntax

/-- The size of a band, `2 ^ 52`. -/
def Binary64.bandSize : Nat := 0x10000000000000

/-- How many finite numbers of one sign there are: 2047 bands. -/
def Binary64.finiteCount : Nat := 2047 * Binary64.bandSize

/-- A double precision number. Zero has two signs, and there is one "not a number". -/
inductive Binary64 where
  | finite (negative : Bool) (index : Fin Binary64.finiteCount)
  | infinite (negative : Bool)
  | nan
deriving DecidableEq

namespace Binary64

/-- The magnitude of the finite number at an index, counted in units of `2 ^ -1074`. The first
    band has the spacing of the units themselves, as has the second; from there on the spacing
    doubles with every band. -/
def units (index : Nat) : Nat :=
  let band := index / bandSize
  let place := index % bandSize
  if band = 0 then place else (bandSize + place) * Nat.pow 2 (band - 1)

def zero (negative : Bool) : Binary64 := .finite negative ⟨0, by decide⟩

/-- The number at an index. The first index behind the last finite number, and every one behind
    it, is infinite. -/
def atIndex (negative : Bool) (index : Nat) : Binary64 :=
  if h : index < finiteCount then .finite negative ⟨index, h⟩ else .infinite negative

def isFinite : Binary64 → Bool
  | .finite _ _ => true
  | .infinite _ | .nan => false

instance : Inhabited Binary64 := ⟨zero false⟩

/-! ## Bit patterns -/

/-- The weight of the sign, which is the highest of 64 bits. -/
def signWeight : Nat := 0x8000000000000000

/-- The part of a bit pattern that a sign makes up. -/
def signBit (negative : Bool) : Nat := if negative then signWeight else 0

/-- The bit pattern, as a number below `2 ^ 64`. Infinity follows the last finite number, and
    "not a number" has the first pattern with the highest fraction bit. -/
def toBits : Binary64 → Nat
  | .finite negative index => signBit negative + index
  | .infinite negative => signBit negative + finiteCount
  | .nan => finiteCount + bandSize / 2

def signOfBits (bits : Nat) : Bool := decide (signWeight ≤ bits % (2 * signWeight))

def indexOfBits (bits : Nat) : Nat := bits % signWeight

/-- The number with a bit pattern. The many patterns of "not a number" are one here. -/
def ofBits (bits : Nat) : Binary64 :=
  if indexOfBits bits ≤ finiteCount then atIndex (signOfBits bits) (indexOfBits bits) else .nan

@[simp] theorem isFinite_finite (negative : Bool) (index : Fin finiteCount) :
    (Binary64.finite negative index).isFinite = true := rfl

theorem atIndex_of_lt {index : Nat} (negative : Bool) (h : index < finiteCount) :
    atIndex negative index = .finite negative ⟨index, h⟩ := by
  simp [atIndex, h]

theorem isFinite_atIndex (negative : Bool) (index : Nat) :
    (atIndex negative index).isFinite = decide (index < finiteCount) := by
  unfold atIndex
  split <;> simp_all [isFinite]

theorem finiteCount_lt : finiteCount < signWeight := by decide

/-- The sign is one bit above all indices, so the two come apart again. -/
theorem indexOfBits_add (negative : Bool) {index : Nat} (h : index < signWeight) :
    indexOfBits (signBit negative + index) = index := by
  unfold indexOfBits signBit
  cases negative
  · rw [if_neg Bool.false_ne_true, Nat.zero_add, Nat.mod_eq_of_lt h]
  · rw [if_pos rfl, Nat.add_mod_left, Nat.mod_eq_of_lt h]

theorem signOfBits_add (negative : Bool) {index : Nat} (h : index < signWeight) :
    signOfBits (signBit negative + index) = negative := by
  have hbelow : ∀ n, n < 2 * signWeight → n % (2 * signWeight) = n := fun _ => Nat.mod_eq_of_lt
  unfold signOfBits signBit
  cases negative
  · rw [if_neg Bool.false_ne_true, Nat.zero_add, hbelow _ (by omega)]
    exact decide_eq_false (Nat.not_le_of_lt h)
  · rw [if_pos rfl, hbelow _ (by omega)]
    exact decide_eq_true (Nat.le_add_right ..)

/-- A number is read back from its bit pattern. -/
theorem ofBits_toBits (x : Binary64) : ofBits x.toBits = x := by
  cases x with
  | nan => decide +kernel
  | infinite negative =>
    have hindex := indexOfBits_add negative finiteCount_lt
    have hsign := signOfBits_add negative finiteCount_lt
    unfold toBits ofBits
    rw [hindex, hsign, if_pos (Nat.le_refl finiteCount), atIndex,
      dif_neg (Nat.lt_irrefl finiteCount)]
  | finite negative index =>
    have hk : index.val < signWeight := Nat.lt_trans index.isLt finiteCount_lt
    have hindex := indexOfBits_add negative hk
    have hsign := signOfBits_add negative hk
    unfold toBits ofBits
    rw [hindex, hsign, if_pos (Nat.le_of_lt index.isLt), atIndex_of_lt negative index.isLt]

end Binary64

end FormulaSyntax
