import FormulaSyntax.Scan.Numeral

/-!
# Shapes: data between programs

Tokens and formulas are exchanged with other programs as data of a general kind: null, truth
values, numbers, text, lists and records. A `Shape` is such a piece of data. This module holds
the type and the conventions that everything exchanged follows; the modules beside it say what
the shape of each type is.

* **Numbers** are integers or finite double precision numbers. There is no infinity and no "not a
  number" among them: such a value has the shape null, and null is not read as a number.
* **A structure** is a record with an entry for each field. It is also read from a list of just
  its fields in their order, and entries beyond the fields are passed over.
* **An alternative** with nothing in it is its tag as a text; one with a content is a record with
  the tag as its only entry. An alternative with nothing in it is also read from such a record, if
  the content is null.

The views `variant?`, `fieldsOf?` and `entry?` take a shape apart by these conventions.
-/

set_option autoImplicit false

namespace FormulaSyntax

/-- A piece of data. A float is finite. The keys of a record are all different. -/
inductive Shape where
  | null
  | truth (value : Bool)
  | integer (value : Int)
  | float (negative : Bool) (index : Fin Binary64.finiteCount)
  | text (value : String)
  | list (items : List Shape)
  | record (entries : List (String × Shape))

namespace Shape

/-! ## Numbers -/

/-- Integers from here on, `2 ^ 64`, are not kept as integers. -/
def integerBound : Nat := 0x10000000000000000

/-- Integers below the negative of this, `2 ^ 63`, are not kept as integers. -/
def negativeBound : Nat := 0x8000000000000000

def ofBinary64 : Binary64 → Shape
  | .finite negative index => float negative index
  | .infinite _ | .nan => null

/-- Reads a double precision number. An integer is rounded to the nearest one. -/
def number? : Shape → Option Binary64
  | integer value => some (.ofInt value)
  | float negative index => some (.finite negative index)
  | _ => none

/-- Reads a natural number; a float is none, whatever its value. -/
def natural? : Shape → Option Nat
  | integer (.ofNat n) => some n
  | _ => none

/-- The shape of a written number. Without a point and an exponent it is an integer, if it is
    within the bounds and not a negative zero; otherwise it is the nearest double precision
    number, if that is finite. -/
def ofNumeral? (negative : Bool) (n : DecimalNumeral) : Option Shape :=
  let magnitude := digitsValue 10 n.whole
  let whole := n.fraction.isNone && n.exponent.isNone
  if whole ∧ negative = false ∧ magnitude < integerBound then some (integer magnitude)
  else if whole ∧ negative = true ∧ 0 < magnitude ∧ magnitude ≤ negativeBound then
    some (integer (-magnitude))
  else
    match Binary64.ofDecimal negative n.toDecimal with
    | .finite negative index => some (float negative index)
    | .infinite _ | .nan => none

/-! ## Texts and truth values -/

def text? : Shape → Option String
  | text value => some value
  | _ => none

def truth? : Shape → Option Bool
  | truth value => some value
  | _ => none

def items? : Shape → Option (List Shape)
  | list items => some items
  | _ => none

/-! ## Structures -/

def lookup (key : String) : List (String × Shape) → Option Shape
  | [] => none
  | (k, value) :: rest => if k = key then some value else lookup key rest

def entry? (key : String) : Shape → Option Shape
  | record entries => lookup key entries
  | _ => none

/-- The fields of a structure, in the order of their names. -/
def fieldsOf? (names : List String) : Shape → Option (List Shape)
  | record entries => names.mapM fun name => lookup name entries
  | list items => if items.length = names.length then some items else none
  | _ => none

/-! ## Alternatives -/

/-- The shape of an alternative with a content. -/
def tagged (tag : String) (content : Shape) : Shape := record [(tag, content)]

/-- The tag of an alternative and its content, if it is not bare. -/
def variant? : Shape → Option (String × Option Shape)
  | text tag => some (tag, none)
  | record [(tag, content)] => some (tag, some content)
  | _ => none

/-- The tag of an alternative with nothing in it. -/
def bareTag? (s : Shape) : Option String :=
  match s.variant? with
  | some (tag, none) => some tag
  | some (tag, some null) => some tag
  | _ => none

/-- The tag and the content of an alternative that has one. -/
def content? (s : Shape) : Option (String × Shape) :=
  match s.variant? with
  | some (tag, some content) => some (tag, content)
  | _ => none

@[simp] theorem variant?_text (tag : String) : variant? (text tag) = some (tag, none) := rfl

@[simp] theorem content?_tagged (tag : String) (content : Shape) :
    (tagged tag content).content? = some (tag, content) := rfl

@[simp] theorem bareTag?_text (tag : String) : bareTag? (text tag) = some tag := rfl

@[simp] theorem number?_ofBinary64 (x : Binary64) :
    (ofBinary64 x).number? = if x.isFinite then some x else none := by
  cases x <;> rfl

@[simp] theorem natural?_integer (n : Nat) : (integer n).natural? = some n := rfl

/-! ## What is inside is smaller -/

theorem sizeOf_lookup_lt {key : String} {entries : List (String × Shape)} {s : Shape}
    (h : lookup key entries = some s) : sizeOf s < sizeOf entries := by
  induction entries with
  | nil => exact nomatch h
  | cons entry rest ih =>
    obtain ⟨k, value⟩ := entry
    unfold lookup at h
    split at h
    · obtain rfl := Option.some.inj h
      simp only [List.cons.sizeOf_spec, Prod.mk.sizeOf_spec]
      omega
    · have hrest := ih h
      simp only [List.cons.sizeOf_spec]
      omega

/-- The entry of a record is inside it. -/
theorem sizeOf_entry?_lt {key : String} {s inner : Shape} (h : s.entry? key = some inner) :
    sizeOf inner < sizeOf s := by
  cases s with
  | record entries =>
    have hlt := sizeOf_lookup_lt (show lookup key entries = some inner from h)
    simp only [record.sizeOf_spec]
    omega
  | null | truth _ | integer _ | float _ _ | text _ | list _ => exact nomatch h

theorem sizeOf_content?_lt {tag : String} {s inner : Shape}
    (h : s.content? = some (tag, inner)) : sizeOf inner < sizeOf s := by
  unfold content? at h
  split at h
  · next tag' content hv =>
    obtain ⟨rfl, rfl⟩ := Prod.mk.injEq .. ▸ Option.some.inj h
    unfold variant? at hv
    split at hv
    · simp at hv
    · simp at hv
      obtain ⟨rfl, rfl⟩ := hv
      simp only [record.sizeOf_spec, List.cons.sizeOf_spec, Prod.mk.sizeOf_spec]
      omega
    · simp at hv
  · exact nomatch h

end Shape

end FormulaSyntax
