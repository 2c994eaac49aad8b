/-!
# The journal

What happens while formulas are read can be followed in a journal. A **note** is something worth
writing down, with a level of importance and a category. Whether it is written is up to the
journal: its threshold lets pass the levels up to a given one, or none at all. A note that is
written becomes a **record** with a number.

Numbers are drawn from one counter, so records from different places can be put in order. **Only
a note that is written draws a number**; numbers can also be drawn for other purposes.

The counter is a `Nat` here. The one it stands for has 64 bits and begins again at zero when they
are used up, so the two differ only after `2 ^ 64` draws.
-/

set_option autoImplicit false

namespace FormulaSyntax

/-- How important a note is, the most important level first. -/
inductive Level where
  | error | warn | info | debug | trace
deriving DecidableEq, Inhabited

namespace Level

/-- The place of a level in the order of importance. -/
def rank : Level → Nat
  | error => 1
  | warn => 2
  | info => 3
  | debug => 4
  | trace => 5

def label : Level → String
  | error => "ERROR"
  | warn => "WARN"
  | info => "INFO"
  | debug => "DEBUG"
  | trace => "TRACE"

end Level

structure Note where
  level : Level
  category : String
  message : String
deriving DecidableEq

/-- A note that was written, and its number. -/
structure Record where
  number : Nat
  note : Note
deriving DecidableEq

namespace Record

/-- The name under which all records are delivered. -/
def target : String := "formula_parser"

/-- The line of a record: its number, its category and its message between bars. -/
def line (r : Record) : String :=
  toString r.number ++ "|" ++ r.note.category ++ "|" ++ r.note.message

end Record

/-- The least important level that is written, and how many numbers were drawn. -/
structure Journal where
  threshold : Option Level
  drawn : Nat
deriving DecidableEq

namespace Journal

def start : Journal := ⟨none, 0⟩

def isEnabled (j : Journal) (level : Level) : Bool :=
  match j.threshold with
  | some least => decide (level.rank ≤ least.rank)
  | none => false

/-- Draws the next number. The first one is 1. -/
def draw (j : Journal) : Nat × Journal := (j.drawn + 1, { j with drawn := j.drawn + 1 })

/-- Writes notes in order, behind the records written already, last one first. -/
def writeOnto (written : List Record) (j : Journal) : List Note → List Record × Journal
  | [] => (written.reverse, j)
  | note :: rest =>
    if j.isEnabled note.level then
      let (number, j') := j.draw
      writeOnto (⟨number, note⟩ :: written) j' rest
    else writeOnto written j rest

def write (j : Journal) (notes : List Note) : List Record × Journal := writeOnto [] j notes

end Journal

namespace Note

/-- A note that something begins, with what it is given, if that is said. -/
def enter (category name : String) (parameters : Option String) : Note :=
  ⟨.debug, category, "ENTER " ++ name ++
    (match parameters with
      | some text => " " ++ text
      | none => "")⟩

/-- A note that something ends, with what it comes to, if that is said. -/
def exit (category name : String) (result : Option String) : Note :=
  ⟨.debug, category, "EXIT " ++ name ++
    (match result with
      | some text => " " ++ text
      | none => "")⟩

end Note

end FormulaSyntax
