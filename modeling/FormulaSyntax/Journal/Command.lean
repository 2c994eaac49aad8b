import FormulaSyntax.Journal.Reading

/-!
# Working with a journal

A `Command` is one thing that a host does while a journal is kept: it changes the threshold,
writes a note of its own, draws a number, or has a source read. `perform` says what that comes
to: a reply, the records written, and the journal as it then stands. `performAll` does so for
one command after the other.
-/

set_option autoImplicit false

namespace FormulaSyntax

inductive Command where
  | setThreshold (threshold : Option Level)
  | write (note : Note)
  | drawNumber
  | tokenize (source : String)
  | parse (source : String)

/-- What a command gives back; reading a source only says whether it succeeded. -/
inductive Reply where
  | nothing
  | number (n : Nat)
  | success (value : Bool)
deriving DecidableEq

structure Performed where
  reply : Reply
  records : List Record
deriving DecidableEq

namespace Journal

/-- Writes notes, and replies with something known. -/
def noting (j : Journal) (reply : Reply) (notes : List Note) : Performed × Journal :=
  let (records, j') := j.write notes
  (⟨reply, records⟩, j')

def perform (j : Journal) : Command → Performed × Journal
  | .setThreshold threshold => (⟨.nothing, []⟩, { j with threshold })
  | .write note => j.noting .nothing [note]
  | .drawNumber =>
    let (number, j') := j.draw
    (⟨.number number, []⟩, j')
  | .tokenize source =>
    let readings := readingsOf source
    j.noting (.success (Reading.collect [] readings).toBool) (readings.map Reading.note)
  | .parse source =>
    let readings := readingsOf source
    let parsing := (Parser.ofReadings readings).parse
    j.noting (.success parsing.result.toBool) (parsing.notes readings)

/-- Performs commands in order, behind what was performed already, last one first. -/
def performOnto (done : List Performed) (j : Journal) : List Command → List Performed × Journal
  | [] => (done.reverse, j)
  | command :: rest =>
    let (performed, j') := j.perform command
    performOnto (performed :: done) j' rest

def performAll (j : Journal) (commands : List Command) : List Performed × Journal :=
  performOnto [] j commands

end Journal

end FormulaSyntax
