import FormulaSyntax.Formula.Parser
import FormulaSyntax.Journal.Basic

/-!
# What is noted while a source is read

The tokenizer notes every answer it gives: a token that is not the end marker at the level
`trace`, the end of the stream and an error at the level `debug`. The parser notes that it begins
and ends, and each item that is complete.

Since the parser asks the tokenizer on demand, its notes stand among those of the tokenizer: an
item is noted behind the answers that were asked for by then. The milestones of a parse say how
many those are, so the notes are put in order afterwards.
-/

set_option autoImplicit false

namespace FormulaSyntax

def lexCategory : String := "LEX"

def parseCategory : String := "PARSE"

def Reading.note (r : Reading) : Note :=
  match r.answer with
  | .ok t =>
    if t.isEndOfFile then
      ⟨.debug, lexCategory, "end of stream after " ++ toString r.position ++ " chars"⟩
    else ⟨.trace, lexCategory, t.kind.label ++ " at " ++ toString t.span⟩
  | .error e => ⟨.debug, lexCategory, "error: " ++ e.message⟩

/-- A kind of token that need not be there, as notes show it. -/
def describeKind? : Option TokenKind → String
  | some kind => "Some(" ++ kind.label ++ ")"
  | none => "None"

/-- The note for an item that is complete. -/
def Milestone.note (m : Milestone) : Note :=
  ⟨.debug, parseCategory,
    "item " ++ toString m.items ++ " parsed, next " ++ describeKind? m.next⟩

/-- What a parse comes to, as its last note shows it. -/
def describeResult : Except ParseError Formula → String
  | .ok f => "items=" ++ toString f.items.length
  | .error e => "error: " ++ e.message

namespace Parsing

/-- The notes of readings and milestones in the order of events, behind the notes given already,
    last one first. `seen` readings are noted already; in the end `asked` of them are. -/
def eventsOnto (noted : List Note) (seen : Nat) (readings : List Reading) (asked : Nat) :
    List Milestone → List Note
  | [] => noted.reverse ++ (readings.take (asked - seen)).map Reading.note
  | m :: rest =>
    let passed := (readings.take (m.asked - seen)).map Reading.note
    eventsOnto (m.note :: (passed.reverse ++ noted)) m.asked (readings.drop (m.asked - seen))
      asked rest

/-- The notes of a parse that was fed with the readings. -/
def notes (parsing : Parsing) (readings : List Reading) : List Note :=
  eventsOnto [.enter parseCategory "parse" none] 0 readings parsing.parser.source.asked
      parsing.milestones
    ++ [.exit parseCategory "parse" (some (describeResult parsing.result))]

end Parsing

end FormulaSyntax
