import FormulaSyntax.Formula.Expression
import FormulaSyntax.Scan.Tokenizer

/-!
# Parsing a formula

A formula is read item by item. Line breaks in front of an item are passed over; an item is an
assignment if it begins with a name and an equals sign, and an expression otherwise; behind it
there must be a line break or the end.

The first error ends the parse, and nothing is left of the items before it. The parser itself is
left as it stands, and may be used again: the next parse goes on with the token that was current.

While it parses, a parser passes **milestones**, one for each item that is complete. They record
what an observer of the parse could see: how many items there are by now, how often the feed has
been asked, and what the next token is.
-/

set_option autoImplicit false

namespace FormulaSyntax

/-- What can be seen of a parse when an item is complete. -/
structure Milestone where
  items : Nat
  asked : Nat
  next : Option TokenKind
deriving DecidableEq

/-- What a parse comes to: its result, the milestones it passed, and the parser it leaves. -/
structure Parsing where
  result : Except ParseError Formula
  milestones : List Milestone
  parser : Parser

namespace Parser

/-! ## Items -/

def unexpected (p : Parser) : ParseError :=
  match p.current with
  | some t => .syntactic (.unexpectedToken t.kind) t.span
  | none => .internal .missingToken

/-- Whether an assignment begins with the current token. -/
def atAssignment (p : Parser) : Bool :=
  p.currentKind? == some .name && p.nextKind? == some (.symbol .assign)

/-- Reads an expression that has to be there. -/
def required : ParseM Expr := fun p =>
  match expression p with
  | .ok (some e) p' => .ok e p'
  | .ok none p' => .error (unexpected p') p'
  | .error e p' => .error e p'

/-- Reads the value of an assignment whose equals sign is given. -/
def assigned (equals : Token) : ParseM Expr := fun p =>
  match expression p with
  | .ok (some e) p' => .ok e p'
  | .ok none p' => .error (.syntactic .emptyAssignment equals.span) p'
  | .error e p' => .error e p'

def assignment : ParseM Expr := do
  let name ← bump
  let equals ← bump
  let target ← orFault (textOf name)
  let value ← assigned equals
  return .assign ⟨target⟩ value

def item : ParseM Expr := fun p => if p.atAssignment then assignment p else required p

def skipNewLines (p : Parser) : EStateM.Result ParseError Parser Unit :=
  match _hc : p.current with
  | none => .ok () p
  | some t =>
    if t.kind = .symbol .newLine then
      match _hs : shift p with
      | .ok _ p' => skipNewLines p'
      | .error e p' => .error e p'
    else .ok () p
termination_by p.upcoming.length
decreasing_by
  rw [upcoming_eq_cons_of_shift ‹p.current = some t› ‹_›]
  exact Nat.lt_succ_self _

def itemUnlessEnd : ParseM (Option Expr) := fun p =>
  if p.atEnd then .ok none p else (some <$> item) p

def nextItem : ParseM (Option Expr) := do
  skipNewLines
  itemUnlessEnd

/-- The error if an item is followed by a token on the same line. -/
def strayToken? (p : Parser) : Option ParseError :=
  match p.current with
  | some t =>
    if t.isEndOfFile ∨ t.kind = .symbol .newLine then none
    else some (.syntactic (.unexpectedToken t.kind) t.span)
  | none => none

/-! ## An item takes at least one token -/

theorem length_upcoming_required_lt {p q : Parser} {e : Expr} (h : required p = .ok e q) :
    q.upcoming.length < p.upcoming.length := by
  unfold required at h
  split at h
  · next hx =>
    obtain ⟨rfl, rfl⟩ := EStateM.Result.ok.inj h
    exact length_upcoming_expression_lt hx
  · exact nomatch h
  · exact nomatch h

theorem length_upcoming_assigned_lt {p q : Parser} {equals : Token} {e : Expr}
    (h : assigned equals p = .ok e q) : q.upcoming.length < p.upcoming.length := by
  unfold assigned at h
  split at h
  · next hx =>
    obtain ⟨rfl, rfl⟩ := EStateM.Result.ok.inj h
    exact length_upcoming_expression_lt hx
  · exact nomatch h
  · exact nomatch h

theorem length_upcoming_assignment_lt {p q : Parser} {e : Expr} (h : assignment p = .ok e q) :
    q.upcoming.length < p.upcoming.length := by
  obtain ⟨name, p₁, hn, h₁⟩ := bind_eq_ok.mp h
  obtain ⟨equals, p₂, he, h₂⟩ := bind_eq_ok.mp h₁
  obtain ⟨target, p₃, ht, h₃⟩ := bind_eq_ok.mp h₂
  obtain ⟨value, p₄, hv, h₄⟩ := bind_eq_ok.mp h₃
  obtain ⟨-, rfl⟩ := orFault_eq_ok.mp ht
  obtain ⟨-, rfl⟩ := pure_eq_ok.mp h₄
  have hlt := length_upcoming_assigned_lt hv
  have hname := congrArg List.length (upcoming_eq_cons_of_bump hn).2
  have hequals := congrArg List.length (upcoming_eq_cons_of_bump he).2
  simp only [List.length_cons] at hname hequals
  omega

theorem length_upcoming_item_lt {p q : Parser} {e : Expr} (h : item p = .ok e q) :
    q.upcoming.length < p.upcoming.length := by
  unfold item at h
  split at h
  · exact length_upcoming_assignment_lt h
  · exact length_upcoming_required_lt h

/-- Line breaks need not be there, so the tokens ahead may be as many as before. -/
theorem length_upcoming_skipNewLines_le {p q : Parser} {u : Unit}
    (h : skipNewLines p = .ok u q) : q.upcoming.length ≤ p.upcoming.length := by
  fun_induction skipNewLines p with
  | case1 =>
    obtain ⟨-, rfl⟩ := EStateM.Result.ok.inj h
    exact Nat.le_refl _
  | case2 p t hc hk passed p' hs ih =>
    rw [upcoming_eq_cons_of_shift hc hs]
    exact Nat.le_succ_of_le (ih h)
  | case3 => exact nomatch h
  | case4 =>
    obtain ⟨-, rfl⟩ := EStateM.Result.ok.inj h
    exact Nat.le_refl _

/-- **An item takes a token at least**, which is what the loop over items ends by. -/
theorem length_upcoming_nextItem_lt {p q : Parser} {e : Expr}
    (h : nextItem p = .ok (some e) q) : q.upcoming.length < p.upcoming.length := by
  obtain ⟨_, p₁, hs, h₁⟩ := bind_eq_ok.mp h
  have hle := length_upcoming_skipNewLines_le hs
  unfold itemUnlessEnd at h₁
  split at h₁
  · exact nomatch h₁
  · obtain ⟨e', -, he⟩ := map_some_eq_ok.mp h₁
    exact Nat.lt_of_lt_of_le (length_upcoming_item_lt he) hle

/-! ## The whole formula -/

/-- The number of items that are complete, by milestones given last one first. -/
def itemsPassed : List Milestone → Nat
  | [] => 0
  | last :: _ => last.items

/-- Reads items up to the end, behind those read already. The items and the milestones so far are
    given last one first. -/
def itemsFrom (p : Parser) (items : List Expr) (milestones : List Milestone) : Parsing :=
  match _h : nextItem p with
  | .error e p' => ⟨.error e, milestones.reverse, p'⟩
  | .ok none p' => ⟨.ok ⟨items.reverse⟩, milestones.reverse, p'⟩
  | .ok (some e) p' =>
    let passed := ⟨itemsPassed milestones + 1, p'.source.asked, p'.currentKind?⟩ :: milestones
    match strayToken? p' with
    | some error => ⟨.error error, passed.reverse, p'⟩
    | none => itemsFrom p' (e :: items) passed
termination_by p.upcoming.length
decreasing_by exact length_upcoming_nextItem_lt ‹_›

def parse (p : Parser) : Parsing :=
  match prime p with
  | .error e p' => ⟨.error e, [], p'⟩
  | .ok () p' => itemsFrom p' [] []

def ofReadings (readings : List Reading) : Parser :=
  ofFeed (Feed.ofList (readings.map Reading.answer))

/-- A parser on a text, which is taken as it is. -/
def ofText (text : List Char) : Parser := ofReadings (Tokenizer.ofText text).readings

end Parser

/-- Parses a source, whose line ends are normalized first. -/
def parse (source : String) : Except ParseError Formula :=
  (Parser.ofReadings (readingsOf source)).parse.result

end FormulaSyntax
