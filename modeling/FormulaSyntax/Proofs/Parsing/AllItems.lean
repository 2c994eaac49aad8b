import FormulaSyntax.Proofs.Parsing.TokenList

/-!
# All items, as a part of the parser

`itemsFrom` collects items behind those that it is given, and carries milestones along. Neither
has an effect on what is read (`itemsFrom_eq`). What is left without them is `allItems`, all items
up to the end: the next one, and then all the others (`allItems_eq`). So it is a part of the
parser like the others, and a parse is that part on a primed parser (`parse_of_prime`).
-/

set_option autoImplicit false

namespace FormulaSyntax

namespace Parser

variable {α : Type}

/-- A result, and the parser it leaves. -/
def leaving (r : Except ParseError α) (q : Parser) : EStateM.Result ParseError Parser α :=
  match r with
  | .ok a => .ok a q
  | .error e => .error e q

/-! ## Items in front -/

/-- A result of reading items, with items in front that are read already. -/
def prepended (items : List Expr) :
    EStateM.Result ParseError Parser (List Expr) → EStateM.Result ParseError Parser (List Expr)
  | .ok es q => .ok (items ++ es) q
  | .error e q => .error e q

/-- Items in front of items in front are all in front. -/
theorem prepended_append (first second : List Expr)
    (r : EStateM.Result ParseError Parser (List Expr)) :
    prepended first (prepended second r) = prepended (first ++ second) r := by
  cases r with
  | ok es q => rw [prepended, prepended, prepended, List.append_assoc]
  | error e q => rfl

theorem prepended_nil (r : EStateM.Result ParseError Parser (List Expr)) : prepended [] r = r := by
  cases r <;> rfl

theorem prepended_leaving (items : List Expr) (r : Except ParseError (List Expr)) (q : Parser) :
    prepended items (leaving r q) = leaving (r.map (items ++ ·)) q := by
  cases r <;> rfl

/-! ## Items without the list that is carried along -/

/-- A result of reading items, behind items given last one first. -/
def collected (items : List Expr) :
    EStateM.Result ParseError Parser (List Expr) → Except ParseError Formula × Parser
  | .ok es q => (.ok ⟨items.reverse ++ es⟩, q)
  | .error e q => (.error e, q)

/-- The induction is on the tokens ahead. The items so far and the milestones are generalised,
    since they are only carried along. -/
theorem exists_itemsFrom_eq (p : Parser) :
    ∃ r, ∀ items milestones, ((itemsFrom p items milestones).result,
      (itemsFrom p items milestones).parser) = collected items r := by
  cases hn : nextItem p with
  | error e q =>
    refine ⟨.error e q, ?_⟩
    intro items milestones
    rw [itemsFrom_of_error items milestones hn]
    rfl
  | ok r q =>
    cases r with
    | none =>
      refine ⟨.ok [] q, ?_⟩
      intro items milestones
      rw [itemsFrom_of_end items milestones hn, collected, List.append_nil]
    | some e =>
      cases hs : strayToken? q with
      | some error =>
        refine ⟨.error error q, ?_⟩
        intro items milestones
        rw [itemsFrom_of_stray items milestones hn hs]
        rfl
      | none =>
        obtain ⟨r, hr⟩ := exists_itemsFrom_eq q
        refine ⟨prepended [e] r, ?_⟩
        intro items milestones
        rw [itemsFrom_of_item items milestones hn hs, hr]
        cases r with
        | ok es q' => simp [collected, prepended]
        | error error q' => rfl
termination_by p.upcoming.length
decreasing_by exact length_upcoming_nextItem_lt ‹_›

/-- All items up to the end, as a part of the parser. -/
def allItems : ParseM (List Expr) := fun p =>
  match (itemsFrom p [] []).result with
  | .ok f => .ok f.items (itemsFrom p [] []).parser
  | .error e => .error e (itemsFrom p [] []).parser

theorem itemsFrom_eq (p : Parser) (items : List Expr) (milestones : List Milestone) :
    ((itemsFrom p items milestones).result, (itemsFrom p items milestones).parser)
      = collected items (allItems p) := by
  obtain ⟨r, hr⟩ := exists_itemsFrom_eq p
  have hall : allItems p = r := by
    have hnil := hr [] []
    cases r with
    | ok es q =>
      obtain ⟨hresult, hparser⟩ := Prod.mk.inj hnil
      simp only [allItems, hresult, hparser]
      rfl
    | error e q =>
      obtain ⟨hresult, hparser⟩ := Prod.mk.inj hnil
      simp only [allItems, hresult, hparser]
  rw [hall, hr]

/-- Refuses a token behind an item on the same line. -/
def refuseStray : ParseM Unit := fun p =>
  match strayToken? p with
  | some error => .error error p
  | none => .ok () p

/-- What follows when the next item is read. -/
def moreItems : Option Expr → ParseM (List Expr)
  | none => pure []
  | some e => do
    refuseStray
    let es ← allItems
    return e :: es

theorem allItems_eq : allItems = nextItem >>= moreItems := by
  funext p
  cases hn : nextItem p with
  | error e q =>
    rw [bind_of_error hn]
    simp only [allItems, itemsFrom_of_error [] [] hn]
  | ok r q =>
    rw [bind_of_ok hn]
    cases r with
    | none =>
      simp only [allItems, itemsFrom_of_end [] [] hn]
      rfl
    | some e =>
      cases hs : strayToken? q with
      | some error =>
        have hrefuse : refuseStray q = .error error q := by simp only [refuseStray, hs]
        simp only [allItems, itemsFrom_of_stray [] [] hn hs]
        exact (bind_of_error hrefuse).symm
      | none =>
        have hrefuse : refuseStray q = .ok () q := by simp only [refuseStray, hs]
        have hrest := Prod.mk.inj (itemsFrom_eq q [e] [milestone [] q])
        simp only [allItems, itemsFrom_of_item [] [] hn hs, moreItems]
        rw [bind_of_ok hrefuse]
        cases hq : allItems q with
        | ok es q' =>
          rw [bind_of_ok hq]
          simp only [hq] at hrest
          simp only [hrest]
          rfl
        | error error q' =>
          rw [bind_of_error hq]
          simp only [hq] at hrest
          simp only [hrest]

/-! ## Parses -/

/-- A parse, as all items behind the tokens that it is primed with. -/
theorem parse_of_prime {p q q' : Parser} {r : Except ParseError (List Expr)}
    (hprime : prime p = .ok () q) (h : allItems q = leaving r q') :
    p.parse.result = r.map Formula.mk ∧ p.parse.parser = q' := by
  have hitems := itemsFrom_eq q [] []
  rw [h] at hitems
  simp only [parse, hprime]
  cases r with
  | ok es => exact Prod.mk.inj hitems
  | error e => exact Prod.mk.inj hitems

theorem parse_of_allItems {tokens : List Token} {r : Except ParseError (List Expr)} {q : Parser}
    (h : allItems (onTokens tokens 2) = leaving r q) :
    (ofTokens tokens).parse.result = r.map Formula.mk ∧ (ofTokens tokens).parse.parser = q :=
  parse_of_prime (prime_ofTokens tokens) h

end Parser

end FormulaSyntax
