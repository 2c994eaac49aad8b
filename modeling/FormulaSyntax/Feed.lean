/-!
# Feeds: items handed out one at a time

Both stages of reading are on demand: the tokenizer asks for characters, the parser asks for
tokens, and neither looks at its supply as a whole. A `Feed` is such a supply together with the
number of times it has been asked.

A feed may answer "nothing" although more items follow. Such a **gap** is an entry `none` in the
list of answers to come. Past the end of that list the feed answers "nothing" for ever, and goes
on counting.

`live` is the view used in statements: the items that come before the first gap or the end. What
lies behind a gap is no part of it.
-/

set_option autoImplicit false

namespace FormulaSyntax

/-- A supply of items: the answers still to be given, and how often it has been asked. -/
structure Feed (α : Type) where
  pending : List (Option α)
  asked : Nat

namespace Feed

variable {α : Type}

def ofList (items : List α) : Feed α := ⟨items.map some, 0⟩

/-- A feed that gives these answers, gaps included, and then nothing. -/
def ofAnswers (answers : List (Option α)) : Feed α := ⟨answers, 0⟩

/-- Asks for the next item. Every question counts, also one that is answered with nothing. -/
def ask (feed : Feed α) : Option α × Feed α :=
  match feed.pending with
  | [] => (none, ⟨[], feed.asked + 1⟩)
  | answer :: rest => (answer, ⟨rest, feed.asked + 1⟩)

/-- The items in front of the first gap. -/
def upToGap : List (Option α) → List α
  | some item :: rest => item :: upToGap rest
  | _ => []

/-- The items that a feed still gives before it first answers with nothing. -/
def live (feed : Feed α) : List α := upToGap feed.pending

@[simp] theorem asked_ask (feed : Feed α) : feed.ask.2.asked = feed.asked + 1 := by
  unfold ask; split <;> rfl

@[simp] theorem upToGap_map_some (items : List α) : upToGap (items.map some) = items := by
  induction items with
  | nil => rfl
  | cons item rest ih => simp [upToGap, ih]

@[simp] theorem live_ofList (items : List α) : (ofList items).live = items := by
  simp [live, ofList]

/-- The answer is the first live item, so a feed without one answers with nothing. -/
theorem ask_fst (feed : Feed α) : feed.ask.1 = feed.live.head? := by
  unfold ask live
  split
  · simp_all [upToGap]
  · next answer rest h => cases answer <;> simp [h, upToGap]

/-- A feed that answers with an item has lost just that item. -/
theorem live_eq_cons_of_ask {feed rest : Feed α} {item : α} (h : feed.ask = (some item, rest)) :
    feed.live = item :: rest.live := by
  unfold ask at h
  split at h
  · simp at h
  · next answer tail hp =>
    obtain ⟨rfl, rfl⟩ := Prod.mk.injEq .. ▸ h
    simp [live, hp, upToGap]

end Feed

end FormulaSyntax
