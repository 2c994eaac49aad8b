import FormulaSyntax.Feed

/-!
# The window: two characters of lookahead on a feed

Lexemes are told apart by the current character and the one that follows it. A `Window` shows
these two of a feed of characters, and counts the characters that have passed.

The window asks its feed only as far as it shows: two characters at the start, then one more for
every character that passes, and **never again once the feed has answered with nothing**. That
is why what is ahead has three shapes and not four: when only one character is left, or none, the
feed has run dry, and there is no further use for it.

`text` is the view for statements: all the characters still to come, before the feed's first
gap. Every operation is described by what it does to `text`, and every loop over a window ends
because `text` gets shorter.
-/

set_option autoImplicit false

namespace FormulaSyntax

/-- The characters in view: two while the feed lasts, then one, then none. -/
inductive Ahead where
  | dry
  | last (current : Char)
  | pair (current following : Char)
deriving DecidableEq, Inhabited

/-- A window on a feed of characters. `position` is the number of characters passed, which is
    the offset of the current one. -/
structure Window where
  ahead : Ahead
  source : Feed Char
  position : Nat

namespace Window

/-- The current character, with the next one asked for. -/
def behind (current : Char) (source : Feed Char) : Ahead × Feed Char :=
  match source.ask with
  | (some following, rest) => (.pair current following, rest)
  | (none, rest) => (.last current, rest)

def ofFeed (source : Feed Char) : Window :=
  match source.ask with
  | (none, rest) => ⟨.dry, rest, 0⟩
  | (some current, rest) =>
    let (ahead, rest) := behind current rest
    ⟨ahead, rest, 0⟩

def ofText (text : List Char) : Window := ofFeed (Feed.ofList text)

def current? (w : Window) : Option Char :=
  match w.ahead with
  | .dry => none
  | .last c => some c
  | .pair c _ => some c

def following? (w : Window) : Option Char :=
  match w.ahead with
  | .dry | .last _ => none
  | .pair _ d => some d

/-- Lets the current character pass. At the end of the text nothing happens. -/
def advance (w : Window) : Window :=
  match w.ahead with
  | .dry => w
  | .last _ => { w with ahead := .dry, position := w.position + 1 }
  | .pair _ d =>
    let (ahead, rest) := behind d w.source
    ⟨ahead, rest, w.position + 1⟩

def text (w : Window) : List Char :=
  match w.ahead with
  | .dry => []
  | .last c => [c]
  | .pair c d => c :: d :: w.source.live

/-! ## The operations on the view -/

/-- What is in view and what the feed still gives make up the text. -/
theorem text_behind (current : Char) (source : Feed Char) (position : Nat) :
    text ⟨(behind current source).1, (behind current source).2, position⟩
      = current :: source.live := by
  unfold behind
  split
  · next following rest h =>
    simp [text, Feed.live_eq_cons_of_ask h]
  · next rest h =>
    have hnone : source.live.head? = none := by rw [← Feed.ask_fst, h]
    simp [text, List.head?_eq_none_iff.mp hnone]

@[simp] theorem text_ofFeed (source : Feed Char) : (ofFeed source).text = source.live := by
  unfold ofFeed
  split
  · next rest h =>
    have hnone : source.live.head? = none := by rw [← Feed.ask_fst, h]
    simp [text, List.head?_eq_none_iff.mp hnone]
  · next current rest h =>
    rw [Feed.live_eq_cons_of_ask h]
    exact text_behind current rest 0

@[simp] theorem position_ofFeed (source : Feed Char) : (ofFeed source).position = 0 := by
  unfold ofFeed
  split <;> rfl

@[simp] theorem text_ofText (cs : List Char) : (ofText cs).text = cs := by
  simp [ofText]

theorem current?_eq_head? (w : Window) : w.current? = w.text.head? := by
  unfold current? text
  split <;> rfl

/-- The second character is in view as soon as there is one. -/
theorem following?_eq_getElem? (w : Window) : w.following? = w.text[1]? := by
  unfold following? text
  split <;> simp_all

@[simp] theorem text_advance (w : Window) : w.advance.text = w.text.tail := by
  obtain ⟨ahead, source, position⟩ := w
  cases ahead with
  | dry => rfl
  | last c => rfl
  | pair c d => exact text_behind d source (position + 1)

theorem length_text_advance_lt {w : Window} {c : Char} (h : w.current? = some c) :
    w.advance.text.length < w.text.length := by
  rw [current?_eq_head?] at h
  cases ht : w.text with
  | nil => simp [ht] at h
  | cons d rest => simp [ht]

theorem position_advance {w : Window} {c : Char} (h : w.current? = some c) :
    w.advance.position = w.position + 1 := by
  obtain ⟨ahead, source, position⟩ := w
  cases ahead with
  | dry => simp [current?] at h
  | last c => rfl
  | pair c d => rfl

/-! ## Runs -/

/-- What becomes of a character at the end of a run. -/
inductive Verdict where
  /-- It belongs to the run. -/
  | keep
  /-- It passes, but is no part of what the run yields. -/
  | skip
  /-- The run ends in front of it. -/
  | stop
deriving DecidableEq

/-- Lets characters pass while the judge allows it, and yields those it keeps. The judge sees the
    current character and the one that follows. `kept` are those kept so far, last one first. -/
def gather (judge : Char → Option Char → Verdict) (w : Window) (kept : List Char) :
    List Char × Window :=
  match _h : w.current? with
  | none => (kept.reverse, w)
  | some c =>
    match judge c w.following? with
    | .keep => gather judge w.advance (c :: kept)
    | .skip => gather judge w.advance kept
    | .stop => (kept.reverse, w)
termination_by w.text.length
decreasing_by all_goals exact length_text_advance_lt ‹_›

/-- The run at the front of the window. -/
def run (judge : Char → Option Char → Verdict) (w : Window) : List Char × Window :=
  gather judge w []

theorem length_text_gather_le (judge : Char → Option Char → Verdict) (w : Window)
    (kept : List Char) : (gather judge w kept).2.text.length ≤ w.text.length := by
  fun_induction gather judge w kept with
  | case1 => exact Nat.le_refl _
  | case2 w kept c h hj ih => exact Nat.le_trans ih (Nat.le_of_lt (length_text_advance_lt h))
  | case3 w kept c h hj ih => exact Nat.le_trans ih (Nat.le_of_lt (length_text_advance_lt h))
  | case4 => exact Nat.le_refl _

theorem length_text_run_le (judge : Char → Option Char → Verdict) (w : Window) :
    (w.run judge).2.text.length ≤ w.text.length :=
  length_text_gather_le judge w []

/-- A run that does not stop at once lets a character pass. -/
theorem length_text_run_lt {judge : Char → Option Char → Verdict} {w : Window} {c : Char}
    (hc : w.current? = some c) (hj : judge c w.following? ≠ .stop) :
    (w.run judge).2.text.length < w.text.length := by
  unfold run
  rw [gather]
  split
  · next h => simp [h] at hc
  · next d h =>
    obtain rfl : d = c := Option.some.inj (h.symm.trans hc)
    split
    · exact Nat.lt_of_le_of_lt (length_text_gather_le ..) (length_text_advance_lt h)
    · exact Nat.lt_of_le_of_lt (length_text_gather_le ..) (length_text_advance_lt h)
    · next hs => exact absurd hs hj

end Window

end FormulaSyntax
