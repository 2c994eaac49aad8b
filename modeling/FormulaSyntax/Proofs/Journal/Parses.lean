import FormulaSyntax.Proofs.Journal.Writing
import FormulaSyntax.Proofs.Source.Readings

/-!
# The journal of a parse

Two stages write into the journal of a parse, and take turns: the tokenizer a note for each answer
it gives, the parser one when it begins, one when it ends, and one for each item (`parse_journal`).
The parser asks ahead, so the note of a token may stand before that of an item the token is behind.

To find the notes of one stage among all of them, the notes are filtered. **The milestones climb,
so the parts of the answers between them join to what was pulled** (`filter_events_of_reading`),
and this is the same as if the tokenizer had written alone; and the other way round.
-/

set_option autoImplicit false

namespace FormulaSyntax

/-! ## Two stages that take turns -/

namespace Parsing

/-- The notes of readings and milestones in the order of events; `seen` readings are noted
    already, in the end `asked` of them are. -/
def events (seen : Nat) (readings : List Reading) (asked : Nat) : List Milestone → List Note
  | [] => (readings.take (asked - seen)).map Reading.note
  | m :: rest =>
    (readings.take (m.asked - seen)).map Reading.note
      ++ m.note :: events m.asked (readings.drop (m.asked - seen)) asked rest

variable {seen asked : Nat} {readings : List Reading} {milestones : List Milestone}

theorem eventsOnto_eq (noted : List Note) :
    eventsOnto noted seen readings asked milestones
      = noted.reverse ++ events seen readings asked milestones := by
  induction milestones generalizing noted seen readings with
  | nil => rfl
  | cons m rest ih => simp [eventsOnto, events, ih]

theorem notes_eq (parsing : Parsing) (readings : List Reading) :
    parsing.notes readings = .enter parseCategory "parse" none ::
      (events 0 readings parsing.parser.source.asked parsing.milestones
        ++ [.exit parseCategory "parse" (some (describeResult parsing.result))]) := by
  rw [notes, eventsOnto_eq]
  rfl

/-- Without the notes of items, the notes of all readings are left. -/
theorem filter_events_of_reading {P : Note → Bool} (hP : ∀ m : Milestone, P m.note = false)
    (h : Climb seen milestones asked) :
    (events seen readings asked milestones).filter P
      = ((readings.take (asked - seen)).map Reading.note).filter P := by
  induction milestones generalizing seen readings with
  | nil => rfl
  | cons m rest ih =>
    have hsum : asked - seen = (m.asked - seen) + (asked - m.asked) := by
      have hle := h.1
      have hle' := h.2.le
      omega
    have hm : ¬P m.note = true := by
      rw [hP m]
      exact Bool.false_ne_true
    rw [events, List.filter_append, List.filter_cons_of_neg hm, ih h.2, ← List.filter_append,
      ← List.map_append, hsum, List.take_add]

/-- Without the notes of readings, the notes of all items are left. -/
theorem filter_events_of_milestone {P : Note → Bool} (hP : ∀ r : Reading, P r.note = false)
    (hitem : ∀ m : Milestone, P m.note = true) :
    (events seen readings asked milestones).filter P = milestones.map Milestone.note := by
  have hnone : ∀ readings : List Reading, (readings.map Reading.note).filter P = [] := by
    intro readings
    rw [List.filter_eq_nil_iff]
    intro note hnote
    obtain ⟨r, -, rfl⟩ := List.mem_map.mp hnote
    rw [hP r]
    exact Bool.false_ne_true
  induction milestones generalizing seen readings with
  | nil => exact hnone _
  | cons m rest ih =>
    rw [events, List.filter_append, hnone, List.filter_cons_of_pos (hitem m), ih]
    rfl

theorem forall_mem_events {P : Note → Prop} (hreading : ∀ r : Reading, P r.note)
    (hitem : ∀ m : Milestone, P m.note) :
    ∀ note ∈ events seen readings asked milestones, P note := by
  have hreadings : ∀ readings : List Reading, ∀ note ∈ readings.map Reading.note, P note := by
    intro readings note hnote
    obtain ⟨r, -, rfl⟩ := List.mem_map.mp hnote
    exact hreading r
  induction milestones generalizing seen readings with
  | nil => exact hreadings _
  | cons m rest ih =>
    intro note hnote
    rcases List.mem_append.mp hnote with hnote | hnote
    · exact hreadings _ note hnote
    · rcases List.mem_cons.mp hnote with rfl | hnote
      · exact hitem m
      · exact ih note hnote

end Parsing

/-! ## Which note is which -/

/-- A note of the parser. -/
def Note.isParser (note : Note) : Bool := note.category == parseCategory

/-- A note that only the least important level lets pass. -/
def Note.isTrace (note : Note) : Bool := note.level == .trace

/-- A note of the tokenizer that the last but one level lets pass. -/
def Note.isLexDebug (note : Note) : Bool := note.category == lexCategory && note.level == .debug

/-- The note of a token. -/
def Token.note (t : Token) : Note :=
  ⟨.trace, lexCategory, t.kind.label ++ " at " ++ toString t.span⟩

/-- The note of the end, behind a number of characters. -/
def endNote (position : Nat) : Note :=
  ⟨.debug, lexCategory, "end of stream after " ++ toString position ++ " chars"⟩

/-- The note of a lexical error that says what is given. -/
def errorNote (message : String) : Note := ⟨.debug, lexCategory, "error: " ++ message⟩

theorem errorNote_inj {a b : String} (h : errorNote a = errorNote b) : a = b := by
  have hlist := congrArg (fun note => note.message.toList) h
  simp only [errorNote, String.toList_append] at hlist
  exact String.toList_inj.mp (List.append_cancel_left hlist)

theorem endNote_ne_errorNote (position : Nat) (message : String) :
    endNote position ≠ errorNote message := by
  intro h
  have hsecond := congrArg (fun note => note.message.toList[1]?) h
  simp [endNote, errorNote] at hsecond

namespace Reading

/-- The token of a reading, unless it is the end marker. -/
def token? (r : Reading) : Option Token :=
  match r.answer with
  | .ok t => if t.isEndOfFile then none else some t
  | .error _ => none

theorem note_of_token {r : Reading} {t : Token} (h : r.answer = .ok t)
    (ht : t.isEndOfFile = false) : r.note = t.note ∧ r.token? = some t := by
  simp [note, token?, h, ht, Token.note]

theorem note_of_end {r : Reading} {t : Token} (h : r.answer = .ok t)
    (ht : t.isEndOfFile = true) : r.note = endNote r.position ∧ r.token? = none := by
  simp [note, token?, h, ht, endNote]

theorem note_of_error {r : Reading} {e : LexError} (h : r.answer = .error e) :
    r.note = errorNote e.message ∧ r.token? = none := by
  simp [note, token?, h, errorNote]

/-- What a reading may be, and its note. -/
theorem note_cases (r : Reading) :
    (∃ t, r.note = t.note ∧ r.token? = some t) ∨
      (r.note = endNote r.position ∧ r.token? = none) ∨
      ∃ e, r.answer = .error e ∧ r.note = errorNote e.message ∧ r.token? = none := by
  cases hanswer : r.answer with
  | ok t =>
    cases ht : t.isEndOfFile with
    | false => exact .inl ⟨t, note_of_token hanswer ht⟩
    | true => exact .inr (.inl (note_of_end hanswer ht))
  | error e => exact .inr (.inr ⟨e, rfl, note_of_error hanswer⟩)

theorem isParser_note (r : Reading) : r.note.isParser = false := by
  rcases r.note_cases with ⟨t, h, -⟩ | ⟨h, -⟩ | ⟨e, -, h, -⟩ <;> rw [h] <;> rfl

/-- The notes of tokens among those of readings. -/
theorem filter_isTrace (readings : List Reading) :
    (readings.map note).filter Note.isTrace = (readings.filterMap token?).map Token.note := by
  induction readings with
  | nil => rfl
  | cons r rest ih =>
    rw [List.map_cons]
    rcases r.note_cases with ⟨t, hnote, ht⟩ | ⟨hnote, ht⟩ | ⟨e, -, hnote, ht⟩
    · rw [List.filterMap_cons_some ht, List.map_cons, hnote, List.filter_cons_of_pos rfl, ih]
    · rw [List.filterMap_cons_none ht, hnote, List.filter_cons_of_neg Bool.false_ne_true, ih]
    · rw [List.filterMap_cons_none ht, hnote, List.filter_cons_of_neg Bool.false_ne_true, ih]

/-- With tokens and the end behind them, there is one note more than those of the tokens. -/
theorem notes_of_tokens {readings : List Reading} {before : List Token} {stop : Token}
    (hinner : ∀ t ∈ before, t.isEndOfFile = false) (hstop : stop.isEndOfFile = true)
    (h : readings.map answer = (before ++ [stop]).map .ok) :
    ∃ last ∈ readings, last.answer = .ok stop ∧ readings.filterMap token? = before ∧
      (readings.map note).filter Note.isLexDebug = [endNote last.position] := by
  induction before generalizing readings with
  | nil =>
    obtain ⟨last, rfl, hlast⟩ := List.map_eq_singleton_iff.mp h
    obtain ⟨hnote, htoken⟩ := note_of_end hlast hstop
    refine ⟨last, List.mem_singleton_self last, hlast, ?_, ?_⟩
    · rw [List.filterMap_cons_none htoken]
      rfl
    · rw [List.map_singleton, hnote]
      rfl
  | cons t before ih =>
    obtain ⟨r, rest, rfl, hr, hrest⟩ := List.map_eq_cons_iff.mp h
    obtain ⟨last, hmem, hlast, htokens, hnotes⟩ :=
      ih (fun u hu => hinner u (List.mem_cons_of_mem t hu)) hrest
    obtain ⟨hnote, htoken⟩ := note_of_token hr (hinner t List.mem_cons_self)
    refine ⟨last, List.mem_cons_of_mem r hmem, hlast, ?_, ?_⟩
    · rw [List.filterMap_cons_some htoken, htokens]
    · rw [List.map_cons, hnote, List.filter_cons_of_neg Bool.false_ne_true, hnotes]

end Reading

/-! ## What passes -/

theorem Milestone.isParser_note (m : Milestone) : m.note.isParser = true := rfl

namespace Journal

variable {j : Journal} {note : Note}

theorem threshold_of_debug (h : j.isEnabled .debug = true) :
    j.threshold = some .debug ∨ j.threshold = some .trace := by
  unfold isEnabled at h
  split at h
  · next least hleast =>
    rw [hleast]
    cases least with
    | error | warn | info => exact nomatch h
    | debug => exact .inl rfl
    | trace => exact .inr rfl
  · exact nomatch h

theorem passes_of_debug (h : j.isEnabled .debug = true) (hnote : note.level = .debug) :
    note.passes j.threshold = true := by
  rw [← isEnabled_eq_passes, hnote, h]

/-- What passes less important notes lets pass this one. -/
theorem passes_eq_false (h : j.isEnabled .debug = false)
    (hnote : note.level = .debug ∨ note.level = .trace) : note.passes j.threshold = false := by
  rw [← isEnabled_eq_passes]
  rcases hnote with hnote | hnote
  · rw [hnote, h]
  · rw [hnote]
    unfold isEnabled at h ⊢
    split
    · next least hleast =>
      rw [hleast] at h
      cases least with
      | error | warn | info => rfl
      | debug | trace => exact nomatch h
    · rfl

end Journal

/-! ## Between the first line and the last -/

/-- All that was noted between, whether it is written or not. -/
def eventsOf (source : String) : List Note :=
  Parsing.events 0 (readingsOf source) (askedFor source)
    (Parser.ofReadings (readingsOf source)).parse.milestones

theorem filter_eventsOf {P : Note → Bool} (source : String)
    (hP : ∀ m : Milestone, P m.note = false) :
    (eventsOf source).filter P = ((pulled source).map Reading.note).filter P := by
  have hclimb := (Parser.ofReadings (readingsOf source)).parse_milestones.2.1
  exact Parsing.filter_events_of_reading hP hclimb

theorem mem_eventsOf_iff {source : String} {note : Note} (h : note.isParser = false) :
    note ∈ eventsOf source ↔ ∃ r ∈ pulled source, r.note = note := by
  have hfilter := filter_eventsOf (P := fun note => !note.isParser) source fun _ => rfl
  have hmem := congrArg (note ∈ ·) hfilter
  simpa [List.mem_filter, h] using hmem

theorem level_of_mem_eventsOf {source : String} :
    ∀ note ∈ eventsOf source, note.level = .debug ∨ note.level = .trace := by
  refine Parsing.forall_mem_events ?_ fun _ => .inl rfl
  intro r
  rcases r.note_cases with ⟨t, h, -⟩ | ⟨h, -⟩ | ⟨e, -, h, -⟩ <;> rw [h]
  · exact .inr rfl
  · exact .inl rfl
  · exact .inl rfl

/-- What is written between. -/
def linesBetween (source : String) (threshold : Option Level) : List Note :=
  (eventsOf source).filter (Note.passes threshold)

theorem filter_linesBetween {P : Note → Bool} {threshold : Option Level}
    (hP : ∀ note, P note = true → note.passes threshold = true) (source : String) :
    (linesBetween source threshold).filter P = (eventsOf source).filter P := by
  rw [linesBetween, List.filter_filter]
  refine List.filter_congr fun note _ => ?_
  cases hnote : P note with
  | false => rfl
  | true => rw [hP note hnote, Bool.and_self]

section Lines

variable {source : String} {j : Journal} (h : j.isEnabled .debug = true)

include h

theorem filter_isParser_linesBetween (source : String) :
    ∃ milestones : List Milestone,
      (linesBetween source j.threshold).filter Note.isParser = milestones.map Milestone.note ∧
      milestones.map Milestone.items = List.range' 1 milestones.length ∧
      ∀ f, parse source = .ok f → milestones.length = f.items.length := by
  obtain ⟨hitems, -, hcount⟩ := (Parser.ofReadings (readingsOf source)).parse_milestones
  refine ⟨_, ?_, hitems, fun f hf => (hcount f hf).symm⟩
  rw [linesBetween, List.filter_filter, eventsOf]
  refine Parsing.filter_events_of_milestone ?_ ?_
  · intro r
    rw [r.isParser_note, Bool.false_and]
  · intro m
    rw [m.isParser_note, Journal.passes_of_debug h rfl]
    rfl

theorem filter_isLexDebug_linesBetween {f : Formula} (hf : parse source = .ok f) :
    (linesBetween source j.threshold).filter Note.isLexDebug
      = [endNote (normalized source).length] := by
  obtain ⟨before, hinner, -, -, hanswers⟩ := pulled_of_parse_ok hf
  obtain ⟨last, hmem, hlast, -, hnotes⟩ := Reading.notes_of_tokens hinner rfl hanswers
  have hposition : last.position = (normalized source).length :=
    leaves_readingsOf source last (List.mem_of_mem_take hmem) _ hlast
  have hpasses : ∀ note : Note, note.isLexDebug = true → note.passes j.threshold = true := by
    intro note hnote
    have hlevel : note.level = .debug := by
      simp only [Note.isLexDebug, Bool.and_eq_true, beq_iff_eq] at hnote
      exact hnote.2
    exact Journal.passes_of_debug h hlevel
  rw [filter_linesBetween hpasses, filter_eventsOf source fun _ => rfl, hnotes, hposition]

theorem errorNote_mem_linesBetween_iff {e : ParseError} (he : parse source = .error e)
    (message : String) :
    errorNote message ∈ linesBetween source j.threshold ↔
      e.isLexical = true ∧ message = e.message := by
  rw [linesBetween, List.mem_filter, Journal.passes_of_debug h rfl, mem_eventsOf_iff rfl]
  constructor
  · rintro ⟨⟨r, hr, hnote⟩, -⟩
    rcases r.note_cases with ⟨t, ht, -⟩ | ⟨hend, -⟩ | ⟨e', he', herror, -⟩
    · exact nomatch congrArg Note.level (ht.symm.trans hnote)
    · exact absurd (hend.symm.trans hnote) (endNote_ne_errorNote _ _)
    · have hparse := (exists_error_pulled_iff source e').mp ⟨r, hr, he'⟩
      obtain rfl := Except.error.inj (he.symm.trans hparse)
      exact ⟨rfl, (errorNote_inj (herror.symm.trans hnote)).symm⟩
  · rintro ⟨hlexical, rfl⟩
    cases e with
    | syntactic | internal => exact nomatch hlexical
    | lexical e' =>
      obtain ⟨r, hr, hanswer⟩ := (exists_error_pulled_iff source e').mpr he
      exact ⟨⟨r, hr, (Reading.note_of_error hanswer).1⟩, rfl⟩

theorem filter_isTrace_linesBetween (source : String) :
    (linesBetween source j.threshold).filter Note.isTrace =
      if j.threshold = some .trace then ((pulled source).filterMap Reading.token?).map Token.note
      else [] := by
  rcases Journal.threshold_of_debug h with hthreshold | hthreshold
  · rw [hthreshold, if_neg (by decide), List.filter_eq_nil_iff]
    intro note hnote htrace
    have hpasses := (List.mem_filter.mp hnote).2
    rw [Note.isTrace, beq_iff_eq] at htrace
    rw [Note.passes, htrace] at hpasses
    exact absurd hpasses (by decide)
  · have hpasses : ∀ note : Note, note.isTrace = true → note.passes (some .trace) = true := by
      intro note htrace
      rw [Note.isTrace, beq_iff_eq] at htrace
      rw [Note.passes, htrace]
      rfl
    rw [hthreshold, if_pos rfl, filter_linesBetween hpasses, filter_eventsOf source fun _ => rfl,
      Reading.filter_isTrace]

end Lines

/-! ## Main result -/

/-- What stands between the first and the last line of a parse. -/
structure FollowsParse (source : String) (threshold : Option Level) (between : List Note) :
    Prop where
  /-- The parser counts the items. -/
  items : ∃ milestones : List Milestone,
    between.filter Note.isParser = milestones.map Milestone.note ∧
    milestones.map Milestone.items = List.range' 1 milestones.length ∧
    ∀ f, parse source = .ok f → milestones.length = f.items.length
  /-- The end is noted, and all characters have passed there. -/
  stop : ∀ f, parse source = .ok f →
    between.filter Note.isLexDebug = [endNote (normalized source).length]
  /-- A lexical error is noted, with the message that the parse fails with. -/
  error : ∀ e, parse source = .error e → ∀ message,
    errorNote message ∈ between ↔ e.isLexical = true ∧ message = e.message
  /-- The tokens that were asked for are noted in order, at the least important level. -/
  tokens : between.filter Note.isTrace =
    if threshold = some .trace then ((pulled source).filterMap Reading.token?).map Token.note
    else []
  /-- Those are all, if there is no error. -/
  tokens_eq : ∀ f, parse source = .ok f →
    tokenize source = .ok ((pulled source).filterMap Reading.token? ++ [.endOfFile])

/-- Where notes like those of the parser are written, the lines of both stages are complete. -/
theorem followsParse (source : String) {j : Journal} (h : j.isEnabled .debug = true) :
    FollowsParse source j.threshold (linesBetween source j.threshold) where
  items := filter_isParser_linesBetween h source
  stop _ hf := filter_isLexDebug_linesBetween h hf
  error _ he := errorNote_mem_linesBetween_iff h he
  tokens := filter_isTrace_linesBetween h source
  tokens_eq := by
    intro f hf
    obtain ⟨before, hinner, htokenize, -, hanswers⟩ := pulled_of_parse_ok hf
    obtain ⟨-, -, -, htokens, -⟩ := Reading.notes_of_tokens hinner rfl hanswers
    rw [htokenize, htokens]

/-- The last line of a parse. -/
def exitNote (source : String) : Note :=
  ⟨.debug, parseCategory, "EXIT parse " ++
    match parse source with
    | .ok f => "items=" ++ toString f.items.length
    | .error e => "error: " ++ e.message⟩

/-- All notes of a parse, the first and the last one with their texts. -/
theorem notes_of_parse (source : String) :
    (Command.parse source).notes
      = ⟨.debug, parseCategory, "ENTER parse"⟩ :: (eventsOf source ++ [exitNote source]) := by
  have henter : Note.enter parseCategory "parse" none
      = ⟨.debug, parseCategory, "ENTER parse"⟩ := by decide +kernel
  have hexit : Note.exit parseCategory "parse" (some (describeResult (parse source)))
      = exitNote source := by
    have htext : "EXIT " ++ "parse" ++ " " = "EXIT parse " := by decide +kernel
    rw [exitNote, ← htext, String.append_assoc]
    cases parse source <;> rfl
  rw [← henter, ← hexit]
  exact Parsing.notes_eq _ _

/-- Below the level of the parser's notes no note of a parse passes. -/
theorem filter_notes_eq_nil (source : String) {j : Journal} (h : j.isEnabled .debug = false) :
    (Command.parse source).notes.filter (Note.passes j.threshold) = [] := by
  rw [List.filter_eq_nil_iff, notes_of_parse]
  intro note hnote
  have hlevel : note.level = .debug ∨ note.level = .trace := by
    rcases List.mem_cons.mp hnote with rfl | hnote
    · exact .inl rfl
    · rcases List.mem_append.mp hnote with hnote | hnote
      · exact level_of_mem_eventsOf note hnote
      · rw [List.mem_singleton.mp hnote]
        exact .inl rfl
  rw [Journal.passes_eq_false h hlevel]
  exact Bool.false_ne_true

theorem filter_notes_of_debug (source : String) {j : Journal} (h : j.isEnabled .debug = true) :
    (Command.parse source).notes.filter (Note.passes j.threshold)
      = ⟨.debug, parseCategory, "ENTER parse"⟩ ::
        (linesBetween source j.threshold ++ [exitNote source]) := by
  rw [notes_of_parse, List.filter_cons_of_pos (Journal.passes_of_debug h rfl),
    List.filter_append, List.filter_cons_of_pos (Journal.passes_of_debug h rfl)]
  rfl

/-- **The journal of a parse.** Below the level of the parser's notes nothing is written, and no
    number is drawn. From there on the lines are numbered consecutively, the first says that the
    parse begins and the last what it comes to, and between them both stages are followed. -/
theorem parse_journal (j : Journal) (source : String) :
    let p := (j.perform (.parse source)).1
    let left := (j.perform (.parse source)).2
    (j.isEnabled .debug = false → p.records = [] ∧ left = j) ∧
    (j.isEnabled .debug = true →
      p.records.map Record.number = List.range' (j.drawn + 1) p.records.length ∧
      left = { j with drawn := j.drawn + p.records.length } ∧
      ∃ between, FollowsParse source j.threshold between ∧
        p.records.map Record.note
          = ⟨.debug, parseCategory, "ENTER parse"⟩ :: (between ++ [exitNote source])) := by
  intro p left
  have hrecords : p.records = Journal.numbered (j.drawn + 1)
      ((Command.parse source).notes.filter (Note.passes j.threshold)) :=
    congrArg Prod.fst (j.write_eq _)
  have hleft : left = { j with drawn := j.drawn
      + ((Command.parse source).notes.filter (Note.passes j.threshold)).length } :=
    congrArg Prod.snd (j.write_eq _)
  constructor
  · intro h
    rw [hrecords, hleft, filter_notes_eq_nil source h]
    exact ⟨rfl, rfl⟩
  · intro h
    refine ⟨?_, ?_, _, followsParse source h, ?_⟩
    · rw [hrecords, Journal.map_number_numbered, Journal.length_numbered]
    · rw [hleft, hrecords, Journal.length_numbered]
    · rw [hrecords, Journal.map_note_numbered, filter_notes_of_debug source h]

-- The parser asks ahead: the number is noted before the item in front of it.
example :
    ((Journal.mk (some .trace) 6).perform (.parse "a\n1")).1.records.map Record.line
      = ["7|PARSE|ENTER parse", "8|LEX|Name at 0..1", "9|LEX|NewLine at 1..2",
        "10|LEX|Number at 2..3", "11|PARSE|item 1 parsed, next Some(NewLine)",
        "12|LEX|end of stream after 3 chars", "13|PARSE|item 2 parsed, next Some(EOS)",
        "14|PARSE|EXIT parse items=2"] := by
  decide +kernel

end FormulaSyntax
