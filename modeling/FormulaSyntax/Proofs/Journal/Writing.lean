import FormulaSyntax.Journal.Command

/-!
# What is written, and its numbers

Of the notes it is given a journal writes those that its threshold lets pass, in their order, and
numbers them on from the last number drawn (`write_eq`). So the numbers of a journal have no gap
and none is drawn twice, whatever a host does with it (`journal_numbers`): numbers that it
draws itself are among them, a note that is not written leaves no hole, and a change of the
threshold makes none. What a command replies does not depend on the journal at all.
-/

set_option autoImplicit false

namespace FormulaSyntax

/-- Whether a note is written under a threshold. -/
def Note.passes (threshold : Option Level) (note : Note) : Bool :=
  match threshold with
  | some least => decide (note.level.rank ≤ least.rank)
  | none => false

namespace Journal

theorem isEnabled_eq_passes (j : Journal) (note : Note) :
    j.isEnabled note.level = note.passes j.threshold := rfl

/-- Notes as records, with numbers from a given one on. -/
def numbered (first : Nat) : List Note → List Record
  | [] => []
  | note :: rest => ⟨first, note⟩ :: numbered (first + 1) rest

@[simp] theorem map_note_numbered (first : Nat) (notes : List Note) :
    (numbered first notes).map Record.note = notes := by
  induction notes generalizing first with
  | nil => rfl
  | cons note rest ih => rw [numbered, List.map_cons, ih]

@[simp] theorem map_number_numbered (first : Nat) (notes : List Note) :
    (numbered first notes).map Record.number = List.range' first notes.length := by
  induction notes generalizing first with
  | nil => rfl
  | cons note rest ih => rw [numbered, List.map_cons, ih, List.length_cons, List.range'_succ]

@[simp] theorem length_numbered (first : Nat) (notes : List Note) :
    (numbered first notes).length = notes.length := by
  have hlength := congrArg List.length (map_note_numbered first notes)
  rwa [List.length_map] at hlength

/-- **The notes that pass are written, with the next numbers**, and no other number is drawn. -/
theorem writeOnto_eq (written : List Record) (j : Journal) (notes : List Note) :
    writeOnto written j notes =
      (written.reverse ++ numbered (j.drawn + 1) (notes.filter (Note.passes j.threshold)),
        { j with drawn := j.drawn + (notes.filter (Note.passes j.threshold)).length }) := by
  induction notes generalizing written j with
  | nil => simp [writeOnto, numbered]
  | cons note rest ih =>
    rw [writeOnto, isEnabled_eq_passes]
    cases hpasses : note.passes j.threshold with
    | true =>
      rw [if_pos rfl, List.filter_cons_of_pos hpasses]
      show writeOnto (⟨j.drawn + 1, note⟩ :: written) { j with drawn := j.drawn + 1 } rest = _
      rw [ih]
      simp only [numbered, List.reverse_cons, List.append_assoc, List.singleton_append,
        List.length_cons, Nat.add_assoc, Nat.add_comm 1]
    | false =>
      rw [if_neg Bool.false_ne_true, List.filter_cons_of_neg (by simp [hpasses]), ih]

theorem write_eq (j : Journal) (notes : List Note) :
    j.write notes =
      (numbered (j.drawn + 1) (notes.filter (Note.passes j.threshold)),
        { j with drawn := j.drawn + (notes.filter (Note.passes j.threshold)).length }) :=
  writeOnto_eq [] j notes

end Journal

/-! ## Commands -/

/-- The threshold behind a command, if it was the given one before. -/
def Command.thresholdAfter (threshold : Option Level) : Command → Option Level
  | setThreshold threshold' => threshold'
  | write _ | drawNumber | tokenize _ | parse _ => threshold

/-- What a command gives to the journal to write. -/
def Command.notes : Command → List Note
  | setThreshold _ | drawNumber => []
  | write note => [note]
  | tokenize source => (readingsOf source).map Reading.note
  | parse source => (Parser.ofReadings (readingsOf source)).parse.notes (readingsOf source)

/-- What a command may be answered with. What is read is read in the same way whether it is
    followed or not, so the journal plays no part. -/
inductive Command.Answers : Command → Reply → Prop
  | setThreshold (threshold : Option Level) : Answers (setThreshold threshold) .nothing
  | write (note : Note) : Answers (write note) .nothing
  | drawNumber (n : Nat) : Answers drawNumber (.number n)
  | tokenize (source : String) :
      Answers (tokenize source) (.success (FormulaSyntax.tokenize source).toBool)
  | parse (source : String) :
      Answers (parse source) (.success (FormulaSyntax.parse source).toBool)

/-- The numbers that are seen when a command is performed, in order. -/
def Performed.numbers (p : Performed) : List Nat :=
  p.records.map Record.number ++
    match p.reply with
    | .number n => [n]
    | .nothing | .success _ => []

namespace Journal

/-- What a command does in a journal. -/
structure Performs (j : Journal) (command : Command) (p : Performed) (j' : Journal) : Prop where
  threshold_eq : j'.threshold = command.thresholdAfter j.threshold
  written_eq : p.records.map Record.note = command.notes.filter (Note.passes j.threshold)
  numbers_eq : p.numbers = List.range' (j.drawn + 1) p.numbers.length
  drawn_eq : j'.drawn = j.drawn + p.numbers.length
  answers : command.Answers p.reply

theorem performs_noting (j : Journal) {command : Command} {reply : Reply}
    (hthreshold : command.thresholdAfter j.threshold = j.threshold)
    (hreply : ∀ n, reply ≠ .number n) (hanswers : command.Answers reply) :
    Performs j command (j.noting reply command.notes).1 (j.noting reply command.notes).2 := by
  have hnumbers : (j.noting reply command.notes).1.numbers =
      List.range' (j.drawn + 1) (command.notes.filter (Note.passes j.threshold)).length := by
    simp only [Performed.numbers, noting, write_eq, map_number_numbered]
    cases reply with
    | number n => exact absurd rfl (hreply n)
    | nothing | success => exact List.append_nil _
  refine ⟨?_, ?_, ?_, ?_, hanswers⟩
  · simp only [noting, write_eq, hthreshold]
  · simp only [noting, write_eq, map_note_numbered]
  · rw [hnumbers, List.length_range']
  · rw [hnumbers, List.length_range']
    simp only [noting, write_eq]

theorem performs_perform (j : Journal) (command : Command) :
    Performs j command (j.perform command).1 (j.perform command).2 := by
  cases command with
  | setThreshold threshold => exact ⟨rfl, rfl, rfl, rfl, .setThreshold threshold⟩
  | drawNumber => exact ⟨rfl, rfl, rfl, rfl, .drawNumber _⟩
  | write note => exact j.performs_noting rfl nofun (.write note)
  | tokenize source => exact j.performs_noting rfl nofun (.tokenize source)
  | parse source => exact j.performs_noting rfl nofun (.parse source)

/-! ## One command after the other -/

theorem performOnto_eq (done : List Performed) (j : Journal) (commands : List Command) :
    performOnto done j commands =
      (done.reverse ++ (j.performAll commands).1, (j.performAll commands).2) := by
  induction commands generalizing done j with
  | nil => simp [performOnto, performAll]
  | cons command rest ih =>
    simp only [performAll, performOnto]
    rw [ih, ih [_]]
    simp

theorem performAll_cons (j : Journal) (command : Command) (rest : List Command) :
    j.performAll (command :: rest) =
      ((j.perform command).1 :: ((j.perform command).2.performAll rest).1,
        ((j.perform command).2.performAll rest).2) :=
  performOnto_eq [(j.perform command).1] (j.perform command).2 rest

/-- The threshold behind some commands. -/
def thresholdBehind (threshold : Option Level) (commands : List Command) : Option Level :=
  commands.foldl Command.thresholdAfter threshold

/-- What was performed goes with the commands, one by one. -/
theorem performs_performAll (j : Journal) (commands : List Command) :
    (j.performAll commands).1.length = commands.length ∧
    ∀ (i : Nat) (command : Command) (p : Performed),
      commands[i]? = some command → (j.performAll commands).1[i]? = some p →
      p.records.map Record.note = command.notes.filter
        (Note.passes (thresholdBehind j.threshold (commands.take i))) ∧
      command.Answers p.reply := by
  induction commands generalizing j with
  | nil => exact ⟨rfl, fun i command p h => by simp at h⟩
  | cons first rest ih =>
    obtain ⟨hlength, hrest⟩ := ih (j.perform first).2
    have hfirst := j.performs_perform first
    rw [performAll_cons]
    refine ⟨congrArg (· + 1) hlength, ?_⟩
    rintro (_ | i) command p hcommand hp
    · obtain rfl := Option.some.inj hcommand
      obtain rfl := Option.some.inj hp
      exact ⟨hfirst.written_eq, hfirst.answers⟩
    · have hstep := hrest i command p hcommand hp
      rw [hfirst.threshold_eq] at hstep
      exact hstep

/-- **All numbers seen are the numbers from the start on**, with no gap and none twice. -/
theorem numbers_performAll (j : Journal) (commands : List Command) :
    ∃ n, (j.performAll commands).1.flatMap Performed.numbers = List.range' (j.drawn + 1) n ∧
      (j.performAll commands).2.drawn = j.drawn + n := by
  induction commands generalizing j with
  | nil => exact ⟨0, rfl, rfl⟩
  | cons first rest ih =>
    obtain ⟨n, hnumbers, hdrawn⟩ := ih (j.perform first).2
    have hfirst := j.performs_perform first
    rw [performAll_cons]
    refine ⟨(j.perform first).1.numbers.length + n, ?_, ?_⟩
    · rw [List.flatMap_cons, hnumbers, hfirst.drawn_eq, Nat.add_right_comm, ← List.range'_append_1]
      exact congrArg (· ++ _) hfirst.numbers_eq
    · rw [hdrawn, hfirst.drawn_eq, Nat.add_assoc]

/-- **A journal has one sequence of numbers.** Whatever a host does, the numbers of all records
    and those that it draws itself are the next ones, in the order in which they come up. What a
    command gives to write is written if the threshold that was set last lets it pass, and what it
    replies is the same for all thresholds. -/
theorem journal_numbers (j : Journal) (commands : List Command) :
    let performed := (j.performAll commands).1
    performed.length = commands.length ∧
    (∃ n, performed.flatMap Performed.numbers = List.range' (j.drawn + 1) n ∧
      (j.performAll commands).2.drawn = j.drawn + n) ∧
    ∀ (i : Nat) (command : Command) (p : Performed),
      commands[i]? = some command → performed[i]? = some p →
      p.records.map Record.note = command.notes.filter
        (Note.passes (thresholdBehind j.threshold (commands.take i))) ∧
      command.Answers p.reply := by
  obtain ⟨hlength, hsteps⟩ := performs_performAll j commands
  exact ⟨hlength, numbers_performAll j commands, hsteps⟩

end Journal

end FormulaSyntax
