import FormulaSyntax.Proofs.Parsing.Milestones

/-!
# How many answers a parse asks for

A fresh parser asks for two answers, and then for one with every token that it takes. It takes no
end of the tokens, so a parse asks for **the answers up to the first end and one more, at most**;
one that succeeds stands at that end, so it has asked for all of these (`parse_pulls`). An error
of the feed among them only makes it stop earlier.

A parser that has succeeded is primed and stands at an end. From there every parse finds an end at
once: it comes to no items, asks for nothing, and leaves the parser as it was (`parse_of_atEnd`).
-/

set_option autoImplicit false

namespace FormulaSyntax

namespace Parser

variable {answers : List Answer} {p q : Parser}

/-- Whether tokens end with an answer: it is the end marker, or no token. -/
def isEnd : Answer → Bool
  | none => true
  | some (.ok t) => t.isEndOfFile
  | some (.error _) => false

/-- None of the first answers is an error. -/
def FreeUpTo (answers : List Answer) (n : Nat) : Prop := ∀ e, some (.error e) ∉ answers.take n

theorem FreeUpTo.lt {m n : Nat} (h : FreeUpTo answers n) (hm : ¬ FreeUpTo answers m) : n < m := by
  apply Nat.lt_of_not_le
  intro hle
  exact hm fun e he => h e ((List.take_prefix_take_left hle).subset he)

theorem FreeUpTo.clear {n : Nat} (h : FreeUpTo answers (n + 2)) : Clear (answers.drop n) := by
  intro e he
  rw [List.take_drop] at he
  exact h e (List.mem_of_mem_drop he)

theorem FreeUpTo.succ {n : Nat} (h : FreeUpTo answers n)
    (hn : ∀ e, answers[n]? ≠ some (some (.error e))) : FreeUpTo answers (n + 1) := by
  intro e he
  rw [List.take_add_one] at he
  rcases List.mem_append.mp he with he | he
  · exact h e he
  · exact hn e (Option.mem_toList.mp he)

/-! ## Where a parser stands -/

/-- The parser holds an answer and the one behind it, and was given no error. -/
def Follows (answers : List Answer) (p : Parser) : Prop :=
  ∃ i, p = onAnswers (answers.drop i) (i + 2) ∧ FreeUpTo answers (i + 2)

/-- The last answer that the parser was given may be an error, and none of those before it is. -/
def Stopped (answers : List Answer) (q : Parser) : Prop :=
  ∃ i, q.source.asked = i + 1 ∧ FreeUpTo answers i

theorem shift_onAnswers_of_clear (h : Clear (answers.drop 1)) (asked : Nat) :
    ∃ passed, shift (onAnswers answers asked)
      = .ok passed (onAnswers (answers.drop 1) (asked + 1)) := by
  match answers, h with
  | [], _ | [_], _ | [_, _], _ => exact ⟨_, rfl⟩
  | _ :: _ :: none :: _, _ | _ :: _ :: some (.ok _) :: _, _ => exact ⟨_, rfl⟩
  | _ :: _ :: some (.error e) :: _, h => exact absurd (by simp) (h e)

theorem Follows.shift (h : Follows answers p) :
    Ensures shift p (fun _ => Follows answers)
      (fun failure q => ∃ e, failure = .lexical e ∧ Stopped answers q) := by
  obtain ⟨i, rfl, hfree⟩ := h
  unfold Ensures
  by_cases herror : ∃ e, answers[i + 2]? = some (some (.error e))
  · obtain ⟨e, he⟩ := herror
    obtain ⟨hlt, hget⟩ := List.getElem?_eq_some_iff.mp he
    have hdrop : (answers.drop i).drop 2 = some (.error e) :: answers.drop (i + 2 + 1) := by
      rw [List.drop_drop, List.drop_eq_getElem_cons hlt, hget]
    simp only [Parser.shift, onAnswers, Feed.ask, hdrop]
    exact ⟨e, rfl, i + 2, rfl, hfree⟩
  · have hmore := hfree.succ fun e he => herror ⟨e, he⟩
    have hclear := FreeUpTo.clear (n := i + 1) hmore
    rw [← List.drop_drop] at hclear
    obtain ⟨passed, hshift⟩ := shift_onAnswers_of_clear hclear (i + 2)
    rw [hshift]
    refine ⟨i + 1, ?_, hmore⟩
    rw [List.drop_drop]

theorem follows_prime (answers : List Answer) :
    Ensures prime (ofFeed (.ofAnswers answers)) (fun _ => Follows answers)
      (fun failure q => ∃ e, failure = .lexical e ∧ Stopped answers q) := by
  by_cases hclear : Clear answers
  · unfold Ensures
    rw [prime_ofAnswers hclear]
    exact ⟨0, rfl, hclear⟩
  · match answers, hclear with
    | [], h | [none], h | [some (.ok _)], h => exact absurd (by simp [Clear]) h
    | none :: none :: _, h | none :: some (.ok _) :: _, h => exact absurd (by simp [Clear]) h
    | some (.ok _) :: none :: _, h | some (.ok _) :: some (.ok _) :: _, h =>
      exact absurd (by simp [Clear]) h
    | some (.error e) :: _, _ => exact ⟨e, rfl, 0, rfl, nofun⟩
    | none :: some (.error e) :: _, _ | some (.ok _) :: some (.error e) :: _, _ =>
      exact ⟨e, rfl, 1, rfl, by simp [FreeUpTo]⟩

theorem bond_follows (answers : List Answer) :
    Bond (fun p p' => p = p' ∧ Follows answers p) (fun _ q _ => Stopped answers q) :=
  .of_shift fun h => h.shift

/-- A parse follows the answers, unless an error of the feed ends it. -/
theorem follows_parse (answers : List Answer) :
    let parsing := (ofFeed (.ofAnswers answers)).parse
    Follows answers parsing.parser ∨
      (∃ e, parsing.result = .error (.lexical e)) ∧ Stopped answers parsing.parser := by
  rcases (bond_follows answers).parse (follows_prime answers) with
    ⟨hfollows, -⟩ | ⟨e, hresult, hstopped⟩
  · exact .inl hfollows
  · exact .inr ⟨⟨e, hresult⟩, hstopped⟩

/-! ## The first end -/

/-- In front of the first end there are tokens, if there is no error among the answers. -/
theorem exists_moved_of_not_isEnd (hend : ∀ a ∈ answers, isEnd a = false)
    (herror : ∀ e, some (.error e) ∉ answers) :
    ∃ tokens, answers = moved 0 tokens := by
  induction answers with
  | nil => exact ⟨[], rfl⟩
  | cons answer answers ih =>
    obtain ⟨tokens, rfl⟩ := ih (fun a ha => hend a (List.mem_cons_of_mem _ ha))
      fun e he => herror e (List.mem_cons_of_mem _ he)
    match answer with
    | none => exact absurd (hend none List.mem_cons_self) (by decide)
    | some (.error e) => exact absurd List.mem_cons_self (herror e)
    | some (.ok t) => exact ⟨t :: tokens, by simp [moved]⟩

theorem ended_drop_findIdx (answers : List Answer) :
    Ended ((answers.drop (answers.findIdx isEnd)).head?.bind tokenOf?) := by
  rw [List.head?_drop]
  cases hget : answers[answers.findIdx isEnd]? with
  | none => exact nofun
  | some answer =>
    obtain ⟨hlt, hanswer⟩ := List.getElem?_eq_some_iff.mp hget
    have hend : isEnd answer = true := hanswer ▸ List.findIdx_getElem
    match answer, hend with
    | none, _ => exact nofun
    | some (.ok t), hend => exact ended_some hend

/-- A parser that stands at an end has come as far as the first one. -/
theorem findIdx_le_of_atEnd {i asked : Nat} (h : (onAnswers (answers.drop i) asked).atEnd = true)
    (hfree : FreeUpTo answers (i + 1)) : answers.findIdx isEnd ≤ i := by
  apply Nat.le_of_not_lt
  intro hlt
  have hlength : i < answers.length := Nat.lt_of_lt_of_le hlt List.findIdx_le_length
  have hinner : isEnd answers[i] = false := List.not_of_lt_findIdx hlt
  have hcurrent : (onAnswers (answers.drop i) asked).current = tokenOf? answers[i] := by
    rw [onAnswers, List.head?_drop, List.getElem?_eq_getElem hlength]
    rfl
  rw [atEnd, hcurrent] at h
  cases hanswer : answers[i] with
  | none =>
    rw [hanswer] at hinner
    cases hinner
  | some result =>
    cases result with
    | error e =>
      refine hfree e ?_
      rw [← hanswer]
      exact List.mem_take_iff_getElem.mpr ⟨i, Nat.lt_min.mpr ⟨Nat.lt_succ_self i, hlength⟩, rfl⟩
    | ok t =>
      rw [hanswer] at hinner h
      exact Bool.false_ne_true (hinner.symm.trans h)

/-- Tokens without an error among them, nor right behind their end, are taken at most up to that
    end. -/
theorem asked_parse_of_free (hfree : FreeUpTo answers (answers.findIdx isEnd + 2)) :
    (ofFeed (.ofAnswers answers)).parse.parser.source.asked ≤ answers.findIdx isEnd + 2 := by
  obtain ⟨tokens, htokens⟩ := exists_moved_of_not_isEnd
    (fun a ha => List.false_of_mem_take_findIdx ha)
    (fun e he => hfree e ((List.take_prefix_take_left (Nat.le_add_right _ 2)).subset he))
  obtain ⟨taken, rest, r, rfl, hread, -⟩ := exists_reads_allItems tokens
  have hlength : (taken ++ rest).length = answers.findIdx isEnd := by
    have h := congrArg List.length htokens
    rwa [List.length_take_of_le List.findIdx_le_length, moved, List.length_map, eq_comm] at h
  generalize hfinish : answers.drop (answers.findIdx isEnd) = finish at *
  have hsplit : answers = moved 0 taken ++ (moved 0 rest ++ finish) := by
    rw [← List.append_assoc, ← moved_append, ← htokens, ← hfinish, List.take_append_drop]
  have hclear : Clear (moved 0 rest ++ finish) := clear_moved (hfinish ▸ hfree.clear)
  have hlike : Alike 0 rest.head? ((moved 0 rest ++ finish).head?.bind tokenOf?) := by
    cases rest with
    | nil => exact .ended ended_none (hfinish ▸ ended_drop_findIdx answers)
    | cons t rest => exact alike_move 0 (some t)
  have hprime : prime (ofFeed (.ofAnswers answers)) = .ok () (onAnswers answers 2) := by
    apply prime_ofAnswers
    rw [hsplit]
    exact clear_moved hclear
  rw [hsplit] at hprime
  have hparser := (parse_of_prime hprime (hread.follow 0 2 _ hclear hlike)).2
  rw [hsplit, hparser, ← hsplit, ← hlength, List.length_append]
  show 2 + taken.length ≤ _
  omega

/-! ## Parsers that have succeeded -/

theorem primed_of_shift (p : Parser) :
    Ensures shift p (fun _ q => q.primed = p.primed)
      (fun failure _ => ∃ e, failure = .lexical e ∧ True) := by
  obtain ⟨⟨pending, asked⟩, current, next, primed⟩ := p
  match pending with
  | [] | none :: _ | some (.ok _) :: _ => rfl
  | some (.error e) :: _ => exact ⟨e, rfl, trivial⟩

theorem primed_of_prime (p : Parser) :
    Ensures prime p (fun _ q => q.primed = true)
      (fun failure _ => ∃ e, failure = .lexical e ∧ True) := by
  refine Ensures.bind (m := fun a q => a = p ∧ q = p) ⟨rfl, rfl⟩ ?_
  rintro _ _ ⟨rfl, rfl⟩
  split
  · next hprimed => exact .pure hprimed
  · refine (primed_of_shift _).bind ?_
    intro _ q _
    refine (primed_of_shift q).bind ?_
    intro _ r _
    exact rfl

theorem bond_primed : Bond (fun p p' => p = p' ∧ p.primed = true) (fun _ _ _ => True) :=
  .of_shift fun h => (primed_of_shift _).mono fun _ _ heq => heq.trans h

/-- A parse that succeeds leaves a primed parser at an end. -/
theorem atEnd_of_parse_ok {f : Formula} (h : p.parse.result = .ok f) :
    p.parse.parser.primed = true ∧ p.parse.parser.atEnd = true := by
  have hprimed : p.parse.parser.primed = true := by
    rcases bond_primed.parse (primed_of_prime p) with ⟨hprimed, -⟩ | ⟨e, he, -⟩
    · exact hprimed
    · cases h.symm.trans he
  refine ⟨hprimed, ?_⟩
  cases hq : prime p with
  | error e q =>
    simp only [parse, hq] at h
    cases h
  | ok u q =>
    have hend := itemsFrom_parsed q [] []
    have hparse : p.parse = itemsFrom q [] [] := by simp only [parse, hq]
    rw [← hparse] at hend
    simp only [Parsed, h] at hend
    exact hend.1

/-- **At an end there is nothing more to parse, and nothing is asked for.** -/
theorem parse_of_atEnd (hprimed : p.primed = true) (hend : p.atEnd = true) :
    p.parse = ⟨.ok ⟨[]⟩, [], p⟩ := by
  have hkind : p.currentKind? ≠ some (.symbol .newLine) := by
    intro hk
    obtain ⟨t, hc, hkind⟩ := current_of_kind hk
    have hinner : t.isEndOfFile = false := isEndOfFile_of_kind hkind (by decide)
    rw [atEnd, hc] at hend
    exact Bool.false_ne_true (hinner.symm.trans hend)
  have hnext : nextItem p = .ok none p := by
    rw [nextItem, bind_of_ok (skipNewLines_of_other hkind), itemUnlessEnd, if_pos hend]
  simp only [parse, prime_of_primed hprimed, itemsFrom_of_end [] [] hnext]
  rfl

theorem after_succ (p : Parser) (calls : Nat) :
    p.after (calls + 1) = (p.after calls).parse.parser := by
  induction calls generalizing p with
  | zero => rfl
  | succ calls ih => exact ih p.parse.parser

/-- A parse that succeeds is the last one that finds anything. -/
theorem parse_after_ok {calls : Nat} {f : Formula} (h : (p.after calls).parse.result = .ok f)
    (more : Nat) :
    (p.after (calls + 1 + more)).parse = ⟨.ok ⟨[]⟩, [], p.after (calls + 1 + more)⟩ := by
  obtain ⟨hprimed, hend⟩ := atEnd_of_parse_ok h
  rw [← after_succ] at hprimed hend
  induction more with
  | zero => exact parse_of_atEnd hprimed hend
  | succ more ih =>
    rw [← Nat.add_assoc, after_succ, ih]
    exact ih

/-! ## Main result -/

/-- **A parse asks for the answers up to the first end and one more, at most, and for just these
    if it succeeds.** Once a parse has succeeded, all further ones come to no items and ask for
    nothing. -/
theorem parse_pulls (answers : List Answer) :
    let fresh := ofFeed (.ofAnswers answers)
    let finish := answers.findIdx isEnd
    fresh.source.asked = 0 ∧
    fresh.parse.parser.source.asked ≤ finish + 2 ∧
    (∀ f, fresh.parse.result = .ok f → fresh.parse.parser.source.asked = finish + 2) ∧
    ∀ calls f, (fresh.after calls).parse.result = .ok f → ∀ more,
      let p := fresh.after (calls + 1 + more)
      p.parse = ⟨.ok ⟨[]⟩, [], p⟩ := by
  intro fresh finish
  have hfollows := follows_parse answers
  have hbound : fresh.parse.parser.source.asked ≤ finish + 2 := by
    by_cases hfree : FreeUpTo answers (finish + 2)
    · exact asked_parse_of_free hfree
    · rcases hfollows with ⟨i, hparser, hi⟩ | ⟨-, i, hasked, hi⟩
      · show fresh.parse.parser.source.asked ≤ _
        rw [hparser]
        exact Nat.le_of_lt (hi.lt hfree)
      · show fresh.parse.parser.source.asked ≤ _
        rw [hasked]
        exact hi.lt hfree
  refine ⟨rfl, hbound, ?_, fun calls f hf more => parse_after_ok hf more⟩
  intro f hf
  rcases hfollows with ⟨i, hparser, hi⟩ | ⟨⟨e, he⟩, -⟩
  · have hend := (atEnd_of_parse_ok hf).2
    have hasked : fresh.parse.parser.source.asked = i + 2 := congrArg (·.source.asked) hparser
    rw [hparser] at hend
    have hle := findIdx_le_of_atEnd hend fun e he =>
      hi e ((List.take_prefix_take_left (Nat.le_succ _)).subset he)
    omega
  · exact nomatch hf.symm.trans he

-- The answer behind the end is asked for, and an error there is found.
example :
    let e : LexError := ⟨.invalidToken '$', ⟨3, 4⟩⟩
    let answers : List Answer := [some (.ok (.name "a" ⟨0, 1⟩)), none, some (.error e)]
    let parsing := (ofFeed (.ofAnswers answers)).parse
    answers.findIdx isEnd = 1 ∧ parsing.parser.source.asked = 3 ∧
      parsing.result = .error (.lexical e) := by
  decide +kernel

end Parser

end FormulaSyntax
