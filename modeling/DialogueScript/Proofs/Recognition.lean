import DialogueScript.Proofs.Spelling

/-!
# By what a statement is recognised

The kind of a statement is told from its beginning: from the keyword `if`, or from the first
character behind its name that is not a blank. The reader for that kind then looks for its
delimiter in the whole text, from the front, and checks what it finds before it by other means.
Both come to the same place. The text in front of the delimiter is a name and blanks, where no
delimiter can hide, and behind a keyword the reader finds fault with what stands before the first
`(` exactly if that is not blank.

Main statements:
1. `StatementKind.classify_eq_ok_iff` and `Introducer.isElseIf_iff`: what a text begins with
   that is taken for a statement of some kind or for an `else if`.
2. `Introducer.Leads.refused_front_iff`: when the text before a condition is refused.
3. `StatementKind.readers_agree`: the readers find the delimiter that the kind was told from.
-/

namespace DialogueScript

open Text

/-! ## Beginnings -/

/-- The text begins with the words of a clause that has a condition, and the second text is
what stands behind its `if`. -/
inductive Introducer.Leads : Introducer → List Char → List Char → Prop
  | onIf {behind : List Char} : NameStops behind → Leads .onIf (['i', 'f'] ++ behind) behind
  | onElseIf {between : Gap} {behind : List Char} : between.text ≠ [] → NameStops behind →
      Leads .onElseIf (elseIfWords between ++ behind) behind

inductive StatementKind.Begins : StatementKind → List Char → Prop
  | sign {kind : StatementKind} {sign : Char} {name blanks rest : List Char} :
      kind.sign? = some sign → IsName name → name ≠ ['i', 'f'] → allBlank blanks = true →
      Begins kind (name ++ (blanks ++ sign :: rest))
  | keyword {text behind : List Char} : Introducer.onIf.Leads text behind → Begins .branch text

theorem StatementKind.sign?_eq_some_iff {kind : StatementKind} {sign : Char} :
    kind.sign? = some sign ↔
      (sign = '=' ∧ kind = .assignment) ∨ (sign = '(' ∧ kind = .call) := by
  cases kind <;> simp [sign?, eq_comm]

theorem StatementKind.classify_of_keyword {text : List Char} {kind : StatementKind}
    (hk : beginsWithKeyword ['i', 'f'] text = true) (h : classify text = .ok kind) :
    kind = .branch := by
  unfold classify at h
  rw [if_pos hk] at h
  cases h
  rfl

theorem StatementKind.begins_of_sign {text : List Char} {kind : StatementKind} {sign : Char}
    (h : classify text = .ok kind) (hs : kind.sign? = some sign) : kind.Begins text := by
  obtain ⟨name, blanks, rest, hblank, hname⟩ := leadingName?_of_classify h hs
  obtain ⟨htext, hisName, hstop⟩ := leadingName?_eq_some hname
  have hif : name ≠ ['i', 'f'] := by
    rintro rfl
    have hstops : NameStops (blanks ++ sign :: rest) := fun c hc => by
      rw [hc] at hstop
      simpa using hstop
    -- The keyword would have been seen first, and a branch has no sign.
    have hk : beginsWithKeyword ['i', 'f'] text = true := by
      rw [htext]
      exact (beginsWithKeyword_iff (by decide)).mpr (hstops.takeWhile_append (by decide))
    rw [classify_of_keyword hk h] at hs
    exact nomatch hs
  rw [htext]
  exact .sign hs hisName hif hblank

/-- A text is taken for a statement of a kind exactly if it begins like one. -/
theorem StatementKind.classify_eq_ok_iff {text : List Char} {kind : StatementKind} :
    classify text = .ok kind ↔ kind.Begins text := by
  constructor
  · intro h
    cases kind with
    | assignment => exact begins_of_sign h rfl
    | call => exact begins_of_sign h rfl
    | branch =>
      obtain ⟨behind, rfl, hstops⟩ := eq_append_of_keyword (keyword_of_classify h)
      exact .keyword (.onIf hstops)
  · intro h
    cases h with
    | sign hs hname hif hblank => exact classify_append hname hif hblank (sign?_eq_some_iff.mp hs)
    | keyword hleads =>
      cases hleads with
      | onIf hstops => exact Introducer.classify_if hstops

/-- The sign behind the name is the first of its kind in the whole text. -/
theorem StatementKind.Begins.cutFirst?_eq {text : List Char} {kind : StatementKind} {sign : Char}
    (h : kind.Begins text) (hs : kind.sign? = some sign) :
    ∃ name blanks rest, IsName name ∧ allBlank blanks = true ∧
      leadingName? text = some (name, blanks ++ sign :: rest) ∧
      cutFirst? sign text = some (name ++ blanks, rest) := by
  have hsign : isBlank sign = false ∧ isNamePart sign = false ∧ sign ≠ '.' := by
    rcases sign?_eq_some_iff.mp hs with ⟨rfl, _⟩ | ⟨rfl, _⟩
    · decide
    · decide
  cases h with
  | @sign _ _ name blanks rest hs' hname _ hblank =>
    cases hs.symm.trans hs'
    exact ⟨name, blanks, rest, hname, hblank,
      hname.leadingName?_append (ends_gap ⟨blanks, hblank⟩ hsign.2 rest),
      cutFirst?_eq_some_iff.mpr ⟨(List.append_assoc _ _ _).symm,
        hname.not_mem_append hblank hsign.2.1 hsign.1⟩⟩
  | keyword _ => exact nomatch hs

/-- A text is taken for an `else if` exactly if it begins with the two words. -/
theorem Introducer.isElseIf_iff {text : List Char} :
    isElseIf text = true ↔ ∃ behind, onElseIf.Leads text behind := by
  constructor
  · intro h
    obtain ⟨rest, rfl, _⟩ := eq_append_of_keyword (isElse_of_isElseIf h)
    unfold isElseIf at h
    rw [show (['e', 'l', 's', 'e'] ++ rest).drop 4 = rest from rfl, Bool.and_eq_true,
      Bool.and_eq_true] at h
    obtain ⟨⟨_, hblank⟩, hif⟩ := h
    obtain ⟨behind, hbehind, hstops⟩ := eq_append_of_keyword hif
    let between : Gap := ⟨rest.takeWhile isBlank, List.all_takeWhile⟩
    have hne : between.text ≠ [] := by
      cases rest with
      | nil => exact nomatch hblank
      | cons c rest =>
        have hc : isBlank c = true := hblank
        show (c :: rest).takeWhile isBlank ≠ []
        rw [List.takeWhile_cons, if_pos hc]
        exact List.cons_ne_nil _ _
    have htext : elseIfWords between ++ behind = ['e', 'l', 's', 'e'] ++ rest := by
      have hrest : between.text ++ trimStart rest = rest := List.takeWhile_append_dropWhile
      unfold elseIfWords
      rw [List.append_assoc, List.append_assoc, ← hbehind, hrest]
    rw [← htext]
    exact ⟨behind, .onElseIf hne hstops⟩
  · rintro ⟨behind, h⟩
    cases h with
    | onElseIf hne hstops => exact isElseIf_words hne hstops

theorem Introducer.Leads.trimStart_drop {text behind : List Char}
    (h : Introducer.onElseIf.Leads text behind) :
    trimStart (text.drop 4) = ['i', 'f'] ++ behind := by
  cases h with
  | @onElseIf between _ _ _ =>
    rw [drop_elseIfWords_append]
    exact trimStart_append between.blank (by decide) _

/-- The text behind the `if` of a clause is no matter of choice. -/
theorem Introducer.Leads.unique {introducer : Introducer} {text behind behind' : List Char}
    (h : introducer.Leads text behind) (h' : introducer.Leads text behind') : behind' = behind := by
  cases introducer with
  | onIf =>
    cases h with
    | onIf _ =>
      cases h' with
      | onIf _ => rfl
  | onElseIf => exact List.append_cancel_left (h'.trimStart_drop.symm.trans h.trimStart_drop)
  | onElse => exact nomatch h

/-! ## Messages -/

/-- What begins a text of two parts begins the first part, or goes beyond it. -/
theorem Text.comparable_of_isPrefix_append {head front back : String}
    (h : head.toList <+: (front ++ back).toList) :
    head.toList <+: front.toList ∨ front.toList <+: head.toList := by
  have hfront : front.toList <+: (front ++ back).toList := by
    rw [String.toList_append]
    exact List.prefix_append _ _
  exact List.prefix_or_prefix_of_prefix h hfront

/-- Of the messages, only that of a call without a name reads `Invalid function name`. -/
theorem Fault.eq_of_message_function_name {fault : Fault}
    (h : fault.message = "Invalid function name") : fault = .invalidFunctionName := by
  have hprefix : "Invalid function name".toList <+: fault.message.toList := h ▸ List.prefix_rfl
  cases fault with
  | invalidFunctionName => rfl
  | invalidOperator shown =>
    exact absurd (comparable_of_isPrefix_append hprefix) (by decide +kernel)
  | missingOperand operator =>
    exact absurd (comparable_of_isPrefix_append hprefix) (by decide +kernel)
  | namelessStatement text =>
    exact absurd (comparable_of_isPrefix_append hprefix) (by decide +kernel)
  | unknownStatement text =>
    exact absurd (comparable_of_isPrefix_append hprefix) (by decide +kernel)
  | unknownFunction name =>
    exact absurd (comparable_of_isPrefix_append hprefix) (by decide +kernel)
  | textAfterCall text =>
    exact absurd (comparable_of_isPrefix_append hprefix) (by decide +kernel)
  | textBeforeCondition introducer => cases introducer <;> exact absurd hprefix (by decide +kernel)
  | textAfterCondition introducer => cases introducer <;> exact absurd hprefix (by decide +kernel)
  | missingBlock introducer => cases introducer <;> exact absurd hprefix (by decide +kernel)
  | _ => exact absurd hprefix (by decide +kernel)

/-- Of the messages, only those on the text before a condition begin with
`Unexpected text before`. -/
theorem Fault.isPrefix_message_iff {fault : Fault} :
    "Unexpected text before".toList <+: fault.message.toList ↔
      ∃ introducer, fault = .textBeforeCondition introducer := by
  constructor
  · intro h
    cases fault with
    | textBeforeCondition introducer => exact ⟨introducer, rfl⟩
    | invalidOperator shown => exact absurd (comparable_of_isPrefix_append h) (by decide +kernel)
    | missingOperand operator => exact absurd (comparable_of_isPrefix_append h) (by decide +kernel)
    | namelessStatement text => exact absurd (comparable_of_isPrefix_append h) (by decide +kernel)
    | unknownStatement text => exact absurd (comparable_of_isPrefix_append h) (by decide +kernel)
    | unknownFunction name => exact absurd (comparable_of_isPrefix_append h) (by decide +kernel)
    | textAfterCall text => exact absurd (comparable_of_isPrefix_append h) (by decide +kernel)
    | textAfterCondition introducer => cases introducer <;> exact absurd h (by decide +kernel)
    | missingBlock introducer => cases introducer <;> exact absurd h (by decide +kernel)
    | _ => exact absurd h (by decide +kernel)
  · rintro ⟨introducer, rfl⟩
    cases introducer <;> decide +kernel

/-! ## Before a condition -/

/-- Behind a word, a text has no other word exactly if it is blank. -/
theorem Text.words_append_eq_singleton_iff {word gap : List Char} (hne : word ≠ [])
    (hw : word.all (fun c => !isBlank c) = true) :
    words (word ++ gap) = [word] ↔ allBlank gap = true := by
  constructor
  · intro h
    obtain ⟨c, more, rfl⟩ := List.exists_cons_of_ne_nil hne
    have hc : isBlank c = false := by simpa using (List.all_eq_true.mp hw c List.mem_cons_self)
    obtain ⟨rest, htext, _, hrest⟩ := exists_of_words h rfl hc
    rw [List.append_cancel_left htext]
    exact allBlank_of_words hrest
  · intro h
    have hwords := @words_append word gap [] hne hw h fun _ => rfl
    rwa [List.append_nil, words_blanks h] at hwords

theorem Introducer.map_words_eq_iff {introducer : Introducer} {found : List (List Char)} :
    found.map String.ofList = introducer.words ↔ found = introducer.words.map String.toList := by
  constructor
  · intro h
    rw [← h, List.map_map]
    simp
  · rintro rfl
    rw [List.map_map]
    simp

/-- The first `(` of a clause stands behind its `if`, and before it are just the words of the
introducer if nothing but blanks stands between. -/
theorem Introducer.Leads.exists_cut {introducer : Introducer} {text behind gap rest : List Char}
    (h : introducer.Leads text behind) (hcut : cutFirst? '(' behind = some (gap, rest)) :
    ∃ before, cutFirst? '(' text = some (before, rest) ∧
      ((Text.words before).map String.ofList = introducer.words ↔ allBlank gap = true) := by
  obtain ⟨rfl, hgap⟩ := cutFirst?_eq_some_iff.mp hcut
  have hword := @Text.words_append_eq_singleton_iff ['i', 'f'] gap (by decide) (by decide)
  rw [← hword]
  cases h with
  | onIf _ =>
    refine ⟨['i', 'f'] ++ gap, cutFirst?_eq_some_iff.mpr ⟨rfl, fun hm => ?_⟩, map_words_eq_iff⟩
    rcases List.mem_append.mp hm with hm | hm
    · exact absurd hm (by decide)
    · exact hgap hm
  | @onElseIf between _ hne _ =>
    refine ⟨elseIfWords between ++ gap,
      cutFirst?_eq_some_iff.mpr ⟨(List.append_assoc _ _ _).symm, fun hm => ?_⟩, ?_⟩
    · rcases List.mem_append.mp hm with hm | hm
      · exact not_mem_elseIfWords between hm
      · exact hgap hm
    · rw [map_words_eq_iff, words_elseIfWords_append hne]
      exact List.cons_inj_right _

/-- The reader of a condition finds fault with the text before it exactly if the first `(` has
a `)` behind it and something other than blanks between the `if` and itself. -/
theorem Introducer.Leads.refused_front_iff {introducer : Introducer}
    {text behind gap rest : List Char} (h : introducer.Leads text behind)
    (hcut : cutFirst? '(' behind = some (gap, rest)) :
    (∃ e, Statement.readCondition introducer text = .error e ∧
        "Unexpected text before".toList <+: e.cause.message.toList) ↔
      ')' ∈ rest ∧ allBlank gap = false := by
  obtain ⟨before, hfirst, hwords⟩ := h.exists_cut hcut
  constructor
  · rintro ⟨e, hread, hmessage⟩
    obtain ⟨introducer', hcause⟩ := Fault.isPrefix_message_iff.mp hmessage
    cases Statement.readCondition_error hread with
    | before hfirst' hlast hne =>
      rw [hfirst] at hfirst'
      cases hfirst'
      refine ⟨?_, Bool.eq_false_iff.mpr fun hblank => hne (hwords.mpr hblank)⟩
      obtain ⟨rfl, _⟩ := cutLast?_eq_some_iff.mp hlast
      exact List.mem_append_right _ List.mem_cons_self
    | condition _ _ _ _ _ hcompile =>
      have hexpression := Plan.inExpression_cause hcompile
      rw [hcause] at hexpression
      exact nomatch hexpression
    | unopened _ => exact nomatch hcause
    | unclosed _ _ => exact nomatch hcause
    | inverted _ _ _ => exact nomatch hcause
    | trailing _ _ _ _ => exact nomatch hcause
    | empty _ _ _ _ _ => exact nomatch hcause
  · rintro ⟨hclosed, hgap⟩
    obtain ⟨⟨inside, trailing⟩, hlast⟩ : ∃ cut, cutLast? ')' rest = some cut :=
      Option.ne_none_iff_exists'.mp fun hnone => cutLast?_eq_none_iff.mp hnone hclosed
    have hne : (Text.words before).map String.ofList ≠ introducer.words := fun heq => by
      rw [hwords.mp heq] at hgap
      exact nomatch hgap
    exact ⟨_, (Statement.ConditionFault.before hfirst hlast hne).readCondition_eq,
      Fault.isPrefix_message_iff.mpr ⟨introducer, rfl⟩⟩

/-! ## Agreement -/

/-- A text with a name at the front is not refused for having none. -/
theorem Statement.message_ne_of_readCall {φ : Type} {registry : NameTable φ}
    {text name rest : List Char} {e : Located Fault} (hname : leadingName? text = some (name, rest))
    (h : readCall registry text = .error e) : e.cause.message ≠ "Invalid function name" := by
  intro hmessage
  have hcause := Fault.eq_of_message_function_name hmessage
  cases readCall_error h with
  | nameless hnone =>
    rw [hname] at hnone
    exact nomatch hnone
  | unknown _ _ => exact nomatch hcause
  | arguments harguments =>
    cases harguments with
    | unopened _ => exact nomatch hcause
    | unclosed _ _ => exact nomatch hcause
    | trailing _ _ _ => exact nomatch hcause
    | argument _ _ _ _ hcompile =>
      have hexpression := Plan.inExpression_cause hcompile
      rw [hcause] at hexpression
      exact nomatch hexpression

/-- Classifying a statement and reading it come to the same delimiter. The value of an
assignment begins behind the first `=` of the whole text, with just the name and blanks before
that, and the assignment is refused only if the value is. The arguments of a call are the pieces
between commas of what stands between the first `(` of the whole text, with just the name and
blanks before that, and the last `)` behind it, and the call is never refused for having no name.
A clause is refused for the text before its condition exactly if the first `(` has a `)` behind
it and something other than blanks between the `if` and itself. -/
theorem StatementKind.readers_agree {φ : Type} (registry : NameTable φ) (text : List Char) :
    (classify text = .ok .assignment → ∃ name blanks value, allBlank blanks = true ∧
      leadingName? text = some (name, blanks ++ '=' :: value) ∧
      cutFirst? '=' text = some (name ++ blanks, value) ∧
      Statement.readAssignment text =
        (Plan.compile value ((name ++ blanks).length + 1)).map fun plan =>
          (String.ofList name, plan)) ∧
    (classify text = .ok .call → ∃ name blanks rest, allBlank blanks = true ∧
      leadingName? text = some (name, blanks ++ '(' :: rest) ∧
      cutFirst? '(' text = some (name ++ blanks, rest) ∧
      (')' ∉ rest →
        Statement.readArguments text = .error (.atChar .missingCallParentheses 0)) ∧
      (∀ inside trailing, rest = inside ++ ')' :: trailing → ')' ∉ trailing →
        Statement.readArguments text =
          if allBlank trailing then
            Statement.compilePieces ((name ++ blanks).length + 1) (inside.splitOn ',')
          else
            .error (.atChar (.textAfterCall (String.ofList (trim trailing)))
              ((name ++ blanks).length + 1 + inside.length + 1 + leadingBlanks trailing))) ∧
      ∀ e, Statement.readCall registry text = .error e →
        e.cause.message ≠ "Invalid function name") ∧
    (∀ introducer, (introducer = .onIf ∧ classify text = .ok .branch) ∨
        (introducer = .onElseIf ∧ Introducer.isElseIf text = true) →
      ∃ behind, introducer.Leads text behind ∧
        ∀ gap rest, cutFirst? '(' behind = some (gap, rest) →
          ((∃ e, Statement.readCondition introducer text = .error e ∧
              "Unexpected text before".toList <+: e.cause.message.toList) ↔
            ')' ∈ rest ∧ allBlank gap = false)) := by
  refine ⟨fun h => ?_, fun h => ?_, fun introducer h => ?_⟩
  · obtain ⟨name, blanks, value, hisName, hblank, hname, hcut⟩ :=
      (classify_eq_ok_iff.mp h).cutFirst?_eq rfl
    refine ⟨name, blanks, value, hblank, hname, hcut, ?_⟩
    rw [(leadingName?_eq_some hname).1]
    exact Statement.readAssignment_append hisName hblank value
  · obtain ⟨name, blanks, rest, _, hblank, hname, hcut⟩ :=
      (classify_eq_ok_iff.mp h).cutFirst?_eq rfl
    refine ⟨name, blanks, rest, hblank, hname, hcut, fun hopen => ?_,
      fun inside trailing hrest hlast => ?_, fun e => Statement.message_ne_of_readCall hname⟩
    · exact Statement.readArguments_of_unclosed hcut (cutLast?_eq_none_iff.mpr hopen)
    · exact Statement.readArguments_of_cuts hcut (cutLast?_eq_some_iff.mpr ⟨hrest, hlast⟩)
  · have hleads : ∃ behind, introducer.Leads text behind := by
      rcases h with ⟨rfl, hbranch⟩ | ⟨rfl, helseIf⟩
      · cases classify_eq_ok_iff.mp hbranch with
        | sign hs _ _ _ => exact nomatch hs
        | keyword hleads => exact ⟨_, hleads⟩
      · exact Introducer.isElseIf_iff.mp helseIf
    obtain ⟨behind, hleads⟩ := hleads
    exact ⟨behind, hleads, fun gap rest hcut => hleads.refused_front_iff hcut⟩

/-- Delimiters that come again later, a no-break space, a name that begins like a keyword, and a
word too many behind an `else if`. -/
theorem StatementKind.readers_agree_repeated_delimiters :
    (classify ['i', 'f', 's', '\u00a0', '=', 'a', '=', 'b'] = .ok .assignment ∧
      Statement.readAssignment ['i', 'f', 's', '\u00a0', '=', 'a', '=', 'b'] =
        (Plan.compile ['a', '=', 'b'] 5).map fun plan => ("ifs", plan)) ∧
    (classify ['g', ' ', '(', '(', 'a', ')', ',', 'b', ')'] = .ok .call ∧
      Statement.readArguments ['g', ' ', '(', '(', 'a', ')', ',', 'b', ')'] =
        Statement.compilePieces 3 [['(', 'a', ')'], ['b']] ∧
      ∀ e, Statement.readCall (NameTable.ofList [("f", ())])
          ['g', ' ', '(', '(', 'a', ')', ',', 'b', ')'] = .error e →
        e.cause.message ≠ "Invalid function name") ∧
    (classify ['i', 'f', '\u00a0', '(', 'a', ' ', 'b', ')'] = .ok .branch ∧
      ∀ e, Statement.readCondition .onIf ['i', 'f', '\u00a0', '(', 'a', ' ', 'b', ')'] = .error e →
        ¬"Unexpected text before".toList <+: e.cause.message.toList) ∧
    (Introducer.isElseIf ['e', 'l', 's', 'e', ' ', 'i', 'f', ' ', 'x', '(', 'a', ')'] = true ∧
      ∃ e, Statement.readCondition .onElseIf
          ['e', 'l', 's', 'e', ' ', 'i', 'f', ' ', 'x', '(', 'a', ')'] = .error e ∧
        "Unexpected text before".toList <+: e.cause.message.toList) := by
  have agree := readers_agree (NameTable.ofList [("f", ())])
  refine ⟨⟨rfl, ?_⟩, ⟨rfl, ?_⟩, ⟨rfl, ?_⟩, ⟨rfl, ?_⟩⟩
  · obtain ⟨name, blanks, value, _, hname, hcut, hread⟩ :=
      (agree ['i', 'f', 's', '\u00a0', '=', 'a', '=', 'b']).1 rfl
    obtain ⟨rfl, _⟩ : name = ['i', 'f', 's'] ∧ _ :=
      Prod.mk.inj (Option.some.inj (hname.symm.trans rfl))
    obtain ⟨hfront, rfl⟩ : _ = ['i', 'f', 's', '\u00a0'] ∧ value = ['a', '=', 'b'] :=
      Prod.mk.inj (Option.some.inj (hcut.symm.trans rfl))
    rw [hfront] at hread
    exact hread
  · obtain ⟨name, blanks, rest, _, _, hcut, _, harguments, hmessage⟩ :=
      (agree ['g', ' ', '(', '(', 'a', ')', ',', 'b', ')']).2.1 rfl
    obtain ⟨hfront, rfl⟩ : _ = ['g', ' '] ∧ rest = ['(', 'a', ')', ',', 'b', ')'] :=
      Prod.mk.inj (Option.some.inj (hcut.symm.trans rfl))
    rw [hfront] at harguments
    exact ⟨harguments ['(', 'a', ')', ',', 'b'] [] rfl (by decide), hmessage⟩
  · obtain ⟨behind, hleads, hfront⟩ :=
      (agree ['i', 'f', '\u00a0', '(', 'a', ' ', 'b', ')']).2.2 .onIf (Or.inl ⟨rfl, rfl⟩)
    cases hleads
    intro e hread hmessage
    exact nomatch ((hfront ['\u00a0'] ['a', ' ', 'b', ')'] rfl).mp ⟨e, hread, hmessage⟩).2
  · obtain ⟨behind, hleads, hfront⟩ :=
      (agree ['e', 'l', 's', 'e', ' ', 'i', 'f', ' ', 'x', '(', 'a', ')']).2.2 .onElseIf
        (Or.inr ⟨rfl, rfl⟩)
    have hstops : NameStops [' ', 'x', '(', 'a', ')'] := fun c hc => by
      cases hc
      rfl
    have hleads' := @Introducer.Leads.onElseIf ⟨[' '], rfl⟩ _ (by decide) hstops
    cases hleads'.unique hleads
    exact (hfront [' ', 'x'] ['a', ')'] rfl).mpr ⟨by decide, rfl⟩

end DialogueScript
