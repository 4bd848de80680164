import DialogueScript.Proofs.Layout

/-!
# What the text of a statement says

A statement is read from its text in pieces: the name at the front, what stands behind the
first `=` or between the first `(` and the last `)`, the words of an introducer. Here the
pieces are put together again. The text of an accepted statement is its keywords or its name,
its punctuation and the expressions that were compiled, with blanks between them, and nothing
else. The one exception is an `else`: it is known by its first word, and what stands behind
that word is in no part of the tree.

Main statements:
1. `Text.words_cases`: where the first word of a text stands.
2. `Node.ReadFrom.spells`: the text of a fragment spells the node that is read from it.
3. `Block.parse_spells`: so it is for every fragment of a parsed source.
-/

namespace DialogueScript

open Text

/-! ## Words and where they stand -/

namespace Text

theorem words_append_of_head {word rest : List Char} (hne : word ≠ [])
    (hw : word.all (fun c => !isBlank c) = true) (hr : rest.head?.all isBlank = true) :
    words (word ++ rest) = word :: words rest := by
  cases rest with
  | nil => exact @words_append word [] [] hne hw rfl fun _ => rfl
  | cons c rest =>
    refine @words_append word [c] rest hne hw ?_ fun hnil => nomatch hnil
    exact List.all_eq_true.mpr fun d hd => List.mem_singleton.mp hd ▸ hr

/-- A text is blank, or its first word stands behind blanks with a blank or nothing behind it. -/
theorem words_cases (text : List Char) :
    (allBlank text = true ∧ words text = []) ∨
      ∃ gap word rest, allBlank gap = true ∧ text = gap ++ (word ++ rest) ∧
        rest.head?.all isBlank = true ∧ words text = word :: words rest := by
  have htext : text.takeWhile isBlank ++ text.dropWhile isBlank = text :=
    List.takeWhile_append_dropWhile
  have hgap : allBlank (text.takeWhile isBlank) = true := List.all_takeWhile
  have hstop := List.head?_dropWhile_not isBlank text
  cases hd : text.dropWhile isBlank with
  | nil =>
    rw [hd, List.append_nil] at htext
    rw [htext] at hgap
    exact Or.inl ⟨hgap, words_blanks hgap⟩
  | cons c tail =>
    right
    rw [hd] at htext hstop
    have hc : isBlank c = false := hstop
    let word := c :: tail.takeWhile fun c => !isBlank c
    let rest := tail.dropWhile fun c => !isBlank c
    have hword : word.all (fun c => !isBlank c) = true := by
      rw [List.all_cons, hc, List.all_takeWhile]
      rfl
    have hrest : rest.head?.all isBlank = true := by
      have hback := List.head?_dropWhile_not (fun c => !isBlank c) tail
      cases hh : rest.head? with
      | none => rfl
      | some d =>
        rw [hh] at hback
        simpa using hback
    have htail : word ++ rest = c :: tail :=
      congrArg (c :: ·) List.takeWhile_append_dropWhile
    refine ⟨text.takeWhile isBlank, word, rest, hgap, by rw [htail, htext], hrest, ?_⟩
    have hwords := words_blanks_append hgap (c :: tail)
    rw [htext] at hwords
    rw [hwords, ← htail, words_append_of_head (List.cons_ne_nil _ _) hword hrest]

theorem allBlank_of_words {text : List Char} (h : words text = []) : allBlank text = true := by
  rcases words_cases text with ⟨hblank, _⟩ | ⟨_, _, _, _, _, _, hwords⟩
  · exact hblank
  · rw [h] at hwords
    exact nomatch hwords

/-- A text that begins with something else than a blank begins with its first word. -/
theorem exists_of_words {text word : List Char} {more : List (List Char)} {c : Char}
    (h : words text = word :: more) (hc : text.head? = some c) (hb : isBlank c = false) :
    ∃ rest, text = word ++ rest ∧ rest.head?.all isBlank = true ∧ words rest = more := by
  rcases words_cases text with ⟨_, hwords⟩ | ⟨gap, first, rest, hgap, htext, hrest, hwords⟩
  · rw [h] at hwords
    exact nomatch hwords
  · rw [h] at hwords
    obtain ⟨rfl, rfl⟩ := List.cons.inj hwords
    cases gap with
    | nil => exact ⟨rest, htext, hrest, rfl⟩
    | cons d gap =>
      rw [htext] at hc
      cases hc
      have hd := List.all_eq_true.mp hgap c List.mem_cons_self
      rw [hb] at hd
      exact nomatch hd

/-- The only cut at a mark leaves in front of it what has no mark. -/
theorem cutFirst?_unique {mark : Char} {text before after front back : List Char}
    (h : cutFirst? mark text = some (before, after)) (ht : text = front ++ mark :: back)
    (hm : mark ∉ front) : before = front ∧ after = back := by
  rw [cutFirst?_eq_some_iff.mpr ⟨ht, hm⟩] at h
  cases h
  exact ⟨rfl, rfl⟩

end Text

/-! ## Spelling -/

variable {φ : Type}

/-- The text of a node: its keywords or its name, its punctuation and the texts of its
expressions, with nothing but blanks between them. What else the text has is the second list,
which only an `else` can have. The arguments of a call are the texts between its commas, those
that are blank left out. -/
inductive Node.Spells : List Char → List Char → Node φ → Prop
  | assign {target : String} {value : Plan} {offset : Nat} {blanks expression : List Char} :
      IsName target.toList → allBlank blanks = true → Plan.ofText expression = .ok value →
      Spells (target.toList ++ (blanks ++ '=' :: expression)) [] (.assign target value offset)
  | call {name : String} {function : φ} {arguments : List Plan} {offset : Nat}
      {blanks inside trailing : List Char} :
      IsName name.toList → allBlank blanks = true → allBlank trailing = true →
      List.Forall₂ (fun piece plan => Plan.ofText piece = .ok plan)
        ((inside.splitOn ',').filter fun piece => !allBlank piece) arguments →
      Spells (name.toList ++ (blanks ++ '(' :: (inside ++ ')' :: trailing))) []
        (.call name function arguments offset)
  | branch {condition : Plan} {offset : Nat} {blanks expression trailing : List Char} :
      allBlank blanks = true → allBlank trailing = true → Plan.ofText expression = .ok condition →
      Spells (['i', 'f'] ++ (blanks ++ '(' :: (expression ++ ')' :: trailing))) []
        (.branch condition offset)
  | elseIf {condition : Plan} {between blanks expression trailing : List Char} :
      between ≠ [] → allBlank between = true → allBlank blanks = true → allBlank trailing = true →
      Plan.ofText expression = .ok condition →
      Spells (['e', 'l', 's', 'e'] ++ (between ++ (['i', 'f'] ++
        (blanks ++ '(' :: (expression ++ ')' :: trailing))))) [] (.elseIf condition)
  | otherwise {ignored : List Char} : NameStops ignored →
      Spells (['e', 'l', 's', 'e'] ++ ignored) ignored .otherwise

theorem Node.Spells.text_otherwise {text ignored : List Char}
    (h : (Node.otherwise : Node φ).Spells text ignored) : text = ['e', 'l', 's', 'e'] ++ ignored := by
  cases h
  rfl

namespace Statement

/-- Of the texts between commas, those that are not blank are compiled, in order. -/
theorem compilePieces_eq_ok {offset : Nat} {pieces : List (List Char)} {plans : List Plan}
    (h : compilePieces offset pieces = .ok plans) :
    List.Forall₂ (fun piece plan => Plan.ofText piece = .ok plan)
      (pieces.filter fun piece => !allBlank piece) plans := by
  induction pieces generalizing offset plans with
  | nil =>
    cases h
    exact .nil
  | cons piece pieces ih =>
    rw [compilePieces] at h
    split at h
    · next hblank =>
      rw [List.filter_cons, hblank]
      exact ih h
    · next hblank =>
      obtain ⟨plan, hplan, h⟩ := ok_of_bind h
      obtain ⟨more, hmore, h⟩ := ok_of_bind h
      cases h
      rw [List.filter_cons, Bool.eq_false_iff.mpr hblank]
      exact .cons (Plan.ofText_of_compile hplan) (ih hmore)

/-- The arguments stand between the first `(` and the last `)`, behind which is nothing. -/
theorem readArguments_eq_ok {text : List Char} {arguments : List Plan}
    (h : readArguments text = .ok arguments) :
    ∃ before rest inside trailing, cutFirst? '(' text = some (before, rest) ∧
      cutLast? ')' rest = some (inside, trailing) ∧ allBlank trailing = true ∧
      List.Forall₂ (fun piece plan => Plan.ofText piece = .ok plan)
        ((inside.splitOn ',').filter fun piece => !allBlank piece) arguments := by
  cases hfirst : cutFirst? '(' text with
  | none =>
    unfold readArguments at h
    rw [hfirst] at h
    exact nomatch h
  | some cut =>
    obtain ⟨before, rest⟩ := cut
    cases hlast : cutLast? ')' rest with
    | none =>
      rw [readArguments_of_unclosed hfirst hlast] at h
      exact nomatch h
    | some cut =>
      obtain ⟨inside, trailing⟩ := cut
      rw [readArguments_of_cuts hfirst hlast] at h
      split at h
      · next hblank =>
        exact ⟨before, rest, inside, trailing, rfl, hlast, hblank, compilePieces_eq_ok h⟩
      · exact nomatch h

/-- A condition stands between the first `(` and the last `)`. Before it are the words of the
introducer, and behind it is nothing. -/
theorem readCondition_eq_ok {introducer : Introducer} {text : List Char} {condition : Plan}
    (h : readCondition introducer text = .ok condition) :
    ∃ before expression trailing, text = before ++ '(' :: (expression ++ ')' :: trailing) ∧
      words before = introducer.words.map String.toList ∧ allBlank trailing = true ∧
      Plan.ofText expression = .ok condition := by
  unfold readCondition at h
  split at h
  · exact nomatch h
  next before rest hfirst =>
  split at h
  · exact nomatch h
  split at h
  · exact nomatch h
  next inside trailing hlast =>
  dsimp only at h
  split at h
  · exact nomatch h
  next hwords =>
  split at h
  · exact nomatch h
  next hblank =>
  split at h
  · exact nomatch h
  obtain ⟨rfl, _⟩ := cutFirst?_eq_some_iff.mp hfirst
  obtain ⟨rfl, _⟩ := cutLast?_eq_some_iff.mp hlast
  refine ⟨before, inside, trailing, rfl, ?_, by simpa using hblank, Plan.ofText_of_compile h⟩
  rw [← Decidable.not_not.mp hwords, List.map_map]
  simp

end Statement

theorem StatementKind.keyword_of_classify {text : List Char} (h : classify text = .ok .branch) :
    beginsWithKeyword ['i', 'f'] text = true := by
  unfold classify at h
  split at h
  · next hkeyword => exact hkeyword
  split at h
  · exact nomatch h
  split at h
  · exact nomatch h
  · exact nomatch h
  · exact nomatch h

theorem Text.eq_append_of_keyword {keyword text : List Char} (h : beginsWithKeyword keyword text = true) :
    ∃ rest, text = keyword ++ rest ∧ NameStops rest := by
  unfold beginsWithKeyword at h
  rw [Bool.and_eq_true, List.isPrefixOf_iff_prefix, Bool.not_eq_true'] at h
  obtain ⟨⟨rest, rfl⟩, hstop⟩ := h
  refine ⟨rest, rfl, fun c hc => ?_⟩
  rw [List.drop_left, hc] at hstop
  exact hstop

/-- The text before a condition, if it does not begin with a blank, begins with the first word
of the introducer. -/
theorem Text.exists_of_words_before {text before rest word : List Char} {more : List (List Char)}
    {c : Char} (ht : text = before ++ '(' :: rest) (h : words before = word :: more)
    (hc : text.head? = some c) (hb : isBlank c = false) :
    ∃ behind, before = word ++ behind ∧ behind.head?.all isBlank = true ∧ words behind = more := by
  refine exists_of_words h ?_ hb
  cases before with
  | nil => exact nomatch h
  | cons d before =>
    rw [ht] at hc
    exact hc

section

variable {registry : NameTable φ} {f : Fragment} {offset : Nat}

theorem Node.ReadFrom.spells_assign {target : String} {value : Plan}
    (h : (Node.assign target value offset).ReadFrom registry f) :
    (Node.assign (φ := φ) target value offset).Spells f.text [] := by
  obtain ⟨_, hkind, hread⟩ := h
  obtain ⟨name, blanks, rest, hblank, hname⟩ := StatementKind.leadingName?_of_classify hkind rfl
  obtain ⟨_, before, expression, hname', hcut, hvalue⟩ := Statement.readAssignment_eq_ok hread
  cases hname.symm.trans hname'
  obtain ⟨htext, hisName, _⟩ := leadingName?_eq_some hname
  rw [← List.append_assoc] at htext
  obtain ⟨_, rfl⟩ := cutFirst?_unique hcut htext
    (IsName.not_mem_append hisName hblank (by decide) (by decide))
  rw [htext, List.append_assoc]
  exact .assign hisName hblank hvalue

theorem Node.ReadFrom.spells_call {name : String} {function : φ} {arguments : List Plan}
    (h : (Node.call name function arguments offset).ReadFrom registry f) :
    (Node.call name function arguments offset).Spells f.text [] := by
  obtain ⟨_, hkind, hread⟩ := h
  obtain ⟨found, blanks, rest, hblank, hname⟩ := StatementKind.leadingName?_of_classify hkind rfl
  obtain ⟨_, hname', _, harguments⟩ := Statement.readCall_eq_ok hread
  cases hname.symm.trans hname'
  obtain ⟨before, rest', inside, trailing, hfirst, hlast, htrailing, hpieces⟩ :=
    Statement.readArguments_eq_ok harguments
  obtain ⟨htext, hisName, _⟩ := leadingName?_eq_some hname
  rw [← List.append_assoc] at htext
  obtain ⟨_, rfl⟩ := cutFirst?_unique hfirst htext
    (IsName.not_mem_append hisName hblank (by decide) (by decide))
  obtain ⟨rfl, _⟩ := cutLast?_eq_some_iff.mp hlast
  rw [htext, List.append_assoc]
  exact .call hisName hblank htrailing hpieces

theorem Node.ReadFrom.spells_branch {condition : Plan}
    (h : (Node.branch condition offset).ReadFrom registry f) :
    (Node.branch (φ := φ) condition offset).Spells f.text [] := by
  obtain ⟨_, hkind, hread⟩ := h
  obtain ⟨before, expression, trailing, htext, hwords, htrailing, hcondition⟩ :=
    Statement.readCondition_eq_ok hread
  obtain ⟨more, hmore, _⟩ := eq_append_of_keyword (StatementKind.keyword_of_classify hkind)
  obtain ⟨blanks, rfl, _, hblanks⟩ := exists_of_words_before htext hwords
    (show f.text.head? = some 'i' by rw [hmore]; rfl) (by decide)
  rw [htext, List.append_assoc]
  exact .branch (allBlank_of_words hblanks) htrailing hcondition

theorem Node.ReadFrom.spells_elseIf {condition : Plan}
    (h : (Node.elseIf condition).ReadFrom registry f) :
    (Node.elseIf (φ := φ) condition).Spells f.text [] := by
  obtain ⟨hkind, hread⟩ := h
  obtain ⟨before, expression, trailing, htext, hwords, htrailing, hcondition⟩ :=
    Statement.readCondition_eq_ok hread
  obtain ⟨more, hmore, _⟩ := eq_append_of_keyword (Introducer.isElse_of_isElseIf hkind)
  obtain ⟨behind, rfl, hhead, hif⟩ := exists_of_words_before htext hwords
    (show f.text.head? = some 'e' by rw [hmore]; rfl) (by decide)
  rcases words_cases behind with ⟨_, hnone⟩ | ⟨between, word, rest, hbetween, rfl, _, hword⟩
  · rw [hif] at hnone
    exact nomatch hnone
  rw [hif] at hword
  obtain ⟨rfl, hrest⟩ := List.cons.inj hword
  have hne : between ≠ [] := by
    rintro rfl
    have hblank : isBlank 'i' = true := hhead
    exact absurd hblank (by decide)
  rw [htext]
  simp only [List.append_assoc]
  exact .elseIf hne hbetween (allBlank_of_words hrest.symm) htrailing hcondition

/-- The text of a fragment spells the node that is read from it. -/
theorem Node.ReadFrom.spells {node : Node φ} (h : node.ReadFrom registry f) :
    ∃ ignored, node.Spells f.text ignored := by
  cases node with
  | assign target value offset => exact ⟨[], h.spells_assign⟩
  | call name function arguments offset => exact ⟨[], h.spells_call⟩
  | branch condition offset => exact ⟨[], h.spells_branch⟩
  | elseIf condition => exact ⟨[], h.spells_elseIf⟩
  | otherwise =>
    obtain ⟨ignored, htext, hstops⟩ := eq_append_of_keyword h.1
    exact ⟨ignored, htext ▸ .otherwise hstops⟩

end

/-! ## Sources -/

/-- Every fragment of a parsed source is spelled out by one node of the block: an assignment
is its name, `=` and the text that was compiled; a call is its name, `(`, the texts between its
commas, of which those that are not blank were compiled, and `)`; an `if` or `else if` is its
keywords, `(`, the text that was compiled, and `)`. There are blanks between these, but no other
text. Only an `else` can have text behind its keyword. -/
theorem Block.parse_spells {registry : NameTable φ} {source : List Char} {b : Block φ}
    (h : Block.parse registry source = .ok b) :
    ∃ fragments, Fragment.split source = .ok fragments ∧
      List.Forall₂ (fun f node => ∃ ignored, Node.Spells f.text ignored node) fragments b.nodes := by
  obtain ⟨fragments, hsplit, h⟩ := ok_of_bind h
  have hnodes := (Block.ofFragments_eq_ok_iff.mp h).nodes_readFrom
  exact ⟨fragments, hsplit, hnodes.imp fun _ _ hread => hread.spells⟩

/-- A call with a blank argument between two others, beneath an `else if`. -/
theorem Block.parse_spells_call_beneath_else_if :
    ∃ b, Block.parse (NameTable.ofList [("f", ())])
        ['i', 'f', '(', 'a', ')', '{', 'x', '=', 'a', '}',
          'e', 'l', 's', 'e', ' ', 'i', 'f', ' ', '(', 'b', ')', '{',
          'f', '(', 'a', ',', ' ', ',', 'b', ')', '}'] = .ok b ∧
      ∃ fragments, Fragment.split
          ['i', 'f', '(', 'a', ')', '{', 'x', '=', 'a', '}',
            'e', 'l', 's', 'e', ' ', 'i', 'f', ' ', '(', 'b', ')', '{',
            'f', '(', 'a', ',', ' ', ',', 'b', ')', '}'] = .ok fragments ∧
        List.Forall₂ (fun f node => ∃ ignored, Node.Spells f.text ignored node) fragments b.nodes := by
  let a : Plan := ⟨[⟨none, none, some (.variable "a")⟩]⟩
  let b : Plan := ⟨[⟨none, none, some (.variable "b")⟩]⟩
  let more : Otherwise Unit := .elseIf b (.cons (.call "f" () [a, b] 22) .nil) .nothing
  exact ⟨.cons (.branch a (.cons (.assign "x" a 6) .nil) more 0) .nil, by cbv,
    @Block.parse_spells _ (NameTable.ofList [("f", ())]) _ _ (by cbv)⟩

/-- In `if(a){x=a}else c{x=c}` the `c` behind the `else` is in no expression, name or keyword,
and still the source is parsed. -/
theorem Block.parse_text_behind_else :
    ∃ b fragments,
      Block.parse (NameTable.ofList [("f", ())])
        ['i', 'f', '(', 'a', ')', '{', 'x', '=', 'a', '}',
          'e', 'l', 's', 'e', ' ', 'c', '{', 'x', '=', 'c', '}'] = .ok b ∧
      Fragment.split
        ['i', 'f', '(', 'a', ')', '{', 'x', '=', 'a', '}',
          'e', 'l', 's', 'e', ' ', 'c', '{', 'x', '=', 'c', '}'] = .ok fragments ∧
      ¬List.Forall₂ (fun f node => ∃ ignored, allBlank ignored = true ∧
        Node.Spells f.text ignored node) fragments b.nodes := by
  let a : Plan := ⟨[⟨none, none, some (.variable "a")⟩]⟩
  let c : Plan := ⟨[⟨none, none, some (.variable "c")⟩]⟩
  refine ⟨.cons (.branch a (.cons (.assign "x" a 6) .nil)
      (.block (.cons (.assign "x" c 17) .nil)) 0) .nil,
    [⟨['i', 'f', '(', 'a', ')'], 0, 0⟩, ⟨['x', '=', 'a'], 1, 6⟩,
      ⟨['e', 'l', 's', 'e', ' ', 'c'], 0, 10⟩, ⟨['x', '=', 'c'], 1, 17⟩], by cbv, by cbv, ?_⟩
  rintro (_ | ⟨_, _ | ⟨_, _ | ⟨⟨ignored, hblank, hspells⟩, _⟩⟩⟩)
  have htext := Node.Spells.text_otherwise hspells
  cases htext
  exact absurd hblank (by decide)

end DialogueScript
