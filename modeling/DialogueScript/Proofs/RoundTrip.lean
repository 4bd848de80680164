import DialogueScript.Proofs.Printing

/-!
# Parsing a printed program

Parsing gives back every program from its text, whatever its layout: the statements
in their order and nesting, with their names, functions and plans, and each at the
offset where it is printed.

The head of a statement or clause is read without the blanks that follow it, so the
value of an assignment loses its last blanks before it is compiled; by
`Plan.ofText_append_blanks` that is no loss.

Main statements:
1. `PrintedStatement.reads`: reading the fragments of a statement, and then more.
2. `PrintedBlock.parse_text`: parsing a whole program.
-/

namespace DialogueScript

open Text

/-! ## Heads as fragments -/

/-- What stands behind the first blanks of a head is its fragment, up to the blanks at
its end. -/
theorem Fragment.ofPiece_head (before : Gap) {c : Char} (hc : isBlank c = false) (rest : List Char)
    (depth start : Nat) : ofPiece (before.text ++ c :: rest) depth start =
      [⟨trimEnd (c :: rest), depth, start + before.text.length⟩] := by
  have hfilled : allBlank (before.text ++ c :: rest) = false := by
    unfold allBlank
    rw [List.all_append, List.all_cons, hc, Bool.false_and, Bool.and_false]
  unfold ofPiece trim
  rw [hfilled, if_neg Bool.false_ne_true, trimStart_append before.blank hc,
    leadingBlanks_append before.blank hc]
  rfl

/-- An assignment keeps all but the blanks around it. -/
theorem Fragment.ofPiece_assignment (before : Gap) {name : List Char} (hname : IsName name)
    (blanks value : List Char) (depth start : Nat) :
    ofPiece (before.text ++ (name ++ (blanks ++ '=' :: value))) depth start =
      [⟨name ++ (blanks ++ '=' :: trimEnd value), depth, start + before.text.length⟩] := by
  obtain ⟨c, more, rfl, hstart, _⟩ := hname
  rw [List.cons_append, Fragment.ofPiece_head _ (isBlank_of_isNamePart
    (isNamePart_iff.mpr (Or.inl hstart))), ← List.cons_append, ← List.append_assoc,
    trimEnd_append_cons _ (by decide), List.append_assoc]

theorem PrintedAssignment.ofPiece_head (a : PrintedAssignment) (depth start : Nat) :
    Fragment.ofPiece a.head depth start =
      [⟨a.name.text ++ (a.afterName.text ++ ('=' :: trimEnd a.value.full)), depth,
        start + a.before.text.length⟩] :=
  Fragment.ofPiece_assignment a.before a.name.isName _ _ depth start

theorem PrintedCall.ofPiece_head {φ : Type} {registry : NameTable φ} (c : PrintedCall registry)
    (depth start : Nat) :
    Fragment.ofPiece c.head depth start =
      [⟨c.name.text ++ (c.afterName.text ++ ('(' :: (argumentText c.inner c.arguments ++ [')']))), depth,
        start + c.before.text.length⟩] := by
  obtain ⟨d, more, hname, hstart, _⟩ := c.name.shape
  have hblank := isBlank_of_isNamePart (isNamePart_iff.mpr (Or.inl hstart))
  have hend : trimEnd (c.name.text ++ (c.afterName.text ++
      ('(' :: (argumentText c.inner c.arguments ++ (')' :: c.after.text))))) =
      c.name.text ++ (c.afterName.text ++ ('(' :: (argumentText c.inner c.arguments ++ [')']))) := by
    have h := trimEnd_append_cons (c.name.text ++ (c.afterName.text ++
      ('(' :: argumentText c.inner c.arguments))) (c := ')') (by decide) c.after.text
    rw [trimEnd_blanks (Gap.blank _)] at h
    simpa only [List.append_assoc, List.cons_append] using h
  unfold head
  rw [← hend, hname, List.cons_append, Fragment.ofPiece_head _ hblank]

theorem Clause.ofPiece_head {k : Char} {keyword : List Char} (hk : isBlank k = false) (c : Clause)
    (depth start : Nat) :
    Fragment.ofPiece (c.head (k :: keyword)) depth start =
      [⟨(k :: keyword) ++ (c.afterKeyword.text ++ ('(' :: (c.condition.full ++ [')']))), depth,
        start + c.before.text.length⟩] := by
  have hend : trimEnd ((k :: keyword) ++ (c.afterKeyword.text ++
      ('(' :: (c.condition.full ++ (')' :: c.after.text))))) =
      (k :: keyword) ++ (c.afterKeyword.text ++ ('(' :: (c.condition.full ++ [')']))) := by
    have h := trimEnd_append_cons ((k :: keyword) ++ (c.afterKeyword.text ++
      ('(' :: c.condition.full))) (c := ')') (by decide) c.after.text
    rw [trimEnd_blanks (Gap.blank _)] at h
    simpa only [List.append_assoc, List.cons_append] using h
  unfold head
  rw [← hend, List.cons_append, Fragment.ofPiece_head _ hk]

theorem Clause.ofPiece_elseIf (between : Gap) (c : Clause) (depth start : Nat) :
    Fragment.ofPiece (c.head (elseIfWords between)) depth start =
      [⟨elseIfWords between ++ (c.afterKeyword.text ++ ('(' :: (c.condition.full ++ [')']))), depth,
        start + c.before.text.length⟩] :=
  c.ofPiece_head (by decide) depth start

theorem ofPiece_elseHead (before after : Gap) (depth start : Nat) :
    Fragment.ofPiece (elseHead before after) depth start =
      [⟨['e', 'l', 's', 'e'], depth, start + before.text.length⟩] := by
  have hend := trimEnd_append_cons ['e', 'l', 's'] (c := 'e') (by decide) after.text
  rw [trimEnd_blanks (Gap.blank _)] at hend
  unfold elseHead
  rw [List.cons_append, Fragment.ofPiece_head _ (by decide)]
  exact congrArg (fun text => [Fragment.mk text depth (start + before.text.length)]) hend

/-! ## Reading heads -/

theorem Passage.ofText_full (p : Passage) : Plan.ofText p.full = .ok p.plan :=
  Plan.ofText_padded p.before.blank p.after.blank p.accepted

theorem Passage.ofText_trimEnd (p : Passage) : Plan.ofText (trimEnd p.full) = .ok p.plan := by
  obtain ⟨after, hblank, htext⟩ := trimEnd_append_blanks p.full
  refine (Plan.ofText_append_blanks hblank).mp ?_
  rw [htext]
  exact p.ofText_full

theorem Plan.compile_eq_ok {text : List Char} {plan : Plan} (h : ofText text = .ok plan)
    (offset : Nat) : compile text offset = .ok plan := by
  unfold compile
  rw [h]
  rfl

theorem ends_gap (gap : Gap) {c : Char} (hc : isNamePart c = false ∧ c ≠ '.') (rest : List Char) :
    Ends (gap.text ++ c :: rest) :=
  ends_append gap.blank fun d hd => by
    cases hd
    exact hc

/-- A name that is not `if` begins an assignment or a call, by what follows it. -/
theorem StatementKind.classify_append {name blanks : List Char} (hname : IsName name)
    (hif : name ≠ ['i', 'f']) (hb : allBlank blanks = true) {c : Char} {kind : StatementKind}
    {rest : List Char} (hc : (c = '=' ∧ kind = .assignment) ∨ (c = '(' ∧ kind = .call)) :
    classify (name ++ (blanks ++ c :: rest)) = .ok kind := by
  have hsign : isBlank c = false ∧ isNamePart c = false ∧ c ≠ '.' := by
    rcases hc with ⟨rfl, _⟩ | ⟨rfl, _⟩
    · exact ⟨by decide, by decide, by decide⟩
    · exact ⟨by decide, by decide, by decide⟩
  have hends := ends_gap ⟨blanks, hb⟩ hsign.2 rest
  unfold classify
  rw [beginsWithKeyword_of_ne (by decide) (takeWhile_isNamePart hname.all_isNamePart hends) hif,
    if_neg Bool.false_ne_true, hname.leadingName?_append hends]
  dsimp only
  rw [trimStart_append hb hsign.1]
  rcases hc with ⟨rfl, rfl⟩ | ⟨rfl, rfl⟩
  · rfl
  · rfl

/-- The value of an assignment is all that stands behind its sign. -/
theorem Statement.readAssignment_append {name blanks : List Char} (hname : IsName name)
    (hb : allBlank blanks = true) (value : List Char) :
    readAssignment (name ++ (blanks ++ '=' :: value)) =
      (Plan.compile value ((name ++ blanks).length + 1)).map fun plan =>
        (String.ofList name, plan) := by
  have hcut : cutFirst? '=' (name ++ (blanks ++ '=' :: value)) = some (name ++ blanks, value) :=
    cutFirst?_eq_some_iff.mpr ⟨(List.append_assoc _ _ _).symm,
      hname.not_mem_append hb (by decide) (by decide)⟩
  unfold readAssignment
  rw [hname.leadingName?_append (ends_gap ⟨blanks, hb⟩ ⟨by decide, by decide⟩ _), hcut]

theorem Identifier.beginsWithKeyword_append (name : Identifier) {keyword rest : List Char}
    (hk : keyword.all isNamePart = true) (hne : name.text ≠ keyword) (h : Ends rest) :
    beginsWithKeyword keyword (name.text ++ rest) = false :=
  beginsWithKeyword_of_ne hk (takeWhile_isNamePart name.all_isNamePart h) hne

theorem Identifier.classify_append (name : Identifier) (gap : Gap) {c : Char}
    {kind : StatementKind} {rest : List Char}
    (hc : (c = '=' ∧ kind = .assignment) ∨ (c = '(' ∧ kind = .call)) :
    StatementKind.classify (name.text ++ (gap.text ++ c :: rest)) = .ok kind :=
  StatementKind.classify_append name.isName name.not_if gap.blank hc

theorem PrintedAssignment.readAssignment_eq (a : PrintedAssignment) :
    Statement.readAssignment (a.name.text ++ (a.afterName.text ++ ('=' :: trimEnd a.value.full))) =
      .ok (String.ofList a.name.text, a.value.plan) := by
  rw [Statement.readAssignment_append a.name.isName a.afterName.blank,
    Plan.compile_eq_ok a.value.ofText_trimEnd]
  rfl

theorem Passage.allBlank_full {p : Passage} (h : allBlank p.text = false) : allBlank p.full = false := by
  unfold allBlank at h ⊢
  rw [Passage.full, List.all_append, List.all_append, h, Bool.false_and, Bool.and_false]

theorem Argument.not_mem_full (a : Argument) : ',' ∉ a.full := by
  intro hm
  rcases List.mem_append.mp hm with hm | hm
  · exact not_mem_of_all a.before.blank (by decide) hm
  · rcases List.mem_append.mp hm with hm | hm
    · exact a.no_comma hm
    · exact not_mem_of_all a.after.blank (by decide) hm

theorem compilePieces_arguments (offset : Nat) (arguments : List Argument) :
    Statement.compilePieces offset (arguments.map fun a => a.full) =
      .ok (arguments.map fun a => a.plan) := by
  induction arguments generalizing offset with
  | nil => rfl
  | cons a arguments ih =>
    rw [List.map_cons, Statement.compilePieces, Passage.allBlank_full a.filled,
      if_neg Bool.false_ne_true, Plan.compile_eq_ok a.ofText_full, ih]
    rfl

/-- The text between the parentheses of a call falls into its arguments. -/
theorem compilePieces_argumentText (offset : Nat) (inner : Gap) (arguments : List Argument) :
    Statement.compilePieces offset ((argumentText inner arguments).splitOn ',') =
      .ok (arguments.map fun a => a.plan) := by
  unfold argumentText
  cases arguments with
  | nil =>
    rw [List.isEmpty_nil, if_pos rfl, List.splitOn_eq_singleton (not_mem_of_all inner.blank (by decide)),
      Statement.compilePieces, if_pos inner.blank]
    rfl
  | cons a arguments =>
    have hno : ∀ text ∈ (a :: arguments).map (fun a => a.full), ',' ∉ text := by
      intro text ht
      obtain ⟨b, _, rfl⟩ := List.mem_map.mp ht
      exact b.not_mem_full
    rw [List.isEmpty_cons, if_neg Bool.false_ne_true, List.splitOn_intercalate ',' hno (by simp)]
    exact compilePieces_arguments offset (a :: arguments)

theorem PrintedCall.readCall_eq {φ : Type} {registry : NameTable φ} (c : PrintedCall registry) :
    Statement.readCall registry (c.name.text ++ (c.afterName.text ++
        ('(' :: (argumentText c.inner c.arguments ++ [')'])))) =
      .ok (String.ofList c.name.text, c.function, c.arguments.map fun a => a.plan) := by
  have hfirst : cutFirst? '(' (c.name.text ++ (c.afterName.text ++
      ('(' :: (argumentText c.inner c.arguments ++ [')'])))) =
      some (c.name.text ++ c.afterName.text, argumentText c.inner c.arguments ++ [')']) :=
    cutFirst?_eq_some_iff.mpr ⟨(List.append_assoc _ _ _).symm,
      c.name.isName.not_mem_append c.afterName.blank (by decide) (by decide)⟩
  have hlast : cutLast? ')' (argumentText c.inner c.arguments ++ [')']) =
      some (argumentText c.inner c.arguments, []) :=
    cutLast?_eq_some_iff.mpr ⟨rfl, List.not_mem_nil⟩
  unfold Statement.readCall Statement.readArguments
  rw [c.name.isName.leadingName?_append (ends_gap c.afterName ⟨by decide, by decide⟩ _)]
  simp only [c.registered, hfirst, hlast]
  rw [if_pos (show allBlank [] = true from rfl), compilePieces_argumentText]
  rfl

/-! ## Reading conditions -/

theorem words_if (gap : Gap) : words (['i', 'f'] ++ gap.text) = [['i', 'f']] := by
  have : words (['i', 'f'] ++ (gap.text ++ [])) = ['i', 'f'] :: words (gap.text ++ []) :=
    words_append (List.cons_ne_nil _ _) (by decide) gap.blank fun _ => rfl
  rwa [List.append_nil, words_blanks gap.blank] at this

theorem words_elseIfWords_append {between : Gap} (hb : between.text ≠ []) (rest : List Char) :
    words (elseIfWords between ++ rest) = ['e', 'l', 's', 'e'] :: words (['i', 'f'] ++ rest) := by
  unfold elseIfWords
  rw [List.append_assoc, List.append_assoc,
    words_append (List.cons_ne_nil _ _) (by decide) between.blank fun hnil => absurd hnil hb,
    words_blanks_append between.blank]

theorem words_elseIf {between : Gap} (hb : between.text ≠ []) (gap : Gap) :
    words (elseIfWords between ++ gap.text) = [['e', 'l', 's', 'e'], ['i', 'f']] := by
  rw [words_elseIfWords_append hb, words_if]

/-- A condition is read behind the words of its introducer. -/
theorem Clause.readCondition_eq (c : Clause) {introducer : Introducer} {keyword : List Char}
    (hw : (words (keyword ++ c.afterKeyword.text)).map String.ofList = introducer.words)
    (hk : '(' ∉ keyword) :
    Statement.readCondition introducer (keyword ++ (c.afterKeyword.text ++
      ('(' :: (c.condition.full ++ [')'])))) = .ok c.condition.plan := by
  have hfirst : cutFirst? '(' (keyword ++ (c.afterKeyword.text ++
      ('(' :: (c.condition.full ++ [')'])))) =
      some (keyword ++ c.afterKeyword.text, c.condition.full ++ [')']) := by
    refine cutFirst?_eq_some_iff.mpr ⟨(List.append_assoc _ _ _).symm, fun hm => ?_⟩
    rcases List.mem_append.mp hm with hm | hm
    · exact hk hm
    · exact not_mem_of_all c.afterKeyword.blank (by decide) hm
  have hlast : cutLast? ')' (c.condition.full ++ [')']) = some (c.condition.full, []) :=
    cutLast?_eq_some_iff.mpr ⟨rfl, List.not_mem_nil⟩
  have hclosed : ')' ∈ keyword ++ (c.afterKeyword.text ++ ('(' :: (c.condition.full ++ [')']))) := by
    simp
  have hfilled : allBlank c.condition.full = false := Passage.allBlank_full c.condition.filled
  unfold Statement.readCondition
  simp only [hfirst, hlast]
  rw [if_neg (fun h => h hclosed), if_neg (fun h => h hw), if_neg (by decide), hfilled,
    if_neg Bool.false_ne_true, Plan.compile_eq_ok c.condition.ofText_full]

/-! ## Reading fragments -/

section Steps

variable {φ : Type} {registry : NameTable φ} {f : Fragment} {rest : List Fragment}

theorem Fragment.readWith_eq_ok {α : Type} {read : List Char → Except (Located Fault) α} {a : α}
    (h : read f.text = .ok a) : f.readWith read = .ok a := by
  unfold readWith
  rw [h]
  rfl

theorem Block.ofFragments_assignment {target : String} {value : Plan}
    (hk : StatementKind.classify f.text = .ok .assignment)
    (hr : Statement.readAssignment f.text = .ok (target, value)) :
    Block.ofFragments registry (f :: rest) =
      (Block.ofFragments registry rest).map (.cons (.assign target value f.offset)) := by
  rw [Block.ofFragments, Fragment.readWith_eq_ok hk]
  show (f.readWith Statement.readAssignment >>= _) = _
  rw [Fragment.readWith_eq_ok hr]
  rfl

theorem Block.ofFragments_call {name : String} {function : φ} {arguments : List Plan}
    (hk : StatementKind.classify f.text = .ok .call)
    (hr : Statement.readCall registry f.text = .ok (name, function, arguments)) :
    Block.ofFragments registry (f :: rest) =
      (Block.ofFragments registry rest).map (.cons (.call name function arguments f.offset)) := by
  rw [Block.ofFragments, Fragment.readWith_eq_ok hk]
  show (f.readWith (Statement.readCall registry) >>= _) = _
  rw [Fragment.readWith_eq_ok hr]
  rfl

/-- The fragments stand beneath a head, and what is left does not. -/
structure Fragment.Heads (f : Fragment) (inner rest : List Fragment) : Prop where
  deep : ∀ g ∈ inner, f.depth < g.depth
  ne_nil : inner ≠ []
  surfaces : ∀ g, rest.head? = some g → g.depth ≤ f.depth

namespace Fragment.Heads

variable {inner : List Fragment}

theorem beneath_eq (h : f.Heads inner rest) :
    f.beneath (inner ++ rest) = inner ∧ f.beyond (inner ++ rest) = rest := by
  have hdeep : ∀ g ∈ inner, decide (f.depth < g.depth) = true := fun g hg =>
    decide_eq_true (h.deep g hg)
  unfold beneath beyond
  rw [List.takeWhile_append_of_pos hdeep, List.dropWhile_append_of_pos hdeep]
  cases rest with
  | nil => exact ⟨List.append_nil inner, rfl⟩
  | cons g rest =>
    have hg : decide (f.depth < g.depth) = false :=
      decide_eq_false (Nat.not_lt.mpr (h.surfaces g rfl))
    rw [List.takeWhile_cons, List.dropWhile_cons, hg]
    exact ⟨List.append_nil inner, rfl⟩

theorem requireBlock_eq (h : f.Heads inner rest) (introducer : Introducer) :
    f.requireBlock introducer (inner ++ rest) = .ok () := by
  unfold requireBlock
  rw [h.beneath_eq.1, if_neg]
  rw [List.isEmpty_iff]
  exact h.ne_nil

end Fragment.Heads

theorem Block.ofFragments_branch {inner : List Fragment} {condition : Plan} {body : Block φ}
    {otherwise : Otherwise φ} {tail : Except (Located Fault) (Block φ)} (h : f.Heads inner rest)
    (hk : StatementKind.classify f.text = .ok .branch)
    (hc : Statement.readCondition .onIf f.text = .ok condition)
    (hb : Block.ofFragments registry inner = .ok body)
    (ho : Otherwise.ofFragments registry f.depth rest = tail.map (Prod.mk otherwise)) :
    Block.ofFragments registry (f :: (inner ++ rest)) =
      tail.map (.cons (.branch condition body otherwise f.offset)) := by
  rw [Block.ofFragments, Fragment.readWith_eq_ok hk, h.beneath_eq.1, h.beneath_eq.2]
  show (f.requireBlock .onIf (inner ++ rest) >>= _) = _
  rw [h.requireBlock_eq]
  show (f.readWith (Statement.readCondition .onIf) >>= _) = _
  rw [Fragment.readWith_eq_ok hc]
  show (Block.ofFragments registry inner >>= _) = _
  rw [hb]
  show (Otherwise.ofFragments registry f.depth rest >>= _) = _
  rw [ho]
  cases tail with
  | error e => rfl
  | ok tail => rfl

theorem Otherwise.ofFragments_elseIf {depth : Nat} {inner : List Fragment} {condition : Plan}
    {body : Block φ} {otherwise : Otherwise φ} {tail : Except (Located Fault) (Block φ)}
    (hd : f.depth = depth) (h : f.Heads inner rest) (hk : Introducer.isElseIf f.text = true)
    (hc : Statement.readCondition .onElseIf f.text = .ok condition)
    (hb : Block.ofFragments registry inner = .ok body)
    (ho : Otherwise.ofFragments registry depth rest = tail.map (Prod.mk otherwise)) :
    Otherwise.ofFragments registry depth (f :: (inner ++ rest)) =
      tail.map (Prod.mk (.elseIf condition body otherwise)) := by
  rw [Otherwise.ofFragments, hk, decide_eq_true hd, Bool.and_true, if_pos rfl, h.requireBlock_eq,
    h.beneath_eq.1, h.beneath_eq.2]
  show (f.readWith (Statement.readCondition .onElseIf) >>= _) = _
  rw [Fragment.readWith_eq_ok hc]
  show (Block.ofFragments registry inner >>= _) = _
  rw [hb]
  show (Otherwise.ofFragments registry depth rest >>= _) = _
  rw [ho]
  cases tail with
  | error e => rfl
  | ok tail => rfl

theorem Otherwise.ofFragments_else {depth : Nat} {inner : List Fragment} {body : Block φ}
    (hd : f.depth = depth) (h : f.Heads inner rest) (hk : Introducer.isElse f.text = true)
    (hk' : Introducer.isElseIf f.text = false)
    (hb : Block.ofFragments registry inner = .ok body) :
    Otherwise.ofFragments registry depth (f :: (inner ++ rest)) =
      (Block.ofFragments registry rest).map (Prod.mk (.block body)) := by
  rw [Otherwise.ofFragments, hk', hk, Bool.and_false, if_neg Bool.false_ne_true, decide_eq_true hd,
    Bool.and_true, if_pos rfl, h.requireBlock_eq, h.beneath_eq.1, h.beneath_eq.2]
  show (Block.ofFragments registry inner >>= _) = _
  rw [hb]
  rfl

theorem Introducer.isElse_of_isElseIf {text : List Char} (h : isElseIf text = true) :
    isElse text = true := by
  unfold isElseIf at h
  rw [Bool.and_eq_true, Bool.and_eq_true] at h
  obtain ⟨⟨hbegins, hblank⟩, _⟩ := h
  unfold isElse beginsWithKeyword
  rw [hbegins, Bool.true_and, Bool.not_eq_true']
  show (text.drop 4).head?.any isNamePart = false
  cases hd : (text.drop 4).head? with
  | none => rfl
  | some c =>
    rw [hd] at hblank
    exact isNamePart_of_isBlank hblank

/-- No clause of a branch at a depth begins with the fragments, and no block beneath it
goes on there. -/
def Fragment.Follows (depth : Nat) (rest : List Fragment) : Prop :=
  ∀ f, rest.head? = some f → f.depth ≤ depth ∧ Introducer.isElse f.text = false

theorem Otherwise.ofFragments_nothing {depth : Nat}
    (h : ∀ f, rest.head? = some f → f.depth = depth → Introducer.isElse f.text = false) :
    Otherwise.ofFragments registry depth rest =
      (Block.ofFragments registry rest).map (Prod.mk .nothing) := by
  cases rest with
  | nil =>
    rw [Otherwise.ofFragments, Block.ofFragments]
    rfl
  | cons f rest =>
    have helse : (decide (f.depth = depth) && Introducer.isElse f.text) = false := by
      rw [Bool.eq_false_iff]
      intro hk
      rw [Bool.and_eq_true, decide_eq_true_eq] at hk
      exact absurd hk.2 (Bool.eq_false_iff.mp (h f rfl hk.1))
    have helseIf : (decide (f.depth = depth) && Introducer.isElseIf f.text) = false := by
      rw [Bool.eq_false_iff]
      intro hk
      rw [Bool.and_eq_true] at hk
      rw [hk.1, Introducer.isElse_of_isElseIf hk.2] at helse
      cases helse
    rw [Otherwise.ofFragments, helse, helseIf, if_neg Bool.false_ne_true, if_neg Bool.false_ne_true]
    rfl

end Steps

/-! ## Depths of printed fragments -/

variable {φ : Type} {registry : NameTable φ}

theorem Fragment.depth_ofPiece {piece : List Char} {depth start : Nat} :
    ∀ f ∈ ofPiece piece depth start, f.depth = depth := by
  intro f hf
  unfold ofPiece at hf
  split at hf
  · exact absurd hf List.not_mem_nil
  · cases List.mem_singleton.mp hf
    rfl

mutual

theorem PrintedStatement.depth_le (depth start : Nat) : (s : PrintedStatement registry) →
    ∀ f ∈ s.fragments depth start, depth ≤ f.depth
  | .assign _ => fun f hf => Nat.le_of_eq (Fragment.depth_ofPiece f hf).symm
  | .call _ => fun f hf => Nat.le_of_eq (Fragment.depth_ofPiece f hf).symm
  | .branch clause first more closing otherwise => by
    intro f hf
    rcases List.mem_append.mp hf with hf | hf
    · rcases List.mem_append.mp hf with hf | hf
      · exact Nat.le_of_eq (Fragment.depth_ofPiece f hf).symm
      · rcases List.mem_append.mp hf with hf | hf
        · exact Nat.le_of_succ_le (first.depth_le (depth + 1) _ f hf)
        · exact Nat.le_of_succ_le (more.depth_le (depth + 1) _ f hf)
    · exact otherwise.depth_le depth _ f hf

theorem PrintedBlock.depth_le (depth start : Nat) : (b : PrintedBlock registry) →
    ∀ f ∈ b.fragments depth start, depth ≤ f.depth
  | .nil => fun f hf => absurd hf List.not_mem_nil
  | .cons head tail => by
    intro f hf
    rcases List.mem_append.mp hf with hf | hf
    · exact head.depth_le depth start f hf
    · exact tail.depth_le depth _ f hf

theorem PrintedOtherwise.depth_le (depth start : Nat) : (o : PrintedOtherwise registry) →
    ∀ f ∈ o.fragments depth start, depth ≤ f.depth
  | .nothing => fun f hf => absurd hf List.not_mem_nil
  | .block before after first more closing => by
    intro f hf
    rcases List.mem_append.mp hf with hf | hf
    · exact Nat.le_of_eq (Fragment.depth_ofPiece f hf).symm
    · rcases List.mem_append.mp hf with hf | hf
      · exact Nat.le_of_succ_le (first.depth_le (depth + 1) _ f hf)
      · exact Nat.le_of_succ_le (more.depth_le (depth + 1) _ f hf)
  | .elseIf between _ clause first more closing otherwise => by
    intro f hf
    rcases List.mem_append.mp hf with hf | hf
    · rcases List.mem_append.mp hf with hf | hf
      · exact Nat.le_of_eq (Fragment.depth_ofPiece f hf).symm
      · rcases List.mem_append.mp hf with hf | hf
        · exact Nat.le_of_succ_le (first.depth_le (depth + 1) _ f hf)
        · exact Nat.le_of_succ_le (more.depth_le (depth + 1) _ f hf)
    · exact otherwise.depth_le depth _ f hf

end

theorem Identifier.isElse_append (name : Identifier) {rest : List Char} (h : Ends rest) :
    Introducer.isElse (name.text ++ rest) = false :=
  name.beginsWithKeyword_append (by decide) name.not_else h

theorem Introducer.isElse_if {rest : List Char} (h : Ends rest) :
    isElse (['i', 'f'] ++ rest) = false :=
  beginsWithKeyword_of_ne (by decide) (takeWhile_isNamePart (by decide) h) (by decide)

theorem Introducer.classify_if {rest : List Char} (h : NameStops rest) :
    StatementKind.classify (['i', 'f'] ++ rest) = .ok .branch := by
  have hk : beginsWithKeyword ['i', 'f'] (['i', 'f'] ++ rest) = true :=
    (beginsWithKeyword_iff (by decide)).mpr (h.takeWhile_append (by decide))
  unfold StatementKind.classify
  rw [hk, if_pos rfl]

theorem drop_elseIfWords_append (between : Gap) (rest : List Char) :
    (elseIfWords between ++ rest).drop 4 = between.text ++ (['i', 'f'] ++ rest) := by
  unfold elseIfWords
  rw [List.append_assoc, List.append_assoc]
  rfl

theorem Introducer.isElseIf_words {between : Gap} (hb : between.text ≠ []) {rest : List Char}
    (h : NameStops rest) : isElseIf (elseIfWords between ++ rest) = true := by
  obtain ⟨c, more, htext⟩ := List.exists_cons_of_ne_nil hb
  have hblank : isBlank c = true := List.all_eq_true.mp between.blank c (htext ▸ List.mem_cons_self)
  have hk : beginsWithKeyword ['i', 'f'] (['i', 'f'] ++ rest) = true :=
    (beginsWithKeyword_iff (by decide)).mpr (h.takeWhile_append (by decide))
  have htrim : trimStart (between.text ++ (['i', 'f'] ++ rest)) = ['i', 'f'] ++ rest :=
    trimStart_append between.blank (by decide) _
  unfold isElseIf
  rw [drop_elseIfWords_append, htrim, hk, htext, List.cons_append, List.head?_cons, Option.any_some, hblank]
  rfl

theorem not_mem_elseIfWords (between : Gap) : '(' ∉ elseIfWords between := by
  intro hm
  rcases List.mem_append.mp hm with hm | hm
  · exact absurd hm (by decide)
  · rcases List.mem_append.mp hm with hm | hm
    · exact not_mem_of_all between.blank (by decide) hm
    · exact absurd hm (by decide)

theorem PrintedStatement.fragments_eq_cons (depth start : Nat) (s : PrintedStatement registry) :
    ∃ f rest, s.fragments depth start = f :: rest ∧ f.depth = depth ∧
      Introducer.isElse f.text = false := by
  cases s with
  | assign a =>
    refine ⟨_, [], a.ofPiece_head depth start, rfl, ?_⟩
    exact a.name.isElse_append (ends_gap a.afterName ⟨by decide, by decide⟩ _)
  | call c =>
    refine ⟨_, [], c.ofPiece_head depth start, rfl, ?_⟩
    exact c.name.isElse_append (ends_gap c.afterName ⟨by decide, by decide⟩ _)
  | branch clause first more closing otherwise =>
    rw [fragments, clause.ofPiece_head (by decide), List.append_assoc, List.singleton_append]
    refine ⟨_, _, rfl, rfl, ?_⟩
    exact Introducer.isElse_if (ends_gap clause.afterKeyword ⟨by decide, by decide⟩ _)

theorem PrintedBlock.follows (depth start : Nat) (b : PrintedBlock registry) :
    Fragment.Follows depth (b.fragments depth start) := by
  cases b with
  | nil => exact fun f hf => nomatch hf
  | cons head tail =>
    obtain ⟨f, rest, hfrag, hdepth, helse⟩ := head.fragments_eq_cons depth start
    intro g hg
    rw [fragments, hfrag] at hg
    cases hg
    exact ⟨Nat.le_of_eq hdepth, helse⟩

/-- Behind the block of a branch nothing stands deeper than the branch. -/
theorem PrintedOtherwise.surfaces (depth start : Nat) (o : PrintedOtherwise registry)
    {rest : List Fragment} (hr : Fragment.Follows depth rest) :
    ∀ g, (o.fragments depth start ++ rest).head? = some g → g.depth ≤ depth := by
  intro g hg
  cases o with
  | nothing => exact (hr g hg).1
  | block before after first more closing =>
    rw [fragments, ofPiece_elseHead] at hg
    cases hg
    exact Nat.le_refl _
  | elseIf between hb clause first more closing otherwise =>
    rw [fragments, clause.ofPiece_elseIf] at hg
    cases hg
    exact Nat.le_refl _

/-- The statements between the braces of a clause stand beneath its head. -/
theorem PrintedStatement.heads {f : Fragment} {rest : List Fragment}
    (hr : ∀ g, rest.head? = some g → g.depth ≤ f.depth) (first : PrintedStatement registry)
    (more : PrintedBlock registry) (inside next : Nat) :
    f.Heads (first.fragments (f.depth + 1) inside ++ more.fragments (f.depth + 1) next) rest where
  deep := by
    intro g hg
    rcases List.mem_append.mp hg with hg | hg
    · exact first.depth_le (f.depth + 1) inside g hg
    · exact more.depth_le (f.depth + 1) next g hg
  ne_nil := by
    obtain ⟨g, gs, hfirst, _⟩ := first.fragments_eq_cons (f.depth + 1) inside
    rw [hfirst]
    exact List.cons_ne_nil _ _
  surfaces := hr

/-! ## Reading printed programs -/

mutual

/-- Reading the fragments of a statement puts it in front of what is read behind it. -/
theorem PrintedStatement.reads (depth start : Nat) {rest : List Fragment}
    (hr : Fragment.Follows depth rest) : (s : PrintedStatement registry) →
    Block.ofFragments registry (s.fragments depth start ++ rest) =
      (Block.ofFragments registry rest).map (.cons (s.statement start))
  | .assign a => by
    rw [PrintedStatement.fragments, a.ofPiece_head]
    exact Block.ofFragments_assignment (a.name.classify_append a.afterName (Or.inl ⟨rfl, rfl⟩))
      a.readAssignment_eq
  | .call c => by
    rw [PrintedStatement.fragments, c.ofPiece_head]
    exact Block.ofFragments_call (c.name.classify_append c.afterName (Or.inr ⟨rfl, rfl⟩))
      c.readCall_eq
  | .branch clause first more closing otherwise => by
    rw [PrintedStatement.fragments, clause.ofPiece_head (by decide), List.append_assoc,
      List.append_assoc, List.singleton_append]
    refine Block.ofFragments_branch
      (PrintedStatement.heads (otherwise.surfaces depth _ hr) first more _ _) ?_ ?_ ?_ ?_
    · exact Introducer.classify_if
        (ends_gap clause.afterKeyword ⟨by decide, by decide⟩ _).nameStops
    · exact clause.readCondition_eq (by rw [words_if]; rfl) (by decide)
    · rw [first.reads (depth + 1) _ (more.follows (depth + 1) _), more.reads (depth + 1)]
      rfl
    · exact otherwise.reads depth _ hr

theorem PrintedBlock.reads (depth start : Nat) : (b : PrintedBlock registry) →
    Block.ofFragments registry (b.fragments depth start) = .ok (b.block start)
  | .nil => by rw [PrintedBlock.fragments, Block.ofFragments, PrintedBlock.block]
  | .cons head tail => by
    rw [PrintedBlock.fragments, head.reads depth start (tail.follows depth _), tail.reads depth]
    rfl

theorem PrintedOtherwise.reads (depth start : Nat) {rest : List Fragment}
    (hr : Fragment.Follows depth rest) : (o : PrintedOtherwise registry) →
    Otherwise.ofFragments registry depth (o.fragments depth start ++ rest) =
      (Block.ofFragments registry rest).map (Prod.mk (o.otherwise start))
  | .nothing => Otherwise.ofFragments_nothing fun f hf _ => (hr f hf).2
  | .block before after first more closing => by
    rw [PrintedOtherwise.fragments, ofPiece_elseHead, List.append_assoc, List.singleton_append]
    refine Otherwise.ofFragments_else rfl
      (PrintedStatement.heads (fun g hg => (hr g hg).1) first more _ _) rfl rfl ?_
    rw [first.reads (depth + 1) _ (more.follows (depth + 1) _), more.reads (depth + 1)]
    rfl
  | .elseIf between hb clause first more closing otherwise => by
    rw [PrintedOtherwise.fragments, clause.ofPiece_elseIf, List.append_assoc, List.append_assoc,
      List.singleton_append]
    refine Otherwise.ofFragments_elseIf rfl
      (PrintedStatement.heads (otherwise.surfaces depth _ hr) first more _ _) ?_ ?_ ?_ ?_
    · exact Introducer.isElseIf_words hb
        (ends_gap clause.afterKeyword ⟨by decide, by decide⟩ _).nameStops
    · exact clause.readCondition_eq (by rw [words_elseIf hb]; rfl) (not_mem_elseIfWords between)
    · rw [first.reads (depth + 1) _ (more.follows (depth + 1) _), more.reads (depth + 1)]
      rfl
    · exact otherwise.reads depth _ hr

end

/-- Parsing a printed program, with blanks behind it, gives the block that it stands
for. -/
theorem PrintedBlock.parse_text (program : PrintedBlock registry) (after : Gap) :
    Block.parse registry (program.text ++ after.text) = .ok (program.block 0) := by
  have hsplit : Fragment.split (program.text ++ after.text) = .ok (program.fragments 0 0) := by
    have hend : Fragment.splitFrom (0 + program.text.length) 0 [] after.text = .ok [] := by
      have hplain := Fragment.splitFrom_plain (Fragment.plain_gap after) (0 + program.text.length) 0 [] []
      rw [List.append_nil, List.append_nil, Fragment.splitFrom, if_pos rfl, List.reverse_reverse,
        Fragment.ofPiece_gap] at hplain
      exact hplain
    unfold Fragment.split
    rw [program.splits 0 0, hend]
    show Except.ok (program.fragments 0 0 ++ []) = _
    rw [List.append_nil]
  unfold Block.parse
  rw [hsplit]
  exact program.reads 0 0

/-- An `if` with an empty statement in its block, and an `else` with a call. -/
theorem PrintedBlock.parse_text_if_else :
    Block.parse (NameTable.ofList [("f", ())])
        ['i', 'f', ' ', '(', 'x', ')', '{', ' ', 'x', '=', '!', 'x', ';', ' ', ';', '}',
          'e', 'l', 's', 'e', '{', 'f', '(', 'x', ',', ' ', '!', 'x', ')', ';', '}'] =
      .ok (.cons (.branch ⟨[⟨none, none, some (.variable "x")⟩]⟩
        (.cons (.assign "x" ⟨[⟨some .logicalNot, none, some (.variable "x")⟩]⟩ 8) .nil)
        (.block (.cons (.call "f" () [⟨[⟨none, none, some (.variable "x")⟩]⟩,
          ⟨[⟨some .logicalNot, none, some (.variable "x")⟩]⟩] 21) .nil)) 0) .nil) := by
  let nothing : Gap := ⟨[], rfl⟩
  let blank : Gap := ⟨[' '], by decide⟩
  let x : Passage :=
    ⟨nothing, ['x'], nothing, ⟨[⟨none, none, some (.variable "x")⟩]⟩, by cbv, by simp⟩
  let negated : Passage :=
    ⟨nothing, ['!', 'x'], nothing, ⟨[⟨some .logicalNot, none, some (.variable "x")⟩]⟩, by cbv, by simp⟩
  let assignment : PrintedAssignment :=
    ⟨blank, ⟨['x'], ⟨'x', [], rfl, by decide, rfl⟩, by decide, by decide⟩, nothing, negated, [blank]⟩
  let call : PrintedCall (NameTable.ofList [("f", ())]) :=
    ⟨nothing, ⟨['f'], ⟨'f', [], rfl, by decide, rfl⟩, by decide, by decide⟩, (), rfl, nothing, nothing,
      [⟨x, by decide, by decide⟩, ⟨{ negated with before := blank }, by decide, by decide⟩], nothing, []⟩
  exact PrintedBlock.parse_text (.cons (.branch ⟨nothing, blank, ⟨x, by decide⟩, nothing⟩
    (.assign assignment) .nil nothing (.block nothing nothing (.call call) .nil nothing)) .nil) nothing

end DialogueScript
