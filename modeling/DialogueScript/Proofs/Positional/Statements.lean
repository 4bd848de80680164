import DialogueScript.Proofs.Positional.Planner
import DialogueScript.Statement.Reader

/-!
# Statements by positions

A statement read by byte positions in its text: the end of its name, its first `=` or `(` and
its last `)` are searched for, and the parts between them are cut out as slices of bytes. The
characters searched for are one byte long, so the position behind one of them is again a place
between two characters.

Main statements: `classify_eq`, `readAssignment_eq`, `readCall_eq` and `readCondition_eq`. Each
reader comes to an end on every text with every slice in range, in order and between
characters, and reads what the reader on lists reads.
-/

namespace DialogueScript.Positional

open Text

/-! ## Readers -/

/-- The byte position behind the name that a text begins with. -/
def nameEnd? : List Char → Option Nat
  | [] => none
  | c :: rest =>
    if isNameStart c then
      some ((findByteFrom? (!isNamePart ·) c.utf8Size rest).getD (byteLength (c :: rest)))
    else none

def classify (text : List Char) : Reading StatementKind :=
  if beginsWithKeyword ['i', 'f'] text then return .branch
  else
    match nameEnd? text with
    | none => throw (.atChar (.namelessStatement (String.ofList text)) 0)
    | some stop => do
      let afterName ← checked (from? text stop)
      match (trimStart afterName).head? with
      | some '=' => return .assignment
      | some '(' => return .call
      | _ => throw (.atChar (.unknownStatement (String.ofList text)) 0)

def readAssignment (text : List Char) : Reading (String × Plan) :=
  match nameEnd? text with
  | none => throw (.atChar .invalidVariableName 0)
  | some stop =>
    match findByte? '=' text with
    | none => throw (.atChar .missingAssignmentSign 0)
    | some sign => do
      let value ← checked (from? text (sign + 1))
      let offset ← checked (charOffset? text (sign + 1))
      let plan ← compileText value offset
      let name ← checked (before? text stop)
      return (String.ofList name, plan)

/-- Compiles the pieces between the commas of a call, the first of which stands at a byte
position of its text. -/
def compilePieces (text : List Char) (start : Nat) : List (List Char) → Reading (List Plan)
  | [] => return []
  | piece :: rest =>
    if allBlank piece then compilePieces text (start + byteLength piece + 1) rest
    else do
      let offset ← checked (charOffset? text start)
      let plan ← compileText piece offset
      let plans ← compilePieces text (start + byteLength piece + 1) rest
      return plan :: plans

def readArguments (text : List Char) : Reading (List Plan) :=
  match findByte? '(' text with
  | none => throw (.atChar .missingCallParentheses 0)
  | some left =>
    match findLastByte? ')' text with
    | none => throw (.atChar .missingCallParentheses 0)
    | some right =>
      if right < left then throw (.atChar .missingCallParentheses 0)
      else do
        let trailing ← checked (from? text (right + 1))
        if allBlank trailing then
          let inside ← checked (between? text (left + 1) right)
          if allBlank inside then return []
          else compilePieces text (left + 1) (inside.splitOn ',')
        else
          let offset ← checked (charOffset? text (right + 1))
          throw (.atChar (.textAfterCall (String.ofList (trim trailing)))
            (offset + leadingBlanks trailing))

def readCall {φ : Type} (registry : NameTable φ) (text : List Char) :
    Reading (String × φ × List Plan) :=
  match nameEnd? text with
  | none => throw (.atChar .invalidFunctionName 0)
  | some stop => do
    let name ← checked (before? text stop)
    match registry.find? (String.ofList name) with
    | none => throw (.atChar (.unknownFunction (String.ofList name)) 0)
    | some function =>
      let arguments ← readArguments text
      return (String.ofList name, function, arguments)

def readCondition (introducer : Introducer) (text : List Char) : Reading Plan :=
  match findByte? '(' text with
  | none => throw (.atChar .missingConditionStart 0)
  | some left =>
    match findLastByte? ')' text with
    | none => throw (.atChar .missingConditionEnd 0)
    | some right =>
      if right < left then throw (.atChar .invertedCondition 0)
      else do
        let front ← checked (before? text left)
        if (words front).map String.ofList ≠ introducer.words then
          throw (.atChar (.textBeforeCondition introducer) 0)
        else
          let trailing ← checked (from? text (right + 1))
          if !allBlank trailing then
            let offset ← checked (charOffset? text (right + 1))
            throw (.atChar (.textAfterCondition introducer) (offset + leadingBlanks trailing))
          else
            let inside ← checked (between? text (left + 1) right)
            if allBlank inside then
              let offset ← checked (charOffset? text left)
              throw (.atChar .emptyCondition offset)
            else
              let offset ← checked (charOffset? text (left + 1))
              compileText inside offset

/-! ## Names -/

theorem nameEnd?_eq (text : List Char) :
    nameEnd? text = (leadingName? text).map fun cut => byteLength cut.1 := by
  cases text with
  | nil => rfl
  | cons c rest =>
    rw [nameEnd?, leadingName?]
    split
    · rw [byteLength_cons, findByteFrom?_getD, Option.map_some, byteLength_cons]
    · rfl

theorem before?_of_leadingName? {text name rest : List Char}
    (h : leadingName? text = some (name, rest)) :
    before? text (byteLength name) = some name := by
  obtain ⟨rfl, _⟩ := leadingName?_eq_some h
  exact before?_append _ _

theorem classify_eq (text : List Char) : classify text = done (StatementKind.classify text) := by
  unfold classify StatementKind.classify
  rw [nameEnd?_eq]
  split
  · rfl
  · cases h : leadingName? text with
    | none => rfl
    | some cut =>
      obtain ⟨name, afterName⟩ := cut
      obtain ⟨rfl, _⟩ := leadingName?_eq_some h
      simp only [Option.map_some, from?_append, checked_some, done_ok_bind]
      generalize (trimStart afterName).head? = first
      split
      · rfl
      · rfl
      · simp

/-! ## Marks -/

/-- The position behind a mark of one byte. -/
theorem byteLength_concat (mark : Char) (hm : mark.utf8Size = 1) (front : List Char) :
    byteLength front + 1 = byteLength (front ++ [mark]) := by
  rw [byteLength_append, byteLength_cons, byteLength_nil, hm]

theorem readAssignment_eq (text : List Char) :
    readAssignment text = done (Statement.readAssignment text) := by
  unfold readAssignment Statement.readAssignment
  rw [nameEnd?_eq, findByte?_eq]
  cases hname : leadingName? text with
  | none => rfl
  | some cut =>
    obtain ⟨name, afterName⟩ := cut
    have hbefore := before?_of_leadingName? hname
    cases hsign : cutFirst? '=' text with
    | none => rfl
    | some cut =>
      obtain ⟨front, value⟩ := cut
      obtain ⟨htext, _⟩ := cutFirst?_eq_some_iff.mp hsign
      have htext' : text = (front ++ ['=']) ++ value := by simpa using htext
      have hsize : byteLength front + 1 = byteLength (front ++ ['=']) := byteLength_concat '=' rfl _
      simp only [Option.map_some, hbefore, hsize, compileText_eq]
      rw [htext', from?_append, charOffset?_append]
      simp only [checked_some, done_ok_bind, List.length_append, List.length_singleton]
      exact done_bind_pure _ _

/-! ## Parentheses -/

/-- What the first `(` and the last `)` of a text, at two byte positions, cut out of it. -/
structure Encloses (text before inside trailing : List Char) (left right : Nat) : Prop where
  ordered : ¬right < left
  before_eq : before? text left = some before
  inside_eq : between? text (left + 1) right = some inside
  trailing_eq : from? text (right + 1) = some trailing
  left_offset : charOffset? text left = some before.length
  inside_offset : charOffset? text (left + 1) = some (before.length + 1)
  trailing_offset : charOffset? text (right + 1) = some (before.length + 1 + inside.length + 1)

section

variable {text before rest inside trailing : List Char}

/-- A `)` behind the first `(` encloses a text with it. -/
theorem encloses_of_cuts (hfirst : cutFirst? '(' text = some (before, rest))
    (hlast : cutLast? ')' rest = some (inside, trailing)) :
    ∃ right, findLastByte? ')' text = some right ∧
      Encloses text before inside trailing (byteLength before) right := by
  obtain ⟨rfl, _⟩ := cutFirst?_eq_some_iff.mp hfirst
  obtain ⟨rfl, hfree⟩ := cutLast?_eq_some_iff.mp hlast
  have hright : cutLast? ')' (before ++ '(' :: (inside ++ ')' :: trailing)) =
      some (before ++ '(' :: inside, trailing) :=
    cutLast?_eq_some_iff.mpr ⟨by simp, hfree⟩
  refine ⟨byteLength (before ++ '(' :: inside), by rw [findLastByte?_eq, hright]; rfl, ?_⟩
  have hopen := byteLength_concat '(' rfl before
  have hclose := byteLength_concat ')' rfl (before ++ '(' :: inside)
  have hinside : before ++ '(' :: (inside ++ ')' :: trailing) =
      before ++ ['('] ++ (inside ++ ')' :: trailing) := by simp
  have htrailing : before ++ '(' :: (inside ++ ')' :: trailing) =
      before ++ '(' :: inside ++ [')'] ++ trailing := by simp
  have hfront : before ++ '(' :: inside = before ++ ['('] ++ inside := by simp
  refine ⟨?_, before?_append _ _, ?_, ?_, charOffset?_append _ _, ?_, ?_⟩
  · rw [byteLength_append]
    omega
  · rw [hopen, hinside, hfront]
    exact between?_append _ _ _
  · rw [hclose, htrailing]
    exact from?_append _ _
  · rw [hopen, hinside, charOffset?_append, List.length_append, List.length_singleton]
  · rw [hclose, htrailing, charOffset?_append]
    simp
    omega

/-- Without one, the last `)` stands before the first `(`. -/
theorem findLastByte?_lt (hfirst : cutFirst? '(' text = some (before, rest))
    (hlast : cutLast? ')' rest = none) {right : Nat} (hright : findLastByte? ')' text = some right) :
    right < byteLength before := by
  obtain ⟨rfl, _⟩ := cutFirst?_eq_some_iff.mp hfirst
  have hfree := cutLast?_eq_none_iff.mp hlast
  rw [findLastByte?_eq] at hright
  obtain ⟨⟨front, back⟩, hcut, rfl⟩ := Option.map_eq_some_iff.mp hright
  obtain ⟨htext, _⟩ := cutLast?_eq_some_iff.mp hcut
  rcases List.append_eq_append_iff.mp htext with ⟨more, rfl, hmore⟩ | ⟨more, rfl, hmore⟩
  · cases more with
    | nil => exact nomatch hmore
    | cons c more =>
      rw [List.cons_append, List.cons.injEq] at hmore
      exact absurd (hmore.2 ▸ by simp) hfree
  · cases more with
    | nil => exact nomatch hmore
    | cons c more =>
      have hpos := c.utf8Size_pos
      show byteLength front < byteLength (front ++ c :: more)
      rw [byteLength_append, byteLength_cons]
      omega

theorem findLastByte?_eq_none_iff {mark : Char} :
    findLastByte? mark text = none ↔ mark ∉ text := by
  rw [findLastByte?_eq, Option.map_eq_none_iff, cutLast?_eq_none_iff]

theorem mem_of_findLastByte? {mark : Char} {right : Nat} (h : findLastByte? mark text = some right) :
    mark ∈ text := by
  by_contra hn
  exact nomatch (findLastByte?_eq_none_iff.mpr hn).symm.trans h

/-! ## Arguments -/

/-- The pieces between commas, behind a front. -/
theorem compilePieces_eq (front : List Char) (pieces : List (List Char)) (back : List Char) :
    compilePieces (front ++ ([','].intercalate pieces ++ back)) (byteLength front) pieces =
      done (Statement.compilePieces front.length pieces) := by
  induction pieces generalizing front with
  | nil => rfl
  | cons piece rest ih =>
    generalize htext : front ++ ([','].intercalate (piece :: rest) ++ back) = text
    have hoffset : charOffset? text (byteLength front) = some front.length :=
      htext ▸ charOffset?_append _ _
    have hnext : compilePieces text (byteLength front + byteLength piece + 1) rest =
        done (Statement.compilePieces (front.length + piece.length + 1) rest) := by
      cases rest with
      | nil => rfl
      | cons next rest =>
        have hlen : (front ++ piece ++ [',']).length = front.length + piece.length + 1 := by
          rw [List.length_append, List.length_append, List.length_singleton]
        have hsize : byteLength front + byteLength piece + 1 =
            byteLength (front ++ piece ++ [',']) := by
          rw [← byteLength_concat ',' rfl, byteLength_append]
        have hjoin : front ++ piece ++ [','] ++ ([','].intercalate (next :: rest) ++ back) =
            text := by
          rw [← htext, List.intercalate_cons_cons]
          simp only [List.append_assoc]
        rw [hsize, ← hlen, ← hjoin]
        exact ih _
    rw [compilePieces, Statement.compilePieces, hoffset, hnext]
    split
    · rfl
    · simp only [checked_some, compileText_eq, pure_eq_done, done_bind_done]
      rfl

theorem compilePieces_blank {text : List Char} (h : allBlank text = true) (offset : Nat) :
    Statement.compilePieces offset (text.splitOn ',') = .ok [] := by
  rw [List.splitOn_eq_singleton (not_mem_of_all h (by decide)), Statement.compilePieces, if_pos h]
  rfl

theorem readArguments_eq (text : List Char) :
    readArguments text = done (Statement.readArguments text) := by
  unfold readArguments Statement.readArguments
  rw [findByte?_eq]
  cases hfirst : cutFirst? '(' text with
  | none => rfl
  | some cut =>
    obtain ⟨before, rest⟩ := cut
    simp only [Option.map_some]
    cases hlast : cutLast? ')' rest with
    | none =>
      split
      · rfl
      · next right hright =>
        rw [if_pos (findLastByte?_lt hfirst hlast hright)]
        rfl
    | some cut =>
      obtain ⟨inside, trailing⟩ := cut
      obtain ⟨right, hright, h⟩ := encloses_of_cuts hfirst hlast
      simp only [hright, if_neg h.ordered, h.trailing_eq, h.inside_eq, h.trailing_offset, checked_some,
        done_ok_bind]
      split
      · split
        · next hblank =>
          rw [compilePieces_blank hblank]
          rfl
        · obtain ⟨rfl, _⟩ := cutFirst?_eq_some_iff.mp hfirst
          obtain ⟨rfl, _⟩ := cutLast?_eq_some_iff.mp hlast
          have hpieces := compilePieces_eq (before ++ ['(']) (inside.splitOn ',') (')' :: trailing)
          rw [List.intercalate_splitOn, ← byteLength_concat '(' rfl] at hpieces
          simpa using hpieces
      · rfl

theorem readCall_eq {φ : Type} (registry : NameTable φ) (text : List Char) :
    readCall registry text = done (Statement.readCall registry text) := by
  unfold readCall Statement.readCall
  rw [nameEnd?_eq]
  cases hname : leadingName? text with
  | none => rfl
  | some cut =>
    obtain ⟨name, afterName⟩ := cut
    have hbefore := before?_of_leadingName? hname
    simp only [Option.map_some, hbefore, checked_some, done_ok_bind, readArguments_eq]
    cases registry.find? (String.ofList name) with
    | none => rfl
    | some function => exact done_bind_pure _ _

theorem readCondition_eq (introducer : Introducer) (text : List Char) :
    readCondition introducer text = done (Statement.readCondition introducer text) := by
  unfold readCondition Statement.readCondition
  rw [findByte?_eq]
  cases hfirst : cutFirst? '(' text with
  | none => rfl
  | some cut =>
    obtain ⟨before, rest⟩ := cut
    simp only [Option.map_some]
    cases hlast : cutLast? ')' rest with
    | none =>
      split
      · next hnone =>
        rw [if_pos (findLastByte?_eq_none_iff.mp hnone)]
        rfl
      · next right hright =>
        rw [if_pos (findLastByte?_lt hfirst hlast hright),
          if_neg (not_not.mpr (mem_of_findLastByte? hright))]
        rfl
    | some cut =>
      obtain ⟨inside, trailing⟩ := cut
      obtain ⟨right, hright, h⟩ := encloses_of_cuts hfirst hlast
      have hmem := not_not.mpr (mem_of_findLastByte? hright)
      simp only [hright, if_neg h.ordered, if_neg hmem, h.before_eq, h.trailing_eq, h.inside_eq,
        h.left_offset, h.inside_offset, h.trailing_offset, checked_some, done_ok_bind, compileText_eq]
      split
      · rfl
      split
      · rfl
      split
      · rfl
      · rfl

end

end DialogueScript.Positional
