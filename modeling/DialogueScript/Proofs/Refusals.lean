import DialogueScript.Proofs.ExpressionFaults
import DialogueScript.Statement.Reader

/-!
# Why a statement is refused

A statement is classified by its beginning and then read for its kind, and either step gives up
at the first thing that the text lacks or has too much of. The relations here list the ways in
which that happens, one constructor for each, with what the text looks like then. What holds of
the faults of a statement is shown by going through them, and no reader has to be taken apart for
it again.

Main statements:
1. `StatementKind.classify_error`, `Statement.readAssignment_error`, `Statement.readCall_error`
   and `Statement.readCondition_error`: a text is refused in one of the listed ways.
2. `Statement.ConditionFault.readCondition_eq`: each of those listed for conditions does occur.
-/

namespace DialogueScript

open Text

variable {text : List Char} {e : Located Fault}

/-! ## Kinds -/

namespace StatementKind

/-- Why a text is taken for no statement. -/
inductive KindFault (text : List Char) : Located Fault → Prop
  | nameless : beginsWithKeyword ['i', 'f'] text = false → leadingName? text = none →
      KindFault text (.atChar (.namelessStatement (String.ofList text)) 0)
  | unknown {name afterName : List Char} : beginsWithKeyword ['i', 'f'] text = false →
      leadingName? text = some (name, afterName) → (trimStart afterName).head? ≠ some '=' →
      (trimStart afterName).head? ≠ some '(' →
      KindFault text (.atChar (.unknownStatement (String.ofList text)) 0)

theorem classify_error (h : classify text = .error e) : KindFault text e := by
  unfold classify at h
  split at h
  · exact nomatch h
  next hkeyword =>
  have hkeyword := Bool.eq_false_iff.mpr hkeyword
  split at h
  · next hname =>
    cases h
    exact .nameless hkeyword hname
  next name afterName hname =>
  split at h
  · exact nomatch h
  · exact nomatch h
  · next hequals hopen =>
    cases h
    exact .unknown hkeyword hname hequals hopen

end StatementKind

namespace Statement

/-! ## Assignments -/

inductive AssignmentFault (text : List Char) : Located Fault → Prop
  | nameless : leadingName? text = none → AssignmentFault text (.atChar .invalidVariableName 0)
  | signless : cutFirst? '=' text = none → AssignmentFault text (.atChar .missingAssignmentSign 0)
  | value {before value : List Char} {e : Located Fault} :
      cutFirst? '=' text = some (before, value) →
      Plan.compile value (before.length + 1) = .error e → AssignmentFault text e

theorem readAssignment_error (h : readAssignment text = .error e) : AssignmentFault text e := by
  unfold readAssignment at h
  split at h
  · next hname =>
    cases h
    exact .nameless hname
  split at h
  · next hcut =>
    cases h
    exact .signless hcut
  next before value hcut =>
  cases hvalue : Plan.compile value (before.length + 1) with
  | ok plan =>
    rw [hvalue] at h
    exact nomatch h
  | error e' =>
    rw [hvalue] at h
    cases h
    exact .value hcut hvalue

/-! ## Calls -/

/-- Where compiling pieces fails, it fails at the first piece that is refused. -/
theorem compilePieces_error {offset : Nat} {pieces : List (List Char)}
    (h : compilePieces offset pieces = .error e) :
    ∃ front t back, pieces = front ++ t :: back ∧ allBlank t = false ∧
      Plan.compile t (offset + (front.map fun piece => piece.length + 1).sum) = .error e := by
  induction pieces generalizing offset with
  | nil => exact nomatch h
  | cons piece rest ih =>
    have hnext : compilePieces (offset + piece.length + 1) rest = .error e →
        ∃ front t back, piece :: rest = front ++ t :: back ∧ allBlank t = false ∧
          Plan.compile t (offset + (front.map fun piece => piece.length + 1).sum) = .error e := by
      intro h
      obtain ⟨front, t, back, rfl, hblank, hcompile⟩ := ih h
      refine ⟨piece :: front, t, back, rfl, hblank, ?_⟩
      rwa [List.map_cons, List.sum_cons, ← Nat.add_assoc, ← Nat.add_assoc]
    rw [compilePieces] at h
    split at h
    · exact hnext h
    · next hblank =>
      cases hc : Plan.compile piece offset with
      | error e' =>
        rw [hc] at h
        cases h
        exact ⟨[], piece, rest, rfl, Bool.not_eq_true _ ▸ hblank, hc⟩
      | ok plan =>
        rw [hc] at h
        cases hr : compilePieces (offset + piece.length + 1) rest with
        | error e' =>
          simp only [hr] at h
          cases h
          exact hnext hr
        | ok plans =>
          simp only [hr] at h
          exact nomatch h

inductive ArgumentsFault (text : List Char) : Located Fault → Prop
  | unopened : cutFirst? '(' text = none →
      ArgumentsFault text (.atChar .missingCallParentheses 0)
  | unclosed {before rest : List Char} : cutFirst? '(' text = some (before, rest) →
      cutLast? ')' rest = none → ArgumentsFault text (.atChar .missingCallParentheses 0)
  | trailing {before rest inside trailing : List Char} : cutFirst? '(' text = some (before, rest) →
      cutLast? ')' rest = some (inside, trailing) → allBlank trailing = false →
      ArgumentsFault text (.atChar (.textAfterCall (String.ofList (trim trailing)))
        (before.length + 1 + inside.length + 1 + leadingBlanks trailing))
  | argument {before rest inside trailing t : List Char} {front back : List (List Char)}
      {e : Located Fault} : cutFirst? '(' text = some (before, rest) →
      cutLast? ')' rest = some (inside, trailing) → inside.splitOn ',' = front ++ t :: back →
      allBlank t = false →
      Plan.compile t (before.length + 1 + (front.map fun piece => piece.length + 1).sum) =
        .error e → ArgumentsFault text e

theorem readArguments_of_unclosed {before rest : List Char}
    (hfirst : cutFirst? '(' text = some (before, rest)) (hlast : cutLast? ')' rest = none) :
    readArguments text = .error (.atChar .missingCallParentheses 0) := by
  unfold readArguments
  rw [hfirst]
  dsimp only
  rw [hlast]

/-- What is left to do once the parentheses of a call are found. -/
theorem readArguments_of_cuts {before rest inside trailing : List Char}
    (hfirst : cutFirst? '(' text = some (before, rest))
    (hlast : cutLast? ')' rest = some (inside, trailing)) :
    readArguments text =
      if allBlank trailing then compilePieces (before.length + 1) (inside.splitOn ',')
      else
        .error (.atChar (.textAfterCall (String.ofList (trim trailing)))
          (before.length + 1 + inside.length + 1 + leadingBlanks trailing)) := by
  unfold readArguments
  rw [hfirst]
  dsimp only
  rw [hlast]

theorem readArguments_error (h : readArguments text = .error e) : ArgumentsFault text e := by
  cases hfirst : cutFirst? '(' text with
  | none =>
    unfold readArguments at h
    rw [hfirst] at h
    cases h
    exact .unopened hfirst
  | some cut =>
    obtain ⟨before, rest⟩ := cut
    cases hlast : cutLast? ')' rest with
    | none =>
      rw [readArguments_of_unclosed hfirst hlast] at h
      cases h
      exact .unclosed hfirst hlast
    | some cut =>
      obtain ⟨inside, trailing⟩ := cut
      rw [readArguments_of_cuts hfirst hlast] at h
      split at h
      · obtain ⟨front, t, back, hsplit, hblank, hcompile⟩ := compilePieces_error h
        exact .argument hfirst hlast hsplit hblank hcompile
      · next hblank =>
        cases h
        exact .trailing hfirst hlast (Bool.eq_false_iff.mpr hblank)

inductive CallFault {φ : Type} (registry : NameTable φ) (text : List Char) : Located Fault → Prop
  | nameless : leadingName? text = none →
      CallFault registry text (.atChar .invalidFunctionName 0)
  | unknown {name rest : List Char} : leadingName? text = some (name, rest) →
      registry.find? (String.ofList name) = none →
      CallFault registry text (.atChar (.unknownFunction (String.ofList name)) 0)
  | arguments {e : Located Fault} : ArgumentsFault text e → CallFault registry text e

theorem readCall_error {φ : Type} {registry : NameTable φ} (h : readCall registry text = .error e) :
    CallFault registry text e := by
  unfold readCall at h
  split at h
  · next hname =>
    cases h
    exact .nameless hname
  next name rest hname =>
  split at h
  · next hfind =>
    cases h
    exact .unknown hname hfind
  · cases harguments : readArguments text with
    | ok arguments =>
      rw [harguments] at h
      exact nomatch h
    | error e' =>
      rw [harguments] at h
      cases h
      exact .arguments (readArguments_error harguments)

/-! ## Conditions -/

/-- Why no condition is read from the text of a clause. The words before its first `(` are
looked at only if a `)` stands behind that. -/
inductive ConditionFault (introducer : Introducer) (text : List Char) : Located Fault → Prop
  | unopened : cutFirst? '(' text = none →
      ConditionFault introducer text (.atChar .missingConditionStart 0)
  | unclosed {before rest : List Char} : cutFirst? '(' text = some (before, rest) → ')' ∉ text →
      ConditionFault introducer text (.atChar .missingConditionEnd 0)
  | inverted {before rest : List Char} : cutFirst? '(' text = some (before, rest) → ')' ∈ text →
      cutLast? ')' rest = none → ConditionFault introducer text (.atChar .invertedCondition 0)
  | before {before rest inside trailing : List Char} : cutFirst? '(' text = some (before, rest) →
      cutLast? ')' rest = some (inside, trailing) →
      (words before).map String.ofList ≠ introducer.words →
      ConditionFault introducer text (.atChar (.textBeforeCondition introducer) 0)
  | trailing {before rest inside trailing : List Char} : cutFirst? '(' text = some (before, rest) →
      cutLast? ')' rest = some (inside, trailing) →
      (words before).map String.ofList = introducer.words → allBlank trailing = false →
      ConditionFault introducer text (.atChar (.textAfterCondition introducer)
        (before.length + 1 + inside.length + 1 + leadingBlanks trailing))
  | empty {before rest inside trailing : List Char} : cutFirst? '(' text = some (before, rest) →
      cutLast? ')' rest = some (inside, trailing) →
      (words before).map String.ofList = introducer.words → allBlank trailing = true →
      allBlank inside = true →
      ConditionFault introducer text (.atChar .emptyCondition before.length)
  | condition {before rest inside trailing : List Char} {e : Located Fault} :
      cutFirst? '(' text = some (before, rest) → cutLast? ')' rest = some (inside, trailing) →
      (words before).map String.ofList = introducer.words → allBlank trailing = true →
      allBlank inside = false → Plan.compile inside (before.length + 1) = .error e →
      ConditionFault introducer text e

theorem mem_of_cuts {before rest inside trailing : List Char}
    (hfirst : cutFirst? '(' text = some (before, rest))
    (hlast : cutLast? ')' rest = some (inside, trailing)) : ')' ∈ text := by
  obtain ⟨rfl, _⟩ := cutFirst?_eq_some_iff.mp hfirst
  obtain ⟨rfl, _⟩ := cutLast?_eq_some_iff.mp hlast
  simp

/-- What is left to check once the parentheses of a condition are found. -/
theorem readCondition_of_cuts {introducer : Introducer} {before rest inside trailing : List Char}
    (hfirst : cutFirst? '(' text = some (before, rest))
    (hlast : cutLast? ')' rest = some (inside, trailing)) :
    readCondition introducer text =
      if (words before).map String.ofList ≠ introducer.words then
        .error (.atChar (.textBeforeCondition introducer) 0)
      else if !allBlank trailing then
        .error (.atChar (.textAfterCondition introducer)
          (before.length + 1 + inside.length + 1 + leadingBlanks trailing))
      else if allBlank inside then .error (.atChar .emptyCondition before.length)
      else Plan.compile inside (before.length + 1) := by
  unfold readCondition
  rw [hfirst]
  dsimp only
  rw [if_neg (Decidable.not_not.mpr (mem_of_cuts hfirst hlast)), hlast]

theorem readCondition_error {introducer : Introducer}
    (h : readCondition introducer text = .error e) : ConditionFault introducer text e := by
  cases hfirst : cutFirst? '(' text with
  | none =>
    unfold readCondition at h
    rw [hfirst] at h
    cases h
    exact .unopened hfirst
  | some cut =>
    obtain ⟨before, rest⟩ := cut
    cases hlast : cutLast? ')' rest with
    | none =>
      unfold readCondition at h
      rw [hfirst] at h
      dsimp only at h
      rw [hlast] at h
      split at h
      · next hfree =>
        cases h
        exact .unclosed hfirst hfree
      · next hclosed =>
        cases h
        exact .inverted hfirst (Decidable.not_not.mp hclosed) hlast
    | some cut =>
      obtain ⟨inside, trailing⟩ := cut
      rw [readCondition_of_cuts hfirst hlast] at h
      split at h
      · next hwords =>
        cases h
        exact .before hfirst hlast hwords
      next hwords =>
      have hwords := Decidable.not_not.mp hwords
      cases htrailing : allBlank trailing with
      | false =>
        rw [htrailing, if_pos (show (!false) = true from rfl)] at h
        cases h
        exact .trailing hfirst hlast hwords htrailing
      | true =>
        rw [htrailing, if_neg (show ¬(!true) = true from Bool.false_ne_true)] at h
        split at h
        · next hinside =>
          cases h
          exact .empty hfirst hlast hwords htrailing hinside
        · next hinside =>
          exact .condition hfirst hlast hwords htrailing (Bool.eq_false_iff.mpr hinside) h

/-- In each of the listed ways the reader of a condition does fail. -/
theorem ConditionFault.readCondition_eq {introducer : Introducer}
    (h : ConditionFault introducer text e) : readCondition introducer text = .error e := by
  cases h with
  | unopened hfirst =>
    unfold readCondition
    rw [hfirst]
  | unclosed hfirst hfree =>
    unfold readCondition
    rw [hfirst]
    exact if_pos hfree
  | inverted hfirst hclosed hlast =>
    unfold readCondition
    rw [hfirst]
    dsimp only
    rw [if_neg (Decidable.not_not.mpr hclosed), hlast]
  | before hfirst hlast hwords => rw [readCondition_of_cuts hfirst hlast, if_pos hwords]
  | trailing hfirst hlast hwords htrailing =>
    rw [readCondition_of_cuts hfirst hlast, if_neg (Decidable.not_not.mpr hwords), htrailing]
    rfl
  | empty hfirst hlast hwords htrailing hinside =>
    rw [readCondition_of_cuts hfirst hlast, if_neg (Decidable.not_not.mpr hwords), htrailing,
      hinside]
    rfl
  | condition hfirst hlast hwords htrailing hinside hcompile =>
    rw [readCondition_of_cuts hfirst hlast, if_neg (Decidable.not_not.mpr hwords), htrailing,
      hinside]
    exact hcompile

end Statement

end DialogueScript
