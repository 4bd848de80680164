import DialogueScript.Proofs.Padding
import DialogueScript.Statement.Reader

/-!
# Printed programs

Programs together with the way they are laid out: every blank that stands between
two of their pieces, and every empty statement behind an assignment or a call. Such a
program knows its text and the block that the text stands for.

Main statement: `PrintedBlock.splits`. The fragments of a printed program are the
heads of its statements and clauses, in order and at their depths.
-/

namespace DialogueScript

open Text

/-! ## Pieces of a program -/

/-- Blanks between two pieces of a program, or nothing. -/
structure Gap where
  text : List Char
  blank : allBlank text = true

/-- A name that an assignment or a call can begin with. -/
structure Identifier where
  text : List Char
  shape : ∃ c more, text = c :: more ∧ isNameStart c = true ∧ more.all isNamePart = true
  not_if : text ≠ ['i', 'f']
  not_else : text ≠ ['e', 'l', 's', 'e']

/-- The text of an expression, with its plan and the blanks around it. -/
structure Passage where
  before : Gap
  text : List Char
  after : Gap
  plan : Plan
  accepted : Plan.ofText text = .ok plan
  plain : ∀ c ∈ text, c ≠ ';' ∧ c ≠ '{' ∧ c ≠ '}'

def Passage.full (p : Passage) : List Char := p.before.text ++ (p.text ++ p.after.text)

structure Condition extends Passage where
  filled : allBlank text = false

structure Argument extends Passage where
  filled : allBlank text = false
  no_comma : ',' ∉ text

/-- `name = value`, and the empty statements behind its `;`. -/
structure PrintedAssignment where
  before : Gap
  name : Identifier
  afterName : Gap
  value : Passage
  empties : List Gap

/-- `name(arguments)` with a registered name, and the empty statements behind its `;`.
Without arguments there may be blanks between the parentheses. -/
structure PrintedCall {φ : Type} (registry : NameTable φ) where
  before : Gap
  name : Identifier
  function : φ
  registered : registry.find? (String.ofList name.text) = some function
  afterName : Gap
  inner : Gap
  arguments : List Argument
  after : Gap
  empties : List Gap

/-- What stands around and behind the keyword of a clause with a condition. -/
structure Clause where
  before : Gap
  afterKeyword : Gap
  condition : Condition
  after : Gap

/-- `name = value` without its `;`. -/
def PrintedAssignment.head (a : PrintedAssignment) : List Char :=
  a.before.text ++ (a.name.text ++ (a.afterName.text ++ ('=' :: a.value.full)))

def argumentText (inner : Gap) (arguments : List Argument) : List Char :=
  if arguments.isEmpty then inner.text
  else [','].intercalate (arguments.map fun a => a.toPassage.full)

/-- `name(arguments)` without its `;`. -/
def PrintedCall.head {φ : Type} {registry : NameTable φ} (c : PrintedCall registry) : List Char :=
  c.before.text ++ (c.name.text ++ (c.afterName.text ++
    ('(' :: (argumentText c.inner c.arguments ++ (')' :: c.after.text)))))

/-- A clause with its keyword, up to its `{`. -/
def Clause.head (keyword : List Char) (c : Clause) : List Char :=
  c.before.text ++ (keyword ++ (c.afterKeyword.text ++
    ('(' :: (c.condition.full ++ (')' :: c.after.text)))))

/-- The `;` of a statement and the empty statements behind it. -/
def terminators (empties : List Gap) : List Char :=
  ';' :: empties.flatMap fun gap => gap.text ++ [';']

def braced (head body : List Char) (closing : Gap) : List Char :=
  head ++ ('{' :: (body ++ (closing.text ++ ['}'])))

/-! ## Programs -/

mutual

inductive PrintedStatement {φ : Type} (registry : NameTable φ) where
  | assign (a : PrintedAssignment)
  | call (c : PrintedCall registry)
  /-- `if (condition) { first more } otherwise` -/
  | branch (clause : Clause) (first : PrintedStatement registry) (more : PrintedBlock registry)
      (closing : Gap) (otherwise : PrintedOtherwise registry)

inductive PrintedBlock {φ : Type} (registry : NameTable φ) where
  | nil
  | cons (head : PrintedStatement registry) (tail : PrintedBlock registry)

/-- What is printed behind the block of a branch. -/
inductive PrintedOtherwise {φ : Type} (registry : NameTable φ) where
  | nothing
  /-- `else { first more }` -/
  | block (before after : Gap) (first : PrintedStatement registry) (more : PrintedBlock registry)
      (closing : Gap)
  /-- `else if (condition) { first more } otherwise` -/
  | elseIf (between : Gap) (h : between.text ≠ []) (clause : Clause)
      (first : PrintedStatement registry) (more : PrintedBlock registry) (closing : Gap)
      (otherwise : PrintedOtherwise registry)

end

def elseIfWords (between : Gap) : List Char := ['e', 'l', 's', 'e'] ++ (between.text ++ ['i', 'f'])

def elseHead (before after : Gap) : List Char := before.text ++ (['e', 'l', 's', 'e'] ++ after.text)

variable {φ : Type} {registry : NameTable φ}

mutual

def PrintedStatement.text : PrintedStatement registry → List Char
  | .assign a => a.head ++ terminators a.empties
  | .call c => c.head ++ terminators c.empties
  | .branch clause first more closing otherwise =>
    braced (clause.head ['i', 'f']) (first.text ++ more.text) closing ++ otherwise.text

def PrintedBlock.text : PrintedBlock registry → List Char
  | .nil => []
  | .cons head tail => head.text ++ tail.text

def PrintedOtherwise.text : PrintedOtherwise registry → List Char
  | .nothing => []
  | .block before after first more closing =>
    braced (elseHead before after) (first.text ++ more.text) closing
  | .elseIf between _ clause first more closing otherwise =>
    braced (clause.head (elseIfWords between)) (first.text ++ more.text) closing ++ otherwise.text

end

mutual

/-- The statement that a printed one stands for, if it is printed at an offset. -/
def PrintedStatement.statement (start : Nat) : PrintedStatement registry → Statement φ
  | .assign a =>
    .assign (String.ofList a.name.text) a.value.plan (start + a.before.text.length)
  | .call c =>
    .call (String.ofList c.name.text) c.function (c.arguments.map fun a => a.plan)
      (start + c.before.text.length)
  | .branch clause first more closing otherwise =>
    let inside := start + (clause.head ['i', 'f']).length + 1
    let behind := start + (braced (clause.head ['i', 'f']) (first.text ++ more.text) closing).length
    .branch clause.condition.plan
      (.cons (first.statement inside) (more.block (inside + first.text.length)))
      (otherwise.otherwise behind) (start + clause.before.text.length)

def PrintedBlock.block (start : Nat) : PrintedBlock registry → Block φ
  | .nil => .nil
  | .cons head tail => .cons (head.statement start) (tail.block (start + head.text.length))

def PrintedOtherwise.otherwise (start : Nat) : PrintedOtherwise registry → Otherwise φ
  | .nothing => .nothing
  | .block before after first more _ =>
    let inside := start + (elseHead before after).length + 1
    .block (.cons (first.statement inside) (more.block (inside + first.text.length)))
  | .elseIf between _ clause first more closing otherwise =>
    let inside := start + (clause.head (elseIfWords between)).length + 1
    let behind := start + (braced (clause.head (elseIfWords between)) (first.text ++ more.text) closing).length
    .elseIf clause.condition.plan
      (.cons (first.statement inside) (more.block (inside + first.text.length)))
      (otherwise.otherwise behind)

end

/-! ## Splitting -/

namespace Fragment

/-- The text is cut into the fragments, whatever follows. -/
def Splits (text : List Char) (depth start : Nat) (fragments : List Fragment) : Prop :=
  ∀ rest, splitFrom start depth [] (text ++ rest) =
    (splitFrom (start + text.length) depth [] rest).map (fragments ++ ·)

def Plain (text : List Char) : Prop := ∀ c ∈ text, c ≠ ';' ∧ c ≠ '{' ∧ c ≠ '}'

theorem Plain.append {a b : List Char} (ha : Plain a) (hb : Plain b) : Plain (a ++ b) := by
  intro c hc
  rcases List.mem_append.mp hc with hc | hc
  · exact ha c hc
  · exact hb c hc

theorem Plain.cons {c : Char} {text : List Char} (hc : c ≠ ';' ∧ c ≠ '{' ∧ c ≠ '}')
    (h : Plain text) : Plain (c :: text) := by
  intro d hd
  rcases List.mem_cons.mp hd with rfl | hd
  · exact hc
  · exact h d hd

theorem plain_gap (gap : Gap) : Plain gap.text := by
  intro c hc
  have hb : isBlank c = true := List.all_eq_true.mp gap.blank c hc
  exact ⟨ne_of_class hb (by decide), ne_of_class hb (by decide), ne_of_class hb (by decide)⟩

/-- Characters other than delimiters are added to the piece that is being read. -/
theorem splitFrom_plain {piece : List Char} (h : Plain piece) (start depth : Nat)
    (read rest : List Char) :
    splitFrom start depth read (piece ++ rest) = splitFrom start depth (piece.reverse ++ read) rest := by
  induction piece generalizing read with
  | nil => rfl
  | cons c piece ih =>
    obtain ⟨hs, hl, hr⟩ := h c List.mem_cons_self
    rw [List.cons_append, splitFrom, if_neg hs, if_neg hl, if_neg hr,
      ih fun d hd => h d (List.mem_cons_of_mem _ hd), List.reverse_cons, List.append_assoc,
      List.singleton_append]

theorem ofPiece_gap (gap : Gap) (depth start : Nat) : ofPiece gap.text depth start = [] := by
  unfold ofPiece
  rw [gap.blank, if_pos rfl]

theorem splits_nil (depth start : Nat) : Splits [] depth start [] := by
  intro rest
  rw [List.nil_append]
  cases splitFrom start depth [] rest with
  | error e => rfl
  | ok fragments => rfl

theorem Splits.append {a b : List Char} {depth start : Nat} {fa fb : List Fragment}
    (ha : Splits a depth start fa) (hb : Splits b depth (start + a.length) fb) :
    Splits (a ++ b) depth start (fa ++ fb) := by
  intro rest
  rw [List.append_assoc, ha, hb, Token.map_append_map, List.length_append, Nat.add_assoc]

/-- A piece before a `;` is a fragment. -/
theorem splits_semicolon {piece : List Char} (h : Plain piece) (depth start : Nat) :
    Splits (piece ++ [';']) depth start (ofPiece piece depth start) := by
  intro rest
  rw [List.append_assoc, splitFrom_plain h, List.append_nil, List.singleton_append, splitFrom,
    if_pos rfl, List.reverse_reverse, List.length_reverse, List.length_append, List.length_singleton]
  rfl

/-- A piece before braces is a fragment, and between the braces the depth is one more. -/
theorem splits_braces {head body : List Char} {depth start : Nat} {fragments : List Fragment}
    (hh : Plain head) (hb : Splits body (depth + 1) (start + head.length + 1) fragments)
    (closing : Gap) :
    Splits (braced head body closing) depth start (ofPiece head depth start ++ fragments) := by
  intro rest
  have htext : braced head body closing ++ rest =
      head ++ ('{' :: (body ++ (closing.text ++ ('}' :: rest)))) := by
    simp only [braced, List.append_assoc, List.cons_append, List.nil_append]
  have hlen : start + head.length + 1 + body.length + closing.text.length + 1 =
      start + (braced head body closing).length := by
    simp only [braced, List.length_append, List.length_cons, List.length_nil]
    omega
  have hclose : splitFrom (start + head.length + 1 + body.length) (depth + 1) []
        (closing.text ++ ('}' :: rest)) =
      splitFrom (start + (braced head body closing).length) depth [] rest := by
    rw [splitFrom_plain (plain_gap closing), List.append_nil, splitFrom, if_neg (by decide),
      if_neg (by decide), if_pos rfl, if_neg (Nat.succ_ne_zero depth), List.reverse_reverse,
      List.length_reverse, hlen, Nat.add_sub_cancel, ofPiece_gap]
    exact (splits_nil depth _ rest).symm
  rw [htext, splitFrom_plain hh, List.append_nil, splitFrom, if_neg (by decide), if_pos rfl,
    List.reverse_reverse, List.length_reverse, hb, hclose, Token.map_append_map]

/-- The empty statements behind a `;` leave no fragments. -/
theorem splits_terminators {piece : List Char} (h : Plain piece) (empties : List Gap)
    (depth start : Nat) :
    Splits (piece ++ terminators empties) depth start (ofPiece piece depth start) := by
  have hempties : ∀ start, Splits (empties.flatMap fun gap => gap.text ++ [';']) depth start [] := by
    induction empties with
    | nil => exact splits_nil depth
    | cons gap empties ih =>
      intro start
      rw [List.flatMap_cons]
      have hgap := splits_semicolon (plain_gap gap) depth start
      rw [ofPiece_gap] at hgap
      exact hgap.append (ih _)
  have hsplit := (splits_semicolon h depth start).append (hempties _)
  rw [List.append_nil, List.append_assoc] at hsplit
  exact hsplit

end Fragment

theorem Passage.plain_full (p : Passage) : Fragment.Plain p.full :=
  (Fragment.plain_gap p.before).append (Fragment.Plain.append p.plain (Fragment.plain_gap p.after))

theorem Identifier.isName (name : Identifier) : IsName name.text := name.shape

theorem Identifier.all_isNamePart (name : Identifier) : name.text.all isNamePart = true :=
  name.isName.all_isNamePart

theorem plain_of_isNamePart {text : List Char} (h : text.all isNamePart = true) :
    Fragment.Plain text := by
  intro d hd
  have hpart := List.all_eq_true.mp h d hd
  exact ⟨ne_of_class hpart (by decide), ne_of_class hpart (by decide), ne_of_class hpart (by decide)⟩

theorem Identifier.plain (name : Identifier) : Fragment.Plain name.text :=
  plain_of_isNamePart name.all_isNamePart

theorem PrintedAssignment.plain_head (a : PrintedAssignment) : Fragment.Plain a.head :=
  (Fragment.plain_gap a.before).append (a.name.plain.append
    ((Fragment.plain_gap a.afterName).append (a.value.plain_full.cons (by decide))))

theorem plain_argumentText (inner : Gap) (arguments : List Argument) :
    Fragment.Plain (argumentText inner arguments) := by
  unfold argumentText
  split
  · exact Fragment.plain_gap inner
  · induction arguments with
    | nil => exact fun c hc => absurd hc List.not_mem_nil
    | cons a arguments ih =>
      cases arguments with
      | nil =>
        rw [List.map_singleton, List.intercalate_singleton]
        exact a.plain_full
      | cons b arguments =>
        rw [List.map_cons, List.map_cons, List.intercalate_cons_cons, List.append_assoc]
        exact a.plain_full.append ((ih Bool.false_ne_true).cons (by decide))

theorem PrintedCall.plain_head (c : PrintedCall registry) : Fragment.Plain c.head :=
  (Fragment.plain_gap c.before).append (c.name.plain.append ((Fragment.plain_gap c.afterName).append
    (((plain_argumentText c.inner c.arguments).append
      ((Fragment.plain_gap c.after).cons (by decide))).cons (by decide))))

theorem Clause.plain_head {keyword : List Char} (hk : Fragment.Plain keyword) (c : Clause) :
    Fragment.Plain (c.head keyword) :=
  (Fragment.plain_gap c.before).append (hk.append ((Fragment.plain_gap c.afterKeyword).append
    ((c.condition.plain_full.append ((Fragment.plain_gap c.after).cons (by decide))).cons
      (by decide))))

mutual

/-- The fragments of a statement that is printed at a depth and an offset. -/
def PrintedStatement.fragments (depth start : Nat) : PrintedStatement registry → List Fragment
  | .assign a => Fragment.ofPiece a.head depth start
  | .call c => Fragment.ofPiece c.head depth start
  | .branch clause first more closing otherwise =>
    let inside := start + (clause.head ['i', 'f']).length + 1
    let behind := start + (braced (clause.head ['i', 'f']) (first.text ++ more.text) closing).length
    Fragment.ofPiece (clause.head ['i', 'f']) depth start ++
      (first.fragments (depth + 1) inside ++
        more.fragments (depth + 1) (inside + first.text.length)) ++
      otherwise.fragments depth behind

def PrintedBlock.fragments (depth start : Nat) : PrintedBlock registry → List Fragment
  | .nil => []
  | .cons head tail =>
    head.fragments depth start ++ tail.fragments depth (start + head.text.length)

def PrintedOtherwise.fragments (depth start : Nat) : PrintedOtherwise registry → List Fragment
  | .nothing => []
  | .block before after first more _ =>
    let inside := start + (elseHead before after).length + 1
    Fragment.ofPiece (elseHead before after) depth start ++
      (first.fragments (depth + 1) inside ++
        more.fragments (depth + 1) (inside + first.text.length))
  | .elseIf between _ clause first more closing otherwise =>
    let inside := start + (clause.head (elseIfWords between)).length + 1
    let behind := start + (braced (clause.head (elseIfWords between)) (first.text ++ more.text) closing).length
    Fragment.ofPiece (clause.head (elseIfWords between)) depth start ++
      (first.fragments (depth + 1) inside ++
        more.fragments (depth + 1) (inside + first.text.length)) ++
      otherwise.fragments depth behind

end

theorem plain_elseIfWords (between : Gap) : Fragment.Plain (elseIfWords between) :=
  (plain_of_isNamePart (by decide)).append
    ((Fragment.plain_gap between).append (plain_of_isNamePart (by decide)))

theorem plain_elseHead (before after : Gap) : Fragment.Plain (elseHead before after) :=
  (Fragment.plain_gap before).append
    ((plain_of_isNamePart (by decide)).append (Fragment.plain_gap after))

mutual

/-- A printed statement is cut into its fragments. -/
theorem PrintedStatement.splits (depth start : Nat) : (s : PrintedStatement registry) →
    Fragment.Splits s.text depth start (s.fragments depth start)
  | .assign a => Fragment.splits_terminators a.plain_head a.empties depth start
  | .call c => Fragment.splits_terminators c.plain_head c.empties depth start
  | .branch clause first more closing otherwise => by
    have hbody := (first.splits (depth + 1) (start + (clause.head ['i', 'f']).length + 1)).append
      (more.splits (depth + 1) _)
    have hclause := Fragment.splits_braces (clause.plain_head (plain_of_isNamePart (by decide))) hbody closing
    exact hclause.append (otherwise.splits depth _)

theorem PrintedBlock.splits (depth start : Nat) : (b : PrintedBlock registry) →
    Fragment.Splits b.text depth start (b.fragments depth start)
  | .nil => Fragment.splits_nil depth start
  | .cons head tail => (head.splits depth start).append (tail.splits depth _)

theorem PrintedOtherwise.splits (depth start : Nat) : (o : PrintedOtherwise registry) →
    Fragment.Splits o.text depth start (o.fragments depth start)
  | .nothing => Fragment.splits_nil depth start
  | .block before after first more closing => by
    have hbody := (first.splits (depth + 1) (start + (elseHead before after).length + 1)).append
      (more.splits (depth + 1) _)
    exact Fragment.splits_braces (plain_elseHead before after) hbody closing
  | .elseIf between _ clause first more closing otherwise => by
    have hbody := (first.splits (depth + 1) (start + (clause.head (elseIfWords between)).length + 1)).append
      (more.splits (depth + 1) _)
    have hclause := Fragment.splits_braces (clause.plain_head (plain_elseIfWords between)) hbody closing
    exact hclause.append (otherwise.splits depth _)

end

end DialogueScript
