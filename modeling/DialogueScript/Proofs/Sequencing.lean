import DialogueScript.Proofs.Registries

/-!
# One text after another

A `;` between two texts separates them: the fragments of the first stay as they are, and
those of the second are where they are in the second text alone, only farther behind. The
reader looks ahead, for the blocks of a branch and for its further clauses. It finds
neither across the `;` if the second text begins at depth zero and not with `else`.

Main statements:
1. `Block.parse_semicolon`: the blocks are read one after the other.
2. `Block.execute_append`, `Block.execute_map`: a block and a moved one run one after the
   other.
3. `Block.parse_sequence`: reading and running both are those of the parts, in sequence.
-/

namespace DialogueScript

open Text

/-! ## Fragments of the whole -/

namespace Fragment

/-- Behind a text with balanced braces a `;` ends the last piece, and what follows is cut
up as at the start. -/
theorem splitFrom_semicolon {start depth : Nat} {read first : List Char}
    {fragments : List Fragment} (h : splitFrom start depth read first = .ok fragments)
    (second : List Char) :
    splitFrom start depth read (first ++ ';' :: second) =
      (splitFrom (start + read.length + first.length + 1) 0 [] second).map (fragments ++ ·) := by
  induction first generalizing start depth read fragments with
  | nil =>
    rw [splitFrom] at h
    split at h
    · next hdepth =>
      cases h
      rw [List.nil_append, splitFrom, if_pos rfl, hdepth]
      rfl
    · cases h
  | cons c first ih =>
    have hmark : ∀ depth', (splitFrom (start + read.length + 1) depth' [] first).map
          (ofPiece read.reverse depth start ++ ·) = .ok fragments →
        (splitFrom (start + read.length + 1) depth' [] (first ++ ';' :: second)).map
          (ofPiece read.reverse depth start ++ ·) =
        (splitFrom (start + read.length + (c :: first).length + 1) 0 [] second).map
          (fragments ++ ·) := by
      intro depth' h
      cases hrest : splitFrom (start + read.length + 1) depth' [] first with
      | error e =>
        rw [hrest] at h
        cases h
      | ok rest =>
        rw [hrest] at h
        cases h
        have hlen : start + read.length + 1 + ([] : List Char).length + first.length + 1 =
            start + read.length + (c :: first).length + 1 := by
          rw [List.length_nil, List.length_cons]
          omega
        rw [ih hrest, Token.map_append_map, hlen]
    rw [List.cons_append]
    rw [splitFrom] at h ⊢
    by_cases hsemicolon : c = ';'
    · rw [if_pos hsemicolon] at h ⊢
      exact hmark depth h
    by_cases hopen : c = '{'
    · rw [if_neg hsemicolon, if_pos hopen] at h ⊢
      exact hmark (depth + 1) h
    by_cases hclose : c = '}'
    · rw [if_neg hsemicolon, if_neg hopen, if_pos hclose] at h ⊢
      split at h
      · cases h
      · next hdepth =>
        rw [if_neg hdepth]
        exact hmark (depth - 1) h
    · rw [if_neg hsemicolon, if_neg hopen, if_neg hclose] at h ⊢
      have hlen : start + (c :: read).length + first.length + 1 =
          start + read.length + (c :: first).length + 1 := by
        rw [List.length_cons, List.length_cons]
        omega
      rw [ih h, hlen]

theorem split_semicolon {first : List Char} {fragments : List Fragment}
    (h : split first = .ok fragments) (second : List Char) :
    split (first ++ ';' :: second) =
      (splitFrom (first.length + 1) 0 [] second).map (fragments ++ ·) := by
  have hsplit := splitFrom_semicolon h second
  rwa [List.length_nil, Nat.add_zero, Nat.zero_add] at hsplit

/-- The text has braces out of balance, or holds no statement, or begins with a statement
outside of braces that does not begin with `else`. -/
def Fresh (text : List Char) : Prop :=
  ∀ f rest, split text = .ok (f :: rest) → f.depth = 0 ∧ Introducer.isElse f.text = false

/-- The fragments of such a text can be taken for no part of what stands before it, also
if the text stands farther behind. -/
theorem Fresh.closes {text : List Char} (h : Fresh text) {distance depth : Nat}
    {fragments : List Fragment} (hs : splitFrom distance 0 [] text = .ok fragments) :
    Closes depth fragments := by
  have hstep : InStep (.empty : NameTable Unit) (.empty : NameTable Unit) text distance _ _ _ :=
    split_inStep text
  rcases hstep.ends_alike with ⟨alone, _, halone, hmoved, rfl⟩ | ⟨_, _, _, hmoved⟩
  · cases hs.symm.trans hmoved
    intro g hg
    cases alone with
    | nil => exact nomatch hg
    | cons f rest =>
      cases hg
      obtain ⟨hdepth, helse⟩ := h f rest halone
      refine ⟨?_, fun _ => helse⟩
      show f.depth ≤ depth
      rw [hdepth]
      exact Nat.zero_le depth
  · exact nomatch hs.symm.trans hmoved

end Fragment

/-! ## Blocks of the whole -/

variable {φ : Type} {registry : NameTable φ}

def Block.append : Block φ → Block φ → Block φ
  | .nil, b => b
  | .cons head tail, b => .cons head (tail.append b)

/-- Fragments behind those of a block that can be taken for no part of it are read on
their own. -/
theorem Block.Reads.ofFragments_append {b : Block φ} {fragments more : List Fragment}
    (h : b.Reads registry fragments) (hm : ∀ f ∈ fragments, Fragment.Closes f.depth more) :
    Block.ofFragments registry (fragments ++ more) =
      (Block.ofFragments registry more).map b.append := by
  match h with
  | .nil =>
    rw [List.nil_append]
    cases Block.ofFragments registry more with
    | error e => rfl
    | ok b => rfl
  | .cons hhead htail =>
    have hhead := hhead.append fun f hf => hm f (List.mem_append_left _ hf)
    rw [List.append_assoc, hhead.ofFragments,
      htail.ofFragments_append fun f hf => hm f (List.mem_append_right _ hf)]
    cases Block.ofFragments registry more with
    | error e => rfl
    | ok b => rfl

/-- Behind a `;` the second text is read on its own. -/
theorem Block.parse_semicolon {first second : List Char} {b : Block φ}
    (h : Block.parse registry first = .ok b) (hs : Fragment.Fresh second) :
    Block.parse registry (first ++ ';' :: second) =
      (Fragment.splitFrom (first.length + 1) 0 [] second >>= Block.ofFragments registry).map
        b.append := by
  obtain ⟨fragments, hsplit, h⟩ := ok_of_bind h
  have hreads := Block.ofFragments_eq_ok_iff.mp h
  unfold Block.parse
  rw [Fragment.split_semicolon hsplit]
  cases hmore : Fragment.splitFrom (first.length + 1) 0 [] second with
  | error e => rfl
  | ok more => exact hreads.ofFragments_append fun f _ => hs.closes hmore

mutual

theorem Statement.map_id : (s : Statement φ) → s.map id id = s
  | .assign _ _ _ => rfl
  | .call _ _ _ _ => rfl
  | .branch condition body otherwise offset =>
    congrArg₂ (Statement.branch condition · · offset) body.map_id otherwise.map_id

theorem Block.map_id : (b : Block φ) → b.map id id = b
  | .nil => rfl
  | .cons head tail => congrArg₂ Block.cons head.map_id tail.map_id

theorem Otherwise.map_id : (o : Otherwise φ) → o.map id id = o
  | .nothing => rfl
  | .block body => congrArg Otherwise.block body.map_id
  | .elseIf condition body otherwise =>
    congrArg₂ (Otherwise.elseIf condition) body.map_id otherwise.map_id

end

/-! ## Running the whole -/

/-- One execution, and then another if the first did not fail. -/
def Outcome.andThen (o : Outcome) (next : Machine → Outcome) : Outcome :=
  match o with
  | ⟨none, m⟩ => next m
  | failed => failed

def Outcome.relocate (place : Nat → Nat) (o : Outcome) : Outcome :=
  { o with failure := o.failure.map fun e =>
      { e with position := { e.position with char := e.position.char.map place } } }

theorem Block.execute_append (b : Block HostFunction) : (a : Block HostFunction) → (m : Machine) →
    (a.append b).execute m = (a.execute m).andThen b.execute
  | .nil, m => rfl
  | .cons head tail, m => by
    rw [append, execute, execute]
    obtain ⟨failure, m'⟩ := head.execute m
    cases failure with
    | none => exact execute_append b tail m'
    | some e => rfl

mutual

theorem Statement.execute_map (place : Nat → Nat) (m : Machine) : (s : Statement HostFunction) →
    (s.map id place).execute m = (s.execute m).relocate place
  | .assign _ _ _ => rfl
  | .call name function arguments offset => by
    rw [Statement.map, Statement.execute, Statement.execute, id]
    generalize m.call name function (arguments.map fun a => a.evaluate m.store) = answer
    obtain ⟨reply, m'⟩ := answer
    cases reply with
    | error message => rfl
    | ok value => rfl
  | .branch condition body otherwise _ => by
    rw [Statement.map, Statement.execute, Statement.execute]
    split
    · exact body.execute_map place m
    · exact otherwise.execute_map place m

theorem Block.execute_map (place : Nat → Nat) (m : Machine) : (b : Block HostFunction) →
    (b.map id place).execute m = (b.execute m).relocate place
  | .nil => rfl
  | .cons head tail => by
    rw [Block.map, Block.execute, Block.execute, head.execute_map place m]
    obtain ⟨failure, m'⟩ := head.execute m
    cases failure with
    | none => exact tail.execute_map place m'
    | some e => rfl

theorem Otherwise.execute_map (place : Nat → Nat) (m : Machine) : (o : Otherwise HostFunction) →
    (o.map id place).execute m = (o.execute m).relocate place
  | .nothing => rfl
  | .block body => body.execute_map place m
  | .elseIf condition body otherwise => by
    rw [Otherwise.map, Otherwise.execute, Otherwise.execute]
    split
    · exact body.execute_map place m
    · exact otherwise.execute_map place m

end

theorem Outcome.andThen_relocate (o : Outcome) (next : Machine → Outcome) (place : Nat → Nat) :
    (o.andThen fun m => (next m).relocate place).machine = (o.andThen next).machine ∧
      (o.andThen fun m => (next m).relocate place).failure.map Located.cause =
        (o.andThen next).failure.map Located.cause := by
  obtain ⟨failure, m⟩ := o
  cases failure with
  | some e => exact ⟨rfl, rfl⟩
  | none =>
    refine ⟨rfl, ?_⟩
    show ((next m).failure.map _).map Located.cause = (next m).failure.map Located.cause
    rw [Option.map_map]
    rfl

/-- With a `;` between them, a text that is accepted and a text that could be taken for no
part of it are read one after the other. If the second is accepted, so is the whole, with
the statements of both; running it is running the first and then, if that did not fail,
the second. If the second is refused, so is the whole, for the same reason at the same
place of the second text. -/
theorem Block.parse_sequence {registry : Registry} {first second : List Char}
    {b₁ : Block HostFunction} (h : Block.parse registry first = .ok b₁)
    (hs : Fragment.Fresh second) :
    (∀ b₂, Block.parse registry second = .ok b₂ →
      ∃ b, Block.parse registry (first ++ ';' :: second) = .ok b ∧
        b = b₁.append (b₂.map id (· + (first.length + 1))) ∧
        ∀ m, (b.execute m).machine = ((b₁.execute m).andThen b₂.execute).machine ∧
          (b.execute m).failure.map Located.cause =
            ((b₁.execute m).andThen b₂.execute).failure.map Located.cause) ∧
    ∀ e, Block.parse registry second = .error e →
      ∃ p, e = .atChar e.cause p ∧ Block.parse registry (first ++ ';' :: second) =
        .error (.atChar e.cause (p + (first.length + 1))) := by
  have hcover : registry.Covers registry id id := fun name function hf => ⟨function, hf, rfl⟩
  have hwhole := Block.parse_semicolon h hs
  rcases (Block.parse_inStep hcover second (first.length + 1)).ends_alike with
    ⟨alone, moved, halone, hmoved, hmap⟩ | ⟨cause, p, halone, hmoved⟩
  · rw [Block.map_id] at hmap
    rw [hmoved, hmap] at hwhole
    refine ⟨fun b₂ hb => ?_, fun e he => nomatch halone.symm.trans he⟩
    cases halone.symm.trans hb
    refine ⟨_, hwhole, rfl, fun m => ?_⟩
    have hrun : (alone.map id (· + (first.length + 1))).execute =
        fun m => (alone.execute m).relocate (· + (first.length + 1)) :=
      funext fun m => alone.execute_map _ m
    rw [Block.execute_append, hrun]
    exact Outcome.andThen_relocate _ _ _
  · rw [hmoved] at hwhole
    refine ⟨fun b₂ hb => (nomatch halone.symm.trans hb), fun e he => ?_⟩
    cases halone.symm.trans he
    exact ⟨p, rfl, hwhole⟩

/-- A branch, and behind it an assignment or a refused text. -/
theorem Block.parse_sequence_branch_first :
    (∃ b₁ b₂ b,
      Block.parse Registry.builtin ['i', 'f', '(', 'a', ')', '{', 'x', '=', 'a', '}'] = .ok b₁ ∧
      Block.parse Registry.builtin ['y', '=', 'x'] = .ok b₂ ∧
      Block.parse Registry.builtin
        ['i', 'f', '(', 'a', ')', '{', 'x', '=', 'a', '}', ';', 'y', '=', 'x'] = .ok b ∧
      b = b₁.append (b₂.map id (· + 11)) ∧
      ∀ m, (b.execute m).machine = ((b₁.execute m).andThen b₂.execute).machine) ∧
    Block.parse Registry.builtin
        ['i', 'f', '(', 'a', ')', '{', 'x', '=', 'a', '}', ';', 'y', '=', 'x', ' ', 'x'] =
      .error (.atChar .adjacentVariables 15) := by
  let a : Plan := ⟨[⟨none, none, some (.variable "a")⟩]⟩
  let x : Plan := ⟨[⟨none, none, some (.variable "x")⟩]⟩
  have hfirst : Block.parse Registry.builtin ['i', 'f', '(', 'a', ')', '{', 'x', '=', 'a', '}'] =
      .ok (.cons (.branch a (.cons (.assign "x" a 6) .nil) .nothing 0) .nil) := by cbv
  have hsecond : Block.parse Registry.builtin ['y', '=', 'x'] =
      .ok (.cons (.assign "y" x 0) .nil) := by cbv
  have hrefused : Block.parse Registry.builtin ['y', '=', 'x', ' ', 'x'] =
      .error (.atChar .adjacentVariables 4) := by cbv
  have hfresh : Fragment.Fresh ['y', '=', 'x'] := by
    have hsplit : Fragment.split ['y', '=', 'x'] = .ok [⟨['y', '=', 'x'], 0, 0⟩] := by cbv
    intro f rest hf
    cases hsplit.symm.trans hf
    exact ⟨rfl, by decide⟩
  have hfresh' : Fragment.Fresh ['y', '=', 'x', ' ', 'x'] := by
    have hsplit : Fragment.split ['y', '=', 'x', ' ', 'x'] =
        .ok [⟨['y', '=', 'x', ' ', 'x'], 0, 0⟩] := by cbv
    intro f rest hf
    cases hsplit.symm.trans hf
    exact ⟨rfl, by decide⟩
  obtain ⟨b, hb, heq, hrun⟩ := (Block.parse_sequence hfirst hfresh).1 _ hsecond
  obtain ⟨p, hp, hwhole⟩ := (Block.parse_sequence hfirst hfresh').2 _ hrefused
  cases hp
  exact ⟨⟨_, _, b, hfirst, hsecond, hb, heq, fun m => (hrun m).1⟩, hwhole⟩

end DialogueScript
