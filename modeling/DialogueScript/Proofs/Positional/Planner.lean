import DialogueScript.Proofs.Growth
import DialogueScript.Proofs.Positional.Scanner

/-!
# Plans by positions

Compiling the tokens of an expression in place: signs are settled and runs of unary operators
put deeper by changing the tokens at their indices, operators claim their neighbours by index,
and a chain of steps is followed by searching the steps again and again for the one that uses
the result of the current one. A plan is run in place as well.

That following a chain ends rests on the steps referring to earlier ones only, which holds of a
draft at every point of its making (`Forest.Represents`). All else rests on indices that stay
inside the list while its items change.

Main statements:
1. `cascade_eq`: following a chain ends at `Draft.chainEnd`.
2. `placeAt_eq`: placing one operator; `placeAll_eq`: placing all of a schedule.
3. `compileText_eq`: compiling an expression by positions gives what `Plan.compile` gives.
4. `evaluate_eq`: running a plan in place gives its value.
-/

namespace DialogueScript.Positional

/-! ## The table of operators -/

/-- The row of the table that an operator stands for. -/
def row? (o : Operator) : Option Operator := Operator.all[o.ctorIdx]?

theorem row?_eq (o : Operator) : row? o = some o := by
  cases o <;> rfl

def isUnary? (t : Token) : Option Bool :=
  match t.operator? with
  | some o => (row? o).map Operator.isUnary
  | none => return false

theorem isUnary?_eq (t : Token) : isUnary? t = some t.isUnary := by
  unfold isUnary? Token.isUnary
  cases t.operator? with
  | none => rfl
  | some o =>
    simp only [row?_eq]
    rfl

/-! ## Signs -/

def followsOperator (tokens : List Token) (index : Nat) : Option Bool :=
  if 0 < index then do
    let before ← sub? index 1
    let t ← tokens[before]?
    return t.operator?.isSome
  else return false

/-- Turns the `-` at an index into a negation if it stands first or behind an operator. -/
def settleSign (tokens : List Token) (index : Nat) : Option (List Token) := do
  let follows ← followsOperator tokens index
  if index = 0 || follows then modify? tokens index fun t => { t with lexeme := .operator .negate }
  else return tokens

def settleSignsFrom : (fuel : Nat) → List Token → (index : Nat) → Option (List Token)
  | 0, _, _ => none
  | fuel + 1, tokens, index =>
    if index < tokens.length then do
      let t ← tokens[index]?
      let provisional ←
        match t.operator? with
        | some o => (row? o).map Operator.isProvisional
        | none => pure false
      if provisional then
        let tokens ← settleSign tokens index
        settleSignsFrom fuel tokens (index + 1)
      else settleSignsFrom fuel tokens (index + 1)
    else return tokens

/-! ## Runs of unary operators -/

/-- The end of a run of unary operators of one depth that continues at an index. -/
def runEnd (tokens : List Token) (depth : Nat) : (fuel stop : Nat) → Option Nat
  | 0, _ => none
  | fuel + 1, stop =>
    if stop < tokens.length then do
      let t ← tokens[stop]?
      let unary ← isUnary? t
      if unary && t.depth = depth then runEnd tokens depth fuel (stop + 1) else return stop
    else return stop

/-- Puts the tokens between two indices deeper, each by one level more than the one before. -/
def staggerBetween (tokens : List Token) (start stop : Nat) : Option (List Token) := do
  let run ← slice? tokens start stop
  return tokens.take start ++ (Token.stagger 1 run ++ tokens.drop stop)

/-- Puts the token at an index deeper, and if it opens a group, those behind it up to the end of
the group. -/
def raiseFrom (floor levels : Nat) (grouped : Bool) :
    (fuel : Nat) → List Token → (index : Nat) → Option (List Token)
  | 0, _, _ => none
  | fuel + 1, tokens, index => do
    -- The first token is raised whatever its depth; the floor only ends a group.
    let tokens ← modify? tokens index (Token.raise levels)
    if !grouped || tokens.length ≤ index + 1 then return tokens
    else
      let t ← tokens[index + 1]?
      if t.depth ≤ floor then return tokens
      else raiseFrom floor levels grouped fuel tokens (index + 1)

/-- Puts the run between two indices into levels, and the operand behind it as deep as the last
of them. -/
def raiseRun (tokens : List Token) (depth start stop : Nat) : Option (List Token) := do
  let levels ← sub? stop start
  if 1 < levels then
    let tokens ← staggerBetween tokens start stop
    if stop < tokens.length then
      let t ← tokens[stop]?
      raiseFrom depth levels (depth < t.depth) tokens.length tokens stop
    else return tokens
  else return tokens

def raiseRunsFrom : (fuel : Nat) → List Token → (start : Nat) → Option (List Token)
  | 0, _, _ => none
  | fuel + 1, tokens, start =>
    if start < tokens.length then do
      let t ← tokens[start]?
      if ← isUnary? t then
        let stop ← runEnd tokens t.depth tokens.length (start + 1)
        let tokens ← raiseRun tokens t.depth start stop
        raiseRunsFrom fuel tokens stop
      else raiseRunsFrom fuel tokens (start + 1)
    else return tokens

/-! ## Drafts -/

/-- The operators in the order in which they bind, which is looked up in their rows. -/
def schedule? (tokens : List Token) : Option (List Site) := do
  let sites ← (Site.ofTokens 0 tokens).mapM fun site =>
    (row? site.operator).map fun o => { site with operator := o }
  return sites.foldr Site.insert []

def claim? (d : Draft) (index : Nat) : Option Draft := do
  let cells ← modify? d.cells index fun cell => { cell with owner := some d.steps.length }
  return { d with cells }

/-- Follows a chain of steps: looks for a step that uses the result of the current one until
there is none. -/
def cascade (steps : List Step) : (fuel start : Nat) → Option Nat
  | 0, _ => none
  | fuel + 1, start =>
    match steps.findIdx? (·.uses start) with
    | some next => cascade steps fuel next
    | none => some start

/-- The fault of an operator without an operand. Its symbol is looked up in its row. -/
def missingOperand {α : Type} (o : Operator) (offset : Nat) : Reading α := do
  let row ← checked (row? o)
  throw (Draft.missingOperand row offset)

def tokenOperand (t : Token) : Reading Operand :=
  match t.lexeme with
  | .operator o => missingOperand o t.offset
  | .literal v => return .literal v
  | .variable name => return .variable name

def bindAt (d : Draft) (index : Nat) : Reading (Operand × Draft) := do
  let cell ← checked d.cells[index]?
  match cell.owner with
  | some owner =>
    let last ← checked (cascade d.steps (d.steps.length + 1) owner)
    return (.result last, d)
  | none =>
    let operand ← tokenOperand cell.token
    let d ← checked (claim? d index)
    return (operand, d)

def bindLeftAt (d : Draft) (index : Nat) (o : Operator) (offset : Nat) :
    Reading (Option Operand × Draft) := do
  let row ← checked (row? o)
  if row.isUnary then return (none, d)
  else
    match sub? index 1 with
    | none => missingOperand o offset
    | some before =>
      let (operand, d) ← bindAt d before
      return (some operand, d)

def placeAt (d : Draft) (index : Nat) (o : Operator) : Reading Draft := do
  let cell ← checked d.cells[index]?
  let d ← checked (claim? d index)
  let (left, d) ← bindLeftAt d index o cell.token.offset
  if d.cells.length ≤ index + 1 then missingOperand o cell.token.offset
  else
    let (right, d) ← bindAt d (index + 1)
    return { d with steps := d.steps ++ [⟨some o, left, some right⟩] }

def planOf (tokens : List Token) : Reading Plan :=
  if tokens.length ≤ 1 then
    match tokens.getLast? with
    | none => return .empty
    | some t => do
      let operand ← tokenOperand t
      return ⟨[⟨none, none, some operand⟩]⟩
  else do
    let tokens ← checked (raiseRunsFrom (tokens.length + 1) tokens 0)
    let sites ← checked (schedule? tokens)
    let d ← sites.foldlM (fun d site => placeAt d site.index site.operator) (Draft.ofTokens tokens)
    done d.finish

def compileText (text : List Char) (offset : Nat) : Reading Plan :=
  ExceptT.adapt (fun e => e.shift offset) do
    let tokens ← tokenize text
    let tokens ← checked (settleSignsFrom (tokens.length + 1) tokens 0)
    planOf tokens

/-! ## Evaluation -/

/-- The value of a step, whose operator is looked up in its row. -/
def stepValue (store : Store) (s : Step) : Option Value :=
  match s.operator with
  | some o => (row? o).map fun o => o.apply (Operand.read store s.left) (Operand.read store s.right)
  | none => return Operand.read store s.right

/-- Runs the steps from an index on, each result being put into its place behind. -/
def evaluateFrom (store : Store) : (fuel : Nat) → List Step → (index : Nat) → Option Value
  | 0, _, _ => none
  | fuel + 1, steps, index =>
    if index < steps.length then do
      let s ← steps[index]?
      let value ← stepValue store s
      let last ← sub? steps.length 1
      if index = last then return value
      else
        let behind ← suffix? steps (index + 1)
        let steps := steps.take (index + 1) ++ Plan.deliver index value behind
        evaluateFrom store fuel steps (index + 1)
    else return .undefined

def evaluate (store : Store) (p : Plan) : Option Value :=
  evaluateFrom store (p.steps.length + 1) p.steps 0

/-! ## Changes in place -/

def endsInOperand (front : List Token) : Bool := front.getLast?.any (·.operator?.isNone)

theorem endsInOperand_concat (front : List Token) (t : Token) :
    endsInOperand (front ++ [t]) = t.operator?.isNone := by
  simp [endsInOperand]

theorem settleSign_eq (front rest : List Token) (t : Token) :
    settleSign (front ++ t :: rest) front.length =
      some (front ++ (if endsInOperand front then t
        else { t with lexeme := .operator .negate }) :: rest) := by
  unfold settleSign followsOperator
  rcases List.eq_nil_or_concat' front with rfl | ⟨before, last, rfl⟩
  · rfl
  · have hlen : (before ++ [last]).length = before.length + 1 := by simp
    have hget : (before ++ [last] ++ t :: rest)[before.length]? = some last := by
      rw [List.append_assoc]
      exact getElem?_append_cons _ _ _
    rw [endsInOperand_concat, hlen, if_pos (Nat.succ_pos _), sub?_of_le (Nat.le_add_left 1 _),
      Nat.add_sub_cancel]
    simp only [hget, Option.bind_eq_bind, Option.bind_some, Option.pure_def]
    cases last.operator? with
    | none => rfl
    | some o =>
      rw [← hlen, Option.isSome_some, Bool.or_true, if_pos rfl, modify?_append]
      rfl

theorem settleSignsFrom_eq (front : List Token) {rest : List Token} {fuel : Nat}
    (hfuel : rest.length < fuel) :
    settleSignsFrom fuel (front ++ rest) front.length =
      some (front ++ Token.settleSigns (endsInOperand front) rest) := by
  induction rest generalizing front fuel with
  | nil =>
    obtain ⟨fuel, rfl, hleft⟩ := exists_round_of_lt hfuel
    rw [settleSignsFrom, if_neg (by simp)]
    rfl
  | cons t rest ih =>
    obtain ⟨fuel, rfl, hleft⟩ := exists_round_of_lt hfuel
    have hnext : ∀ u : Token, settleSignsFrom fuel (front ++ u :: rest) (front.length + 1) =
        some (front ++ u :: Token.settleSigns u.operator?.isNone rest) := by
      intro u
      have := ih (front ++ [u]) hleft
      rw [endsInOperand_concat] at this
      simpa using this
    rw [settleSignsFrom, if_pos (by simp), getElem?_append_cons, settleSign_eq]
    obtain ⟨lexeme, depth, offset⟩ := t
    rcases lexeme with o | v | name
    · simp only [Option.bind_eq_bind, Option.bind_some, Token.operator?, row?_eq, Option.map_some]
      by_cases ho : o = .subtract
      · subst ho
        rw [Token.settleSigns]
        cases endsInOperand front with
        | true => exact hnext _
        | false => exact hnext _
      · have hprovisional : o.isProvisional = false := decide_eq_false ho
        have hkeep : Token.settleSigns (endsInOperand front)
            (⟨.operator o, depth, offset⟩ :: rest) = ⟨.operator o, depth, offset⟩ :: Token.settleSigns false rest := by
          cases o <;> first | rfl | exact absurd rfl ho
        rw [hprovisional, hkeep]
        exact hnext _
    · exact hnext _
    · exact hnext _

theorem runEnd_eq (front : List Token) {rest : List Token} {fuel : Nat}
    (hfuel : rest.length < fuel) (depth : Nat) :
    runEnd (front ++ rest) depth fuel front.length =
      some (front.length + (rest.takeWhile fun u => u.isUnary && u.depth = depth).length) := by
  induction rest generalizing front fuel with
  | nil =>
    obtain ⟨fuel, rfl, hleft⟩ := exists_round_of_lt hfuel
    rw [runEnd, if_neg (by simp)]
    rfl
  | cons t rest ih =>
    obtain ⟨fuel, rfl, hleft⟩ := exists_round_of_lt hfuel
    have hnext := ih (front ++ [t]) hleft
    rw [← List.append_cons, List.length_append, List.length_singleton] at hnext
    rw [runEnd, if_pos (by simp), getElem?_append_cons]
    simp only [Option.bind_eq_bind, Option.bind_some, isUnary?_eq, List.takeWhile_cons]
    split
    · rw [hnext, List.length_cons, Nat.add_assoc, Nat.add_comm 1]
    · rfl

theorem raiseFrom_group (front : List Token) (t : Token) {rest : List Token} {fuel : Nat}
    (hfuel : rest.length < fuel) (floor levels : Nat) :
    raiseFrom floor levels true fuel (front ++ t :: rest) front.length =
      some (front ++ t.raise levels ::
        ((rest.takeWhile fun u => floor < u.depth).map (Token.raise levels) ++
          rest.dropWhile fun u => floor < u.depth)) := by
  induction rest generalizing front t fuel with
  | nil =>
    obtain ⟨fuel, rfl, hleft⟩ := exists_round_of_lt hfuel
    rw [raiseFrom, modify?_append]
    simp
  | cons u rest ih =>
    obtain ⟨fuel, rfl, hleft⟩ := exists_round_of_lt hfuel
    have hnext := ih (front ++ [t.raise levels]) u hleft
    rw [← List.append_cons, List.length_append, List.length_singleton] at hnext
    have hget : (front ++ t.raise levels :: u :: rest)[front.length + 1]? = some u := by
      simp
    rw [raiseFrom, modify?_append]
    simp only [Option.bind_eq_bind, Option.bind_some, hget]
    rw [if_neg (by simp)]
    by_cases hu : floor < u.depth
    · rw [if_neg (Nat.not_le.mpr hu), hnext]
      simp [hu]
    · rw [if_pos (Nat.not_lt.mp hu)]
      simp [hu]

theorem raiseFrom_eq (front : List Token) (t : Token) {rest : List Token} {fuel : Nat}
    (hfuel : rest.length < fuel) (floor levels : Nat) :
    raiseFrom floor levels (floor < t.depth) fuel (front ++ t :: rest) front.length =
      some (front ++ Token.raiseOperand floor levels (t :: rest)) := by
  rw [Token.raiseOperand]
  by_cases ht : floor < t.depth
  · rw [if_pos ht, decide_eq_true ht, raiseFrom_group front t hfuel]
  · obtain ⟨fuel, rfl, _⟩ := exists_round_of_lt hfuel
    rw [if_neg ht, decide_eq_false ht, raiseFrom, modify?_append]
    rfl

theorem staggerBetween_eq (front run rest : List Token) :
    staggerBetween (front ++ (run ++ rest)) front.length (front.length + run.length) =
      some (front ++ (Token.stagger 1 run ++ rest)) := by
  have hrun : slice? (front ++ (run ++ rest)) front.length (front.length + run.length) = some run :=
    slice?_append List.drop_left (by simp)
  have hrest : (front ++ (run ++ rest)).drop (front.length + run.length) = rest :=
    Text.drop_add_length List.drop_left
  rw [staggerBetween, hrun, hrest, List.take_left]
  rfl

theorem raiseRun_single (tokens : List Token) (depth start : Nat) :
    raiseRun tokens depth start (start + 1) = some tokens := by
  rw [raiseRun, sub?_of_le (Nat.le_add_right _ _), Nat.add_sub_cancel_left]
  rfl

theorem raiseRun_eq (front : List Token) {run : List Token} (rest : List Token) (depth : Nat)
    (h : 1 < run.length) :
    raiseRun (front ++ (run ++ rest)) depth front.length (front.length + run.length) =
      some (front ++ (Token.stagger 1 run ++ Token.raiseOperand depth run.length rest)) := by
  have hlen : (front ++ Token.stagger 1 run).length = front.length + run.length := by
    rw [List.length_append, Token.length_stagger]
  rw [raiseRun, sub?_of_le (Nat.le_add_right _ _), Nat.add_sub_cancel_left]
  simp only [Option.bind_eq_bind, Option.bind_some, if_pos h, staggerBetween_eq]
  rw [← List.append_assoc, ← hlen]
  cases rest with
  | nil =>
    rw [if_neg (by simp)]
    simp [Token.raiseOperand]
  | cons t rest =>
    rw [if_pos (by simp), getElem?_append_cons]
    simp only [Option.bind_some]
    rw [raiseFrom_eq _ _ (length_lt_append_cons _ _ _), List.append_assoc]

theorem runEnd_runAfter (front rest : List Token) {t : Token} (ht : t.isUnary = true) :
    runEnd (front ++ t :: rest) t.depth (front ++ t :: rest).length (front.length + 1) =
      some (front.length + (t :: t.runAfter rest).length) := by
  have hrun : t.runAfter rest = rest.takeWhile fun u => u.isUnary && u.depth = t.depth := if_pos ht
  have hlen : (front ++ [t]).length = front.length + 1 := List.length_append
  have hend := runEnd_eq (front ++ [t]) (length_lt_append_cons front rest t) t.depth
  rw [← List.append_cons, hlen, ← hrun] at hend
  rw [hend, List.length_cons, Nat.add_assoc, Nat.add_comm 1]

theorem raiseRunsFrom_cons (front rest : List Token) (t : Token) (fuel : Nat) :
    raiseRunsFrom (fuel + 1) (front ++ t :: rest) front.length =
      if t.isUnary then do
        let tokens ← raiseRun (front ++ t :: rest) t.depth front.length
          (front.length + (t :: t.runAfter rest).length)
        raiseRunsFrom fuel tokens (front.length + (t :: t.runAfter rest).length)
      else raiseRunsFrom fuel (front ++ t :: rest) (front.length + 1) := by
  rw [raiseRunsFrom, if_pos (by simp), getElem?_append_cons]
  simp only [Option.bind_eq_bind, Option.bind_some, isUnary?_eq]
  by_cases ht : t.isUnary = true
  · rw [if_pos ht, if_pos ht, runEnd_runAfter front rest ht]
    rfl
  · rw [if_neg ht, if_neg ht]

theorem raiseRunsFrom_eq (front : List Token) {rest : List Token} {fuel : Nat}
    (hfuel : rest.length < fuel) :
    raiseRunsFrom fuel (front ++ rest) front.length = some (front ++ Token.raiseRuns rest) := by
  fun_induction Token.raiseRuns rest generalizing front fuel with
  | case1 =>
    obtain ⟨fuel, rfl, hleft⟩ := exists_round_of_lt hfuel
    rw [raiseRunsFrom, if_neg (by simp)]
    rfl
  | case2 t rest more hmore ih =>
    obtain ⟨fuel, rfl, hleft⟩ := exists_round_of_lt hfuel
    have hnext := ih (front ++ [t]) hleft
    rw [← List.append_cons, ← List.append_cons, List.length_append, List.length_singleton] at hnext
    have hnil : t.runAfter rest = [] := List.isEmpty_iff.mp hmore
    rw [raiseRunsFrom_cons, hnil, List.length_singleton, raiseRun_single]
    split
    · exact hnext
    · exact hnext
  | case3 t rest more hmore ih =>
    obtain ⟨fuel, rfl, hleft⟩ := exists_round_of_lt hfuel
    have hunary : t.isUnary = true := by
      by_contra hu
      exact hmore (List.isEmpty_iff.mpr (if_neg hu))
    have hpos : 1 < (t :: more).length := by
      have := List.length_pos_iff.mpr fun h => hmore (List.isEmpty_iff.mpr h)
      simpa using this
    have hcut : t :: rest = (t :: more) ++ rest.drop more.length := by
      rw [List.cons_append, Token.runAfter_append_drop]
    have hlen : (front ++ Token.stagger 1 (t :: more)).length =
        front.length + (t :: more).length := by
      rw [List.length_append, Token.length_stagger]
    rw [raiseRunsFrom_cons, if_pos hunary, hcut, raiseRun_eq front _ t.depth hpos]
    simp only [Option.bind_eq_bind, Option.bind_some]
    rw [← List.append_assoc, ← List.append_assoc, ← hlen]
    have hless : (Token.raiseOperand t.depth (t :: more).length (rest.drop more.length)).length <
        fuel := by
      rw [Token.length_raiseOperand]
      exact Nat.lt_of_le_of_lt (length_le_of_drop_eq rfl) hleft
    exact ih (front ++ Token.stagger 1 (t :: more)) hless

/-! ## Placing operators -/

theorem schedule?_eq (tokens : List Token) : schedule? tokens = some (Site.schedule tokens) := by
  have hrows : ∀ sites : List Site,
      (sites.mapM fun site => (row? site.operator).map fun o => { site with operator := o }) =
        some sites := by
    intro sites
    induction sites with
    | nil => rfl
    | cons site rest ih =>
      rw [List.mapM_cons, ih, row?_eq]
      rfl
  rw [schedule?, hrows]
  rfl

theorem claim?_eq {d : Draft} {index : Nat} (h : index < d.cells.length) :
    claim? d index = some (d.claim index) := by
  rw [claim?, modify?_of_lt h]
  rfl

theorem findIdx?_uses_eq_none {steps : List Step} {k : Nat} (h : k ∉ Plan.references steps) :
    steps.findIdx? (·.uses k) = none := by
  rw [List.findIdx?_eq_none_iff]
  intro s hs
  rw [Bool.eq_false_iff]
  exact fun hu => h (List.mem_flatMap.mpr ⟨s, hs, Step.uses_iff.mp hu⟩)

/-- With the steps split in two and the current one used by none of the first, what is left of
the chain is found among the second. -/
theorem cascade_append {front rest : List Step} (hb : Plan.Backward 0 (front ++ rest))
    {fuel current : Nat} (hfuel : rest.length < fuel) (hc : current ∉ Plan.references front) :
    cascade (front ++ rest) fuel current =
      some ((rest.zipIdx front.length).foldl
        (fun current (s, index) => if s.uses current then index else current) current) := by
  induction rest generalizing front fuel current with
  | nil =>
    obtain ⟨fuel, rfl, _⟩ := exists_round_of_lt hfuel
    rw [List.append_nil, cascade, findIdx?_uses_eq_none hc]
    rfl
  | cons s rest ih =>
    have hfront : front ++ s :: rest = front ++ [s] ++ rest := by simp
    have hlen : (front ++ [s]).length = front.length + 1 := List.length_append
    have hb' := hfront ▸ hb
    rw [List.zipIdx_cons, List.foldl_cons]
    show _ = some (List.foldl _ (if s.uses current = true then front.length else current) _)
    by_cases hs : s.uses current = true
    · have hnext : front.length ∉ Plan.references (front ++ [s]) := fun hk => by
        have := Plan.lt_of_mem_references (Plan.backward_append.mp hb').1 hk
        omega
      have hfind : (front ++ s :: rest).findIdx? (·.uses current) = some front.length := by
        rw [List.findIdx?_append, findIdx?_uses_eq_none hc, List.findIdx?_cons, if_pos hs]
        simp
      obtain ⟨fuel, rfl, hleft⟩ := exists_round_of_lt hfuel
      rw [cascade, hfind, if_pos hs, hfront, ← hlen]
      exact ih hb' hleft hnext
    · have hnext : current ∉ Plan.references (front ++ [s]) := by
        rw [Plan.references_append, List.mem_append, not_or]
        refine ⟨hc, fun hk => hs (Step.uses_iff.mpr ?_)⟩
        simpa [Plan.references] using hk
      rw [if_neg hs, hfront, ← hlen]
      exact ih hb' (Nat.lt_of_succ_lt hfuel) hnext

theorem cascade_eq {steps : List Step} (hb : Plan.Backward 0 steps) (start : Nat) :
    cascade steps (steps.length + 1) start = some (Draft.chainEnd steps start) :=
  @cascade_append [] steps hb _ start (Nat.lt_succ_self _) List.not_mem_nil

theorem missingOperand_eq {α : Type} (o : Operator) (offset : Nat) :
    (missingOperand o offset : Reading α) = done (.error (Draft.missingOperand o offset)) := by
  rw [missingOperand, row?_eq]
  rfl

theorem bindAt_eq {d : Draft} {index : Nat} (hb : Plan.Backward 0 d.steps)
    (hi : index < d.cells.length) (site : Site) : bindAt d index = done (d.bind site index) := by
  unfold bindAt Draft.bind tokenOperand
  rw [List.getElem?_eq_getElem hi]
  simp only [checked_some, done_ok_bind, cascade_eq hb, claim?_eq hi, pure_eq_done,
    missingOperand_eq]
  generalize d.cells[index] = cell
  obtain ⟨⟨lexeme, depth, offset⟩, owner⟩ := cell
  cases owner with
  | some owner => rfl
  | none => rcases lexeme with o | v | name <;> rfl

theorem bindLeftAt_eq {d : Draft} {site : Site} (hb : Plan.Backward 0 d.steps)
    (hi : site.index < d.cells.length) :
    bindLeftAt d site.index site.operator site.offset = done (d.bindLeft site) := by
  unfold bindLeftAt Draft.bindLeft
  simp only [row?_eq, checked_some, done_ok_bind, missingOperand_eq]
  split
  · rfl
  · cases hindex : site.index with
    | zero => rfl
    | succ before =>
      have hbefore : before < d.cells.length := by omega
      rw [sub?_of_le (Nat.le_add_left 1 before), Nat.add_sub_cancel]
      simp only [bindAt_eq hb hbefore site]
      cases d.bind site before with
      | error e => rfl
      | ok found => rfl

theorem placeAt_eq {d : Draft} {site : Site} {cell : Cell} (hb : Plan.Backward 0 d.steps)
    (hcell : d.cells[site.index]? = some cell) (hoffset : cell.token.offset = site.offset) :
    placeAt d site.index site.operator = done (d.place site) := by
  have hi : site.index < d.cells.length := (List.getElem?_eq_some_iff.mp hcell).1
  have hi' : site.index < (d.claim site.index).cells.length := by
    rw [Draft.claim, List.length_modify]
    exact hi
  have hb' : Plan.Backward 0 (d.claim site.index).steps := hb
  rw [placeAt, hcell, checked_some, done_ok_bind, claim?_eq hi, checked_some, done_ok_bind, hoffset,
    bindLeftAt_eq hb' hi']
  cases hleft : (d.claim site.index).bindLeft site with
  | error e =>
    rw [Draft.place_eq_error_left hleft]
    rfl
  | ok found =>
    obtain ⟨left, d₁⟩ := found
    have hb₁ : Plan.Backward 0 d₁.steps := Draft.steps_of_bindLeft hleft ▸ hb'
    simp only [done_ok_bind, missingOperand_eq]
    split
    · next hend =>
      have hright : d₁.bind site (site.index + 1) =
          .error (Draft.missingOperand site.operator site.offset) := by
        rw [Draft.bind, List.getElem?_eq_none hend]
      rw [Draft.place_eq_error_right hleft hright]
    · next hend =>
      rw [bindAt_eq hb₁ (Nat.not_le.mp hend) site]
      cases hright : d₁.bind site (site.index + 1) with
      | error e =>
        rw [Draft.place_eq_error_right hleft hright]
        rfl
      | ok found =>
        rw [Draft.place_eq_ok hleft hright]
        rfl

/-- Placing a whole schedule. What the draft stands for after each operator says that the next
one is in range and that chains can be followed. -/
theorem placeAll_eq {d : Draft} {f : Forest} {schedule : List Site} (h : Forest.Represents d f)
    (hs : schedule.Perm (Forest.sites 0 f)) :
    schedule.foldlM (fun d site => placeAt d site.index site.operator) d =
      done (schedule.foldlM Draft.place d) := by
  -- What carries the induction: the sites still to be placed are those of the operators that are
  -- pending in the forest, so each of them has a cell of its own.
  induction schedule generalizing d f with
  | nil => rfl
  | cons site rest ih =>
    obtain ⟨before, t, after, rfl, hm⟩ :=
      Forest.exists_of_mem_sites (hs.mem_iff.mp List.mem_cons_self)
    rw [Nat.zero_add] at hm
    have hcell : d.cells[site.index]? = some ⟨t, none⟩ := by
      rw [h.cells, Forest.cells_append, Forest.cells_cons, hm.index_eq, ← Forest.length_cells]
      exact getElem?_append_cons _ _ _
    rw [List.foldlM_cons, List.foldlM_cons, placeAt_eq h.backward hcell hm.offset_eq.symm]
    cases hp : d.place site with
    | error e => rfl
    | ok d₁ =>
      obtain ⟨g, hg, hrep⟩ := Forest.grows_of_place h hm hp
      exact ih hrep (hs.trans hg.sites_perm).cons_inv

/-! ## Expressions -/

theorem planOf_eq (tokens : List Token) : planOf tokens = done (Plan.ofTokens tokens) := by
  match tokens with
  | [] => rfl
  | [t] =>
    obtain ⟨lexeme, depth, offset⟩ := t
    rcases lexeme with o | v | name
    · show missingOperand o offset >>= _ = _
      rw [missingOperand_eq]
      rfl
    · rfl
    · rfl
  | t :: u :: rest =>
    have hraise : raiseRunsFrom ((t :: u :: rest).length + 1) (t :: u :: rest) 0 =
        some (Token.raiseRuns (t :: u :: rest)) := raiseRunsFrom_eq [] (Nat.lt_succ_self _)
    have hperm := Site.schedule_perm (Token.raiseRuns (t :: u :: rest))
    rw [← Forest.sites_ofTokens] at hperm
    rw [planOf, if_neg (by simp), hraise, checked_some, done_ok_bind, schedule?_eq, checked_some,
      done_ok_bind, placeAll_eq (Forest.represents_ofTokens _) hperm]
    exact done_bind_done _ _

/-- Compiling an expression by positions gives what compiling it from lists gives. -/
theorem compileText_eq (text : List Char) (offset : Nat) :
    compileText text offset = done (Plan.compile text offset) := by
  have hsigns : ∀ tokens : List Token, settleSignsFrom (tokens.length + 1) tokens 0 =
      some (Token.settleSigns false tokens) :=
    fun tokens => settleSignsFrom_eq [] (Nat.lt_succ_self tokens.length)
  simp only [compileText, tokenize_eq, hsigns, checked_some, planOf_eq, done_bind_done, adapt_done]
  rfl

theorem stepValue_eq (store : Store) (s : Step) : stepValue store s = some (s.value store) := by
  obtain ⟨operator, left, right⟩ := s
  cases operator with
  | none => rfl
  | some o =>
    simp only [stepValue, row?_eq]
    rfl

/-- Running the steps behind some that have run. -/
theorem evaluateFrom_append (store : Store) {fuel index : Nat} {front rest : List Step}
    (h : front.length = index) (hfuel : rest.length < fuel) :
    evaluateFrom store fuel (front ++ rest) index = some (Plan.runFrom store index rest) := by
  -- Delivering a result changes steps behind the current one only, so the front stays in place.
  fun_induction Plan.runFrom store index rest generalizing front fuel with
  | case1 index =>
    obtain ⟨fuel, rfl, _⟩ := exists_round_of_lt hfuel
    subst h
    rw [evaluateFrom, if_neg (by simp)]
    rfl
  | case2 index last =>
    obtain ⟨fuel, rfl, _⟩ := exists_round_of_lt hfuel
    subst h
    have hlast : (front ++ [last]).length - 1 = front.length := by simp
    rw [evaluateFrom, if_pos (by simp), getElem?_append_cons, sub?_of_le (by simp), hlast]
    simp [stepValue_eq]
  | case3 index s next rest ih =>
    obtain ⟨fuel, rfl, hleft⟩ := exists_round_of_lt hfuel
    subst h
    have hmore : ¬front.length = (front ++ s :: next :: rest).length - 1 := by simp
    have hbehind : (front ++ s :: next :: rest).drop (front.length + 1) = next :: rest :=
      Text.drop_add_one List.drop_left
    have htaken : (front ++ s :: next :: rest).take (front.length + 1) = front ++ [s] := by
      simp [List.take_append]
    have hpos : 1 ≤ (front ++ s :: next :: rest).length := Nat.one_le_iff_ne_zero.mpr (by simp)
    rw [evaluateFrom, if_pos (by simp), getElem?_append_cons, sub?_of_le hpos,
      suffix?_of_le (by simp), hbehind, htaken]
    simp only [Option.bind_eq_bind, Option.bind_some, stepValue_eq, if_neg hmore]
    exact ih List.length_append (by simpa using hleft)

/-- Running a plan in place gives the value of the plan. -/
theorem evaluate_eq (store : Store) (p : Plan) : evaluate store p = some (p.evaluate store) :=
  @evaluateFrom_append store _ 0 [] p.steps rfl (Nat.lt_succ_self _)

end DialogueScript.Positional
