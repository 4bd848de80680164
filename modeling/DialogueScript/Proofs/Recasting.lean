import DialogueScript.Proofs.Growth

/-!
# Values and places of tokens

Which plan a list of tokens gets, and whether it gets one, is decided by its operators and its
depths. Where the tokens stand shows in faults only, and the value of a literal is handed on as
it is. So with other values and at other offsets the tokens get the same plan with these values,
or again none.

Main statement: `Plan.ofTokens_recast`.
-/

namespace DialogueScript

/-! ## Reasons aside -/

section

variable {ε ε' α β : Type}

theorem toOption_bind (x : Except ε α) (f : α → Except ε β) :
    (x >>= f).toOption = x.toOption.bind fun a => (f a).toOption := by
  cases x with
  | error e => rfl
  | ok a => rfl

theorem toOption_map (f : α → β) (x : Except ε α) : (x.map f).toOption = x.toOption.map f := by
  cases x with
  | error e => rfl
  | ok a => rfl

theorem toOption_mapError (f : ε → ε') (x : Except ε α) :
    (x.mapError f).toOption = x.toOption := by
  cases x with
  | error e => rfl
  | ok a => rfl

end

/-! ## Tokens -/

/-- A lexeme with another value if it is a literal. -/
def Lexeme.mapValue (f : Value → Value) : Lexeme → Lexeme
  | .operator o => .operator o
  | .literal v => .literal (f v)
  | .variable name => .variable name

namespace Token

/-- A token with another value and at another offset. -/
def recast (f : Value → Value) (g : Nat → Nat) (t : Token) : Token :=
  ⟨t.lexeme.mapValue f, t.depth, g t.offset⟩

variable (f : Value → Value) (g : Nat → Nat)

theorem operator?_recast (t : Token) : (t.recast f g).operator? = t.operator? := by
  obtain ⟨o | v | name, depth, offset⟩ := t
  · rfl
  · rfl
  · rfl

theorem isUnary_recast (t : Token) : (t.recast f g).isUnary = t.isUnary := by
  rw [isUnary, operator?_recast, isUnary]

theorem settleSigns_recast (after : Bool) (ts : List Token) :
    settleSigns after (ts.map (recast f g)) = (settleSigns after ts).map (recast f g) := by
  induction ts generalizing after with
  | nil => rfl
  | cons t ts ih =>
    obtain ⟨o | v | name, depth, offset⟩ := t
    · rw [List.map_cons]
      cases o <;> exact congrArg (_ :: ·) (ih false)
    · exact congrArg (_ :: ·) (ih true)
    · exact congrArg (_ :: ·) (ih true)

theorem stagger_recast (levels : Nat) (ts : List Token) :
    stagger levels (ts.map (recast f g)) = (stagger levels ts).map (recast f g) := by
  induction ts generalizing levels with
  | nil => rfl
  | cons t ts ih => exact congrArg (_ :: ·) (ih (levels + 1))

theorem raiseOperand_recast (floor levels : Nat) (ts : List Token) :
    raiseOperand floor levels (ts.map (recast f g)) =
      (raiseOperand floor levels ts).map (recast f g) := by
  cases ts with
  | nil => rfl
  | cons t ts =>
    rw [List.map_cons, raiseOperand, raiseOperand]
    show (if floor < t.depth then _ else _) = _
    split
    · rw [List.takeWhile_map, List.dropWhile_map, List.map_cons, List.map_append, List.map_map,
        List.map_map]
      rfl
    · rfl

theorem runAfter_recast (t : Token) (ts : List Token) :
    runAfter (t.recast f g) (ts.map (recast f g)) = (runAfter t ts).map (recast f g) := by
  unfold runAfter
  rw [isUnary_recast]
  split
  · rw [List.takeWhile_map]
    refine congrArg (fun p => (ts.takeWhile p).map (recast f g)) (funext fun u => ?_)
    show ((u.recast f g).isUnary && _) = _
    rw [isUnary_recast]
    rfl
  · rfl

theorem raiseRuns_recast (ts : List Token) :
    raiseRuns (ts.map (recast f g)) = (raiseRuns ts).map (recast f g) := by
  fun_induction raiseRuns ts with
  | case1 => rw [List.map_nil, raiseRuns]
  | case2 t rest more hmore ih =>
    have hmore' : ((runAfter t rest).map (recast f g)).isEmpty = true := by rwa [List.isEmpty_map]
    rw [List.map_cons, raiseRuns, runAfter_recast, if_pos hmore', ih, List.map_cons]
  | case3 t rest more hmore ih =>
    have hmore' : ¬((runAfter t rest).map (recast f g)).isEmpty = true := by rwa [List.isEmpty_map]
    rw [List.map_cons, raiseRuns, runAfter_recast, if_neg hmore', List.length_map, ← List.map_drop,
      ← List.map_cons, stagger_recast]
    show _ ++ raiseRuns (raiseOperand t.depth _ _) = _
    rw [raiseOperand_recast, ih, List.map_append]

end Token

/-! ## Schedules -/

namespace Site

def relocate (g : Nat → Nat) (s : Site) : Site := { s with offset := g s.offset }

variable (f : Value → Value) (g : Nat → Nat)

theorem ofTokens_recast (index : Nat) (ts : List Token) :
    ofTokens index (ts.map (Token.recast f g)) = (ofTokens index ts).map (relocate g) := by
  induction ts generalizing index with
  | nil => rfl
  | cons t ts ih =>
    rw [List.map_cons, ofTokens, ofTokens, ih, Token.operator?_recast]
    cases t.operator? with
    | none => rfl
    | some o => rfl

theorem insert_relocate (a : Site) (l : List Site) :
    insert (a.relocate g) (l.map (relocate g)) = (insert a l).map (relocate g) := by
  induction l with
  | nil => rfl
  | cons b l ih =>
    rw [List.map_cons, insert, insert]
    show (if a.bindsBefore b = true then _ else _) = _
    split
    · rfl
    · rw [ih, List.map_cons]

theorem schedule_recast (ts : List Token) :
    schedule (ts.map (Token.recast f g)) = (schedule ts).map (relocate g) := by
  unfold schedule
  rw [ofTokens_recast]
  induction ofTokens 0 ts with
  | nil => rfl
  | cons a l ih => rw [List.map_cons, List.foldr_cons, List.foldr_cons, ih, insert_relocate]

end Site

/-! ## Steps -/

def Operand.mapValue (f : Value → Value) : Operand → Operand
  | .literal v => .literal (f v)
  | .variable name => .variable name
  | .result k => .result k

def Step.mapValue (f : Value → Value) (s : Step) : Step :=
  ⟨s.operator, s.left.map (Operand.mapValue f), s.right.map (Operand.mapValue f)⟩

def Plan.mapValue (f : Value → Value) (plan : Plan) : Plan := ⟨plan.steps.map (Step.mapValue f)⟩

theorem Operand.map_mapValue_eq_result_iff {f : Value → Value} {operand : Option Operand} {k : Nat} :
    operand.map (mapValue f) = some (.result k) ↔ operand = some (.result k) := by
  rcases operand with _ | (v | name | j)
  · rfl
  · exact iff_of_false (fun h => nomatch h) fun h => nomatch h
  · exact iff_of_false (fun h => nomatch h) fun h => nomatch h
  · rfl

theorem Step.uses_mapValue (f : Value → Value) (s : Step) (index : Nat) :
    (s.mapValue f).uses index = s.uses index := by
  unfold uses mapValue
  rw [decide_eq_decide.mpr Operand.map_mapValue_eq_result_iff,
    decide_eq_decide.mpr Operand.map_mapValue_eq_result_iff]

namespace Draft

/-- A draft with other values and over tokens at other offsets. -/
def recast (f : Value → Value) (g : Nat → Nat) (d : Draft) : Draft where
  cells := d.cells.map fun cell => ⟨cell.token.recast f g, cell.owner⟩
  steps := d.steps.map (Step.mapValue f)

variable (f : Value → Value) (g : Nat → Nat)

theorem chainEnd_mapValue (steps : List Step) (start : Nat) :
    chainEnd (steps.map (Step.mapValue f)) start = chainEnd steps start := by
  unfold chainEnd
  rw [List.zipIdx_map, List.foldl_map]
  refine congrArg (fun step => steps.zipIdx.foldl step start) (funext fun current => funext fun x => ?_)
  show (if (x.1.mapValue f).uses current = true then _ else _) = _
  rw [Step.uses_mapValue]
  rfl

theorem ofTokens_recast (ts : List Token) :
    ofTokens (ts.map (Token.recast f g)) = (ofTokens ts).recast f g := by
  unfold ofTokens recast
  rw [List.map_map, List.map_map]
  rfl

theorem claim_recast (d : Draft) (index : Nat) :
    (d.recast f g).claim index = (d.claim index).recast f g := by
  unfold claim recast
  refine congrArg (Draft.mk · _) (List.ext_getElem? fun i => ?_)
  rw [List.getElem?_modify, List.getElem?_map, List.getElem?_map, List.getElem?_modify, List.length_map]
  cases d.cells[i]? with
  | none => rfl
  | some cell =>
    show some (if index = i then _ else _) = some _
    split
    · rfl
    · rfl

theorem bind_recast (d : Draft) (site : Site) (index : Nat) :
    ((d.recast f g).bind (site.relocate g) index).toOption =
      (d.bind site index).toOption.map fun found => (found.1.mapValue f, found.2.recast f g) := by
  have hcell : (d.recast f g).cells[index]? =
      d.cells[index]?.map fun cell => ⟨cell.token.recast f g, cell.owner⟩ := List.getElem?_map
  unfold bind
  rw [hcell]
  rcases d.cells[index]? with _ | ⟨⟨lexeme, depth, offset⟩, owner⟩
  · rfl
  cases owner with
  | some k =>
    show some (Operand.result (chainEnd (d.steps.map _) k), _) = _
    rw [chainEnd_mapValue]
    rfl
  | none =>
    rcases lexeme with o | v | name
    · rfl
    · exact congrArg (fun d => some (Operand.literal (f v), d)) (claim_recast f g d index)
    · exact congrArg (fun d => some (Operand.variable name, d)) (claim_recast f g d index)

theorem bindLeft_recast (d : Draft) (site : Site) :
    ((d.recast f g).bindLeft (site.relocate g)).toOption =
      (d.bindLeft site).toOption.map fun found =>
        (found.1.map (Operand.mapValue f), found.2.recast f g) := by
  obtain ⟨index, operator, depth, offset⟩ := site
  unfold bindLeft
  show Except.toOption (if operator.isUnary = true then _ else _) = _
  split
  · rfl
  · cases index with
    | zero => rfl
    | succ index =>
      show Except.toOption (((d.recast f g).bind _ index).map _) = _
      rw [toOption_map]
      refine (congrArg _ (bind_recast f g d ⟨index + 1, operator, depth, offset⟩ index)).trans ?_
      rw [toOption_map, Option.map_map, Option.map_map]
      rfl

theorem place_recast (d : Draft) (site : Site) :
    ((d.recast f g).place (site.relocate g)).toOption = (d.place site).toOption.map (recast f g) := by
  unfold place
  have hleft := bindLeft_recast f g (d.claim site.index) site
  rw [← claim_recast] at hleft
  rw [toOption_bind, toOption_bind]
  refine (congrArg (fun x => Option.bind x _) hleft).trans ?_
  cases (d.claim site.index).bindLeft site with
  | error e => rfl
  | ok found =>
    obtain ⟨left, d₁⟩ := found
    show Except.toOption ((d₁.recast f g).bind (site.relocate g) (site.index + 1) >>= _) = _
    rw [toOption_bind]
    refine (congrArg (fun x => Option.bind x _) (bind_recast f g d₁ site (site.index + 1))).trans ?_
    show _ = Option.map _ (Except.toOption (d₁.bind site (site.index + 1) >>= _))
    cases d₁.bind site (site.index + 1) with
    | error e => rfl
    | ok found =>
      obtain ⟨right, d₂⟩ := found
      show some (Draft.mk _ (d₂.steps.map _ ++ _)) = some (Draft.mk _ ((d₂.steps ++ _).map _))
      rw [List.map_append]
      rfl

theorem foldlM_place_recast (d : Draft) (schedule : List Site) :
    ((schedule.map (Site.relocate g)).foldlM place (d.recast f g)).toOption =
      (schedule.foldlM place d).toOption.map (recast f g) := by
  induction schedule generalizing d with
  | nil => rfl
  | cons site rest ih =>
    rw [List.map_cons, List.foldlM_cons, List.foldlM_cons, toOption_bind, toOption_bind,
      place_recast]
    cases d.place site with
    | error e => rfl
    | ok d₁ => exact ih d₁

theorem finish_recast (d : Draft) :
    (d.recast f g).finish.toOption = d.finish.toOption.map (Plan.mapValue f) := by
  have hfind : (d.recast f g).cells.find? (fun cell => cell.owner.isNone) =
      (d.cells.find? fun cell => cell.owner.isNone).map fun cell =>
        ⟨cell.token.recast f g, cell.owner⟩ := List.find?_map
  unfold finish
  rw [hfind]
  cases d.cells.find? fun cell => cell.owner.isNone with
  | none => rfl
  | some cell => rfl

end Draft

namespace Plan

/-- With other values and at other offsets, tokens get the same plan with these values, or
again none. -/
theorem ofTokens_recast (f : Value → Value) (g : Nat → Nat) (ts : List Token) :
    (ofTokens (ts.map (Token.recast f g))).toOption = (ofTokens ts).toOption.map (mapValue f) := by
  match ts with
  | [] => rfl
  | [⟨lexeme, depth, offset⟩] =>
    rcases lexeme with o | v | name
    · rfl
    · rfl
    · rfl
  | t :: u :: rest =>
    show (ofDraft ((t :: u :: rest).map (Token.recast f g))).toOption =
      (ofDraft (t :: u :: rest)).toOption.map (mapValue f)
    rw [ofDraft_eq, ofDraft_eq, Token.raiseRuns_recast, Site.schedule_recast, Draft.ofTokens_recast,
      toOption_bind, toOption_bind, Draft.foldlM_place_recast]
    cases (Site.schedule (Token.raiseRuns (t :: u :: rest))).foldlM Draft.place
        (Draft.ofTokens (Token.raiseRuns (t :: u :: rest))) with
    | error e => rfl
    | ok d => exact Draft.finish_recast f g d

end Plan

end DialogueScript
