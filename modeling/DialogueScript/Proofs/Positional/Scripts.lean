import DialogueScript.Proofs.Positional.Statements
import DialogueScript.Script

/-!
# Scripts by positions

A source is cut into fragments, and the fragments between two indices are read as a block: a
statement tells how many fragments it took, and the block of a clause is a range that ends where
the depths fall back. Every range lies inside the one around it and every statement takes at
least one fragment, so the reading ends.

Main statements:
1. `parseBlock_eq`: the fragments of a range read by indices are the block of their list.
2. `compile_execute_in_range`: on every source, registry, node, store and draws, compiling and
   executing by positions comes to an end with every operation in range, and gives what
   `Script.compile` and `Script.execute` give.
-/

namespace DialogueScript.Positional

open Text

/-! ## Fragments -/

/-- Cuts up a source from an index on. The current piece began at `start`, and `piece` has been
read of it. -/
def splitFrom (index depth start : Nat) (piece : List Char) (fragments : List Fragment) :
    List Char → Reading (List Fragment)
  | [] =>
    if depth ≠ 0 then throw (.atChar .unclosedBrace index)
    else return fragments ++ Fragment.ofPiece piece depth start
  | c :: rest =>
    if c ≠ ';' ∧ c ≠ '{' ∧ c ≠ '}' then
      splitFrom (index + 1) depth start (piece ++ [c]) fragments rest
    else
      -- A piece has the depth in front of its delimiter.
      let fragments := fragments ++ Fragment.ofPiece piece depth start
      if c = '{' then splitFrom (index + 1) (depth + 1) (index + 1) [] fragments rest
      else if c = '}' then
        if depth = 0 then throw (.atChar .unopenedBrace index)
        else do
          let depth ← checked (sub? depth 1)
          splitFrom (index + 1) depth (index + 1) [] fragments rest
      else splitFrom (index + 1) depth (index + 1) [] fragments rest

/-! ## Blocks -/

section

variable {φ : Type} (registry : NameTable φ) (fragments : List Fragment)

/-- Where the run of fragments that stand deeper than a depth ends, from an index on and up to a
limit. -/
def runStop (depth limit : Nat) : (fuel stop : Nat) → Option Nat
  | 0, _ => none
  | fuel + 1, stop =>
    if stop < limit then do
      let f ← fragments[stop]?
      if depth < f.depth then runStop depth limit fuel (stop + 1) else return stop
    else return stop

/-- Where the block that begins at an index ends, if one begins there. -/
def blockStop (depth start limit : Nat) : Option (Option Nat) :=
  if limit ≤ start then return none
  else do
    let f ← fragments[start]?
    if f.depth ≤ depth then return none
    else
      let stop ← runStop fragments depth limit limit (start + 1)
      return some stop

def requireBlock (f : Fragment) (introducer : Introducer) (depth start limit : Nat) :
    Reading Nat := do
  match ← checked (blockStop fragments depth start limit) with
  | some stop => return stop
  | none => throw (.atChar (.missingBlock introducer) (f.offset + f.text.length))

def isClauseAt (index limit depth : Nat) (test : List Char → Bool) : Option Bool :=
  if index < limit then do
    let f ← fragments[index]?
    return f.depth = depth && test f.text
  else return false

def readWith {α : Type} (f : Fragment) (read : List Char → Reading α) : Reading α :=
  (read f.text).adapt fun e => e.shift f.offset

mutual

/-- Reads the fragments from an index up to a limit as one block. -/
def parseBlock : (fuel index limit : Nat) → Reading (Block φ)
  | 0, _, _ => checked none
  | fuel + 1, index, limit =>
    if index < limit then do
      let (head, consumed) ← parseStatement fuel index limit
      let tail ← parseBlock fuel (index + consumed) limit
      return .cons head tail
    else return .nil

/-- Reads the statement at an index, with the number of fragments it takes. -/
def parseStatement : (fuel index limit : Nat) → Reading (Statement φ × Nat)
  | 0, _, _ => checked none
  | fuel + 1, index, limit => do
    let f ← checked fragments[index]?
    match ← readWith f classify with
    | .assignment =>
      let (target, value) ← readWith f readAssignment
      return (.assign target value f.offset, 1)
    | .call =>
      let (name, function, arguments) ← readWith f (readCall registry)
      return (.call name function arguments f.offset, 1)
    | .branch => parseBranch fuel index limit

/-- Reads the branch at an index, with the number of fragments it takes. -/
def parseBranch : (fuel index limit : Nat) → Reading (Statement φ × Nat)
  | 0, _, _ => checked none
  | fuel + 1, index, limit => do
    let f ← checked fragments[index]?
    let stop ← requireBlock fragments f .onIf f.depth (index + 1) limit
    let condition ← readWith f (readCondition .onIf)
    let body ← parseBlock fuel (index + 1) stop
    let (otherwise, next) ← parseClauses f.depth fuel stop limit
    let consumed ← checked (sub? next index)
    return (.branch condition body otherwise f.offset, consumed)

/-- Reads the clauses that continue a branch at a depth, with the index behind them. -/
def parseClauses (depth : Nat) : (fuel index limit : Nat) → Reading (Otherwise φ × Nat)
  | 0, _, _ => checked none
  | fuel + 1, index, limit => do
    if ← checked (isClauseAt fragments index limit depth Introducer.isElseIf) then
      let f ← checked fragments[index]?
      let stop ← requireBlock fragments f .onElseIf depth (index + 1) limit
      let condition ← readWith f (readCondition .onElseIf)
      let body ← parseBlock fuel (index + 1) stop
      let (otherwise, next) ← parseClauses depth fuel stop limit
      return (.elseIf condition body otherwise, next)
    else if ← checked (isClauseAt fragments index limit depth Introducer.isElse) then
      let f ← checked fragments[index]?
      let stop ← requireBlock fragments f .onElse depth (index + 1) limit
      let body ← parseBlock fuel (index + 1) stop
      return (.block body, stop)
    else return (.nothing, index)

end

end

def parse {φ : Type} (registry : NameTable φ) (source : List Char) : Reading (Block φ) := do
  let fragments ← splitFrom 0 0 0 [] [] source
  -- A fragment is read by a block, a statement and a branch in turn.
  parseBlock registry fragments (3 * fragments.length + 1) 0 fragments.length

def compile (registry : Registry) (source : String) (node : Option Nat) : Reading Script :=
  ExceptT.adapt (fun e => e.resolve source.toList node) do
    let root ← parse registry source.toList
    return { source, root }

/-! ## Execution -/

mutual

/-- Executes a statement, every plan in it being run in place. -/
def executeStatement (m : Machine) : Statement HostFunction → Option Outcome
  | .assign target value _ => do
    let value ← evaluate m.store value
    return ⟨none, m.assign target value⟩
  | .call name function arguments offset => do
    let arguments ← arguments.mapM (evaluate m.store)
    match m.call name function arguments with
    | (.ok _, m) => return ⟨none, m⟩
    | (.error message, m) => return ⟨some (.atChar ⟨name, message⟩ offset), m⟩
  | .branch condition body otherwise _ => do
    let value ← evaluate m.store condition
    if value.truthy then executeBlock m body else executeOtherwise m otherwise

def executeBlock (m : Machine) : Block HostFunction → Option Outcome
  | .nil => return ⟨none, m⟩
  | .cons head tail => do
    match ← executeStatement m head with
    | ⟨none, m⟩ => executeBlock m tail
    | failed => return failed

def executeOtherwise (m : Machine) : Otherwise HostFunction → Option Outcome
  | .nothing => return ⟨none, m⟩
  | .block body => executeBlock m body
  | .elseIf condition body otherwise => do
    let value ← evaluate m.store condition
    if value.truthy then executeBlock m body else executeOtherwise m otherwise

end

def execute (s : Script) (node : Option Nat) (m : Machine) : Option Outcome := do
  let outcome ← executeBlock m s.root
  return { outcome with failure := outcome.failure.map fun e => e.resolve s.source.toList node }

/-! ## Fragments of a source -/

/-- The index stands behind what has been read of the current piece. -/
theorem splitFrom_eq (start depth : Nat) (read : List Char) (fragments : List Fragment)
    (text : List Char) :
    splitFrom (start + read.length) depth start read.reverse fragments text =
      done ((Fragment.splitFrom start depth read text).map (fragments ++ ·)) := by
  induction text generalizing start depth read fragments with
  | nil =>
    rw [splitFrom, Fragment.splitFrom]
    by_cases hd : depth = 0
    · rw [if_neg (not_not.mpr hd), if_pos hd]
      rfl
    · rw [if_pos hd, if_neg hd]
      rfl
  | cons c rest ih =>
    have hnext : ∀ depth', splitFrom (start + read.length + 1) depth' (start + read.length + 1) []
        (fragments ++ Fragment.ofPiece read.reverse depth start) rest =
          done (((Fragment.splitFrom (start + read.length + 1) depth' [] rest).map
            (Fragment.ofPiece read.reverse depth start ++ ·)).map (fragments ++ ·)) := by
      intro depth'
      rw [Token.map_append_map]
      exact ih (start + read.length + 1) depth' [] _
    rw [splitFrom, Fragment.splitFrom]
    by_cases hs : c = ';'
    · subst hs
      exact hnext depth
    by_cases hl : c = '{'
    · subst hl
      exact hnext (depth + 1)
    by_cases hr : c = '}'
    · subst hr
      by_cases hd : depth = 0
      · subst hd
        rfl
      · show (if depth = 0 then _ else _) = done (Except.map _ (if depth = 0 then _ else _))
        rw [if_neg hd, if_neg hd, sub?_of_le (Nat.pos_of_ne_zero hd)]
        exact hnext (depth - 1)
    · rw [if_pos ⟨hs, hl, hr⟩]
      simp only [if_neg hs, if_neg hl, if_neg hr]
      have := ih start depth (c :: read) fragments
      rwa [List.length_cons, List.reverse_cons] at this

/-! ## Ranges of fragments -/

section

variable (fragments : List Fragment)

def part (start limit : Nat) : List Fragment := (fragments.take limit).drop start

variable {fragments} {start limit : Nat}

theorem part_of_le (h : limit ≤ start) : part fragments start limit = [] := by
  rw [part, List.drop_eq_nil_iff, List.length_take]
  omega

theorem part_cons (h : start < limit) (hl : limit ≤ fragments.length) :
    ∃ f, fragments[start]? = some f ∧
      part fragments start limit = f :: part fragments (start + 1) limit := by
  have hlen : start < (fragments.take limit).length := by
    rw [List.length_take]
    omega
  refine ⟨fragments[start], List.getElem?_eq_getElem _, ?_⟩
  rw [part, List.drop_eq_getElem_cons hlen, List.getElem_take]
  rfl

theorem drop_part (k : Nat) :
    (part fragments start limit).drop k = part fragments (start + k) limit :=
  List.drop_drop

theorem take_part {k : Nat} (h : start + k ≤ limit) :
    (part fragments start limit).take k = part fragments start (start + k) := by
  rw [part, List.take_drop, List.take_take, Nat.min_eq_left h]
  rfl

theorem length_part (hl : limit ≤ fragments.length) :
    (part fragments start limit).length = limit - start := by
  rw [part, List.length_drop, List.length_take, Nat.min_eq_left hl]

theorem runStop_eq {fuel depth : Nat} (h : start ≤ limit) (hl : limit ≤ fragments.length)
    (hfuel : limit - start < fuel) :
    runStop fragments depth limit fuel start =
      some (start + ((part fragments start limit).takeWhile fun g => depth < g.depth).length) := by
  induction hn : limit - start generalizing fuel start with
  | zero =>
    obtain ⟨fuel, rfl, _⟩ := exists_round_of_lt hfuel
    have hge : limit ≤ start := by omega
    rw [runStop, if_neg (Nat.not_lt.mpr hge), part_of_le hge]
    rfl
  | succ n ih =>
    obtain ⟨fuel, rfl, hleft⟩ := exists_round_of_lt hfuel
    have hlt : start < limit := by omega
    obtain ⟨f, hf, hpart⟩ := part_cons hlt hl
    rw [runStop, if_pos hlt, hf, hpart, List.takeWhile_cons]
    simp only [Option.bind_eq_bind, Option.bind_some]
    by_cases hd : depth < f.depth
    · rw [if_pos hd, if_pos (decide_eq_true hd), ih hlt (by omega) (by omega), List.length_cons]
      simp [Nat.add_assoc, Nat.add_comm 1]
    · rw [if_neg hd, if_neg (by simpa using hd)]
      rfl

variable (f : Fragment)

/-- The range that stands deeper than a fragment, and the range from its end on. -/
theorem beneath_part (h : start ≤ limit) (hl : limit ≤ fragments.length) :
    ∃ stop, start ≤ stop ∧ stop ≤ limit ∧
      stop = start + (f.beneath (part fragments start limit)).length ∧
      f.beneath (part fragments start limit) = part fragments start stop ∧
      f.beyond (part fragments start limit) = part fragments stop limit := by
  have hle := f.length_beneath_le (part fragments start limit)
  rw [length_part hl] at hle
  have hstop : start + (f.beneath (part fragments start limit)).length ≤ limit := by omega
  have hall := f.beneath_append_beyond (part fragments start limit)
  have htake := congrArg (List.take (f.beneath (part fragments start limit)).length) hall
  have hdrop := congrArg (List.drop (f.beneath (part fragments start limit)).length) hall
  rw [List.take_left, take_part hstop] at htake
  rw [List.drop_left, drop_part] at hdrop
  exact ⟨_, Nat.le_add_right _ _, hstop, rfl, htake, hdrop⟩

theorem requireBlock_eq (introducer : Introducer) (hl : limit ≤ fragments.length) :
    requireBlock fragments f introducer f.depth start limit =
      done ((f.requireBlock introducer (part fragments start limit)).map fun _ =>
        start + (f.beneath (part fragments start limit)).length) := by
  unfold requireBlock Fragment.requireBlock blockStop
  by_cases hge : limit ≤ start
  · rw [if_pos hge, part_of_le hge]
    rfl
  · obtain ⟨g, hg, hpart⟩ := part_cons (Nat.not_le.mp hge) hl
    rw [if_neg hge, hg, hpart, Fragment.beneath, List.takeWhile_cons]
    simp only [Option.bind_eq_bind, Option.bind_some]
    by_cases hd : f.depth < g.depth
    · rw [if_neg (Nat.not_le.mpr hd), runStop_eq (Nat.not_le.mp hge) hl (by omega),
        if_pos (decide_eq_true hd)]
      simp [Except.map, Nat.add_assoc, Nat.add_comm 1]
    · rw [if_pos (Nat.not_lt.mp hd), if_neg (by simpa using hd)]
      rfl

theorem isClauseAt_nil (h : limit ≤ start) (depth : Nat) (test : List Char → Bool) :
    isClauseAt fragments start limit depth test = some false := by
  rw [isClauseAt, if_neg (Nat.not_lt.mpr h)]
  rfl

theorem isClauseAt_cons {g : Fragment} (h : start < limit) (hg : fragments[start]? = some g)
    (depth : Nat) (test : List Char → Bool) :
    isClauseAt fragments start limit depth test = some (g.depth = depth && test g.text) := by
  rw [isClauseAt, if_pos h, hg]
  rfl

theorem readWith_eq {α : Type} {read : List Char → Reading α}
    {read' : List Char → Except (Located Fault) α} (h : ∀ text, read text = done (read' text)) :
    readWith f read = done (f.readWith read') := by
  rw [readWith, h]
  rfl

end

/-! ## Blocks of a range -/

section

variable {φ : Type} (registry : NameTable φ) (fragments : List Fragment)

/-- The statement at an index is read with the number of fragments it takes, at least one, and
with the block behind it is the block of the range. Three rounds for each fragment of the range
suffice. -/
structure StatementRead (index limit consumed : Nat) (r : Except (Located Fault) (Statement φ)) :
    Prop where
  consumed_pos : 0 < consumed
  consumed_le : index + consumed ≤ limit
  done_eq : ∀ fuel, 3 * (limit - index) ≤ fuel →
    parseStatement registry fragments fuel index limit = done (r.map fun s => (s, consumed))
  ofFragments_eq : Block.ofFragments registry (part fragments index limit) = do
    let head ← r
    let tail ← Block.ofFragments registry (part fragments (index + consumed) limit)
    return .cons head tail

/-- The clauses from an index on are read with the index behind them, and with the block that
begins there are the clauses and the block of the range. -/
structure ClausesRead (depth index limit next : Nat) (r : Except (Located Fault) (Otherwise φ)) :
    Prop where
  le_next : index ≤ next
  next_le : next ≤ limit
  done_eq : ∀ fuel, 3 * (limit - index) < fuel →
    parseClauses registry fragments depth fuel index limit = done (r.map fun o => (o, next))
  ofFragments_eq : Otherwise.ofFragments registry depth (part fragments index limit) = do
    let otherwise ← r
    let tail ← Block.ofFragments registry (part fragments next limit)
    return (otherwise, tail)

/-- The range is read as a block, and as the rest of a branch at any depth. -/
structure RangeRead (index limit : Nat) : Prop where
  block : ∀ fuel, 3 * (limit - index) < fuel →
    parseBlock registry fragments fuel index limit =
      done (Block.ofFragments registry (part fragments index limit))
  clauses : ∀ depth, ∃ next r, ClausesRead registry fragments depth index limit next r

variable {registry fragments} {index limit : Nat}

section

variable (hl : limit ≤ fragments.length)
  (ih : ∀ {i l : Nat}, index < i → i ≤ l → l ≤ limit → RangeRead registry fragments i l)

include hl ih

/-- A branch is read if all later ranges are. -/
theorem exists_branchRead (h : index < limit) {f : Fragment} (hf : fragments[index]? = some f)
    (hpart : part fragments index limit = f :: part fragments (index + 1) limit)
    (hkind : f.readWith StatementKind.classify = .ok .branch) :
    ∃ consumed r, StatementRead registry fragments index limit consumed r := by
  obtain ⟨stop, hstart, hstop, hlen, hbeneath, hbeyond⟩ := beneath_part f h hl
  have hbody := (ih (Nat.lt_succ_self index) hstart hstop).block
  obtain ⟨next, r, hr⟩ := (ih hstart hstop (Nat.le_refl limit)).clauses f.depth
  have hlt : index < next := Nat.lt_of_lt_of_le hstart hr.le_next
  have hnext : index + (next - index) = next := Nat.add_sub_cancel' hlt.le
  have hsub : sub? next index = some (next - index) := sub?_of_le hlt.le
  refine ⟨next - index, do
    f.requireBlock .onIf (part fragments (index + 1) limit)
    let condition ← f.readWith (Statement.readCondition .onIf)
    let body ← Block.ofFragments registry (part fragments (index + 1) stop)
    let otherwise ← r
    return .branch condition body otherwise f.offset,
    Nat.sub_pos_of_lt hlt, hnext.symm ▸ hr.next_le, fun fuel hfuel => ?_, ?_⟩
  · obtain ⟨fuel, rfl⟩ := Nat.exists_eq_add_of_le' (show 2 ≤ fuel by omega)
    have hparse : parseStatement registry fragments (fuel + 2) index limit =
        parseBranch registry fragments (fuel + 1) index limit := by
      rw [parseStatement, hf, checked_some, done_ok_bind, readWith_eq f classify_eq, hkind]
      rfl
    have hbody := hbody fuel (by omega)
    have hclauses := hr.done_eq fuel (by omega)
    rw [hparse, parseBranch, hf, checked_some, done_ok_bind, requireBlock_eq f .onIf hl, ← hlen]
    simp only [done_map_bind, readWith_eq f (readCondition_eq .onIf), hbody, hclauses, hsub,
      checked_some, done_bind_pure, done_bind_done]
    simp only [map_eq_bind, bind_assoc, pure_bind]
    rfl
  · rw [hpart, Block.ofFragments, hkind, hbeneath, hbeyond, hr.ofFragments_eq, hnext]
    simp only [bind_assoc, pure_bind]
    rfl

theorem exists_statementRead (h : index < limit) :
    ∃ consumed r, StatementRead registry fragments index limit consumed r := by
  obtain ⟨f, hf, hpart⟩ := part_cons h hl
  cases hkind : f.readWith StatementKind.classify with
  | error e =>
    refine ⟨1, .error e, Nat.one_pos, h, fun fuel hfuel => ?_, ?_⟩
    · obtain ⟨fuel, rfl⟩ := Nat.exists_eq_add_of_le' (show 1 ≤ fuel by omega)
      rw [parseStatement, hf, checked_some, done_ok_bind, readWith_eq f classify_eq, hkind]
      rfl
    · rw [hpart, Block.ofFragments, hkind]
      rfl
  | ok kind =>
    cases kind with
    | branch => exact exists_branchRead hl ih h hf hpart hkind
    | assignment =>
      refine ⟨1, (f.readWith Statement.readAssignment).map fun (target, value) =>
        .assign target value f.offset, Nat.one_pos, h, fun fuel hfuel => ?_, ?_⟩
      · obtain ⟨fuel, rfl⟩ := Nat.exists_eq_add_of_le' (show 1 ≤ fuel by omega)
        rw [parseStatement, hf, checked_some, done_ok_bind, readWith_eq f classify_eq, hkind,
          done_ok_bind, readWith_eq f readAssignment_eq]
        cases f.readWith Statement.readAssignment <;> rfl
      · rw [hpart, Block.ofFragments, hkind]
        cases f.readWith Statement.readAssignment <;> rfl
    | call =>
      refine ⟨1, (f.readWith (Statement.readCall registry)).map fun (name, function, arguments) =>
        .call name function arguments f.offset, Nat.one_pos, h, fun fuel hfuel => ?_, ?_⟩
      · obtain ⟨fuel, rfl⟩ := Nat.exists_eq_add_of_le' (show 1 ≤ fuel by omega)
        rw [parseStatement, hf, checked_some, done_ok_bind, readWith_eq f classify_eq, hkind,
          done_ok_bind, readWith_eq f (readCall_eq registry)]
        cases f.readWith (Statement.readCall registry) <;> rfl
      · rw [hpart, Block.ofFragments, hkind]
        cases f.readWith (Statement.readCall registry) <;> rfl

/-- A clause with a condition is read, and the clauses behind it, if all later ranges are. -/
theorem exists_elseIfRead (h : index < limit) {f : Fragment} (hf : fragments[index]? = some f)
    (hpart : part fragments index limit = f :: part fragments (index + 1) limit)
    (helseIf : (f.depth = f.depth && Introducer.isElseIf f.text) = true) :
    ∃ next r, ClausesRead registry fragments f.depth index limit next r := by
  obtain ⟨stop, hstart, hstop, hlen, hbeneath, hbeyond⟩ := beneath_part f h hl
  have hbody := (ih (Nat.lt_succ_self index) hstart hstop).block
  obtain ⟨next, r, hr⟩ := (ih hstart hstop (Nat.le_refl limit)).clauses f.depth
  refine ⟨next, do
    f.requireBlock .onElseIf (part fragments (index + 1) limit)
    let condition ← f.readWith (Statement.readCondition .onElseIf)
    let body ← Block.ofFragments registry (part fragments (index + 1) stop)
    let otherwise ← r
    return .elseIf condition body otherwise,
    (Nat.le_of_lt hstart).trans hr.le_next, hr.next_le, fun fuel hfuel => ?_, ?_⟩
  · obtain ⟨fuel, rfl, hleft⟩ := exists_round_of_lt hfuel
    have hbody := hbody fuel (by omega)
    have hclauses := hr.done_eq fuel (by omega)
    rw [parseClauses, isClauseAt_cons h hf, helseIf, hf, checked_some, done_ok_bind, if_pos rfl,
      checked_some, done_ok_bind, requireBlock_eq f .onElseIf hl, ← hlen]
    simp only [done_map_bind, readWith_eq f (readCondition_eq .onElseIf), hbody, hclauses,
      done_bind_pure, done_bind_done]
    simp only [map_eq_bind, bind_assoc, pure_bind]
  · rw [hpart, Otherwise.ofFragments, if_pos helseIf, hbeneath, hbeyond, hr.ofFragments_eq]
    simp only [bind_assoc, pure_bind]

/-- So is a clause without one, which is the last. -/
theorem exists_elseRead (h : index < limit) {f : Fragment} (hf : fragments[index]? = some f)
    (hpart : part fragments index limit = f :: part fragments (index + 1) limit)
    (helseIf : ¬(f.depth = f.depth && Introducer.isElseIf f.text) = true)
    (helse : (f.depth = f.depth && Introducer.isElse f.text) = true) :
    ∃ next r, ClausesRead registry fragments f.depth index limit next r := by
  obtain ⟨stop, hstart, hstop, hlen, hbeneath, hbeyond⟩ := beneath_part f h hl
  have hbody := (ih (Nat.lt_succ_self index) hstart hstop).block
  refine ⟨stop, do
    f.requireBlock .onElse (part fragments (index + 1) limit)
    let body ← Block.ofFragments registry (part fragments (index + 1) stop)
    return .block body, Nat.le_of_lt hstart, hstop, fun fuel hfuel => ?_, ?_⟩
  · obtain ⟨fuel, rfl, hleft⟩ := exists_round_of_lt hfuel
    have hbody := hbody fuel (by omega)
    rw [parseClauses, isClauseAt_cons h hf, isClauseAt_cons h hf, checked_some, done_ok_bind,
      if_neg helseIf, checked_some, done_ok_bind, if_pos helse, hf, checked_some, done_ok_bind,
      requireBlock_eq f .onElse hl, ← hlen]
    simp only [done_map_bind, hbody, done_bind_pure, done_bind_done]
    simp only [map_eq_bind, bind_assoc, pure_bind]
  · rw [hpart, Otherwise.ofFragments, if_neg helseIf, if_pos helse, hbeneath, hbeyond]
    simp only [bind_assoc, pure_bind]

theorem exists_clausesRead (h : index ≤ limit) (depth : Nat) :
    ∃ next r, ClausesRead registry fragments depth index limit next r := by
  rcases Nat.lt_or_ge index limit with hlt | hge
  · obtain ⟨f, hf, hpart⟩ := part_cons hlt hl
    by_cases helseIf : (f.depth = depth && Introducer.isElseIf f.text) = true
    · obtain rfl : f.depth = depth := of_decide_eq_true (Bool.and_eq_true_iff.mp helseIf).1
      exact exists_elseIfRead hl ih hlt hf hpart helseIf
    by_cases helse : (f.depth = depth && Introducer.isElse f.text) = true
    · obtain rfl : f.depth = depth := of_decide_eq_true (Bool.and_eq_true_iff.mp helse).1
      exact exists_elseRead hl ih hlt hf hpart helseIf helse
    · refine ⟨index, .ok .nothing, Nat.le_refl index, h, fun fuel hfuel => ?_, ?_⟩
      · obtain ⟨fuel, rfl, _⟩ := exists_round_of_lt hfuel
        rw [parseClauses, isClauseAt_cons hlt hf, isClauseAt_cons hlt hf, checked_some, done_ok_bind,
          if_neg helseIf, checked_some, done_ok_bind, if_neg helse]
        rfl
      · rw [hpart, Otherwise.ofFragments, if_neg helseIf, if_neg helse]
        rfl
  · refine ⟨index, .ok .nothing, Nat.le_refl index, h, fun fuel hfuel => ?_, ?_⟩
    · obtain ⟨fuel, rfl, _⟩ := exists_round_of_lt hfuel
      rw [parseClauses, isClauseAt_nil hge, isClauseAt_nil hge]
      rfl
    · rw [part_of_le hge, Otherwise.ofFragments, Block.ofFragments]
      rfl

theorem rangeRead_of_later (h : index ≤ limit) : RangeRead registry fragments index limit := by
  refine ⟨fun fuel hfuel => ?_, exists_clausesRead hl ih h⟩
  obtain ⟨fuel, rfl, hleft⟩ := exists_round_of_lt hfuel
  rcases Nat.lt_or_ge index limit with hlt | hge
  · obtain ⟨consumed, r, hr⟩ := exists_statementRead hl ih hlt
    have hlater : index < index + consumed := Nat.lt_add_of_pos_right hr.consumed_pos
    have htail := (ih hlater hr.consumed_le (Nat.le_refl limit)).block fuel (by omega)
    rw [parseBlock, if_pos hlt, hr.done_eq fuel hleft, hr.ofFragments_eq]
    cases r with
    | error e => rfl
    | ok head =>
      simp only [Except.map, done_ok_bind, htail]
      exact done_bind_pure _ _
  · rw [parseBlock, if_neg (Nat.not_lt.mpr hge), part_of_le hge, Block.ofFragments]
    rfl

end

theorem rangeRead (h : index ≤ limit) (hl : limit ≤ fragments.length) :
    RangeRead registry fragments index limit := by
  -- Every range that the reading of this one asks for begins later and ends no later.
  induction hn : limit - index using Nat.strong_induction_on generalizing index limit with
  | _ n ih =>
    refine rangeRead_of_later hl (fun hi hil hll => ?_) h
    exact ih _ (by omega) hil (hll.trans hl) rfl

/-- Reading a range by indices gives the block of its fragments. -/
theorem parseBlock_eq (h : index ≤ limit) (hl : limit ≤ fragments.length) {fuel : Nat}
    (hfuel : 3 * (limit - index) < fuel) :
    parseBlock registry fragments fuel index limit =
      done (Block.ofFragments registry (part fragments index limit)) :=
  (rangeRead h hl).block fuel hfuel

end

/-! ## Whole scripts -/

theorem parse_eq {φ : Type} (registry : NameTable φ) (source : List Char) :
    parse registry source = done (Block.parse registry source) := by
  have hsplit : splitFrom 0 0 0 [] [] source = done (Fragment.split source) := by
    have := splitFrom_eq 0 0 [] [] source
    rwa [show (fun fragments : List Fragment => [] ++ fragments) = id from rfl, Except.map_id] at this
  have hblock : ∀ fragments : List Fragment,
      parseBlock registry fragments (3 * fragments.length + 1) 0 fragments.length =
        done (Block.ofFragments registry fragments) := by
    intro fragments
    rw [parseBlock_eq (Nat.zero_le _) (Nat.le_refl _) (by omega), part, List.take_length,
      List.drop_zero]
  simp only [parse, hsplit, hblock, done_bind_done]
  rfl

theorem compile_eq (registry : Registry) (source : String) (node : Option Nat) :
    compile registry source node = done (Script.compile registry source node) := by
  rw [compile, parse_eq, done_bind_pure, adapt_done, Script.compile]
  cases Block.parse registry source.toList with
  | error e => rfl
  | ok root => rfl

theorem mapM_evaluate (store : Store) (plans : List Plan) :
    plans.mapM (evaluate store) = some (plans.map fun p => p.evaluate store) := by
  induction plans with
  | nil => rfl
  | cons p rest ih =>
    rw [List.mapM_cons, evaluate_eq, ih]
    rfl

mutual

theorem executeStatement_eq (m : Machine) (s : Statement HostFunction) :
    executeStatement m s = some (s.execute m) := by
  match s with
  | .assign target value offset =>
    rw [executeStatement, evaluate_eq, Statement.execute]
    rfl
  | .call name function arguments offset =>
    rw [executeStatement, mapM_evaluate, Statement.execute]
    simp only [Option.bind_eq_bind, Option.bind_some]
    generalize m.call name function _ = answered
    obtain ⟨reply, m'⟩ := answered
    cases reply with
    | ok answer => rfl
    | error message => rfl
  | .branch condition body otherwise offset =>
    rw [executeStatement, evaluate_eq, Statement.execute, executeBlock_eq m body,
      executeOtherwise_eq m otherwise]
    simp only [Option.bind_eq_bind, Option.bind_some]
    split <;> rfl

theorem executeBlock_eq (m : Machine) (b : Block HostFunction) :
    executeBlock m b = some (b.execute m) := by
  match b with
  | .nil => rfl
  | .cons head tail =>
    rw [executeBlock, executeStatement_eq m head, Block.execute]
    obtain ⟨failure, m'⟩ := head.execute m
    cases failure with
    | none => exact executeBlock_eq m' tail
    | some e => rfl

theorem executeOtherwise_eq (m : Machine) (o : Otherwise HostFunction) :
    executeOtherwise m o = some (o.execute m) := by
  match o with
  | .nothing => rfl
  | .block body => rw [executeOtherwise, executeBlock_eq m body, Otherwise.execute]
  | .elseIf condition body otherwise =>
    rw [executeOtherwise, evaluate_eq, Otherwise.execute, executeBlock_eq m body,
      executeOtherwise_eq m otherwise]
    simp only [Option.bind_eq_bind, Option.bind_some]
    split <;> rfl

end

theorem execute_eq (s : Script) (node : Option Nat) (m : Machine) :
    execute s node m = some (s.execute node m) := by
  rw [execute, executeBlock_eq]
  rfl

/-- Compiling a source and executing a script by positions always comes to an end within its fuel,
with every index, slice and difference in range; compiling ends with the script or the fault that
`Script.compile` gives, executing with the outcome of `Script.execute`. -/
theorem compile_execute_in_range (registry : Registry) (source : String) (node : Option Nat)
    (script : Script) (m : Machine) :
    (compile registry source node).run = some (Script.compile registry source node) ∧
      execute script node m = some (script.execute node m) :=
  ⟨compile_eq registry source node, execute_eq script node m⟩

end DialogueScript.Positional
