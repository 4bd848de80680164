import DialogueScript.Token

/-!
# The order in which operators bind

Deeper operators bind first; within one depth lower orders do, and operators of
one order bind from left to right.

A run of unary operators has to bind from right to left: `!-6` means `!(-6)`. It
gets there by depths. Each operator of a run is put one level deeper than the one
before it, and the operand behind the run, or the whole group that stands there,
is put as deep as the last of them.
-/

namespace DialogueScript

namespace Token

/-! ## Runs of unary operators -/

/-- Puts the first token deeper by a number of levels, and each token one level
deeper than that before it. -/
def stagger (levels : Nat) : List Token → List Token
  | [] => []
  | t :: rest => t.raise levels :: stagger (levels + 1) rest

/-- Puts the operand at the front deeper: one token, or, if that stands deeper than
`floor`, all tokens up to the first that does not. -/
def raiseOperand (floor levels : Nat) : List Token → List Token
  | [] => []
  | t :: rest =>
    if floor < t.depth then
      t.raise levels :: ((rest.takeWhile fun u => floor < u.depth).map (raise levels) ++
        rest.dropWhile fun u => floor < u.depth)
    else t.raise levels :: rest

@[simp]
theorem length_raiseOperand (floor levels : Nat) (tokens : List Token) :
    (raiseOperand floor levels tokens).length = tokens.length := by
  cases tokens with
  | nil => rfl
  | cons t rest =>
    rw [raiseOperand]
    split
    · have := congrArg List.length
        (List.takeWhile_append_dropWhile (p := fun u : Token => floor < u.depth) (l := rest))
      simp only [List.length_append] at this
      simp [this]
    · rfl

/-- The unary operators that continue a run after the token `t`. -/
def runAfter (t : Token) (rest : List Token) : List Token :=
  if t.isUnary then rest.takeWhile fun u => u.isUnary && u.depth = t.depth else []

/-- Puts every run of two or more unary operators of one depth into levels, from
left to right. -/
def raiseRuns (tokens : List Token) : List Token :=
  match tokens with
  | [] => []
  | t :: rest =>
    let more := runAfter t rest
    if more.isEmpty then t :: raiseRuns rest
    else
      stagger 1 (t :: more) ++
        raiseRuns (raiseOperand t.depth (more.length + 1) (rest.drop more.length))
termination_by tokens.length
decreasing_by
  · simp only [List.length_cons]; omega
  · simp only [length_raiseOperand, List.length_drop, List.length_cons]; omega

end Token

/-! ## The schedule -/

structure Site where
  index : Nat
  operator : Operator
  depth : Nat
  offset : Nat
deriving DecidableEq

namespace Site

def ofTokens (index : Nat) : List Token → List Site
  | [] => []
  | t :: rest =>
    match t.operator? with
    | some o => ⟨index, o, t.depth, t.offset⟩ :: ofTokens (index + 1) rest
    | none => ofTokens (index + 1) rest

def bindsBefore (a b : Site) : Bool :=
  b.depth < a.depth || (a.depth = b.depth && a.operator.order ≤ b.operator.order)

def insert (a : Site) : List Site → List Site
  | [] => [a]
  | b :: rest => if a.bindsBefore b then a :: b :: rest else b :: insert a rest

/-- The operators of a list of tokens in the order in which they bind. -/
def schedule (tokens : List Token) : List Site :=
  (ofTokens 0 tokens).foldr insert []

end Site

end DialogueScript
