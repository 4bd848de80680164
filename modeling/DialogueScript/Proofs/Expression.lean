import DialogueScript.Proofs.Growth

/-!
# Expressions and their tokens

Expressions as trees, with the value that the operators give them, and the token
lists that stand for them once parentheses have become depths.

The usual reading of an expression puts operators on levels. A prefix operator
binds tightest, a chain of operators of one level groups to the left, and
parentheses put anything into the place of an operand. In a plan there is no such
reading: depths and orders decide what is placed first, and a run of prefix
operators needs its depths raised for that. `Spelled.raises` shows that they come
to the same.
-/

namespace DialogueScript

open Text

/-! ## Trees and values -/

/-- A letter or `_`, then letters, digits or `_`, and neither `true` nor `false`. -/
structure IsVariable (name : List Char) : Prop where
  shape : ∃ c more, name = c :: more ∧ isNameStart c = true ∧ ∀ d ∈ more, isNamePart d = true
  not_true : name ≠ ['t', 'r', 'u', 'e']
  not_false : name ≠ ['f', 'a', 'l', 's', 'e']

/-- At least one digit and at most one point. -/
structure IsNumeral (text : List Char) : Prop where
  digits : ∀ c ∈ text, c.isDigit = true ∨ c = '.'
  points : text.count '.' ≤ 1
  digit : ∃ c ∈ text, c.isDigit = true

/-- The number that an unsigned numeral denotes: its digits, scaled down by as many
places as stand behind the point. -/
def Decimal.ofNumeral (text : List Char) : Decimal where
  negative := false
  digits := natOfDigits (text.filter Char.isDigit)
  exponent := -((text.dropWhile Char.isDigit).length - 1 : Nat)

/-- A text that can stand between quotes: no quote and no parenthesis. -/
def IsQuotable (text : List Char) : Prop := ∀ c ∈ text, c ≠ '\'' ∧ c ≠ '(' ∧ c ≠ ')'

/-- An operand of an expression that is no expression itself. -/
inductive Atom where
  | variable (name : List Char) (h : IsVariable name)
  | bool (b : Bool)
  | numeral (text : List Char) (h : IsNumeral text)
  | string (text : List Char) (h : IsQuotable text)

namespace Atom

def text : Atom → List Char
  | .variable name _ => name
  | bool true => ['t', 'r', 'u', 'e']
  | bool false => ['f', 'a', 'l', 's', 'e']
  | numeral text _ => text
  | string text _ => '\'' :: text ++ ['\'']

def lexeme : Atom → Lexeme
  | .variable name _ => .variable (String.ofList name)
  | bool b => .literal (.bool b)
  | numeral text _ => .literal (.number (Number.ofNumeral text))
  | string text _ => .literal (.str (String.ofList text))

def value (store : Store) : Atom → Value
  | .variable name _ => store.get (String.ofList name)
  | bool b => .bool b
  | numeral text _ => .number (Number.ofDecimal (Decimal.ofNumeral text))
  | string text _ => .str (String.ofList text)

end Atom

inductive Expression where
  | atom (a : Atom)
  | unary (o : Operator) (h : o.isUnary = true) (right : Expression)
  | binary (o : Operator) (h : o.isUnary = false) (left right : Expression)

def Expression.value (store : Store) : Expression → Value
  | atom a => a.value store
  | unary o _ right => o.apply .undefined (right.value store)
  | binary o _ left right => o.apply (left.value store) (right.value store)

/-- How loosely an operator binds in the usual reading. -/
def Operator.level : Operator → Nat
  | logicalNot | negate => 1
  | multiply | divide => 2
  | add | subtract => 3
  | less | lessOrEqual | greater | greaterOrEqual => 4
  | strictEqual | strictNotEqual => 5
  | logicalAnd => 6
  | logicalOr => 7

/-- Lower orders are lower levels. -/
theorem Operator.order_le_order {a b : Operator} : a.order ≤ b.order ↔ a.level ≤ b.level := by
  cases a <;> cases b <;> decide

/-! ## Numerals -/

namespace IsNumeral

theorem cutSign_eq {text : List Char} (h : IsNumeral text) : Decimal.cutSign text = (false, text) := by
  obtain ⟨d, hd, _⟩ := h.digit
  obtain ⟨c, more, rfl⟩ := List.exists_cons_of_ne_nil (List.ne_nil_of_mem hd)
  have hc := h.digits c List.mem_cons_self
  unfold Decimal.cutSign
  split
  · next heq =>
    cases heq
    exact absurd hc (by decide)
  · next heq =>
    cases heq
    exact absurd hc (by decide)
  · rfl

/-- Behind the whole part there is nothing, or a point and digits. -/
theorem tail_eq {text : List Char} (h : IsNumeral text) :
    text.dropWhile Char.isDigit = [] ∨
      ∃ fraction, text.dropWhile Char.isDigit = '.' :: fraction ∧ ∀ c ∈ fraction, c.isDigit = true := by
  cases htail : text.dropWhile Char.isDigit with
  | nil => exact Or.inl rfl
  | cons c fraction =>
    right
    have hsub : (c :: fraction) <:+ text := htail ▸ List.dropWhile_suffix _
    have hc : c = '.' := by
      have hstop := List.head?_dropWhile_not Char.isDigit text
      rw [htail] at hstop
      rcases h.digits c (hsub.subset List.mem_cons_self) with hd | hd
      · exact absurd hd (Bool.eq_false_iff.mp hstop)
      · exact hd
    subst hc
    refine ⟨fraction, rfl, fun d hd => ?_⟩
    rcases h.digits d (hsub.subset (List.mem_cons_of_mem _ hd)) with hdig | rfl
    · exact hdig
    · have hcount := Nat.le_trans (hsub.sublist.count_le '.') h.points
      rw [List.count_cons_self] at hcount
      have := List.count_pos_iff.mpr hd
      omega

/-- A numeral is read as the number that it denotes. -/
theorem ofText?_eq {text : List Char} (h : IsNumeral text) :
    Decimal.ofText? text = some (Decimal.ofNumeral text) := by
  have hwhole : ∀ c ∈ text.takeWhile Char.isDigit, c.isDigit = true := fun c hc =>
    List.all_eq_true.mp List.all_takeWhile c hc
  have hfilter : text.filter Char.isDigit = text.takeWhile Char.isDigit ++
      (text.dropWhile Char.isDigit).filter Char.isDigit := by
    have hall := List.takeWhile_append_dropWhile (p := Char.isDigit) (l := text)
    calc text.filter Char.isDigit
      _ = (text.takeWhile Char.isDigit ++ text.dropWhile Char.isDigit).filter Char.isDigit := by rw [hall]
      _ = _ := by rw [List.filter_append, List.filter_eq_self.mpr hwhole]
  obtain ⟨d, hd, hdigit⟩ := h.digit
  have hsome : d ∈ text.filter Char.isDigit := List.mem_filter.mpr ⟨hd, hdigit⟩
  unfold Decimal.ofText? Decimal.ofNumeral
  rw [h.cutSign_eq]
  rcases h.tail_eq with htail | ⟨fraction, htail, hfraction⟩
  · rw [htail, List.filter_nil, List.append_nil] at hfilter
    rw [hfilter] at hsome
    simp only [htail, Decimal.cutFraction, hfilter]
    rw [if_neg (by simpa using List.ne_nil_of_mem hsome)]
    simp [Decimal.exponentOfText?]
  · have htake : fraction.takeWhile Char.isDigit = fraction := by
      have : (fraction ++ []).takeWhile Char.isDigit = fraction ++ [].takeWhile Char.isDigit :=
        List.takeWhile_append_of_pos hfraction
      rwa [List.takeWhile_nil, List.append_nil] at this
    have hdrop : fraction.dropWhile Char.isDigit = [] := by
      have : (fraction ++ []).dropWhile Char.isDigit = [].dropWhile Char.isDigit :=
        List.dropWhile_append_of_pos hfraction
      rwa [List.dropWhile_nil, List.append_nil] at this
    rw [htail, List.filter_cons, if_neg (by decide), List.filter_eq_self.mpr hfraction] at hfilter
    rw [hfilter] at hsome
    simp only [htail, Decimal.cutFraction, htake, hdrop, hfilter]
    rw [if_neg (by
      intro hempty
      rw [Bool.and_eq_true, List.isEmpty_iff, List.isEmpty_iff] at hempty
      rw [hempty.1, hempty.2] at hsome
      exact absurd hsome List.not_mem_nil)]
    simp [Decimal.exponentOfText?]

end IsNumeral

/-! ## Spelling -/

/-- The token lists at a depth that stand for an expression whose operators outside
parentheses are at most as loose as a level. -/
inductive Spelled : Nat → Expression → Nat → List Token → Prop
  | atom {a : Atom} {t : Token} : t.lexeme = a.lexeme → Spelled 0 (.atom a) t.depth [t]
  | group {n depth inner : Nat} {e : Expression} {ts : List Token} :
      depth < inner → Spelled n e inner ts → Spelled 0 e depth ts
  | unary {o : Operator} {h : o.isUnary = true} {e : Expression} {t : Token} {ts : List Token} :
      t.lexeme = .operator o → Spelled 1 e t.depth ts →
      Spelled 1 (.unary o h e) t.depth (t :: ts)
  | binary {o : Operator} {h : o.isUnary = false} {m : Nat} {l r : Expression} {t : Token}
      {ls rs : List Token} : t.lexeme = .operator o → Spelled o.level l t.depth ls →
      m < o.level → Spelled m r t.depth rs →
      Spelled o.level (.binary o h l r) t.depth (ls ++ t :: rs)
  | weaken {m n depth : Nat} {e : Expression} {ts : List Token} :
      m ≤ n → Spelled m e depth ts → Spelled n e depth ts

/-! ## Trees of spelled expressions -/

/-- The tree is over operands, its operators are placed from the leaves upward, and
it has the value of the expression. -/
structure Tree.Computes (tree : Tree Unit) (e : Expression) : Prop where
  valid : tree.Valid
  ordered : tree.Ordered
  value_eq : ∀ store, tree.value store = e.value store

namespace Token

theorem raise_raise (a b : Nat) (t : Token) : (t.raise a).raise b = t.raise (a + b) := by
  unfold raise
  rw [Nat.add_assoc]

theorem map_raise_zero (ts : List Token) : ts.map (raise 0) = ts := List.map_id ts

theorem operator?_of_lexeme {t : Token} {o : Operator} (h : t.lexeme = .operator o) :
    t.operator? = some o := by
  unfold operator?
  rw [h]

theorem isUnary_of_lexeme {t : Token} {o : Operator} (h : t.lexeme = .operator o) :
    t.isUnary = o.isUnary := by
  unfold isUnary
  rw [operator?_of_lexeme h, Option.any_some]

theorem operator?_of_atom {t : Token} {a : Atom} (h : t.lexeme = a.lexeme) : t.operator? = none := by
  unfold operator?
  rw [h]
  cases a <;> rfl

/-- A token that is no prefix operator begins no run. -/
theorem raiseRuns_cons {t : Token} (h : t.isUnary = false) (rest : List Token) :
    raiseRuns (t :: rest) = t :: raiseRuns rest := by
  have hrun : runAfter t rest = [] := by
    unfold runAfter
    rw [h, if_neg Bool.false_ne_true]
  rw [raiseRuns, hrun]
  rfl

end Token

theorem Tree.value_leaf {t : Token} {a : Atom} (h : t.lexeme = a.lexeme) (store : Store) :
    (Tree.leaf t : Tree Unit).value store = a.value store := by
  unfold Tree.value Token.operand?
  rw [h]
  rcases a with _ | _ | ⟨text, hn⟩ | _
  · rfl
  · rfl
  · show Value.number (Number.ofNumeral text) = Value.number (Number.ofDecimal (Decimal.ofNumeral text))
    rw [Number.ofNumeral, hn.ofText?_eq]
  · rfl

theorem Tree.Computes.unary {right : Tree Unit} {e : Expression} {o : Operator} {t : Token}
    {h : o.isUnary = true} (hr : right.Computes e) (ht : t.lexeme = .operator o)
    (hroot : ∀ u, right.rootToken? = some u → ¬t.BindsBefore u) :
    (Tree.unary () t right).Computes (.unary o h e) where
  valid := ⟨⟨o, Token.operator?_of_lexeme ht, h⟩, hr.valid⟩
  ordered := ⟨hroot, hr.ordered⟩
  value_eq := fun store => by
    rw [Tree.value, Token.operator?_of_lexeme ht, hr.value_eq]
    rfl

theorem Tree.Computes.binary {left right : Tree Unit} {l r : Expression} {o : Operator} {t : Token}
    {h : o.isUnary = false} (hl : left.Computes l) (hr : right.Computes r)
    (ht : t.lexeme = .operator o) (hleft : ∀ u, left.rootToken? = some u → u.BindsBefore t)
    (hright : ∀ u, right.rootToken? = some u → ¬t.BindsBefore u) :
    (Tree.binary () left t right).Computes (.binary o h l r) where
  valid := ⟨⟨o, Token.operator?_of_lexeme ht, h⟩, hl.valid, hr.valid⟩
  ordered := ⟨hleft, hright, hl.ordered, hr.ordered⟩
  value_eq := fun store => by
    rw [Tree.value, Token.operator?_of_lexeme ht, hl.value_eq, hr.value_eq]
    rfl

/-! ## Raising runs -/

/-- Nothing at the front of a token list stands deeper than a depth. -/
def Token.Surfaces (depth : Nat) (rest : List Token) : Prop :=
  ∀ t, rest.head? = some t → t.depth ≤ depth

/-- The operator at the root of a tree stands deeper than a depth, or at it with an
operator at most as loose as a level. -/
def Tree.RootWithin (tree : Tree Unit) (level depth : Nat) : Prop :=
  ∀ u, tree.rootToken? = some u → depth < u.depth ∨
    (u.depth = depth ∧ ∃ o, u.operator? = some o ∧ o.level ≤ level)

/-- Wherever the tokens stand, raising runs makes a tree of them, and leaves what
follows as it would be without them. -/
def Raises (level : Nat) (e : Expression) (depth : Nat) (ts : List Token) : Prop :=
  ∀ k rest, Token.Surfaces (depth + k) rest →
    ∃ tree : Tree Unit, Token.raiseRuns (ts.map (Token.raise k) ++ rest) =
      tree.tokens ++ Token.raiseRuns rest ∧ tree.Computes e ∧ tree.RootWithin level (depth + k)

/-- Prefix operators of one depth, applied one after another to an expression. -/
inductive Prefixed (depth : Nat) (operand : Expression) : Expression → List Token → Prop
  | none : Prefixed depth operand operand []
  | cons {o : Operator} {h : o.isUnary = true} {e : Expression} {t : Token} {run : List Token} :
      t.lexeme = .operator o → t.depth = depth → Prefixed depth operand e run →
      Prefixed depth operand (.unary o h e) (t :: run)

/-- What can stand behind a run of prefix operators: one token that does not continue
the run, or a group. -/
def Token.Closed (depth : Nat) (ts : List Token) : Prop :=
  (∃ t, ts = [t] ∧ t.depth = depth ∧ t.isUnary = false) ∨ (ts ≠ [] ∧ ∀ t ∈ ts, depth < t.depth)

/-- A staggered run over a tree that stands deeper makes a tree. -/
theorem Prefixed.staggered {depth : Nat} {operand e : Expression} {run : List Token}
    (h : Prefixed depth operand e run) (k : Nat) {x : Tree Unit} (hx : x.Computes operand)
    (levels : Nat)
    (hroot : ∀ u, x.rootToken? = some u → depth + k + (levels + run.length) ≤ u.depth) :
    ∃ tree : Tree Unit, tree.tokens = Token.stagger levels (run.map (Token.raise k)) ++ x.tokens ∧
      tree.Computes e ∧ ∀ u, tree.rootToken? = some u → depth + k + levels ≤ u.depth ∧
        (run ≠ [] → ∃ o, u.operator? = some o ∧ o.level ≤ 1) := by
  induction h generalizing levels with
  | none => exact ⟨x, rfl, hx, fun u hu => ⟨hroot u hu, fun hne => absurd rfl hne⟩⟩
  | @cons o hu e t run ht hd _ ih =>
    obtain ⟨tree, htokens, hc, hdeep⟩ := ih (levels + 1) fun u hu => by
      have := hroot u hu
      rw [List.length_cons] at this
      omega
    have hdepth : ((t.raise k).raise levels).depth = depth + k + levels := by
      rw [Token.raise, Token.raise, hd]
    refine ⟨.unary () ((t.raise k).raise levels) tree, ?_, hc.unary ht fun u hu hb => ?_, ?_⟩
    · rw [Tree.tokens, htokens]
      rfl
    · have := (hdeep u hu).1
      unfold Token.BindsBefore at hb
      omega
    · intro u hu
      cases hu
      refine ⟨Nat.le_of_eq hdepth.symm, fun _ => ⟨o, Token.operator?_of_lexeme ht, ?_⟩⟩
      cases o <;> first | exact Nat.le_refl 1 | exact absurd hu (by decide)

namespace Prefixed

variable {depth : Nat} {operand e : Expression} {run : List Token}

theorem isUnary (h : Prefixed depth operand e run) : ∀ t ∈ run, t.isUnary = true ∧ t.depth = depth := by
  induction h with
  | none => exact fun t ht => absurd ht List.not_mem_nil
  | @cons o hu e t run ht hd _ ih =>
    intro u hu'
    rcases List.mem_cons.mp hu' with rfl | hu'
    · exact ⟨(Token.isUnary_of_lexeme ht).trans hu, hd⟩
    · exact ih u hu'

end Prefixed

namespace Token

/-- Behind a run the operand is raised as a whole, and what follows it stays. -/
theorem raiseOperand_append {depth : Nat} {ts rest : List Token} (h : Closed depth ts)
    (hr : Surfaces depth rest) (levels : Nat) :
    raiseOperand depth levels (ts ++ rest) = ts.map (raise levels) ++ rest := by
  rcases h with ⟨t, rfl, hd, _⟩ | ⟨hne, hdeep⟩
  · have hflat : ¬depth < t.depth := by omega
    rw [List.singleton_append, raiseOperand, if_neg hflat]
    rfl
  · obtain ⟨t, more, rfl⟩ := List.exists_cons_of_ne_nil hne
    have hmore : ∀ u ∈ more, decide (depth < u.depth) = true := fun u hu =>
      decide_eq_true (hdeep u (List.mem_cons_of_mem _ hu))
    have hstop : rest.takeWhile (fun u => decide (depth < u.depth)) = [] ∧
        rest.dropWhile (fun u => decide (depth < u.depth)) = rest := by
      cases rest with
      | nil => exact ⟨rfl, rfl⟩
      | cons u us =>
        have hu : decide (depth < u.depth) = false := decide_eq_false (Nat.not_lt.mpr (hr u rfl))
        rw [List.takeWhile_cons, List.dropWhile_cons, hu]
        exact ⟨rfl, rfl⟩
    rw [List.cons_append, raiseOperand, if_pos (hdeep t List.mem_cons_self),
      List.takeWhile_append_of_pos hmore, List.dropWhile_append_of_pos hmore, hstop.1, hstop.2,
      List.append_nil, List.map_cons, List.cons_append]

theorem closed_map_raise {depth : Nat} {ts : List Token} (h : Closed depth ts) (k : Nat) :
    Closed (depth + k) (ts.map (raise k)) := by
  rcases h with ⟨t, rfl, rfl, hu⟩ | ⟨hne, hdeep⟩
  · exact Or.inl ⟨t.raise k, rfl, rfl, hu⟩
  · refine Or.inr ⟨by simpa using hne, fun t ht => ?_⟩
    obtain ⟨u, hu, rfl⟩ := List.mem_map.mp ht
    exact Nat.add_lt_add_right (hdeep u hu) k

/-- A run ends where its operand begins. -/
theorem runAfter_append {depth : Nat} {t : Token} {run ts : List Token} (ht : t.isUnary = true)
    (hd : t.depth = depth) (hrun : ∀ u ∈ run, u.isUnary = true ∧ u.depth = depth)
    (h : Closed depth ts) (rest : List Token) : runAfter t (run ++ (ts ++ rest)) = run := by
  have hmore : ∀ u ∈ run, (u.isUnary && decide (u.depth = t.depth)) = true := by
    intro u hu
    rw [(hrun u hu).1, (hrun u hu).2, hd, decide_eq_true rfl]
    rfl
  have hstop : (ts ++ rest).takeWhile (fun u => u.isUnary && decide (u.depth = t.depth)) = [] := by
    rcases h with ⟨u, rfl, _, hu⟩ | ⟨hne, hdeep⟩
    · rw [List.singleton_append, List.takeWhile_cons, hu]
      rfl
    · obtain ⟨u, more, rfl⟩ := List.exists_cons_of_ne_nil hne
      have hu : decide (u.depth = t.depth) = false := by
        have := hdeep u List.mem_cons_self
        exact decide_eq_false (by omega)
      rw [List.cons_append, List.takeWhile_cons, hu, Bool.and_false]
      rfl
  unfold runAfter
  rw [if_pos ht, List.takeWhile_append_of_pos hmore, hstop, List.append_nil]

end Token

theorem Raises.weaken {m n depth : Nat} {e : Expression} {ts : List Token} (hmn : m ≤ n)
    (h : Raises m e depth ts) : Raises n e depth ts := by
  intro k rest hr
  obtain ⟨tree, htokens, hc, hroot⟩ := h k rest hr
  refine ⟨tree, htokens, hc, fun u hu => ?_⟩
  rcases hroot u hu with hdeep | ⟨hd, o, ho, hle⟩
  · exact Or.inl hdeep
  · exact Or.inr ⟨hd, o, ho, Nat.le_trans hle hmn⟩

/-- The operators of level 0 are all inside groups. -/
theorem Tree.RootWithin.deep {tree : Tree Unit} {depth : Nat} (h : tree.RootWithin 0 depth) :
    ∀ u, tree.rootToken? = some u → depth < u.depth := by
  intro u hu
  rcases h u hu with hdeep | ⟨_, o, _, hle⟩
  · exact hdeep
  · cases o <;> exact absurd hle (by decide)

/-- A run of prefix operators over an operand is raised to a tree. -/
theorem Prefixed.raises {depth : Nat} {operand e : Expression} {run ts : List Token}
    (h : Prefixed depth operand e run) (hx : Raises 0 operand depth ts)
    (hclosed : Token.Closed depth ts) : Raises 1 e depth (run ++ ts) := by
  intro k rest hr
  have hrun := h.isUnary
  cases run with
  | nil =>
    cases h
    exact hx.weaken (Nat.zero_le 1) k rest hr
  | cons t more =>
    obtain ⟨hu, hd⟩ := hrun t List.mem_cons_self
    have hd' : (t.raise k).depth = depth + k := by rw [Token.raise, hd]
    have hclosed' := Token.closed_map_raise hclosed k
    have hmore : ∀ u ∈ more.map (Token.raise k), u.isUnary = true ∧ u.depth = depth + k := by
      intro u hu
      obtain ⟨v, hv, rfl⟩ := List.mem_map.mp hu
      obtain ⟨hvu, hvd⟩ := hrun v (List.mem_cons_of_mem _ hv)
      exact ⟨hvu, by rw [Token.raise, hvd]⟩
    have hafter := Token.runAfter_append (t := t.raise k) hu hd' hmore hclosed' rest
    have hsplit : ((t :: more) ++ ts).map (Token.raise k) ++ rest =
        t.raise k :: (more.map (Token.raise k) ++ (ts.map (Token.raise k) ++ rest)) := by
      rw [List.cons_append, List.map_cons, List.map_append, List.cons_append, List.append_assoc]
    rw [hsplit, Token.raiseRuns, hafter]
    cases more with
    | nil =>
      -- a single prefix operator stays at its depth
      obtain ⟨x, htokens, hc, hroot⟩ := hx k rest hr
      obtain ⟨tree, htree, hct, hbound⟩ := h.staggered k hc 0 fun u hu => hroot.deep u hu
      refine ⟨tree, ?_, hct, fun u hu => ?_⟩
      · rw [htree, List.append_assoc, ← htokens]
        rfl
      · obtain ⟨hle, hlevel⟩ := hbound u hu
        rcases Nat.lt_or_eq_of_le hle with hlt | heq
        · exact Or.inl hlt
        · exact Or.inr ⟨heq.symm, hlevel (List.cons_ne_nil _ _)⟩
    | cons t' more =>
      -- a longer run is staggered, and its operand goes as deep as the run is long
      have hsurf : Token.Surfaces (depth + (k + (more.length + 2))) rest := fun u hu => by
        have := hr u hu
        omega
      obtain ⟨x, htokens, hc, hroot⟩ := hx (k + (more.length + 2)) rest hsurf
      obtain ⟨tree, htree, hct, hbound⟩ := h.staggered k hc 1 fun u hu => by
        have := hroot.deep u hu
        rw [List.length_cons, List.length_cons]
        omega
      refine ⟨tree, ?_, hct, fun u hu => Or.inl (hbound u hu).1⟩
      have hlen : ((t' :: more).map (Token.raise k)).length + 1 = more.length + 2 := by
        rw [List.length_map, List.length_cons]
      have hraise : Token.raise (more.length + 2) ∘ Token.raise k =
          Token.raise (k + (more.length + 2)) := funext fun u => u.raise_raise k _
      rw [if_neg (by simp), List.drop_left, hd', hlen, Token.raiseOperand_append hclosed' hr,
        List.map_map, hraise, htokens, htree, List.append_assoc]
      rfl

/-! ## Spelled expressions -/

namespace Spelled

theorem ne_nil {n depth : Nat} {e : Expression} {ts : List Token} (h : Spelled n e depth ts) :
    ts ≠ [] := by
  induction h with
  | atom _ => exact List.cons_ne_nil _ _
  | group _ _ ih => exact ih
  | unary _ _ _ => exact List.cons_ne_nil _ _
  | binary _ _ _ _ _ _ => exact List.append_ne_nil_of_right_ne_nil _ (List.cons_ne_nil _ _)
  | weaken _ _ ih => exact ih

theorem depth_le {n depth : Nat} {e : Expression} {ts : List Token} (h : Spelled n e depth ts) :
    ∀ t ∈ ts, depth ≤ t.depth := by
  induction h with
  | atom _ =>
    intro t ht
    cases List.mem_singleton.mp ht
    exact Nat.le_refl _
  | group hlt _ ih => exact fun t ht => Nat.le_trans (Nat.le_of_lt hlt) (ih t ht)
  | unary _ _ ih =>
    intro t ht
    rcases List.mem_cons.mp ht with rfl | ht
    · exact Nat.le_refl _
    · exact ih t ht
  | binary _ _ _ _ ihl ihr =>
    intro t ht
    rcases List.mem_append.mp ht with ht | ht
    · exact ihl t ht
    · rcases List.mem_cons.mp ht with rfl | ht
      · exact Nat.le_refl _
      · exact ihr t ht
  | weaken _ _ ih => exact ih

/-- Spelled at level 0 or 1, an expression is a run of prefix operators over a closed
operand. -/
def Splits (e : Expression) (depth : Nat) (ts : List Token) : Prop :=
  ∃ operand run rest, ts = run ++ rest ∧ Prefixed depth operand e run ∧
    Raises 0 operand depth rest ∧ Token.Closed depth rest

theorem raises_and_splits {n depth : Nat} {e : Expression} {ts : List Token}
    (h : Spelled n e depth ts) : Raises n e depth ts ∧ (n ≤ 1 → Splits e depth ts) := by
  induction h with
  | @atom a t ht =>
    have hu : t.isUnary = false := by
      unfold Token.isUnary
      rw [Token.operator?_of_atom ht]
      rfl
    have hraises : Raises 0 (.atom a) t.depth [t] := by
      intro k rest _
      refine ⟨.leaf (t.raise k), Token.raiseRuns_cons (t := t.raise k) hu rest, ⟨?_, trivial, ?_⟩, ?_⟩
      · exact Token.operator?_of_atom ht
      · exact Tree.value_leaf ht
      · exact fun u hu => nomatch hu
    exact ⟨hraises, fun _ => ⟨_, [], [t], rfl, .none, hraises, Or.inl ⟨t, rfl, rfl, hu⟩⟩⟩
  | @group n depth inner e ts hlt hin ih =>
    have hraises : Raises 0 e depth ts := by
      intro k rest hr
      obtain ⟨tree, htokens, hc, hroot⟩ := ih.1 k rest fun u hu => by
        have := hr u hu
        omega
      refine ⟨tree, htokens, hc, fun u hu => Or.inl ?_⟩
      rcases hroot u hu with hdeep | ⟨hd, _⟩
      · omega
      · omega
    have hclosed : Token.Closed depth ts :=
      Or.inr ⟨hin.ne_nil, fun t ht => Nat.lt_of_lt_of_le hlt (hin.depth_le t ht)⟩
    exact ⟨hraises, fun _ => ⟨e, [], ts, rfl, .none, hraises, hclosed⟩⟩
  | @unary o hu e t ts ht _ ih =>
    -- A run is raised as a whole, so the operator first joins the run that its operand
    -- begins with.
    obtain ⟨operand, run, rest, rfl, hrun, hraises, hclosed⟩ := ih.2 (Nat.le_refl 1)
    have hrun' : Prefixed t.depth operand (.unary o hu e) (t :: run) := .cons ht rfl hrun
    exact ⟨hrun'.raises hraises hclosed,
      fun _ => ⟨operand, t :: run, rest, rfl, hrun', hraises, hclosed⟩⟩
  | @binary o hu m l r t ls rs ht _ hm _ ihl ihr =>
    refine ⟨fun k rest hr => ?_, fun hle => ?_⟩
    · obtain ⟨right, hrt, hrc, hrr⟩ := ihr.1 k rest hr
      obtain ⟨left, hlt, hlc, hlr⟩ := ihl.1 k ((t :: rs).map (Token.raise k) ++ rest) fun u hu => by
        cases hu
        exact Nat.le_refl _
      have hord : (t.raise k).order = o.order := by
        unfold Token.order
        rw [show (t.raise k).operator? = some o from Token.operator?_of_lexeme ht]
        rfl
      refine ⟨.binary () left (t.raise k) right, ?_, hlc.binary hrc ht ?_ ?_, ?_⟩
      · have hnu : (t.raise k).isUnary = false := (Token.isUnary_of_lexeme ht).trans hu
        rw [List.map_append, List.append_assoc, hlt, List.map_cons, List.cons_append,
          Token.raiseRuns_cons hnu, hrt, Tree.tokens, List.append_assoc, List.cons_append]
      · intro u hroot
        rcases hlr u hroot with hdeep | ⟨hd, o', ho', hle⟩
        · exact Or.inl hdeep
        · refine Or.inr ⟨hd, ?_⟩
          rw [hord, Token.order, ho']
          exact Operator.order_le_order.mpr hle
      · rintro u hroot (hshallow | ⟨hd, hle⟩)
        · rcases hrr u hroot with hdeep | ⟨hd, _⟩
          · exact absurd hshallow (Nat.lt_asymm hdeep)
          · exact absurd hd (Nat.ne_of_lt hshallow)
        · rcases hrr u hroot with hdeep | ⟨_, o', ho', hle'⟩
          · exact absurd hd (Nat.ne_of_lt hdeep)
          · rw [hord, Token.order, ho'] at hle
            have := Operator.order_le_order.mp hle
            omega
      · intro u hroot
        cases hroot
        exact Or.inr ⟨rfl, o, Token.operator?_of_lexeme ht, Nat.le_refl _⟩
    · cases o <;> first | exact absurd hle (by decide) | exact absurd hu (by decide)
  | weaken hmn _ ih => exact ⟨ih.1.weaken hmn, fun hle => ih.2 (Nat.le_trans hmn hle)⟩

/-- However deep a spelled expression stands, raising its runs makes a tree of its
value. -/
theorem raises {n depth : Nat} {e : Expression} {ts : List Token} (h : Spelled n e depth ts) :
    Raises n e depth ts := h.raises_and_splits.1

end Spelled

namespace Plan

theorem evaluate_ofToken {t : Token} (ht : t.operator? = none) :
    ∃ plan, ofToken t = .ok plan ∧ ∀ store, plan.evaluate store = Operand.read store t.operand? := by
  obtain ⟨o | v | name, depth, offset⟩ := t
  · exact nomatch ht
  · refine ⟨_, rfl, fun store => ?_⟩
    rw [evaluate, runFrom]
    rfl
  · refine ⟨_, rfl, fun store => ?_⟩
    rw [evaluate, runFrom]
    rfl

/-- Tokens that spell an expression have a plan, and it computes the value of the
expression. -/
theorem ofTokens_of_spelled {n depth : Nat} {e : Expression} {ts : List Token}
    (h : Spelled n e depth ts) :
    ∃ plan, ofTokens ts = .ok plan ∧ ∀ store, plan.evaluate store = e.value store := by
  obtain ⟨tree, htokens, hc, _⟩ := h.raises 0 [] fun u hu => absurd hu (Option.some_ne_none u).symm
  rw [Token.map_raise_zero, List.append_nil, Token.raiseRuns, List.append_nil] at htokens
  have hlen : ts.length = tree.tokens.length := by
    rw [← htokens, ← List.length_map (f := Token.lexeme), ← Token.map_lexeme_raiseRuns,
      List.length_map]
  cases ts with
  | nil => exact absurd rfl h.ne_nil
  | cons t rest =>
    cases rest with
    | nil =>
      cases tree with
      | leaf u =>
        have hu : u.operator? = none := hc.valid
        have hlex := Token.map_lexeme_raiseRuns [t]
        rw [htokens] at hlex
        have hut : u.lexeme = t.lexeme := (List.cons.inj hlex).1
        obtain ⟨plan, hplan, hvalue⟩ := evaluate_ofToken (t := t) (by
          rw [← hu, Token.operator?, Token.operator?, hut])
        refine ⟨plan, hplan, fun store => ?_⟩
        rw [hvalue, ← hc.value_eq, Tree.value, Token.operand?, Token.operand?, hut]
      | unary a u right =>
        have := List.length_pos_iff.mpr right.tokens_ne_nil
        rw [List.length_singleton, Tree.tokens, List.length_cons] at hlen
        omega
      | binary a left u right =>
        have := List.length_pos_iff.mpr left.tokens_ne_nil
        rw [List.length_singleton, Tree.tokens, List.length_append, List.length_cons] at hlen
        omega
    | cons t' more =>
      obtain ⟨plan, hplan, hvalue⟩ := ofDraft_of_ordered htokens hc.valid hc.ordered (by
        cases tree with
        | leaf u => cases hlen
        | unary a u right => exact Option.some_ne_none u
        | binary a left u right => exact Option.some_ne_none u)
      exact ⟨plan, hplan, fun store => (hvalue store).trans (hc.value_eq store)⟩

end Plan

end DialogueScript
