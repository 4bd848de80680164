import DialogueScript.Plan.Build
import DialogueScript.Proofs.Evaluation

/-!
# The forest behind a draft

Claims and chains in a draft stand for trees over the tokens. At every moment the
token list falls into consecutive pieces: operators not placed yet, and trees whose
nodes are the operators placed so far. Placing an operator joins it with the tree
to its right, and a binary one also with the tree to its left, into one tree.

Main statements:
1. `Forest.place_of_grows` and `Forest.grows_of_place`: placing an operator succeeds
   exactly where the forest can grow at it, and the draft keeps representing the
   forest.
2. `Forest.Represents.roots_perm`: the steps that no step refers to are the roots
   of the trees, and every other step is referred to exactly once.
-/

namespace DialogueScript

/-! ## Trees -/

def Token.operand? (t : Token) : Option Operand :=
  match t.lexeme with
  | .operator _ => none
  | .literal v => some (.literal v)
  | .variable name => some (.variable name)

/-- Operators over consecutive operand tokens, each operator with a label. -/
inductive Tree (α : Type) where
  | leaf (token : Token)
  | unary (label : α) (token : Token) (right : Tree α)
  | binary (label : α) (left : Tree α) (token : Token) (right : Tree α)

namespace Tree

variable {α : Type}

def tokens : Tree α → List Token
  | leaf t => [t]
  | unary _ t right => t :: right.tokens
  | binary _ left t right => left.tokens ++ t :: right.tokens

def labels : Tree α → List α
  | leaf _ => []
  | unary k _ right => k :: right.labels
  | binary k left _ right => k :: (left.labels ++ right.labels)

/-- Leaves are operands, and each operator has the operands that it takes. -/
def Valid : Tree α → Prop
  | leaf t => t.operator? = none
  | unary _ t right => (∃ o, t.operator? = some o ∧ o.isUnary = true) ∧ right.Valid
  | binary _ left t right =>
    (∃ o, t.operator? = some o ∧ o.isUnary = false) ∧ left.Valid ∧ right.Valid

/-- The operand slot that takes a tree whose labels are the indices of its steps. -/
def slot : Tree Nat → Option Operand
  | leaf t => t.operand?
  | unary k _ _ => some (.result k)
  | binary k _ _ _ => some (.result k)

def root? (tree : Tree Nat) : Option Nat := Operand.reference? tree.slot

/-- The cells of a tree below a step, or below none. A leaf belongs to the step
above it. -/
def cells (owner : Option Nat) : Tree Nat → List Cell
  | leaf t => [⟨t, owner⟩]
  | unary k t right => ⟨t, some k⟩ :: right.cells (some k)
  | binary k left t right => left.cells (some k) ++ ⟨t, some k⟩ :: right.cells (some k)

/-- The steps of a tree stand in a list under the indices that label it. -/
def Recorded (steps : List Step) : Tree Nat → Prop
  | leaf _ => True
  | unary k t right => steps[k]? = some ⟨t.operator?, none, right.slot⟩ ∧ right.Recorded steps
  | binary k left t right =>
    steps[k]? = some ⟨t.operator?, left.slot, right.slot⟩ ∧
      left.Recorded steps ∧ right.Recorded steps

theorem tokens_ne_nil (tree : Tree α) : tree.tokens ≠ [] := by
  cases tree <;> simp [tokens]

theorem map_token_cells (owner : Option Nat) (tree : Tree Nat) :
    (tree.cells owner).map Cell.token = tree.tokens := by
  induction tree generalizing owner with
  | leaf t => rfl
  | unary k t right ih => rw [cells, List.map_cons, ih, tokens]
  | binary k left t right ihl ihr => rw [cells, List.map_append, List.map_cons, ihl, ihr, tokens]

theorem length_cells (owner : Option Nat) (tree : Tree Nat) :
    (tree.cells owner).length = tree.tokens.length := by
  rw [← map_token_cells owner tree, List.length_map]

theorem Recorded.append {steps : List Step} {tree : Tree Nat} (h : tree.Recorded steps)
    (more : List Step) : tree.Recorded (steps ++ more) := by
  have keep : ∀ {k : Nat} {s : Step}, steps[k]? = some s → (steps ++ more)[k]? = some s := by
    intro k s hk
    rw [List.getElem?_append_left (List.getElem?_eq_some_iff.mp hk).1, hk]
  induction tree with
  | leaf t => trivial
  | unary k t right ih => exact ⟨keep h.1, ih h.2⟩
  | binary k left t right ihl ihr => exact ⟨keep h.1, ihl h.2.1, ihr h.2.2⟩

/-- The first cell of a tree is its only leaf or belongs to one of its steps. -/
theorem head_cells (owner : Option Nat) (tree : Tree Nat) :
    (∃ t, tree = leaf t) ∨
      ∃ t k rest, tree.cells owner = ⟨t, some k⟩ :: rest ∧ k ∈ tree.labels := by
  induction tree generalizing owner with
  | leaf t => exact Or.inl ⟨t, rfl⟩
  | unary k t right _ => exact Or.inr ⟨t, k, _, rfl, List.mem_cons_self⟩
  | binary k left t right ihl _ =>
    right
    rcases ihl (some k) with ⟨u, rfl⟩ | ⟨u, j, rest, he, hj⟩
    · exact ⟨u, k, _, rfl, List.mem_cons_self⟩
    · refine ⟨u, j, rest ++ ⟨t, some k⟩ :: right.cells (some k), ?_, ?_⟩
      · rw [cells, he, List.cons_append]
      · exact List.mem_cons_of_mem _ (List.mem_append_left _ hj)

/-- The last cell of a tree is its only leaf or belongs to one of its steps. -/
theorem last_cells (owner : Option Nat) (tree : Tree Nat) :
    (∃ t, tree = leaf t) ∨
      ∃ t k front, tree.cells owner = front ++ [⟨t, some k⟩] ∧ k ∈ tree.labels := by
  have below : ∀ {right : Tree Nat} {k : Nat} (front : List Cell),
      ((∃ t, right = leaf t) ∨
        ∃ t j rest, right.cells (some k) = rest ++ [⟨t, some j⟩] ∧ j ∈ right.labels) →
      ∃ t j rest, front ++ right.cells (some k) = rest ++ [⟨t, some j⟩] ∧
        (j = k ∨ j ∈ right.labels) := by
    rintro right k front (⟨t, rfl⟩ | ⟨t, j, rest, he, hj⟩)
    · exact ⟨t, k, front, rfl, Or.inl rfl⟩
    · exact ⟨t, j, front ++ rest, by rw [he, List.append_assoc], Or.inr hj⟩
  induction tree generalizing owner with
  | leaf t => exact Or.inl ⟨t, rfl⟩
  | unary k t right ih =>
    right
    obtain ⟨u, j, rest, he, hj⟩ := below [⟨t, some k⟩] (ih (some k))
    exact ⟨u, j, rest, he, List.mem_cons.mpr hj⟩
  | binary k left t right _ ihr =>
    right
    obtain ⟨u, j, rest, he, hj⟩ := below (left.cells (some k) ++ [⟨t, some k⟩]) (ihr (some k))
    refine ⟨u, j, rest, ?_, ?_⟩
    · rw [cells, ← he, List.append_assoc, List.singleton_append]
    · rcases hj with rfl | hj
      · exact List.mem_cons_self
      · exact List.mem_cons_of_mem _ (List.mem_append_right _ hj)

theorem owner_ne_none_of_mem {tree : Tree Nat} {k : Nat} {cell : Cell}
    (h : cell ∈ tree.cells (some k)) : cell.owner ≠ none := by
  induction tree generalizing k with
  | leaf t =>
    rw [List.mem_singleton.mp h]
    exact Option.some_ne_none k
  | unary j t right ih =>
    rcases List.mem_cons.mp h with rfl | h
    · exact Option.some_ne_none j
    · exact ih h
  | binary j left t right ihl ihr =>
    rcases List.mem_append.mp h with h | h
    · exact ihl h
    · rcases List.mem_cons.mp h with rfl | h
      · exact Option.some_ne_none j
      · exact ihr h

/-- Only a leaf depends on the step above it. -/
theorem cells_of_not_leaf {tree : Tree Nat} (h : ¬∃ t, tree = leaf t) (a b : Option Nat) :
    tree.cells a = tree.cells b := by
  cases tree with
  | leaf t => exact absurd ⟨t, rfl⟩ h
  | unary k t right => rfl
  | binary k left t right => rfl

/-- All cells of a tree with a step at its root belong to steps. -/
theorem owner_ne_none {tree : Tree Nat} (h : ∃ k, tree.slot = some (.result k)) :
    ∀ cell ∈ tree.cells none, cell.owner ≠ none := by
  intro cell hc
  obtain ⟨k, hk⟩ := h
  have hnl : ¬∃ t, tree = leaf t := by
    rintro ⟨t, rfl⟩
    obtain ⟨o | v | name, depth, offset⟩ := t
    · exact nomatch hk
    · exact nomatch hk
    · exact nomatch hk
  rw [tree.cells_of_not_leaf hnl none (some 0)] at hc
  exact owner_ne_none_of_mem hc

end Tree

/-! ## Pieces and forests -/

/-- A stretch of the token list: an operator that is not placed yet, or a tree. -/
inductive Piece where
  | pending (token : Token)
  | grown (tree : Tree Nat)

namespace Piece

def tokens : Piece → List Token
  | pending t => [t]
  | grown tree => tree.tokens

/-- The cells of a piece. Nothing claims a pending operator or a single leaf. -/
def cells : Piece → List Cell
  | pending t => [⟨t, none⟩]
  | grown tree => tree.cells none

def root? : Piece → Option Nat
  | pending _ => none
  | grown tree => tree.root?

def Valid : Piece → Prop
  | pending t => t.operator? ≠ none
  | grown tree => tree.Valid

end Piece

/-- The site is that of an operator token with an index. -/
structure Site.Marks (site : Site) (t : Token) (index : Nat) : Prop where
  index_eq : site.index = index
  operator_eq : t.operator? = some site.operator
  depth_eq : site.depth = t.depth
  offset_eq : site.offset = t.offset

abbrev Forest := List Piece

namespace Forest

def tokens (f : Forest) : List Token := f.flatMap Piece.tokens

def cells (f : Forest) : List Cell := f.flatMap Piece.cells

def roots (f : Forest) : List Nat := f.filterMap Piece.root?

/-- The forest in which nothing has grown. -/
def ofTokens (tokens : List Token) : Forest :=
  tokens.map fun t => if t.operator?.isSome then .pending t else .grown (.leaf t)

@[simp]
theorem tokens_append (f g : Forest) : tokens (f ++ g) = tokens f ++ tokens g :=
  List.flatMap_append

@[simp]
theorem tokens_cons (p : Piece) (f : Forest) : tokens (p :: f) = p.tokens ++ tokens f := rfl

@[simp]
theorem cells_append (f g : Forest) : cells (f ++ g) = cells f ++ cells g :=
  List.flatMap_append

@[simp]
theorem cells_cons (p : Piece) (f : Forest) : cells (p :: f) = p.cells ++ cells f := rfl

theorem map_token_cells (f : Forest) : (cells f).map Cell.token = tokens f := by
  induction f with
  | nil => rfl
  | cons p f ih =>
    rw [cells_cons, List.map_append, ih, tokens_cons]
    cases p with
    | pending t => rfl
    | grown tree => rw [Piece.cells, Tree.map_token_cells, Piece.tokens]

theorem length_cells (f : Forest) : (cells f).length = (tokens f).length := by
  rw [← map_token_cells, List.length_map]

theorem tokens_ofTokens (ts : List Token) : tokens (ofTokens ts) = ts := by
  induction ts with
  | nil => rfl
  | cons t ts ih =>
    show (if _ then _ else _ : Piece).tokens ++ tokens (ofTokens ts) = _
    rw [ih]
    split <;> rfl

theorem cells_ofTokens (ts : List Token) : cells (ofTokens ts) = ts.map fun t => ⟨t, none⟩ := by
  induction ts with
  | nil => rfl
  | cons t ts ih =>
    show (if _ then _ else _ : Piece).cells ++ cells (ofTokens ts) = _
    rw [ih]
    split <;> rfl

theorem roots_ofTokens (ts : List Token) : roots (ofTokens ts) = [] := by
  induction ts with
  | nil => rfl
  | cons t ts ih =>
    have hp : (if t.operator?.isSome then .pending t else .grown (.leaf t) : Piece).root? = none := by
      split
      · rfl
      · obtain ⟨lexeme, _, _⟩ := t
        cases lexeme <;> rfl
    rw [roots, ofTokens, List.map_cons, List.filterMap_cons, hp]
    exact ih

theorem mem_ofTokens {ts : List Token} {p : Piece} (h : p ∈ ofTokens ts) :
    p.Valid ∧ ((∃ t, p = .pending t) ∨ ∃ t, p = .grown (.leaf t)) := by
  obtain ⟨t, _, rfl⟩ := List.mem_map.mp h
  cases ho : t.operator? with
  | none => exact ⟨ho, Or.inr ⟨t, rfl⟩⟩
  | some o => exact ⟨by simp [Piece.Valid, ho], Or.inl ⟨t, rfl⟩⟩

/-- The draft stands for the forest: claims and chains follow the trees, and of all
steps exactly the roots are not referred to. -/
structure Represents (d : Draft) (f : Forest) : Prop where
  cells : d.cells = cells f
  valid : ∀ p ∈ f, p.Valid
  recorded : ∀ tree, .grown tree ∈ f → tree.Recorded d.steps
  chains : ∀ tree, .grown tree ∈ f → ∀ k ∈ tree.labels,
    tree.slot = some (.result (Draft.chainEnd d.steps k))
  roots_perm : (Plan.references d.steps ++ roots f).Perm (List.range d.steps.length)
  backward : Plan.Backward 0 d.steps

/-- Before anything is placed, the draft stands for single tokens. -/
theorem represents_ofTokens (ts : List Token) : Represents (Draft.ofTokens ts) (ofTokens ts) where
  cells := (cells_ofTokens ts).symm
  valid := fun _ hp => (mem_ofTokens hp).1
  recorded := by
    intro tree ht
    rcases (mem_ofTokens ht).2 with ⟨t, h⟩ | ⟨t, h⟩
    · exact nomatch h
    · cases h
      trivial
  chains := by
    intro tree ht k hk
    rcases (mem_ofTokens ht).2 with ⟨t, h⟩ | ⟨t, h⟩
    · exact nomatch h
    · cases h
      exact absurd hk List.not_mem_nil
  roots_perm := by rw [roots_ofTokens]; exact List.Perm.refl _
  backward := trivial

/-- The forest grows at the operator of a site, which becomes the step `n`. -/
inductive Grows (n : Nat) (site : Site) : Forest → Forest → Prop
  | unary {before after : Forest} {t : Token} {right : Tree Nat} :
      site.Marks t (tokens before).length → site.operator.isUnary = true →
      Grows n site (before ++ .pending t :: .grown right :: after)
        (before ++ .grown (.unary n t right) :: after)
  | binary {before after : Forest} {left right : Tree Nat} {t : Token} :
      site.Marks t ((tokens before).length + left.tokens.length) →
      site.operator.isUnary = false →
      Grows n site (before ++ .grown left :: .pending t :: .grown right :: after)
        (before ++ .grown (.binary n left t right) :: after)

/-- Growth does not touch the tokens. -/
theorem Grows.tokens_eq {n : Nat} {site : Site} {f g : Forest} (h : Grows n site f g) :
    tokens g = tokens f := by
  cases h with
  | unary _ _ => simp [Piece.tokens, Tree.tokens]
  | binary _ _ => simp [Piece.tokens, Tree.tokens]

end Forest

/-! ## Placing an operator -/

namespace Draft

open Forest

/-- One more step takes over the chains that end at a step it works on. -/
theorem chainEnd_concat (steps : List Step) (s : Step) (start : Nat) :
    chainEnd (steps ++ [s]) start =
      if s.uses (chainEnd steps start) then steps.length else chainEnd steps start := by
  unfold chainEnd
  rw [List.zipIdx_append, List.foldl_append]
  simp

/-- A chain stays where no step refers to its start. -/
theorem chainEnd_of_unused {steps : List Step} {start : Nat}
    (h : start ∉ Plan.references steps) : chainEnd steps start = start := by
  unfold chainEnd
  generalize 0 = n
  induction steps generalizing n with
  | nil => rfl
  | cons s rest ih =>
    rw [Plan.references_cons, List.mem_append, not_or] at h
    have hs : s.uses start ≠ true := fun hu => h.1 (Step.uses_iff.mp hu)
    rw [List.zipIdx_cons, List.foldl_cons]
    show List.foldl _ (if s.uses start = true then n else start) _ = start
    rw [if_neg hs]
    exact ih h.2 (n + 1)

theorem claim_cells {d : Draft} {before after : List Cell} {cell : Cell}
    (h : d.cells = before ++ cell :: after) :
    d.claim before.length =
      ⟨before ++ { cell with owner := some d.steps.length } :: after, d.steps⟩ := by
  have := List.modifyTailIdx_add (List.modifyHead fun c : Cell => { c with owner := some d.steps.length })
    0 before (cell :: after)
  unfold claim
  rw [h, List.modify]
  exact congrArg (Draft.mk · d.steps) this

theorem bind_claimed {d : Draft} {site : Site} {before after : List Cell} {t : Token} {k : Nat}
    (h : d.cells = before ++ ⟨t, some k⟩ :: after) :
    d.bind site before.length = .ok (.result (chainEnd d.steps k), d) := by
  unfold bind
  rw [h, List.getElem?_append_right (Nat.le_refl _), Nat.sub_self]
  rfl

theorem bind_operand {d : Draft} {site : Site} {before after : List Cell} {t : Token}
    {operand : Operand} (h : d.cells = before ++ ⟨t, none⟩ :: after)
    (ht : t.operand? = some operand) :
    d.bind site before.length =
      .ok (operand, ⟨before ++ ⟨t, some d.steps.length⟩ :: after, d.steps⟩) := by
  unfold bind
  rw [claim_cells h, h, List.getElem?_append_right (Nat.le_refl _), Nat.sub_self]
  obtain ⟨p | v | name, depth, offset⟩ := t
  · exact nomatch ht
  · cases ht
    rfl
  · cases ht
    rfl

theorem bind_pending {d : Draft} {site : Site} {before after : List Cell} {t : Token} {o : Operator}
    (h : d.cells = before ++ ⟨t, none⟩ :: after) (ht : t.operator? = some o) :
    d.bind site before.length = .error (missingOperand o t.offset) := by
  unfold bind
  rw [h, List.getElem?_append_right (Nat.le_refl _), Nat.sub_self]
  obtain ⟨p | v | name, depth, offset⟩ := t
  · cases ht
    rfl
  · exact nomatch ht
  · exact nomatch ht

theorem bind_end (d : Draft) (site : Site) {index : Nat} (h : d.cells.length ≤ index) :
    ∃ e, d.bind site index = .error e := by
  unfold bind
  rw [List.getElem?_eq_none h]
  exact ⟨_, rfl⟩

theorem place_eq_ok {d d₁ d₂ : Draft} {site : Site} {left : Option Operand} {right : Operand}
    (hl : (d.claim site.index).bindLeft site = .ok (left, d₁))
    (hr : d₁.bind site (site.index + 1) = .ok (right, d₂)) :
    d.place site = .ok ⟨d₂.cells, d₂.steps ++ [⟨some site.operator, left, some right⟩]⟩ := by
  unfold place
  rw [hl]
  show (d₁.bind site (site.index + 1) >>= _) = _
  rw [hr]
  rfl

theorem place_eq_error_left {d : Draft} {site : Site} {e : Located Fault}
    (hl : (d.claim site.index).bindLeft site = .error e) : d.place site = .error e := by
  unfold place
  rw [hl]
  rfl

theorem place_eq_error_right {d d₁ : Draft} {site : Site} {left : Option Operand}
    {e : Located Fault} (hl : (d.claim site.index).bindLeft site = .ok (left, d₁))
    (hr : d₁.bind site (site.index + 1) = .error e) : d.place site = .error e := by
  unfold place
  rw [hl]
  show (d₁.bind site (site.index + 1) >>= _) = _
  rw [hr]
  rfl

/-- Binding an operand makes no step. -/
theorem steps_of_bind {d d' : Draft} {site : Site} {index : Nat} {operand : Operand}
    (h : d.bind site index = .ok (operand, d')) : d'.steps = d.steps := by
  unfold bind at h
  split at h
  · exact nomatch h
  · split at h
    · cases h
      rfl
    · exact nomatch h
    · cases h
      rfl
    · cases h
      rfl

theorem steps_of_bindLeft {d d' : Draft} {site : Site} {operand : Option Operand}
    (h : d.bindLeft site = .ok (operand, d')) : d'.steps = d.steps := by
  unfold bindLeft at h
  split at h
  · cases h
    rfl
  split at h
  · exact nomatch h
  · next index _ =>
    cases hb : d.bind site index with
    | error e =>
      rw [hb] at h
      exact nomatch h
    | ok bound =>
      rw [hb] at h
      cases h
      exact steps_of_bind hb

/-- Placing an operator makes one step, which is its own. -/
theorem steps_of_place {d d' : Draft} {site : Site} (h : d.place site = .ok d') :
    ∃ left right, d'.steps = d.steps ++ [⟨some site.operator, left, right⟩] := by
  cases hl : (d.claim site.index).bindLeft site with
  | error e =>
    rw [place_eq_error_left hl] at h
    exact nomatch h
  | ok leftBound =>
    obtain ⟨left, d₁⟩ := leftBound
    cases hr : d₁.bind site (site.index + 1) with
    | error e =>
      rw [place_eq_error_right hl hr] at h
      exact nomatch h
    | ok rightBound =>
      obtain ⟨right, d₂⟩ := rightBound
      rw [place_eq_ok hl hr] at h
      cases h
      refine ⟨left, some right, ?_⟩
      show d₂.steps ++ _ = _
      rw [steps_of_bind hr, steps_of_bindLeft hl]
      rfl

end Draft

theorem Token.operand?_of_operator? {t : Token} (h : t.operator? = none) :
    ∃ operand, t.operand? = some operand ∧ Operand.reference? (some operand) = none := by
  obtain ⟨o | v | name, depth, offset⟩ := t
  · exact nomatch h
  · exact ⟨.literal v, rfl, rfl⟩
  · exact ⟨.variable name, rfl, rfl⟩

namespace Draft

open Forest

/-- The token at the left end of a tree stands for the value of the whole tree, and
binding it puts the tree below the next step. -/
theorem bind_first {d : Draft} (site : Site) {before after : List Cell} {tree : Tree Nat}
    (h : d.cells = before ++ (tree.cells none ++ after)) (hv : tree.Valid)
    (hc : ∀ k ∈ tree.labels, tree.slot = some (.result (chainEnd d.steps k))) :
    ∃ operand, tree.slot = some operand ∧ d.bind site before.length =
      .ok (operand, ⟨before ++ (tree.cells (some d.steps.length) ++ after), d.steps⟩) := by
  rcases tree.head_cells none with ⟨t, rfl⟩ | ⟨t, k, rest, he, hk⟩
  · obtain ⟨operand, ho, _⟩ := Token.operand?_of_operator? hv
    exact ⟨operand, ho, bind_operand h ho⟩
  · refine ⟨_, hc k hk, ?_⟩
    have hnl : ¬∃ t, tree = .leaf t := by
      rintro ⟨u, rfl⟩
      exact absurd hk List.not_mem_nil
    rw [tree.cells_of_not_leaf hnl _ none, ← h]
    exact bind_claimed (by rw [h, he]; rfl)

/-- The token at the right end of a tree does so too. -/
theorem bind_last {d : Draft} (site : Site) {before after : List Cell} {tree : Tree Nat}
    {index : Nat} (h : d.cells = before ++ (tree.cells none ++ after)) (hv : tree.Valid)
    (hc : ∀ k ∈ tree.labels, tree.slot = some (.result (chainEnd d.steps k)))
    (hi : index + 1 = before.length + tree.tokens.length) :
    ∃ operand, tree.slot = some operand ∧ d.bind site index =
      .ok (operand, ⟨before ++ (tree.cells (some d.steps.length) ++ after), d.steps⟩) := by
  rcases tree.last_cells none with ⟨t, rfl⟩ | ⟨t, k, front, he, hk⟩
  · obtain ⟨operand, ho, _⟩ := Token.operand?_of_operator? hv
    obtain rfl : index = before.length := Nat.succ.inj hi
    exact ⟨operand, ho, bind_operand h ho⟩
  · refine ⟨_, hc k hk, ?_⟩
    have hnl : ¬∃ t, tree = .leaf t := by
      rintro ⟨u, rfl⟩
      exact absurd hk List.not_mem_nil
    have hlen : index = (before ++ front).length := by
      rw [← tree.length_cells none, he, List.length_append, List.length_singleton] at hi
      rw [List.length_append]
      omega
    have hcells : d.cells = (before ++ front) ++ ⟨t, some k⟩ :: after := by
      rw [h, he, List.append_assoc, List.append_assoc, List.singleton_append]
    rw [tree.cells_of_not_leaf hnl _ none, ← h, hlen]
    exact bind_claimed hcells

end Draft

namespace Forest

@[simp]
theorem roots_append (f g : Forest) : roots (f ++ g) = roots f ++ roots g :=
  List.filterMap_append

theorem mem_roots_of_slot {f : Forest} {tree : Tree Nat} {k : Nat} (ht : .grown tree ∈ f)
    (hk : tree.slot = some (.result k)) : k ∈ roots f := by
  refine List.mem_filterMap.mpr ⟨.grown tree, ht, ?_⟩
  show Operand.reference? tree.slot = some k
  rw [hk]
  rfl

namespace Represents

variable {d : Draft} {f : Forest}

theorem nodup (h : Represents d f) : (Plan.references d.steps ++ roots f).Nodup :=
  h.roots_perm.nodup_iff.mpr List.nodup_range

theorem root_lt (h : Represents d f) {k : Nat} (hk : k ∈ roots f) : k < d.steps.length :=
  List.mem_range.mp (h.roots_perm.mem_iff.mp (List.mem_append_right _ hk))

theorem reference_lt (h : Represents d f) {k : Nat} (hk : k ∈ Plan.references d.steps) :
    k < d.steps.length :=
  List.mem_range.mp (h.roots_perm.mem_iff.mp (List.mem_append_left _ hk))

/-- Consecutive pieces join into one tree with a new step at its root, which works
on the results at their roots. -/
theorem join {before : Forest} (joined : Forest) {after : Forest} (tree : Tree Nat) {s : Step}
    (h : Represents d (before ++ (joined ++ after)))
    (hslot : tree.slot = some (.result d.steps.length))
    (hlabels : ∀ k ∈ tree.labels,
      k = d.steps.length ∨ ∃ part, .grown part ∈ joined ∧ k ∈ part.labels)
    (hroots : s.references = roots joined)
    (hvalid : tree.Valid) (hrec : tree.Recorded (d.steps ++ [s])) :
    Represents ⟨Forest.cells (before ++ .grown tree :: after), d.steps ++ [s]⟩
      (before ++ .grown tree :: after) := by
  have hnodup := h.nodup
  rw [roots_append, roots_append] at hnodup
  have hparts : ∀ part, .grown part ∈ before ∨ .grown part ∈ after →
      .grown part ∈ before ++ (joined ++ after) := by
    rintro part (hp | hp)
    · exact List.mem_append_left _ hp
    · exact List.mem_append_right _ (List.mem_append_right _ hp)
  have hcases : ∀ {p : Piece}, p ∈ before ++ .grown tree :: after →
      p = .grown tree ∨ (p ∈ before ∨ p ∈ after) := by
    intro p hp
    rcases List.mem_append.mp hp with hp | hp
    · exact Or.inr (Or.inl hp)
    · rcases List.mem_cons.mp hp with rfl | hp
      · exact Or.inl rfl
      · exact Or.inr (Or.inr hp)
  refine ⟨rfl, ?_, ?_, ?_, ?_, ?_⟩
  · intro p hp
    rcases hcases hp with rfl | hp | hp
    · exact hvalid
    · exact h.valid p (List.mem_append_left _ hp)
    · exact h.valid p (List.mem_append_right _ (List.mem_append_right _ hp))
  · intro part hp
    rcases hcases hp with he | hp
    · cases he
      exact hrec
    · exact (h.recorded part (hparts part hp)).append [s]
  · intro part hp k hk
    show part.slot = some (.result (Draft.chainEnd (d.steps ++ [s]) k))
    rw [Draft.chainEnd_concat]
    rcases hcases hp with he | hp
    · cases he
      rw [hslot]
      rcases hlabels k hk with rfl | ⟨old, ho, hk⟩
      · -- the new step itself: nothing refers to it
        rw [Draft.chainEnd_of_unused fun hm => absurd (h.reference_lt hm) (Nat.lt_irrefl _)]
        simp
      · -- a step of a joined tree: its chain ended at a root, which the new step uses
        have hold := h.chains old (List.mem_append_right _ (List.mem_append_left _ ho)) k hk
        rw [if_pos (Step.uses_iff.mpr (hroots ▸ mem_roots_of_slot ho hold))]
    · -- a step of another tree: its root is not among the roots of the joined ones
      have hother := h.chains part (hparts part hp) k hk
      rw [if_neg, hother]
      intro hu
      have hj : Draft.chainEnd d.steps k ∈ roots joined := hroots ▸ Step.uses_iff.mp hu
      obtain ⟨_, hn, _⟩ := List.nodup_append.mp hnodup
      obtain ⟨_, hn', hdis⟩ := List.nodup_append.mp hn
      obtain ⟨_, _, hdis'⟩ := List.nodup_append.mp hn'
      rcases hp with hp | hp
      · exact hdis _ (mem_roots_of_slot hp hother) _ (List.mem_append_left _ hj) rfl
      · exact hdis' _ hj _ (mem_roots_of_slot hp hother) rfl
  · have hperm := h.roots_perm
    have hroot : roots (.grown tree :: after) = d.steps.length :: roots after := by
      rw [roots, List.filterMap_cons, Piece.root?, Tree.root?, hslot]
      rfl
    rw [List.perm_iff_count] at hperm ⊢
    intro k
    have := hperm k
    rw [Plan.references_append, Plan.references_cons, hroots, roots_append, hroot,
      List.length_append, List.length_singleton, List.range_succ]
    simp only [roots_append, List.count_append, List.count_cons, Plan.references,
      List.flatMap_nil, List.count_nil] at this ⊢
    omega
  · refine Plan.backward_append.mpr ⟨h.backward, ?_, trivial⟩
    intro k hk
    rw [hroots] at hk
    have := h.root_lt (k := k) (by
      rw [roots_append, roots_append]
      exact List.mem_append_right _ (List.mem_append_left _ hk))
    omega

end Represents

variable {d : Draft} {site : Site}

/-- The claim that begins the placing of an operator. -/
theorem claim_pending {before after : Forest} {t : Token}
    (h : Represents d (before ++ .pending t :: after))
    (hi : site.index = (tokens before).length) :
    d.claim site.index =
      ⟨cells before ++ ⟨t, some d.steps.length⟩ :: cells after, d.steps⟩ := by
  have hd : d.cells = cells before ++ ⟨t, none⟩ :: cells after := by
    rw [h.cells, cells_append, cells_cons]
    rfl
  rw [hi, ← length_cells, Draft.claim_cells hd]

/-- Binding the piece to the right of a site: it has to be a tree. -/
theorem bind_right (d : Draft) {front : List Cell} {after : Forest} {t : Token}
    (hd : d.cells = front ++ ⟨t, some d.steps.length⟩ :: cells after)
    (hi : site.index = front.length) (hvalid : ∀ p ∈ after, p.Valid)
    (hchains : ∀ tree, .grown tree ∈ after → ∀ k ∈ tree.labels,
      tree.slot = some (.result (Draft.chainEnd d.steps k))) :
    ((∃ e, d.bind site (site.index + 1) = .error e) ∧ ∀ right rest, after ≠ .grown right :: rest) ∨
    ∃ right rest operand, after = .grown right :: rest ∧ right.slot = some operand ∧
      d.bind site (site.index + 1) = .ok (operand,
        ⟨front ++ ⟨t, some d.steps.length⟩ ::
          (right.cells (some d.steps.length) ++ cells rest), d.steps⟩) := by
  have hfront : site.index + 1 = (front ++ [(⟨t, some d.steps.length⟩ : Cell)]).length := by
    rw [hi, List.length_append, List.length_singleton]
  have hcells : d.cells = (front ++ [⟨t, some d.steps.length⟩]) ++ cells after := by
    rw [hd, List.append_assoc, List.singleton_append]
  cases after with
  | nil =>
    left
    refine ⟨Draft.bind_end d site ?_, fun _ _ h => nomatch h⟩
    rw [hcells, hfront]
    simp [cells]
  | cons p rest =>
    cases p with
    | pending u =>
      left
      have hv : u.operator? ≠ none := hvalid _ List.mem_cons_self
      obtain ⟨o, ho⟩ := Option.ne_none_iff_exists'.mp hv
      refine ⟨⟨Draft.missingOperand o u.offset, ?_⟩, fun _ _ h => nomatch h⟩
      rw [hfront]
      exact Draft.bind_pending hcells ho
    | grown right =>
      right
      obtain ⟨operand, ho, hb⟩ := Draft.bind_first site hcells (hvalid _ List.mem_cons_self)
        (hchains right List.mem_cons_self)
      refine ⟨right, rest, operand, rfl, ho, ?_⟩
      rw [hfront, hb, List.append_assoc, List.singleton_append]
      rfl

/-- Binding the piece to the left of a site: it has to be a tree, too. -/
theorem bind_left (d : Draft) {before : Forest} {behind : List Cell}
    (hd : d.cells = cells before ++ behind) (hi : site.index = (tokens before).length)
    (hu : site.operator.isUnary = false) (hvalid : ∀ p ∈ before, p.Valid)
    (hchains : ∀ tree, .grown tree ∈ before → ∀ k ∈ tree.labels,
      tree.slot = some (.result (Draft.chainEnd d.steps k))) :
    ((∃ e, d.bindLeft site = .error e) ∧ ∀ front left, before ≠ front ++ [.grown left]) ∨
    ∃ front left operand, before = front ++ [.grown left] ∧ left.slot = some operand ∧
      d.bindLeft site = .ok (some operand,
        ⟨cells front ++ (left.cells (some d.steps.length) ++ behind), d.steps⟩) := by
  unfold Draft.bindLeft
  rw [hu, if_neg Bool.false_ne_true]
  rcases List.eq_nil_or_concat before with rfl | ⟨front, p, rfl⟩
  · left
    rw [hi]
    exact ⟨⟨_, rfl⟩, fun _ _ h => by simp at h⟩
  · rw [List.concat_eq_append] at hd hi hvalid hchains ⊢
    have hd : d.cells = cells front ++ (p.cells ++ behind) := by
      rw [hd, cells_append, cells_cons, List.append_assoc]
      simp [cells]
    rw [tokens_append, tokens_cons, List.length_append] at hi
    have hmem : p ∈ front ++ [p] := List.mem_append_right _ List.mem_cons_self
    cases p with
    | pending u =>
      left
      have hv : u.operator? ≠ none := hvalid _ hmem
      obtain ⟨o, ho⟩ := Option.ne_none_iff_exists'.mp hv
      have hindex : site.index = (cells front).length + 1 := by
        rw [hi, length_cells]
        rfl
      refine ⟨⟨Draft.missingOperand o u.offset, ?_⟩, fun _ _ h => by simp at h⟩
      rw [hindex]
      show (d.bind site (cells front).length).map _ = _
      rw [Draft.bind_pending hd ho]
      rfl
    | grown left =>
      right
      obtain ⟨index, hindex⟩ : ∃ index, index + 1 = site.index := by
        refine ⟨site.index - 1, Nat.sub_add_cancel ?_⟩
        have := List.length_pos_iff.mpr left.tokens_ne_nil
        rw [hi]
        simp only [Piece.tokens, List.length_append]
        omega
      have hlen : index + 1 = (cells front).length + left.tokens.length := by
        rw [hindex, hi, length_cells]
        simp [Piece.tokens, tokens]
      obtain ⟨operand, ho, hb⟩ := Draft.bind_last site hd (hvalid _ hmem) (hchains left hmem) hlen
      refine ⟨front, left, operand, rfl, ho, ?_⟩
      rw [← hindex]
      show (d.bind site index).map _ = _
      rw [hb]
      rfl

theorem roots_pending (t : Token) (f : Forest) : roots (.pending t :: f) = roots f := rfl

theorem roots_grown (tree : Tree Nat) (f : Forest) :
    roots (.grown tree :: f) = (Operand.reference? tree.slot).toList ++ roots f := by
  rw [roots, List.filterMap_cons, Piece.root?, Tree.root?]
  cases Operand.reference? tree.slot <;> rfl

/-- Placing a unary operator joins it with the tree to its right. -/
theorem place_unary {before after : Forest} {t : Token}
    (h : Represents d (before ++ .pending t :: after)) (hm : site.Marks t (tokens before).length)
    (hu : site.operator.isUnary = true) :
    ((∃ e, d.place site = .error e) ∧ ∀ right rest, after ≠ .grown right :: rest) ∨
    ∃ right rest d', after = .grown right :: rest ∧ d.place site = .ok d' ∧
      Represents d' (before ++ .grown (.unary d.steps.length t right) :: rest) := by
  have hi := hm.index_eq
  have hleft : (d.claim site.index).bindLeft site =
      .ok (none, ⟨cells before ++ ⟨t, some d.steps.length⟩ :: cells after, d.steps⟩) := by
    unfold Draft.bindLeft
    rw [hu, if_pos rfl, claim_pending h hi]
  have hmem : ∀ p ∈ after, p ∈ before ++ .pending t :: after :=
    fun p hp => List.mem_append_right _ (List.mem_cons_of_mem _ hp)
  rcases bind_right ⟨cells before ++ ⟨t, some d.steps.length⟩ :: cells after, d.steps⟩ rfl
      (hi.trans (length_cells before).symm) (fun p hp => h.valid p (hmem p hp))
      (fun tree ht => h.chains tree (hmem _ ht)) with
    ⟨⟨e, he⟩, hne⟩ | ⟨right, rest, operand, rfl, hslot, hb⟩
  · left
    exact ⟨⟨e, Draft.place_eq_error_right hleft he⟩, hne⟩
  · right
    have hr : .grown right ∈ before ++ .pending t :: .grown right :: rest :=
      hmem _ List.mem_cons_self
    refine ⟨right, rest, _, rfl, Draft.place_eq_ok hleft hb, ?_⟩
    have hnew := Represents.join [.pending t, .grown right] (.unary d.steps.length t right)
      (s := ⟨some site.operator, none, some operand⟩) h rfl ?_ ?_ ?_ ?_
    · simpa [Piece.cells, Tree.cells] using hnew
    · intro k hk
      rcases List.mem_cons.mp hk with rfl | hk
      · exact Or.inl rfl
      · exact Or.inr ⟨right, by simp, hk⟩
    · rw [roots_pending, roots_grown, hslot]
      simp [Step.references, roots, Operand.reference?]
    · exact ⟨⟨_, hm.operator_eq, hu⟩, h.valid _ hr⟩
    · refine ⟨?_, (h.recorded right hr).append _⟩
      rw [hm.operator_eq, hslot]
      simp

/-- Placing a binary operator joins it with the trees on both sides. -/
theorem place_binary {before after : Forest} {t : Token}
    (h : Represents d (before ++ .pending t :: after)) (hm : site.Marks t (tokens before).length)
    (hu : site.operator.isUnary = false) :
    ((∃ e, d.place site = .error e) ∧ ∀ front left right rest,
      before = front ++ [.grown left] → after ≠ .grown right :: rest) ∨
    ∃ front left right rest d', before = front ++ [.grown left] ∧ after = .grown right :: rest ∧
      d.place site = .ok d' ∧
      Represents d' (front ++ .grown (.binary d.steps.length left t right) :: rest) := by
  have hi := hm.index_eq
  have hbefore : ∀ p ∈ before, p ∈ before ++ .pending t :: after :=
    fun p hp => List.mem_append_left _ hp
  have hafter : ∀ p ∈ after, p ∈ before ++ .pending t :: after :=
    fun p hp => List.mem_append_right _ (List.mem_cons_of_mem _ hp)
  have hbl := bind_left ⟨cells before ++ ⟨t, some d.steps.length⟩ :: cells after, d.steps⟩ rfl hi hu
    (fun p hp => h.valid p (hbefore p hp)) (fun tree ht => h.chains tree (hbefore _ ht))
  rw [← claim_pending h hi] at hbl
  rcases hbl with ⟨⟨e, he⟩, hne⟩ | ⟨front, left, loperand, rfl, hlslot, hl⟩
  · left
    exact ⟨⟨e, Draft.place_eq_error_left he⟩, fun front left _ _ hb => absurd hb (hne front left)⟩
  rw [claim_pending h hi] at hl
  have hindex : site.index = (cells front ++ left.cells (some d.steps.length)).length := by
    rw [hi, List.length_append, length_cells, Tree.length_cells]
    simp [Piece.tokens, tokens]
  rcases bind_right ⟨cells front ++ (left.cells (some d.steps.length) ++
      ⟨t, some d.steps.length⟩ :: cells after), d.steps⟩ (List.append_assoc _ _ _).symm hindex
      (fun p hp => h.valid p (hafter p hp)) (fun tree ht => h.chains tree (hafter _ ht)) with
    ⟨⟨e, he⟩, hne⟩ | ⟨right, rest, roperand, rfl, hrslot, hr⟩
  · left
    refine ⟨⟨e, Draft.place_eq_error_right (claim_pending h hi ▸ hl) he⟩, ?_⟩
    exact fun _ _ right rest _ => hne right rest
  · right
    refine ⟨front, left, right, rest, _, rfl, rfl, Draft.place_eq_ok (claim_pending h hi ▸ hl) hr, ?_⟩
    have hgl := hbefore (.grown left) (List.mem_append_right _ List.mem_cons_self)
    have hgr := hafter (.grown right) List.mem_cons_self
    have hjoined : front ++ [.grown left] ++ .pending t :: .grown right :: rest =
        front ++ ([.grown left, .pending t, .grown right] ++ rest) := by simp
    have hnew := Represents.join [.grown left, .pending t, .grown right]
      (.binary d.steps.length left t right)
      (s := ⟨some site.operator, some loperand, some roperand⟩) (hjoined ▸ h) rfl ?_ ?_ ?_ ?_
    · simpa [Piece.cells, Tree.cells] using hnew
    · intro k hk
      rcases List.mem_cons.mp hk with rfl | hk
      · exact Or.inl rfl
      · rcases List.mem_append.mp hk with hk | hk
        · exact Or.inr ⟨left, by simp, hk⟩
        · exact Or.inr ⟨right, by simp, hk⟩
    · rw [roots_grown, roots_pending, roots_grown, hlslot, hrslot]
      simp [Step.references, roots]
    · exact ⟨⟨_, hm.operator_eq, hu⟩, h.valid _ hgl, h.valid _ hgr⟩
    · refine ⟨?_, (h.recorded left hgl).append _, (h.recorded right hgr).append _⟩
      rw [hm.operator_eq, hlslot, hrslot]
      simp

/-- Where the forest can grow at a site, placing the operator there succeeds. -/
theorem place_of_grows {f g : Forest} (h : Represents d f) (hg : Grows d.steps.length site f g) :
    ∃ d', d.place site = .ok d' ∧ Represents d' g := by
  cases hg with
  | unary hm hu =>
    rcases place_unary h hm hu with ⟨_, hne⟩ | ⟨right, rest, d', he, hp, hrep⟩
    · exact absurd rfl (hne _ _)
    · cases he
      exact ⟨d', hp, hrep⟩
  | @binary before after left right t hm hu =>
    have hsplit : before ++ .grown left :: .pending t :: .grown right :: after =
        (before ++ [.grown left]) ++ .pending t :: .grown right :: after := by simp
    have hlen : (tokens before).length + left.tokens.length =
        (tokens (before ++ [.grown left])).length := by simp [Piece.tokens, tokens]
    rcases place_binary (hsplit ▸ h) (hlen ▸ hm) hu with
      ⟨_, hne⟩ | ⟨front, left', right', rest, d', hb, ha, hp, hrep⟩
    · exact absurd rfl (hne before left right after rfl)
    · obtain ⟨rfl, hl⟩ := List.append_inj' hb rfl
      cases hl
      cases ha
      exact ⟨d', hp, hrep⟩

/-- Placing a pending operator succeeds only where the forest can grow at it. -/
theorem grows_of_place {before after : Forest} {t : Token} {d' : Draft}
    (h : Represents d (before ++ .pending t :: after)) (hm : site.Marks t (tokens before).length)
    (hp : d.place site = .ok d') :
    ∃ g, Grows d.steps.length site (before ++ .pending t :: after) g ∧ Represents d' g := by
  cases hu : site.operator.isUnary with
  | true =>
    rcases place_unary h hm hu with ⟨⟨e, he⟩, _⟩ | ⟨right, rest, d'', rfl, hp', hrep⟩
    · rw [he] at hp
      exact nomatch hp
    · rw [hp'] at hp
      cases hp
      exact ⟨_, .unary hm hu, hrep⟩
  | false =>
    rcases place_binary h hm hu with
      ⟨⟨e, he⟩, _⟩ | ⟨front, left, right, rest, d'', rfl, rfl, hp', hrep⟩
    · rw [he] at hp
      exact nomatch hp
    · rw [hp'] at hp
      cases hp
      refine ⟨_, ?_, hrep⟩
      rw [List.append_assoc, List.singleton_append]
      refine .binary ?_ hu
      simpa [Piece.tokens, tokens] using hm

end Forest

end DialogueScript
