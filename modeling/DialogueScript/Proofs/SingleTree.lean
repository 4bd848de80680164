import Mathlib
import DialogueScript.Proofs.Growth

/-!
# Which accepted expressions are one tree

An expression is accepted as soon as every token is claimed by some step. That does
not make its plan one tree: in `1+2 x*3` the sum and the product each claim their
three tokens, and nothing joins them. Here the trees of an accepted expression are
counted. They meet where an operand stands right before another operand or before
a unary operator, which no operator joins; such a place is a seam.

Main statement: `Plan.isTree_iff_seams`, by which the plan of an accepted expression
has one tree more than its tokens have seams, and is one tree exactly if they have
none.
-/

namespace DialogueScript

/-! ## Seams -/

namespace Token

/-- How many operands of a token list stand right before an operand or a unary
operator. The flag tells whether an operand stands before the list. -/
def seamsAfter (afterOperand : Bool) : List Token → Nat
  | [] => 0
  | t :: rest =>
    (if afterOperand && (t.operator?.isNone || t.isUnary) then 1 else 0) +
      seamsAfter t.operator?.isNone rest

def seams (tokens : List Token) : Nat := seamsAfter false tokens

theorem operator?_congr {t u : Token} (h : t.lexeme = u.lexeme) : t.operator? = u.operator? := by
  unfold operator?
  rw [h]

theorem isUnary_congr {t u : Token} (h : t.lexeme = u.lexeme) : t.isUnary = u.isUnary := by
  unfold isUnary
  rw [operator?_congr h]

/-- Seams depend on the lexemes only. -/
theorem seamsAfter_congr {b : Bool} {ts us : List Token}
    (h : ts.map Token.lexeme = us.map Token.lexeme) : seamsAfter b ts = seamsAfter b us := by
  induction ts generalizing b us with
  | nil =>
    rw [List.map_nil] at h
    rw [List.map_eq_nil_iff.mp h.symm]
  | cons t ts ih =>
    cases us with
    | nil => exact nomatch h
    | cons u us =>
      rw [List.map_cons, List.map_cons] at h
      obtain ⟨hl, hr⟩ := List.cons.inj h
      rw [seamsAfter, seamsAfter, operator?_congr hl, isUnary_congr hl, ih hr]

/-- Deciding about a `-` makes no seam: after an operand it stays a subtraction. -/
theorem seamsAfter_settleSigns (b : Bool) (ts : List Token) :
    seamsAfter b (settleSigns b ts) = seamsAfter b ts := by
  induction ts generalizing b with
  | nil => rfl
  | cons t ts ih =>
    obtain ⟨lexeme, depth, offset⟩ := t
    rcases lexeme with o | v | name
    · cases b <;> cases o <;> simp [settleSigns, seamsAfter, operator?, isUnary, ih]
    · simp [settleSigns, seamsAfter, operator?, ih]
    · simp [settleSigns, seamsAfter, operator?, ih]

end Token

/-! ## Seams stand between trees -/

namespace Tree

variable {α : Type}

/-- Inside a tree there is no seam; there is one before it if an operand stands
there, and it ends with an operand. -/
theorem seamsAfter_tokens {tree : Tree α} (h : tree.Valid) (b : Bool) (rest : List Token) :
    Token.seamsAfter b (tree.tokens ++ rest) = b.toNat + Token.seamsAfter true rest := by
  induction tree generalizing b rest with
  | leaf t =>
    have ht : t.operator? = none := h
    rw [tokens, List.singleton_append, Token.seamsAfter, ht]
    cases b <;> rfl
  | unary a t right ih =>
    obtain ⟨⟨o, ho, hu⟩, hr⟩ := h
    have ht : t.isUnary = true := by rw [Token.isUnary, ho, Option.any_some, hu]
    rw [tokens, List.cons_append, Token.seamsAfter, ho, ht, Option.isNone_some, ih hr]
    cases b <;> simp
  | binary a left t right ihl ihr =>
    obtain ⟨⟨o, ho, hu⟩, hl, hr⟩ := h
    have ht : t.isUnary = false := by rw [Token.isUnary, ho, Option.any_some, hu]
    rw [tokens, List.append_assoc, ihl hl, List.cons_append, Token.seamsAfter, ho, ht,
      Option.isNone_some, ihr hr]
    simp

/-- Side by side, trees have a seam before each of them but the first. -/
theorem seamsAfter_flatMap {trees : List (Tree α)} (h : ∀ tree ∈ trees, tree.Valid) :
    Token.seamsAfter true (trees.flatMap tokens) = trees.length := by
  induction trees with
  | nil => rfl
  | cons tree rest ih =>
    rw [List.flatMap_cons, seamsAfter_tokens (h tree List.mem_cons_self),
      ih fun t ht => h t (List.mem_cons_of_mem _ ht), List.length_cons, Bool.toNat_true, Nat.add_comm]

theorem seams_flatMap {trees : List (Tree α)} (h : ∀ tree ∈ trees, tree.Valid) (hne : trees ≠ []) :
    Token.seams (trees.flatMap tokens) + 1 = trees.length := by
  cases trees with
  | nil => exact absurd rfl hne
  | cons tree rest =>
    rw [Token.seams, List.flatMap_cons, seamsAfter_tokens (h tree List.mem_cons_self),
      seamsAfter_flatMap fun t ht => h t (List.mem_cons_of_mem _ ht)]
    simp

end Tree

/-! ## Counting the trees of a plan -/

namespace Plan

def unreferenced (steps : List Step) : List Nat :=
  (List.range steps.length).filter fun k => (references steps).count k = 0

/-- Each step but the last is referred to by exactly one operand slot, and that slot
belongs to a later step. -/
def IsTree (steps : List Step) : Prop :=
  Backward 0 steps ∧ ∀ k, k + 1 < steps.length → (references steps).count k = 1

namespace Grown

variable {steps : List Step} {tokens : List Token} {trees : List (Tree Nat)}

/-- A step is referred to once, or it is the root of one tree and not referred to. -/
theorem count_add_count (h : Grown steps tokens trees) {k : Nat} (hk : k < steps.length) :
    (references steps).count k + (trees.filterMap Tree.root?).count k = 1 := by
  rw [← List.count_append, h.roots_perm.count_eq]
  exact List.nodup_range.count.trans (if_pos (List.mem_range.mpr hk))

/-- The steps that are not referred to are the roots of the trees. -/
theorem unreferenced_perm (h : Grown steps tokens trees) :
    (unreferenced steps).Perm (trees.filterMap Tree.root?) := by
  rw [List.perm_iff_count]
  intro k
  by_cases hk : k < steps.length
  · have hsum := h.count_add_count hk
    have hrange : (List.range steps.length).count k = 1 :=
      List.nodup_range.count.trans (if_pos (List.mem_range.mpr hk))
    by_cases hc : (references steps).count k = 0
    · rw [unreferenced, List.count_filter (by simpa using hc), hrange]
      omega
    · rw [unreferenced, List.count_eq_zero.mpr (by simp [List.mem_filter, hc])]
      omega
  · have hnot : k ∉ trees.filterMap Tree.root? := fun hm =>
      hk (List.mem_range.mp (h.roots_perm.mem_iff.mp (List.mem_append_right _ hm)))
    rw [List.count_eq_zero.mpr hnot, List.count_eq_zero]
    intro hm
    exact hk (List.mem_range.mp (List.mem_filter.mp hm).1)

theorem length_unreferenced (h : Grown steps tokens trees) :
    (unreferenced steps).length = trees.length := by
  rw [h.unreferenced_perm.length_eq, h.length_roots]

/-- A plan is one tree exactly if its forest has one. -/
theorem isTree_iff (h : Grown steps tokens trees) (hne : steps ≠ []) :
    IsTree steps ↔ trees.length = 1 := by
  have hlast := h.last_mem_roots hne
  have hlen := h.length_roots
  constructor
  · rintro ⟨_, hone⟩
    -- every root but the last step would be referred to and not referred to
    have hall : ∀ k ∈ trees.filterMap Tree.root?, k = steps.length - 1 := by
      intro k hm
      have hk := List.mem_range.mp (h.roots_perm.mem_iff.mp (List.mem_append_right _ hm))
      refine Decidable.byContradiction fun hne => ?_
      have hc := h.count_add_count hk
      have := List.count_pos_iff.mpr hm
      have := hone k (by omega)
      omega
    have hrep := List.eq_replicate_iff.mpr ⟨hlen, hall⟩
    have hnodup := (List.nodup_append.mp h.nodup).2.1
    rw [hrep, List.nodup_replicate] at hnodup
    have := List.length_pos_of_mem hlast
    omega
  · intro hone
    refine ⟨h.backward, fun k hk => ?_⟩
    have hc := h.count_add_count (k := k) (by omega)
    obtain ⟨r, hr⟩ := List.length_eq_one_iff.mp (hlen.trans hone)
    rw [hr, List.mem_singleton] at hlast
    have hnot : k ∉ trees.filterMap Tree.root? := by
      rw [hr, List.mem_singleton]
      omega
    rw [List.count_eq_zero.mpr hnot] at hc
    exact hc

end Grown

end Plan

namespace Plan

/-- The plan of two or more tokens has one tree more than the tokens have seams. -/
theorem isTree_iff_of_ofDraft {ts : List Token} {plan : Plan} (hne : ts ≠ [])
    (h : ofDraft ts = .ok plan) :
    (unreferenced plan.steps).length = Token.seams ts + 1 ∧
      (IsTree plan.steps ↔ Token.seams ts = 0) := by
  obtain ⟨trees, hg⟩ := exists_grown h
  have hseams : Token.seams (trees.flatMap Tree.tokens) = Token.seams ts := by
    rw [hg.tokens_eq]
    exact Token.seamsAfter_congr (Token.map_lexeme_raiseRuns ts)
  have htrees : trees ≠ [] := by
    rintro rfl
    have hmap := Token.map_lexeme_raiseRuns ts
    rw [← hg.tokens_eq] at hmap
    exact hne (List.map_eq_nil_iff.mp hmap.symm)
  have hcount := Tree.seams_flatMap hg.valid htrees
  rw [hseams] at hcount
  have hsteps : plan.steps ≠ [] := by
    obtain ⟨tree, rest, rfl⟩ := List.exists_cons_of_ne_nil htrees
    intro hnil
    have hroots := hg.roots_perm
    rw [hnil] at hroots
    have hlen := hg.length_roots
    rw [(List.append_eq_nil_iff.mp (List.perm_nil.mp hroots)).2] at hlen
    exact nomatch hlen
  refine ⟨hg.length_unreferenced.trans hcount.symm, ?_⟩
  rw [hg.isTree_iff hsteps, ← hcount]
  omega

/-- The plan of one token is one tree. -/
theorem isTree_of_ofToken {t : Token} {plan : Plan} (h : ofToken t = .ok plan) :
    (unreferenced plan.steps).length = 1 ∧ IsTree plan.steps := by
  unfold ofToken at h
  have htree : ∀ s : Step, s.references = [] →
      (unreferenced [s]).length = 1 ∧ IsTree [s] := by
    intro s hs
    have hrefs : references [s] = [] := by rw [references_cons, hs]; rfl
    refine ⟨?_, ⟨?_, trivial⟩, ?_⟩
    · rw [unreferenced, hrefs]
      rfl
    · rw [hs]
      exact fun k hk => absurd hk List.not_mem_nil
    · intro k hk
      rw [List.length_singleton] at hk
      omega
  rcases hl : t.lexeme with o | v | name
  · rw [hl] at h
    exact nomatch h
  · rw [hl] at h
    cases h
    exact htree _ rfl
  · rw [hl] at h
    cases h
    exact htree _ rfl

/-- The plan of an accepted expression has one tree more than its tokens have
seams. So it is one tree exactly if no operand of the expression stands right before
another operand or before a `!`. -/
theorem isTree_iff_seams {text : List Char} {tokens : List Token} {plan : Plan}
    (hs : Token.scan text = .ok tokens) (hne : tokens ≠ []) (hp : ofText text = .ok plan) :
    (unreferenced plan.steps).length = Token.seams tokens + 1 ∧
      (IsTree plan.steps ↔ Token.seams tokens = 0) := by
  have hp' : ofTokens (Token.settleSigns false tokens) = .ok plan := by
    unfold ofText at hp
    rwa [hs] at hp
  rw [Token.seams, ← Token.seamsAfter_settleSigns]
  have hsettled : Token.settleSigns false tokens ≠ [] := by
    obtain ⟨t, rest, rfl⟩ := List.exists_cons_of_ne_nil hne
    unfold Token.settleSigns
    split <;> exact List.cons_ne_nil _ _
  generalize Token.settleSigns false tokens = settled at hp' hsettled
  match settled, hsettled, hp' with
  | [t], _, hp' =>
    obtain ⟨hcount, htree⟩ := isTree_of_ofToken hp'
    exact ⟨hcount, fun _ => rfl, fun _ => htree⟩
  | t :: u :: rest, hsettled, hp' => exact isTree_iff_of_ofDraft hsettled hp'

end Plan

namespace Plan

/-- In `a+!b` the sum takes the negation, and nothing is left over. -/
theorem isTree_sum_with_not :
    Token.scan ['a', '+', '!', 'b'] = .ok
      [⟨.variable "a", 0, 0⟩, ⟨.operator .add, 0, 1⟩, ⟨.operator .logicalNot, 0, 2⟩,
        ⟨.variable "b", 0, 3⟩] ∧
    ofText ['a', '+', '!', 'b'] = .ok ⟨[⟨some .logicalNot, none, some (.variable "b")⟩,
      ⟨some .add, some (.variable "a"), some (.result 0)⟩]⟩ ∧
    IsTree [⟨some .logicalNot, none, some (.variable "b")⟩,
      ⟨some .add, some (.variable "a"), some (.result 0)⟩] := by
  have hs : Token.scan ['a', '+', '!', 'b'] = .ok
      [⟨.variable "a", 0, 0⟩, ⟨.operator .add, 0, 1⟩, ⟨.operator .logicalNot, 0, 2⟩,
        ⟨.variable "b", 0, 3⟩] := by cbv
  have hp : ofText ['a', '+', '!', 'b'] = .ok ⟨[⟨some .logicalNot, none, some (.variable "b")⟩,
      ⟨some .add, some (.variable "a"), some (.result 0)⟩]⟩ := by cbv
  exact ⟨hs, hp, (isTree_iff_seams hs (List.cons_ne_nil _ _) hp).2.mpr rfl⟩

/-- In `a+b 'x'+c` no operator joins `b` and `'x'`, and still the expression is
accepted: two sums stand side by side, and only the last one gives the value. -/
theorem not_isTree_sums_side_by_side :
    ofText ['a', '+', 'b', ' ', '\'', 'x', '\'', '+', 'c'] = .ok
      ⟨[⟨some .add, some (.variable "a"), some (.variable "b")⟩,
        ⟨some .add, some (.literal (.str "x")), some (.variable "c")⟩]⟩ ∧
    ¬IsTree [⟨some .add, some (.variable "a"), some (.variable "b")⟩,
        ⟨some .add, some (.literal (.str "x")), some (.variable "c")⟩] := by
  refine ⟨by cbv, fun h => ?_⟩
  have hone := h.2 0 (by decide)
  exact absurd hone (by decide)

end Plan

end DialogueScript
