import DialogueScript.Proofs.Refusals

/-!
# Where faults are reported

The offset of a fault is put together on its way out: the place of a token in its
expression, that of the expression in its statement, and that of the statement in the
source. This module shows that each part is added once and that the sum is the right
place.

Main statements:
1. `Fragment.statementAt_of_mem_split`: a fragment is a statement at its place in the source.
2. `Block.ofFragments_error`: a fault in a run of fragments belongs to one of them.
3. `Block.parse_error_position`: a fault lies within the source, and one of an
   expression is reported where that expression has it.
-/

namespace DialogueScript

open Text

/-! ## Statements in a source -/

def IsMark (c : Char) : Prop := c = ';' ∨ c = '{' ∨ c = '}'

/-- The text of a statement or clause, and its offset in the source: all that stands
between two marks, or a mark and an end of the source, without the blanks around it. -/
def StatementAt (source : List Char) (offset : Nat) (text : List Char) : Prop :=
  ∃ before piece after, source = before ++ (piece ++ after) ∧
    (∀ c, before.getLast? = some c → IsMark c) ∧ (∀ c ∈ piece, ¬IsMark c) ∧
    (∀ c, after.head? = some c → IsMark c) ∧
    text = trim piece ∧ offset = before.length + leadingBlanks piece

theorem StatementAt.standsAt {source text : List Char} {offset : Nat}
    (h : StatementAt source offset text) : StandsAt text offset source := by
  obtain ⟨before, piece, after, rfl, _, _, _, rfl, rfl⟩ := h
  exact (standsAt_trim piece).trans ⟨before, after, rfl, rfl⟩

namespace Fragment

theorem statementAt_of_mem_ofPiece {before read after : List Char} {depth : Nat} {f : Fragment}
    (hb : ∀ c, before.getLast? = some c → IsMark c) (hr : ∀ c ∈ read, ¬IsMark c)
    (ha : ∀ c, after.head? = some c → IsMark c)
    (h : f ∈ ofPiece read.reverse depth before.length) :
    StatementAt (before ++ (read.reverse ++ after)) f.offset f.text := by
  have hpiece : ∀ c ∈ read.reverse, ¬IsMark c := fun c hc => hr c (List.mem_reverse.mp hc)
  unfold ofPiece at h
  split at h
  · exact absurd h List.not_mem_nil
  · cases List.mem_singleton.mp h
    exact ⟨before, read.reverse, after, rfl, hb, hpiece, ha, rfl, rfl⟩

/-- A mark ends the piece that is being read, unless it is a `}` too many; any other
character belongs to the piece. -/
theorem splitFrom_cons (start depth : Nat) (read : List Char) (c : Char) (text : List Char) :
    (IsMark c ∧ ∃ depth', splitFrom start depth read (c :: text) =
      (splitFrom (start + read.length + 1) depth' [] text).map
        (ofPiece read.reverse depth start ++ ·)) ∨
    splitFrom start depth read (c :: text) =
      .error (.atChar .unopenedBrace (start + read.length)) ∨
    (¬IsMark c ∧ splitFrom start depth read (c :: text) =
      splitFrom start depth (c :: read) text) := by
  rw [splitFrom]
  split
  · next hc => exact Or.inl ⟨Or.inl hc, _, rfl⟩
  split
  · next hc => exact Or.inl ⟨Or.inr (Or.inl hc), _, rfl⟩
  split
  · next hc =>
    split
    · exact Or.inr (Or.inl rfl)
    · exact Or.inl ⟨Or.inr (Or.inr hc), _, rfl⟩
  · next hsemicolon hopen hclose =>
    refine Or.inr (Or.inr ⟨?_, rfl⟩)
    rintro (hc | hc | hc)
    · exact hsemicolon hc
    · exact hopen hc
    · exact hclose hc

theorem statementAt_of_mem_splitFrom {depth : Nat} {before read text : List Char}
    {fragments : List Fragment} (hb : ∀ c, before.getLast? = some c → IsMark c)
    (hr : ∀ c ∈ read, ¬IsMark c) (h : splitFrom before.length depth read text = .ok fragments) :
    ∀ f ∈ fragments, StatementAt (before ++ (read.reverse ++ text)) f.offset f.text := by
  induction text generalizing depth before read fragments with
  | nil =>
    rw [splitFrom] at h
    split at h
    · cases h
      exact fun f hf => statementAt_of_mem_ofPiece hb hr (fun _ hd => nomatch hd) hf
    · exact nomatch h
  | cons c text ih =>
    rcases splitFrom_cons before.length depth read c text with
      ⟨hmark, depth', heq⟩ | heq | ⟨hmark, heq⟩
    · rw [heq] at h
      have hlast : ∀ d, (before ++ (read.reverse ++ [c])).getLast? = some d → IsMark d := by
        intro d hd
        rw [← List.append_assoc, List.getLast?_concat] at hd
        cases hd
        exact hmark
      have hlen : before.length + read.length + 1 = (before ++ (read.reverse ++ [c])).length := by
        rw [List.length_append, List.length_append, List.length_reverse, List.length_singleton,
          Nat.add_assoc]
      rw [hlen] at h
      cases hrest : splitFrom (before ++ (read.reverse ++ [c])).length depth' [] text with
      | error e =>
        rw [hrest] at h
        exact nomatch h
      | ok rest =>
        rw [hrest] at h
        cases h
        intro f hf
        rcases List.mem_append.mp hf with hf | hf
        · refine statementAt_of_mem_ofPiece hb hr (fun d hd => ?_) hf
          cases hd
          exact hmark
        · have := ih hlast (fun _ hd => absurd hd List.not_mem_nil) hrest f hf
          simpa only [List.reverse_nil, List.nil_append, List.append_assoc, List.singleton_append]
            using this
    · rw [heq] at h
      exact nomatch h
    · rw [heq] at h
      have hread : ∀ d ∈ c :: read, ¬IsMark d := List.forall_mem_cons.mpr ⟨hmark, hr⟩
      have := ih hb hread h
      simpa only [List.reverse_cons, List.append_assoc, List.singleton_append] using this

/-- A fragment holds the text of a statement, at its offset. -/
theorem statementAt_of_mem_split {source : List Char} {fragments : List Fragment}
    (h : split source = .ok fragments) : ∀ f ∈ fragments, StatementAt source f.offset f.text :=
  @statementAt_of_mem_splitFrom 0 [] [] source fragments (fun _ hc => nomatch hc)
    (fun _ hc => absurd hc List.not_mem_nil) h

/-- A source is refused for its braces, at one of them or at the end. -/
theorem splitFrom_error {start depth : Nat} {read text : List Char} {e : Located Fault}
    (h : splitFrom start depth read text = .error e) :
    ∃ cause q, e = .atChar cause q ∧ cause.inExpression = false ∧
      q ≤ start + read.length + text.length := by
  induction text generalizing start depth read with
  | nil =>
    rw [splitFrom] at h
    split at h
    · exact nomatch h
    · cases h
      exact ⟨_, _, rfl, rfl, Nat.le_refl _⟩
  | cons c text ih =>
    rcases splitFrom_cons start depth read c text with ⟨_, depth', heq⟩ | heq | ⟨_, heq⟩
    · rw [heq] at h
      cases hrest : splitFrom (start + read.length + 1) depth' [] text with
      | ok rest =>
        rw [hrest] at h
        exact nomatch h
      | error e' =>
        rw [hrest] at h
        cases h
        obtain ⟨cause, q, rfl, hc, hq⟩ := ih hrest
        refine ⟨cause, q, rfl, hc, ?_⟩
        rwa [List.length_nil, Nat.add_zero, Nat.add_right_comm, Nat.add_assoc] at hq
    · rw [heq] at h
      cases h
      exact ⟨_, _, rfl, rfl, Nat.le_add_right _ _⟩
    · rw [heq] at h
      obtain ⟨cause, q, rfl, hc, hq⟩ := ih h
      refine ⟨cause, q, rfl, hc, ?_⟩
      rwa [List.length_cons, ← Nat.add_assoc, Nat.add_right_comm, Nat.add_assoc] at hq

end Fragment

/-! ## Expressions in a statement -/

/-- An expression of the statement with a text, and its offset there: the value of an
assignment, an argument of a call, or the condition of an `if` or `else if`. -/
inductive ExpressionAt (text : List Char) : Nat → List Char → Prop
  | value {before t : List Char} : StatementKind.classify text = .ok .assignment →
      cutFirst? '=' text = some (before, t) → ExpressionAt text (before.length + 1) t
  | argument {before rest inside trailing t : List Char} {front back : List (List Char)} :
      StatementKind.classify text = .ok .call → cutFirst? '(' text = some (before, rest) →
      cutLast? ')' rest = some (inside, trailing) → inside.splitOn ',' = front ++ t :: back →
      allBlank t = false →
      ExpressionAt text (before.length + 1 + (front.map fun piece => piece.length + 1).sum) t
  | condition {before rest inside trailing : List Char} :
      StatementKind.classify text = .ok .branch ∨ Introducer.isElseIf text = true →
      cutFirst? '(' text = some (before, rest) → cutLast? ')' rest = some (inside, trailing) →
      ExpressionAt text (before.length + 1) inside

theorem standsAt_cutFirst? {mark : Char} {text before after : List Char}
    (h : cutFirst? mark text = some (before, after)) : StandsAt after (before.length + 1) text := by
  obtain ⟨rfl, _⟩ := cutFirst?_eq_some_iff.mp h
  refine ⟨before ++ [mark], [], ?_, List.length_append⟩
  rw [List.append_assoc, List.singleton_append, List.append_nil]

theorem standsAt_cutLast? {mark : Char} {text before after : List Char}
    (h : cutLast? mark text = some (before, after)) : StandsAt before 0 text := by
  obtain ⟨rfl, _⟩ := cutLast?_eq_some_iff.mp h
  exact ⟨[], mark :: after, rfl, rfl⟩

theorem standsAt_splitOn {mark : Char} {text t : List Char} {front back : List (List Char)}
    (h : text.splitOn mark = front ++ t :: back) :
    StandsAt t (front.map fun piece => piece.length + 1).sum text := by
  have hjoin : [mark].intercalate (text.splitOn mark) = text := List.intercalate_splitOn mark
  rw [h] at hjoin
  rw [← hjoin]
  clear h hjoin
  induction front with
  | nil =>
    cases back with
    | nil => exact ⟨[], [], by simp, rfl⟩
    | cons piece back =>
      refine ⟨[], [mark] ++ [mark].intercalate (piece :: back), ?_, rfl⟩
      rw [List.nil_append, List.nil_append, List.intercalate_cons_cons, List.append_assoc]
  | cons piece front ih =>
    obtain ⟨before, after, hrest, hlen⟩ := ih
    have hne : front ++ t :: back ≠ [] := List.append_ne_nil_of_right_ne_nil _ (List.cons_ne_nil _ _)
    refine ⟨piece ++ [mark] ++ before, after, ?_, ?_⟩
    · rw [List.cons_append, List.intercalate_cons_of_ne_nil hne, hrest]
      simp only [List.append_assoc]
    · rw [List.map_cons, List.sum_cons, List.length_append, List.length_append, hlen,
        List.length_singleton]

/-- An expression of a statement stands in it at its offset. -/
theorem ExpressionAt.standsAt {text t : List Char} {k : Nat} (h : ExpressionAt text k t) :
    StandsAt t k text := by
  cases h with
  | value _ hcut => exact standsAt_cutFirst? hcut
  | argument _ hfirst hlast hsplit _ =>
    have hinside := (standsAt_cutLast? hlast).trans (standsAt_cutFirst? hfirst)
    rw [Nat.add_zero] at hinside
    exact (standsAt_splitOn hsplit).trans hinside
  | condition _ hfirst hlast =>
    have hinside := (standsAt_cutLast? hlast).trans (standsAt_cutFirst? hfirst)
    rwa [Nat.add_zero] at hinside

/-! ## Faults of a statement -/

theorem Plan.compile_error {text : List Char} {offset : Nat} {e : Located Fault}
    (h : compile text offset = .error e) :
    ∃ cause r, compile text 0 = .error (.atChar cause r) ∧ e = .atChar cause (offset + r) ∧
      cause.inExpression = true ∧ r ≤ text.length := by
  unfold compile at h ⊢
  cases ht : ofText text with
  | ok plan =>
    rw [ht] at h
    exact nomatch h
  | error e' =>
    rw [ht] at h
    cases h
    obtain ⟨cause, r, rfl, hc, hle⟩ := ofText_error ht
    refine ⟨cause, r, rfl, ?_, hc, hle⟩
    rw [Nat.add_comm]
    rfl

theorem Plan.inExpression_cause {text : List Char} {offset : Nat} {e : Located Fault}
    (h : compile text offset = .error e) : e.cause.inExpression = true := by
  obtain ⟨_, _, _, rfl, hc, _⟩ := compile_error h
  exact hc

theorem Plan.inExpression_of_compile {text : List Char} {offset q : Nat} {cause : Fault}
    (h : compile text offset = .error (.atChar cause q)) : cause.inExpression = true :=
  inExpression_cause h

namespace Statement

/-- A fault in the text of a statement lies within it. If the fault is one of an
expression, an expression of the statement is refused for it, and the fault is reported
where the expression has it. -/
def Reports (text : List Char) (e : Located Fault) : Prop :=
  ∃ cause q, e = .atChar cause q ∧ q ≤ text.length ∧
    (cause.inExpression = true → ∃ k t r, ExpressionAt text k t ∧
      Plan.compile t 0 = .error (.atChar cause r) ∧ q = k + r)

variable {text : List Char} {e : Located Fault}

theorem reports_of_not_expression {cause : Fault} {q : Nat} (hc : cause.inExpression = false)
    (hq : q ≤ text.length) : Reports text (.atChar cause q) := by
  refine ⟨cause, q, rfl, hq, fun h => ?_⟩
  rw [hc] at h
  exact nomatch h

theorem reports_of_expression {k : Nat} {t : List Char} (ht : ExpressionAt text k t)
    (h : Plan.compile t k = .error e) : Reports text e := by
  obtain ⟨cause, r, hcompile, rfl, _, hr⟩ := Plan.compile_error h
  have hle := ht.standsAt.le_length
  exact ⟨cause, k + r, rfl, by omega, fun _ => ⟨k, t, r, ht, hcompile, rfl⟩⟩

theorem reports_of_classify (h : StatementKind.classify text = .error e) : Reports text e := by
  cases StatementKind.classify_error h with
  | nameless _ _ => exact reports_of_not_expression rfl (Nat.zero_le _)
  | unknown _ _ _ _ => exact reports_of_not_expression rfl (Nat.zero_le _)

theorem reports_of_readAssignment (hk : StatementKind.classify text = .ok .assignment)
    (h : readAssignment text = .error e) : Reports text e := by
  cases readAssignment_error h with
  | nameless _ => exact reports_of_not_expression rfl (Nat.zero_le _)
  | signless _ => exact reports_of_not_expression rfl (Nat.zero_le _)
  | value hcut hvalue => exact reports_of_expression (.value hk hcut) hvalue

theorem leadingBlanks_le (text : List Char) : leadingBlanks text ≤ text.length :=
  (List.takeWhile_prefix isBlank).length_le

/-- Text behind the last `)` of a head is reported where it stands. -/
theorem le_length_of_cuts {before rest inside trailing : List Char}
    (hfirst : cutFirst? '(' text = some (before, rest))
    (hlast : cutLast? ')' rest = some (inside, trailing)) :
    before.length + 1 + inside.length + 1 + leadingBlanks trailing ≤ text.length := by
  obtain ⟨rfl, _⟩ := cutFirst?_eq_some_iff.mp hfirst
  obtain ⟨rfl, _⟩ := cutLast?_eq_some_iff.mp hlast
  have := leadingBlanks_le trailing
  simp only [List.length_append, List.length_cons]
  omega

theorem reports_of_readCall {φ : Type} {registry : NameTable φ}
    (hk : StatementKind.classify text = .ok .call) (h : readCall registry text = .error e) :
    Reports text e := by
  cases readCall_error h with
  | nameless _ => exact reports_of_not_expression rfl (Nat.zero_le _)
  | unknown _ _ => exact reports_of_not_expression rfl (Nat.zero_le _)
  | arguments harguments =>
    cases harguments with
    | unopened _ => exact reports_of_not_expression rfl (Nat.zero_le _)
    | unclosed _ _ => exact reports_of_not_expression rfl (Nat.zero_le _)
    | trailing hfirst hlast _ =>
      exact reports_of_not_expression rfl (le_length_of_cuts hfirst hlast)
    | argument hfirst hlast hsplit hblank hcompile =>
      exact reports_of_expression (.argument hk hfirst hlast hsplit hblank) hcompile

theorem reports_of_readCondition {introducer : Introducer}
    (hk : StatementKind.classify text = .ok .branch ∨ Introducer.isElseIf text = true)
    (h : readCondition introducer text = .error e) : Reports text e := by
  cases readCondition_error h with
  | unopened _ => exact reports_of_not_expression rfl (Nat.zero_le _)
  | unclosed _ _ => exact reports_of_not_expression rfl (Nat.zero_le _)
  | inverted _ _ _ => exact reports_of_not_expression rfl (Nat.zero_le _)
  | before _ _ _ => exact reports_of_not_expression rfl (Nat.zero_le _)
  | trailing hfirst hlast _ _ =>
    exact reports_of_not_expression rfl (le_length_of_cuts hfirst hlast)
  | empty hfirst hlast _ _ _ =>
    have hle := le_length_of_cuts hfirst hlast
    exact reports_of_not_expression rfl (by omega)
  | condition hfirst hlast _ _ _ hcompile =>
    exact reports_of_expression (.condition hk hfirst hlast) hcompile

end Statement

/-! ## Faults of a block -/

def Fragment.Blamed (f : Fragment) (e : Located Fault) : Prop :=
  ∃ e', Statement.Reports f.text e' ∧ e = e'.shift f.offset

namespace Fragment

variable {f : Fragment} {e : Located Fault}

theorem readWith_error {α : Type} {read : List Char → Except (Located Fault) α}
    (h : f.readWith read = .error e) (hr : ∀ {e}, read f.text = .error e → Statement.Reports f.text e) :
    f.Blamed e := by
  unfold readWith at h
  cases hread : read f.text with
  | ok a =>
    rw [hread] at h
    exact nomatch h
  | error e' =>
    rw [hread] at h
    cases h
    exact ⟨e', hr hread, rfl⟩

theorem readWith_ok {α : Type} {read : List Char → Except (Located Fault) α} {a : α}
    (h : f.readWith read = .ok a) : read f.text = .ok a := by
  unfold readWith at h
  cases hread : read f.text with
  | ok a' =>
    rw [hread] at h
    cases h
    rfl
  | error e' =>
    rw [hread] at h
    exact nomatch h

theorem requireBlock_error {introducer : Introducer} {rest : List Fragment}
    (h : f.requireBlock introducer rest = .error e) : f.Blamed e := by
  unfold requireBlock at h
  split at h
  · cases h
    refine ⟨.atChar (.missingBlock introducer) f.text.length, ?_, ?_⟩
    · exact Statement.reports_of_not_expression rfl (Nat.le_refl _)
    · rw [Nat.add_comm]
      rfl
  · exact nomatch h

end Fragment

theorem blamed_head {f : Fragment} {rest : List Fragment} {e : Located Fault} (h : f.Blamed e) :
    ∃ g ∈ f :: rest, g.Blamed e :=
  ⟨f, List.mem_cons_self, h⟩

theorem blamed_tail {f : Fragment} {rest part : List Fragment} {e : Located Fault}
    (hsub : part ⊆ rest) (h : ∃ g ∈ part, g.Blamed e) : ∃ g ∈ f :: rest, g.Blamed e := by
  obtain ⟨g, hg, hblamed⟩ := h
  exact ⟨g, List.mem_cons_of_mem f (hsub hg), hblamed⟩

theorem error_of_bind {ε α β : Type} {x : Except ε α} {f : α → Except ε β} {e : ε}
    (h : x >>= f = .error e) : x = .error e ∨ ∃ a, x = .ok a ∧ f a = .error e := by
  cases x with
  | error e' =>
    have h : (Except.error e' : Except ε β) = .error e := h
    cases h
    exact Or.inl rfl
  | ok a => exact Or.inr ⟨a, rfl, h⟩

variable {φ : Type} {registry : NameTable φ} {e : Located Fault}

mutual

/-- A fault in a run of fragments is one of a statement among them. -/
theorem Block.ofFragments_error (fragments : List Fragment)
    (h : Block.ofFragments registry fragments = .error e) : ∃ f ∈ fragments, f.Blamed e := by
  match fragments with
  | [] =>
    rw [Block.ofFragments] at h
    exact nomatch h
  | f :: rest =>
    rw [Block.ofFragments] at h
    rcases error_of_bind h with h | ⟨kind, hkind, h⟩
    · exact blamed_head (Fragment.readWith_error h Statement.reports_of_classify)
    · have hkind := Fragment.readWith_ok hkind
      cases kind with
      | assignment =>
        rcases error_of_bind h with h | ⟨⟨target, value⟩, _, h⟩
        · exact blamed_head (Fragment.readWith_error h (Statement.reports_of_readAssignment hkind))
        rcases error_of_bind h with h | ⟨tail, _, h⟩
        · exact blamed_tail (List.Subset.refl rest) (Block.ofFragments_error rest h)
        · exact nomatch h
      | call =>
        rcases error_of_bind h with h | ⟨⟨name, function, arguments⟩, _, h⟩
        · exact blamed_head (Fragment.readWith_error h (Statement.reports_of_readCall hkind))
        rcases error_of_bind h with h | ⟨tail, _, h⟩
        · exact blamed_tail (List.Subset.refl rest) (Block.ofFragments_error rest h)
        · exact nomatch h
      | branch =>
        rcases error_of_bind h with h | ⟨_, _, h⟩
        · exact blamed_head (Fragment.requireBlock_error h)
        rcases error_of_bind h with h | ⟨condition, _, h⟩
        · exact blamed_head (Fragment.readWith_error h (Statement.reports_of_readCondition (Or.inl hkind)))
        rcases error_of_bind h with h | ⟨body, _, h⟩
        · exact blamed_tail (List.takeWhile_subset _) (Block.ofFragments_error (f.beneath rest) h)
        rcases error_of_bind h with h | ⟨⟨otherwise, tail⟩, _, h⟩
        · exact blamed_tail (List.dropWhile_subset _) (Otherwise.ofFragments_error f.depth (f.beyond rest) h)
        · exact nomatch h
termination_by 2 * fragments.length
decreasing_by
  all_goals
    have := f.length_beneath_le rest
    have := f.length_beyond_le rest
    simp <;> omega

theorem Otherwise.ofFragments_error (depth : Nat) (fragments : List Fragment)
    (h : Otherwise.ofFragments registry depth fragments = .error e) :
    ∃ f ∈ fragments, f.Blamed e := by
  match fragments with
  | [] =>
    rw [Otherwise.ofFragments] at h
    exact nomatch h
  | f :: rest =>
    rw [Otherwise.ofFragments] at h
    split at h
    · next hclause =>
      have hkind : Introducer.isElseIf f.text = true := (Bool.and_eq_true _ _ ▸ hclause).2
      rcases error_of_bind h with h | ⟨_, _, h⟩
      · exact blamed_head (Fragment.requireBlock_error h)
      rcases error_of_bind h with h | ⟨condition, _, h⟩
      · exact blamed_head (Fragment.readWith_error h (Statement.reports_of_readCondition (Or.inr hkind)))
      rcases error_of_bind h with h | ⟨body, _, h⟩
      · exact blamed_tail (List.takeWhile_subset _) (Block.ofFragments_error (f.beneath rest) h)
      rcases error_of_bind h with h | ⟨⟨otherwise, tail⟩, _, h⟩
      · exact blamed_tail (List.dropWhile_subset _) (Otherwise.ofFragments_error depth (f.beyond rest) h)
      · exact nomatch h
    split at h
    · rcases error_of_bind h with h | ⟨_, _, h⟩
      · exact blamed_head (Fragment.requireBlock_error h)
      rcases error_of_bind h with h | ⟨body, _, h⟩
      · exact blamed_tail (List.takeWhile_subset _) (Block.ofFragments_error (f.beneath rest) h)
      rcases error_of_bind h with h | ⟨tail, _, h⟩
      · exact blamed_tail (List.dropWhile_subset _) (Block.ofFragments_error (f.beyond rest) h)
      · exact nomatch h
    · rcases error_of_bind h with h | ⟨tail, _, h⟩
      · exact Block.ofFragments_error (f :: rest) h
      · exact nomatch h
termination_by 2 * fragments.length + 1
decreasing_by
  all_goals
    have := f.length_beneath_le rest
    have := f.length_beyond_le rest
    simp <;> omega

end

/-- A fault lies within the source. It is one of an expression exactly if some expression
of a statement is refused for it, and then it is reported where that expression, standing
in its statement and the statement in the source, has it. -/
theorem Block.parse_error_position {source : List Char}
    (h : Block.parse registry source = .error e) :
    ∃ p, e.position = .atChar p ∧ p ≤ source.length ∧
      (e.cause.inExpression = true ↔
        ∃ n text k t q, StatementAt source n text ∧ ExpressionAt text k t ∧
          Plan.compile t 0 = .error (.atChar e.cause q) ∧ p = n + k + q ∧
          (source.drop (p - q)).take t.length = t) := by
  rcases error_of_bind h with h | ⟨fragments, hsplit, h⟩
  · obtain ⟨cause, q, rfl, hc, hq⟩ := Fragment.splitFrom_error h
    refine ⟨q, rfl, by simpa using hq, fun hin => ?_, ?_⟩
    · exact absurd hin (Bool.eq_false_iff.mp hc)
    · rintro ⟨_, _, _, _, _, _, _, hcompile, _⟩
      exact Plan.inExpression_of_compile hcompile
  · obtain ⟨f, hf, e', ⟨cause, q, rfl, hq, hexpr⟩, rfl⟩ := Block.ofFragments_error fragments h
    have hstatement := Fragment.statementAt_of_mem_split hsplit f hf
    have hle := hstatement.standsAt.le_length
    refine ⟨q + f.offset, rfl, by omega, fun hin => ?_, ?_⟩
    · obtain ⟨k, t, r, hat, hcompile, rfl⟩ := hexpr hin
      refine ⟨f.offset, f.text, k, t, r, hstatement, hat, hcompile, by omega, ?_⟩
      have hplace : k + r + f.offset - r = f.offset + k := by omega
      rw [hplace]
      exact (hat.standsAt.trans hstatement.standsAt).slice_eq
    · rintro ⟨_, _, _, _, _, _, _, hcompile, _⟩
      exact Plan.inExpression_of_compile hcompile

/-- The second variable of ` a b` is refused at the offset that it has in the source. -/
theorem Block.parse_error_position_adjacent_variables :
    ∃ p, (Located.atChar Fault.adjacentVariables 10).position = .atChar p ∧ p ≤ 11 ∧
      (Fault.adjacentVariables.inExpression = true ↔
        ∃ n text k t q,
          StatementAt ['x', '=', 'y', ';', ' ', 'z', '=', ' ', 'a', ' ', 'b'] n text ∧
          ExpressionAt text k t ∧ Plan.compile t 0 = .error (.atChar .adjacentVariables q) ∧
          p = n + k + q ∧
          (['x', '=', 'y', ';', ' ', 'z', '=', ' ', 'a', ' ', 'b'].drop (p - q)).take t.length = t) := by
  have h : Block.parse (NameTable.empty : NameTable Unit)
      ['x', '=', 'y', ';', ' ', 'z', '=', ' ', 'a', ' ', 'b'] =
        .error (.atChar .adjacentVariables 10) := by cbv
  exact Block.parse_error_position h

end DialogueScript
