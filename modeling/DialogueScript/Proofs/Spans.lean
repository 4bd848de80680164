import DialogueScript.Proofs.Lexemes

/-!
# The spans of tokens

A token knows where it begins and not where it ends. Here the ends are given back: each token has
a span of characters behind its offset, the spans lie one behind the other, and what they leave
out is blanks and parentheses. So no character of a text that is scanned gets lost, and the
depth of a token can be counted from the parentheses that the spans leave out.

Main statement: `Token.scan_lossless`.
-/

namespace DialogueScript

open Text

/-- The depth behind a character. A right parenthesis at depth zero leaves it there. -/
def Text.nest (depth : Nat) (c : Char) : Nat :=
  if c = '(' then depth + 1 else if c = ')' then depth - 1 else depth

theorem Text.nest_blank {c : Char} (h : isBlank c = true) (depth : Nat) : nest depth c = depth := by
  rw [nest, if_neg (ne_of_class h (by decide)), if_neg (ne_of_class h (by decide))]

namespace Token

/-- The character at an index is in one of the spans, each given by its token and its end. -/
def covers (spans : List (Token × Nat)) (index : Nat) : Bool :=
  spans.any fun s => s.1.offset ≤ index && index < s.2

/-- The characters of a text, which begins at a start, that stand before an index and in none
of the spans. -/
def leftOut (spans : List (Token × Nat)) (index start : Nat) (text : List Char) : List Char :=
  ((text.zipIdx start).filter fun x => x.2 < index && !covers spans x.2).map Prod.fst

/-- The characters of the text from the offset of the token up to an end are what it is
read from. -/
def ReadUpTo (text : List Char) (t : Token) (stop : Nat) : Prop :=
  ∃ before span after, text = before ++ (span ++ after) ∧ t.offset = before.length ∧
    stop = before.length + span.length ∧ Lexes span after t.lexeme

/-! ## Spans from a start on -/

theorem covers_cons (s : Token × Nat) (spans : List (Token × Nat)) (index : Nat) :
    covers (s :: spans) index = (decide (s.1.offset ≤ index) && decide (index < s.2) || covers spans index) :=
  List.any_cons

theorem covers_eq_false {spans : List (Token × Nat)} {index : Nat}
    (h : ∀ s ∈ spans, index < s.1.offset) : covers spans index = false := by
  rw [covers, List.any_eq_false]
  intro s hs
  rw [Bool.and_eq_true, decide_eq_true_eq]
  exact fun hc => absurd hc.1 (Nat.not_le_of_lt (h s hs))

/-- The spans of a text that begins at a start and a depth. -/
structure Spans (start depth : Nat) (text : List Char) (spans : List (Token × Nat)) : Prop where
  apart : spans.Pairwise fun s u => s.2 ≤ u.1.offset
  inside : ∀ s ∈ spans, start ≤ s.1.offset ∧ s.1.offset < s.2 ∧ s.2 ≤ start + text.length
  reads : ∀ s ∈ spans, ∃ before span after, text = before ++ (span ++ after) ∧
    s.1.offset = start + before.length ∧ s.2 = s.1.offset + span.length ∧
    Lexes span after s.1.lexeme
  depth_eq : ∀ s ∈ spans, s.1.depth = (leftOut spans s.1.offset start text).foldl nest depth
  gaps : ∀ i c, text[i]? = some c → covers spans (start + i) = false →
    isBlank c = true ∨ c = '(' ∨ c = ')'

theorem spans_nil (start depth : Nat) : Spans start depth [] [] where
  apart := List.Pairwise.nil
  inside := fun _ hs => absurd hs List.not_mem_nil
  reads := fun _ hs => absurd hs List.not_mem_nil
  depth_eq := fun _ hs => absurd hs List.not_mem_nil
  gaps := fun _ _ hc => nomatch hc

/-- A blank or a parenthesis is in no span, and only changes the depth. -/
theorem Spans.skip {start depth : Nat} {c : Char} {text : List Char} {spans : List (Token × Nat)}
    (h : Spans (start + 1) (nest depth c) text spans)
    (hc : isBlank c = true ∨ c = '(' ∨ c = ')') : Spans start depth (c :: text) spans where
  apart := h.apart
  inside := by
    intro s hs
    obtain ⟨hstart, hlt, hend⟩ := h.inside s hs
    refine ⟨Nat.le_of_succ_le hstart, hlt, ?_⟩
    rwa [List.length_cons, Nat.add_comm text.length, ← Nat.add_assoc]
  reads := by
    intro s hs
    obtain ⟨before, span, after, rfl, hoffset, hend, hlexes⟩ := h.reads s hs
    refine ⟨c :: before, span, after, rfl, ?_, hend, hlexes⟩
    rw [hoffset, List.length_cons, Nat.add_comm before.length, ← Nat.add_assoc]
  depth_eq := by
    intro s hs
    have hfree : covers spans start = false := covers_eq_false fun u hu => (h.inside u hu).1
    have hbefore : start < s.1.offset := (h.inside s hs).1
    rw [h.depth_eq s hs, leftOut, leftOut, List.zipIdx_cons, List.filter_cons, if_pos]
    · rfl
    · rw [hfree, decide_eq_true hbefore]
      rfl
  gaps := by
    intro i d hd hfree
    cases i with
    | zero =>
      cases hd
      exact hc
    | succ i =>
      refine h.gaps i d hd ?_
      rwa [Nat.add_assoc, Nat.add_comm 1]

/-- A lexeme at the front is a span. -/
theorem Spans.cons {start depth : Nat} {span text : List Char} {lexeme : Lexeme}
    {spans : List (Token × Nat)} (h : Spans (start + span.length) depth text spans)
    (hlexes : Lexes span text lexeme) :
    Spans start depth (span ++ text) ((⟨lexeme, depth, start⟩, start + span.length) :: spans) := by
  have hpos : 0 < span.length := by
    obtain ⟨c, more, rfl, -⟩ := hlexes.recognize
    exact Nat.succ_pos _
  have hcovered : ∀ x ∈ span.zipIdx start,
      covers ((⟨lexeme, depth, start⟩, start + span.length) :: spans) x.2 = true := by
    intro x hx
    have hx := List.mem_zipIdx hx
    rw [covers_cons, decide_eq_true hx.1, decide_eq_true hx.2.1]
    rfl
  have hbehind : ∀ i, start + span.length ≤ i →
      covers ((⟨lexeme, depth, start⟩, start + span.length) :: spans) i = covers spans i := by
    intro i hi
    rw [covers_cons, decide_eq_false (Nat.not_lt_of_le hi), Bool.and_false, Bool.false_or]
  have hleftOut : ∀ index,
      leftOut ((⟨lexeme, depth, start⟩, start + span.length) :: spans) index start (span ++ text) =
        leftOut spans index (start + span.length) text := by
    intro index
    rw [leftOut, leftOut, List.zipIdx_append, List.filter_append,
      List.filter_eq_nil_iff.mpr fun x hx => by simp [hcovered x hx], List.nil_append]
    refine congrArg _ (List.filter_congr fun x hx => ?_)
    rw [hbehind x.2 (List.mem_zipIdx hx).1]
  refine ⟨List.pairwise_cons.mpr ⟨fun s hs => (h.inside s hs).1, h.apart⟩,
    List.forall_mem_cons.mpr ⟨⟨Nat.le_refl _, Nat.lt_add_of_pos_right hpos, ?_⟩, fun s hs => ?_⟩,
    List.forall_mem_cons.mpr ⟨⟨[], span, text, rfl, rfl, rfl, hlexes⟩, fun s hs => ?_⟩,
    List.forall_mem_cons.mpr ⟨?_, fun s hs => ?_⟩, fun i c hc hfree => ?_⟩
  · rw [List.length_append]
    exact Nat.add_le_add_left (Nat.le_add_right _ _) _
  · obtain ⟨hstart, hlt, hend⟩ := h.inside s hs
    rw [List.length_append, ← Nat.add_assoc]
    exact ⟨Nat.le_trans (Nat.le_add_right _ _) hstart, hlt, hend⟩
  · obtain ⟨before, inner, after, rfl, hoffset, hend, hinner⟩ := h.reads s hs
    refine ⟨span ++ before, inner, after, by rw [List.append_assoc], ?_, hend, hinner⟩
    rw [hoffset, List.length_append, Nat.add_assoc]
  · have hnone : leftOut spans start (start + span.length) text = [] := by
      rw [leftOut, List.filter_eq_nil_iff.mpr, List.map_nil]
      intro x hx
      have hle := Nat.le_trans (Nat.le_add_right _ _) (List.mem_zipIdx hx).1
      simp [Nat.not_lt_of_le hle]
    rw [hleftOut, hnone]
    rfl
  · rw [hleftOut]
    exact h.depth_eq s hs
  · rcases Nat.lt_or_ge i span.length with hlt | hge
    · have hx : (span[i], start + i) ∈ span.zipIdx start := by
        rw [List.mem_iff_getElem?]
        exact ⟨i, by simp [hlt]⟩
      rw [hcovered _ hx] at hfree
      cases hfree
    · rw [List.getElem?_append_right hge] at hc
      have hi : start + span.length + (i - span.length) = start + i := by
        rw [Nat.add_assoc, Nat.add_sub_cancel' hge]
      refine h.gaps (i - span.length) c hc ?_
      rw [hi, ← hbehind _ (Nat.add_le_add_left hge start)]
      exact hfree

/-- Every scan that succeeds has the spans of its tokens. -/
theorem Scanned.exists_spans {depth offset : Nat} {last : Option Lexeme} {text : List Char}
    {tokens : List Token} (h : Scanned depth offset last text tokens) :
    ∃ ends : List Nat, ends.length = tokens.length ∧ Spans offset depth text (tokens.zip ends) := by
  induction h with
  | @nil depth offset _ => exact ⟨[], rfl, spans_nil offset depth⟩
  | @blank depth _ _ c _ _ hb _ ih =>
    obtain ⟨ends, hlen, hspans⟩ := ih
    rw [← nest_blank hb depth] at hspans
    exact ⟨ends, hlen, hspans.skip (Or.inl hb)⟩
  | left _ ih =>
    obtain ⟨ends, hlen, hspans⟩ := ih
    exact ⟨ends, hlen, Spans.skip hspans (Or.inr (Or.inl rfl))⟩
  | right _ ih =>
    obtain ⟨ends, hlen, hspans⟩ := ih
    exact ⟨ends, hlen, Spans.skip hspans (Or.inr (Or.inr rfl))⟩
  | @lexeme _ offset _ _ span _ _ hlexes _ _ ih =>
    obtain ⟨ends, hlen, hspans⟩ := ih
    exact ⟨(offset + span.length) :: ends, congrArg Nat.succ hlen, hspans.cons hlexes⟩

/-- Neighbours among the tokens of a scan are not both variables and not both literals. -/
theorem Scanned.isChain {depth offset : Nat} {last : Option Lexeme} {text : List Char}
    {tokens : List Token} (h : Scanned depth offset last text tokens) :
    (∀ l t, last = some l → tokens.head? = some t → ¬l.Clash t.lexeme) ∧
      tokens.IsChain fun t u => ¬t.lexeme.Clash u.lexeme := by
  induction h with
  | nil => exact ⟨fun _ _ _ ht => (nomatch ht), List.isChain_nil⟩
  | blank _ _ ih => exact ih
  | left _ ih => exact ih
  | right _ ih => exact ih
  | lexeme _ hlast _ ih =>
    refine ⟨fun l t hl ht => ?_, List.isChain_cons.mpr ⟨fun t ht => ih.1 _ t rfl ht, ih.2⟩⟩
    cases ht
    exact hlast l hl

/-! ## Whole texts -/

theorem scan_eq_ok_iff {text : List Char} {tokens : List Token} :
    scan text = .ok tokens ↔
      checkParentheses 0 0 text = .ok () ∧ Scanned 0 0 none text tokens := by
  unfold scan
  cases hc : checkParentheses 0 0 text with
  | error e => exact ⟨fun h => (nomatch h), fun h => (nomatch h.1)⟩
  | ok u => exact ⟨fun h => ⟨rfl, scanFrom_eq_ok_iff.mp h⟩, fun h => scanFrom_eq_ok_iff.mpr h.2⟩

/-- The tokens of a text have ends. From the offset of a token up to its end stand the
characters that it is read from, which alone determine what it is and which do not go on behind
it. The next token begins there or later, and what is left out between them is blanks and
parentheses. The depth of a token counts the parentheses left out before it. Of two
neighbours not both are variables, and not both are literals. -/
theorem scan_lossless {text : List Char} {tokens : List Token} (h : scan text = .ok tokens) :
    ∃ ends : List Nat, ends.length = tokens.length ∧
      ((tokens.zip ends).Pairwise fun s u => s.2 ≤ u.1.offset) ∧
      (∀ s ∈ tokens.zip ends, s.1.offset < s.2 ∧ s.2 ≤ text.length ∧ ReadUpTo text s.1 s.2 ∧
        s.1.depth = (leftOut (tokens.zip ends) s.1.offset 0 text).foldl nest 0) ∧
      (∀ i c, text[i]? = some c → covers (tokens.zip ends) i = false →
        isBlank c = true ∨ c = '(' ∨ c = ')') ∧
      (∀ span rest rest' l l', Lexes span rest l → Lexes span rest' l' → l = l') ∧
      tokens.IsChain fun t u => ¬t.lexeme.Clash u.lexeme := by
  have hscanned := (scan_eq_ok_iff.mp h).2
  obtain ⟨ends, hlen, hspans⟩ := hscanned.exists_spans
  refine ⟨ends, hlen, hspans.apart, fun s hs => ?_, fun i c hc hfree => ?_,
    fun _ _ _ _ _ => Lexes.unique, hscanned.isChain.2⟩
  · obtain ⟨_, hlt, hend⟩ := hspans.inside s hs
    obtain ⟨before, span, after, htext, hoffset, hstop, hlexes⟩ := hspans.reads s hs
    rw [Nat.zero_add] at hend hoffset
    exact ⟨hlt, hend, ⟨before, span, after, htext, hoffset, hoffset ▸ hstop, hlexes⟩,
      hspans.depth_eq s hs⟩
  · rw [← Nat.zero_add i] at hfree
    exact hspans.gaps i c hc hfree

/-- The five tokens of `(a-.)>= 'x'` leave out the parentheses and the blank. -/
theorem scan_lossless_comparison :
    ∃ tokens ends,
      scan ['(', 'a', '-', '.', ')', '>', '=', ' ', '\'', 'x', '\''] = .ok tokens ∧
      tokens = [⟨.variable "a", 1, 1⟩, ⟨.operator .subtract, 1, 2⟩,
        ⟨.literal (.number Number.nan), 1, 3⟩, ⟨.operator .greaterOrEqual, 0, 5⟩,
        ⟨.literal (.str "x"), 0, 8⟩] ∧
      ends.length = tokens.length ∧
      ∀ i c, ['(', 'a', '-', '.', ')', '>', '=', ' ', '\'', 'x', '\''][i]? = some c →
        covers (tokens.zip ends) i = false → isBlank c = true ∨ c = '(' ∨ c = ')' := by
  have hscan : scan ['(', 'a', '-', '.', ')', '>', '=', ' ', '\'', 'x', '\''] =
      .ok [⟨.variable "a", 1, 1⟩, ⟨.operator .subtract, 1, 2⟩,
        ⟨.literal (.number Number.nan), 1, 3⟩, ⟨.operator .greaterOrEqual, 0, 5⟩,
        ⟨.literal (.str "x"), 0, 8⟩] := by cbv
  obtain ⟨ends, hlen, _, _, hgaps, _⟩ := scan_lossless hscan
  exact ⟨_, ends, hscan, rfl, hlen, hgaps⟩

end Token

end DialogueScript
