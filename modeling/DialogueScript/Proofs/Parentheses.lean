import DialogueScript.Proofs.Spans
import DialogueScript.Proofs.StringLiterals

/-!
# Parentheses inside and outside of strings

Parentheses are counted twice. The check that comes first counts all of them, those inside of
string literals too. The scan jumps over the literals and counts the rest, and at depth zero it
takes a right parenthesis without a word. The two agree where the parentheses of each literal
match among themselves, and they can disagree where they do not: `'('` is refused, and `'('+a)`
gets through to the scan.

Main statements:
1. `Text.Quoted.matched_bare_iff`: what the check makes of the parentheses outside of literals.
2. `Token.Passes.depth_eq`: the depth that the scan has at a place.
3. `Plan.compile_replace`: another literal instead of a literal.
4. `Token.parentheses_agree`: the check and the scan.
-/

namespace DialogueScript

namespace Text

/-! ## String literals of a text -/

/-- Every quote of the text is closed, and what stands inside of each string literal has a
property. -/
inductive Quoted (P : List Char → Prop) : List Char → Prop
  | nil : Quoted P []
  | other {c : Char} {rest : List Char} : c ≠ '\'' → Quoted P rest → Quoted P (c :: rest)
  | literal {inside rest : List Char} :
      '\'' ∉ inside → P inside → Quoted P rest → Quoted P ('\'' :: (inside ++ '\'' :: rest))

/-- Before the first mark stands the same in equal texts, and behind it. -/
theorem eq_of_append_mark {mark : Char} {front front' back back' : List Char} (hm : mark ∉ front)
    (hm' : mark ∉ front') (h : front ++ mark :: back = front' ++ mark :: back') :
    front = front' ∧ back = back' := by
  have hcut : cutFirst? mark (front ++ mark :: back) = some (front, back) :=
    cutFirst?_eq_some_iff.mpr ⟨rfl, hm⟩
  have hcut' : cutFirst? mark (front' ++ mark :: back') = some (front', back') :=
    cutFirst?_eq_some_iff.mpr ⟨rfl, hm'⟩
  rw [h, hcut'] at hcut
  cases hcut
  exact ⟨rfl, rfl⟩

theorem Quoted.of_cons {P : List Char → Prop} {c : Char} {rest : List Char}
    (h : Quoted P (c :: rest)) (hc : c ≠ '\'') : Quoted P rest := by
  generalize htext : c :: rest = text at h
  cases h with
  | nil => cases htext
  | other _ hrest =>
    cases htext
    exact hrest
  | literal _ _ _ => exact absurd (List.cons.inj htext).1 hc

theorem Quoted.of_literal {P : List Char → Prop} {inside rest : List Char} (hq : '\'' ∉ inside)
    (h : Quoted P ('\'' :: (inside ++ '\'' :: rest))) : P inside ∧ Quoted P rest := by
  generalize htext : '\'' :: (inside ++ '\'' :: rest) = text at h
  cases h with
  | nil => cases htext
  | other hc _ => exact absurd (List.cons.inj htext).1.symm hc
  | literal hq' hinside hrest =>
    obtain ⟨rfl, rfl⟩ := eq_of_append_mark hq hq' (List.cons.inj htext).2
    exact ⟨hinside, hrest⟩

/-- A quote before which every quote is closed opens a literal. -/
theorem Quoted.inside {P Q : List Char → Prop} {before inside after : List Char}
    (h : Quoted P (before ++ '\'' :: (inside ++ '\'' :: after))) (hb : Quoted Q before)
    (hq : '\'' ∉ inside) : P inside := by
  induction hb with
  | nil => exact (h.of_literal hq).1
  | other hc _ ih => exact ih (h.of_cons hc)
  | literal hq' _ _ ih =>
    rw [List.cons_append, List.append_assoc, List.cons_append] at h
    exact ih (h.of_literal hq').2

/-- A text in which a blank stands for each character of a string literal, its quotes
included. The flag tells whether the text begins inside of one. -/
def bare (quoted : Bool) : List Char → List Char
  | [] => []
  | c :: rest =>
    if c = '\'' then ' ' :: bare (!quoted) rest
    else (if quoted then ' ' else c) :: bare quoted rest

theorem bare_append_of_not_mem {span : List Char} (hq : '\'' ∉ span) (rest : List Char) :
    bare false (span ++ rest) = span ++ bare false rest := by
  induction span with
  | nil => rfl
  | cons c span ih =>
    have hc : c ≠ '\'' := (List.ne_of_not_mem_cons hq).symm
    rw [List.cons_append, bare, if_neg hc, ih (List.not_mem_of_not_mem_cons hq)]
    rfl

theorem bare_literal {inside : List Char} (hq : '\'' ∉ inside) (rest : List Char) :
    bare false ('\'' :: (inside ++ '\'' :: rest)) =
      List.replicate (inside.length + 2) ' ' ++ bare false rest := by
  have hinside : bare true (inside ++ '\'' :: rest) =
      List.replicate (inside.length + 1) ' ' ++ bare false rest := by
    induction inside with
    | nil => rfl
    | cons c inside ih =>
      have hc : c ≠ '\'' := (List.ne_of_not_mem_cons hq).symm
      rw [List.cons_append, bare, if_neg hc, ih (List.not_mem_of_not_mem_cons hq)]
      rfl
  rw [bare, if_pos rfl]
  exact congrArg (' ' :: ·) hinside

/-! ## Matching -/

/-- Behind a text that closes what it opens, there is as much open as before it. -/
theorem Matched.append_iff {opened depth : Nat} {text rest : List Char} (h : Matched opened text) :
    Matched (opened + depth) (text ++ rest) ↔ Matched depth rest := by
  obtain ⟨hfront, htotal⟩ := h
  unfold Matched
  constructor
  · rintro ⟨hfronts, htotals⟩
    refine ⟨fun front hf => ?_, ?_⟩
    · have := hfronts (text ++ front) ((List.prefix_append_right_inj text).mpr hf)
      rw [List.count_append, List.count_append] at this
      omega
    · rw [List.count_append, List.count_append] at htotals
      omega
  · rintro ⟨hfronts, htotals⟩
    refine ⟨fun front hf => ?_, ?_⟩
    · rcases List.prefix_or_prefix_of_prefix hf (List.prefix_append text rest) with
        hle | ⟨more, rfl⟩
      · have := hfront front hle
        omega
      · have := hfronts more ((List.prefix_append_right_inj text).mp hf)
        rw [List.count_append, List.count_append]
        omega
    · rw [List.count_append, List.count_append]
      omega

/-- A text without parentheses closes what it opens. -/
theorem matched_of_forall {text : List Char} (h : ∀ c ∈ text, c ≠ '(' ∧ c ≠ ')') :
    Matched 0 text := by
  induction text with
  | nil => exact paired_nil.mpr rfl
  | cons c text ih =>
    obtain ⟨hc, htext⟩ := List.forall_mem_cons.mp h
    exact (matched_other hc.1 hc.2).mpr (ih htext)

theorem matched_blanks (n : Nat) : Matched 0 (List.replicate n ' ') := by
  refine matched_of_forall fun c hc => ?_
  rw [List.eq_of_mem_replicate hc]
  exact ⟨by decide, by decide⟩

/-- Texts that match alike do so behind any other text. -/
theorem matched_append_congr {front text text' : List Char}
    (h : ∀ depth, Matched depth text ↔ Matched depth text') (depth : Nat) :
    Matched depth (front ++ text) ↔ Matched depth (front ++ text') := by
  induction front generalizing depth with
  | nil => exact h depth
  | cons c front ih =>
    rw [List.cons_append, List.cons_append]
    by_cases hl : c = '('
    · rw [hl, matched_left, matched_left, ih]
    by_cases hr : c = ')'
    · subst hr
      cases depth with
      | zero => exact iff_of_false not_matched_right not_matched_right
      | succ n => rw [matched_right, matched_right, ih]
    · rw [matched_other hl hr, matched_other hl hr, ih]

/-- A literal whose parentheses match among themselves leaves nothing open. -/
theorem matched_literal {inside : List Char} (h : Matched 0 inside) (rest : List Char)
    (depth : Nat) :
    Matched depth ('\'' :: (inside ++ '\'' :: rest)) ↔ Matched depth rest := by
  have hinside := @Matched.append_iff 0 depth inside ('\'' :: rest) h
  rw [Nat.zero_add] at hinside
  rw [matched_other (by decide) (by decide), hinside, matched_other (by decide) (by decide)]

/-- Where the parentheses of each literal match among themselves, those of the text match
exactly if those outside of the literals do. -/
theorem Quoted.matched_bare_iff {text : List Char} (h : Quoted (Matched 0) text) (depth : Nat) :
    Matched depth text ↔ Matched depth (bare false text) := by
  induction h generalizing depth with
  | nil => exact Iff.rfl
  | @other c rest hc _ ih =>
    rw [bare, if_neg hc]
    exact @matched_append_congr [c] _ _ ih depth
  | @literal inside rest hq hinside _ ih =>
    have hblanks := @Matched.append_iff 0 depth _ (bare false rest)
      (matched_blanks (inside.length + 2))
    rw [Nat.zero_add] at hblanks
    rw [matched_literal hinside, bare_literal hq, hblanks]
    exact ih depth

/-- A character that leaves nothing open leaves the depth as it is. -/
theorem foldl_nest_of_forall {text : List Char} (h : ∀ c ∈ text, c ≠ '(' ∧ c ≠ ')') (depth : Nat) :
    text.foldl nest depth = depth := by
  induction text with
  | nil => rfl
  | cons c text ih =>
    obtain ⟨hc, htext⟩ := List.forall_mem_cons.mp h
    rw [List.foldl_cons, nest, if_neg hc.1, if_neg hc.2, ih htext]

/-- As long as no beginning of a text closes more than is open, the depth behind it is what it
leaves open. -/
theorem foldl_nest_add_count {opened : Nat} {text : List Char}
    (h : ∀ front, front <+: text → front.count ')' ≤ opened + front.count '(') :
    text.foldl nest opened + text.count ')' = opened + text.count '(' := by
  induction text using List.reverseRecOn with
  | nil => rfl
  | append_singleton text c ih =>
    have hprefix := ih fun front hf => h front (hf.trans (List.prefix_append text [c]))
    have hall := h _ (List.prefix_refl (text ++ [c]))
    rw [List.foldl_append, List.foldl_cons, List.foldl_nil, List.count_append, List.count_append,
      nest]
    rw [List.count_append, List.count_append] at hall
    by_cases hl : c = '('
    · subst hl
      have hone : ['('].count '(' = 1 := rfl
      have hnone : ['('].count ')' = 0 := rfl
      rw [if_pos rfl]
      omega
    by_cases hr : c = ')'
    · subst hr
      have hone : [')'].count ')' = 1 := rfl
      have hnone : [')'].count '(' = 0 := rfl
      rw [if_neg hl, if_pos rfl]
      omega
    · have hleft : [c].count '(' = 0 :=
        List.count_eq_zero.mpr fun hm => hl (List.mem_singleton.mp hm).symm
      have hright : [c].count ')' = 0 :=
        List.count_eq_zero.mpr fun hm => hr (List.mem_singleton.mp hm).symm
      rw [if_neg hl, if_neg hr, hleft, hright]
      exact hprefix

end Text

open Text

namespace Token

/-! ## Lexemes and quotes -/

/-- A lexeme is a string, or there is neither a quote nor a parenthesis in it. -/
theorem Lexes.string_or_plain {span rest : List Char} {lexeme : Lexeme}
    (h : Lexes span rest lexeme) :
    (∃ inside, span = '\'' :: (inside ++ ['\'']) ∧ '\'' ∉ inside) ∨
      '\'' ∉ span ∧ ∀ c ∈ span, c ≠ '(' ∧ c ≠ ')' := by
  have hplain : ∀ {span : List Char} {p : Char → Bool}, (∀ c ∈ span, p c = true) →
      p '\'' = false → p '(' = false → p ')' = false →
      '\'' ∉ span ∧ ∀ c ∈ span, c ≠ '(' ∧ c ≠ ')' := by
    intro span p hp hquote hleft hright
    refine ⟨fun hm => ne_of_class (hp _ hm) hquote rfl, fun c hc => ?_⟩
    exact ⟨ne_of_class (hp c hc) hleft, ne_of_class (hp c hc) hright⟩
  have hnames : ∀ {span : List Char}, (∀ c ∈ span, isNamePart c = true) →
      '\'' ∉ span ∧ ∀ c ∈ span, c ≠ '(' ∧ c ≠ ')' :=
    fun hspan => hplain hspan (by decide) (by decide) (by decide)
  have hdigits : ∀ {span : List Char}, (∀ c ∈ span, c.isDigit = true ∨ c = '.') →
      '\'' ∉ span ∧ ∀ c ∈ span, c ≠ '(' ∧ c ≠ ')' := by
    intro span hd
    refine hplain (p := fun c => c.isDigit || c = '.') (fun c hc => ?_) (by decide) (by decide)
      (by decide)
    rw [Bool.or_eq_true, decide_eq_true_eq]
    exact hd c hc
  cases h with
  | bool b _ =>
    have hb : (Atom.bool b).text.all isNamePart = true := by cases b <;> decide
    exact Or.inr (hnames (List.all_eq_true.mp hb))
  | numeral hn _ => exact Or.inr (hdigits hn.digits)
  | point _ => exact Or.inr (hdigits fun c hc => Or.inr (List.mem_singleton.mp hc))
  | string hq => exact Or.inl ⟨_, rfl, hq⟩
  | name hv _ =>
    obtain ⟨c, more, rfl, hstart, hparts⟩ := hv.shape
    have hc : isNamePart c = true := isNamePart_iff.mpr (Or.inl hstart)
    exact Or.inr (hnames (List.forall_mem_cons.mpr ⟨hc, hparts⟩))
  | @operator o _ _ _ =>
    exact Or.inr (hplain (List.all_eq_true.mp o.isSymbolChar_symbol) (by decide) (by decide)
      (by decide))

/-- A lexeme leaves the depth as it is. -/
theorem Lexes.bare_append {span rest : List Char} {lexeme : Lexeme} (h : Lexes span rest lexeme) :
    ∃ front, bare false (span ++ rest) = front ++ bare false rest ∧ front.length = span.length ∧
      ∀ depth, front.foldl nest depth = depth := by
  rcases h.string_or_plain with ⟨inside, rfl, hq⟩ | ⟨hq, hplain⟩
  · refine ⟨List.replicate (inside.length + 2) ' ', ?_, ?_, foldl_nest_of_forall fun c hc => ?_⟩
    · rw [List.cons_append, List.append_assoc, List.singleton_append, bare_literal hq]
    · rw [List.length_replicate, List.length_cons, List.length_append, List.length_singleton]
    · rw [List.eq_of_mem_replicate hc]
      exact ⟨by decide, by decide⟩
  · exact ⟨span, bare_append_of_not_mem hq rest, rfl, foldl_nest_of_forall hplain⟩

/-! ## The states of a scan -/

/-- The scan of a text comes to a depth, an offset, a last lexeme and a rest. -/
inductive Passes (text : List Char) : Nat → Nat → Option Lexeme → List Char → Prop
  | start : Passes text 0 0 none text
  | blank {depth offset : Nat} {last : Option Lexeme} {c : Char} {rest : List Char} :
      isBlank c = true → Passes text depth offset last (c :: rest) →
      Passes text depth (offset + 1) last rest
  | left {depth offset : Nat} {last : Option Lexeme} {rest : List Char} :
      Passes text depth offset last ('(' :: rest) → Passes text (depth + 1) (offset + 1) last rest
  | right {depth offset : Nat} {last : Option Lexeme} {rest : List Char} :
      Passes text depth offset last (')' :: rest) → Passes text (depth - 1) (offset + 1) last rest
  | lexeme {depth offset : Nat} {last : Option Lexeme} {lexeme : Lexeme} {span rest : List Char} :
      Lexes span rest lexeme → Passes text depth offset last (span ++ rest) →
      Passes text depth (offset + span.length) (some lexeme) rest

/-- A scan that has a lexeme before it takes it. -/
theorem Scanned.of_lexes {span rest : List Char} {depth offset : Nat} {last : Option Lexeme}
    {lexeme : Lexeme} {tokens : List Token} (h : Scanned depth offset last (span ++ rest) tokens)
    (hlexes : Lexes span rest lexeme) : ∃ more, tokens = ⟨lexeme, depth, offset⟩ :: more ∧
      (∀ l, last = some l → ¬l.Clash lexeme) ∧
      Scanned depth (offset + span.length) (some lexeme) rest more := by
  obtain ⟨c, more, rfl, hopens, hrec⟩ := hlexes.recognize
  have h := h.scanFrom_eq
  cases hlast : adjacencyFault? last lexeme with
  | some fault =>
    rw [List.cons_append, scanFrom, hopens.not_blank, if_neg Bool.false_ne_true,
      if_neg hopens.not_left, if_neg hopens.not_right, hrec] at h
    simp only [hlast] at h
    cases h
  | none =>
    rw [scanFrom_lexeme depth offset hopens hrec hlast] at h
    cases hrest : scanFrom depth (offset + (c :: more).length) (some lexeme) rest with
    | error e =>
      rw [hrest] at h
      cases h
    | ok found =>
      rw [hrest] at h
      cases h
      exact ⟨found, rfl, adjacencyFault?_eq_none_iff.mp hlast, scanFrom_eq_ok_iff.mp hrest⟩

/-- From a state that the scan comes to, it goes on to the tokens that are still missing. -/
theorem Passes.scanned {text rest : List Char} {depth offset : Nat} {last : Option Lexeme}
    (h : Passes text depth offset last rest) {tokens : List Token}
    (hs : Scanned 0 0 none text tokens) :
    ∃ before after, tokens = before ++ after ∧ Scanned depth offset last rest after := by
  induction h with
  | start => exact ⟨[], tokens, rfl, hs⟩
  | blank hb _ ih =>
    obtain ⟨before, after, htokens, hscan⟩ := ih
    rw [← scanFrom_eq_ok_iff, scanFrom, if_pos hb, scanFrom_eq_ok_iff] at hscan
    exact ⟨before, after, htokens, hscan⟩
  | left _ ih =>
    obtain ⟨before, after, htokens, hscan⟩ := ih
    rw [← scanFrom_eq_ok_iff, scanFrom, if_neg (by decide), if_pos rfl, scanFrom_eq_ok_iff] at hscan
    exact ⟨before, after, htokens, hscan⟩
  | right _ ih =>
    obtain ⟨before, after, htokens, hscan⟩ := ih
    rw [← scanFrom_eq_ok_iff, scanFrom, if_neg (by decide), if_neg (by decide), if_pos rfl,
      scanFrom_eq_ok_iff] at hscan
    exact ⟨before, after, htokens, hscan⟩
  | @lexeme depth offset last lexeme span rest hlexes _ ih =>
    obtain ⟨before, after, htokens, hscan⟩ := ih
    obtain ⟨after', rfl, _, hrest⟩ := hscan.of_lexes hlexes
    refine ⟨before ++ [⟨lexeme, depth, offset⟩], after', ?_, hrest⟩
    rw [htokens, List.append_assoc]
    rfl

/-- A scan that succeeds comes to each of its tokens and to the end. -/
theorem Scanned.passes {text rest : List Char} {depth offset : Nat} {last : Option Lexeme}
    {tokens : List Token} (h : Scanned depth offset last rest tokens)
    (hp : Passes text depth offset last rest) :
    (∀ t ∈ tokens, ∃ last span more, Passes text t.depth t.offset last (span ++ more) ∧
        Lexes span more t.lexeme) ∧
      ∃ depth offset last, Passes text depth offset last [] := by
  induction h with
  | nil => exact ⟨fun t ht => absurd ht List.not_mem_nil, _, _, _, hp⟩
  | blank hb _ ih => exact ih (hp.blank hb)
  | left _ ih => exact ih hp.left
  | right _ ih => exact ih hp.right
  | lexeme hlexes _ _ ih =>
    have hnext := ih (hp.lexeme hlexes)
    exact ⟨List.forall_mem_cons.mpr ⟨⟨_, _, _, hp, hlexes⟩, hnext.1⟩, hnext.2⟩

/-- The depth of a state counts the parentheses before it that stand outside of literals. -/
theorem Passes.depth_eq {text rest : List Char} {depth offset : Nat} {last : Option Lexeme}
    (h : Passes text depth offset last rest) :
    ∃ front, bare false text = front ++ bare false rest ∧ front.length = offset ∧
      depth = front.foldl nest 0 := by
  have hstep : ∀ {c : Char} {rest : List Char} {depth offset : Nat}, c ≠ '\'' →
      (∃ front, bare false text = front ++ bare false (c :: rest) ∧ front.length = offset ∧
        depth = front.foldl nest 0) →
      ∃ front, bare false text = front ++ bare false rest ∧ front.length = offset + 1 ∧
        nest depth c = front.foldl nest 0 := by
    rintro c rest depth offset hc ⟨front, htext, hlen, hdepth⟩
    refine ⟨front ++ [c], ?_, ?_, ?_⟩
    · rw [htext, bare, if_neg hc, List.append_assoc]
      rfl
    · rw [List.length_append, hlen, List.length_singleton]
    · rw [List.foldl_append, ← hdepth]
      rfl
  induction h with
  | start => exact ⟨[], rfl, rfl, rfl⟩
  | @blank depth _ _ c _ hb _ ih =>
    have hnext := hstep (ne_of_class hb (by decide)) ih
    rwa [nest_blank hb] at hnext
  | left _ ih => exact hstep (by decide) ih
  | right _ ih => exact hstep (by decide) ih
  | lexeme hlexes _ ih =>
    obtain ⟨front, htext, hlen, hdepth⟩ := ih
    obtain ⟨more, hmore, hmorelen, hsame⟩ := hlexes.bare_append
    refine ⟨front ++ more, ?_, ?_, ?_⟩
    · rw [htext, hmore, List.append_assoc]
    · rw [List.length_append, hlen, hmorelen]
    · rw [List.foldl_append, ← hdepth, hsame]

/-- Where the parentheses outside of literals match, no state has a right parenthesis before it
at depth zero, and the end is at depth zero. -/
theorem Passes.depth_of_matched {text rest : List Char} {depth offset : Nat} {last : Option Lexeme}
    (h : Passes text depth offset last rest) (hm : Matched 0 (bare false text)) :
    (rest.head? = some ')' → 0 < depth) ∧ (rest = [] → depth = 0) := by
  obtain ⟨front, htext, _, hdepth⟩ := h.depth_eq
  obtain ⟨hfronts, htotal⟩ := hm
  have hcount : depth + front.count ')' = front.count '(' := by
    rw [hdepth]
    rw [foldl_nest_add_count fun f hf => ?_, Nat.zero_add]
    exact hfronts f (htext ▸ hf.trans (List.prefix_append front _))
  refine ⟨fun hright => ?_, fun hend => ?_⟩
  · obtain ⟨more, rfl⟩ : ∃ more, rest = ')' :: more := List.head?_eq_some_iff.mp hright
    have hbare : bare false (')' :: more) = ')' :: bare false more := rfl
    have hprefix : front ++ [')'] <+: bare false text := by
      rw [htext, hbare]
      exact ⟨bare false more, by rw [List.append_assoc]; rfl⟩
    have := hfronts _ hprefix
    rw [List.count_append, List.count_append] at this
    have hone : [')'].count ')' = 1 := rfl
    have hnone : [')'].count '(' = 0 := rfl
    omega
  · rw [htext, hend, bare, List.append_nil] at htotal
    omega

/-! ## Another literal -/

/-- What has no mark in it and begins a text lies before the first mark there. -/
theorem prefix_of_not_mem {mark : Char} {text before after : List Char} (hm : mark ∉ text)
    (h : text <+: before ++ mark :: after) : text <+: before := by
  rcases List.prefix_or_prefix_of_prefix h (List.prefix_append before _) with hle | ⟨more, rfl⟩
  · exact hle
  · cases more with
    | nil => rw [List.append_nil]
    | cons c more =>
      have hhead := List.cons_prefix_cons.mp ((List.prefix_append_right_inj before).mp h)
      exact absurd (List.mem_append_right _ (hhead.1 ▸ List.mem_cons_self)) hm

/-- A lexeme does not depend on what stands behind a quote. -/
theorem Lexes.behind_quote {span more tail : List Char} {lexeme : Lexeme}
    (h : Lexes span (more ++ '\'' :: tail) lexeme) (tail' : List Char) :
    Lexes span (more ++ '\'' :: tail') lexeme := by
  have hhead : (more ++ '\'' :: tail').head? = (more ++ '\'' :: tail).head? := by
    rw [List.head?_append, List.head?_append]
    rfl
  cases h with
  | bool b hr => exact .bool b fun c hc => hr c (hhead ▸ hc)
  | numeral hn hr => exact .numeral hn fun c hc => hr c (hhead ▸ hc)
  | point hr => exact .point fun c hc => hr c (hhead ▸ hc)
  | string hq => exact .string hq
  | name hv hr => exact .name hv fun c hc => hr c (hhead ▸ hc)
  | @operator o _ ho hlonger =>
    refine .operator ho fun o' ho' => hlonger o' ?_
    have hquote : '\'' ∉ o'.symbol.toList := fun hm =>
      ne_of_class (List.all_eq_true.mp o'.isSymbolChar_symbol _ hm) (by decide) rfl
    rw [← List.append_assoc] at ho' ⊢
    exact (prefix_of_not_mem hquote ho').trans (List.prefix_append _ _)

theorem quoted_of_append {P : List Char → Prop} {span rest : List Char} (hq : '\'' ∉ span)
    (h : Quoted P (span ++ rest)) : Quoted P rest := by
  induction span with
  | nil => exact h
  | cons c span ih =>
    exact ih (List.not_mem_of_not_mem_cons hq) (h.of_cons (List.ne_of_not_mem_cons hq).symm)

/-- A lexeme that begins before a quote, with all quotes before that one closed, ends before
it. -/
theorem Lexes.before_quote {P : List Char → Prop} {span rest before tail : List Char}
    {lexeme : Lexeme} (h : Lexes span rest lexeme) (htext : span ++ rest = before ++ '\'' :: tail)
    (hb : Quoted P before) (hne : before ≠ []) :
    ∃ more, before = span ++ more ∧ rest = more ++ '\'' :: tail ∧ Quoted P more := by
  rcases h.string_or_plain with ⟨inside, rfl, hq⟩ | ⟨hq, _⟩
  · cases hb with
    | nil => exact absurd rfl hne
    | other hc _ => exact absurd (List.cons.inj htext).1.symm hc
    | @literal inside' before' hq' _ hb' =>
      have hsame : inside ++ '\'' :: rest = inside' ++ '\'' :: (before' ++ '\'' :: tail) := by
        simpa using htext
      obtain ⟨rfl, rfl⟩ := eq_of_append_mark hq hq' hsame
      exact ⟨before', by simp, rfl, hb'⟩
  · obtain ⟨more, rfl⟩ := prefix_of_not_mem hq (htext ▸ List.prefix_append span rest)
    rw [List.append_assoc] at htext
    exact ⟨more, rfl, List.append_cancel_left htext, quoted_of_append hq hb⟩

/-- A token of which only the operator, if it is one, and the depth matter. -/
def strip : Token → Token := recast (fun _ => .undefined) fun _ => 0

theorem clash_mapValue (f : Value → Value) (l l' : Lexeme) :
    (l.mapValue f).Clash l' ↔ l.Clash l' := by
  cases l <;> cases l' <;> exact Iff.rfl

/-- At another offset and behind another literal, a text is scanned alike. -/
theorem Scanned.move {depth offset : Nat} {last last' : Option Lexeme} {text : List Char}
    {tokens : List Token} (h : Scanned depth offset last text tokens)
    (hlast : last'.map (Lexeme.mapValue fun _ => .undefined) =
      last.map (Lexeme.mapValue fun _ => .undefined)) (offset' : Nat) :
    ∃ tokens', Scanned depth offset' last' text tokens' ∧ tokens'.map strip = tokens.map strip := by
  induction h generalizing last' offset' with
  | nil => exact ⟨[], .nil, rfl⟩
  | blank hb _ ih =>
    obtain ⟨tokens', hscan, hsame⟩ := ih hlast (offset' + 1)
    exact ⟨tokens', .blank hb hscan, hsame⟩
  | left _ ih =>
    obtain ⟨tokens', hscan, hsame⟩ := ih hlast (offset' + 1)
    exact ⟨tokens', .left hscan, hsame⟩
  | right _ ih =>
    obtain ⟨tokens', hscan, hsame⟩ := ih hlast (offset' + 1)
    exact ⟨tokens', .right hscan, hsame⟩
  | @lexeme depth offset last lexeme span _ _ hlexes hclash _ ih =>
    obtain ⟨tokens', hscan, hsame⟩ := @ih (some lexeme) rfl (offset' + span.length)
    refine ⟨⟨lexeme, depth, offset'⟩ :: tokens', .lexeme hlexes (fun l' hl' hc => ?_) hscan,
      congrArg (List.cons _) hsame⟩
    rw [hl'] at hlast
    obtain ⟨l, hl, hsame⟩ := Option.map_eq_some_iff.mp hlast.symm
    rw [← clash_mapValue, ← hsame, clash_mapValue] at hc
    exact hclash l hl hc

/-- With another string at its front, a text is scanned alike. -/
theorem Scanned.replace_front {depth offset : Nat} {last : Option Lexeme}
    {inside inside' after : List Char} {tokens : List Token} (hq : '\'' ∉ inside)
    (hq' : '\'' ∉ inside')
    (h : Scanned depth offset last ('\'' :: (inside ++ '\'' :: after)) tokens) :
    ∃ tokens', Scanned depth offset last ('\'' :: (inside' ++ '\'' :: after)) tokens' ∧
      tokens'.map strip = tokens.map strip := by
  have hspan : ∀ s : List Char, '\'' :: (s ++ '\'' :: after) = '\'' :: (s ++ ['\'']) ++ after := by
    intro s
    rw [List.cons_append, List.append_assoc, List.singleton_append]
  rw [hspan] at h ⊢
  obtain ⟨more, rfl, hclash, hrest⟩ := h.of_lexes (.string hq)
  obtain ⟨more', hrest', hsame⟩ := @Scanned.move _ _ _
    (some (.literal (.str (String.ofList inside')))) _ _ hrest rfl
    (offset + ('\'' :: (inside' ++ ['\''])).length)
  refine ⟨⟨.literal (.str (String.ofList inside')), depth, offset⟩ :: more',
    .lexeme (.string hq') (fun l hl hc => hclash l hl ?_) hrest', congrArg (List.cons _) hsame⟩
  cases l <;> exact hc

/-- With another string in the place of one, a text is scanned alike. -/
theorem Scanned.replace {P : List Char → Prop} {depth offset : Nat} {last : Option Lexeme}
    {text before inside inside' after : List Char} {tokens : List Token}
    (h : Scanned depth offset last text tokens)
    (htext : text = before ++ '\'' :: (inside ++ '\'' :: after)) (hb : Quoted P before)
    (hq : '\'' ∉ inside) (hq' : '\'' ∉ inside') :
    ∃ tokens', Scanned depth offset last (before ++ '\'' :: (inside' ++ '\'' :: after)) tokens' ∧
      tokens'.map strip = tokens.map strip := by
  -- A character that is no part of a lexeme stands before the literal, since the quote does not.
  have hskip : ∀ {c : Char} {rest before : List Char}, c ≠ '\'' → Quoted P before →
      c :: rest = before ++ '\'' :: (inside ++ '\'' :: after) →
      ∃ more, before = c :: more ∧ rest = more ++ '\'' :: (inside ++ '\'' :: after) ∧
        Quoted P more := by
    intro c rest before hc hb htext
    cases before with
    | nil => exact absurd (List.cons.inj htext).1 hc
    | cons d more =>
      obtain ⟨rfl, hrest⟩ := List.cons.inj htext
      exact ⟨more, rfl, hrest, hb.of_cons hc⟩
  induction h generalizing before with
  | nil => exact absurd htext.symm (by simp)
  | blank hblank _ ih =>
    obtain ⟨more, rfl, hrest, hb'⟩ := hskip (ne_of_class hblank (by decide)) hb htext
    obtain ⟨tokens', hscan, hsame⟩ := ih hrest hb'
    exact ⟨tokens', .blank hblank hscan, hsame⟩
  | left _ ih =>
    obtain ⟨more, rfl, hrest, hb'⟩ := hskip (by decide) hb htext
    obtain ⟨tokens', hscan, hsame⟩ := ih hrest hb'
    exact ⟨tokens', .left hscan, hsame⟩
  | right _ ih =>
    obtain ⟨more, rfl, hrest, hb'⟩ := hskip (by decide) hb htext
    obtain ⟨tokens', hscan, hsame⟩ := ih hrest hb'
    exact ⟨tokens', .right hscan, hsame⟩
  | @lexeme depth offset last lexeme span rest more hlexes hclash hscan ih =>
    by_cases hne : before = []
    · subst hne
      refine Scanned.replace_front hq hq' ?_
      rw [← List.nil_append ('\'' :: _), ← htext]
      exact .lexeme hlexes hclash hscan
    · obtain ⟨rest', rfl, rfl, hb'⟩ := hlexes.before_quote htext hb hne
      obtain ⟨tokens', hscan', hsame⟩ := ih rfl hb'
      refine ⟨⟨lexeme, depth, offset⟩ :: tokens', ?_, congrArg (List.cons _) hsame⟩
      rw [List.append_assoc]
      exact .lexeme (hlexes.behind_quote _) hclash hscan'

end Token

namespace Plan

/-- Tokens that differ in values and offsets only are both refused, or none of them is. -/
theorem exists_ofTokens_of_strip {ts us : List Token} {plan : Plan}
    (hsame : us.map Token.strip = ts.map Token.strip)
    (h : ofTokens (Token.settleSigns false ts) = .ok plan) :
    ∃ plan', ofTokens (Token.settleSigns false us) = .ok plan' := by
  have hstrip : ∀ vs : List Token,
      (ofTokens (Token.settleSigns false (vs.map Token.strip))).toOption =
        (ofTokens (Token.settleSigns false vs)).toOption.map (mapValue fun _ => .undefined) := by
    intro vs
    rw [Token.strip, Token.settleSigns_recast]
    exact ofTokens_recast _ _ _
  have hplans := hstrip us
  rw [hsame, hstrip ts, h] at hplans
  cases hu : ofTokens (Token.settleSigns false us) with
  | error e =>
    rw [hu] at hplans
    cases hplans
  | ok plan' => exact ⟨plan', rfl⟩

theorem exists_compile_iff {text : List Char} {offset : Nat} :
    (∃ plan, compile text offset = .ok plan) ↔
      Matched 0 text ∧ ∃ tokens plan, Token.Scanned 0 0 none text tokens ∧
        ofTokens (Token.settleSigns false tokens) = .ok plan := by
  have hcompile : ∀ plan, compile text offset = .ok plan ↔ ofText text = .ok plan := fun plan => by
    rw [← toOption_eq_some_iff, compile, toOption_mapError, toOption_eq_some_iff]
  simp only [hcompile, ofText_eq_ok_iff, toOption_eq_some_iff, Token.scan_eq_ok_iff,
    Token.checkParentheses_eq_ok_iff]
  constructor
  · rintro ⟨plan, tokens, ⟨hm, hs⟩, hp⟩
    exact ⟨hm, tokens, plan, hs, hp⟩
  · rintro ⟨hm, tokens, plan, hs, hp⟩
    exact ⟨plan, tokens, ⟨hm, hs⟩, hp⟩

/-- A text stays an expression when one string literal in it is replaced by another, as long as
the parentheses of both match among themselves. -/
theorem compile_replace {P : List Char → Prop} {before inside inside' after : List Char}
    {offset : Nat} (hb : Quoted P before) (hq : '\'' ∉ inside) (hm : Matched 0 inside)
    (hq' : '\'' ∉ inside') (hm' : Matched 0 inside')
    (h : ∃ plan, compile (before ++ '\'' :: (inside ++ '\'' :: after)) offset = .ok plan) :
    ∃ plan, compile (before ++ '\'' :: (inside' ++ '\'' :: after)) offset = .ok plan := by
  obtain ⟨hmatched, tokens, plan, hs, hp⟩ := exists_compile_iff.mp h
  obtain ⟨tokens', hs', hsame⟩ := hs.replace rfl hb hq hq'
  obtain ⟨plan', hp'⟩ := exists_ofTokens_of_strip hsame hp
  refine exists_compile_iff.mpr ⟨?_, tokens', plan', hs', hp'⟩
  refine (matched_append_congr (fun depth => ?_) 0).mp hmatched
  rw [matched_literal hm, matched_literal hm']

end Plan

namespace Token

/-- The check of the parentheses counts all of them, also those in a string literal. Where every
quote is closed and the parentheses of each string literal match among themselves, it passes
exactly the texts in which those outside of the literals match. The scan of such a text that
succeeds never comes to a right parenthesis at depth zero, and it ends at depth zero. And whether
such a text is an expression does not depend on what a literal has inside, as long as the
parentheses there match. -/
theorem parentheses_agree (text : List Char) :
    (checkParentheses 0 0 text = .ok () ↔ Matched 0 text) ∧
    (Quoted (Matched 0) text →
      (checkParentheses 0 0 text = .ok () ↔ Matched 0 (bare false text)) ∧
      (∀ tokens, scan text = .ok tokens →
        (∀ t ∈ tokens, ∃ last rest, Passes text t.depth t.offset last rest) ∧
        (∃ depth offset last, Passes text depth offset last []) ∧
        ∀ depth offset last rest, Passes text depth offset last rest →
          (∃ before after, tokens = before ++ after ∧
            scanFrom depth offset last rest = .ok after) ∧
          (rest.head? = some ')' → 0 < depth) ∧ (rest = [] → depth = 0)) ∧
      ∀ before inside inside' after, text = before ++ '\'' :: (inside ++ '\'' :: after) →
        Quoted (fun _ => True) before → '\'' ∉ inside → '\'' ∉ inside' → Matched 0 inside' →
        ∀ offset, (∃ plan, Plan.compile text offset = .ok plan) ↔
          ∃ plan, Plan.compile (before ++ '\'' :: (inside' ++ '\'' :: after)) offset =
            .ok plan) := by
  have hcheck : checkParentheses 0 0 text = .ok () ↔ Matched 0 text := checkParentheses_eq_ok_iff
  refine ⟨hcheck, fun h => ⟨hcheck.trans (h.matched_bare_iff 0), fun tokens hscan => ?_, ?_⟩⟩
  · obtain ⟨hpassed, hs⟩ := scan_eq_ok_iff.mp hscan
    have hm := (hcheck.trans (h.matched_bare_iff 0)).mp hpassed
    obtain ⟨htokens, hend⟩ := hs.passes .start
    refine ⟨fun t ht => ?_, hend, fun depth offset last rest hp => ⟨?_, hp.depth_of_matched hm⟩⟩
    · obtain ⟨last, span, more, hp, _⟩ := htokens t ht
      exact ⟨last, span ++ more, hp⟩
    obtain ⟨before, after, hsplit, hrest⟩ := hp.scanned hs
    exact ⟨before, after, hsplit, hrest.scanFrom_eq⟩
  · rintro before inside inside' after rfl hb hq hq' hm' offset
    have hm := h.inside hb hq
    exact ⟨Plan.compile_replace hb hq hm hq' hm', Plan.compile_replace hb hq' hm' hq hm⟩

/-- In `('a(b)'+c)` the check and the scan agree, and it stays an expression when its string is
emptied. -/
theorem parentheses_agree_sum :
    (checkParentheses 0 0 ['(', '\'', 'a', '(', 'b', ')', '\'', '+', 'c', ')'] = .ok () ↔
      Matched 0 (bare false ['(', '\'', 'a', '(', 'b', ')', '\'', '+', 'c', ')'])) ∧
    ∃ plan, Plan.compile ['(', '\'', '\'', '+', 'c', ')'] 0 = .ok plan := by
  have hrest : Quoted (Matched 0) ['+', 'c', ')'] :=
    .other (by decide) (.other (by decide) (.other (by decide) .nil))
  have htext : Quoted (Matched 0) ['(', '\'', 'a', '(', 'b', ')', '\'', '+', 'c', ')'] :=
    .other (by decide) (@Quoted.literal _ ['a', '(', 'b', ')'] _ (by decide) (by decide) hrest)
  obtain ⟨hcheck, _, hreplace⟩ := (parentheses_agree _).2 htext
  refine ⟨hcheck, ?_⟩
  have hplan : ∃ plan,
      Plan.compile ['(', '\'', 'a', '(', 'b', ')', '\'', '+', 'c', ')'] 0 = .ok plan :=
    ⟨⟨[⟨some .add, some (.literal (.str "a(b)")), some (.variable "c")⟩]⟩, by cbv⟩
  exact (hreplace ['('] ['a', '(', 'b', ')'] [] ['+', 'c', ')'] rfl (.other (by decide) .nil)
    (by decide) (by decide) (by decide) 0).mp hplan

/-- The check refuses `'('`, in which no parenthesis stands outside of the literal. It passes
`'('+a)`, in which one is closed there that was never opened, and the scan comes to it at depth
zero. -/
theorem parentheses_disagree :
    (Quoted (fun _ => True) ['\'', '(', '\''] ∧ Matched 0 (bare false ['\'', '(', '\'']) ∧
      checkParentheses 0 0 ['\'', '(', '\''] ≠ .ok ()) ∧
    Quoted (fun _ => True) ['\'', '(', '\'', '+', 'a', ')'] ∧
      ¬Matched 0 (bare false ['\'', '(', '\'', '+', 'a', ')']) ∧
      (∃ tokens, scan ['\'', '(', '\'', '+', 'a', ')'] = .ok tokens) ∧
      ∃ last, Passes ['\'', '(', '\'', '+', 'a', ')'] 0 5 last [')'] := by
  refine ⟨⟨@Quoted.literal _ ['('] [] (by decide) trivial .nil, by decide, fun h => ?_⟩,
    @Quoted.literal _ ['('] _ (by decide) trivial
      (.other (by decide) (.other (by decide) (.other (by decide) .nil))), by decide,
    ⟨[⟨.literal (.str "("), 0, 0⟩, ⟨.operator .add, 0, 3⟩, ⟨.variable "a", 0, 4⟩], by cbv⟩,
    some (.variable (String.ofList ['a'])), ?_⟩
  · exact absurd (checkParentheses_eq_ok_iff.mp h) (by decide)
  · have hstring : Lexes ['\'', '(', '\''] ['+', 'a', ')'] _ := @Lexes.string ['('] _ (by decide)
    have hplus : Lexes ['+'] ['a', ')'] _ := @Lexes.operator .add _ (by decide) fun o' => by
      cases o' <;> decide
    have hname : Lexes ['a'] [')'] _ := @Lexes.name ['a'] _
      ⟨⟨'a', [], rfl, by decide, by simp⟩, by decide, by decide⟩ fun c hc => by cases hc; decide
    exact .lexeme hname (.lexeme hplus (.lexeme hstring .start))

end Token

end DialogueScript
