import DialogueScript.Proofs.Settings

/-!
# Which texts can be written as a string

A string literal has no escapes, and most of what reads a script does not know of quotes:
a source is cut at every `;`, `{` and `}`, and parentheses are counted wherever they stand.
So `x='s'` is not for every `s` without a quote an assignment of `s`. Here it is settled for
which it is. A literal that is cut or whose parentheses do not match is never taken for
something else: the quote that opens it has no partner left, or the whole is refused before
the literal is read.

Main statements:
1. `Token.checkParentheses_eq_ok_iff`: which texts have matching parentheses.
2. `Block.parse_quoted_iff`: what becomes of `x='s'`.
3. `Script.compile_quoted_iff`: whether it compiles, and the variables after it.
-/

namespace DialogueScript

open Text

theorem toOption_eq_some_iff {ε α : Type} {x : Except ε α} {a : α} :
    x.toOption = some a ↔ x = .ok a := by
  cases x with
  | error e => exact iff_of_false (fun h => nomatch h) fun h => nomatch h
  | ok b => exact ⟨fun h => congrArg _ (Option.some.inj h), fun h => congrArg _ (Except.ok.inj h)⟩

/-! ## Matching parentheses -/

/-- With a number of parentheses open before it, no beginning of the text closes more of them
than are open, and the text closes all. -/
def Text.Matched (opened : Nat) (text : List Char) : Prop :=
  (∀ front, front <+: text → front.count ')' ≤ opened + front.count '(') ∧
    opened + text.count '(' = text.count ')'

namespace Text

theorem matched_left {opened : Nat} {text : List Char} :
    Matched opened ('(' :: text) ↔ Matched (opened + 1) text :=
  paired_cons rfl

theorem not_matched_right {text : List Char} : ¬Matched 0 (')' :: text) :=
  not_paired_right (by decide)

theorem matched_right {opened : Nat} {text : List Char} :
    Matched (opened + 1) (')' :: text) ↔ Matched opened text :=
  paired_cons rfl

theorem matched_other {opened : Nat} {c : Char} {text : List Char} (hl : c ≠ '(') (hr : c ≠ ')') :
    Matched opened (c :: text) ↔ Matched opened text :=
  paired_cons (by simp [hl, hr])

/-- A text behind which no parenthesis follows matches if it does alone. -/
theorem matched_append_other {opened : Nat} {text : List Char} {c : Char} (hl : c ≠ '(')
    (hr : c ≠ ')') : Matched opened (text ++ [c]) ↔ Matched opened text := by
  induction text generalizing opened with
  | nil => exact matched_other hl hr
  | cons d text ih =>
    rw [List.cons_append]
    by_cases hdl : d = '('
    · rw [hdl, matched_left, matched_left, ih]
    by_cases hdr : d = ')'
    · subst hdr
      cases opened with
      | zero => exact iff_of_false not_matched_right not_matched_right
      | succ n => rw [matched_right, matched_right, ih]
    · rw [matched_other hdl hdr, matched_other hdl hdr, ih]

end Text

/-- The check passes exactly the texts in which all parentheses are matched. -/
theorem Token.checkParentheses_eq_ok_iff {offset depth : Nat} {text : List Char} :
    checkParentheses offset depth text = .ok () ↔ Matched depth text := by
  fun_induction checkParentheses offset depth text with
  | case1 offset => exact iff_of_true rfl (paired_nil.mpr rfl)
  | case2 offset depth hd => simp [hd, Matched]
  | case3 offset depth rest ih => rw [ih, matched_left]
  | case4 offset rest hl => simp [not_matched_right]
  | case5 offset depth rest hd hl ih =>
    obtain ⟨n, rfl⟩ := Nat.exists_eq_succ_of_ne_zero hd
    rw [ih, matched_right]
    rfl
  | case6 offset depth c rest hl hr ih => rw [ih, matched_other hl hr]

instance (opened : Nat) (text : List Char) : Decidable (Matched opened text) :=
  decidable_of_iff ((Token.checkParentheses 0 opened text).toOption = some ())
    (toOption_eq_some_iff.trans Token.checkParentheses_eq_ok_iff)

instance (text : List Char) : Decidable (Fragment.Plain text) :=
  inferInstanceAs (Decidable (∀ c ∈ text, c ≠ ';' ∧ c ≠ '{' ∧ c ≠ '}'))

/-! ## A quoted text as an expression -/

namespace Plan

def ofString (s : List Char) : Plan := ⟨[⟨none, none, some (.literal (.str (String.ofList s)))⟩]⟩

theorem scanFrom_quoted {s : List Char} (hs : '\'' ∉ s) :
    Token.scanFrom 0 0 none ('\'' :: (s ++ ['\''])) =
      .ok [⟨.literal (.str (String.ofList s)), 0, 0⟩] := by
  have hrec : Token.recognize '\'' ((s ++ ['\'']) ++ []) =
      .ok (.literal (.str (String.ofList s)), (s ++ ['\'']).length) := by
    rw [List.append_nil, Token.recognize_string hs, List.length_append, List.length_singleton]
  have hscan := Token.scanFrom_lexeme 0 0 ⟨by decide, by decide, by decide⟩ hrec
    (rfl : Token.adjacencyFault? none _ = none)
  rw [List.append_nil] at hscan
  rw [hscan, Token.scanFrom]
  rfl

/-- A quoted text is an expression if its parentheses match, and then it is a string. -/
theorem ofText_quoted_iff {s : List Char} (hs : '\'' ∉ s) {plan : Plan} :
    ofText ('\'' :: (s ++ ['\''])) = .ok plan ↔ Matched 0 s ∧ plan = ofString s := by
  have hmatched : Matched 0 ('\'' :: (s ++ ['\''])) ↔ Matched 0 s := by
    rw [matched_other (by decide) (by decide), matched_append_other (by decide) (by decide)]
  rw [← hmatched, ← Token.checkParentheses_eq_ok_iff, ofText_eq_ok_iff, Token.toOption_scan,
    scanFrom_quoted hs]
  cases hc : Token.checkParentheses 0 0 ('\'' :: (s ++ ['\''])) with
  | error e => exact ⟨fun ⟨_, h, _⟩ => (nomatch h), fun ⟨h, _⟩ => (nomatch h)⟩
  | ok u =>
    constructor
    · rintro ⟨ts, hts, hp⟩
      cases hts
      cases hp
      exact ⟨rfl, rfl⟩
    · rintro ⟨_, rfl⟩
      exact ⟨_, rfl, rfl⟩

/-- A quote that nothing closes is refused, whatever the parentheses are. -/
theorem ofText_unclosed {s : List Char} (hs : '\'' ∉ s) (plan : Plan) :
    ofText ('\'' :: s) ≠ .ok plan := by
  have hrec : Token.recognize '\'' s = .error (.atChar .unclosedString (s.length + 1)) := by
    unfold Token.recognize
    rw [cutFirst?_eq_none_iff.mpr hs]
    rfl
  have hscan : (Token.scanFrom 0 0 none ('\'' :: s)).toOption = none := by
    rw [Token.scanFrom, hrec]
    rfl
  rw [Ne, ofText_eq_ok_iff, Token.toOption_scan, hscan]
  rintro ⟨ts, hts, _⟩
  cases hc : Token.checkParentheses 0 0 ('\'' :: s) with
  | error e =>
    rw [hc] at hts
    cases hts
  | ok u =>
    rw [hc] at hts
    cases hts

end Plan

/-! ## A quoted text in a script -/

section

variable {φ : Type} {registry : NameTable φ}

def quotedAssignment (name s : List Char) : List Char := name ++ '=' :: '\'' :: (s ++ ['\''])

theorem Fragment.ofPiece_value {name : List Char} (hname : IsName name) (value : List Char) :
    ofPiece (name ++ '=' :: value) 0 0 = [⟨name ++ '=' :: trimEnd value, 0, 0⟩] :=
  ofPiece_assignment ⟨[], rfl⟩ hname [] value 0 0

theorem Fragment.plain_value {name value : List Char} (hname : IsName name) (hvalue : Plain value) :
    Plain (name ++ '=' :: value) :=
  (plain_of_isNamePart hname.all_isNamePart).append (hvalue.cons ⟨by decide, by decide, by decide⟩)

/-- Without a delimiter an assignment is the only fragment. -/
theorem Fragment.split_value {name value : List Char} (hname : IsName name) (hvalue : Plain value) :
    split (name ++ '=' :: value) = .ok [⟨name ++ '=' :: trimEnd value, 0, 0⟩] := by
  have hsplit := splitFrom_plain (plain_value hname hvalue) 0 0 [] []
  rw [List.append_nil, List.append_nil] at hsplit
  rw [split, hsplit, splitFrom, if_pos rfl, List.reverse_reverse, ofPiece_value hname]

/-- With one, its front is the first fragment. -/
theorem Fragment.split_cut {name value : List Char} (hname : IsName name) (hvalue : Plain value)
    {c : Char} (hc : IsMark c) (rest : List Char) {fragments : List Fragment}
    (h : split ((name ++ '=' :: value) ++ c :: rest) = .ok fragments) :
    ∃ more, fragments = ⟨name ++ '=' :: trimEnd value, 0, 0⟩ :: more := by
  rw [split, splitFrom_plain (plain_value hname hvalue), List.append_nil] at h
  -- A `;` or `{` ends the first fragment and the split goes on; a `}` is a fault here.
  rcases splitFrom_cons 0 0 (name ++ '=' :: value).reverse c rest with
    ⟨_, depth, heq⟩ | heq | ⟨hnot, _⟩
  · rw [heq, List.reverse_reverse, ofPiece_value hname] at h
    cases hrest : splitFrom (0 + (name ++ '=' :: value).reverse.length + 1) depth [] rest with
    | error e =>
      rw [hrest] at h
      cases h
    | ok more =>
      rw [hrest] at h
      cases h
      exact ⟨more, rfl⟩
  · rw [heq] at h
    cases h
  · exact absurd hc hnot

/-- A text with a delimiter in it has a first one. -/
theorem Fragment.exists_cut_of_not_plain {text : List Char} (h : ¬Plain text) :
    ∃ front c rest, text = front ++ c :: rest ∧ Plain front ∧ IsMark c := by
  induction text with
  | nil => exact absurd (fun c hc => absurd hc List.not_mem_nil) h
  | cons d text ih =>
    by_cases hd : IsMark d
    · exact ⟨[], d, text, rfl, fun c hc => absurd hc List.not_mem_nil, hd⟩
    · have hd' : d ≠ ';' ∧ d ≠ '{' ∧ d ≠ '}' := by
        simpa [IsMark, not_or] using hd
      obtain ⟨front, c, rest, rfl, hfront, hc⟩ := ih fun htext => h (htext.cons hd')
      exact ⟨d :: front, c, rest, rfl, hfront.cons hd', hc⟩

variable {name : List Char} (hname : IsName name) (hif : name ≠ ['i', 'f'])
include hname hif

/-- What becomes of an assignment at the head of the fragments is settled by its value. -/
theorem Block.toOption_ofFragments_value (value : List Char) (rest : List Fragment) :
    (Block.ofFragments registry (⟨name ++ '=' :: trimEnd value, 0, 0⟩ :: rest)).toOption =
      (Plan.ofText value).toOption.bind fun plan =>
        (Block.ofFragments registry rest).toOption.map
          (.cons (.assign (String.ofList name) plan 0)) := by
  have hkind : StatementKind.classify (name ++ ([] ++ '=' :: trimEnd value)) = .ok .assignment :=
    StatementKind.classify_append hname hif rfl (Or.inl ⟨rfl, rfl⟩)
  have hread : Statement.readAssignment (name ++ ([] ++ '=' :: trimEnd value)) = _ :=
    Statement.readAssignment_append hname rfl (trimEnd value)
  rw [Block.toOption_ofFragments_assignment hkind]
  show (Statement.readAssignment (name ++ ([] ++ '=' :: trimEnd value))).toOption.bind _ = _
  rw [hread, toOption_map, Plan.compile, toOption_mapError, Plan.toOption_ofText_trimEnd,
    Option.bind_map]
  rfl

/-- The assignment of a quoted text is read exactly if no delimiter cuts it and its
parentheses match, and then it assigns the text between the quotes. -/
theorem Block.parse_quoted_iff {s : List Char} (hs : '\'' ∉ s) {b : Block φ} :
    Block.parse registry (quotedAssignment name s) = .ok b ↔
      (Fragment.Plain s ∧ Matched 0 s) ∧
        b = .cons (.assign (String.ofList name) (Plan.ofString s) 0) .nil := by
  rw [← toOption_eq_some_iff]
  by_cases hplain : Fragment.Plain s
  · have hvalue : Fragment.Plain ('\'' :: (s ++ ['\''])) :=
      (hplain.append fun c hc => List.mem_singleton.mp hc ▸ by decide).cons (by decide)
    have hnil : (Block.ofFragments registry []).toOption = some .nil := by
      rw [Block.ofFragments]
      rfl
    rw [Block.parse, quotedAssignment, Fragment.split_value hname hvalue, toOption_bind]
    show (Block.ofFragments registry _).toOption = some b ↔ _
    rw [Block.toOption_ofFragments_value hname hif, hnil, Option.bind_eq_some_iff]
    constructor
    · rintro ⟨plan, hplan, hb⟩
      obtain ⟨hmatched, rfl⟩ := (Plan.ofText_quoted_iff hs).mp (toOption_eq_some_iff.mp hplan)
      exact ⟨⟨hplain, hmatched⟩, (Option.some.inj hb).symm⟩
    · rintro ⟨⟨_, hmatched⟩, rfl⟩
      exact ⟨_, toOption_eq_some_iff.mpr ((Plan.ofText_quoted_iff hs).mpr ⟨hmatched, rfl⟩), rfl⟩
  · refine iff_of_false (fun h => ?_) fun h => hplain h.1.1
    obtain ⟨front, c, rest, rfl, hfront, hc⟩ := Fragment.exists_cut_of_not_plain hplain
    have htext : quotedAssignment name (front ++ c :: rest) =
        (name ++ '=' :: '\'' :: front) ++ c :: (rest ++ ['\'']) := by
      simp [quotedAssignment]
    rw [Block.parse, htext, toOption_bind, Option.bind_eq_some_iff] at h
    obtain ⟨fragments, hsplit, hblock⟩ := h
    obtain ⟨more, rfl⟩ := Fragment.split_cut hname (hfront.cons (by decide)) hc _
      (toOption_eq_some_iff.mp hsplit)
    rw [Block.toOption_ofFragments_value hname hif, Option.bind_eq_some_iff] at hblock
    obtain ⟨plan, hplan, _⟩ := hblock
    exact Plan.ofText_unclosed (fun hm => hs (List.mem_append_left _ hm)) plan
      (toOption_eq_some_iff.mp hplan)

end

namespace Script

/-- The variables after a source was compiled and, if it was accepted, executed. -/
def storeAfter (registry : Registry) (source : String) (node : Option Nat) (m : Machine) : Store :=
  match compile registry source node with
  | .ok script => (script.execute node m).machine.store
  | .error _ => m.store

/-- Assigning a quoted text to a name compiles exactly if the text has none of `;`, `{` and
`}` and its parentheses match. It then leaves that variable and no other, with the text
unchanged; otherwise it leaves none. -/
theorem compile_quoted_iff (x s : String) (hx : IsName x.toList) (hif : x ≠ "if")
    (hs : '\'' ∉ s.toList) (node : Option Nat) (draws : Nat → Float) :
    let source := x ++ "='" ++ s ++ "'"
    let m : Machine := { store := .empty, draws }
    ((∃ script, compile Registry.builtin source node = .ok script) ↔
      Fragment.Plain s.toList ∧ Matched 0 s.toList) ∧
    (∀ script, compile Registry.builtin source node = .ok script →
      (script.execute node m).failure = none ∧
        (storeAfter Registry.builtin source node m).entries = [(x, .str s)]) ∧
    (¬(Fragment.Plain s.toList ∧ Matched 0 s.toList) →
      (∃ e, compile Registry.builtin source node = .error e) ∧
        storeAfter Registry.builtin source node m = .empty) := by
  intro source m
  have hsource : source.toList = quotedAssignment x.toList s.toList := by
    simp [source, quotedAssignment]
  have hname : x.toList ≠ ['i', 'f'] := fun h => hif (String.toList_inj.mp (h.trans (by simp)))
  have hparse : ∀ {b : Block HostFunction}, Block.parse Registry.builtin source.toList = .ok b ↔ _ :=
    hsource ▸ Block.parse_quoted_iff hx hname hs
  rw [String.ofList_toList] at hparse
  let root : Block HostFunction := .cons (.assign x (.ofString s.toList) 0) .nil
  have haccepted : Fragment.Plain s.toList ∧ Matched 0 s.toList →
      compile Registry.builtin source node = .ok ⟨source, root⟩ := by
    intro h
    rw [compile, hparse.mpr ⟨h, rfl⟩]
  have hrefused : ¬(Fragment.Plain s.toList ∧ Matched 0 s.toList) →
      ∃ e, compile Registry.builtin source node = .error e := by
    intro h
    cases hp : Block.parse Registry.builtin source.toList with
    | ok b => exact absurd (hparse.mp hp).1 h
    | error e => exact ⟨_, by rw [compile, hp]⟩
  have hiff : (∃ script, compile Registry.builtin source node = .ok script) ↔
      Fragment.Plain s.toList ∧ Matched 0 s.toList := by
    refine ⟨?_, fun h => ⟨_, haccepted h⟩⟩
    rintro ⟨script, hc⟩
    refine Decidable.byContradiction fun h => ?_
    obtain ⟨e, he⟩ := hrefused h
    cases hc.symm.trans he
  have hrun : root.execute m = ⟨none, m.assign x (.str s)⟩ := by
    have hvalue : (Plan.ofString s.toList).evaluate m.store = .str s := by
      rw [Plan.evaluate, Plan.ofString, Plan.runFrom, String.ofList_toList]
      rfl
    simp only [root, Block.execute, Statement.execute, hvalue]
  refine ⟨hiff, fun script hc => ?_, fun h => ?_⟩
  · have hscript := haccepted (hiff.mp ⟨script, hc⟩)
    obtain rfl := Except.ok.inj (hc.symm.trans hscript)
    constructor
    · rw [execute, hrun]
      rfl
    · rw [storeAfter, hscript]
      show ((root.execute m).machine.store).entries = _
      rw [hrun]
      rfl
  · obtain ⟨e, he⟩ := hrefused h
    refine ⟨⟨e, he⟩, ?_⟩
    rw [storeAfter, he]

/-- A text with blanks, an assignment sign, a comma, an operator and parentheses in it. -/
theorem compile_quoted_iff_sentence :
    let s := " (a = b), c+é "
    '\'' ∉ s.toList ∧ (∀ draws, (storeAfter Registry.builtin ("else" ++ "='" ++ s ++ "'") (some 3)
      { store := .empty, draws }).entries = [("else", .str s)]) := by
  intro s
  have hs : '\'' ∉ s.toList := by decide
  have hx : IsName "else".toList := ⟨'e', "lse".toList, by decide, by decide, by decide⟩
  have hplain : Fragment.Plain s.toList := by
    simp [Fragment.Plain, s]
  have hchecked : Token.checkParentheses 0 0 s.toList = .ok () := by
    simp [Token.checkParentheses, s]
  have hmatched := Token.checkParentheses_eq_ok_iff.mp hchecked
  refine ⟨hs, fun draws => ?_⟩
  obtain ⟨hiff, hvalue, _⟩ := compile_quoted_iff "else" s hx (by decide) hs (some 3) draws
  obtain ⟨script, hc⟩ := hiff.mpr ⟨hplain, hmatched⟩
  exact (hvalue script hc).2

end Script

end DialogueScript
