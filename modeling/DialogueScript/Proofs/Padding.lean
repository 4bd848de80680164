import DialogueScript.Proofs.Recasting
import DialogueScript.Proofs.Scanning

/-!
# Blanks around an expression

The plan of an expression does not change with the blanks around its text. Blanks
behind it leave the tokens as they are. Blanks before it move the tokens, and where
a token stands shows in faults only, never in a plan.

Main statements:
1. `Plan.ofText_append_blanks`: blanks behind a text make no difference to its plan.
2. `Plan.ofText_padded`: neither do blanks on both sides.
-/

namespace DialogueScript

open Text

/-! ## Moving tokens -/

def Token.relocate (g : Nat → Nat) (t : Token) : Token := { t with offset := g t.offset }

/-- A token that is moved keeps its value. -/
theorem Token.relocate_eq (g : Nat → Nat) : relocate g = recast id g := by
  funext t
  obtain ⟨o | v | name, depth, offset⟩ := t
  · rfl
  · rfl
  · rfl

theorem Token.settleSigns_relocate (g : Nat → Nat) (after : Bool) (ts : List Token) :
    settleSigns after (ts.map (relocate g)) = (settleSigns after ts).map (relocate g) := by
  rw [relocate_eq]
  exact settleSigns_recast id g after ts

namespace Plan

theorem mapValue_id (plan : Plan) : plan.mapValue id = plan := by
  have hoperand : ∀ operand : Option Operand, operand.map (Operand.mapValue id) = operand := by
    rintro (_ | (v | name | k))
    · rfl
    · rfl
    · rfl
    · rfl
  have hstep : ∀ s : Step, s.mapValue id = s := fun s => by
    rw [Step.mapValue, hoperand, hoperand]
  exact congrArg Plan.mk (List.map_id'' hstep plan.steps)

/-- A plan does not tell where its tokens stand. -/
theorem ofTokens_relocate (g : Nat → Nat) {ts : List Token} {plan : Plan}
    (h : ofTokens ts = .ok plan) : ofTokens (ts.map (Token.relocate g)) = .ok plan := by
  have hsame := ofTokens_recast id g ts
  rw [h, ← Token.relocate_eq] at hsame
  cases hmoved : ofTokens (ts.map (Token.relocate g)) with
  | error e =>
    rw [hmoved] at hsame
    exact nomatch hsame
  | ok moved =>
    rw [hmoved] at hsame
    exact congrArg Except.ok ((Option.some.inj hsame).trans plan.mapValue_id)

end Plan

/-! ## Blanks behind a text -/

namespace Token

theorem isSymbolChar_of_isBlank {c : Char} (h : isBlank c = true) :
    Operator.isSymbolChar c = false := by
  rw [Bool.eq_false_iff]
  intro hs
  obtain ⟨o, _, ho⟩ := List.any_eq_true.mp hs
  have hc : c ∈ o.symbol.toList := List.contains_iff_mem.mp ho
  have hnone : ∀ o : Operator, (o.symbol.toList.all fun c => !isBlank c) = true := by
    intro o
    cases o <;> decide
  have := List.all_eq_true.mp (hnone o) c hc
  rw [h] at this
  exact nomatch this

theorem numeral_append_blanks {after : List Char} (ha : allBlank after = true) (pointAllowed : Bool)
    (text : List Char) : numeral pointAllowed (text ++ after) = numeral pointAllowed text := by
  induction text generalizing pointAllowed with
  | nil =>
    cases after with
    | nil => rfl
    | cons c after =>
      have hc : isBlank c = true := List.all_eq_true.mp ha c List.mem_cons_self
      have hdigit : ¬c.isDigit = true := fun hd =>
        ne_of_class hc (isBlank_of_isNamePart (isNamePart_iff.mpr (Or.inr hd))) rfl
      have hpoint : c ≠ '.' := ne_of_class hc (by decide)
      show numeral pointAllowed (c :: after) = []
      rw [numeral, if_neg hdigit, decide_eq_false hpoint]
      rfl
  | cons c text ih => rw [List.cons_append, numeral, numeral, ih, ih]

theorem scanOperator_append_blanks {after : List Char} (ha : allBlank after = true) (c : Char)
    (rest : List Char) : scanOperator (c :: (rest ++ after)) = scanOperator (c :: rest) := by
  have hcandidate : ((c :: (rest ++ after)).take Operator.longestSymbol).takeWhile
      Operator.isSymbolChar = ((c :: rest).take Operator.longestSymbol).takeWhile
        Operator.isSymbolChar := by
    have hblank : allBlank (after.take (Operator.longestSymbol - (c :: rest).length)) = true :=
      List.all_eq_true.mpr fun d hd => List.all_eq_true.mp ha d (List.mem_of_mem_take hd)
    rw [← List.cons_append, List.take_append,
      takeWhile_append_blanks (fun _ => isSymbolChar_of_isBlank) hblank]
  unfold scanOperator
  simp only [hcandidate]
  rfl

/-- Blanks behind a text change no lexeme of it. -/
theorem recognize_append_blanks {after : List Char} (ha : allBlank after = true) (c : Char)
    (rest : List Char) :
    (recognize c (rest ++ after)).toOption = (recognize c rest).toOption := by
  have hkeyword : ∀ keyword : List Char, keyword.all isNamePart = true →
      beginsWithKeyword keyword (c :: (rest ++ after)) = beginsWithKeyword keyword (c :: rest) :=
    fun _ hk => beginsWithKeyword_append_blanks hk ha (c :: rest)
  have hnum := numeral_append_blanks ha true (c :: rest)
  rw [List.cons_append] at hnum
  unfold recognize
  rw [hkeyword _ (by decide), hkeyword _ (by decide), hnum, scanOperator_append_blanks ha,
    takeWhile_append_blanks (fun _ => isNamePart_of_isBlank) ha]
  split
  · rfl
  split
  · rfl
  split
  · rfl
  split
  · cases hcut : cutFirst? '\'' rest with
    | some cut =>
      obtain ⟨inside, tail⟩ := cut
      obtain ⟨rfl, hq⟩ := cutFirst?_eq_some_iff.mp hcut
      have : cutFirst? '\'' (inside ++ '\'' :: tail ++ after) = some (inside, tail ++ after) :=
        cutFirst?_eq_some_iff.mpr ⟨by rw [List.append_assoc, List.cons_append], hq⟩
      rw [this]
    | none =>
      -- Blanks do not close a string, so it stays unclosed.
      have hq : '\'' ∉ rest ++ after := by
        intro hm
        rcases List.mem_append.mp hm with hm | hm
        · exact cutFirst?_eq_none_iff.mp hcut hm
        · exact not_mem_of_all ha (by decide) hm
      rw [cutFirst?_eq_none_iff.mpr hq]
      rfl
  split
  · rfl
  · rfl

theorem recognize_append_eq {after : List Char} (ha : allBlank after = true) {c : Char}
    {rest : List Char} {found : Lexeme × Nat} (h : recognize c rest = .ok found) :
    recognize c (rest ++ after) = .ok found := by
  have hsame := recognize_append_blanks ha c rest
  rw [h] at hsame
  cases hrec : recognize c (rest ++ after) with
  | error e =>
    rw [hrec] at hsame
    exact nomatch hsame
  | ok found' =>
    rw [hrec] at hsame
    cases hsame
    rfl

theorem numeral_begins (pointAllowed : Bool) (text : List Char) :
    numeral pointAllowed text <+: text := by
  induction text generalizing pointAllowed with
  | nil => exact List.prefix_refl []
  | cons c text ih =>
    rw [numeral]
    split
    · exact (List.prefix_cons_inj c).mpr (ih pointAllowed)
    split
    · exact (List.prefix_cons_inj c).mpr (ih false)
    · exact List.nil_prefix

theorem length_le_of_scanOperator {text : List Char} {o : Operator} {width : Nat}
    (h : scanOperator text = .ok (o, width)) : width ≤ text.length := by
  have hle : ∀ {candidate : List Char} {n : Nat},
      Operator.longestMatch? candidate n = some (o, width) → width ≤ n := by
    intro candidate n hm
    induction n with
    | zero => cases hm
    | succ n ih =>
      rw [Operator.longestMatch?] at hm
      split at hm
      · cases hm
        exact Nat.le_refl _
      · exact Nat.le_succ_of_le (ih hm)
  unfold scanOperator at h
  simp only at h
  split at h
  · next hm =>
    cases h
    have hbegins := (List.takeWhile_prefix Operator.isSymbolChar).trans
      (List.take_prefix Operator.longestSymbol text)
    exact Nat.le_trans (hle hm) hbegins.length_le
  · cases h

/-- A lexeme lies within its text. -/
theorem length_le_of_recognize {c : Char} {rest : List Char} {lexeme : Lexeme} {more : Nat}
    (h : recognize c rest = .ok (lexeme, more)) : more ≤ rest.length := by
  have hkeyword : ∀ keyword : List Char, beginsWithKeyword keyword (c :: rest) = true →
      keyword.length ≤ rest.length + 1 := by
    intro keyword hk
    unfold beginsWithKeyword at hk
    rw [Bool.and_eq_true, List.isPrefixOf_iff_prefix] at hk
    exact hk.1.length_le
  unfold recognize at h
  split at h
  · next hk =>
    cases h
    exact Nat.le_of_succ_le_succ (hkeyword _ hk)
  split at h
  · next hk =>
    cases h
    exact Nat.le_of_succ_le_succ (hkeyword _ hk)
  split at h
  · cases h
    exact Nat.sub_le_of_le_add (numeral_begins true (c :: rest)).length_le
  split at h
  · split at h
    · next inside tail hcut =>
      cases h
      obtain ⟨rfl, _⟩ := cutFirst?_eq_some_iff.mp hcut
      rw [List.length_append, List.length_cons]
      omega
    · exact nomatch h
  split at h
  · cases h
    exact (List.takeWhile_prefix isNamePart).length_le
  · split at h
    · next o width hscan =>
      cases h
      exact Nat.sub_le_of_le_add (length_le_of_scanOperator hscan)
    · exact nomatch h

/-! ## Scanning between blanks -/

/-- Blanks behind a text change nothing about its tokens. -/
theorem scanFrom_append_blanks {after : List Char} (ha : allBlank after = true) (depth offset : Nat)
    (last : Option Lexeme) (text : List Char) :
    (scanFrom depth offset last (text ++ after)).toOption =
      (scanFrom depth offset last text).toOption := by
  fun_induction scanFrom depth offset last text with
  | case1 depth offset last =>
    have := scanFrom_blanks ha depth offset last []
    rw [List.append_nil, scanFrom] at this
    rw [List.nil_append, this]
  | case2 depth offset last c rest hb ih => rw [List.cons_append, scanFrom, if_pos hb, ih]
  | case3 depth offset last rest hb ih =>
    rw [List.cons_append, scanFrom, if_neg hb, if_pos rfl, ih]
  | case4 depth offset last rest hb hl ih =>
    rw [List.cons_append, scanFrom, if_neg hb, if_neg hl, if_pos rfl, ih]
  | case5 depth offset last c rest hb hl hr e hrec =>
    have hsame := recognize_append_blanks ha c rest
    rw [hrec] at hsame
    rw [List.cons_append, scanFrom, if_neg hb, if_neg hl, if_neg hr]
    cases hrec' : recognize c (rest ++ after) with
    | error e' => rfl
    | ok found =>
      rw [hrec'] at hsame
      cases hsame
  | case6 depth offset last c rest hb hl hr lexeme more hrec fault hfault =>
    rw [List.cons_append, scanFrom, if_neg hb, if_neg hl, if_neg hr, recognize_append_eq ha hrec]
    simp only [hfault]
  | case7 depth offset last c rest hb hl hr lexeme more hrec hnone ih =>
    have hdrop : (rest ++ after).drop more = rest.drop more ++ after :=
      List.drop_append_of_le_length (length_le_of_recognize hrec)
    rw [List.cons_append, scanFrom, if_neg hb, if_neg hl, if_neg hr, recognize_append_eq ha hrec]
    simp only [hnone, hdrop]
    rw [toOption_map, ih, toOption_map]

/-- Moved on as a whole, a text has the same tokens, moved on with it. -/
theorem scanFrom_relocate (k depth offset : Nat) (last : Option Lexeme) (text : List Char) :
    (scanFrom depth (offset + k) last text).toOption =
      (scanFrom depth offset last text).toOption.map (List.map (relocate (· + k))) := by
  fun_induction scanFrom depth offset last text with
  | case1 depth offset last =>
    rw [scanFrom]
    rfl
  | case2 depth offset last c rest hb ih => rw [scanFrom, if_pos hb, Nat.add_right_comm, ih]
  | case3 depth offset last rest hb ih =>
    rw [scanFrom, if_neg hb, if_pos rfl, Nat.add_right_comm, ih]
  | case4 depth offset last rest hb hl ih =>
    rw [scanFrom, if_neg hb, if_neg hl, if_pos rfl, Nat.add_right_comm, ih]
  | case5 depth offset last c rest hb hl hr e hrec =>
    rw [scanFrom, if_neg hb, if_neg hl, if_neg hr, hrec]
    rfl
  | case6 depth offset last c rest hb hl hr lexeme more hrec fault hfault =>
    rw [scanFrom, if_neg hb, if_neg hl, if_neg hr, hrec]
    simp only [hfault]
    rfl
  | case7 depth offset last c rest hb hl hr lexeme more hrec hnone ih =>
    have hnext : offset + k + 1 + more = offset + 1 + more + k := by omega
    rw [scanFrom, if_neg hb, if_neg hl, if_neg hr, hrec]
    simp only [hnone, hnext]
    rw [toOption_map, ih, toOption_map, Option.map_map, Option.map_map]
    rfl

theorem checkParentheses_append_blanks {after : List Char} (ha : allBlank after = true)
    (offset depth : Nat) (text : List Char) :
    (checkParentheses offset depth (text ++ after)).toOption =
      (checkParentheses offset depth text).toOption := by
  fun_induction checkParentheses offset depth text with
  | case1 offset =>
    have := balanced_blanks ha offset 0 []
    rw [List.append_nil, checkParentheses, if_pos rfl] at this
    rw [List.nil_append, this]
  | case2 offset depth hd =>
    have := balanced_blanks ha offset depth []
    rw [List.append_nil, checkParentheses, if_neg hd] at this
    rw [List.nil_append, this]
    rfl
  | case3 offset depth rest ih => rw [List.cons_append, checkParentheses, if_pos rfl, ih]
  | case4 offset rest hl => rw [List.cons_append, checkParentheses, if_neg hl, if_pos rfl, if_pos rfl]
  | case5 offset depth rest hl hd ih =>
    rw [List.cons_append, checkParentheses, if_neg hl, if_pos rfl, if_neg hd, ih]
  | case6 offset depth c rest hl hr ih =>
    rw [List.cons_append, checkParentheses, if_neg hl, if_neg hr, ih]

theorem checkParentheses_relocate (k offset depth : Nat) (text : List Char) :
    (checkParentheses (offset + k) depth text).toOption =
      (checkParentheses offset depth text).toOption := by
  fun_induction checkParentheses offset depth text with
  | case1 offset => rw [checkParentheses, if_pos rfl]
  | case2 offset depth hd =>
    rw [checkParentheses, if_neg hd]
    rfl
  | case3 offset depth rest ih => rw [checkParentheses, if_pos rfl, Nat.add_right_comm, ih]
  | case4 offset rest hl =>
    rw [checkParentheses, if_neg hl, if_pos rfl, if_pos rfl]
    rfl
  | case5 offset depth rest hl hd ih =>
    rw [checkParentheses, if_neg hl, if_pos rfl, if_neg hd, Nat.add_right_comm, ih]
  | case6 offset depth c rest hl hr ih =>
    rw [checkParentheses, if_neg hl, if_neg hr, Nat.add_right_comm, ih]

theorem toOption_scan (text : List Char) :
    (scan text).toOption =
      (checkParentheses 0 0 text).toOption.bind fun _ => (scanFrom 0 0 none text).toOption :=
  toOption_bind _ _

theorem scan_append_blanks {after : List Char} (ha : allBlank after = true) (text : List Char) :
    (scan (text ++ after)).toOption = (scan text).toOption := by
  rw [toOption_scan, toOption_scan, checkParentheses_append_blanks ha, scanFrom_append_blanks ha]

theorem scan_blanks_append {before : List Char} (hb : allBlank before = true) (text : List Char) :
    (scan (before ++ text)).toOption =
      (scan text).toOption.map (List.map (relocate (· + before.length))) := by
  rw [toOption_scan, toOption_scan, balanced_blanks hb, checkParentheses_relocate,
    scanFrom_blanks hb, scanFrom_relocate]
  cases checkParentheses 0 0 text with
  | error e => rfl
  | ok u => rfl

end Token

namespace Plan

theorem ofText_eq_ok_iff {text : List Char} {plan : Plan} : ofText text = .ok plan ↔
    ∃ ts, (Token.scan text).toOption = some ts ∧
      ofTokens (Token.settleSigns false ts) = .ok plan := by
  unfold ofText
  cases hs : Token.scan text with
  | error e =>
    constructor
    · exact fun h => nomatch h
    · exact fun ⟨_, h, _⟩ => nomatch h
  | ok ts =>
    constructor
    · exact fun h => ⟨ts, rfl, h⟩
    · rintro ⟨_, h, hp⟩
      cases h
      exact hp

/-- Blanks behind a text make no difference to its plan. -/
theorem ofText_append_blanks {text after : List Char} {plan : Plan} (ha : allBlank after = true) :
    ofText (text ++ after) = .ok plan ↔ ofText text = .ok plan := by
  rw [ofText_eq_ok_iff, ofText_eq_ok_iff, Token.scan_append_blanks ha]

/-- A text keeps its plan between blanks. -/
theorem ofText_padded {text before after : List Char} {plan : Plan} (hb : allBlank before = true)
    (ha : allBlank after = true) (h : ofText text = .ok plan) :
    ofText (before ++ (text ++ after)) = .ok plan := by
  obtain ⟨ts, hs, hp⟩ := ofText_eq_ok_iff.mp ((ofText_append_blanks ha).mpr h)
  refine ofText_eq_ok_iff.mpr ⟨ts.map (Token.relocate (· + before.length)), ?_, ?_⟩
  · rw [Token.scan_blanks_append hb, hs]
    rfl
  · rw [Token.settleSigns_relocate]
    exact ofTokens_relocate _ hp

end Plan

end DialogueScript
