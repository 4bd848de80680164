import DialogueScript.Proofs.Padding
import DialogueScript.Proofs.Positional.Access

/-!
# Tokens by positions

An expression scanned by indices into its characters: each recogniser begins at an index and
gives the index behind what it read. The characters of an operator symbol are cut off by
bytes; that these are whole characters rests on all of them being one byte long.

Main statement: `tokenize_eq`. Scanning by indices comes to an end on every text, with every
index and slice in range, and gives the tokens or the fault of `Token.scan`.
-/

namespace DialogueScript.Positional

open Text

/-! ## Parentheses -/

def checkParentheses (index depth : Nat) : List Char → Reading Unit
  | [] => if 0 < depth then throw (.atChar .unclosedParenthesis index) else return ()
  | c :: rest =>
    if c = '(' then checkParentheses (index + 1) (depth + 1) rest
    else if c = ')' then
      if depth = 0 then throw (.atChar .unopenedParenthesis index)
      else do
        let depth ← checked (sub? depth 1)
        checkParentheses (index + 1) depth rest
    else checkParentheses (index + 1) depth rest

theorem checkParentheses_eq (index depth : Nat) (text : List Char) :
    checkParentheses index depth text = done (Token.checkParentheses index depth text) := by
  fun_induction Token.checkParentheses index depth text with
  | case1 index => rfl
  | case2 index depth hd =>
    rw [checkParentheses, if_pos (Nat.pos_of_ne_zero hd)]
    rfl
  | case3 index depth rest ih => rw [checkParentheses, if_pos rfl, ih]
  | case4 index rest hl => rfl
  | case5 index depth rest hd hl ih =>
    have hpos : 1 ≤ depth := Nat.pos_of_ne_zero hd
    rw [checkParentheses, if_neg hl, if_pos rfl, if_neg hd, sub?_of_le hpos]
    exact ih
  | case6 index depth c rest hl hr ih => rw [checkParentheses, if_neg hl, if_neg hr, ih]

/-! ## Recognisers -/

/-- Whether a keyword stands at an index and no name character behind it. -/
def matchesKeyword (chars : List Char) (start : Nat) (keyword : List Char) : Option Bool :=
  let stop := start + keyword.length
  if stop ≤ chars.length then do
    let word ← slice? chars start stop
    return word = keyword && !chars[stop]?.any isNamePart
  else return false

def numeralEnd (chars : List Char) : (fuel stop : Nat) → (pointFound : Bool) → Option Nat
  | 0, _, _ => none
  | fuel + 1, stop, pointFound =>
    if stop < chars.length then do
      let c ← chars[stop]?
      if c = '.' then
        if pointFound then return stop else numeralEnd chars fuel (stop + 1) true
      else if c.isDigit then numeralEnd chars fuel (stop + 1) pointFound
      else return stop
    else return stop

def numeric (chars : List Char) (start : Nat) : Option (Lexeme × Nat) := do
  let stop ← numeralEnd chars (chars.length + 1) start false
  let digits ← slice? chars start stop
  return (.literal (.number (Number.ofNumeral digits)), stop)

def quoted (chars : List Char) (start : Nat) : Reading (Lexeme × Nat) := do
  let body ← checked (suffix? chars (start + 1))
  match body.findIdx? (· = '\'') with
  | none => throw (.atChar .unclosedString chars.length)
  | some width =>
    let close := start + 1 + width
    let inside ← checked (slice? chars (start + 1) close)
    return (.literal (.str (String.ofList inside)), close + 1)

def named (chars : List Char) (start : Nat) : Option (Lexeme × Nat) := do
  let rest ← suffix? chars start
  let stop := ((rest.findIdx? (!isNamePart ·)).map (start + ·)).getD chars.length
  let name ← slice? chars start stop
  return (.variable (String.ofList name), stop)

/-- The longest symbol among the first bytes of a candidate, shorter and shorter ones being
tried. -/
def longestSymbol (candidate : List Char) : Nat → Option (Option (Operator × Nat))
  | 0 => return none
  | width + 1 => do
    let symbol ← before? candidate (width + 1)
    match Operator.ofSymbol? symbol with
    | some o => return some (o, width + 1)
    | none => longestSymbol candidate width

def operatorAt (chars : List Char) (start : Nat) : Reading (Lexeme × Nat) := do
  let rest ← checked (suffix? chars start)
  let candidate := (rest.take Operator.longestSymbol).takeWhile Operator.isSymbolChar
  match ← checked (longestSymbol candidate (byteLength candidate)) with
  | some (o, width) => return (.operator o, start + width)
  | none =>
    if candidate.isEmpty then
      let c ← checked chars[start]?
      throw (.atChar (.invalidOperator (String.ofList [c])) start)
    else throw (.atChar (.invalidOperator (String.ofList candidate)) start)

/-- The lexeme that begins with the character `c` at an index. -/
def recognizeAt (chars : List Char) (start : Nat) (c : Char) : Reading (Lexeme × Nat) := do
  if ← checked (matchesKeyword chars start ['t', 'r', 'u', 'e']) then
    return (.literal (.bool true), start + 4)
  else if ← checked (matchesKeyword chars start ['f', 'a', 'l', 's', 'e']) then
    return (.literal (.bool false), start + 5)
  else if c.isDigit || c = '.' then checked (numeric chars start)
  else if c = '\'' then quoted chars start
  else if isNameStart c then checked (named chars start)
  else operatorAt chars start

/-- The next token from an index on, with the index behind it. -/
def nextToken (chars : List Char) : (fuel depth index : Nat) → Reading (Option (Token × Nat))
  | 0, _, _ => checked none
  | fuel + 1, depth, index =>
    if index < chars.length then do
      let c ← checked chars[index]?
      if isBlank c then nextToken chars fuel depth (index + 1)
      else if c = '(' then nextToken chars fuel (depth + 1) (index + 1)
      -- No underflow to check: this difference stops at zero by design.
      else if c = ')' then nextToken chars fuel (depth - 1) (index + 1)
      else
        let (lexeme, stop) ← recognizeAt chars index c
        return some (⟨lexeme, depth, index⟩, stop)
    else return none

/-- Scans from an index on, with the tokens found so far. -/
def tokenizeFrom (chars : List Char) :
    (fuel depth index : Nat) → (tokens : List Token) → Reading (List Token)
  | 0, _, _, _ => checked none
  | fuel + 1, depth, index, tokens => do
    match ← nextToken chars (chars.length + 1) depth index with
    | none => return tokens
    | some (token, stop) =>
      match Token.adjacencyFault? (tokens.getLast?.map Token.lexeme) token.lexeme with
      | some fault => throw (.atChar fault token.offset)
      | none => tokenizeFrom chars fuel token.depth stop (tokens ++ [token])

def tokenize (text : List Char) : Reading (List Token) := do
  checkParentheses 0 0 text
  tokenizeFrom text (text.length + 1) 0 0 []

/-! ## What the recognisers read -/

section

variable {chars rest : List Char} {start : Nat} {c : Char}

theorem matchesKeyword_eq (hs : start ≤ chars.length) (keyword : List Char) :
    matchesKeyword chars start keyword = some (beginsWithKeyword keyword (chars.drop start)) := by
  unfold matchesKeyword beginsWithKeyword
  have hlen : (chars.drop start).length = chars.length - start := List.length_drop
  by_cases hstop : start + keyword.length ≤ chars.length
  · rw [if_pos hstop, slice?_of_le (Nat.le_add_right _ _) hstop]
    have hword : (chars.take (start + keyword.length)).drop start =
        (chars.drop start).take keyword.length := by
      rw [List.drop_take, Nat.add_sub_cancel_left]
    have hprefix : keyword.isPrefixOf (chars.drop start) =
        decide ((chars.drop start).take keyword.length = keyword) := by
      rw [Bool.eq_iff_iff, List.isPrefixOf_iff_prefix, decide_eq_true_iff,
        List.prefix_iff_eq_take, eq_comm]
    rw [hword, hprefix, List.drop_drop, List.head?_drop]
    rfl
  · have hprefix : keyword.isPrefixOf (chars.drop start) = false := by
      rw [Bool.eq_false_iff]
      intro h
      have hle := (List.isPrefixOf_iff_prefix.mp h).length_le
      omega
    rw [if_neg hstop, hprefix]
    rfl

theorem numeralEnd_eq {fuel : Nat} (h : chars.drop start = rest) (hfuel : rest.length < fuel)
    (pointFound : Bool) :
    numeralEnd chars fuel start pointFound =
      some (start + (Token.numeral (!pointFound) rest).length) := by
  induction rest generalizing fuel start pointFound with
  | nil =>
    obtain ⟨fuel, rfl, hleft⟩ := exists_round_of_lt hfuel
    have hstop : ¬start < chars.length := Nat.not_lt.mpr (List.drop_eq_nil_iff.mp h)
    rw [numeralEnd, if_neg hstop]
    rfl
  | cons c rest ih =>
    have hlt := lt_length_of_drop_eq_cons h
    have hget : chars[start]? = some c := getElem?_of_drop h
    obtain ⟨fuel, rfl, hleft⟩ := exists_round_of_lt hfuel
    have ih := ih (drop_add_one h) hleft
    rw [numeralEnd, if_pos hlt, hget, Token.numeral]
    by_cases hpoint : c = '.'
    · subst hpoint
      cases pointFound with
      | true => rfl
      | false => simpa [Nat.add_assoc, Nat.add_comm 1] using ih true
    · by_cases hdigit : c.isDigit = true
      · simpa [hpoint, hdigit, Nat.add_assoc, Nat.add_comm 1] using ih pointFound
      · simp [hpoint, hdigit]

theorem numeric_eq (h : chars.drop start = rest) (hs : start ≤ chars.length) :
    numeric chars start = some (.literal (.number (Number.ofNumeral (Token.numeral true rest))),
      start + (Token.numeral true rest).length) := by
  obtain ⟨behind, hbehind⟩ := Token.numeral_begins true rest
  have hslice : slice? chars start (start + (Token.numeral true rest).length) =
      some (Token.numeral true rest) := slice?_append (h.trans hbehind.symm) hs
  have hend := numeralEnd_eq h (Nat.lt_succ_of_le (length_le_of_drop_eq h)) false
  rw [Bool.not_false] at hend
  simp only [numeric, hend, hslice, Option.pure_def, Option.bind_eq_bind, Option.bind_some]

theorem quoted_eq (h : chars.drop start = c :: rest) :
    quoted chars start =
      done (match cutFirst? '\'' rest with
        | some (inside, _) =>
          .ok (.literal (.str (String.ofList inside)), start + 1 + (inside.length + 1))
        | none => .error (.atChar .unclosedString (rest.length + 1 + start))) := by
  have hlt := lt_length_of_drop_eq_cons h
  have hbody : chars.drop (start + 1) = rest := drop_add_one h
  unfold quoted
  rw [suffix?_of_le hlt, hbody, checked_some, done_ok_bind, findIdx?_eq_cutFirst?]
  cases hcut : cutFirst? '\'' rest with
  | none =>
    have hlen := congrArg List.length h
    rw [List.length_drop, List.length_cons] at hlen
    have hend : chars.length = rest.length + 1 + start := by omega
    rw [hend]
    rfl
  | some cut =>
    obtain ⟨inside, behind⟩ := cut
    obtain ⟨rfl, _⟩ := cutFirst?_eq_some_iff.mp hcut
    have hslice : slice? chars (start + 1) (start + 1 + inside.length) = some inside :=
      slice?_append hbody hlt
    simp only [Option.map_some, hslice]
    rfl

theorem named_eq (h : chars.drop start = rest) (hs : start ≤ chars.length) :
    named chars start = some (.variable (String.ofList (rest.takeWhile isNamePart)),
      start + (rest.takeWhile isNamePart).length) := by
  have hlen := congrArg List.length h
  rw [List.length_drop] at hlen
  have hend : chars.length = start + rest.length := by omega
  have hstop : ((rest.findIdx? (!isNamePart ·)).map (start + ·)).getD chars.length =
      start + (rest.takeWhile isNamePart).length := by
    rw [hend, Option.getD_map, findIdx?_getD_eq_takeWhile]
  have hcut : chars.drop start = rest.takeWhile isNamePart ++ rest.dropWhile isNamePart :=
    h.trans List.takeWhile_append_dropWhile.symm
  unfold named
  rw [suffix?_of_le hs, h]
  simp only [Option.bind_eq_bind, Option.bind_some, Option.pure_def]
  rw [hstop, slice?_append hcut hs]
  rfl

/-! ## Operators -/

theorem utf8Size_of_isSymbolChar (h : Operator.isSymbolChar c = true) : c.utf8Size = 1 := by
  have hsymbol : ∀ o : Operator, o.symbol.toList.all (·.utf8Size = 1) = true := by
    intro o
    cases o <;> decide
  obtain ⟨o, _, hc⟩ := List.any_eq_true.mp h
  exact of_decide_eq_true (List.all_eq_true.mp (hsymbol o) c (List.contains_iff_mem.mp hc))

/-- In a text of one-byte characters, bytes and characters are counted alike. -/
theorem before?_of_utf8Size {text : List Char} (h : ∀ d ∈ text, d.utf8Size = 1) {width : Nat}
    (hw : width ≤ text.length) : before? text width = some (text.take width) := by
  have hbytes : byteLength (text.take width) = width := by
    rw [byteLength_eq_length fun d hd => h d (List.mem_of_mem_take hd), List.length_take,
      Nat.min_eq_left hw]
  have := before?_append (text.take width) (text.drop width)
  rwa [hbytes, List.take_append_drop] at this

theorem longestSymbol_eq {candidate : List Char} (h : ∀ d ∈ candidate, d.utf8Size = 1) {width : Nat}
    (hw : width ≤ candidate.length) :
    longestSymbol candidate width = some (Operator.longestMatch? candidate width) := by
  induction width with
  | zero => rfl
  | succ width ih =>
    rw [longestSymbol, Operator.longestMatch?, before?_of_utf8Size h hw]
    simp only [Option.bind_eq_bind, Option.bind_some]
    cases Operator.ofSymbol? (candidate.take (width + 1)) with
    | some o => rfl
    | none => exact ih (Nat.le_of_succ_le hw)

theorem operatorAt_eq (h : chars.drop start = c :: rest) :
    operatorAt chars start =
      done (match Token.scanOperator (c :: rest) with
        | .ok (o, width) => .ok (.operator o, start + width)
        | .error fault => .error (.atChar fault start)) := by
  have hlt := lt_length_of_drop_eq_cons h
  unfold operatorAt Token.scanOperator
  rw [suffix?_of_le hlt.le, h, checked_some, done_ok_bind]
  generalize hc : ((c :: rest).take Operator.longestSymbol).takeWhile Operator.isSymbolChar =
    candidate
  have hbytes : ∀ d ∈ candidate, d.utf8Size = 1 := by
    subst hc
    exact fun d hd => utf8Size_of_isSymbolChar (List.mem_takeWhile_imp hd)
  simp only [byteLength_eq_length hbytes, longestSymbol_eq hbytes (Nat.le_refl _), checked_some,
    done_ok_bind]
  cases Operator.longestMatch? candidate candidate.length with
  | some found => rfl
  | none =>
    cases candidate with
    | nil =>
      have hget : chars[start]? = some c := getElem?_of_drop h
      rw [hget]
      rfl
    | cons d ds => rfl

theorem width_pos_of_longestMatch? {candidate : List Char} {n width : Nat} {o : Operator}
    (h : Operator.longestMatch? candidate n = some (o, width)) : 0 < width := by
  induction n with
  | zero => exact nomatch h
  | succ n ih =>
    rw [Operator.longestMatch?] at h
    split at h
    · cases h
      exact Nat.succ_pos n
    · exact ih h

theorem width_pos_of_scanOperator {text : List Char} {o : Operator} {width : Nat}
    (h : Token.scanOperator text = .ok (o, width)) : 0 < width := by
  unfold Token.scanOperator at h
  simp only at h
  split at h
  · next found hfound =>
    cases h
    exact width_pos_of_longestMatch? hfound
  · exact nomatch h

/-! ## Lexemes -/

theorem numeral_length_pos (rest : List Char) (h : (c.isDigit || c = '.') = true) :
    0 < (Token.numeral true (c :: rest)).length := by
  rw [Token.numeral]
  by_cases hdigit : c.isDigit = true
  · rw [if_pos hdigit]
    exact Nat.succ_pos _
  · rw [if_neg hdigit, if_pos (by simpa [hdigit] using h)]
    exact Nat.succ_pos _

theorem recognizeAt_eq (h : chars.drop start = c :: rest) :
    recognizeAt chars start c =
      done (((Token.recognize c rest).map fun (lexeme, more) => (lexeme, start + 1 + more)).mapError
        fun e => e.shift start) := by
  have hlt := lt_length_of_drop_eq_cons h
  unfold recognizeAt Token.recognize
  simp only [matchesKeyword_eq hlt.le, h, checked_some, done_ok_bind]
  split
  · rfl
  split
  · rfl
  split
  · next hdigit =>
    have hwidth := Nat.add_sub_cancel' (numeral_length_pos rest hdigit)
    simp only [Except.map, Except.mapError]
    rw [numeric_eq h hlt.le, Nat.add_assoc, hwidth]
    rfl
  split
  · rw [quoted_eq h]
    cases cutFirst? '\'' rest with
    | none => rfl
    | some cut => rfl
  split
  · next hname =>
    have hpart : isNamePart c = true := isNamePart_iff.mpr (.inl hname)
    rw [named_eq h hlt.le, List.takeWhile_cons, if_pos hpart]
    simp [Except.map, Except.mapError, Nat.add_assoc, Nat.add_comm 1]
  · rw [operatorAt_eq h]
    cases hscan : Token.scanOperator (c :: rest) with
    | error fault => simp [Except.map, Except.mapError, Located.shift, Located.atChar, Position.atChar]
    | ok found =>
      obtain ⟨o, width⟩ := found
      have hwidth := Nat.add_sub_cancel' (width_pos_of_scanOperator hscan)
      show _ = done (.ok (Lexeme.operator o, start + 1 + (width - 1)))
      rw [Nat.add_assoc, hwidth]

/-! ## Scanning -/

/-- Fuel beyond the characters that are left makes no difference. -/
theorem nextToken_fuel {text : List Char} {fuel fuel' : Nat} (h : chars.drop start = text)
    (hf : text.length < fuel) (hf' : text.length < fuel') (depth : Nat) :
    nextToken chars fuel depth start = nextToken chars fuel' depth start := by
  induction text generalizing fuel fuel' start depth with
  | nil =>
    obtain ⟨fuel, rfl, hl⟩ := exists_round_of_lt hf
    obtain ⟨fuel', rfl, hl'⟩ := exists_round_of_lt hf'
    have hstop : ¬start < chars.length := Nat.not_lt.mpr (List.drop_eq_nil_iff.mp h)
    rw [nextToken, nextToken, if_neg hstop, if_neg hstop]
  | cons c rest ih =>
    obtain ⟨fuel, rfl, hl⟩ := exists_round_of_lt hf
    obtain ⟨fuel', rfl, hl'⟩ := exists_round_of_lt hf'
    have ih := ih (drop_add_one h) hl hl'
    simp only [nextToken, ih]

theorem nextToken_cons (h : chars.drop start = c :: rest) (depth : Nat) :
    nextToken chars (chars.length + 1) depth start =
      if isBlank c then nextToken chars (chars.length + 1) depth (start + 1)
      else if c = '(' then nextToken chars (chars.length + 1) (depth + 1) (start + 1)
      else if c = ')' then nextToken chars (chars.length + 1) (depth - 1) (start + 1)
      else do
        let (lexeme, stop) ← recognizeAt chars start c
        return some (⟨lexeme, depth, start⟩, stop) := by
  have hget : chars[start]? = some c := getElem?_of_drop h
  have hlen : rest.length < chars.length := length_le_of_drop_eq h
  have hfuel : ∀ depth, nextToken chars chars.length depth (start + 1) =
      nextToken chars (chars.length + 1) depth (start + 1) :=
    nextToken_fuel (drop_add_one h) hlen (Nat.lt_succ_of_lt hlen)
  rw [nextToken, if_pos (lt_length_of_drop_eq_cons h), hget, hfuel, hfuel, hfuel]
  rfl

theorem tokenizeFrom_congr {depth depth' index index' : Nat}
    (h : nextToken chars (chars.length + 1) depth index =
      nextToken chars (chars.length + 1) depth' index') (fuel : Nat) (tokens : List Token) :
    tokenizeFrom chars fuel depth index tokens = tokenizeFrom chars fuel depth' index' tokens := by
  cases fuel with
  | zero => rfl
  | succ fuel => rw [tokenizeFrom, h, ← tokenizeFrom]

theorem tokenizeFrom_eq {fuel depth index : Nat} {last : Option Lexeme} {text : List Char}
    (h : chars.drop index = text) (hfuel : text.length < fuel) {tokens : List Token}
    (hlast : tokens.getLast?.map Token.lexeme = last) :
    tokenizeFrom chars fuel depth index tokens =
      done ((Token.scanFrom depth index last text).map (tokens ++ ·)) := by
  fun_induction Token.scanFrom depth index last text generalizing fuel tokens with
  | case1 depth index last =>
    obtain ⟨fuel, rfl, hleft⟩ := exists_round_of_lt hfuel
    have hstop : ¬index < chars.length := Nat.not_lt.mpr (List.drop_eq_nil_iff.mp h)
    rw [tokenizeFrom, nextToken, if_neg hstop]
    simp [Except.map]
  | case2 depth index last c rest hb ih =>
    have hstep : nextToken chars (chars.length + 1) depth index =
        nextToken chars (chars.length + 1) depth (index + 1) := by
      rw [nextToken_cons h, if_pos hb]
    rw [tokenizeFrom_congr hstep, ih (drop_add_one h) (Nat.lt_of_succ_lt hfuel) hlast]
  | case3 depth index last rest hb ih =>
    have hstep : nextToken chars (chars.length + 1) depth index =
        nextToken chars (chars.length + 1) (depth + 1) (index + 1) := by
      rw [nextToken_cons h, if_neg hb, if_pos rfl]
    rw [tokenizeFrom_congr hstep, ih (drop_add_one h) (Nat.lt_of_succ_lt hfuel) hlast]
  | case4 depth index last rest hb hl ih =>
    have hstep : nextToken chars (chars.length + 1) depth index =
        nextToken chars (chars.length + 1) (depth - 1) (index + 1) := by
      rw [nextToken_cons h, if_neg hb, if_neg hl, if_pos rfl]
    rw [tokenizeFrom_congr hstep, ih (drop_add_one h) (Nat.lt_of_succ_lt hfuel) hlast]
  | case5 depth index last c rest hb hl hr e he =>
    obtain ⟨fuel, rfl, hleft⟩ := exists_round_of_lt hfuel
    rw [tokenizeFrom, nextToken_cons h, if_neg hb, if_neg hl, if_neg hr, recognizeAt_eq h, he]
    rfl
  | case6 depth index last c rest hb hl hr lexeme more hrec fault hfault =>
    obtain ⟨fuel, rfl, hleft⟩ := exists_round_of_lt hfuel
    rw [tokenizeFrom, nextToken_cons h, if_neg hb, if_neg hl, if_neg hr, recognizeAt_eq h, hrec]
    simp only [Except.map, Except.mapError, done_ok_bind, pure_eq_done, hlast, hfault]
    rfl
  | case7 depth index last c rest hb hl hr lexeme more hrec hnone ih =>
    obtain ⟨fuel, rfl, hleft⟩ := exists_round_of_lt hfuel
    have hdrop : chars.drop (index + 1 + more) = rest.drop more := by
      rw [← List.drop_drop, drop_add_one h]
    have hless : (rest.drop more).length < fuel :=
      Nat.lt_of_le_of_lt (length_le_of_drop_eq rfl) hleft
    rw [tokenizeFrom, nextToken_cons h, if_neg hb, if_neg hl, if_neg hr, recognizeAt_eq h, hrec]
    simp only [Except.map.eq_2, Except.mapError, done_ok_bind, pure_eq_done, hlast, hnone]
    rw [ih hdrop hless (by simp), ← Token.map_append_map]
    rfl

/-- Scanning by indices reads what scanning the list of characters reads. -/
theorem tokenize_eq (text : List Char) : tokenize text = done (Token.scan text) := by
  have hscan : tokenizeFrom text (text.length + 1) 0 0 [] = done (Token.scanFrom 0 0 none text) := by
    rw [tokenizeFrom_eq List.drop_zero (Nat.lt_succ_self _) rfl]
    exact congrArg done (congrFun Except.map_id _)
  rw [tokenize, checkParentheses_eq, hscan]
  exact done_bind_done _ _

end

end DialogueScript.Positional
