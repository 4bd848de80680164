import DialogueScript.Proofs.Scanning

/-!
# What a lexeme is read from

The recognisers of the scanner are tried one after another, and each takes as much as it can.
Here it is said without an order of trials which characters make which lexeme, and what may
stand behind them. The recognisers together do exactly that, and a scan that succeeds is a walk
over blanks, parentheses and such lexemes.

Main statements:
1. `Token.recognize_eq_ok_iff`: what is recognised is a lexeme, and every lexeme is recognised.
2. `Token.Lexes.unique`: the characters of a lexeme alone tell which one it is.
3. `Token.scanFrom_eq_ok_iff`: the scans that succeed.
-/

namespace DialogueScript

open Text

/-- Two variables, or two literals. -/
def Lexeme.Clash : Lexeme → Lexeme → Prop
  | .variable _, .variable _ => True
  | .literal _, .literal _ => True
  | _, _ => False

namespace Token

/-! ## Lexemes and their characters -/

/-- The characters are a lexeme if the text stands behind them. -/
inductive Lexes : List Char → List Char → Lexeme → Prop
  | bool {rest : List Char} (b : Bool) :
      NameStops rest → Lexes (Atom.bool b).text rest (.literal (.bool b))
  | numeral {span rest : List Char} :
      IsNumeral span → NumeralStops span rest →
      Lexes span rest (.literal (.number (Number.ofDecimal (Decimal.ofNumeral span))))
  /-- A point alone is a numeral without a value. -/
  | point {rest : List Char} :
      NumeralStops ['.'] rest → Lexes ['.'] rest (.literal (.number Number.nan))
  | string {inside rest : List Char} :
      '\'' ∉ inside → Lexes ('\'' :: (inside ++ ['\''])) rest (.literal (.str (String.ofList inside)))
  | name {name rest : List Char} :
      IsVariable name → NameStops rest → Lexes name rest (.variable (String.ofList name))
  /-- No longer symbol stands there. A `-` is a subtraction as long as nothing tells otherwise. -/
  | operator {o : Operator} {rest : List Char} :
      o ≠ .negate →
      (∀ o' : Operator, o'.symbol.toList <+: o.symbol.toList ++ rest →
        o'.symbol.toList.length ≤ o.symbol.toList.length) →
      Lexes o.symbol.toList rest (.operator o)

/-- What is a lexeme before some text is the same lexeme at the end of a text. -/
theorem Lexes.alone {span rest : List Char} {lexeme : Lexeme} (h : Lexes span rest lexeme) :
    Lexes span [] lexeme := by
  have hnone : ∀ {P : Char → Prop} (c : Char), [].head? = some c → P c := fun _ h => nomatch h
  cases h with
  | bool b _ => exact .bool b hnone
  | numeral hn _ => exact .numeral hn hnone
  | point _ => exact .point hnone
  | string hq => exact .string hq
  | name hv _ => exact .name hv hnone
  | operator ho _ =>
    refine .operator ho fun o' ho' => ?_
    rw [List.append_nil] at ho'
    exact ho'.length_le

/-! ## Recognising -/

/-- Digits with at most one point are a numeral, or they are a point. -/
theorem isNumeral_or_eq_point {span : List Char} (hne : span ≠ [])
    (hd : ∀ c ∈ span, c.isDigit = true ∨ c = '.') (hp : span.count '.' ≤ 1) :
    IsNumeral span ∨ span = ['.'] := by
  by_cases hdigit : ∃ c ∈ span, c.isDigit = true
  · exact Or.inl ⟨hd, hp, hdigit⟩
  · right
    have hall : ∀ c ∈ span, c = '.' := fun c hc =>
      (hd c hc).resolve_left fun hc' => hdigit ⟨c, hc, hc'⟩
    have hspan : span = List.replicate span.length '.' := List.eq_replicate_of_mem hall
    have hlen : span.length ≤ 1 := by
      rwa [hspan, List.count_replicate_self] at hp
    rw [hspan, Nat.le_antisymm hlen (List.length_pos_iff.mpr hne)]
    rfl

theorem ofNumeral_eq {span : List Char} (h : IsNumeral span) :
    Number.ofNumeral span = Number.ofDecimal (Decimal.ofNumeral span) := by
  rw [Number.ofNumeral, h.ofText?_eq]

theorem lexes_digits {span rest : List Char} (hne : span ≠ [])
    (hd : ∀ c ∈ span, c.isDigit = true ∨ c = '.') (hp : span.count '.' ≤ 1)
    (hr : NumeralStops span rest) :
    Lexes span rest (.literal (.number (Number.ofNumeral span))) := by
  rcases isNumeral_or_eq_point hne hd hp with hn | rfl
  · rw [ofNumeral_eq hn]
    exact .numeral hn hr
  · exact .point hr

/-- Every lexeme is recognised, with all its characters and no more. -/
theorem Lexes.recognize {span rest : List Char} {lexeme : Lexeme} (h : Lexes span rest lexeme) :
    ∃ c more, span = c :: more ∧ Opens c ∧
      recognize c (more ++ rest) = .ok (lexeme, more.length) := by
  have hdigits : ∀ {c : Char} {more : List Char}, (∀ d ∈ c :: more, d.isDigit = true ∨ d = '.') →
      Opens c := by
    intro c more hd
    rcases hd c List.mem_cons_self with hc | rfl
    · exact opens_of_isNamePart (isNamePart_iff.mpr (Or.inr hc))
    · exact ⟨by decide, by decide, by decide⟩
  cases h with
  | bool b hr =>
    obtain ⟨c, more, htext, hstart, hrec⟩ := recognize_bool hr
    exact ⟨c, more, htext, opens_of_isNamePart (isNamePart_iff.mpr (Or.inl hstart)), hrec⟩
  | numeral hn hr =>
    obtain ⟨d, hd, _⟩ := hn.digit
    obtain ⟨c, more, rfl⟩ := List.exists_cons_of_ne_nil (List.ne_nil_of_mem hd)
    rw [← ofNumeral_eq hn]
    exact ⟨c, more, rfl, hdigits hn.digits, recognize_digits hn.digits hn.points hr⟩
  | point hr =>
    have hd : ∀ d ∈ ['.'], d.isDigit = true ∨ d = '.' := fun d hd => Or.inr (List.mem_singleton.mp hd)
    exact ⟨'.', [], rfl, hdigits hd, recognize_digits hd (Nat.le_refl 1) hr⟩
  | @string inside _ hq =>
    refine ⟨'\'', inside ++ ['\''], rfl, ⟨by decide, by decide, by decide⟩, ?_⟩
    rw [List.append_assoc, List.length_append]
    exact recognize_string hq rest
  | name hv hr =>
    obtain ⟨c, more, rfl, hstart, _⟩ := hv.shape
    exact ⟨c, more, rfl, opens_of_isNamePart (isNamePart_iff.mpr (Or.inl hstart)),
      recognize_variable hv hr⟩
  | @operator o _ ho hlonger =>
    obtain ⟨c, more, hsymbol, hopens, _, _, _, hrec⟩ := o.symbol_eq_cons
    have hscan := scanOperator_eq_ok_iff.mpr ⟨ho, rfl, List.prefix_append _ rest, hlonger⟩
    rw [hsymbol, List.cons_append] at hscan
    refine ⟨c, more, hsymbol, hopens, ?_⟩
    rw [hrec, hscan]
    rfl

/-- What the numeral at the front of a text leaves behind it does not continue it. -/
theorem numeral_spec (pointAllowed : Bool) (text : List Char) :
    (∀ c ∈ numeral pointAllowed text, c.isDigit = true ∨ c = '.') ∧
    ((numeral pointAllowed text).count '.' ≤ if pointAllowed then 1 else 0) ∧
    ∃ rest, text = numeral pointAllowed text ++ rest ∧ ∀ c, rest.head? = some c →
      c.isDigit = false ∧ (c = '.' → pointAllowed = true → '.' ∈ numeral pointAllowed text) := by
  induction text generalizing pointAllowed with
  | nil =>
    exact ⟨fun c hc => absurd hc List.not_mem_nil, Nat.zero_le _, [], rfl, fun c hc => nomatch hc⟩
  | cons c text ih =>
    rw [numeral]
    split
    · next hd =>
      obtain ⟨hchars, hpoints, rest, htext, hstop⟩ := ih pointAllowed
      refine ⟨List.forall_mem_cons.mpr ⟨Or.inl hd, hchars⟩, ?_, rest, ?_, fun d hc => ?_⟩
      · rwa [List.count_cons_of_ne (ne_of_class hd (by decide))]
      · rw [List.cons_append, ← htext]
      · exact ⟨(hstop d hc).1, fun hp ha => List.mem_cons_of_mem _ ((hstop d hc).2 hp ha)⟩
    split
    · next hd hp =>
      rw [Bool.and_eq_true, decide_eq_true_eq] at hp
      obtain ⟨hchars, hpoints, rest, htext, hstop⟩ := ih false
      obtain ⟨rfl, rfl⟩ := hp
      refine ⟨List.forall_mem_cons.mpr ⟨Or.inr rfl, hchars⟩, ?_, rest, ?_, fun d hc => ?_⟩
      · rw [List.count_cons_self]
        exact Nat.succ_le_succ hpoints
      · rw [List.cons_append, ← htext]
      · exact ⟨(hstop d hc).1, fun _ _ => List.mem_cons_self⟩
    · next hd hp =>
      refine ⟨fun d hm => absurd hm List.not_mem_nil, Nat.zero_le _, c :: text, rfl, fun d hc => ?_⟩
      cases hc
      refine ⟨Bool.eq_false_iff.mpr hd, fun hpoint ha => absurd ?_ hp⟩
      rw [ha, decide_eq_true hpoint]
      rfl

/-- A keyword that a text begins with is followed by what continues no name. -/
theorem exists_of_beginsWithKeyword {keyword text : List Char} (hk : keyword.all isNamePart = true)
    (h : beginsWithKeyword keyword text = true) : ∃ rest, text = keyword ++ rest ∧ NameStops rest := by
  refine ⟨text.dropWhile isNamePart, ?_, nameStops_dropWhile text⟩
  rw [← (beginsWithKeyword_iff hk).mp h, List.takeWhile_append_dropWhile]

/-- What is recognised is a lexeme. -/
theorem lexes_of_recognize {c : Char} {rest : List Char} {lexeme : Lexeme} {width : Nat}
    (h : recognize c rest = .ok (lexeme, width)) :
    ∃ more after, rest = more ++ after ∧ width = more.length ∧ Lexes (c :: more) after lexeme := by
  unfold Token.recognize at h
  split at h
  · next hk =>
    cases h
    obtain ⟨after, htext, hstop⟩ := exists_of_beginsWithKeyword (by decide) hk
    cases htext
    exact ⟨['r', 'u', 'e'], after, rfl, rfl, .bool true hstop⟩
  next htrue =>
  split at h
  · next hk =>
    cases h
    obtain ⟨after, htext, hstop⟩ := exists_of_beginsWithKeyword (by decide) hk
    cases htext
    exact ⟨['a', 'l', 's', 'e'], after, rfl, rfl, .bool false hstop⟩
  next hfalse =>
  split at h
  · next hc =>
    cases h
    obtain ⟨hchars, hpoints, after, htext, hstop⟩ := numeral_spec true (c :: rest)
    have hne : numeral true (c :: rest) ≠ [] := by
      rw [numeral]
      rcases Bool.or_eq_true _ _ ▸ hc with hd | hp
      · rw [if_pos hd]
        exact List.cons_ne_nil _ _
      · rw [of_decide_eq_true hp]
        exact List.cons_ne_nil _ _
    obtain ⟨d, more, hnumeral⟩ := List.exists_cons_of_ne_nil hne
    rw [hnumeral] at hchars hpoints htext hstop ⊢
    cases htext
    refine ⟨more, after, rfl, rfl, lexes_digits (List.cons_ne_nil _ _) hchars hpoints fun d hd => ?_⟩
    exact ⟨(hstop d hd).1, fun hp => (hstop d hd).2 hp rfl⟩
  split at h
  · next hc =>
    split at h
    · next inside tail hcut =>
      cases h
      obtain ⟨rfl, hq⟩ := cutFirst?_eq_some_iff.mp hcut
      refine ⟨inside ++ ['\''], tail, ?_, ?_, hc ▸ .string hq⟩
      · rw [List.append_assoc, List.singleton_append]
      · rw [List.length_append, List.length_singleton]
    · cases h
  split at h
  · next hstart =>
    cases h
    have htake : (c :: rest).takeWhile isNamePart = c :: rest.takeWhile isNamePart :=
      List.takeWhile_cons_of_pos (isNamePart_iff.mpr (Or.inl hstart))
    have hkeyword : ∀ keyword : List Char, keyword.all isNamePart = true →
        ¬beginsWithKeyword keyword (c :: rest) = true → c :: rest.takeWhile isNamePart ≠ keyword :=
      fun keyword hk hnot heq => hnot ((beginsWithKeyword_iff hk).mpr (htake.trans heq))
    refine ⟨rest.takeWhile isNamePart, rest.dropWhile isNamePart,
      List.takeWhile_append_dropWhile.symm, rfl, .name ?_ (nameStops_dropWhile rest)⟩
    exact ⟨⟨c, _, rfl, hstart, fun d hd => List.all_eq_true.mp List.all_takeWhile d hd⟩,
      hkeyword _ (by decide) htrue, hkeyword _ (by decide) hfalse⟩
  · split at h
    · next o width hscan =>
      cases h
      obtain ⟨ho, rfl, ⟨after, htext⟩, hlonger⟩ := scanOperator_eq_ok_iff.mp hscan
      have hlexes : Lexes o.symbol.toList after (.operator o) :=
        .operator ho fun o' ho' => hlonger o' (htext ▸ ho')
      obtain ⟨d, more, hsymbol, -⟩ := o.symbol_eq_cons
      rw [hsymbol] at htext hlexes ⊢
      cases htext
      exact ⟨more, after, rfl, rfl, hlexes⟩
    · cases h

/-- What is recognised is a lexeme, and every lexeme is recognised. -/
theorem recognize_eq_ok_iff {c : Char} {rest : List Char} {lexeme : Lexeme} {width : Nat} :
    Token.recognize c rest = .ok (lexeme, width) ↔
      ∃ more after, rest = more ++ after ∧ width = more.length ∧ Lexes (c :: more) after lexeme := by
  refine ⟨lexes_of_recognize, ?_⟩
  rintro ⟨more, after, rfl, rfl, h⟩
  obtain ⟨d, more', hspan, _, hrec⟩ := h.recognize
  cases hspan
  exact hrec

/-- The characters of a lexeme alone tell which one it is. -/
theorem Lexes.unique {span rest rest' : List Char} {l l' : Lexeme} (h : Lexes span rest l)
    (h' : Lexes span rest' l') : l = l' := by
  obtain ⟨c, more, rfl, _, hrec⟩ := h.alone.recognize
  obtain ⟨_, _, hspan, _, hrec'⟩ := h'.alone.recognize
  cases hspan
  rw [hrec] at hrec'
  cases hrec'
  rfl

/-! ## Scans -/

theorem adjacencyFault?_eq_none_iff {last : Option Lexeme} {lexeme : Lexeme} :
    adjacencyFault? last lexeme = none ↔ ∀ l, last = some l → ¬l.Clash lexeme := by
  rcases last with _ | (o | v | name) <;> rcases lexeme with (o' | v' | name') <;>
    simp [adjacencyFault?, Lexeme.Clash]

/-- A scan at a depth and an offset, behind a lexeme if there was one, finds the tokens in the
text. -/
inductive Scanned : Nat → Nat → Option Lexeme → List Char → List Token → Prop
  | nil {depth offset : Nat} {last : Option Lexeme} : Scanned depth offset last [] []
  | blank {depth offset : Nat} {last : Option Lexeme} {c : Char} {rest : List Char}
      {tokens : List Token} :
      isBlank c = true → Scanned depth (offset + 1) last rest tokens →
      Scanned depth offset last (c :: rest) tokens
  | left {depth offset : Nat} {last : Option Lexeme} {rest : List Char} {tokens : List Token} :
      Scanned (depth + 1) (offset + 1) last rest tokens →
      Scanned depth offset last ('(' :: rest) tokens
  | right {depth offset : Nat} {last : Option Lexeme} {rest : List Char} {tokens : List Token} :
      Scanned (depth - 1) (offset + 1) last rest tokens →
      Scanned depth offset last (')' :: rest) tokens
  | lexeme {depth offset : Nat} {last : Option Lexeme} {lexeme : Lexeme} {span rest : List Char}
      {tokens : List Token} :
      Lexes span rest lexeme → (∀ l, last = some l → ¬l.Clash lexeme) →
      Scanned depth (offset + span.length) (some lexeme) rest tokens →
      Scanned depth offset last (span ++ rest) (⟨lexeme, depth, offset⟩ :: tokens)

theorem scanned_of_scanFrom {depth offset : Nat} {last : Option Lexeme} {text : List Char}
    {tokens : List Token} (h : scanFrom depth offset last text = .ok tokens) :
    Scanned depth offset last text tokens := by
  fun_induction scanFrom depth offset last text generalizing tokens with
  | case1 depth offset last =>
    cases h
    exact .nil
  | case2 depth offset last c rest hb ih => exact .blank hb (ih h)
  | case3 depth offset last rest hb ih => exact .left (ih h)
  | case4 depth offset last rest hb hl ih => exact .right (ih h)
  | case5 depth offset last c rest hb hl hr e hrec => cases h
  | case6 depth offset last c rest hb hl hr lexeme width hrec fault hfault => cases h
  | case7 depth offset last c rest hb hl hr lexeme width hrec hnone ih =>
    obtain ⟨more, after, rfl, rfl, hlexes⟩ := lexes_of_recognize hrec
    rw [List.drop_left] at ih h
    cases hrest : scanFrom depth (offset + 1 + more.length) (some lexeme) after with
    | error e =>
      rw [hrest] at h
      cases h
    | ok found =>
      rw [hrest] at h
      cases h
      have hnext := ih hrest
      rw [Nat.add_assoc, Nat.add_comm 1] at hnext
      exact .lexeme hlexes (adjacencyFault?_eq_none_iff.mp hnone) hnext

theorem Scanned.scanFrom_eq {depth offset : Nat} {last : Option Lexeme} {text : List Char}
    {tokens : List Token} (h : Scanned depth offset last text tokens) :
    scanFrom depth offset last text = .ok tokens := by
  induction h with
  | nil => rw [scanFrom]
  | blank hb _ ih => rw [scanFrom, if_pos hb, ih]
  | left _ ih => rw [scanFrom, if_neg (by decide), if_pos rfl, ih]
  | right _ ih => rw [scanFrom, if_neg (by decide), if_neg (by decide), if_pos rfl, ih]
  | lexeme hlexes hlast _ ih =>
    obtain ⟨c, more, rfl, hopens, hrec⟩ := hlexes.recognize
    rw [scanFrom_lexeme _ _ hopens hrec (adjacencyFault?_eq_none_iff.mpr hlast), ih]
    rfl

/-- The scans that succeed. -/
theorem scanFrom_eq_ok_iff {depth offset : Nat} {last : Option Lexeme} {text : List Char}
    {tokens : List Token} :
    scanFrom depth offset last text = .ok tokens ↔ Scanned depth offset last text tokens :=
  ⟨scanned_of_scanFrom, Scanned.scanFrom_eq⟩

end Token

end DialogueScript
