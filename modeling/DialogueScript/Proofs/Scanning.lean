import DialogueScript.Proofs.Expression
import DialogueScript.Proofs.Text

/-!
# Expressions as texts

The texts that stand for an expression: operators and operands in the usual
reading, with blanks between them and parentheses around any part. Scanning such a
text gives tokens that spell the expression, so its plan computes the expression.

Main statements:
1. `Written.scans`: what scanning does with a text does not depend on what follows,
   as long as that continues no name and no numeral.
2. `Plan.compile_written`: every text of an expression compiles, and running the plan
   gives the value of the expression.
-/

namespace DialogueScript

open Text

/-! ## Atoms -/

namespace Token

/-- The numeral does not go on in the text behind it, neither with a digit nor, if it has no
point yet, with a point. -/
def NumeralStops (numeral rest : List Char) : Prop :=
  ∀ c, rest.head? = some c → c.isDigit = false ∧ (c = '.' → '.' ∈ numeral)

theorem numeralStops_of_ends {rest : List Char} (h : Ends rest) (numeral : List Char) :
    NumeralStops numeral rest := by
  intro c hc
  obtain ⟨hname, hpoint⟩ := h c hc
  refine ⟨Bool.eq_false_iff.mpr fun hd => ?_, fun hc' => absurd hc' hpoint⟩
  exact ne_of_class (isNamePart_iff.mpr (Or.inr hd)) hname rfl

/-- A numeral is read up to its end. Where no point is allowed any more, it stops at one. -/
theorem numeral_append {text rest : List Char} {pointAllowed : Bool}
    (hr : ∀ c, rest.head? = some c →
      c.isDigit = false ∧ (c = '.' → pointAllowed = true → '.' ∈ text))
    (hd : ∀ c ∈ text, c.isDigit = true ∨ c = '.')
    (hp : text.count '.' ≤ if pointAllowed then 1 else 0) :
    numeral pointAllowed (text ++ rest) = text := by
  induction text generalizing pointAllowed with
  | nil =>
    cases rest with
    | nil => rfl
    | cons c rest =>
      obtain ⟨hdigit, hpoint⟩ := hr c rfl
      rw [List.nil_append, numeral, hdigit, if_neg Bool.false_ne_true, if_neg]
      rw [Bool.and_eq_true, decide_eq_true_eq]
      rintro ⟨hc, ha⟩
      exact absurd (hpoint hc ha) List.not_mem_nil
  | cons c text ih =>
    have hd' : ∀ c ∈ text, c.isDigit = true ∨ c = '.' := fun d hm => hd d (List.mem_cons_of_mem _ hm)
    rw [List.cons_append, numeral]
    rcases hd c List.mem_cons_self with hc | rfl
    · have hne : c ≠ '.' := ne_of_class hc (by decide)
      rw [List.count_cons_of_ne hne] at hp
      rw [if_pos hc, ih (fun d hd => ⟨(hr d hd).1, fun hpoint ha => ?_⟩) hd' hp]
      exact (List.mem_cons.mp ((hr d hd).2 hpoint ha)).resolve_left hne.symm
    · rw [List.count_cons_self] at hp
      cases pointAllowed with
      | false => exact absurd hp (Nat.not_succ_le_zero _)
      | true =>
        have hp' : text.count '.' ≤ if false then 1 else 0 := Nat.le_of_succ_le_succ hp
        have hr' : ∀ c, rest.head? = some c →
            c.isDigit = false ∧ (c = '.' → false = true → '.' ∈ text) :=
          fun d hd => ⟨(hr d hd).1, fun _ ha => nomatch ha⟩
        rw [if_neg (by decide), if_pos (by decide), ih hr' hd' hp']

structure Opens (c : Char) : Prop where
  not_blank : isBlank c = false
  not_left : c ≠ '('
  not_right : c ≠ ')'

theorem opens_of_isNamePart {c : Char} (h : isNamePart c = true) : Opens c where
  not_blank := isBlank_of_isNamePart h
  not_left := ne_of_class h (by decide)
  not_right := ne_of_class h (by decide)

theorem recognize_variable {c : Char} {more rest : List Char} (hv : IsVariable (c :: more))
    (h : NameStops rest) : recognize c (more ++ rest) =
      .ok (.variable (String.ofList (c :: more)), more.length) := by
  obtain ⟨d, ds, hshape, hstart, hparts⟩ := hv.shape
  cases hshape
  have hparts : more.all isNamePart = true := List.all_eq_true.mpr hparts
  have hall : (c :: more).all isNamePart = true := by
    rw [List.all_cons, isNamePart_iff.mpr (Or.inl hstart), hparts]
    rfl
  have htake : (c :: (more ++ rest)).takeWhile isNamePart = c :: more := h.takeWhile_append hall
  have htrue : beginsWithKeyword ['t', 'r', 'u', 'e'] (c :: (more ++ rest)) = false :=
    beginsWithKeyword_of_ne (by decide) htake hv.not_true
  have hfalse : beginsWithKeyword ['f', 'a', 'l', 's', 'e'] (c :: (more ++ rest)) = false :=
    beginsWithKeyword_of_ne (by decide) htake hv.not_false
  have hnum : ¬(c.isDigit || decide (c = '.')) = true := by
    rw [isDigit_of_isNameStart hstart, Bool.false_or, decide_eq_true_eq]
    exact ne_of_class hstart (by decide)
  have hquote : c ≠ '\'' := ne_of_class hstart (by decide)
  unfold recognize
  rw [htrue, hfalse, if_neg Bool.false_ne_true, if_neg Bool.false_ne_true, if_neg hnum,
    if_neg hquote, if_pos hstart, h.takeWhile_append hparts]

/-- What is read as digits with at most one point does not have to be a numeral: it can be a
point alone. -/
theorem recognize_digits {c : Char} {more rest : List Char}
    (hd : ∀ d ∈ c :: more, d.isDigit = true ∨ d = '.') (hp : (c :: more).count '.' ≤ 1)
    (h : NumeralStops (c :: more) rest) : recognize c (more ++ rest) =
      .ok (.literal (.number (Number.ofNumeral (c :: more))), more.length) := by
  have hc := hd c List.mem_cons_self
  have hstart : isNameStart c = false := by
    rw [Bool.eq_false_iff]
    intro hs
    rcases hc with hd | rfl
    · rw [isDigit_of_isNameStart hs] at hd
      exact nomatch hd
    · exact absurd hs (by decide)
  have hkeyword : ∀ d ds, isNameStart d = true → beginsWithKeyword (d :: ds) (c :: (more ++ rest)) =
      false := by
    intro d ds hd
    unfold beginsWithKeyword
    rw [List.isPrefixOf_cons_cons]
    have hne : (d == c) = false := beq_eq_false_iff_ne.mpr (ne_of_class hd hstart)
    rw [hne]
    rfl
  have hnum : (c.isDigit || decide (c = '.')) = true := by
    rw [Bool.or_eq_true, decide_eq_true_eq]
    exact hc
  have htext : numeral true ((c :: more) ++ rest) = c :: more :=
    numeral_append (fun d hr => ⟨(h d hr).1, fun hpoint _ => (h d hr).2 hpoint⟩) hd hp
  unfold recognize
  rw [hkeyword 't' _ (by decide), hkeyword 'f' _ (by decide), if_neg Bool.false_ne_true,
    if_neg Bool.false_ne_true, if_pos hnum, ← List.cons_append, htext]
  rfl

theorem recognize_string {text : List Char} (hq : '\'' ∉ text) (rest : List Char) :
    recognize '\'' (text ++ '\'' :: rest) =
      .ok (.literal (.str (String.ofList text)), text.length + 1) := by
  have hcut : cutFirst? '\'' (text ++ '\'' :: rest) = some (text, rest) :=
    cutFirst?_eq_some_iff.mpr ⟨rfl, hq⟩
  unfold recognize
  rw [hcut]
  rfl

theorem recognize_bool {b : Bool} {rest : List Char} (h : NameStops rest) :
    ∃ c more, (Atom.bool b).text = c :: more ∧ isNameStart c = true ∧
      recognize c (more ++ rest) = .ok (.literal (.bool b), more.length) := by
  cases b with
  | true =>
    have hk : beginsWithKeyword ['t', 'r', 'u', 'e'] (['t', 'r', 'u', 'e'] ++ rest) = true :=
      (beginsWithKeyword_iff (by decide)).mpr (h.takeWhile_append (by decide))
    refine ⟨'t', ['r', 'u', 'e'], rfl, by decide, ?_⟩
    unfold recognize
    exact if_pos hk
  | false =>
    have hall : ['f', 'a', 'l', 's', 'e'].all isNamePart = true := by decide
    have hk : beginsWithKeyword ['f', 'a', 'l', 's', 'e'] (['f', 'a', 'l', 's', 'e'] ++ rest) = true :=
      (beginsWithKeyword_iff hall).mpr (h.takeWhile_append hall)
    have hn : beginsWithKeyword ['t', 'r', 'u', 'e'] (['f', 'a', 'l', 's', 'e'] ++ rest) = false :=
      beginsWithKeyword_of_ne (by decide) (h.takeWhile_append hall) (by decide)
    refine ⟨'f', ['a', 'l', 's', 'e'], rfl, by decide, ?_⟩
    unfold recognize
    exact (if_neg (Bool.eq_false_iff.mp hn)).trans (if_pos hk)

/-- Every atom is read as what it stands for. -/
theorem recognize_atom (a : Atom) {rest : List Char} (h : Ends rest) :
    ∃ c more, a.text = c :: more ∧ Opens c ∧ c ≠ '=' ∧
      recognize c (more ++ rest) = .ok (a.lexeme, more.length) := by
  rcases a with ⟨name, hv⟩ | b | ⟨text, hn⟩ | ⟨text, hq⟩
  · obtain ⟨c, more, rfl, hstart, _⟩ := hv.shape
    exact ⟨c, more, rfl, opens_of_isNamePart (isNamePart_iff.mpr (Or.inl hstart)),
      ne_of_class hstart (by decide), recognize_variable hv h.nameStops⟩
  · obtain ⟨c, more, htext, hstart, hrec⟩ := recognize_bool (b := b) h.nameStops
    exact ⟨c, more, htext, opens_of_isNamePart (isNamePart_iff.mpr (Or.inl hstart)),
      ne_of_class hstart (by decide), hrec⟩
  · obtain ⟨d, hd, _⟩ := hn.digit
    obtain ⟨c, more, rfl⟩ := List.exists_cons_of_ne_nil (List.ne_nil_of_mem hd)
    have hc := hn.digits c List.mem_cons_self
    refine ⟨c, more, rfl, ?_, ?_, recognize_digits hn.digits hn.points (numeralStops_of_ends h _)⟩
    · rcases hc with hc | rfl
      · exact opens_of_isNamePart (isNamePart_iff.mpr (Or.inr hc))
      · exact ⟨by decide, by decide, by decide⟩
    · rintro rfl
      exact absurd hc (by decide)
  · refine ⟨'\'', text ++ ['\''], rfl, ⟨by decide, by decide, by decide⟩, by decide, ?_⟩
    rw [List.append_assoc, List.length_append]
    exact recognize_string (fun hm => (hq _ hm).1 rfl) rest

end Token

/-! ## Operators -/

namespace Operator

def scanned (o : Operator) : Operator := if o = negate then subtract else o

theorem ofSymbol?_symbol (o : Operator) : ofSymbol? o.symbol.toList = some o.scanned := by
  cases o <;> decide

theorem symbol_of_ofSymbol? {text : List Char} {o : Operator} (h : ofSymbol? text = some o) :
    o.symbol.toList = text := by
  simpa using List.find?_some h

theorem isSymbolChar_symbol (o : Operator) : o.symbol.toList.all isSymbolChar = true := by
  cases o <;> decide

/-- A symbol that continues another one does so with `=`. -/
theorem getElem?_symbol_length {a b : Operator} (h : a.symbol.toList <+: b.symbol.toList)
    (hlt : a.symbol.toList.length < b.symbol.toList.length) :
    b.symbol.toList[a.symbol.toList.length]? = some '=' := by
  rw [← List.isPrefixOf_iff_prefix] at h
  revert h hlt
  cases a <;> cases b <;> decide

theorem longestMatch?_eq {text : List Char} {o : Operator} {k : Nat}
    (hk : ofSymbol? (text.take (k + 1)) = some o) {n : Nat} (hn : k < n)
    (hlonger : ∀ j, k + 1 < j → j ≤ n → ofSymbol? (text.take j) = none) :
    longestMatch? text n = some (o, k + 1) := by
  induction n with
  | zero => exact absurd hn (Nat.not_lt_zero k)
  | succ n ih =>
    rw [longestMatch?]
    rcases Nat.lt_or_eq_of_le (Nat.le_of_lt_succ hn) with hlt | rfl
    · rw [hlonger (n + 1) (Nat.succ_lt_succ hlt) (Nat.le_refl _)]
      exact ih hlt fun j hj hjn => hlonger j hj (Nat.le_succ_of_le hjn)
    · rw [hk]

theorem longestMatch?_spec {text : List Char} {n : Nat} {o : Operator} {width : Nat}
    (h : longestMatch? text n = some (o, width)) :
    width ≤ n ∧ ofSymbol? (text.take width) = some o ∧
      ∀ j, width < j → j ≤ n → ofSymbol? (text.take j) = none := by
  induction n with
  | zero => exact nomatch h
  | succ n ih =>
    rw [longestMatch?] at h
    split at h
    · next hs =>
      cases h
      exact ⟨Nat.le_refl _, hs, fun j hlt hle => absurd hle (Nat.not_le_of_lt hlt)⟩
    · next hs =>
      obtain ⟨hle, hfound, hlonger⟩ := ih h
      refine ⟨Nat.le_succ_of_le hle, hfound, fun j hlt hj => ?_⟩
      rcases Nat.lt_or_eq_of_le hj with hj | rfl
      · exact hlonger j hlt (Nat.le_of_lt_succ hj)
      · exact hs

theorem ne_negate_of_ofSymbol? {text : List Char} {o : Operator} (h : ofSymbol? text = some o) :
    o ≠ negate :=
  of_decide_eq_true (List.mem_filter.mp (List.mem_of_find?_eq_some h)).2

theorem ofSymbol?_take_eq_none_iff {text : List Char} {j : Nat} (hj : j ≤ text.length) :
    ofSymbol? (text.take j) = none ↔
      ∀ o : Operator, o.symbol.toList <+: text → o.symbol.toList.length ≠ j := by
  constructor
  · rintro hnone o ho rfl
    rw [← List.prefix_iff_eq_take.mp ho, o.ofSymbol?_symbol] at hnone
    exact nomatch hnone
  · intro h
    cases hs : ofSymbol? (text.take j) with
    | none => rfl
    | some o =>
      have hsymbol := symbol_of_ofSymbol? hs
      refine absurd ?_ (h o (hsymbol ▸ List.take_prefix j text))
      rw [hsymbol, List.length_take, Nat.min_eq_left hj]

/-- The characters among which an operator is looked for begin with every symbol that the text
begins with. -/
theorem symbol_prefix_candidate_iff (o : Operator) (text : List Char) :
    o.symbol.toList <+: (text.take longestSymbol).takeWhile isSymbolChar ↔
      o.symbol.toList <+: text := by
  constructor
  · exact fun h => (h.trans (List.takeWhile_prefix _)).trans (List.take_prefix _ _)
  · rintro ⟨rest, rfl⟩
    have hlen : o.symbol.toList.length ≤ longestSymbol := by
      cases o <;> decide
    rw [List.take_append, List.take_of_length_le hlen,
      List.takeWhile_append_of_pos (List.all_eq_true.mp o.isSymbolChar_symbol)]
    exact List.prefix_append _ _

/-- The first character of a symbol is none of those that other lexemes begin with. -/
theorem symbol_eq_cons (o : Operator) : ∃ c more, o.symbol.toList = c :: more ∧ Token.Opens c ∧
    isNamePart c = false ∧ c ≠ '.' ∧ (o.isUnary = true → c ≠ '=') ∧
    ∀ rest, Token.recognize c rest = match Token.scanOperator (c :: rest) with
      | .ok (o, width) => .ok (.operator o, width - 1)
      | .error fault => .error (Located.atChar fault 0) := by
  cases o <;>
    exact ⟨_, _, rfl, ⟨by decide, by decide, by decide⟩, by decide, by decide, by decide, fun _ => rfl⟩

end Operator

namespace Token

/-- The operator that is read is the one with the longest symbol that stands there. -/
theorem scanOperator_eq_ok_iff {text : List Char} {o : Operator} {width : Nat} :
    scanOperator text = .ok (o, width) ↔
      o ≠ .negate ∧ width = o.symbol.toList.length ∧ o.symbol.toList <+: text ∧
        ∀ o' : Operator, o'.symbol.toList <+: text →
          o'.symbol.toList.length ≤ o.symbol.toList.length := by
  let candidate := (text.take Operator.longestSymbol).takeWhile Operator.isSymbolChar
  have hcandidate : ∀ o' : Operator, o'.symbol.toList <+: candidate ↔ o'.symbol.toList <+: text :=
    fun o' => o'.symbol_prefix_candidate_iff text
  have hscan : scanOperator text = .ok (o, width) ↔
      Operator.longestMatch? candidate candidate.length = some (o, width) := by
    unfold scanOperator
    simp only
    split
    · next found hm => simp [candidate, hm]
    · next hm => simp [candidate, hm]
  rw [hscan]
  constructor
  · intro h
    obtain ⟨hle, hfound, hlonger⟩ := Operator.longestMatch?_spec h
    have hsymbol := Operator.symbol_of_ofSymbol? hfound
    have hwidth : o.symbol.toList.length = width := by
      rw [hsymbol, List.length_take, Nat.min_eq_left hle]
    refine ⟨Operator.ne_negate_of_ofSymbol? hfound, hwidth.symm, ?_, fun o' ho' => ?_⟩
    · exact (hcandidate o).mp (hsymbol ▸ List.take_prefix width candidate)
    · have hprefix := (hcandidate o').mpr ho'
      refine Nat.le_of_not_lt fun hlt => ?_
      have hnone := hlonger _ (hwidth ▸ hlt) hprefix.length_le
      exact (Operator.ofSymbol?_take_eq_none_iff hprefix.length_le).mp hnone o' hprefix rfl
  · rintro ⟨hne, rfl, hprefix, hlonger⟩
    obtain ⟨c, more, hsymbol, -⟩ := o.symbol_eq_cons
    have hprefix := (hcandidate o).mpr hprefix
    have hlen : o.symbol.toList.length = more.length + 1 := by rw [hsymbol, List.length_cons]
    have hscanned : o.scanned = o := if_neg hne
    have hle := hprefix.length_le
    have htake := List.prefix_iff_eq_take.mp hprefix
    rw [hlen] at hle htake ⊢
    refine Operator.longestMatch?_eq ?_ hle fun j hj hjn => ?_
    · rw [← htake, o.ofSymbol?_symbol, hscanned]
    · refine (Operator.ofSymbol?_take_eq_none_iff hjn).mpr fun o' ho' heq => ?_
      have := hlonger o' ((hcandidate o').mp ho')
      rw [heq, hlen] at this
      exact absurd this (Nat.not_le_of_lt hj)

/-- A symbol that no `=` follows is read up to its end. -/
theorem scanOperator_symbol (o : Operator) {rest : List Char} (h : rest.head? ≠ some '=') :
    scanOperator (o.symbol.toList ++ rest) = .ok (o.scanned, o.symbol.toList.length) := by
  have hscanned : o.scanned.symbol = o.symbol ∧ o.scanned ≠ .negate := by
    cases o <;> decide
  refine scanOperator_eq_ok_iff.mpr ⟨hscanned.2, ?_, ?_, fun o' ho' => ?_⟩
  · rw [hscanned.1]
  · rw [hscanned.1]
    exact List.prefix_append _ _
  · rw [hscanned.1]
    refine Nat.le_of_not_lt fun hlt => h ?_
    -- A longer symbol would have to go on with `=` where the text does.
    have hnext := Operator.getElem?_symbol_length
      (List.prefix_of_prefix_length_le (List.prefix_append _ rest) ho' (Nat.le_of_lt hlt)) hlt
    obtain ⟨tail, htail⟩ := ho'
    rw [← List.getElem?_append_left hlt, htail, List.getElem?_append_right (Nat.le_refl _),
      Nat.sub_self, ← List.head?_eq_getElem?] at hnext
    exact hnext

theorem recognize_symbol (o : Operator) {rest : List Char} (h : rest.head? ≠ some '=') :
    ∃ c more, o.symbol.toList = c :: more ∧ Opens c ∧
      recognize c (more ++ rest) = .ok (.operator o.scanned, more.length) := by
  obtain ⟨c, more, hsymbol, hopens, _, _, _, hrec⟩ := o.symbol_eq_cons
  have hscan := scanOperator_symbol o h
  rw [hsymbol, List.cons_append] at hscan
  refine ⟨c, more, hsymbol, hopens, ?_⟩
  rw [hrec, hscan]
  rfl

/-! ## Scanning -/

theorem scanFrom_blanks {gap : List Char} (hg : allBlank gap = true) (depth offset : Nat)
    (last : Option Lexeme) (rest : List Char) :
    scanFrom depth offset last (gap ++ rest) = scanFrom depth (offset + gap.length) last rest := by
  induction gap generalizing offset with
  | nil => rfl
  | cons c gap ih =>
    have hall := List.all_cons.symm.trans hg
    rw [Bool.and_eq_true] at hall
    rw [List.cons_append, scanFrom, if_pos hall.1, ih hall.2, List.length_cons, Nat.add_assoc,
      Nat.add_comm 1]

/-- A lexeme that is recognised becomes a token. -/
theorem scanFrom_lexeme {c : Char} {more rest : List Char} {lexeme : Lexeme} {last : Option Lexeme}
    (depth offset : Nat) (hc : Opens c)
    (hrec : recognize c (more ++ rest) = .ok (lexeme, more.length))
    (hlast : adjacencyFault? last lexeme = none) :
    scanFrom depth offset last ((c :: more) ++ rest) =
      (scanFrom depth (offset + (c :: more).length) (some lexeme) rest).map
        (⟨lexeme, depth, offset⟩ :: ·) := by
  have hnext : offset + 1 + more.length = offset + (c :: more).length := by
    rw [List.length_cons, Nat.add_assoc, Nat.add_comm 1]
  rw [List.cons_append, scanFrom, hc.not_blank, if_neg Bool.false_ne_true, if_neg hc.not_left,
    if_neg hc.not_right, hrec]
  simp only [hlast]
  rw [hnext, List.drop_left]

theorem scanFrom_symbol (o : Operator) {rest : List Char} (h : rest.head? ≠ some '=')
    (depth offset : Nat) (last : Option Lexeme) :
    scanFrom depth offset last (o.symbol.toList ++ rest) =
      (scanFrom depth (offset + o.symbol.toList.length) (some (.operator o.scanned)) rest).map
        (⟨.operator o.scanned, depth, offset⟩ :: ·) := by
  obtain ⟨c, more, hsymbol, hopens, hrec⟩ := recognize_symbol o h
  have hlast : adjacencyFault? last (.operator o.scanned) = none := by
    unfold adjacencyFault?
    split
    · contradiction
    · contradiction
    · rfl
  rw [hsymbol]
  exact scanFrom_lexeme depth offset hopens hrec hlast

/-- No operand stands just before. -/
def Fresh (last : Option Lexeme) : Prop := ∀ lexeme, last = some lexeme → ∃ o, lexeme = .operator o

theorem Fresh.adjacencyFault? {last : Option Lexeme} (h : Fresh last) (lexeme : Lexeme) :
    adjacencyFault? last lexeme = none := by
  cases last with
  | none => rfl
  | some l =>
    obtain ⟨o, rfl⟩ := h l rfl
    rfl

theorem scanFrom_atom (a : Atom) {rest : List Char} (h : Ends rest) (depth offset : Nat)
    {last : Option Lexeme} (hf : Fresh last) :
    scanFrom depth offset last (a.text ++ rest) =
      (scanFrom depth (offset + a.text.length) (some a.lexeme) rest).map
        (⟨a.lexeme, depth, offset⟩ :: ·) := by
  obtain ⟨c, more, htext, hopens, _, hrec⟩ := recognize_atom a h
  rw [htext]
  exact scanFrom_lexeme depth offset hopens hrec (hf.adjacencyFault? _)

end Token

/-! ## Texts of an expression -/

/-- The texts that stand for an expression whose operators outside parentheses are at
most as loose as a level. Blanks may stand between any two lexemes, and parentheses
around any part. -/
inductive Written : Nat → Expression → List Char → Prop
  | atom (a : Atom) : Written 0 (.atom a) a.text
  | group {n : Nat} {e : Expression} {text before after : List Char} :
      allBlank before = true → Written n e text → allBlank after = true →
      Written 0 e ('(' :: (before ++ (text ++ (after ++ [')']))))
  | unary {o : Operator} {h : o.isUnary = true} {e : Expression} {gap text : List Char} :
      allBlank gap = true → Written 1 e text →
      Written 1 (.unary o h e) (o.symbol.toList ++ (gap ++ text))
  | binary {o : Operator} {h : o.isUnary = false} {m : Nat} {l r : Expression}
      {left before after right : List Char} :
      Written o.level l left → allBlank before = true → allBlank after = true → m < o.level →
      Written m r right →
      Written o.level (.binary o h l r)
        (left ++ (before ++ (o.symbol.toList ++ (after ++ right))))
  | weaken {m n : Nat} {e : Expression} {text : List Char} :
      m ≤ n → Written m e text → Written n e text

namespace Written

theorem head_ne {n : Nat} {e : Expression} {text : List Char} (h : Written n e text) :
    ∃ c more, text = c :: more ∧ c ≠ '=' := by
  induction h with
  | atom a =>
    obtain ⟨c, more, htext, _, hc, _⟩ := Token.recognize_atom a ends_nil
    exact ⟨c, more, htext, hc⟩
  | group _ _ _ _ => exact ⟨'(', _, rfl, by decide⟩
  | @unary o hu e gap text _ _ _ =>
    obtain ⟨c, more, hsymbol, _, _, _, hc, _⟩ := o.symbol_eq_cons
    exact ⟨c, more ++ (gap ++ text), by rw [hsymbol, List.cons_append], hc hu⟩
  | binary _ _ _ _ _ ihl _ =>
    obtain ⟨c, more, rfl, hc⟩ := ihl
    exact ⟨c, _, List.cons_append, hc⟩
  | weaken _ _ ih => exact ih

theorem head?_append_ne {n : Nat} {e : Expression} {gap text : List Char} (h : Written n e text)
    (hg : allBlank gap = true) (rest : List Char) : (gap ++ (text ++ rest)).head? ≠ some '=' := by
  cases gap with
  | nil =>
    obtain ⟨c, more, rfl, hc⟩ := h.head_ne
    intro hhead
    cases hhead
    exact hc rfl
  | cons c gap =>
    have hc : isBlank c = true := List.all_eq_true.mp hg c List.mem_cons_self
    intro hhead
    cases hhead
    exact absurd hc (by decide)

end Written

namespace Token

/-- The tokens, with their signs settled after no operand, become others, and an operand
ends them. -/
def Settles (ts us : List Token) : Prop :=
  ∀ more, settleSigns false (ts ++ more) = us ++ settleSigns true more

/-- At any place the text is scanned to tokens that spell the expression, whatever
follows. -/
def Scans (n : Nat) (e : Expression) (text : List Char) : Prop :=
  ∀ depth offset last rest, Fresh last → Ends rest → ∃ ts us lexeme,
    scanFrom depth offset last (text ++ rest) =
      (scanFrom depth (offset + text.length) (some lexeme) rest).map (ts ++ ·) ∧
    Settles ts us ∧ Spelled n e depth us

theorem map_append_map {ε α : Type} (x : Except ε (List α)) (front back : List α) :
    (x.map (back ++ ·)).map (front ++ ·) = x.map (front ++ back ++ ·) := by
  cases x with
  | error e => rfl
  | ok l =>
    show Except.ok (front ++ (back ++ l)) = Except.ok (front ++ back ++ l)
    rw [List.append_assoc]

theorem fresh_operator (o : Operator) : Fresh (some (.operator o)) := by
  intro lexeme h
  cases h
  exact ⟨o, rfl⟩

/-- A sign is settled by what stands before it. -/
theorem settleSigns_symbol (o : Operator) (depth offset : Nat) (rest : List Token) :
    settleSigns (!o.isUnary) (⟨.operator o.scanned, depth, offset⟩ :: rest) =
      ⟨.operator o, depth, offset⟩ :: settleSigns false rest := by
  cases o <;> rfl

theorem settleSigns_operand {t : Token} (h : t.operator? = none) (after : Bool) (rest : List Token) :
    settleSigns after (t :: rest) = t :: settleSigns true rest := by
  obtain ⟨o | v | name, depth, offset⟩ := t
  · exact nomatch h
  · rfl
  · rfl

end Token

namespace Written

open Token

/-- Scanning the text of an expression gives tokens that spell it. -/
theorem scans {n : Nat} {e : Expression} {text : List Char} (h : Written n e text) :
    Scans n e text := by
  induction h with
  | atom a =>
    intro depth offset last rest hf he
    have ht : Spelled 0 (.atom a) depth [⟨a.lexeme, depth, offset⟩] :=
      Spelled.atom (t := ⟨a.lexeme, depth, offset⟩) rfl
    exact ⟨[_], [_], a.lexeme, scanFrom_atom a he depth offset hf,
      fun more => settleSigns_operand (operator?_of_atom (a := a) rfl) false more, ht⟩
  | @group n e text before after hb _ ha ih =>
    intro depth offset last rest hf he
    have hclose : Ends (after ++ (')' :: rest)) := ends_append ha fun c hc => by
      cases hc
      exact ⟨by decide, by decide⟩
    obtain ⟨ts, us, lexeme, hscan, hsettle, hspell⟩ :=
      ih (depth + 1) (offset + 1 + before.length) last _ hf hclose
    refine ⟨ts, us, lexeme, ?_, hsettle, .group (Nat.lt_succ_self depth) hspell⟩
    have htext : ('(' :: (before ++ (text ++ (after ++ [')'])))) ++ rest =
        '(' :: (before ++ (text ++ (after ++ (')' :: rest)))) := by
      simp only [List.cons_append, List.append_assoc, List.nil_append]
    have hlen : offset + 1 + before.length + text.length + after.length + 1 =
        offset + ('(' :: (before ++ (text ++ (after ++ [')'])))).length := by
      simp only [List.length_cons, List.length_append, List.length_nil]
      omega
    rw [htext, scanFrom, if_neg (by decide), if_pos rfl, scanFrom_blanks hb, hscan,
      scanFrom_blanks ha, scanFrom, if_neg (by decide), if_neg (by decide), if_pos rfl, hlen,
      Nat.add_sub_cancel]
  | @unary o hu e gap text hg hw ih =>
    intro depth offset last rest hf he
    obtain ⟨ts, us, lexeme, hscan, hsettle, hspell⟩ :=
      ih depth (offset + o.symbol.toList.length + gap.length) _ rest (fresh_operator o.scanned) he
    refine ⟨⟨.operator o.scanned, depth, offset⟩ :: ts, ⟨.operator o, depth, offset⟩ :: us, lexeme,
      ?_, fun more => ?_, ?_⟩
    · have hlen : offset + o.symbol.toList.length + gap.length + text.length =
          offset + (o.symbol.toList ++ (gap ++ text)).length := by
        simp only [List.length_append]
        omega
      rw [List.append_assoc, List.append_assoc, scanFrom_symbol o (hw.head?_append_ne hg rest),
        scanFrom_blanks hg, hscan, hlen]
      exact map_append_map _ [_] ts
    · have hsign := settleSigns_symbol o depth offset (ts ++ more)
      rw [hu, Bool.not_true] at hsign
      rw [List.cons_append, hsign, hsettle, List.cons_append]
    · exact Spelled.unary (t := ⟨.operator o, depth, offset⟩) rfl hspell
  | @binary o hu m l r left before after right hl hb ha hm hr ihl ihr =>
    intro depth offset last rest hf he
    -- No symbol continues a name or a numeral, so the left operand ends where it should.
    have hends : Ends (before ++ (o.symbol.toList ++ (after ++ (right ++ rest)))) := by
      obtain ⟨c, more, hsymbol, _, hname, hpoint, _⟩ := o.symbol_eq_cons
      refine ends_append hb fun d hd => ?_
      rw [hsymbol] at hd
      cases hd
      exact ⟨hname, hpoint⟩
    obtain ⟨ls, lus, lexeme, hlscan, hlsettle, hlspell⟩ := ihl depth offset last _ hf hends
    let start := offset + left.length + before.length
    obtain ⟨rs, rus, lexeme', hrscan, hrsettle, hrspell⟩ :=
      ihr depth (start + o.symbol.toList.length + after.length) _ rest (fresh_operator o.scanned) he
    refine ⟨ls ++ ⟨.operator o.scanned, depth, start⟩ :: rs,
      lus ++ ⟨.operator o, depth, start⟩ :: rus, lexeme', ?_, fun more => ?_, ?_⟩
    · have htext : left ++ (before ++ (o.symbol.toList ++ (after ++ right))) ++ rest =
          left ++ (before ++ (o.symbol.toList ++ (after ++ (right ++ rest)))) := by
        simp only [List.append_assoc]
      have hlen : start + o.symbol.toList.length + after.length + right.length =
          offset + (left ++ (before ++ (o.symbol.toList ++ (after ++ right)))).length := by
        simp only [List.length_append, start]
        omega
      rw [htext, hlscan, scanFrom_blanks hb, scanFrom_symbol o (hr.head?_append_ne ha rest),
        scanFrom_blanks ha, hrscan, hlen, ← map_append_map _ ls]
      exact congrArg _ (map_append_map _ [_] rs)
    · have hsign := settleSigns_symbol o depth start (rs ++ more)
      rw [hu, Bool.not_false] at hsign
      rw [List.append_assoc, hlsettle, List.cons_append, hsign, hrsettle,
        List.append_assoc, List.cons_append]
    · exact Spelled.binary (t := ⟨.operator o, depth, start⟩) rfl hlspell hm hrspell
  | weaken hmn _ ih =>
    intro depth offset last rest hf he
    obtain ⟨ts, us, lexeme, hscan, hsettle, hspell⟩ := ih depth offset last rest hf he
    exact ⟨ts, us, lexeme, hscan, hsettle, hspell.weaken hmn⟩

end Written

/-! ## Balanced parentheses -/

namespace Token

/-- Behind the text, the check goes on as if it began there. -/
def Balanced (text : List Char) : Prop :=
  ∀ offset depth rest, checkParentheses offset depth (text ++ rest) =
    checkParentheses (offset + text.length) depth rest

theorem Balanced.append {a b : List Char} (ha : Balanced a) (hb : Balanced b) :
    Balanced (a ++ b) := by
  intro offset depth rest
  rw [List.append_assoc, ha, hb, List.length_append, Nat.add_assoc]

theorem balanced_of_forall {text : List Char} (h : ∀ c ∈ text, c ≠ '(' ∧ c ≠ ')') :
    Balanced text := by
  intro offset depth rest
  induction text generalizing offset with
  | nil => rfl
  | cons c text ih =>
    obtain ⟨hl, hr⟩ := h c List.mem_cons_self
    rw [List.cons_append, checkParentheses, if_neg hl, if_neg hr,
      ih fun d hd => h d (List.mem_cons_of_mem _ hd), List.length_cons, Nat.add_assoc, Nat.add_comm 1]

theorem Balanced.group {text : List Char} (h : Balanced text) : Balanced ('(' :: (text ++ [')'])) := by
  intro offset depth rest
  have hlen : offset + 1 + text.length + 1 = offset + ('(' :: (text ++ [')'])).length := by
    rw [List.length_cons, List.length_append, List.length_singleton]
    omega
  rw [List.cons_append, List.append_assoc, checkParentheses, if_pos rfl, h, List.singleton_append,
    checkParentheses, if_neg (by decide), if_pos rfl, if_neg (Nat.succ_ne_zero depth), hlen,
    Nat.add_sub_cancel]

theorem balanced_blanks {gap : List Char} (h : allBlank gap = true) : Balanced gap := by
  refine balanced_of_forall fun c hc => ?_
  have hb : isBlank c = true := List.all_eq_true.mp h c hc
  exact ⟨ne_of_class hb (by decide), ne_of_class hb (by decide)⟩

theorem balanced_symbol (o : Operator) : Balanced o.symbol.toList := by
  refine balanced_of_forall fun c hc => ?_
  have hs := List.all_eq_true.mp o.isSymbolChar_symbol c hc
  exact ⟨ne_of_class hs (by decide), ne_of_class hs (by decide)⟩

theorem balanced_atom (a : Atom) : Balanced a.text := by
  have hname : ∀ {c : Char}, isNamePart c = true → c ≠ '(' ∧ c ≠ ')' :=
    fun h => ⟨(opens_of_isNamePart h).not_left, (opens_of_isNamePart h).not_right⟩
  rcases a with ⟨name, hv⟩ | b | ⟨text, hn⟩ | ⟨text, hq⟩
  · obtain ⟨c, more, rfl, hstart, hparts⟩ := hv.shape
    refine balanced_of_forall fun d hd => hname ?_
    rcases List.mem_cons.mp hd with rfl | hd
    · exact isNamePart_iff.mpr (Or.inl hstart)
    · exact hparts d hd
  · have hb : (Atom.bool b).text.all isNamePart = true := by cases b <;> decide
    exact balanced_of_forall fun d hd => hname (List.all_eq_true.mp hb d hd)
  · refine balanced_of_forall fun d hd => ?_
    rcases hn.digits d hd with hd | rfl
    · exact hname (isNamePart_iff.mpr (Or.inr hd))
    · exact ⟨by decide, by decide⟩
  · refine balanced_of_forall fun d hd => ?_
    rcases List.mem_cons.mp hd with rfl | hd
    · exact ⟨by decide, by decide⟩
    · rcases List.mem_append.mp hd with hd | hd
      · exact (hq d hd).2
      · rw [List.mem_singleton.mp hd]
        exact ⟨by decide, by decide⟩

end Token

namespace Written

open Token

theorem balanced {n : Nat} {e : Expression} {text : List Char} (h : Written n e text) :
    Balanced text := by
  induction h with
  | atom a => exact balanced_atom a
  | @group n e text before after hb _ ha ih =>
    have hinner := ((balanced_blanks hb).append (ih.append (balanced_blanks ha))).group
    rwa [List.append_assoc, List.append_assoc] at hinner
  | @unary o _ _ _ _ hg _ ih => exact (balanced_symbol o).append ((balanced_blanks hg).append ih)
  | @binary o _ _ _ _ _ _ _ _ _ hb ha _ _ ihl ihr =>
    exact ihl.append ((balanced_blanks hb).append
      ((balanced_symbol o).append ((balanced_blanks ha).append ihr)))
  | weaken _ _ ih => exact ih

/-- The tokens of a written expression, with their signs settled, spell it. -/
theorem scan_eq {n : Nat} {e : Expression} {text before after : List Char} (h : Written n e text)
    (hb : allBlank before = true) (ha : allBlank after = true) :
    ∃ ts, scan (before ++ (text ++ after)) = .ok ts ∧ Spelled n e 0 (settleSigns false ts) := by
  have hcheck : checkParentheses 0 0 (before ++ (text ++ after)) = .ok () := by
    have hall := (balanced_blanks hb).append (h.balanced.append (balanced_blanks ha)) 0 0 []
    rw [List.append_nil] at hall
    rw [hall, checkParentheses, if_pos rfl]
  have hends : Ends after := by
    have := ends_append ha ends_nil
    rwa [List.append_nil] at this
  obtain ⟨ts, us, lexeme, hscan, hsettle, hspell⟩ :=
    h.scans 0 (0 + before.length) none after (fun _ hl => nomatch hl) hends
  have hrest : ∀ offset last, scanFrom 0 offset last after = .ok [] := by
    intro offset last
    have := scanFrom_blanks ha 0 offset last []
    rwa [List.append_nil, scanFrom] at this
  refine ⟨ts, ?_, ?_⟩
  · unfold scan
    rw [hcheck]
    show scanFrom 0 0 none (before ++ (text ++ after)) = .ok ts
    rw [scanFrom_blanks hb, hscan, hrest]
    show Except.ok (ts ++ []) = Except.ok ts
    rw [List.append_nil]
  · have := hsettle []
    rw [List.append_nil, settleSigns, List.append_nil] at this
    rw [this]
    exact hspell

end Written

namespace Plan

/-- Every text of an expression compiles, at any offset and with blanks around it, and
its plan computes the value of the expression from every store. -/
theorem compile_written {n : Nat} {e : Expression} {text before after : List Char}
    (h : Written n e text) (hb : allBlank before = true) (ha : allBlank after = true)
    (offset : Nat) :
    ∃ plan, compile (before ++ (text ++ after)) offset = .ok plan ∧
      ∀ store, plan.evaluate store = e.value store := by
  obtain ⟨ts, hscan, hspell⟩ := h.scan_eq hb ha
  obtain ⟨plan, hplan, hvalue⟩ := ofTokens_of_spelled hspell
  refine ⟨plan, ?_, hvalue⟩
  unfold compile ofText
  rw [hscan]
  show (ofTokens (Token.settleSigns false ts)).mapError _ = .ok plan
  rw [hplan]
  rfl

/-- In `!-( a-2)*b` the prefix operators take the difference, and the product takes
what they make of it. -/
theorem compile_written_prefixed_difference :
    ∃ plan, compile ['!', '-', '(', ' ', 'a', '-', '2', ')', '*', 'b'] 7 = .ok plan ∧
      ∀ store, plan.evaluate store =
        Operator.multiply.apply
          (Operator.logicalNot.apply .undefined (Operator.negate.apply .undefined
            (Operator.subtract.apply (store.get "a")
              (.number (Number.ofDecimal ⟨false, 2, 0⟩)))))
          (store.get "b") := by
  have ha : IsVariable ['a'] := ⟨⟨'a', [], rfl, by decide, by simp⟩, by decide, by decide⟩
  have hb : IsVariable ['b'] := ⟨⟨'b', [], rfl, by decide, by simp⟩, by decide, by decide⟩
  have h2 : IsNumeral ['2'] := ⟨by simp, by decide, '2', by decide, by decide⟩
  have hdifference : Written 3 (.binary .subtract rfl (.atom (.variable ['a'] ha))
      (.atom (.numeral ['2'] h2))) ['a', '-', '2'] :=
    @Written.binary .subtract rfl 0 _ _ ['a'] [] [] ['2']
      (.weaken (by decide) (.atom (.variable ['a'] ha))) rfl rfl (by decide) (.atom (.numeral ['2'] h2))
  have hgroup := @Written.group _ _ _ [' '] [] (by decide) hdifference rfl
  have hnegated := @Written.unary .negate rfl _ [] _ rfl (.weaken (by decide) hgroup)
  have hnot := @Written.unary .logicalNot rfl _ [] _ rfl hnegated
  have hproduct := @Written.binary .multiply rfl 0 _ _ _ [] [] _ (.weaken (by decide) hnot) rfl rfl
    (by decide) (.atom (.variable ['b'] hb))
  exact @compile_written _ _ _ [] [] hproduct rfl rfl 7

end Plan

end DialogueScript
