import Mathlib
import DialogueScript.Proofs.Number.Rounding
import DialogueScript.Proofs.Scanning

/-!
# Decimals in positional notation

A decimal is written as an optional sign and digits, possibly with a point among
them. The digits are an unsigned numeral, and it denotes the magnitude of the
decimal. A numeral with a sign before it is one number for both of its readers: a
string that holds it is converted to the number, and as an expression it has the
number as value, the sign being an operator there.
-/

namespace DialogueScript

open Text

namespace Decimal

/-! ## Digits -/

theorem natOfDigits_eq_ofDigitChars (text : List Char) :
    natOfDigits text = Nat.ofDigitChars 10 text 0 := rfl

theorem natOfDigits_append (a b : List Char) :
    natOfDigits (a ++ b) = natOfDigits a * 10 ^ b.length + natOfDigits b := by
  simp only [natOfDigits_eq_ofDigitChars]
  rw [Nat.ofDigitChars_append, Nat.ofDigitChars_eq_ofDigitChars_zero, Nat.mul_comm]

theorem natOfDigits_replicate_zero (n : Nat) : natOfDigits (List.replicate n '0') = 0 := by
  rw [natOfDigits_eq_ofDigitChars, Nat.ofDigitChars_replicate_zero, Nat.mul_zero]

theorem natOfDigits_zeros_append (n : Nat) (text : List Char) :
    natOfDigits (List.replicate n '0' ++ text) = natOfDigits text := by
  rw [natOfDigits_append, natOfDigits_replicate_zero, Nat.zero_mul, Nat.zero_add]

theorem natOfDigits_append_zeros (text : List Char) (n : Nat) :
    natOfDigits (text ++ List.replicate n '0') = natOfDigits text * 10 ^ n := by
  rw [natOfDigits_append, natOfDigits_replicate_zero, List.length_replicate, Nat.add_zero]

theorem natOfDigits_toDigits (n : Nat) : natOfDigits (Nat.toDigits 10 n) = n :=
  Nat.ofDigitChars_ten_toDigits

theorem isDigit_of_mem_toDigits {n : Nat} {c : Char} (h : c ∈ Nat.toDigits 10 n) :
    c.isDigit = true :=
  Nat.isDigit_of_mem_toDigits (by decide) (by decide) h

theorem isDigit_of_mem_zeros {n : Nat} {c : Char} (h : c ∈ List.replicate n '0') :
    c.isDigit = true := by
  rw [List.eq_of_mem_replicate h]
  rfl

/-- Only zeros are dropped at the end of a text. -/
theorem exists_dropTrailingZeros (text : List Char) :
    ∃ n, text = dropTrailingZeros text ++ List.replicate n '0' := by
  have hzeros : ∀ c ∈ text.reverse.takeWhile (· = '0'), c = '0' := fun c hc =>
    of_decide_eq_true (List.all_eq_true.mp List.all_takeWhile c hc)
  refine ⟨(text.reverse.takeWhile (· = '0')).length, ?_⟩
  calc text
    _ = (text.reverse.takeWhile (· = '0') ++ text.reverse.dropWhile (· = '0')).reverse := by
      rw [List.takeWhile_append_dropWhile, List.reverse_reverse]
    _ = dropTrailingZeros text ++ (text.reverse.takeWhile (· = '0')).reverse :=
      List.reverse_append
    _ = _ := by
      rw [List.eq_replicate_of_mem hzeros, List.reverse_replicate, List.length_replicate]

/-! ## Positional notation -/

/-- Digits with a point among them, or without one if no digits stand behind it. -/
structure Positional (text whole fraction : List Char) : Prop where
  text_eq : text = whole ++ if fraction.isEmpty then [] else '.' :: fraction
  whole_ne : whole ≠ []
  digits : ∀ c ∈ whole ++ fraction, c.isDigit = true

/-- Cutting digits for a point, with zeros put in where digits are missing, keeps their number. -/
theorem natOfDigits_cut (digits : List Char) (places : Nat) :
    natOfDigits ((if (digits.take (digits.length - places)).isEmpty then ['0']
        else digits.take (digits.length - places)) ++
      (List.replicate (places - digits.length) '0' ++ digits.drop (digits.length - places))) =
      natOfDigits digits := by
  have hwhole := List.take_append_drop (digits.length - places) digits
  split
  · next hempty =>
    rw [List.isEmpty_iff.mp hempty, List.nil_append] at hwhole
    rw [hwhole]
    exact (natOfDigits_zeros_append 1 _).trans (natOfDigits_zeros_append _ digits)
  · next hempty =>
    have hplaces : places - digits.length = 0 := by
      rw [List.isEmpty_iff, List.take_eq_nil_iff] at hempty
      omega
    rw [hplaces, List.replicate_zero, List.nil_append, hwhole]

/-- A point divides by a power of ten. -/
theorem exists_positional_withPoint {digits : List Char} (hd : ∀ c ∈ digits, c.isDigit = true)
    (places : Nat) : ∃ whole fraction zeros, Positional (withPoint digits places) whole fraction ∧
      fraction.length + zeros = places ∧
      natOfDigits (whole ++ fraction) * 10 ^ zeros = natOfDigits digits := by
  let whole := if (digits.take (digits.length - places)).isEmpty then ['0']
    else digits.take (digits.length - places)
  obtain ⟨zeros, hzeros⟩ := exists_dropTrailingZeros
    (List.replicate (places - digits.length) '0' ++ digits.drop (digits.length - places))
  refine ⟨whole, _, zeros, ⟨rfl, ?_, fun c hc => ?_⟩, ?_, ?_⟩
  · unfold whole
    split
    · exact List.cons_ne_nil _ _
    · next hempty => exact fun hnil => hempty (List.isEmpty_iff.mpr hnil)
  · rcases List.mem_append.mp hc with hc | hc
    · unfold whole at hc
      split at hc
      · exact isDigit_of_mem_zeros (n := 1) hc
      · exact hd c (List.mem_of_mem_take hc)
    · have hc := List.mem_append_left (List.replicate zeros '0') hc
      rw [← hzeros] at hc
      rcases List.mem_append.mp hc with hc | hc
      · exact isDigit_of_mem_zeros hc
      · exact hd c (List.mem_of_mem_drop hc)
  · have hlength := congrArg List.length hzeros
    rw [List.length_append, List.length_replicate, List.length_drop, List.length_append,
      List.length_replicate] at hlength
    omega
  · rw [← natOfDigits_append_zeros, List.append_assoc, ← hzeros]
    exact natOfDigits_cut digits places

def signedText (negative : Bool) (text : List Char) : List Char :=
  (if negative then ['-'] else []) ++ text

/-- What is written behind the sign denotes the magnitude. -/
theorem exists_positional (d : Decimal) :
    ∃ text whole fraction, d.toText = signedText d.negative text ∧
      Positional text whole fraction ∧
      (natOfDigits (whole ++ fraction) : ℚ) * 10 ^ (-fraction.length : ℤ) = d.magnitude := by
  obtain ⟨negative, n, e⟩ := d
  unfold magnitude
  cases e with
  | ofNat zeros =>
    refine ⟨Nat.toDigits 10 n ++ List.replicate zeros '0', _, [], rfl,
      ⟨(List.append_nil _).symm, ?_, fun c hc => ?_⟩, ?_⟩
    · exact List.append_ne_nil_of_left_ne_nil Nat.toDigits_ne_nil _
    · rw [List.append_nil] at hc
      rcases List.mem_append.mp hc with hc | hc
      · exact isDigit_of_mem_toDigits hc
      · exact isDigit_of_mem_zeros hc
    · rw [List.append_nil, natOfDigits_append_zeros, natOfDigits_toDigits]
      simp
  | negSucc p =>
    obtain ⟨whole, fraction, zeros, hp, hlength, hvalue⟩ :=
      exists_positional_withPoint (fun c hc => isDigit_of_mem_toDigits (n := n) hc) (p + 1)
    have hexponent : Int.negSucc p = (-fraction.length : ℤ) - zeros := by omega
    refine ⟨_, whole, fraction, rfl, hp, ?_⟩
    rw [natOfDigits_toDigits] at hvalue
    rw [← hvalue, hexponent, zpow_sub₀ (by norm_num), zpow_natCast, Nat.cast_mul, Nat.cast_pow,
      Nat.cast_ofNat]
    field_simp

namespace Positional

variable {text whole fraction : List Char} (h : Positional text whole fraction)
include h

theorem isNumeral : IsNumeral text := by
  have hcount : ∀ {part : List Char}, (∀ c ∈ part, c ∈ whole ++ fraction) → part.count '.' = 0 :=
    fun hsub => List.count_eq_zero.mpr fun hm => absurd (h.digits _ (hsub _ hm)) (by decide)
  have hwhole : ∀ c ∈ whole, c ∈ whole ++ fraction := fun c => List.mem_append_left _
  have hfraction : ∀ c ∈ fraction, c ∈ whole ++ fraction := fun c => List.mem_append_right _
  obtain ⟨d, hd⟩ := List.exists_mem_of_ne_nil whole h.whole_ne
  rw [h.text_eq]
  refine ⟨fun c hc => ?_, ?_, d, List.mem_append_left _ hd, h.digits d (hwhole d hd)⟩
  · rcases List.mem_append.mp hc with hc | hc
    · exact Or.inl (h.digits c (hwhole c hc))
    split at hc
    · exact nomatch hc
    · rcases List.mem_cons.mp hc with rfl | hc
      · exact Or.inr rfl
      · exact Or.inl (h.digits c (hfraction c hc))
  · rw [List.count_append, hcount hwhole]
    split
    · decide
    · rw [List.count_cons_self, hcount hfraction]

theorem ofNumeral_eq :
    ofNumeral text = ⟨false, natOfDigits (whole ++ fraction), -fraction.length⟩ := by
  have hwhole : ∀ c ∈ whole, c.isDigit = true := fun c hc => h.digits c (List.mem_append_left _ hc)
  have hfraction : ∀ c ∈ fraction, c.isDigit = true := fun c hc =>
    h.digits c (List.mem_append_right _ hc)
  rw [h.text_eq]
  unfold ofNumeral
  rw [List.filter_append, List.filter_eq_self.mpr hwhole, List.dropWhile_append_of_pos hwhole]
  cases fraction with
  | nil => rfl
  | cons c more =>
    rw [List.isEmpty_cons, if_neg Bool.false_ne_true, List.filter_cons_of_neg (by decide),
      List.filter_eq_self.mpr hfraction]
    rfl

theorem magnitude_ofNumeral : (ofNumeral text).magnitude =
    natOfDigits (whole ++ fraction) * 10 ^ (-fraction.length : ℤ) := by
  rw [h.ofNumeral_eq]
  rfl

end Positional

end Decimal

/-! ## Reading -/

namespace IsNumeral

open Decimal (signedText)

variable {text : List Char} (h : IsNumeral text)
include h

theorem ofText?_signed (negative : Bool) : Decimal.ofText? (signedText negative text) =
    some { Decimal.ofNumeral text with negative } := by
  cases negative with
  | false => exact h.ofText?_eq
  | true =>
    have hread := h.ofText?_eq
    have hsign : Decimal.cutSign (signedText true text) = (true, text) := rfl
    unfold Decimal.ofText? at hread ⊢
    rw [h.cutSign_eq] at hread
    rw [hsign]
    simp only at hread ⊢
    split at hread
    · exact nomatch hread
    · next hfilled =>
      obtain ⟨exponent, hexponent, hd⟩ := Option.map_eq_some_iff.mp hread
      rw [if_neg hfilled, hexponent, ← hd]
      rfl

/-- A string that is a numeral stands for its number. -/
theorem numberOfString_signed (negative : Bool) :
    Value.numberOfString (String.ofList (signedText negative text)) =
      Number.ofDecimal { Decimal.ofNumeral text with negative } := by
  have hclass : ∀ c ∈ signedText negative text, c = '-' ∨ c.isDigit = true ∨ c = '.' := by
    intro c hc
    rcases List.mem_append.mp hc with hc | hc
    · split at hc
      · exact Or.inl (List.mem_singleton.mp hc)
      · exact nomatch hc
    · exact Or.inr (h.digits c hc)
  have htrim : trim (signedText negative text) = signedText negative text := by
    refine trim_eq_self fun c hc => ?_
    rcases hclass c hc with rfl | hc | rfl
    · decide
    · exact isBlank_of_isNamePart (isNamePart_iff.mpr (Or.inr hc))
    · decide
  have hfilled : (signedText negative text).isEmpty = false := by
    obtain ⟨d, hd, _⟩ := h.digit
    rw [List.isEmpty_eq_false_iff]
    exact List.ne_nil_of_mem (List.mem_append_right _ hd)
  have hword : ∀ word : List Char, 'I' ∈ word → signedText negative text ≠ word := by
    rintro word hI rfl
    exact absurd (hclass 'I' hI) (by decide)
  unfold Value.numberOfString
  simp only [String.toList_ofList]
  rw [htrim, hfilled, if_neg Bool.false_ne_true, if_neg, if_neg, Number.ofNumeral,
    h.ofText?_signed]
  · exact hword _ (by decide)
  · rw [Bool.or_eq_true, decide_eq_true_eq, decide_eq_true_eq, not_or]
    exact ⟨hword _ (by decide), hword _ (by decide)⟩

/-- An expression that is a numeral has its number as value. -/
theorem compile_signed (negative : Bool) (offset : Nat) :
    ∃ plan, Plan.compile (signedText negative text) offset = .ok plan ∧
      ∀ store, plan.evaluate store =
        .number (Number.ofDecimal { Decimal.ofNumeral text with negative }) := by
  have hatom : Written 1 (.atom (.numeral text h)) text :=
    .weaken (by decide) (.atom (.numeral text h))
  obtain ⟨e, hw, hvalue⟩ : ∃ e, Written 1 e (signedText negative text) ∧ ∀ store, e.value store =
      .number (Number.ofDecimal { Decimal.ofNumeral text with negative }) := by
    cases negative with
    | false => exact ⟨_, hatom, fun _ => rfl⟩
    | true =>
      refine ⟨_, @Written.unary .negate rfl _ [] _ rfl hatom, fun _ => ?_⟩
      exact congrArg Value.number (Number.neg_ofDecimal rfl)
  obtain ⟨tokens, hscan, hspell⟩ := @Written.scan_eq _ _ _ [] [] hw rfl rfl
  obtain ⟨plan, hplan, heval⟩ := Plan.ofTokens_of_spelled hspell
  refine ⟨plan, ?_, fun store => (heval store).trans (hvalue store)⟩
  rw [List.nil_append, List.append_nil] at hscan
  unfold Plan.compile Plan.ofText
  rw [hscan]
  show (Plan.ofTokens (Token.settleSigns false tokens)).mapError _ = .ok plan
  rw [hplan]
  rfl

end IsNumeral

end DialogueScript
