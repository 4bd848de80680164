import Mathlib
import DialogueScript.Proofs.Number.Numerals

/-!
# Printed numbers read back

Main statement: `Number.toText_reads_back`. Every finite number is written in
positional notation. The string that holds the text is converted to the number, and
the text is an expression that has the number as value, where the two zeros count as
one number.

An integer below `10 ^ 15` is written with its own digits: up to there the shortest
decimal that reads back is the integer, since all integers around it are numbers too.
-/

namespace DialogueScript

open Decimal (Positional signedText)

namespace Decimal

theorem magnitude_of_exponent {d : Decimal} {zeros : Nat} (h : d.exponent = zeros) :
    d.magnitude = (d.digits * 10 ^ zeros : Nat) := by
  unfold magnitude
  rw [h, zpow_natCast, Nat.cast_mul, Nat.cast_pow, Nat.cast_ofNat]

theorem magnitude_natCast (negative : Bool) (n : Nat) : magnitude ⟨negative, n, 0⟩ = n := by
  rw [magnitude_of_exponent rfl, Nat.pow_zero, Nat.mul_one]

theorem toDigits_mul_pow {n : Nat} (hn : 0 < n) (k : Nat) :
    Nat.toDigits 10 (n * 10 ^ k) = Nat.toDigits 10 n ++ List.replicate k '0' := by
  induction k with
  | zero => rw [Nat.pow_zero, Nat.mul_one, List.replicate_zero, List.append_nil]
  | succ k ih =>
    have hpos : 0 < n * 10 ^ k := Nat.mul_pos hn (Nat.pow_pos (by decide))
    have hstep := Nat.toDigits_append_toDigits (b := 10) (by decide) hpos (d := 0) (by decide)
    rw [Nat.toDigits_zero, Nat.add_zero] at hstep
    rw [Nat.pow_succ, ← Nat.mul_assoc, Nat.mul_comm, ← hstep, ih, List.append_assoc,
      ← List.replicate_succ']

/-- The zeros that an exponent stands for are written out. -/
theorem toText_of_exponent {d : Decimal} {zeros : Nat} (h : d.exponent = zeros)
    (hd : 0 < d.digits) :
    d.toText = signedText d.negative (Nat.toDigits 10 (d.digits * 10 ^ zeros)) := by
  unfold toText signedText
  rw [h, toDigits_mul_pow hd]

end Decimal

namespace Number

/-! ## Integers -/

/-- An integer of at most 53 bits is a finite number. -/
theorem exists_mantissa_of_lt {n : Nat} (h : n < 2 ^ 53) : ∃ m s bits, Mantissa m s bits ∧
    bits < infinityBits ∧ m * 2 ^ s = n * 2 ^ leastPlaces := by
  by_cases h0 : n = 0
  · refine ⟨0, 0, 0, ⟨by decide, Or.inl rfl, rfl⟩, by decide, ?_⟩
    rw [h0, Nat.zero_mul, Nat.zero_mul]
  · have hlog : n.log2 < 53 := (Nat.log2_lt h0).mpr h
    obtain ⟨k, hk⟩ : ∃ k, n.log2 + k = 52 := ⟨52 - n.log2, by omega⟩
    have hlow : 2 ^ 52 ≤ n * 2 ^ k := by
      rw [← hk, Nat.pow_add]
      exact Nat.mul_le_mul_right _ (Nat.log2_self_le h0)
    have hhigh : n * 2 ^ k < 2 ^ 53 := by
      have hsucc : 53 = n.log2 + 1 + k := by omega
      rw [hsucc, Nat.pow_add]
      exact Nat.mul_lt_mul_of_pos_right Nat.lt_log2_self (Nat.two_pow_pos k)
    have hplaces : k ≤ leastPlaces := by
      rw [leastPlaces]
      omega
    refine ⟨n * 2 ^ k, leastPlaces - k, _, ⟨hhigh, Or.inr hlow, rfl⟩, ?_, ?_⟩
    · rw [infinityBits_eq, leastPlaces]
      omega
    · rw [Nat.mul_assoc, ← Nat.pow_add, Nat.add_sub_cancel' hplaces]

/-- Such an integer is not rounded. -/
theorem magnitude_exactDecimal_of_lt {d : Decimal} {n : Nat} (h : n < 2 ^ 53)
    (hd : d.magnitude = n) : magnitudeBits d < infinityBits ∧
      (exactDecimal (magnitudeBits d)).magnitude = n := by
  obtain ⟨m, s, bits, hm, hb, hn⟩ := exists_mantissa_of_lt h
  have hn : (m * 2 ^ s : ℚ) = n * 2 ^ leastPlaces := by exact_mod_cast hn
  obtain rfl : magnitudeBits d = bits := hm.magnitudeBits_eq hb (by rw [hd, hn])
  refine ⟨hb, ?_⟩
  have hexact := hm.magnitude_exactDecimal
  rw [hn] at hexact
  exact mul_right_cancel₀ (pow_ne_zero _ (by norm_num)) hexact

/-- Such integers are told apart. -/
theorem eq_of_magnitudeBits_eq {d d' : Decimal} {n n' : Nat} (hd : d.magnitude = n)
    (hd' : d'.magnitude = n') (hn : n < 2 ^ 53) (hn' : n' < 2 ^ 53)
    (h : magnitudeBits d = magnitudeBits d') : n = n' := by
  have hexact := (magnitude_exactDecimal_of_lt hn hd).2
  rw [h, (magnitude_exactDecimal_of_lt hn' hd').2] at hexact
  exact_mod_cast hexact.symm

/-- The exact decimal of a number that is an integer has the digits of the integer and zeros
behind the point. -/
theorem exactDecimal_of_integer {bits n : Nat} (h : (exactDecimal bits).magnitude = n) :
    ∃ places : Nat, (exactDecimal bits).exponent = -places ∧
      (exactDecimal bits).digits = n * 10 ^ places := by
  obtain ⟨places, hplaces⟩ : ∃ places : Nat, (exactDecimal bits).exponent = -places := by
    unfold exactDecimal
    simp only
    split
    · exact ⟨0, rfl⟩
    · exact ⟨_, rfl⟩
  refine ⟨places, hplaces, ?_⟩
  unfold Decimal.magnitude at h
  rw [hplaces, zpow_neg, zpow_natCast, ← div_eq_mul_inv,
    div_eq_iff (pow_ne_zero _ (by norm_num))] at h
  exact_mod_cast h

/-- With at most as many digits as the integer has, the candidates are integers themselves. -/
theorem cutTo?_of_integer {bits n places count zeros : Nat} {exact : Decimal} (hn : 0 < n)
    (he : exact.exponent = -places) (hd : exact.digits = n * 10 ^ places)
    (hc : count + zeros = (Nat.toDigits 10 n).length) :
    ∃ candidates : List Decimal,
      cutTo? bits exact count = candidates.find? (fun d => magnitudeBits d = bits) ∧
      ⟨exact.negative, n / 10 ^ zeros, zeros⟩ ∈ candidates ∧
      ∀ d ∈ candidates, d.exponent = zeros ∧ d.digits ≤ 10 ^ count := by
  have hdropped : (Nat.toDigits 10 exact.digits).length - count = places + zeros := by
    rw [hd, Decimal.toDigits_mul_pow hn, List.length_append, List.length_replicate]
    omega
  have hlower : exact.digits / Nat.pow 10 (places + zeros) = n / 10 ^ zeros := by
    rw [hd, Nat.pow_eq, Nat.mul_comm n, Nat.pow_add,
      Nat.mul_div_mul_left _ _ (Nat.pow_pos (by decide))]
  have hexponent : exact.exponent + (places + zeros : Nat) = zeros := by omega
  have hlt : n / 10 ^ zeros < 10 ^ count := by
    rw [Nat.div_lt_iff_lt_mul (Nat.pow_pos (by decide)), ← Nat.pow_add, hc]
    exact (Nat.length_toDigits_le_iff (by decide) Nat.length_toDigits_pos).mp (Nat.le_refl _)
  unfold cutTo?
  simp only [hdropped, hlower, hexponent]
  refine ⟨_, rfl, ?_, fun d hd => ?_⟩
  · split
    · exact List.mem_pair.mpr (Or.inr rfl)
    · exact List.mem_pair.mpr (Or.inl rfl)
  · obtain rfl | rfl : d = ⟨exact.negative, n / 10 ^ zeros, zeros⟩ ∨
        d = ⟨exact.negative, n / 10 ^ zeros + 1, zeros⟩ := by
      split at hd
      · exact (List.mem_pair.mp hd).symm
      · exact List.mem_pair.mp hd
    · exact ⟨rfl, hlt.le⟩
    · exact ⟨rfl, hlt⟩

/-- The first hit of a search upward is not beyond any other. -/
theorem exists_findSome?_range' {α : Type} {f : Nat → Option α} (start n : Nat) {k : Nat}
    (hle : start ≤ k) (hlt : k < start + n) (hk : (f k).isSome = true) :
    ∃ i a, i ≤ k ∧ f i = some a ∧ (List.range' start n).findSome? f = some a := by
  induction n generalizing start with
  | zero => exact absurd hlt (Nat.not_lt_of_le hle)
  | succ n ih =>
    rw [List.range'_succ, List.findSome?_cons]
    cases hf : f start with
    | some a => exact ⟨start, a, hle, hf, rfl⟩
    | none =>
      have hne : start ≠ k := by
        rintro rfl
        rw [hf] at hk
        exact nomatch hk
      exact ih (start + 1) (by omega) (by omega)

/-- Below `10 ^ 15` the shortest decimal of an integer denotes the integer. -/
theorem shortest_of_integer {n : Nat} (hn : 0 < n) (hlt : n < 10 ^ 15) {d : Decimal}
    (hd : d.magnitude = n) : ∃ zeros : Nat, (shortest (magnitudeBits d)).exponent = zeros ∧
      (shortest (magnitudeBits d)).digits * 10 ^ zeros = n := by
  have hlength : 0 < (Nat.toDigits 10 n).length ∧ (Nat.toDigits 10 n).length ≤ 15 :=
    ⟨Nat.length_toDigits_pos, (Nat.length_toDigits_le_iff (by decide) (by decide)).mpr hlt⟩
  have hlong : n < 2 ^ 53 := by omega
  obtain ⟨places, he, hdigits⟩ :=
    exactDecimal_of_integer (magnitude_exactDecimal_of_lt hlong hd).2
  have hall : (cutTo? (magnitudeBits d) (exactDecimal (magnitudeBits d))
      (Nat.toDigits 10 n).length).isSome = true := by
    obtain ⟨candidates, hfind, hlower, _⟩ := cutTo?_of_integer hn he hdigits (Nat.add_zero _)
    rw [hfind, List.find?_isSome]
    refine ⟨_, hlower, decide_eq_true (magnitudeBits_congr ?_)⟩
    rw [hd, Decimal.magnitude_of_exponent rfl, Nat.pow_zero, Nat.div_one, Nat.mul_one]
  obtain ⟨count, found, hle, hfound, hshortest⟩ :=
    exists_findSome?_range' 1 17 (by omega) (by omega) hall
  obtain ⟨zeros, hzeros⟩ := Nat.exists_eq_add_of_le hle
  obtain ⟨candidates, hfind, _, hshape⟩ := cutTo?_of_integer hn he hdigits hzeros.symm
  have hread := magnitudeBits_of_cutTo? hfound
  rw [hfind] at hfound
  obtain ⟨hexponent, hbound⟩ := hshape found (List.mem_of_find?_eq_some hfound)
  -- The decimal that is found is an integer too, so the two cannot be rounded to one number.
  have hsmall : found.digits * 10 ^ zeros < 2 ^ 53 :=
    calc found.digits * 10 ^ zeros
      _ ≤ 10 ^ count * 10 ^ zeros := Nat.mul_le_mul_right _ hbound
      _ = 10 ^ (Nat.toDigits 10 n).length := by rw [← Nat.pow_add, hzeros]
      _ ≤ 10 ^ 15 := Nat.pow_le_pow_right (by decide) hlength.2
      _ < 2 ^ 53 := by decide
  have heq : found.digits * 10 ^ zeros = n :=
    eq_of_magnitudeBits_eq (Decimal.magnitude_of_exponent hexponent) hd hsmall hlong hread
  have hsome : shortest (magnitudeBits d) = found := by
    unfold shortest
    simp only
    rw [hshortest, Option.getD_some]
  rw [hsome]
  exact ⟨zeros, hexponent, heq⟩

/-! ## The text of a finite number -/

def signed (x : Float) : Bool := signBit ≤ x.toBits.toNat && x.toBits.toNat % signBit ≠ 0

theorem toText_of_isFinite {x : Float} (hx : x.isFinite = true) :
    toText x = String.ofList
      { shortest (x.toBits.toNat % signBit) with negative := signed x }.toText := by
  unfold toText
  rw [isNaN_of_isFinite hx, if_neg Bool.false_ne_true, if_neg (magnitude_lt_of_isFinite hx).ne]
  rfl

/-- Only a negative zero has a sign in its bit pattern and is written without one. -/
theorem toNat_toBits_eq (x : Float) : x.toBits.toNat = signBit ∨
    x.toBits.toNat = x.toBits.toNat % signBit + if signed x then signBit else 0 := by
  have hlt := x.toBits.toNat_lt
  unfold signed
  rw [signBit_eq]
  split
  · next h =>
    rw [Bool.and_eq_true, decide_eq_true_eq, decide_eq_true_eq] at h
    omega
  · next h =>
    rw [Bool.and_eq_true, decide_eq_true_eq, decide_eq_true_eq] at h
    omega

/-- A decimal with the magnitude and the sign of a finite number is read as the number. -/
theorem ofDecimal_beq {x : Float} (hx : x.isFinite = true) {d : Decimal}
    (hbits : magnitudeBits d = x.toBits.toNat % signBit) (hsign : d.negative = signed x) :
    (ofDecimal d == x) = true := by
  have hself : Float.ofBits (UInt64.ofNat x.toBits.toNat) = x := by
    rw [UInt64.ofNat_toNat, ofBits_toBits hx]
  unfold ofDecimal
  rw [hbits, hsign]
  rcases toNat_toBits_eq x with hzero | heq
  · rw [hzero] at hself
    rw [signed, hzero, ← hself]
    rfl
  · rw [← heq, hself]
    exact beq_self_of_isFinite hx

/-- The text of a finite number is a numeral of the same magnitude, behind the sign. -/
theorem exists_numeral {x : Float} (hx : x.isFinite = true) :
    ∃ text whole fraction, toText x = String.ofList (signedText (signed x) text) ∧
      Positional text whole fraction ∧
      magnitudeBits (Decimal.ofNumeral text) = x.toBits.toNat % signBit := by
  let d := { shortest (x.toBits.toNat % signBit) with negative := signed x }
  obtain ⟨text, whole, fraction, htext, hp, hvalue⟩ := d.exists_positional
  refine ⟨text, whole, fraction, ?_, hp, ?_⟩
  · rw [toText_of_isFinite hx]
    exact congrArg String.ofList htext
  · calc magnitudeBits (Decimal.ofNumeral text)
      _ = magnitudeBits d := magnitudeBits_congr (hp.magnitude_ofNumeral.trans hvalue)
      _ = x.toBits.toNat % signBit := magnitudeBits_shortest (magnitude_lt_of_isFinite hx)

theorem toString_int_eq (n : Int) :
    toString n = String.ofList (signedText (n < 0) (Nat.toDigits 10 n.natAbs)) := by
  rw [Int.toString_eq_repr, Int.repr_eq_if]
  split
  · next h =>
    have habs : n.toNat = n.natAbs := by omega
    rw [Nat.repr_eq_ofList_toDigits, decide_eq_false (Int.not_lt.mpr h), habs]
    rfl
  · next h =>
    have habs : (-n).toNat = n.natAbs := by omega
    rw [Nat.repr_eq_ofList_toDigits, decide_eq_true (Int.not_le.mp h), habs]
    exact String.ofList_append.symm

/-- The bit pattern of an integer other than zero has its magnitude and its sign. -/
theorem toBits_ofInt {n : Int} (h0 : n ≠ 0) (hn : n.natAbs < 2 ^ 53) :
    (ofInt n).isFinite = true ∧
      (ofInt n).toBits.toNat % signBit = magnitudeBits ⟨n < 0, n.natAbs, 0⟩ ∧
      signed (ofInt n) = decide (n < 0) := by
  have hd := Decimal.magnitude_natCast (n < 0) n.natAbs
  have hb := (magnitude_exactDecimal_of_lt hn hd).1
  have hne : magnitudeBits ⟨n < 0, n.natAbs, 0⟩ ≠ 0 := fun hzero =>
    h0 (Int.natAbs_eq_zero.mp (eq_of_magnitudeBits_eq hd (Decimal.magnitude_natCast false 0) hn
      (Nat.two_pow_pos 53) hzero))
  have hbits : (ofInt n).toBits.toNat = _ := toNat_toBits_ofBits hb (n < 0)
  have hfinite : (ofInt n).isFinite = true := isFinite_ofBits hb (n < 0)
  rw [infinityBits_eq] at hb
  have hmagnitude : (ofInt n).toBits.toNat % signBit = magnitudeBits ⟨n < 0, n.natAbs, 0⟩ := by
    rw [hbits, signBit_eq]
    split <;> omega
  have hsign : signBit ≤ (ofInt n).toBits.toNat ↔ n < 0 := by
    rw [hbits, signBit_eq]
    split
    · next h =>
      have := of_decide_eq_true h
      omega
    · next h =>
      have := of_decide_eq_false (Bool.eq_false_iff.mpr h)
      omega
  refine ⟨hfinite, hmagnitude, ?_⟩
  unfold signed
  rw [hmagnitude, decide_eq_true hne, Bool.and_true, decide_eq_decide]
  exact hsign

theorem toText_ofInt {n : Int} (hn : n.natAbs < 10 ^ 15) : toText (ofInt n) = toString n := by
  by_cases h0 : n = 0
  · subst h0
    decide +kernel
  · obtain ⟨hfinite, hmagnitude, hsigned⟩ := toBits_ofInt h0 (by omega)
    have hpos : 0 < n.natAbs := Int.natAbs_pos.mpr h0
    obtain ⟨zeros, hexponent, hdigits⟩ :=
      shortest_of_integer hpos hn (Decimal.magnitude_natCast (n < 0) _)
    rw [← hdigits] at hpos
    have htext := Decimal.toText_of_exponent
      (d := { shortest (magnitudeBits ⟨n < 0, n.natAbs, 0⟩) with negative := decide (n < 0) })
      hexponent (Nat.pos_of_mul_pos_right hpos)
    rw [toText_of_isFinite hfinite, hmagnitude, hsigned, htext, toString_int_eq]
    exact congrArg (fun m => String.ofList (signedText (n < 0) (Nat.toDigits 10 m))) hdigits

/-! ## Reading back -/

/-- A finite number is written as an optional sign and digits with at most one point. Its text
is read back to it, both as a string in the place of a number and as an expression. An integer
below `10 ^ 15` is written as it is. -/
theorem toText_reads_back (x : Float) (hx : x.isFinite = true) :
    (∃ text whole fraction, Positional text whole fraction ∧
      ((toText x).toList = text ∨ (toText x).toList = '-' :: text)) ∧
    (∀ n : Int, n.natAbs < 10 ^ 15 → x = ofInt n → toText x = toString n) ∧
    Value.strictEq (.number (Value.str (toText x)).toNumber) (.number x) = true ∧
    ∀ offset, ∃ plan, Plan.compile (toText x).toList offset = .ok plan ∧
      ∀ store, ∃ y, plan.evaluate store = .number y ∧
        Value.strictEq (.number y) (.number x) = true := by
  obtain ⟨text, whole, fraction, htext, hp, hbits⟩ := exists_numeral hx
  have hread : (ofDecimal { Decimal.ofNumeral text with negative := signed x } == x) = true :=
    ofDecimal_beq hx hbits rfl
  refine ⟨⟨text, whole, fraction, hp, ?_⟩, ?_, ?_, fun offset => ?_⟩
  · rw [htext, String.toList_ofList]
    cases signed x with
    | false => exact Or.inl rfl
    | true => exact Or.inr rfl
  · rintro n hn rfl
    exact toText_ofInt hn
  · show (Value.numberOfString (toText x) == x) = true
    rw [htext, hp.isNumeral.numberOfString_signed]
    exact hread
  · obtain ⟨plan, hplan, hvalue⟩ := hp.isNumeral.compile_signed (signed x) offset
    rw [htext, String.toList_ofList]
    exact ⟨plan, hplan, fun store => ⟨_, hvalue store, hread⟩⟩

/-- The negative of the least subnormal number is written with 324 places. -/
theorem toText_reads_back_least_subnormal :
    (Float.ofBits 0x8000000000000001).isFinite = true ∧
    (∃ text whole fraction, Positional text whole fraction ∧
      ((toText (Float.ofBits 0x8000000000000001)).toList = text ∨
        (toText (Float.ofBits 0x8000000000000001)).toList = '-' :: text)) ∧
    Value.strictEq (.number (Value.str (toText (Float.ofBits 0x8000000000000001))).toNumber)
      (.number (Float.ofBits 0x8000000000000001)) = true ∧
    ∃ plan, Plan.compile (toText (Float.ofBits 0x8000000000000001)).toList 0 = .ok plan ∧
      ∀ store, ∃ y, plan.evaluate store = .number y ∧
        Value.strictEq (.number y) (.number (Float.ofBits 0x8000000000000001)) = true := by
  have hfinite : (Float.ofBits 0x8000000000000001).isFinite = true := by decide +kernel
  obtain ⟨hshape, _, hstring, hexpression⟩ := toText_reads_back _ hfinite
  exact ⟨hfinite, hshape, hstring, hexpression 0⟩

end Number

end DialogueScript
