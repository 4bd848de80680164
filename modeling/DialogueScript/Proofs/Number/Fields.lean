import Mathlib
import DialogueScript.Number.Binary

/-!
# Bit patterns of doubles

The bit pattern of a double is a sign, an exponent field and a mantissa field. A
double is finite unless its exponent field is the greatest one. A finite double is
given back by its bit pattern, it equals itself, and its negative has the same
pattern with the other sign.
-/

namespace DialogueScript.Number

open Float.Model Float.Model.UnpackedFloat

/-! ## Fields -/

theorem exponentUnit_eq : exponentUnit = 2 ^ 52 := rfl

theorem infinityBits_eq : infinityBits = 2047 * 2 ^ 52 := rfl

theorem signBit_eq : signBit = 2 ^ 63 := rfl

/-- The bit pattern with a sign, an exponent field and a mantissa field. -/
def fields (s : Sign) (e : BitVec 11) (m : BitVec 52) : UInt64 :=
  ⟨packComponents .binary64 s e m⟩

def signOf (negative : Bool) : Sign := if negative then .negative else .positive

theorem neg_signOf (negative : Bool) : -signOf negative = signOf !negative := by
  cases negative <;> rfl

theorem toNat_fields (negative : Bool) (e : BitVec 11) (m : BitVec 52) :
    (fields (signOf negative) e m).toNat =
      e.toNat * exponentUnit + m.toNat + if negative then signBit else 0 := by
  have hsign : (signOf negative).toBitVec.toNat = if negative then 1 else 0 := by
    cases negative <;> rfl
  show ((signOf negative).toBitVec ++ e ++ m).toNat = _
  rw [BitVec.toNat_append, BitVec.toNat_append, ← Nat.shiftLeft_add_eq_or_of_lt m.isLt,
    ← Nat.shiftLeft_add_eq_or_of_lt e.isLt, Nat.shiftLeft_eq, Nat.shiftLeft_eq, hsign,
    signBit_eq, exponentUnit_eq]
  split <;> ring

/-- The fields of a magnitude with either sign. -/
theorem ofNat_eq_fields {b : Nat} (hb : b < signBit) (negative : Bool) :
    UInt64.ofNat (b + if negative then signBit else 0) =
      fields (signOf negative) (BitVec.ofNat 11 (b / exponentUnit))
        (BitVec.ofNat 52 (b % exponentUnit)) := by
  refine UInt64.toNat_inj.mp ?_
  rw [signBit_eq] at hb
  rw [toNat_fields, UInt64.toNat_ofNat', BitVec.toNat_ofNat, BitVec.toNat_ofNat, signBit_eq,
    exponentUnit_eq]
  split <;> omega

theorem exists_fields (b : UInt64) : ∃ negative e m, b = fields (signOf negative) e m := by
  have hlt := b.toNat_lt
  have hmagnitude : b.toNat % signBit < signBit := Nat.mod_lt _ (by decide)
  refine ⟨_, _, _, Eq.trans ?_ (ofNat_eq_fields hmagnitude (decide (signBit ≤ b.toNat)))⟩
  refine UInt64.toNat_inj.mp ?_
  rw [UInt64.toNat_ofNat', signBit_eq]
  split
  · next h =>
    have := of_decide_eq_true h
    omega
  · next h =>
    have := of_decide_eq_false (Bool.eq_false_iff.mpr h)
    omega

theorem toNat_lt_of_ne {e : BitVec 11} (he : e ≠ -1#11) : e.toNat < 2047 := by
  have hlt := e.isLt
  have hne : e.toNat ≠ 2047 := fun h => he (BitVec.eq_of_toNat_eq h)
  omega

/-! ## What fields denote -/

theorem ofBitVec_unpackSign (s : Sign) (e : BitVec 11) (m : BitVec 52) :
    Sign.ofBitVec (unpackSign (packComponents .binary64 s e m)) = s := by
  simp only [unpackSign, packComponents, BitVec.extractLsb]
  rw [BitVec.extractLsb'_append_eq_of_le (by omega), BitVec.extractLsb'_append_eq_of_le (by omega)]
  cases s <;> rfl

/-- The cases of a double by its fields. -/
theorem unpack_fields (s : Sign) (e : BitVec 11) (m : BitVec 52) :
    UnpackedFloat.unpack .binary64 (fields s e m).toBitVec =
      if e = -1#11 then if m = 0#52 then .infinity s else .notANumber
      else if e = 0#11 then
        if h : m = 0#52 then .zero s
        else .finite s m.toNat (-1074) (Nat.pos_of_ne_zero fun h0 => h (BitVec.eq_of_toNat_eq h0))
      else .finite s (exponentUnit + m.toNat) (e.toNat - 1075)
        (Nat.add_pos_left (by decide) _) := by
  have hhidden : (1#1 ++ m).toNat = exponentUnit + m.toNat := by
    rw [BitVec.toNat_append, ← Nat.shiftLeft_add_eq_or_of_lt m.isLt, Nat.shiftLeft_eq]
    rfl
  unfold fields UnpackedFloat.unpack
  simp only [unpackMantissa_packComponents, unpackExponent_packComponents, ofBitVec_unpackSign,
    hhidden]
  split
  · rfl
  split
  · next h0 =>
    subst h0
    rfl
  · rfl

theorem neg_unpack_fields (s : Sign) (e : BitVec 11) (m : BitVec 52) :
    (UnpackedFloat.unpack .binary64 (fields s e m).toBitVec).neg =
      UnpackedFloat.unpack .binary64 (fields (-s) e m).toBitVec := by
  simp only [unpack_fields]
  split
  · split <;> rfl
  split
  · split <;> rfl
  · rfl

theorem isFinite_unpack_fields (s : Sign) (e : BitVec 11) (m : BitVec 52) :
    (UnpackedFloat.unpack .binary64 (fields s e m).toBitVec).isFinite = true ↔ e ≠ -1#11 := by
  rw [unpack_fields]
  split
  · next h =>
    refine iff_of_false ?_ fun hne => hne h
    split <;> exact Bool.false_ne_true
  · next h =>
    refine iff_of_true ?_ h
    split
    · split <;> rfl
    · rfl

/-- Packing gives the fields of a finite double back. -/
theorem pack_unpack_fields {e : BitVec 11} (he : e ≠ -1#11) (s : Sign) (m : BitVec 52) :
    UnpackedFloat.pack .binary64 (UnpackedFloat.unpack .binary64 (fields s e m).toBitVec) =
      (fields s e m).toBitVec := by
  have hlt := toNat_lt_of_ne he
  have hm := m.isLt
  have hbits : Format.binary64.mantissaBits = 53 := rfl
  rw [unpack_fields, if_neg he]
  split
  · next h0 =>
    subst h0
    split
    · next hm0 =>
      subst hm0
      rfl
    · next hm0 =>
      have hne : m.toNat ≠ 0 := fun h => hm0 (BitVec.eq_of_toNat_eq h)
      have hlog : m.toNat.log2 < 52 := (Nat.log2_lt hne).mpr hm
      unfold UnpackedFloat.pack
      simp only [hbits]
      rw [if_neg (by decide), if_neg (by omega), BitVec.ofNat_toNat, BitVec.setWidth_eq]
      rfl
  · have hlog : (exponentUnit + m.toNat).log2 = 52 := by
      rw [exponentUnit_eq, Nat.log2_eq_iff (by omega)]
      omega
    have hexponent : ((e.toNat : Int) - 1075 + Format.binary64.exponentBias +
        Format.binary64.mantissaBitsWithoutImplicit).toNat = e.toNat := by
      show ((e.toNat : Int) - 1075 + 1023 + 52).toNat = e.toNat
      omega
    have hmantissa : BitVec.ofNat 52 (exponentUnit + m.toNat) = m := by
      refine BitVec.eq_of_toNat_eq ?_
      rw [BitVec.toNat_ofNat, exponentUnit_eq]
      omega
    unfold UnpackedFloat.pack
    simp only [hlog, hexponent, hbits]
    rw [if_neg (by omega), if_pos trivial, hmantissa, BitVec.ofNat_toNat, BitVec.setWidth_eq]
    rfl

/-! ## Finite doubles -/

theorem eq_of_toBits_eq {x y : Float} (h : x.toBits = y.toBits) : x = y := by
  obtain ⟨⟨b, hb⟩⟩ := x
  obtain ⟨⟨c, hc⟩⟩ := y
  obtain rfl : b = c := h
  rfl

theorem toBits_ofBits_fields {e : BitVec 11} (he : e ≠ -1#11) (s : Sign) (m : BitVec 52) :
    (Float.ofBits (fields s e m)).toBits = fields s e m :=
  UInt64.toBitVec_inj.mp (pack_unpack_fields he s m)

theorem neg_ofBits_fields {e : BitVec 11} (he : e ≠ -1#11) (s : Sign) (m : BitVec 52) :
    -Float.ofBits (fields s e m) = Float.ofBits (fields (-s) e m) := by
  show Float.ofModel (Float.Model.pack (UnpackedFloat.unpack .binary64
    (Float.ofBits (fields s e m)).toBits.toBitVec).neg) = _
  rw [toBits_ofBits_fields he, neg_unpack_fields]
  rfl

theorem isFinite_ofBits_fields {e : BitVec 11} (he : e ≠ -1#11) (s : Sign) (m : BitVec 52) :
    (Float.ofBits (fields s e m)).isFinite = true := by
  show (UnpackedFloat.unpack .binary64
    (Float.ofBits (fields s e m)).toBits.toBitVec).isFinite = true
  rw [toBits_ofBits_fields he]
  exact (isFinite_unpack_fields s e m).mpr he

section

variable {x : Float}

/-- The exponent field of a finite double is not the greatest one. -/
theorem exists_fields_of_isFinite (hx : x.isFinite = true) :
    ∃ negative e m, e ≠ -1#11 ∧ x.toBits = fields (signOf negative) e m := by
  obtain ⟨negative, e, m, hb⟩ := exists_fields x.toBits
  refine ⟨negative, e, m, ?_, hb⟩
  rw [← isFinite_unpack_fields (signOf negative) e m, ← hb]
  exact hx

theorem ofBits_toBits (hx : x.isFinite = true) : Float.ofBits x.toBits = x := by
  obtain ⟨negative, e, m, he, hb⟩ := exists_fields_of_isFinite hx
  refine eq_of_toBits_eq ?_
  rw [hb, toBits_ofBits_fields he]

/-- Without its sign, the bit pattern of a finite double is less than that of infinity. -/
theorem magnitude_lt_of_isFinite (hx : x.isFinite = true) :
    x.toBits.toNat % signBit < infinityBits := by
  obtain ⟨negative, e, m, he, hb⟩ := exists_fields_of_isFinite hx
  have hexponent := toNat_lt_of_ne he
  have hm := m.isLt
  rw [hb, toNat_fields, infinityBits_eq, signBit_eq, exponentUnit_eq]
  split <;> omega

theorem isNaN_of_isFinite (hx : x.isFinite = true) : x.isNaN = false := by
  have hx : x.toModel.unpack.isFinite = true := hx
  show x.toModel.unpack.isNaN = false
  cases hu : x.toModel.unpack with
  | notANumber =>
    rw [hu] at hx
    exact nomatch hx
  | _ => rfl

theorem beq_self_of_isFinite (hx : x.isFinite = true) : (x == x) = true := by
  have hx : x.toModel.unpack.isFinite = true := hx
  show (x.toModel.unpack.compare x.toModel.unpack == some .eq) = true
  cases hu : x.toModel.unpack with
  | notANumber =>
    rw [hu] at hx
    exact nomatch hx
  | infinity s =>
    rw [hu] at hx
    exact nomatch hx
  | zero s => rfl
  | finite s m e hm => cases s <;> simp [UnpackedFloat.compare]

end

/-! ## Magnitudes below infinity -/

section

variable {b : Nat} (hb : b < infinityBits)
include hb

theorem exists_fields_of_lt : ∃ e m, e ≠ -1#11 ∧ ∀ negative : Bool,
    UInt64.ofNat (b + if negative then signBit else 0) = fields (signOf negative) e m := by
  rw [infinityBits_eq] at hb
  have hsign : b < signBit := by
    rw [signBit_eq]
    omega
  refine ⟨_, _, fun he => ?_, ofNat_eq_fields hsign⟩
  have hfield := congrArg BitVec.toNat he
  have hgreatest : (-1#11).toNat = 2047 := rfl
  rw [BitVec.toNat_ofNat, exponentUnit_eq] at hfield
  omega

theorem toNat_toBits_ofBits (negative : Bool) :
    (Float.ofBits (UInt64.ofNat (b + if negative then signBit else 0))).toBits.toNat =
      b + if negative then signBit else 0 := by
  obtain ⟨e, m, he, hfields⟩ := exists_fields_of_lt hb
  rw [infinityBits_eq] at hb
  rw [hfields, toBits_ofBits_fields he, ← hfields, UInt64.toNat_ofNat', signBit_eq]
  split <;> omega

theorem isFinite_ofBits (negative : Bool) :
    (Float.ofBits (UInt64.ofNat (b + if negative then signBit else 0))).isFinite = true := by
  obtain ⟨e, m, he, hfields⟩ := exists_fields_of_lt hb
  rw [hfields]
  exact isFinite_ofBits_fields he _ m

theorem neg_ofBits (negative : Bool) :
    -Float.ofBits (UInt64.ofNat (b + if negative then signBit else 0)) =
      Float.ofBits (UInt64.ofNat (b + if !negative then signBit else 0)) := by
  obtain ⟨e, m, he, hfields⟩ := exists_fields_of_lt hb
  rw [hfields, hfields, neg_ofBits_fields he, neg_signOf]

end

end DialogueScript.Number
