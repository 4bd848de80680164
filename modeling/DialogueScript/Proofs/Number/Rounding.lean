import Mathlib
import DialogueScript.Number.Shortest
import DialogueScript.Proofs.Number.Fields

/-!
# Rounding decimals

What a decimal is read as depends on its magnitude alone, and a magnitude that a
finite double denotes exactly is read as that double. So the exact decimal of a
finite double is read back as the double, and so is the shortest one.
-/

namespace DialogueScript

def Decimal.magnitude (d : Decimal) : ℚ := d.digits * 10 ^ d.exponent

namespace Number

/-! ## Division to the nearest -/

theorem divNearest_mul_right (n d : Nat) {k : Nat} (hk : 0 < k) :
    divNearest (n * k) (d * k) = divNearest n d := by
  have hmod : 2 * (n * k % (d * k)) = 2 * (n % d) * k := by
    rw [Nat.mul_mod_mul_right, Nat.mul_assoc]
  unfold divNearest
  simp only [Nat.mul_div_mul_right n d hk, hmod, Nat.mul_lt_mul_right hk, Nat.mul_left_inj hk.ne']

theorem divNearest_mul (m : Nat) {d : Nat} (hd : 0 < d) : divNearest (m * d) d = m := by
  unfold divNearest
  simp [Nat.mul_div_cancel m hd, hd.ne]

theorem div_le_divNearest (n d : Nat) : n / d ≤ divNearest n d := by
  unfold divNearest
  simp only
  split <;> omega

theorem divNearest_of_lt {n d : Nat} (h : 2 * n < d) : divNearest n d = 0 := by
  have hlt : n < d := by omega
  unfold divNearest
  simp [Nat.div_eq_of_lt hlt, Nat.mod_eq_of_lt hlt, h.le]

/-! ## Bit patterns -/

/-- Only the ratio of numerator and denominator counts. -/
theorem nearestBits_mul_right (n d : Nat) {k : Nat} (hk : 0 < k) :
    nearestBits (n * k) (d * k) = nearestBits n d := by
  unfold nearestBits
  simp only [Nat.mul_right_comm n k, Nat.mul_right_comm d k, Nat.mul_div_mul_right _ _ hk,
    divNearest_mul_right _ _ hk]

theorem nearestBits_congr {n d n' d' : Nat} (hd : 0 < d) (hd' : 0 < d') (h : n * d' = n' * d) :
    nearestBits n d = nearestBits n' d' :=
  calc nearestBits n d
    _ = nearestBits (n * d') (d * d') := (nearestBits_mul_right n d hd').symm
    _ = nearestBits (n' * d) (d' * d) := by rw [h, Nat.mul_comm d d']
    _ = nearestBits n' d' := nearestBits_mul_right n' d' hd

/-- The bit pattern of `m * 2 ^ s` least subnormals, where the scale `s` is the least at which
`m` has 53 bits. -/
structure Mantissa (m s bits : Nat) : Prop where
  lt : m < 2 ^ 53
  least : s = 0 ∨ 2 ^ 52 ≤ m
  bits_eq : bits = s * 2 ^ 52 + m

theorem Mantissa.log2_sub {m s bits : Nat} (h : Mantissa m s bits) :
    (m * 2 ^ s).log2 - 52 = s := by
  have hlt := h.lt
  rcases h.least with rfl | hle
  · rw [Nat.pow_zero, Nat.mul_one]
    by_cases hm : m = 0
    · rw [hm]
      rfl
    · have := (Nat.log2_lt hm).mpr hlt
      omega
  · have hlog : (m * 2 ^ s).log2 = 52 + s := by
      have hpos := Nat.two_pow_pos s
      rw [Nat.log2_eq_iff (Nat.mul_ne_zero (by omega) hpos.ne'), Nat.add_right_comm, Nat.pow_add,
        Nat.pow_add]
      exact ⟨Nat.mul_le_mul_right _ hle, Nat.mul_lt_mul_of_pos_right hlt hpos⟩
    omega

/-- A ratio that a double denotes exactly is rounded to it. -/
theorem Mantissa.nearestBits_eq {m s bits n d : Nat} (h : Mantissa m s bits)
    (hb : bits < infinityBits) (hd : 0 < d) (hn : n * 2 ^ leastPlaces = m * 2 ^ s * d) :
    nearestBits n d = bits := by
  have hscale : d * 2 ^ s = 2 ^ s * d := Nat.mul_comm _ _
  unfold nearestBits
  simp only [Nat.pow_eq]
  rw [hn, Nat.mul_div_cancel _ hd, h.log2_sub, hscale, Nat.mul_assoc,
    divNearest_mul _ (Nat.mul_pos (Nat.two_pow_pos s) hd), exponentUnit_eq, ← h.bits_eq]
  exact Nat.min_eq_right hb.le

/-- A ratio of at least `2 ^ 1024` is beyond all finite numbers. -/
theorem nearestBits_of_le {n k : Nat} (hk : 1024 ≤ k) (h : 2 ^ k ≤ n) :
    nearestBits n 1 = infinityBits := by
  unfold nearestBits
  simp only [Nat.pow_eq, Nat.div_one, Nat.one_mul]
  set u := n * 2 ^ leastPlaces
  have hle : 2 ^ (k + leastPlaces) ≤ u := by
    rw [Nat.pow_add]
    exact Nat.mul_le_mul_right _ h
  have hne : u ≠ 0 := (Nat.lt_of_lt_of_le (Nat.two_pow_pos _) hle).ne'
  have hlog : k + 1074 ≤ u.log2 := (Nat.le_log2 hne).mpr hle
  have hm : 2 ^ 52 ≤ u / 2 ^ (u.log2 - 52) := by
    rw [Nat.le_div_iff_mul_le (Nat.two_pow_pos _), ← Nat.pow_add, Nat.add_sub_cancel' (by omega)]
    exact Nat.log2_self_le hne
  have := div_le_divNearest u (2 ^ (u.log2 - 52))
  refine Nat.min_eq_left ?_
  rw [infinityBits_eq, exponentUnit_eq]
  omega

/-- A ratio of less than half the least subnormal is zero. -/
theorem nearestBits_of_lt {n d : Nat} (h : 2 * (n * 2 ^ leastPlaces) < d) :
    nearestBits n d = 0 := by
  unfold nearestBits
  simp only [Nat.pow_eq]
  rw [Nat.div_eq_of_lt (by omega), Nat.log2_zero, Nat.zero_sub, Nat.zero_mul, Nat.pow_zero,
    Nat.mul_one, divNearest_of_lt h]
  exact Nat.min_zero _

/-! ## Decimals -/

theorem two_pow_le_ten_pow {j k : Nat} (h : j ≤ 3 * k) : 2 ^ j ≤ 10 ^ k :=
  calc 2 ^ j
    _ ≤ 2 ^ (3 * k) := Nat.pow_le_pow_right (by decide) h
    _ = (2 ^ 3) ^ k := Nat.pow_mul 2 3 k
    _ ≤ 10 ^ k := Nat.pow_le_pow_left (by decide) k

/-- A decimal is rounded as the ratio that it denotes. Leaving out the great and the small powers
of ten makes no difference. -/
theorem magnitudeBits_eq_nearestBits (d : Decimal) : magnitudeBits d =
    nearestBits (d.digits * 10 ^ d.exponent.toNat) (10 ^ (-d.exponent).toNat) := by
  obtain ⟨negative, n, e⟩ := d
  unfold magnitudeBits
  simp only
  split
  · next h0 =>
    rw [h0, Nat.zero_mul]
    refine (nearestBits_of_lt ?_).symm
    rw [Nat.zero_mul, Nat.mul_zero]
    exact Nat.pow_pos (by decide)
  next h0 =>
  split
  · next hlarge =>
    have hexp : (-e).toNat = 0 := by omega
    rw [hexp, Nat.pow_zero]
    have hbinary : 1024 ≤ 3 * e.toNat := by omega
    refine (nearestBits_of_le hbinary ?_).symm
    calc 2 ^ (3 * e.toNat)
      _ ≤ 10 ^ e.toNat := two_pow_le_ten_pow (Nat.le_refl _)
      _ ≤ n * 10 ^ e.toNat := Nat.le_mul_of_pos_left _ (Nat.pos_of_ne_zero h0)
  split
  · next hsmall =>
    have hexp : e.toNat = 0 := by omega
    rw [hexp, Nat.pow_zero, Nat.mul_one]
    have hplaces : leastPlaces + 1 ≤ 3 * ((-e).toNat - (n.log2 + 1)) := by
      rw [leastPlaces]
      omega
    refine (nearestBits_of_lt ?_).symm
    calc 2 * (n * 2 ^ leastPlaces)
      _ = n * 2 ^ (leastPlaces + 1) := by ring
      _ < 2 ^ (n.log2 + 1) * 2 ^ (leastPlaces + 1) :=
        Nat.mul_lt_mul_of_pos_right Nat.lt_log2_self (Nat.two_pow_pos _)
      _ ≤ 10 ^ (n.log2 + 1) * 10 ^ ((-e).toNat - (n.log2 + 1)) :=
        Nat.mul_le_mul (Nat.pow_le_pow_left (by decide) _) (two_pow_le_ten_pow hplaces)
      _ = 10 ^ (-e).toNat := by rw [← Nat.pow_add, Nat.add_sub_cancel' (by omega)]
  · cases e with
    | ofNat e => simp
    | negSucc e => simp

/-- The magnitude of a decimal as a ratio of natural numbers. -/
theorem magnitude_eq_div (d : Decimal) : d.magnitude =
    ((d.digits * 10 ^ d.exponent.toNat : Nat) : ℚ) / ((10 ^ (-d.exponent).toNat : Nat) : ℚ) := by
  obtain ⟨negative, n, e⟩ := d
  unfold Decimal.magnitude
  cases e with
  | ofNat e => simp
  | negSucc e => simp [zpow_negSucc, div_eq_mul_inv]

/-- Decimals of one magnitude are read as one number. -/
theorem magnitudeBits_congr {d d' : Decimal} (h : d.magnitude = d'.magnitude) :
    magnitudeBits d = magnitudeBits d' := by
  have hpos : ∀ k, 0 < 10 ^ k := fun k => Nat.pow_pos (by decide)
  have hne : ∀ k, ((10 ^ k : Nat) : ℚ) ≠ 0 := fun k => Nat.cast_ne_zero.mpr (hpos k).ne'
  rw [magnitude_eq_div, magnitude_eq_div, div_eq_div_iff (hne _) (hne _)] at h
  rw [magnitudeBits_eq_nearestBits, magnitudeBits_eq_nearestBits]
  exact nearestBits_congr (hpos _) (hpos _) (by exact_mod_cast h)

/-- A decimal that a double denotes exactly is read as this double. -/
theorem Mantissa.magnitudeBits_eq {m s bits : Nat} {d : Decimal} (h : Mantissa m s bits)
    (hb : bits < infinityBits) (hd : d.magnitude * 2 ^ leastPlaces = m * 2 ^ s) :
    magnitudeBits d = bits := by
  have hpos : 0 < 10 ^ (-d.exponent).toNat := Nat.pow_pos (by decide)
  rw [magnitude_eq_div, div_mul_eq_mul_div, div_eq_iff (by exact_mod_cast hpos.ne')] at hd
  rw [magnitudeBits_eq_nearestBits]
  exact h.nearestBits_eq hb hpos (by exact_mod_cast hd)

theorem five_pow_mul_ten_zpow (p : Nat) : (5 : ℚ) ^ p * 10 ^ (-p : ℤ) * 2 ^ p = 1 := by
  rw [zpow_neg, zpow_natCast, mul_right_comm, ← mul_pow]
  norm_num

theorem Mantissa.exactDecimal_eq {m s bits : Nat} (h : Mantissa m s bits) : exactDecimal bits =
    if leastPlaces ≤ s then ⟨false, m * 2 ^ (s - leastPlaces), 0⟩
    else ⟨false, m * 5 ^ (leastPlaces - s), -(leastPlaces - s : Nat)⟩ := by
  obtain ⟨hlt, hleast, rfl⟩ := h
  have hscale : (s * 2 ^ 52 + m) / exponentUnit - 1 = s := by
    rw [exponentUnit_eq]
    omega
  have hmantissa : (if (s * 2 ^ 52 + m) / exponentUnit = 0 then (s * 2 ^ 52 + m) % exponentUnit
      else exponentUnit + (s * 2 ^ 52 + m) % exponentUnit) = m := by
    rw [exponentUnit_eq]
    split <;> omega
  unfold exactDecimal
  simp only [hscale, hmantissa, Nat.pow_eq]

/-- The exact decimal of a finite number denotes the same. -/
theorem Mantissa.magnitude_exactDecimal {m s bits : Nat} (h : Mantissa m s bits) :
    (exactDecimal bits).magnitude * 2 ^ leastPlaces = m * 2 ^ s := by
  rw [h.exactDecimal_eq]
  split
  · next hle =>
    unfold Decimal.magnitude
    rw [zpow_zero, mul_one, Nat.cast_mul, Nat.cast_pow, Nat.cast_ofNat, mul_assoc, ← pow_add,
      Nat.sub_add_cancel hle]
  · next hlt =>
    have hsplit : (2 : ℚ) ^ leastPlaces = 2 ^ (leastPlaces - s) * 2 ^ s := by
      rw [← pow_add, Nat.sub_add_cancel (Nat.le_of_not_le hlt)]
    unfold Decimal.magnitude
    rw [Nat.cast_mul, Nat.cast_pow, Nat.cast_ofNat, hsplit]
    calc (m * 5 ^ (leastPlaces - s) * 10 ^ (-((leastPlaces - s : Nat) : ℤ)) *
          (2 ^ (leastPlaces - s) * 2 ^ s) : ℚ)
      _ = m * (5 ^ (leastPlaces - s) * 10 ^ (-((leastPlaces - s : Nat) : ℤ)) *
          2 ^ (leastPlaces - s)) * 2 ^ s := by ring
      _ = m * 2 ^ s := by rw [five_pow_mul_ten_zpow, mul_one]

theorem exists_mantissa (bits : Nat) : ∃ m s, Mantissa m s bits := by
  by_cases h : bits < 2 ^ 52
  · exact ⟨bits, 0, by omega, Or.inl rfl, by omega⟩
  · exact ⟨2 ^ 52 + bits % 2 ^ 52, bits / 2 ^ 52 - 1, by omega, by omega, by omega⟩

theorem magnitudeBits_exactDecimal {bits : Nat} (hb : bits < infinityBits) :
    magnitudeBits (exactDecimal bits) = bits := by
  obtain ⟨m, s, h⟩ := exists_mantissa bits
  exact h.magnitudeBits_eq hb h.magnitude_exactDecimal

/-- The negative of a number has the sign before its decimal. -/
theorem neg_ofDecimal {d : Decimal} (hd : d.negative = false) :
    -ofDecimal d = ofDecimal { d with negative := true } := by
  have hle : magnitudeBits d ≤ infinityBits := by
    rw [magnitudeBits_eq_nearestBits]
    exact Nat.min_le_left _ _
  unfold ofDecimal
  rw [hd]
  rcases Nat.lt_or_eq_of_le hle with hlt | heq
  · exact neg_ofBits hlt false
  · show -Float.ofBits (UInt64.ofNat (magnitudeBits d + 0)) =
      Float.ofBits (UInt64.ofNat (magnitudeBits d + signBit))
    rw [heq]
    rfl

/-! ## The shortest decimal -/

theorem magnitudeBits_of_cutTo? {bits : Nat} {exact d : Decimal} {count : Nat}
    (h : cutTo? bits exact count = some d) : magnitudeBits d = bits := by
  simpa using List.find?_some h

/-- The digits that are written for a number read back to it. -/
theorem magnitudeBits_shortest {bits : Nat} (hb : bits < infinityBits) :
    magnitudeBits (shortest bits) = bits := by
  unfold shortest
  simp only
  cases h : (List.range' 1 17).findSome? (cutTo? bits (exactDecimal bits)) with
  | none => exact magnitudeBits_exactDecimal hb
  | some d =>
    obtain ⟨count, _, hcut⟩ := List.exists_of_findSome?_eq_some h
    exact magnitudeBits_of_cutTo? hcut

end Number

end DialogueScript
