import Mathlib
import Mdrj.L1Encoding.Flt

/-!
# Rounding to doubles

Clock readings are doubles, and so are the differences of two of them, after
rounding. Rounding keeps the order, and a difference that has few enough
bits is not rounded at all; comparisons of rounded differences then say the
same as comparisons of the exact ones.

Results:
* `ilog2_spec`: the exponent used by `ofRat` is that of the value.
* `ofRat_mono`: rounding keeps the order.
* `isDouble_of_multiple`: a small multiple of a power of two is a double, and
  so is the difference of two near doubles (`isDouble_sub_near`).
-/
namespace Mdrj.L1
namespace Flt

/-- The value of a finite double. -/
def IsDouble (q : ℚ) : Prop := ofRat q = .fin q

instance (q : ℚ) : Decidable (IsDouble q) := inferInstanceAs (Decidable (ofRat q = .fin q))

/-- The exponent of the last bit kept of a positive value. -/
def lastBit (a : ℚ) : ℤ := max (ilog2 a - 52) (-1074)

/-- A positive value rounded to 53 bits. -/
def rounded (a : ℚ) : ℚ := roundHalfEven (a / pow2 (lastBit a)) * pow2 (lastBit a)

theorem pow2_eq (e : ℤ) : pow2 e = (2 : ℚ) ^ e := by
  unfold pow2
  split
  · next h =>
    conv_rhs => rw [← Int.toNat_of_nonneg h]
    rw [zpow_natCast]
  · next h =>
    have hneg : e = -((-e).toNat : ℤ) := by
      rw [Int.toNat_of_nonneg (by omega)]
      omega
    conv_rhs => rw [hneg]
    rw [zpow_neg, zpow_natCast, one_div]

theorem pow2_pos (e : ℤ) : 0 < pow2 e := by
  rw [pow2_eq]
  positivity

theorem pow2_add (d e : ℤ) : pow2 (d + e) = pow2 d * pow2 e := by
  rw [pow2_eq, pow2_eq, pow2_eq, zpow_add₀ (by norm_num)]

theorem pow2_le {d e : ℤ} (h : d ≤ e) : pow2 d ≤ pow2 e := by
  rw [pow2_eq, pow2_eq]
  exact zpow_le_zpow_right₀ (by norm_num) h

theorem lt_of_pow2_lt {d e : ℤ} (h : pow2 d < pow2 e) : d < e := by
  by_contra hle
  exact absurd h (not_lt.2 (pow2_le (not_lt.1 hle)))

/-- A power of two of a non-negative exponent, as an integer. -/
theorem pow2_toNat {e : ℤ} (h : 0 ≤ e) : pow2 e = ((2 ^ e.toNat : ℤ) : ℚ) := by
  unfold pow2
  rw [if_pos h]
  push_cast
  rfl

/-! ## The exponent -/

theorem log2_bounds {n : ℕ} (hn : n ≠ 0) : pow2 n.log2 ≤ n ∧ (n : ℚ) < pow2 (n.log2 + 1) := by
  have hlow : 2 ^ n.log2 ≤ n := Nat.log2_self_le hn
  have hhigh : n < 2 ^ (n.log2 + 1) := Nat.lt_log2_self
  rw [pow2_eq, pow2_eq, ← Int.natCast_one, ← Int.natCast_add, zpow_natCast, zpow_natCast]
  exact ⟨by exact_mod_cast hlow, by exact_mod_cast hhigh⟩

theorem ilog2_spec {q : ℚ} (hq : 0 < q) : pow2 (ilog2 q) ≤ q ∧ q < pow2 (ilog2 q + 1) := by
  have hnum : q.num.natAbs ≠ 0 := Int.natAbs_ne_zero.2 (Rat.num_pos.2 hq).ne'
  obtain ⟨hn, hn'⟩ := log2_bounds hnum
  obtain ⟨hd, hd'⟩ := log2_bounds q.den_nz
  have hden : (0 : ℚ) < q.den := by exact_mod_cast q.den_pos
  have hval : q * q.den = q.num.natAbs := by
    have habs : (q.num.natAbs : ℤ) = q.num := Int.natAbs_of_nonneg (Rat.num_pos.2 hq).le
    rw [Rat.mul_den_eq_num, ← Int.cast_natCast, habs]
  generalize ha : (q.num.natAbs.log2 : ℤ) = a at hn hn'
  generalize hb : (q.den.log2 : ℤ) = b at hd hd'
  have hhigh : q < pow2 (a - b + 1) := by
    have hmul : q * pow2 b < pow2 (a - b + 1) * pow2 b := by
      rw [← pow2_add, show a - b + 1 + b = a + 1 by ring]
      calc q * pow2 b ≤ q * q.den := mul_le_mul_of_nonneg_left hd hq.le
        _ = q.num.natAbs := hval
        _ < pow2 (a + 1) := hn'
    exact lt_of_mul_lt_mul_right hmul (pow2_pos b).le
  have hlow : pow2 (a - b - 1) ≤ q := by
    have hmul : pow2 (a - b - 1) * pow2 (b + 1) ≤ q * pow2 (b + 1) := by
      rw [← pow2_add, show a - b - 1 + (b + 1) = a by ring]
      calc pow2 a ≤ q.num.natAbs := hn
        _ = q * q.den := hval.symm
        _ ≤ q * pow2 (b + 1) := mul_le_mul_of_nonneg_left hd'.le hq.le
    exact le_of_mul_le_mul_right hmul (pow2_pos _)
  unfold ilog2
  rw [ha, hb]
  dsimp only
  split
  · next h => exact ⟨hlow, by rw [sub_add_cancel]; exact h⟩
  · next h => exact ⟨not_lt.1 h, hhigh⟩

theorem ilog2_mono {p q : ℚ} (hp : 0 < p) (h : p ≤ q) : ilog2 p ≤ ilog2 q := by
  have hlt : pow2 (ilog2 p) < pow2 (ilog2 q + 1) :=
    calc pow2 (ilog2 p) ≤ p := (ilog2_spec hp).1
      _ ≤ q := h
      _ < pow2 (ilog2 q + 1) := (ilog2_spec (hp.trans_le h)).2
  have := lt_of_pow2_lt hlt
  omega

/-! ## Rounding to an integer -/

theorem roundHalfEven_bounds (x : ℚ) : x.floor ≤ roundHalfEven x ∧ roundHalfEven x ≤ x.floor + 1 := by
  unfold roundHalfEven
  dsimp only
  split
  · omega
  · split
    · omega
    · split <;> omega

theorem le_roundHalfEven {x : ℚ} {n : ℤ} (h : (n : ℚ) ≤ x) : n ≤ roundHalfEven x :=
  (Rat.le_floor_iff.2 h).trans (roundHalfEven_bounds x).1

theorem roundHalfEven_le {x : ℚ} {n : ℤ} (h : x ≤ n) : roundHalfEven x ≤ n := by
  have hfloor : (x.floor : ℚ) ≤ x := Rat.floor_le x
  rcases lt_or_ge x.floor n with hlt | hge
  · have := (roundHalfEven_bounds x).2
    omega
  · have hx : x = x.floor := le_antisymm (h.trans (by exact_mod_cast hge)) hfloor
    have hd : x - x.floor < 1 / 2 := by
      rw [← hx, sub_self]
      norm_num
    unfold roundHalfEven
    dsimp only
    rw [if_pos hd]
    have hle : (x.floor : ℚ) ≤ n := hfloor.trans h
    exact_mod_cast hle

theorem roundHalfEven_intCast (n : ℤ) : roundHalfEven (n : ℚ) = n :=
  le_antisymm (roundHalfEven_le le_rfl) (le_roundHalfEven le_rfl)

theorem roundHalfEven_mono {x y : ℚ} (h : x ≤ y) : roundHalfEven x ≤ roundHalfEven y := by
  have hfloor : x.floor ≤ y.floor := Rat.le_floor_iff.2 ((Rat.floor_le x).trans h)
  rcases hfloor.lt_or_eq with hlt | heq
  · have hx := (roundHalfEven_bounds x).2
    have hy := (roundHalfEven_bounds y).1
    omega
  · unfold roundHalfEven
    dsimp only
    rw [heq]
    split
    · split
      · omega
      · split
        · omega
        · split <;> omega
    · next hx =>
      rw [if_neg (show ¬ y - y.floor < 1 / 2 by intro hy; exact hx (by linarith))]
      split
      · next hx' => rw [if_pos (show 1 / 2 < y - y.floor by linarith)]
      · split
        · split
          · omega
          · omega
        · split <;> omega

/-! ## Rounding to 53 bits -/

theorem rounded_pos {a : ℚ} (ha : 0 < a) : 0 ≤ rounded a := by
  have hr : (0 : ℤ) ≤ roundHalfEven (a / pow2 (lastBit a)) :=
    le_roundHalfEven (by exact_mod_cast (div_pos ha (pow2_pos _)).le)
  exact mul_nonneg (by exact_mod_cast hr) (pow2_pos _).le

theorem lastBit_mono {p q : ℚ} (hp : 0 < p) (h : p ≤ q) : lastBit p ≤ lastBit q := by
  have := ilog2_mono hp h
  unfold lastBit
  omega

/-- A value is rounded to no more than a multiple of its last bit above it. -/
theorem rounded_le {a : ℚ} {e : ℤ} (he : lastBit a ≤ e) (h : a ≤ pow2 e) : rounded a ≤ pow2 e := by
  have hpos := pow2_pos (lastBit a)
  have hsplit : pow2 e = pow2 (e - lastBit a) * pow2 (lastBit a) := by
    rw [← pow2_add, sub_add_cancel]
  have hint : roundHalfEven (a / pow2 (lastBit a)) ≤ (2 ^ (e - lastBit a).toNat : ℤ) := by
    refine roundHalfEven_le ?_
    rw [← pow2_toNat (by omega), div_le_iff₀ hpos, ← hsplit]
    exact h
  rw [rounded, hsplit, pow2_toNat (e := e - lastBit a) (by omega)]
  exact mul_le_mul_of_nonneg_right (by exact_mod_cast hint) hpos.le

theorem le_rounded {a : ℚ} {e : ℤ} (he : lastBit a ≤ e) (h : pow2 e ≤ a) : pow2 e ≤ rounded a := by
  have hpos := pow2_pos (lastBit a)
  have hsplit : pow2 e = pow2 (e - lastBit a) * pow2 (lastBit a) := by
    rw [← pow2_add, sub_add_cancel]
  have hint : (2 ^ (e - lastBit a).toNat : ℤ) ≤ roundHalfEven (a / pow2 (lastBit a)) := by
    refine le_roundHalfEven ?_
    rw [← pow2_toNat (by omega), le_div_iff₀ hpos, ← hsplit]
    exact h
  rw [rounded, hsplit, pow2_toNat (e := e - lastBit a) (by omega)]
  exact mul_le_mul_of_nonneg_right (by exact_mod_cast hint) hpos.le

theorem rounded_mono {p q : ℚ} (hp : 0 < p) (h : p ≤ q) : rounded p ≤ rounded q := by
  rcases (lastBit_mono hp h).lt_or_eq with hlt | heq
  · -- different last bits: a power of two lies between
    have hq := ilog2_spec (hp.trans_le h)
    have hbit : lastBit q = ilog2 q - 52 := by
      have : -1074 ≤ lastBit p := le_max_right _ _
      unfold lastBit at hlt ⊢
      omega
    have hexp : ilog2 p + 1 ≤ ilog2 q := by
      have : ilog2 p - 52 ≤ lastBit p := le_max_left _ _
      omega
    have hlow : p ≤ pow2 (ilog2 q) := (ilog2_spec hp).2.le.trans (pow2_le hexp)
    exact (rounded_le (by omega) hlow).trans (le_rounded (by omega) hq.1)
  · unfold rounded
    rw [heq]
    have hdiv : p / pow2 (lastBit q) ≤ q / pow2 (lastBit q) := div_le_div_of_nonneg_right h (pow2_pos _).le
    exact mul_le_mul_of_nonneg_right (by exact_mod_cast roundHalfEven_mono hdiv) (pow2_pos _).le

theorem ofRat_pos {q : ℚ} (hq : 0 < q) :
    ofRat q = if pow2 1024 ≤ rounded q then .posInf else .fin (rounded q) := by
  unfold ofRat
  rw [if_neg hq.ne']
  dsimp only
  rw [abs_of_pos hq, if_neg (not_lt.2 hq.le), if_neg (not_lt.2 hq.le)]
  rfl

theorem ofRat_neg (q : ℚ) : ofRat (-q) = (ofRat q).neg := by
  unfold ofRat
  dsimp only
  rw [abs_neg]
  rcases lt_trichotomy q 0 with hq | rfl | hq
  · rw [if_neg (by linarith), if_neg hq.ne, if_neg (show ¬ -q < 0 by linarith), if_pos hq,
      if_neg (show ¬ -q < 0 by linarith), if_pos hq]
    split
    · rfl
    · simp [neg]
  · simp [neg]
  · rw [if_neg (by linarith), if_neg hq.ne', if_pos (show -q < 0 by linarith), if_neg (show ¬ q < 0 by linarith),
      if_pos (show -q < 0 by linarith), if_neg (show ¬ q < 0 by linarith)]
    split <;> rfl

theorem neg_lt_neg (x y : Flt) : lt x.neg y.neg = lt y x := by
  cases x <;> cases y <;> simp [neg, lt]

/-- A positive value is rounded to no negative one. -/
theorem ofRat_nonneg {q : ℚ} (hq : 0 < q) : ofRat q = .posInf ∨ ∃ r, 0 ≤ r ∧ ofRat q = .fin r := by
  rw [ofRat_pos hq]
  split
  · exact .inl rfl
  · exact .inr ⟨rounded q, rounded_pos hq, rfl⟩

theorem ofRat_mono_pos {p q : ℚ} (hp : 0 < p) (h : p ≤ q) : lt (ofRat q) (ofRat p) = false := by
  have hle := rounded_mono hp h
  rw [ofRat_pos hp, ofRat_pos (hp.trans_le h)]
  split
  · split <;> rfl
  · next hq =>
    rw [if_neg fun hpow => hq (hpow.trans hle)]
    simp [lt, hle]

/-- **Rounding keeps the order.** -/
theorem ofRat_mono {p q : ℚ} (h : p ≤ q) : lt (ofRat q) (ofRat p) = false := by
  have hzero : ofRat 0 = .fin 0 := by simp [ofRat]
  have hneg : ∀ {r : ℚ}, r < 0 → ofRat r = .negInf ∨ ∃ s, s ≤ 0 ∧ ofRat r = .fin s := by
    intro r hr
    have hflip : ofRat r = (ofRat (-r)).neg := by rw [← ofRat_neg, neg_neg]
    rcases ofRat_nonneg (show 0 < -r by linarith) with hinf | ⟨s, hs, hfin⟩
    · exact .inl (by rw [hflip, hinf]; rfl)
    · exact .inr ⟨-s, by linarith, by rw [hflip, hfin]; rfl⟩
  rcases lt_trichotomy p 0 with hp | rfl | hp
  · rcases lt_trichotomy q 0 with hq | rfl | hq
    · have hflip := ofRat_mono_pos (show 0 < -q by linarith) (show -q ≤ -p by linarith)
      rwa [ofRat_neg, ofRat_neg, neg_lt_neg] at hflip
    · rw [hzero]
      rcases hneg hp with hinf | ⟨s, hs, hfin⟩
      · rw [hinf]; rfl
      · rw [hfin]; simp [lt, hs]
    · rcases hneg hp with hinf | ⟨s, hs, hfin⟩
      · rw [hinf]
        cases ofRat q <;> rfl
      · rw [hfin]
        rcases ofRat_nonneg hq with hinf | ⟨r, hr, hfin⟩
        · rw [hinf]; rfl
        · rw [hfin]
          simp [lt, hs.trans hr]
  · rcases h.lt_or_eq with hq | rfl
    · rw [hzero]
      rcases ofRat_nonneg hq with hinf | ⟨r, hr, hfin⟩
      · rw [hinf]; rfl
      · rw [hfin]
        simp [lt, hr]
    · exact lt_irrefl _
  · exact ofRat_mono_pos hp h

/-! ## Exact results -/

/-- A value of at most 53 bits is kept. -/
theorem rounded_of_multiple {a : ℚ} (ha : 0 < a) {m e : ℤ} (he : -1074 ≤ e) (hval : a = m * pow2 e)
    (hm : a < pow2 (e + 53)) : rounded a = a := by
  have hlog : ilog2 a < e + 53 := lt_of_pow2_lt ((ilog2_spec ha).1.trans_lt hm)
  have hbit : lastBit a ≤ e := by
    unfold lastBit
    omega
  have hint : a / pow2 (lastBit a) = ((m * 2 ^ (e - lastBit a).toNat : ℤ) : ℚ) := by
    rw [Int.cast_mul, ← pow2_toNat (by omega), div_eq_iff (pow2_pos _).ne', mul_assoc, ← pow2_add,
      sub_add_cancel, hval]
  rw [rounded, hint, roundHalfEven_intCast, ← hint, div_mul_cancel₀ _ (pow2_pos _).ne']

theorem isDouble_of_multiple {q : ℚ} {m e : ℤ} (he : -1074 ≤ e) (hval : q = m * pow2 e)
    (hm : |q| < pow2 (e + 53)) (hmax : |q| < pow2 1024) : IsDouble q := by
  unfold IsDouble
  rcases lt_trichotomy q 0 with hq | rfl | hq
  · rw [abs_of_neg hq] at hm hmax
    have hround : rounded (-q) = -q :=
      rounded_of_multiple (by linarith) he (m := -m) (by rw [hval]; push_cast; ring) hm
    have hflip : ofRat q = (ofRat (-q)).neg := by rw [← ofRat_neg, neg_neg]
    rw [hflip, ofRat_pos (show 0 < -q by linarith), hround, if_neg (not_le.2 hmax)]
    simp [neg]
  · simp [ofRat]
  · rw [abs_of_pos hq] at hm hmax
    rw [ofRat_pos hq, rounded_of_multiple hq he hval hm, if_neg (not_le.2 hmax)]

/-- A positive double is a multiple of its last bit. -/
theorem IsDouble.multiple {q : ℚ} (h : IsDouble q) (hq : 0 < q) : ∃ m : ℤ, q = m * pow2 (lastBit q) := by
  unfold IsDouble at h
  rw [ofRat_pos hq] at h
  split at h
  · cases h
  · exact ⟨_, (Flt.fin.inj h).symm⟩

/-- A difference that is a multiple of the last bit of the larger value is
not rounded. -/
theorem isDouble_sub_multiple {p q : ℚ} (hp : IsDouble p) (hq : 0 ≤ q) (hle : q < p) {m e : ℤ}
    (he : e ≤ lastBit p) (hmin : -1074 ≤ e) (hval : q = m * pow2 e) (hsmall : p - q < pow2 (e + 53)) :
    IsDouble (p - q) := by
  have hpos : 0 < p := hq.trans_lt hle
  obtain ⟨k, hk⟩ := hp.multiple hpos
  have hdiff : p - q = ((k * 2 ^ (lastBit p - e).toNat - m : ℤ) : ℚ) * pow2 e := by
    rw [Int.cast_sub, Int.cast_mul, ← pow2_toNat (by omega), sub_mul, mul_assoc, ← pow2_add, sub_add_cancel,
      ← hk, ← hval]
  have habs : |p - q| = p - q := abs_of_pos (by linarith)
  have hfinite : p < pow2 1024 := by
    have hround := hp
    unfold IsDouble at hround
    rw [ofRat_pos hpos] at hround
    split at hround
    · cases hround
    · next hlt =>
      rw [Flt.fin.inj hround] at hlt
      exact not_le.1 hlt
  refine isDouble_of_multiple hmin hdiff ?_ ?_
  · rw [habs]
    exact hsmall
  · rw [habs]
    linarith

/-- The difference of two doubles within a factor of two of each other. -/
theorem isDouble_sub_near {p q : ℚ} (hp : IsDouble p) (hq : IsDouble q) (hpos : 0 < q) (hle : q ≤ p)
    (hnear : p - q ≤ q) : IsDouble (p - q) := by
  rcases hle.lt_or_eq with hlt | rfl
  · obtain ⟨m, hm⟩ := hq.multiple hpos
    refine isDouble_sub_multiple hp hpos.le hlt (lastBit_mono hpos hle) (le_max_right _ _) hm ?_
    have hbit : ilog2 q - 52 ≤ lastBit q := le_max_left _ _
    exact hnear.trans_lt ((ilog2_spec hpos).2.trans_le (pow2_le (by omega)))
  · rw [sub_self]
    simp [IsDouble, ofRat]

/-- A double below 2^53 less an integer. -/
theorem isDouble_sub_int {p : ℚ} (hp : IsDouble p) {n : ℤ} (hn : 0 ≤ n) (hle : (n : ℚ) ≤ p) (hlt : p < pow2 53) :
    IsDouble (p - n) := by
  rcases hle.lt_or_eq with hless | heq
  · have hpos : 0 < p := lt_of_le_of_lt (by exact_mod_cast hn) hless
    have hlog : ilog2 p < 53 := lt_of_pow2_lt ((ilog2_spec hpos).1.trans_lt hlt)
    have hbit : lastBit p ≤ 0 := by
      unfold lastBit
      omega
    have hval : (n : ℚ) = ((n * 2 ^ (-lastBit p).toNat : ℤ) : ℚ) * pow2 (lastBit p) := by
      rw [Int.cast_mul, ← pow2_toNat (by omega), mul_assoc, ← pow2_add, neg_add_cancel]
      simp [pow2]
    refine isDouble_sub_multiple hp (by exact_mod_cast hn) hless le_rfl (le_max_right _ _) hval ?_
    have hbits : ilog2 p - 52 ≤ lastBit p := le_max_left _ _
    have hsmall : p - n ≤ p := sub_le_self _ (by exact_mod_cast hn)
    exact hsmall.trans_lt ((ilog2_spec hpos).2.trans_le (pow2_le (by omega)))
  · rw [heq, sub_self]
    simp [IsDouble, ofRat]

end Flt
end Mdrj.L1
