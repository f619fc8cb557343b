import Mathlib
import Reprint.Decimal.Binary64
/-!
Which double an integer of 64 bits becomes. Doubles stand for rational numbers (`value`), and `Nearest` says which of
them a number is rounded to. From 2 ^ 63 to 2 ^ 64 they are the multiples of 2048. Main statement: such an integer is
rounded to the nearest double, a half to the one with the even mantissa (`ofRatio?_nearest`).
-/

namespace Reprint.Binary64

/-- The number that a double stands for. -/
def value (x : Binary64) : ℚ := (if x.negative then -1 else 1) * x.mantissa * 2 ^ x.exponent

/-- The numbers that there are: mantissas have 53 bits, or fewer with the least exponent. -/
structure Normal (x : Binary64) : Prop where
  lt : x.mantissa < 2 ^ 53
  full : 2 ^ 52 ≤ x.mantissa ∨ x.exponent = leastExponent
  least : leastExponent ≤ x.exponent
  greatest : x.exponent ≤ greatestExponent

/-- No number is nearer to `q`, and where another one is as near, the mantissa is even. -/
structure Nearest (x : Binary64) (q : ℚ) : Prop where
  normal : x.Normal
  le : ∀ y : Binary64, y.Normal → |x.value - q| ≤ |y.value - q|
  even : ∀ y : Binary64, y.Normal → y.value ≠ x.value → |y.value - q| = |x.value - q| → x.mantissa % 2 = 0

/-- A number is less than 2 ^ 63, or it is a multiple of 2048. -/
theorem Normal.value_cases {y : Binary64} (h : y.Normal) : y.value < 2 ^ 63 ∨ ∃ k : Nat, y.value = k * 2048 := by
  have hlt : (y.mantissa : ℚ) < 2 ^ 53 := by exact_mod_cast h.lt
  have hpos : (0 : ℚ) < 2 ^ y.exponent := by positivity
  by_cases hneg : y.negative
  · have hvalue : y.value = -(y.mantissa * 2 ^ y.exponent) := by simp [value, hneg]
    have : (0 : ℚ) ≤ y.mantissa * 2 ^ y.exponent := by positivity
    exact .inl (by rw [hvalue]; linarith [show (0 : ℚ) < 2 ^ 63 by positivity])
  · have hvalue : y.value = y.mantissa * 2 ^ y.exponent := by simp [value, hneg]
    rw [hvalue]
    by_cases he : y.exponent < 11
    · have hle : (2 : ℚ) ^ y.exponent ≤ 2 ^ (10 : Int) := zpow_le_zpow_right₀ (by norm_num) (by omega)
      refine .inl (lt_of_lt_of_le (mul_lt_mul_of_pos_right hlt hpos) ?_)
      calc (2 : ℚ) ^ 53 * 2 ^ y.exponent ≤ 2 ^ 53 * 2 ^ (10 : Int) := by gcongr
        _ = 2 ^ 63 := by norm_num
    · obtain ⟨k, hk⟩ := Int.eq_ofNat_of_zero_le (show 0 ≤ y.exponent - 11 by omega)
      refine .inr ⟨y.mantissa * 2 ^ k, ?_⟩
      rw [show y.exponent = (k : Int) + 11 by omega, zpow_add₀ (by norm_num), zpow_natCast]
      push_cast
      ring

theorem roundDiv_near (n : Nat) : (2048 * roundDiv n 2048 ≤ n + 1024 ∧ n ≤ 2048 * roundDiv n 2048 + 1024) ∧
    (2048 * roundDiv n 2048 = n + 1024 ∨ n = 2048 * roundDiv n 2048 + 1024 → roundDiv n 2048 % 2 = 0) := by
  unfold roundDiv
  dsimp only
  split <;> omega

theorem fittingExponent_word {n : Nat} (hge : 2 ^ 63 ≤ n) (hlt : n < 2 ^ 64) : fittingExponent n 1 = 11 := by
  have hlog : n.log2 = 63 := (Nat.log2_eq_iff (by omega)).mpr ⟨hge, hlt⟩
  have hscale : scale n 1 63 = (n, 2 ^ 63) := rfl
  unfold fittingExponent
  simp only [hlog, show Nat.log2 1 = 0 from rfl, Nat.cast_ofNat, Nat.cast_zero, sub_zero, hscale,
    if_neg (Nat.not_lt.mpr hge), leastExponent]
  decide

/-- An integer of 64 bits becomes a multiple of 2048, and the mantissa is even if the factor is. -/
theorem ofRatio?_word {n : Nat} (hge : 2 ^ 63 ≤ n) (hlt : n < 2 ^ 64) :
    ∃ x, ofRatio? false n 1 = some x ∧ x.Normal ∧ x.value = roundDiv n 2048 * 2048 ∧
      (roundDiv n 2048 % 2 = 0 → x.mantissa % 2 = 0) := by
  obtain ⟨⟨hupper, hlower⟩, -⟩ := roundDiv_near n
  have hscale : scale n 1 11 = (n, 2048) := rfl
  have hrun : ofRatio? false n 1 =
      if roundDiv n 2048 = 2 ^ 53 then some { negative := false, mantissa := 2 ^ 52, exponent := 12 }
      else some { negative := false, mantissa := roundDiv n 2048, exponent := 11 } := by
    unfold ofRatio?
    rw [if_neg (by omega)]
    simp only [fittingExponent_word hge hlt, hscale]
    by_cases hfull : roundDiv n 2048 = 2 ^ 53
    · rw [if_pos hfull, hfull]
      rfl
    · rw [if_neg hfull, if_neg (show ¬roundDiv n 2048 = Nat.pow 2 53 from hfull)]
      rfl
  rw [hrun]
  by_cases hfull : roundDiv n 2048 = 2 ^ 53
  · refine ⟨_, if_pos hfull, ⟨by decide, .inl (by decide), by decide, by decide⟩, ?_, fun _ => rfl⟩
    rw [hfull]
    norm_num [value]
  · refine ⟨_, if_neg hfull, ⟨?_, .inl ?_, show leastExponent ≤ 11 by decide, show 11 ≤ greatestExponent by decide⟩, ?_, id⟩
    · show roundDiv n 2048 < 2 ^ 53
      omega
    · show 2 ^ 52 ≤ roundDiv n 2048
      omega
    · norm_num [value]

theorem ofRatio?_nearest {n : Nat} (hge : 2 ^ 63 ≤ n) (hlt : n < 2 ^ 64) :
    ∃ x, ofRatio? false n 1 = some x ∧ x.Nearest n := by
  obtain ⟨x, hx, hnormal, hvalue, heven⟩ := ofRatio?_word hge hlt
  obtain ⟨⟨hupper, hlower⟩, htie⟩ := roundDiv_near n
  generalize roundDiv n 2048 = m at hvalue heven hupper hlower htie
  have hge' : (2 : ℚ) ^ 63 ≤ n := by exact_mod_cast hge
  have hupper' : (2048 * m : ℚ) ≤ n + 1024 := by exact_mod_cast hupper
  have hlower' : (n : ℚ) ≤ 2048 * m + 1024 := by exact_mod_cast hlower
  have hnear : |x.value - n| ≤ 1024 := by
    rw [hvalue, abs_le]
    constructor <;> linarith
  -- Every other multiple of 2048 is half a step away at least.
  have hfar : ∀ k : Nat, (k * 2048 : ℚ) ≠ x.value → 1024 ≤ |(k * 2048 : ℚ) - n| := by
    intro k hk
    rw [hvalue] at hk
    have hkm : k ≠ m := fun h => hk (by rw [h])
    rcases Nat.lt_or_gt_of_ne hkm with h | h
    · have : (k : ℚ) + 1 ≤ m := by exact_mod_cast h
      exact le_trans (by linarith) (neg_le_abs _)
    · have : (m : ℚ) + 1 ≤ k := by exact_mod_cast h
      exact le_trans (by linarith) (le_abs_self _)
  have hmultiple : ∀ k : Nat, |x.value - n| ≤ |(k * 2048 : ℚ) - n| := by
    intro k
    by_cases hk : (k * 2048 : ℚ) = x.value
    · rw [hk]
    · exact hnear.trans (hfar k hk)
  -- What is less than 2 ^ 63 is farther away than 2 ^ 63, which is a multiple.
  have hsmall : ∀ q : ℚ, q < 2 ^ 63 → |x.value - n| < |q - n| := by
    intro q hq
    have hbound := hmultiple (2 ^ 52)
    rw [show (((2 ^ 52 : Nat) : ℚ) * 2048) = 2 ^ 63 by norm_num,
      abs_of_nonpos (show (2 : ℚ) ^ 63 - n ≤ 0 by linarith)] at hbound
    exact lt_of_le_of_lt hbound (lt_of_lt_of_le (by linarith) (neg_le_abs _))
  refine ⟨x, hx, hnormal, fun y hy => ?_, fun y hy hne htied => heven (htie ?_)⟩
  · rcases hy.value_cases with hy | ⟨k, hk⟩
    · exact (hsmall _ hy).le
    · rw [hk]
      exact hmultiple k
  · rcases hy.value_cases with hy | ⟨k, hk⟩
    · exact absurd htied (hsmall _ hy).ne'
    · rw [hk] at hne htied
      have hhalf : |x.value - n| = 1024 := le_antisymm hnear (htied ▸ hfar k hne)
      rw [hvalue] at hhalf
      rcases eq_or_eq_neg_of_abs_eq hhalf with h | h
      · left
        exact_mod_cast (show (2048 * m : ℚ) = n + 1024 by linarith)
      · right
        exact_mod_cast (show (n : ℚ) = 2048 * m + 1024 by linarith)

end Reprint.Binary64
