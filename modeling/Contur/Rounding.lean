import Mathlib.Algebra.Order.Ring.Nat
import Mathlib.Data.Nat.Log
import Mathlib.Tactic.Linarith
import Mathlib.Tactic.Positivity
import Mathlib.Tactic.Ring

/-!
# Rounding to significant binary digits

A quotient of natural numbers is rounded to the nearest number that has a fixed count of
significant binary digits, a half to the even neighbour, as the operations of binary
floating point do. Results below the number with one digit are whole numbers here, so the
rounding is that of floating point for whole quotients and for quotients that have all
digits before the point.
-/

namespace Rounding
variable {digits n n' d d' : ℕ}

/-- The whole number next to `n / d`, a half to the even one. -/
def halfEven (n d : ℕ) : ℕ :=
  if 2 * (n % d) < d then n / d
  else if d < 2 * (n % d) then n / d + 1
  else n / d + n / d % 2

/-- The place of the last of the significant digits of `n / d`. -/
def place (digits n d : ℕ) : ℕ := (n / d).log2 + 1 - digits

def nearest (digits n d : ℕ) : ℕ :=
  halfEven n (d * 2 ^ place digits n d) * 2 ^ place digits n d

theorem halfEven_le : 2 * (halfEven n d * d) ≤ 2 * n + d := by
  have hn := Nat.div_add_mod n d
  rw [mul_comm] at hn
  unfold halfEven
  split_ifs with hless hmore
  · omega
  · rw [Nat.add_mul, one_mul]
    omega
  · have hhalf : n / d % 2 * d ≤ 1 * d := Nat.mul_le_mul_right d (by omega)
    rw [Nat.add_mul]
    omega

theorem le_halfEven (hd : 0 < d) : 2 * n ≤ 2 * (halfEven n d * d) + d := by
  have hn := Nat.div_add_mod n d
  rw [mul_comm] at hn
  unfold halfEven
  split_ifs with hless hmore
  · omega
  · have hrest : n % d < d := Nat.mod_lt n hd
    rw [Nat.add_mul, one_mul]
    omega
  · rw [Nat.add_mul]
    omega

theorem halfEven_mul (hd : 0 < d) (k : ℕ) : halfEven (k * d) d = k := by
  rw [halfEven, Nat.mul_mod_left, Nat.mul_div_cancel k hd]
  exact if_pos hd

theorem halfEven_scale {k : ℕ} (hk : 0 < k) : halfEven (n * k) (d * k) = halfEven n d := by
  have hless : 2 * (n % d * k) < d * k ↔ 2 * (n % d) < d := by
    rw [← mul_assoc, Nat.mul_lt_mul_right hk]
  have hmore : d * k < 2 * (n % d * k) ↔ d < 2 * (n % d) := by
    rw [← mul_assoc, Nat.mul_lt_mul_right hk]
  simp only [halfEven, Nat.mul_mod_mul_right, Nat.mul_div_mul_right _ _ hk, hless, hmore]

theorem nearest_congr (hd : 0 < d) (hd' : 0 < d') (h : n * d' = n' * d) :
    nearest digits n d = nearest digits n' d' := by
  have hquotient : n / d = n' / d' := by
    rw [← Nat.mul_div_mul_right n d hd', h, mul_comm d d', Nat.mul_div_mul_right n' d' hd]
  have hplace : place digits n d = place digits n' d' := by rw [place, place, hquotient]
  have hunit : d * 2 ^ place digits n' d' * d' = d' * 2 ^ place digits n' d' * d := by ring
  rw [nearest, nearest, hplace]
  congr 1
  rw [← halfEven_scale hd', h, hunit, halfEven_scale hd]

theorem nearest_mul (hd : 0 < d) {k : ℕ} (hk : k < 2 ^ digits) : nearest digits (k * d) d = k := by
  rcases Nat.eq_zero_or_pos k with rfl | hpos
  · simp [nearest, halfEven]
  have hlog : k.log2 < digits := (Nat.log2_lt hpos.ne').mpr hk
  have hplace : place digits (k * d) d = 0 := by
    rw [place, Nat.mul_div_cancel k hd]
    omega
  rw [nearest, hplace, pow_zero, mul_one, mul_one, halfEven_mul hd]

theorem nearest_one (hn : n < 2 ^ digits) : nearest digits n 1 = n := by
  simpa using @nearest_mul digits 1 Nat.one_pos n hn

theorem nearest_le : 2 * (nearest digits n d * d) ≤ 2 * n + d * 2 ^ place digits n d := by
  calc 2 * (nearest digits n d * d)
      = 2 * (halfEven n (d * 2 ^ place digits n d) * (d * 2 ^ place digits n d)) := by
        rw [nearest]; ring
    _ ≤ 2 * n + d * 2 ^ place digits n d := halfEven_le

theorem le_nearest (hd : 0 < d) :
    2 * n ≤ 2 * (nearest digits n d * d) + d * 2 ^ place digits n d := by
  calc 2 * n
      ≤ 2 * (halfEven n (d * 2 ^ place digits n d) * (d * 2 ^ place digits n d)) +
          d * 2 ^ place digits n d := le_halfEven (by positivity)
    _ = 2 * (nearest digits n d * d) + d * 2 ^ place digits n d := by
        rw [nearest]; ring

theorem place_mono (h : n / d ≤ n' / d') : place digits n d ≤ place digits n' d' := by
  have hlog : (n / d).log2 ≤ (n' / d').log2 := by
    rw [Nat.log2_eq_log_two, Nat.log2_eq_log_two]
    exact Nat.log_mono_right h
  unfold place
  omega

theorem nearest_lt (hd : 0 < d) (hd' : 0 < d')
    (h : n * d' + d * d' * 2 ^ place digits n' d' < n' * d) :
    nearest digits n d < nearest digits n' d' := by
  have hquotient : n / d ≤ n' / d' := by
    rw [Nat.le_div_iff_mul_le hd']
    calc n / d * d' ≤ n * d' / d := by
          rw [Nat.le_div_iff_mul_le hd]
          calc n / d * d' * d = n / d * d * d' := by ring
            _ ≤ n * d' := Nat.mul_le_mul_right _ (Nat.div_mul_le_self n d)
      _ ≤ n' * d / d := Nat.div_le_div_right (by omega)
      _ = n' := Nat.mul_div_cancel n' hd
  have hpow : 2 ^ place digits n d ≤ 2 ^ place digits n' d' :=
    Nat.pow_le_pow_right Nat.two_pos (place_mono hquotient)
  have hbelow := Nat.mul_le_mul_right d' (@nearest_le digits n d)
  have habove := Nat.mul_le_mul_right d (@le_nearest digits n' d' hd')
  have hunit : d * d' * 2 ^ place digits n d ≤ d * d' * 2 ^ place digits n' d' :=
    Nat.mul_le_mul_left _ hpow
  have hscaled : 2 * (d * d' * nearest digits n d) < 2 * (d * d' * nearest digits n' d') := by
    linarith
  exact Nat.lt_of_mul_lt_mul_left (Nat.lt_of_mul_lt_mul_left hscaled)

theorem nearest_lt_nearest {digits k a b c e : ℕ} (hdigits : 2 * k ≤ digits) (hb : 0 < b)
    (hbk : b < 2 ^ k) (he : 0 < e) (hec : e ≤ c) (hc : c < 2 ^ k) (h : a * e < c * b) :
    nearest (digits + 1) (a * 2 ^ digits) b < nearest (digits + 1) (c * 2 ^ digits) e := by
  apply nearest_lt hb he
  -- the last digit of the greater quotient is worth less than the distance
  have hlast : e * 2 ^ place (digits + 1) (c * 2 ^ digits) e ≤ c := by
    rcases Nat.eq_zero_or_pos (place (digits + 1) (c * 2 ^ digits) e) with hzero | hpos
    · rwa [hzero, pow_zero, mul_one]
    · have hplace : place (digits + 1) (c * 2 ^ digits) e + digits =
          (c * 2 ^ digits / e).log2 := by
        unfold place at hpos ⊢
        omega
      have hquotient : 0 < c * 2 ^ digits / e :=
        Nat.div_pos (hec.trans (Nat.le_mul_of_pos_right c (by positivity))) he
      have hself := Nat.log2_self_le hquotient.ne'
      rw [← hplace, pow_add, Nat.le_div_iff_mul_le he] at hself
      have hscaled : e * 2 ^ place (digits + 1) (c * 2 ^ digits) e * 2 ^ digits ≤
          c * 2 ^ digits := by
        linarith
      exact Nat.le_of_mul_le_mul_right hscaled (by positivity)
  have hsmall : b * e * 2 ^ place (digits + 1) (c * 2 ^ digits) e < 2 ^ digits := by
    calc b * e * 2 ^ place (digits + 1) (c * 2 ^ digits) e
        = b * (e * 2 ^ place (digits + 1) (c * 2 ^ digits) e) := by ring
      _ ≤ b * c := Nat.mul_le_mul_left b hlast
      _ < 2 ^ k * 2 ^ k := Nat.mul_lt_mul'' hbk hc
      _ = 2 ^ (2 * k) := by rw [← pow_add, two_mul]
      _ ≤ 2 ^ digits := Nat.pow_le_pow_right Nat.two_pos hdigits
  calc a * 2 ^ digits * e + b * e * 2 ^ place (digits + 1) (c * 2 ^ digits) e
      < a * 2 ^ digits * e + 2 ^ digits := Nat.add_lt_add_left hsmall _
    _ = (a * e + 1) * 2 ^ digits := by ring
    _ ≤ c * b * 2 ^ digits := Nat.mul_le_mul_right _ h
    _ = c * 2 ^ digits * b := by ring

end Rounding
