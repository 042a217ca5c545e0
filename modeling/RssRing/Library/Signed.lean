import Mathlib.Data.BitVec
import Mathlib.Tactic.Linarith
import Mathlib.Tactic.Ring
set_option autoImplicit false

/-! Numbers in two's complement: comparing by the sign of a difference. -/

namespace RssRing.Signed

variable {k : Nat} {x y : BitVec k}

theorem toInt_sub_of_bounds (hlo : -2^(k-1) ≤ x.toInt - y.toInt)
    (hhi : x.toInt - y.toInt < 2^(k-1)) : (x - y).toInt = x.toInt - y.toInt := by
  cases k with
  | zero => rw [BitVec.eq_nil x,BitVec.eq_nil y]; rfl
  | succ k =>
    rw [Nat.add_sub_cancel] at hlo hhi
    rw [BitVec.toInt_sub,Int.bmod_eq_of_le_mul_two]
    · push_cast
      rw [pow_succ]
      linarith
    · push_cast
      rw [pow_succ]
      linarith

theorem getLsbD_top (x : BitVec k) : x.getLsbD (k-1) = decide (x.toInt < 0) := by
  rw [← BitVec.msb_eq_getLsbD_last,BitVec.msb_eq_toInt]

theorem sub_top (hlo : -2^(k-1) ≤ x.toInt - y.toInt) (hhi : x.toInt - y.toInt < 2^(k-1)) :
    (x - y).getLsbD (k-1) = decide (x.toInt < y.toInt) := by
  rw [getLsbD_top,toInt_sub_of_bounds hlo hhi]
  exact decide_eq_decide.mpr sub_neg

theorem ofInt_max (x y : BitVec k) :
    BitVec.ofInt k (max x.toInt y.toInt) = if x.toInt < y.toInt then y else x := by
  by_cases h : x.toInt < y.toInt
  · rw [if_pos h,max_eq_right (le_of_lt h),BitVec.ofInt_toInt]
  · rw [if_neg h,max_eq_left (not_lt.mp h),BitVec.ofInt_toInt]

theorem ofInt_min (x y : BitVec k) :
    BitVec.ofInt k (min x.toInt y.toInt) = if x.toInt < y.toInt then x else y := by
  by_cases h : x.toInt < y.toInt
  · rw [if_pos h,min_eq_left (le_of_lt h),BitVec.ofInt_toInt]
  · rw [if_neg h,min_eq_right (not_lt.mp h),BitVec.ofInt_toInt]

theorem select_eq (hlo : -2^(k-1) ≤ x.toInt - y.toInt) (hhi : x.toInt - y.toInt < 2^(k-1))
    (d e : BitVec k) :
    (if (x - y).toInt < 0 then d else 0) + e = if x.toInt < y.toInt then d + e else e := by
  rw [toInt_sub_of_bounds hlo hhi]
  by_cases h : x.toInt < y.toInt
  · rw [if_pos (sub_neg.mpr h),if_pos h]
  · rw [if_neg (fun hneg => h (sub_neg.mp hneg)),if_neg h,zero_add]

theorem select_max (hlo : -2^(k-1) ≤ x.toInt - y.toInt) (hhi : x.toInt - y.toInt < 2^(k-1)) :
    (if (x - y).toInt < 0 then y - x else 0) + x = BitVec.ofInt k (max x.toInt y.toInt) := by
  rw [select_eq hlo hhi,sub_add_cancel,ofInt_max]

theorem select_min (hlo : -2^(k-1) ≤ x.toInt - y.toInt) (hhi : x.toInt - y.toInt < 2^(k-1)) :
    (if (x - y).toInt < 0 then x - y else 0) + y = BitVec.ofInt k (min x.toInt y.toInt) := by
  rw [select_eq hlo hhi,sub_add_cancel,ofInt_min]

theorem toInt_ofInt_max (x y : BitVec k) :
    (BitVec.ofInt k (max x.toInt y.toInt)).toInt = max x.toInt y.toInt := by
  rcases max_choice x.toInt y.toInt with h | h <;> rw [h,BitVec.ofInt_toInt]

theorem ofInt_eq_ofInt_iff (m m' : Int) :
    BitVec.ofInt k m = BitVec.ofInt k m' ↔ (2^k : Int) ∣ m - m' := by
  rw [← BitVec.toInt_inj,BitVec.toInt_ofInt,BitVec.toInt_ofInt,
    Int.bmod_eq_bmod_iff_bmod_sub_eq_zero,← Int.dvd_iff_bmod_eq_zero]
  push_cast
  rfl

theorem ofInt_inj_of_lt {m m' : Int} (h : |m - m'| < 2^k) :
    BitVec.ofInt k m = BitVec.ofInt k m' ↔ m = m' := by
  rw [ofInt_eq_ofInt_iff]
  constructor
  · intro hdvd
    exact sub_eq_zero.mp (Int.eq_zero_of_abs_lt_dvd hdvd h)
  · rintro rfl
    rw [sub_self]
    exact dvd_zero _

theorem setWidth_ofInt {v : Int} (k' : Nat) (hlo : 0 ≤ v) (hhi : v < 2^k) :
    (BitVec.ofInt k v).setWidth k' = BitVec.ofInt k' v := by
  obtain ⟨m,rfl⟩ := Int.eq_ofNat_of_zero_le hlo
  have hm : m < 2^k := by exact_mod_cast hhi
  rw [BitVec.ofInt_natCast,BitVec.ofInt_natCast]
  exact BitVec.eq_of_toNat_eq (by simp [Nat.mod_eq_of_lt hm])

end RssRing.Signed
