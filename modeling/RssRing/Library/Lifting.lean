import Mathlib.Data.BitVec
import Mathlib.RingTheory.Coprime.Lemmas
import Mathlib.Tactic.Ring
import Mathlib.Tactic.LinearCombination
set_option autoImplicit false

namespace RssRing.Lifting

section Ring
variable {R : Type} [CommRing R] {j k : Nat}

theorem sq_step {e c m δ : R} (hj : 2 ≤ j) (hc : 2 ∣ c - 1) (hm : 2^(j+2) ∣ (e - c*c) - m)
    (hδ : 2*δ = m) (hδj : 2^j ∣ δ) : 2^(j+2) ∣ e - (c+δ)*(c+δ) := by
  obtain ⟨y,hy⟩ := hc
  obtain ⟨z,hz⟩ := hδj
  obtain ⟨i,rfl⟩ := Nat.exists_eq_add_of_le hj
  have hlin : 2^(2+i+2) ∣ 2*δ*(c-1) := ⟨z*y,by rw [hy,hz]; ring⟩
  have hsq : 2^(2+i+2) ∣ δ*δ := ⟨2^i*(z*z),by rw [hz]; ring⟩
  have hsplit : e - (c+δ)*(c+δ) = ((e - c*c) - m) - 2*δ*(c-1) - δ*δ := by
    rw [← hδ]; ring
  rw [hsplit]
  exact dvd_sub (dvd_sub hm hlin) hsq

theorem inv_step {c d m : R} (hc : 2 ∣ c - 1) (hm : 2^(j+1) ∣ (1 - c*d) - m) (hmj : 2^j ∣ m) :
    2^(j+1) ∣ 1 - c*(d+m) := by
  have hlin : 2^(j+1) ∣ m*(c-1) := by
    rw [pow_succ]
    exact mul_dvd_mul hmj hc
  have hsplit : 1 - c*(d+m) = ((1 - c*d) - m) - m*(c-1) := by ring
  rw [hsplit]
  exact dvd_sub hm hlin

theorem dvd_of_odd_mul {x y : R} (hx : 2 ∣ x - 1) (h : 2^k ∣ x*y) : 2^k ∣ y := by
  obtain ⟨t,ht⟩ := hx
  have hcop : IsCoprime (2 : R) x := ⟨-t,1,by linear_combination ht⟩
  exact hcop.pow_left.dvd_of_dvd_mul_left h

theorem half_bit (hcancel : ∀ j y, j < k+2 → (2 : R)^(j+1) ∣ 2*y → 2^j ∣ y) {e a r c U X : R}
    (hsq : 2^(k+2) ∣ e - a*a) (hr : 2^(k+2) ∣ e - r*r) (hr4 : 2^2 ∣ r - 1)
    (hinv : 2^(k+2) ∣ 1 - r*c) (ha : a = 2*U + 1) (hX : 2*X = c*a + 1) :
    (2 ∣ U → 2^k ∣ X - 1) ∧ (2 ∣ U - 1 → 2^k ∣ X) := by
  have hpow : (2 : R)^2 ∣ 2^(k+2) := pow_dvd_pow 2 (by omega)
  have hprod : (2 : R)^(k+2) ∣ 2*(2*(X*(X-1))) := by
    have hone : (2 : R)^(k+2) ∣ (c*a)*(c*a) - 1 := by
      have hsplit : (c*a)*(c*a) - 1 =
          c*c*((e - r*r) - (e - a*a)) - (1 - r*c)*(1 + r*c) := by ring
      rw [hsplit]
      exact dvd_sub (Dvd.dvd.mul_left (dvd_sub hr hsq) _) (Dvd.dvd.mul_right hinv _)
    have hsplit : 2*(2*(X*(X-1))) = (c*a)*(c*a) - 1 := by
      linear_combination (2*X + c*a - 1)*hX
    rwa [hsplit]
  have hbits : (2 : R)^k ∣ X*(X-1) :=
    hcancel k _ (by omega) (hcancel (k+1) _ (by omega) hprod)
  have hc : (2 : R)^2 ∣ c - 1 := by
    have hsplit : c - 1 = -(c*(r-1)) - (1 - r*c) := by ring
    rw [hsplit]
    exact dvd_sub (Dvd.dvd.neg_right (Dvd.dvd.mul_left hr4 _)) (hpow.trans hinv)
  have hparity : 2 ∣ X - U - 1 := by
    have hsplit : 2*(X - U - 1) = (c-1)*a := by rw [ha] at hX ⊢; linear_combination hX
    have h4 : (2 : R)^(1+1) ∣ 2*(X - U - 1) := hsplit ▸ Dvd.dvd.mul_right hc a
    simpa using hcancel 1 _ (by omega) h4
  constructor
  · intro hU
    refine dvd_of_odd_mul (x := X) ?_ hbits
    have hsplit : X - 1 = (X - U - 1) + U := by ring
    rw [hsplit]
    exact dvd_add hparity hU
  · intro hU
    refine dvd_of_odd_mul (x := X-1) ?_ (mul_comm X (X-1) ▸ hbits)
    have hsplit : X - 1 - 1 = (X - U - 1) + (U - 1) := by ring
    rw [hsplit]
    exact dvd_add hparity hU

end Ring

section Word
variable {w j : Nat}

theorem two_pow_mul (x : BitVec w) (j : Nat) : 2^j*x = x <<< j := by
  induction j with
  | zero => simp
  | succ j ih =>
    rw [pow_succ,mul_comm (2^j) 2,mul_assoc,ih,two_mul,BitVec.shiftLeft_add]
    apply BitVec.eq_of_toNat_eq
    rw [BitVec.toNat_add,BitVec.toNat_shiftLeft (x := x <<< j),Nat.shiftLeft_eq,pow_one,mul_two]

theorem two_pow_eq (w j : Nat) : (2 : BitVec w)^j = (1 : BitVec w) <<< j := by
  rw [← two_pow_mul,mul_one]

theorem two_mul_eq (x : BitVec w) : (2 : BitVec w)*x = x <<< 1 := by
  rw [← two_pow_mul,pow_one]

theorem two_pow_dvd_iff {x : BitVec w} : 2^j ∣ x ↔ ∀ m, m < j → x.getLsbD m = false := by
  constructor
  · rintro ⟨y,rfl⟩ m hm
    rw [two_pow_mul,BitVec.getLsbD_shiftLeft]
    simp [hm]
  · intro h
    refine ⟨x >>> j,?_⟩
    rw [two_pow_mul]
    apply BitVec.eq_of_getLsbD_eq
    intro m hm
    by_cases hmj : m < j
    · simp [hmj,h m hmj,-BitVec.getLsbD_eq_getElem]
    · have hback : j + (m - j) = m := by omega
      simp [hmj,hm,hback,-BitVec.getLsbD_eq_getElem]

theorem two_pow_dvd_iff_setWidth {x : BitVec w} : 2^j ∣ x ↔ x.setWidth j = 0 := by
  rw [two_pow_dvd_iff]
  constructor
  · intro h
    apply BitVec.eq_of_getLsbD_eq
    intro m hm
    rw [BitVec.getLsbD_setWidth,h m hm,Bool.and_false]
    exact BitVec.getLsbD_zero.symm
  · intro h m hm
    have hbit := congrArg (fun y => y.getLsbD m) h
    simpa [hm,-BitVec.getLsbD_eq_getElem] using hbit

theorem cancel_two {y : BitVec w} (hj : j < w) (h : 2^(j+1) ∣ (2 : BitVec w)*y) : 2^j ∣ y := by
  rw [two_pow_dvd_iff] at h ⊢
  intro m hm
  have hbit := h (m+1) (by omega)
  have hlt : m + 1 < w := by omega
  rw [two_mul_eq,BitVec.getLsbD_shiftLeft] at hbit
  simpa [hlt,-BitVec.getLsbD_eq_getElem] using hbit

theorem dvd_sub_and {x : BitVec w} (h : 2^j ∣ x) : 2^(j+1) ∣ x - (x &&& 2^j) := by
  have hsplit : ∀ t : BitVec w, x - (x &&& t) = x &&& ~~~t := by
    intro t
    have hzero : (x &&& t) &&& (x &&& ~~~t) = 0#w := by
      apply BitVec.eq_of_getLsbD_eq
      intro m hm
      simp only [BitVec.getLsbD_and,BitVec.getLsbD_not,hm,decide_true,Bool.true_and,
        BitVec.getLsbD_zero]
      cases x.getLsbD m <;> cases t.getLsbD m <;> rfl
    have hadd : (x &&& t) + (x &&& ~~~t) = x := by
      rw [BitVec.add_eq_or_of_and_eq_zero _ _ hzero]
      apply BitVec.eq_of_getLsbD_eq
      intro m hm
      simp only [BitVec.getLsbD_or,BitVec.getLsbD_and,BitVec.getLsbD_not,hm,decide_true,
        Bool.true_and]
      cases x.getLsbD m <;> cases t.getLsbD m <;> rfl
    rw [sub_eq_iff_eq_add,add_comm,hadd]
  rw [two_pow_dvd_iff] at h ⊢
  intro m hm
  rw [hsplit,two_pow_eq]
  rcases Nat.lt_or_ge m j with hmj | hmj
  · simp [h m hmj,-BitVec.getLsbD_eq_getElem]
  · have heq : m = j := by omega
    subst heq
    by_cases hmw : m < w
    · have hpos : 0 < w := by omega
      simp [hmw,hpos,-BitVec.getLsbD_eq_getElem]
    · simp [BitVec.getLsbD_of_ge _ _ (Nat.le_of_not_lt hmw),-BitVec.getLsbD_eq_getElem]

theorem half_and (x : BitVec w) (j : Nat) :
    (2 : BitVec w)*((x &&& 2^(j+1)) >>> 1) = x &&& 2^(j+1) ∧
      (2 : BitVec w)^j ∣ (x &&& 2^(j+1)) >>> 1 := by
  have hlow : ∀ m, m < j+1 → (x &&& 2^(j+1)).getLsbD m = false := by
    intro m hm
    rw [two_pow_eq]
    simp [hm,-BitVec.getLsbD_eq_getElem]
  constructor
  · rw [two_mul_eq]
    apply BitVec.eq_of_getLsbD_eq
    intro m hm
    rw [BitVec.getLsbD_shiftLeft,BitVec.getLsbD_ushiftRight]
    by_cases h0 : m = 0
    · subst h0
      rw [hlow 0 (by omega)]
      simp
    · have hback : 1 + (m-1) = m := by omega
      rw [hback]
      simp [h0,hm,-BitVec.getLsbD_eq_getElem]
  · rw [two_pow_dvd_iff]
    intro m hm
    rw [BitVec.getLsbD_ushiftRight]
    exact hlow (1+m) (by omega)

theorem two_mul_half {x : BitVec w} (h : 2 ∣ x) : (2 : BitVec w)*(x >>> 1) = x := by
  have hlow := two_pow_dvd_iff.mp ((pow_one (2 : BitVec w)).symm ▸ h) 0 Nat.one_pos
  rw [two_mul_eq]
  apply BitVec.eq_of_getLsbD_eq
  intro m hm
  rw [BitVec.getLsbD_shiftLeft,BitVec.getLsbD_ushiftRight]
  cases m with
  | zero => rw [hlow]; simp
  | succ m =>
    rw [Nat.add_sub_cancel,Nat.add_comm 1 m]
    simp [hm,-BitVec.getLsbD_eq_getElem]

theorem even_or_odd {x : BitVec w} :
    (x.getLsbD 0 = false → 2 ∣ x) ∧ (x.getLsbD 0 = true → 2 ∣ x - 1) := by
  constructor
  · intro h
    rw [← pow_one (2 : BitVec w),two_pow_dvd_iff]
    intro m hm
    rwa [show m = 0 by omega]
  · intro h
    have hand : x &&& 2^0 = 1 := by
      apply BitVec.eq_of_getLsbD_eq
      intro m hm
      rw [pow_zero,BitVec.getLsbD_and]
      cases m with
      | zero => rw [h,Bool.true_and]
      | succ m => simp
    have hsub := dvd_sub_and (x := x) (j := 0) (by rw [pow_zero]; exact one_dvd x)
    rwa [hand,Nat.zero_add,pow_one] at hsub

theorem odd_square (x : BitVec w) : 2^3 ∣ (2*x+1)*(2*x+1) - 1 := by
  have hsplit : (2*x+1)*(2*x+1) - 1 = 2^2*(x*(x+1)) := by ring
  have hpair : 2 ∣ x*(x+1) := by
    cases hbit : x.getLsbD 0 with
    | false => exact Dvd.dvd.mul_right (even_or_odd.1 hbit) _
    | true =>
      have hnext : x + 1 = (x - 1) + 2 := by ring
      exact Dvd.dvd.mul_left (hnext ▸ dvd_add (even_or_odd.2 hbit) dvd_rfl) _
  rw [hsplit,pow_succ]
  exact mul_dvd_mul_left _ hpair

theorem odd_inverse {r c : BitVec w} (hj : 0 < j) (hr : 2^2 ∣ r - 1) (hinv : 2^j ∣ 1 - r*c) :
    2 ∣ c + 1 := by
  have hr2 : 2 ∣ r - 1 := (dvd_pow_self 2 (by decide)).trans hr
  have hinv2 : 2 ∣ 1 - r*c := (dvd_pow_self 2 (Nat.ne_of_gt hj)).trans hinv
  have hsplit : c + 1 = 2 - (1 - r*c) - (r - 1)*c := by ring
  rw [hsplit]
  exact dvd_sub (dvd_sub dvd_rfl hinv2) (Dvd.dvd.mul_right hr2 _)

end Word
end RssRing.Lifting
