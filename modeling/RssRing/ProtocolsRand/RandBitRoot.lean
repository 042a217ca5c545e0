import RssRing.ProtocolsRand.RandBit
import RssRing.ProtocolsComposite.MSBMp
set_option autoImplicit false

namespace RssRing
open Replicated Lifting

variable {n L k : Nat}

def rootInv (L : Nat) (A : BitVec (k+2)) : Lint L := rssSqrtInv (k+2) ((A*A).setWidth (8*L))

def rootSum (L : Nat) (A : BitVec (k+2)) : BitVec (k+2) := A*(rootInv L A).setWidth (k+2) + 1

def rootHalf (L : Nat) (A : BitVec (k+2)) : BitVec k := (rootSum L A >>> 1).setWidth k

theorem rootSum_eq (hk : 0 < k) (hkL : k + 2 ≤ 8*L) (U : BitVec (k+2)) :
    (rootSum L (2*U+1)).getLsbD 0 = false ∧ rootHalf L (2*U+1) = bitVal k (!U.getLsbD 0) := by
  let c : Lint L := rootInv L (2*U+1)
  have hhalf : (2 : Lint L)*((c+1) >>> 1) = c + 1 := (randBit_value hk hkL U).1
  have hbit : c.setWidth k*U.setWidth k + ((c+1) >>> 1).setWidth k = bitVal k (!U.getLsbD 0) :=
    (randBit_value hk hkL U).2
  let X : Lint L := c*U.setWidth (8*L) + (c+1) >>> 1
  have hX : X <<< 1 = c*((2 : Lint L)*U.setWidth (8*L) + 1) + 1 := by
    have hsplit : (2 : Lint L)*X =
        c*((2 : Lint L)*U.setWidth (8*L)) + (2 : Lint L)*((c+1) >>> 1) := by
      simp only [X]; ring
    rw [← two_mul_eq,hsplit,hhalf]
    ring
  have hsum : rootSum L (2*U+1) = (X <<< 1).setWidth (k+2) := by
    rw [hX,← lowBits_apply hkL,map_add,map_mul,map_add,map_mul,map_ofNat,map_one,
      lowBits_apply hkL (U.setWidth (8*L)),BitVec.setWidth_setWidth_of_le _ hkL,BitVec.setWidth_eq,
      rootSum,mul_comm]
    rfl
  constructor
  · rw [hsum]
    simp [-BitVec.getLsbD_eq_getElem]
  · have hhalved : rootHalf L (2*U+1) = X.setWidth k := by
      rw [rootHalf,hsum]
      apply BitVec.eq_of_getLsbD_eq
      intro j hj
      have hj8 : 1 + j < 8*L := by omega
      have hj2 : 1 + j < k + 2 := by omega
      simp [hj,hj8,hj2,-BitVec.getLsbD_eq_getElem]
    have hkL' : k ≤ 8*L := by omega
    rw [hhalved,← hbit,← lowBits_apply hkL',map_add,map_mul,lowBits_apply,lowBits_apply,
      lowBits_apply,BitVec.setWidth_setWidth_of_le _ hkL']

theorem rootHalf_neg (hk : 0 < k) (hkL : k + 2 ≤ 8*L) (U : BitVec (k+2)) :
    -(2*U+1) = 2*(~~~U)+1 ∧ rootHalf L (-(2*U+1)) = 1 - rootHalf L (2*U+1) := by
  have hneg : -(2*U+1) = 2*(~~~U)+1 := by
    have hnot : ~~~U = -U - 1 := eq_sub_of_add_eq (BitVec.neg_eq_not_add U).symm
    rw [hnot]
    ring
  refine ⟨hneg,?_⟩
  have hflip : (~~~U).getLsbD 0 = !U.getLsbD 0 := by
    rw [BitVec.getLsbD_not,decide_eq_true (by omega),Bool.true_and]
  rw [hneg,(rootSum_eq hk hkL (~~~U)).2,(rootSum_eq hk hkL U).2,hflip,bitVal_eq,bitVal_eq]
  cases U.getLsbD 0 <;> simp

section
variable {G : Type} [Generator G]

/-- Element `i` of a run of `Rss_RandBit` whose odd words `a` share `A`. -/
structure RandBitOf (S : Suite n L G) (H : Pattern (Fin n) (Finset (Fin n))) (k : Nat)
    (u : Shares n (Lint L)) (size : Nat) (net : Net n G) (i : Nat) (A : BitVec (k+2)) : Prop where
  a : ArithSharing H (k+2) (S.randBitOdd u size k net) i A
  odd : A.getLsbD 0 = true
  even : (rootSum L A).getLsbD 0 = false
  exact_shift : ∀ p s, (2 : Lint L)*(S.randBit u size k net).1 p s i =
    rootInv L A*S.randBitOdd u size k net p s i + bitWord L (S.ai p s)
  result : ArithSharing H k (S.randBit u size k net).1 i (rootHalf L A)
  bit : rootHalf L A = 0 ∨ rootHalf L A = 1

variable {S : Suite n L G} {H : Pattern (Fin n) (Finset (Fin n))} {T₀ : Finset (Fin n)}
  {net : Net n G}

theorem randBit_of (hS : S.Marks H T₀) (hP : S.PubCorrect H (k+2)) (hk : 0 < k)
    (hkL : k + 2 ≤ 8*L) (hnet : H.Consistent net) (u : Shares n (Lint L)) {size i : Nat}
    (hi : i < size) : ∃ U : BitVec (k+2), RandBitOf S H k u size net i (2*U+1) := by
  obtain ⟨U,hU,hout⟩ := (randBit_isSharing hS hP hk hkL hnet u size).2 i hi
  obtain ⟨heven,hhalf⟩ := rootSum_eq (L := L) hk hkL U
  have ha := randBitOdd_isSharing hS hkL u hU
  refine ⟨U,ha,?_,heven,?_,?_,?_⟩
  · rw [BitVec.getLsbD_add (by omega),BitVec.carry_zero,two_mul_eq]
    simp [-BitVec.getLsbD_eq_getElem]
  · intro p s
    rw [randBit_eq hS hP hnet u hi ha]
    refine two_mul_half ?_
    rw [Suite.randBitOdd,randBit_twice (randBit_value hk hkL U).1,← two_mul_eq]
    exact Dvd.intro _ rfl
  · rw [hhalf]
    exact hout
  · rw [hhalf,bitVal_eq]
    cases U.getLsbD 0 <;> simp

/-- Every run gives bits, and with the negated odd number the other bit. -/
def RandBitRight (S : Suite n L G) (H : Pattern (Fin n) (Finset (Fin n))) (k size : Nat) : Prop :=
  ∀ (u : Shares n (Lint L)) net, H.Consistent net → ∀ i, i < size →
    ∃ A : BitVec (k+2), RandBitOf S H k u size net i A ∧
      ∀ (u' : Shares n (Lint L)) net', H.Consistent net' →
        ArithSharing H (k+2) (S.randBitOdd u' size k net') i (-A) →
        RandBitOf S H k u' size net' i (-A) ∧
        ArithSharing H k (S.randBit u' size k net').1 i (1 - rootHalf L A)

theorem randBit_right (hS : S.Marks H T₀) (hP : S.PubCorrect H (k+2)) (hk : 0 < k)
    (hkL : k + 2 ≤ 8*L) (size : Nat) : RandBitRight S H k size := by
  intro u net hnet i hi
  obtain ⟨U,hU⟩ := randBit_of hS hP hk hkL hnet u hi
  refine ⟨_,hU,fun u' net' hnet' hneg => ?_⟩
  obtain ⟨U',hU'⟩ := randBit_of hS hP hk hkL hnet' u' hi
  have hA : 2*U'+1 = -(2*U+1) := hU'.a.unique hneg
  rw [hA] at hU'
  refine ⟨hU',?_⟩
  rw [← (rootHalf_neg hk hkL U).2]
  exact hU'.result

/-- `Rss_RandBit`, `Rss_RandBit_mp` and `Rss_RandBit_7pc`, as far as the public
multiplication is right. -/
theorem randBit_family (hk : 0 < k) (hkL : k + 2 ≤ 8*L) (size : Nat) :
    (∀ scratch, RandBitRight (suite3pc (L := L) (G := G) scratch) shares3pc k size) ∧
    (∀ multPub, (suite5pc (L := L) (G := G) multPub).PubCorrect shares5pc (k+2) →
      RandBitRight (suite5pc (L := L) (G := G) multPub) shares5pc k size) ∧
    ∀ multPub openShares,
      (suite7pc (L := L) (G := G) multPub openShares).PubCorrect shares7pc (k+2) →
      RandBitRight (suite7pc (L := L) (G := G) multPub openShares) shares7pc k size :=
  ⟨fun scratch => randBit_right (suite3pc_marks scratch) (pubCorrect3pc scratch hkL) hk hkL size,
    fun multPub hP => randBit_right (suite5pc_marks multPub) hP hk hkL size,
    fun multPub openShares hP => randBit_right (suite7pc_marks multPub openShares) hP hk hkL size⟩

theorem randBit_family_one :
    let net := fun n => (fun _ _ => ⟨fun i => BitVec.ofNat 8 (3*i+1)⟩ : Net n Tape)
    (∃ A, RandBitOf (suite3pc (L := 4) fun _ _ _ => 7) shares3pc 30 (fun _ _ _ => 9) 1 (net 3)
      0 A) ∧
    (∃ A, RandBitOf (suite5pc (L := 4) fun a b size ring_size net =>
      (rssMultPubMp (fun _ _ _ => 0) a b size ring_size net).1) shares5pc 30 (fun _ _ _ => 9) 1
      (net 5) 0 A) ∧
    ∃ A, RandBitOf (suite7pc (L := 4) (fun a b size ring_size net =>
      (rssMultPub7pc (fun _ _ _ => 0) a b size ring_size net).1) openOnce7pc) shares7pc 30
      (fun _ _ _ => 9) 1 (net 7) 0 A := by
  intro net
  obtain ⟨h₃,h₅,h₇⟩ := randBit_family (G := Tape) (L := 4) (k := 30) (by decide) (by decide) 1
  obtain ⟨A₃,hA₃,-⟩ := h₃ (fun _ _ _ => 7) (fun _ _ _ => 9) (net 3)
    (fun _ _ _ _ _ _ _ => rfl) 0 Nat.one_pos
  obtain ⟨A₅,hA₅,-⟩ := h₅ _ (pubCorrect5pc (by decide) (by decide) fun _ _ _ => 0)
    (fun _ _ _ => 9) (net 5) (fun _ _ _ _ _ _ _ => rfl) 0 Nat.one_pos
  obtain ⟨A₇,hA₇,-⟩ := h₇ _ _ (pubCorrect7pc (by decide) (by decide) (fun _ _ _ => 0) openOnce7pc)
    (fun _ _ _ => 9) (net 7) (fun _ _ _ _ _ _ _ => rfl) 0 Nat.one_pos
  exact ⟨⟨A₃,hA₃⟩,⟨A₅,hA₅⟩,A₇,hA₇⟩

end
end RssRing
