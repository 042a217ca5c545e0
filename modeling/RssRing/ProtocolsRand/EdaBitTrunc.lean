import RssRing.ProtocolsComposite.BitAddTrunc
import RssRing.ProtocolsComposite.MSB
import RssRing.ProtocolsRand.PackedDealing
set_option autoImplicit false

namespace RssRing
open Replicated

variable {L k : Nat} {G : Type} [Generator G]

structure EdaBitsTrunc (n L : Nat) (G : Type) where
  r : Shares n (Lint L)
  r_prime : Shares n (Lint L)
  r_km1 : Shares n (Lint L)
  net : Net n G

/-- What a truncation needs of a random number `ρ`: shares of it, of it without its `m`
low bits and of its top bit. -/
structure EdaBitsTrunc.Sharing {n : Nat} (H : Pattern (Fin n) (Finset (Fin n))) (k m : Nat)
    (eda : EdaBitsTrunc n L G) (i : Nat) (ρ : BitVec k) : Prop where
  r : ArithSharing H k eda.r i ρ
  r_prime : ArithSharing H k eda.r_prime i (ρ >>> m)
  r_km1 : ArithSharing H k eda.r_km1 i (bitVal k (ρ.getLsbD (k-1)))

/-- `Rss_edaBit_trunc`. The array `u` of the random bits is not cleared. -/
def Suite.edaBitTrunc (S : Suite 3 L G) (u : Shares 3 (Lint L)) (size ring_size m : Nat)
    (net : Net 3 G) : EdaBitsTrunc 3 L G :=
  let g := generateRandomSharesTrunc ring_size m size net
  let b_2 := S.nBitAddTrunc (fun _ _ _ => 0) g.res_bitwise ring_size m size g.net
  let carry := S.b2a rssOpenBitwise u b_2.carry ring_size (3*size) b_2.net
  let r_prime := fun p s i =>
    g.res_prime p s i + carry.1 p s i - (carry.1 p s (size + i) <<< (ring_size - m))
  ⟨g.res,r_prime,fun p s i => carry.1 p s (2*size + i),carry.2⟩

theorem bitVal_eq_natCast (c : Bool) : bitVal k c = (c.toNat : BitVec k) := by
  rw [bitVal_eq]
  cases c <;> simp

omit [Generator G] in
theorem setWidth_truncBits (x : Lint L) (m : Nat) :
    ((x &&& shift L k) >>> m).setWidth k = x.setWidth k >>> m := by
  apply BitVec.eq_of_getLsbD_eq
  intro j hj
  rw [BitVec.getLsbD_setWidth,decide_eq_true hj,Bool.true_and,BitVec.getLsbD_ushiftRight,
    BitVec.getLsbD_ushiftRight,getLsbD_and_shift,BitVec.getLsbD_setWidth,Bool.and_comm]

section
variable {net : Net 3 G} {size : Nat}

theorem rValuesTrunc_isSharing {R : Type} [CommRing R] (val : Lint L → R) (h0 : val 0 = 0)
    (hmasked : ∀ x, val (masked k x) = val x) (hnet : shares3pc.Consistent net) (m : Nat)
    (j : Fin 3) {i : Nat} {v : R}
    (hsplit : ∀ z : Lint L, val (if i < size then truncBitsOwn k size net j i - z
      else if i < 2*size then truncBitsOwn k size net j (i - size) ^^^ z
      else truncBitsOwn k size net j (i - 2*size) >>> m - z) = v - val z) :
    shares3pc.IsSharing (fun p s => val (rValuesTrunc k m size net p s j i)) v := by
  refine isSharing_exchange val h0 hmasked (fun _ => rfl) (fun _ => rfl) ?_ (hsplit _)
  rw [random_agree hnet]

theorem generateRandomSharesTrunc_isSharing (hk : k ≤ 8*L) (hnet : shares3pc.Consistent net)
    (m : Nat) {i : Nat} (hi : i < size) :
    let g : RandomSharesTrunc L G := generateRandomSharesTrunc k m size net
    let x := fun j => (edaBitsOwn k size net j i : Lint L).setWidth k
    ArithSharing shares3pc k g.res i (x 0 + x 1) ∧
      ArithSharing shares3pc k g.res_prime i (x 0 >>> m + x 1 >>> m) ∧
      BitSharing shares3pc k g.res_bitwise i (x 0) ∧
      BitSharing shares3pc k g.res_bitwise (size + i) (x 1) := by
  intro g x
  have harith : ∀ j, shares3pc.IsSharing
      (fun p s => (rValuesTrunc k m size net p s j i : Lint L).setWidth k) (x j) := by
    intro j
    refine rValuesTrunc_isSharing _ (map_zero (lowBits hk)) (arithReading hk).sent hnet m j
      fun z => ?_
    rw [if_pos hi,map_sub,lowBits_apply,setWidth_truncBitsOwn]
  have hprime : ∀ j, shares3pc.IsSharing
      (fun p s => (rValuesTrunc k m size net p s j (2*size + i) : Lint L).setWidth k)
      (x j >>> m) := by
    intro j
    refine rValuesTrunc_isSharing _ (map_zero (lowBits hk)) (arithReading hk).sent hnet m j
      fun z => ?_
    rw [if_neg (by omega : ¬ 2*size + i < size),if_neg (by omega : ¬ 2*size + i < 2*size),
      Nat.add_sub_cancel_left,map_sub,lowBits_apply,truncBitsOwn,setWidth_truncBits]
  have hbits : ∀ j t, t < k → shares3pc.IsSharing
      (fun p s => (rValuesTrunc k m size net p s j (size + i) : Lint L).getLsbD t)
      ((x j).getLsbD t) := by
    intro j t ht
    refine rValuesTrunc_isSharing (fun y => y.getLsbD t) BitVec.getLsbD_zero
      (fun y => getLsbD_masked y ht) hnet m j fun z => ?_
    rw [if_neg (by omega : ¬ size + i < size),if_pos (by omega : size + i < 2*size),
      Nat.add_sub_cancel_left,BitVec.getLsbD_xor,truncBitsOwn,getLsbD_and_shift,
      BitVec.getLsbD_setWidth,decide_eq_true ht,Bool.true_and,Bool.and_true]
    rfl
  refine ⟨?_,?_,fun t ht => ?_,fun t ht => ?_⟩
  · refine ((harith 0).add (harith 1)).congr fun p s _ => ?_
    exact BitVec.setWidth_add _ _ hk
  · refine ((hprime 0).add (hprime 1)).congr fun p s _ => ?_
    exact BitVec.setWidth_add _ _ hk
  · refine (hbits 0 t ht).congr fun p s _ => ?_
    simp only [g,generateRandomSharesTrunc,if_pos hi]
  · refine (hbits 1 t ht).congr fun p s _ => ?_
    simp only [g,generateRandomSharesTrunc,if_neg (by omega : ¬ size + i < size),
      if_pos (by omega : size + i < 2*size),Nat.add_sub_cancel_left]

theorem generateRandomSharesTrunc_net (hnet : shares3pc.Consistent net) (k m size : Nat) :
    shares3pc.Consistent (generateRandomSharesTrunc (L := L) k m size net).net :=
  advance_consistent3pc (Net.consistent_advance_own hnet (by decide) _ _) (byteWidth k) (3*size)

/-- The dealers' words without their low bits miss the carry into bit `m`, and have
the one out of the ring too much. -/
theorem edaBitTrunc_element (hk : 0 < k) (hkL : k + 2 ≤ 8*L) {m : Nat} (hm : 0 < m) (hmk : m ≤ k)
    (hnet : shares3pc.Consistent net) (scratch u : Shares 3 (Lint L)) (size : Nat) :
    let out := (suite3pc scratch).edaBitTrunc u size k m net
    shares3pc.Consistent out.net ∧ ∀ i, i < size →
      out.Sharing shares3pc k m i (dealtSum L k size net i) := by
  intro out
  have hkL' : k ≤ 8*L := by omega
  have hnet₁ := generateRandomSharesTrunc_net (L := L) hnet k m size
  obtain ⟨hnet₂,hadd⟩ := (replicated3pc_replicates scratch).bitAddTrunc hkL' hm hmk
    (fun _ _ _ => 0) (a := (generateRandomSharesTrunc k m size net).res_bitwise)
    (b := fun p s i => (generateRandomSharesTrunc k m size net).res_bitwise p s (size + i)) size hnet₁
  obtain ⟨hnet₃,hb2a⟩ := b2a_isSharing (suite3pc_marks scratch) (pubCorrect3pc scratch hkL)
    (opens3pc scratch hkL') hk hkL hnet₂ u
    ((suite3pc scratch).nBitAddTrunc (fun _ _ _ => 0)
      (generateRandomSharesTrunc k m size net).res_bitwise k m size
      (generateRandomSharesTrunc (L := L) k m size net).net).carry (3*size)
  refine ⟨hnet₃,fun i hi => ?_⟩
  obtain ⟨hr,hr_prime,h₀,h₁⟩ := generateRandomSharesTrunc_isSharing (L := L) hkL' hnet m hi
  obtain ⟨-,hlow,hout,htop⟩ := hadd i hi _ _ h₀ h₁
  have hlow' := hb2a i (by omega) _ hlow
  have hout' := hb2a (size + i) (by omega) _ hout
  have htop' := hb2a (2*size + i) (by omega) _ htop
  refine ⟨hr,?_,htop'⟩
  rw [dealtSum,Carry.ushiftRight_add _ _ hmk,← bitVal_eq_natCast,← bitVal_eq_natCast]
  refine (((hr_prime.add hlow').sub (hout'.const_mul (2^(k-m))))).congr fun p s _ => ?_
  rw [← setWidth_shiftLeft hkL',← BitVec.setWidth_add _ _ hkL',← setWidth_sub_of_le _ _ hkL']
  rfl

/-- `Rss_edaBit_trunc` in numbers: the dealers' sum `r` modulo `2^k`, `r/2^m` rounded down,
and the top bit of `r`. -/
theorem edaBitTrunc_isSharing {m : Nat} (hm : 0 < m) (hmk : m < k) (hkL : k + 2 ≤ 8*L)
    (hnet : shares3pc.Consistent net) (scratch u : Shares 3 (Lint L)) (size : Nat) :
    let out := (suite3pc scratch).edaBitTrunc u size k m net
    ∀ i, i < size →
      let r := dealtSum L k size net i
      ArithSharing shares3pc k out.r i r ∧
        ArithSharing shares3pc k out.r_prime i ((r.toNat/2^m : Nat) : BitVec k) ∧
        ArithSharing shares3pc k out.r_km1 i ((r.toNat/2^(k-1) : Nat) : BitVec k) := by
  intro out i hi r
  obtain ⟨hr,hr_prime,hr_km1⟩ :=
    (edaBitTrunc_element (by omega) hkL hm (by omega) hnet scratch u size).2 i hi
  rw [Carry.ushiftRight_eq_natCast] at hr_prime
  rw [bitVal_eq_natCast,toNat_getLsbD_top (by omega)] at hr_km1
  exact ⟨hr,hr_prime,hr_km1⟩

theorem edaBitTrunc_isSharing_bytes :
    let net : Net 3 Tape := fun _ _ => ⟨fun i => BitVec.ofNat 8 (3*i+1)⟩
    let out := (suite3pc (L := 4) fun _ _ _ => 7).edaBitTrunc (fun _ _ _ => 9) 1 6 1 net
    ArithSharing shares3pc 6 out.r 0 2 ∧ ArithSharing shares3pc 6 out.r_prime 0 1 ∧
      ArithSharing shares3pc 6 out.r_km1 0 0 := by
  intro net out
  have hnet : shares3pc.Consistent net := fun _ _ _ _ _ _ _ => rfl
  have hsum : dealtSum 4 6 1 net 0 = 2 := by decide
  have hbits := edaBitTrunc_isSharing (k := 6) (m := 1) (by decide) (by decide) (by decide) hnet
    (fun _ _ _ => 7 : Shares 3 (Lint 4)) (fun _ _ _ => 9) 1 0 Nat.one_pos
  rw [hsum] at hbits
  exact hbits

end
end RssRing
