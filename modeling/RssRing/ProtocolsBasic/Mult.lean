import RssRing.Sharing
set_option autoImplicit false

namespace RssRing
open Replicated Finset

variable {G W : Type} [Generator G] {L : Nat}

def sendAndGetDataFromPeer (K : WordKind W) (v : Fin 3 → Nat → W) (p : Fin 3) (i : Nat) : W :=
  map3pc.deliver (fun q _ => K.recv (v q i)) K.zero p 0

@[simp] theorem sendAndGetDataFromPeer_eq (K : WordKind W) (v : Fin 3 → Nat → W) (p : Fin 3)
    (i : Nat) : sendAndGetDataFromPeer K v p i = K.recv (v (p + 1) i) :=
  Routing.deliver_of_source (source_map3pc p 0 Nat.one_pos) _ _

/-- The common body of the three-party multiplications. `product` multiplies the shares one
party holds of the same element of `a` and `b`. What is sent is cut in the sender's own array. -/
def mult3pc (K : WordKind W) (product : (Nat → W) → (Nat → W) → W) (size : Nat) (net : Net 3 G)
    (c a b : Shares 3 W) : Shares 3 W × Net 3 G :=
  let c₀ := fun p i => K.load (c p 0 i) (net.random 1 K.bytes size p) i
  let v := fun p i => K.sub (product (fun s => a p s i) (fun s => b p s i)) (c₀ p i)
  let net₁ := net.advance 1 K.bytes size
  let c₁ := sendAndGetDataFromPeer K v
  let v' := fun p i => K.sent (v p i)
  let c₁' := fun p i => K.add (c₁ p i) (c₀ p i)
  let c₀' := fun p i => K.add (K.load (c₀ p i) (net₁.random 0 K.bytes size p) i) (v' p i)
  (fun p s => if s = 0 then c₀' p else if s = 1 then c₁' p else c p s,
    net₁.advance 0 K.bytes size)

def product3pc (K : WordKind W) (a b : Nat → W) : W :=
  K.add (K.add (K.mul (a 0) (b 0)) (K.mul (a 0) (b 1))) (K.mul (a 1) (b 0))

def productByte (a b : Nat → Byte) : Byte :=
  (a 0 &&& (b 0 ^^^ b 1)) ^^^ (a 1 &&& b 0)

def rssMultBitwise (c a b : Shares 3 (Lint L)) (size ring_size : Nat) (net : Net 3 G) :
    Shares 3 (Lint L) × Net 3 G :=
  mult3pc (bitwiseKind L ring_size) (product3pc (bitwiseKind L ring_size)) size net c a b

def rssMult (c a b : Shares 3 (Lint L)) (size ring_size : Nat) (net : Net 3 G) :
    Shares 3 (Lint L) × Net 3 G :=
  mult3pc (arithKind L ring_size) (product3pc (arithKind L ring_size)) size net c a b

/-- The work is done on a zeroed `c_placeholder`, so `c` may be `a`. -/
def rssMultFixedB (a b : Shares 3 (Lint L)) (b_index size ring_size : Nat) (net : Net 3 G) :
    Shares 3 (Lint L) × Net 3 G :=
  mult3pc (arithKind L ring_size) (product3pc (arithKind L ring_size)) size net
    (fun _ _ _ => 0) a (fun p s _ => b p s b_index)

def rssMultByte (c a b : Shares 3 Byte) (size : Nat) (net : Net 3 G) :
    Shares 3 Byte × Net 3 G :=
  mult3pc byteKind productByte size net c a b

theorem drew_advance3pc (net : Net 3 G) (size length : Nat) :
    Net.Drew shares3pc (fun _ => [size*length]) net
      ((net.advance 1 size length).advance 0 size length) := by
  intro p s hs
  have hs' : s = 0 ∨ s = 1 := by change s < 2 at hs; omega
  rcases hs' with rfl | rfl <;> simp [Net.advance]

theorem advance_consistent3pc {net : Net 3 G} (h : shares3pc.Consistent net) (size length : Nat) :
    shares3pc.Consistent ((net.advance 1 size length).advance 0 size length) :=
  (drew_advance3pc net size length).consistent h

theorem mult3pc_net {net : Net 3 G} (h : shares3pc.Consistent net) (K : WordKind W)
    (product : (Nat → W) → (Nat → W) → W) (size : Nat) (c a b : Shares 3 W) :
    shares3pc.Consistent (mult3pc K product size net c a b).2 :=
  advance_consistent3pc h K.bytes size

theorem sum_cross3pc {R : Type} [CommRing R] (α β : Finset (Fin 3) → R) :
    ∑ p : Fin 3, (α (shares3pc.hold p 0) * β (shares3pc.hold p 0) +
      α (shares3pc.hold p 0) * β (shares3pc.hold p 1) +
      α (shares3pc.hold p 1) * β (shares3pc.hold p 0)) =
    (∑ t ∈ shares3pc.names, α t) * ∑ t ∈ shares3pc.names, β t := by
  rw [← rotation3pc.sum_cross [(0,0),(0,1),(1,0)] (by decide) (by decide) α β]
  refine Finset.sum_congr rfl (fun p _ => ?_)
  simp [add_assoc]

def mask (K : WordKind W) (net : Net 3 G) (size : Nat) (s : Nat) (p : Fin 3) (i : Nat) : W :=
  K.load K.zero (net.random s K.bytes size p) i

section
variable {R : Type} [CommRing R] {K : WordKind W} (ρ : Reading K R)
variable (product : (Nat → W) → (Nat → W) → W) (size : Nat) (net : Net 3 G) (c a b : Shares 3 W)
variable (p : Fin 3) (i : Nat)

theorem mult3pc_first : ρ.val ((mult3pc K product size net c a b).1 p 0 i) =
    ρ.val (mask K net size 0 p i) +
      (ρ.val (product (fun s => a p s i) (fun s => b p s i)) - ρ.val (mask K net size 1 p i)) := by
  have hfirst : (net.advance 1 K.bytes size).random 0 K.bytes size p =
      net.random 0 K.bytes size p := by simp [Net.random,Net.advance]
  simp only [mult3pc,if_true,ρ.add,ρ.sent,ρ.sub,hfirst,mask]
  rw [ρ.load _ K.zero (net.random 0 K.bytes size p),ρ.load (c p 0 i) K.zero]

theorem mult3pc_second : ρ.val ((mult3pc K product size net c a b).1 p 1 i) =
    ρ.val (product (fun s => a (p + 1) s i) (fun s => b (p + 1) s i)) -
      ρ.val (mask K net size 1 (p + 1) i) + ρ.val (mask K net size 1 p i) := by
  simp only [mult3pc,Nat.one_ne_zero,if_false,if_true,ρ.add,ρ.recv,ρ.sub,mask,
    sendAndGetDataFromPeer_eq]
  rw [ρ.load (c p 0 i) K.zero,ρ.load (c (p + 1) 0 i) K.zero]

end

theorem mask_second {net : Net 3 G} (h : shares3pc.Consistent net) (K : WordKind W) (size : Nat)
    (p : Fin 3) (i : Nat) : mask K net size 1 p i = mask K net size 0 (p + 1) i := by
  have hhold : shares3pc.hold p 1 = shares3pc.hold (p + 1) 0 := by revert p; decide
  rw [mask,mask,Net.random_eq h (by decide) (by decide) hhold]

theorem sum_product3pc {R : Type} [CommRing R] {K : WordKind W} (ρ : Reading K R)
    {product : (Nat → W) → (Nat → W) → W}
    (hproduct : ∀ a b, ρ.val (product a b) =
      ρ.val (a 0) * ρ.val (b 0) + ρ.val (a 0) * ρ.val (b 1) + ρ.val (a 1) * ρ.val (b 0))
    {a b : Fin 3 → Nat → W} {x y : R} (ha : shares3pc.IsSharing (fun p s => ρ.val (a p s)) x)
    (hb : shares3pc.IsSharing (fun p s => ρ.val (b p s)) y) :
    ∑ p, ρ.val (product (a p) (b p)) = x*y := by
  obtain ⟨α,hα,rfl⟩ := ha
  obtain ⟨β,hβ,rfl⟩ := hb
  have hα : ∀ p s, s < 2 → ρ.val (a p s) = α (shares3pc.hold p s) := hα
  have hβ : ∀ p s, s < 2 → ρ.val (b p s) = β (shares3pc.hold p s) := hβ
  rw [← sum_cross3pc]
  refine Finset.sum_congr rfl (fun p _ => ?_)
  simp only [hproduct,hα _ _ (by decide : 0 < 2),hα _ _ (by decide : 1 < 2),
    hβ _ _ (by decide : 0 < 2),hβ _ _ (by decide : 1 < 2)]

theorem isSharing_reshared3pc {R : Type} [CommRing R] {K : WordKind W} (ρ : Reading K R)
    {net : Net 3 G} (hnet : shares3pc.Consistent net) (size i : Nat) {x : Fin 3 → Nat → R}
    {cross : Fin 3 → R}
    (hfirst : ∀ p, x p 0 =
      ρ.val (mask K net size 0 p i) + (cross p - ρ.val (mask K net size 1 p i)))
    (hsecond : ∀ p, x p 1 = cross (p + 1) - ρ.val (mask K net size 1 (p + 1) i) +
      ρ.val (mask K net size 1 p i)) : shares3pc.IsSharing x (∑ p, cross p) := by
  let fresh : Fin 3 → R := fun p => ρ.val (mask K net size 0 p i)
  have hfresh : ∑ p, fresh (p + 1) = ∑ p, fresh p :=
    Fintype.sum_equiv (Equiv.addRight 1) _ _ (fun _ => rfl)
  have hsum : ∑ p : Fin 3, ∑ _c : Fin 1, (fresh p + (cross p - fresh (p + 1))) = ∑ p, cross p := by
    simp only [Fin.sum_univ_one,Finset.sum_add_distrib,Finset.sum_sub_distrib,hfresh,
      add_sub_cancel]
  rw [← hsum]
  apply rotation3pc.isSharing (fun p _ => fresh p + (cross p - fresh (p + 1)))
  intro p s hs
  have hs' : s = 0 ∨ s = 1 := by change s < 2 at hs; omega
  rcases hs' with rfl | rfl
  · have hoff : p + rotation3pc.off 0 = p := add_zero p
    rw [hoff,hfirst,mask_second hnet]
  · have hoff : p + rotation3pc.off 1 = p + 1 := rfl
    rw [hoff,hsecond,mask_second hnet,mask_second hnet]
    simp only [fresh]
    ring

/-- One element of a three-party multiplication, read in a ring where the local
product is the sum of the three cross products. -/
theorem mult3pc_isSharing {R : Type} [CommRing R] {K : WordKind W} (ρ : Reading K R)
    {product : (Nat → W) → (Nat → W) → W}
    (hproduct : ∀ a b, ρ.val (product a b) =
      ρ.val (a 0) * ρ.val (b 0) + ρ.val (a 0) * ρ.val (b 1) + ρ.val (a 1) * ρ.val (b 0))
    {net : Net 3 G} (hnet : shares3pc.Consistent net) (size i : Nat) (c a b : Shares 3 W) {x y : R}
    (ha : shares3pc.IsSharing (fun p s => ρ.val (a p s i)) x)
    (hb : shares3pc.IsSharing (fun p s => ρ.val (b p s i)) y) :
    shares3pc.IsSharing (fun p s => ρ.val ((mult3pc K product size net c a b).1 p s i)) (x*y) := by
  have h := isSharing_reshared3pc ρ hnet size i
    (x := fun p s => ρ.val ((mult3pc K product size net c a b).1 p s i))
    (fun p => mult3pc_first ρ product size net c a b p i)
    (fun p => mult3pc_second ρ product size net c a b p i)
  rwa [sum_product3pc ρ hproduct ha hb] at h

theorem isSharing3pc_iff {R : Type} [AddCommMonoid R] {x : Fin 3 → Nat → R} {v : R} :
    shares3pc.IsSharing x v ↔ (∀ p, x p 1 = x (p + 1) 0) ∧ ∑ p, x p 0 = v := by
  have hnext : ∀ p : Fin 3, shares3pc.hold p 1 = shares3pc.hold (p + 1) 0 := by decide
  constructor
  · rintro ⟨σ,hσ,rfl⟩
    constructor
    · intro p
      rw [hσ p 1 (by decide),hσ (p + 1) 0 (by decide),hnext]
    · rw [rotation3pc.sum_names,Fintype.sum_prod_type]
      refine Finset.sum_congr rfl (fun p _ => ?_)
      rw [hσ p 0 (by decide),Fin.sum_univ_one]
      rfl
  · rintro ⟨hx,rfl⟩
    have h := rotation3pc.isSharing (x := x) (fun p _ => x p 0) ?_
    · simpa [one_nsmul] using h
    · intro p s hs
      have hs' : s = 0 ∨ s = 1 := by change s < 2 at hs; omega
      rcases hs' with rfl | rfl
      · exact congrArg (fun q => x q 0) (add_zero p).symm
      · exact hx p

theorem product3pc_val {R : Type} [CommRing R] {K : WordKind W} (ρ : Reading K R) (a b : Nat → W) :
    ρ.val (product3pc K a b) =
      ρ.val (a 0) * ρ.val (b 0) + ρ.val (a 0) * ρ.val (b 1) + ρ.val (a 1) * ρ.val (b 0) := by
  simp only [product3pc,ρ.add,ρ.mul]

theorem productByte_val (j : Nat) (a b : Nat → Byte) :
    (byteReading j).val (productByte a b) =
      (byteReading j).val (a 0) * (byteReading j).val (b 0) +
        (byteReading j).val (a 0) * (byteReading j).val (b 1) +
        (byteReading j).val (a 1) * (byteReading j).val (b 0) := by
  have hval : ∀ x : Byte, (byteReading j).val x = x.getLsbD j := fun _ => rfl
  simp only [hval,productByte,BitVec.getLsbD_xor,BitVec.getLsbD_and]
  exact congrArg (fun z => z + _) (mul_add ((a 0).getLsbD j) ((b 0).getLsbD j) ((b 1).getLsbD j))

variable {k size i : Nat} {net : Net 3 G}

theorem rssMult_isSharing (hk : k ≤ 8*L) (hnet : shares3pc.Consistent net)
    (c a b : Shares 3 (Lint L)) {x y : BitVec k} (ha : ArithSharing shares3pc k a i x)
    (hb : ArithSharing shares3pc k b i y) :
    ArithSharing shares3pc k (rssMult c a b size k net).1 i (x*y) :=
  mult3pc_isSharing (arithReading hk) (product3pc_val _) hnet size i c a b ha hb

theorem rssMultFixedB_isSharing (hk : k ≤ 8*L) (hnet : shares3pc.Consistent net)
    (a b : Shares 3 (Lint L)) {b_index : Nat} {x y : BitVec k} (ha : ArithSharing shares3pc k a i x)
    (hb : ArithSharing shares3pc k b b_index y) :
    ArithSharing shares3pc k (rssMultFixedB a b b_index size k net).1 i (x*y) :=
  mult3pc_isSharing (arithReading hk) (product3pc_val _) hnet size i _ a _ ha hb

theorem rssMultBitwise_isSharing (hnet : shares3pc.Consistent net) (c a b : Shares 3 (Lint L))
    {x y : BitVec k} (ha : BitSharing shares3pc k a i x) (hb : BitSharing shares3pc k b i y) :
    BitSharing shares3pc k (rssMultBitwise c a b size k net).1 i (x &&& y) := by
  intro j hj
  rw [BitVec.getLsbD_and]
  exact mult3pc_isSharing (bitReading L hj) (product3pc_val _) hnet size i c a b (ha j hj) (hb j hj)

theorem rssMultByte_isSharing (hnet : shares3pc.Consistent net) (c a b : Shares 3 Byte)
    {x y : Byte} (ha : BitSharing shares3pc 8 a i x) (hb : BitSharing shares3pc 8 b i y) :
    BitSharing shares3pc 8 (rssMultByte c a b size net).1 i (x &&& y) := by
  intro j hj
  rw [BitVec.getLsbD_and]
  exact mult3pc_isSharing (byteReading j) (productByte_val j) hnet size i c a b (ha j hj) (hb j hj)

/-- Every three-party multiplication takes consistent sharings to a consistent
sharing of the product, whatever the streams and the old contents of `c` are. -/
theorem mult_family (hk : k ≤ 8*L) (size : Nat) (hnet : shares3pc.Consistent net)
    (c a b : Shares 3 (Lint L)) (u s t : Shares 3 Byte) :
    (∀ i, i < size → ∀ x y : BitVec k, ArithSharing shares3pc k a i x →
      ArithSharing shares3pc k b i y →
      ArithSharing shares3pc k (rssMult c a b size k net).1 i (x*y)) ∧
    (∀ b_index, ∀ y : BitVec k, ArithSharing shares3pc k b b_index y →
      ∀ i, i < size → ∀ x : BitVec k, ArithSharing shares3pc k a i x →
      ArithSharing shares3pc k (rssMultFixedB a b b_index size k net).1 i (x*y)) ∧
    (∀ i, i < size → ∀ x y : BitVec k, BitSharing shares3pc k a i x →
      BitSharing shares3pc k b i y →
      BitSharing shares3pc k (rssMultBitwise c a b size k net).1 i (x &&& y)) ∧
    (∀ i, i < size → ∀ x y : Byte, BitSharing shares3pc 8 s i x → BitSharing shares3pc 8 t i y →
      BitSharing shares3pc 8 (rssMultByte u s t size net).1 i (x &&& y)) := by
  refine ⟨?_,?_,?_,?_⟩
  · intro i _ x y ha hb
    exact rssMult_isSharing hk hnet c a b ha hb
  · intro b_index y hb i _ x ha
    exact rssMultFixedB_isSharing hk hnet a b ha hb
  · intro i _ x y ha hb
    exact rssMultBitwise_isSharing hnet c a b ha hb
  · intro i _ x y ha hb
    exact rssMultByte_isSharing hnet u s t ha hb

theorem mult_family_ones :
    ArithSharing shares3pc 4 (rssMult (L := 4) (fun _ _ _ => 7) (fun _ _ _ => 1) (fun _ _ _ => 2) 1 4
      (fun _ _ => (⟨fun i => BitVec.ofNat 8 (3*i+1)⟩ : Tape))).1 0 (3*6) := by
  refine (mult_family (by decide) 1 ?_ _ _ _ (fun _ _ _ => 0) (fun _ _ _ => 0)
    (fun _ _ _ => 0)).1 0 (by decide) 3 6 ?_ ?_
  · exact fun _ _ _ _ _ _ _ => rfl
  · exact ⟨fun _ => 1,fun _ _ _ => rfl,by simp⟩
  · exact ⟨fun _ => 2,fun _ _ _ => rfl,by simp⟩

end RssRing
