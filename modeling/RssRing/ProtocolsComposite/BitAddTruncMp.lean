import RssRing.ProtocolsComposite.BitAddTrunc
set_option autoImplicit false

namespace RssRing
open Replicated Carry

variable {L k : Nat} {G : Type}

namespace Suite
variable (S : Suite 5 L G)

/-- `Rss_BitAdd_trunc_mp`, which leaves what lies behind its `size` elements as it is. -/
def bitAddTruncMp (res carry a b : Shares 5 (Lint L)) (ring_size m size : Nat) (net : Net 5 G) :
    BitAddTrunc 5 L G :=
  let out := S.bitAddTrunc res a b ring_size m size net
  ⟨fun p s i => if i < size then out.res p s i else res p s i,
    fun p s i => if i < 3*size then out.carry p s i else carry p s i,out.net⟩

/-- `Rss_nBitAdd_trunc_mp`. Both calls hand over `size` for `m` and `m` for `size`. Beyond
`size` elements the copies `a` and `b` end, so there is no result when `size < m`. -/
def nBitAddTruncMp (res carry r_bitwise : Shares 5 (Lint L)) (ring_size m size : Nat)
    (net : Net 5 G) : Option (BitAddTrunc 5 L G) :=
  if m ≤ size then
    let out := S.bitAddTruncMp res carry r_bitwise (fun p s i => r_bitwise p s (size + i)) ring_size
      size m net
    some (S.bitAddTruncMp out.res out.carry out.res (fun p s i => r_bitwise p s (2*size + i))
      ring_size size m out.net)
  else none

end Suite

/-- The carries into position `m` and out of the word and the top bit, of the second of two
additions, where `Rss_BitAdd_trunc_mp` puts them for `count` elements. -/
def carryAt (m count : Nat) (x y z : Nat → BitVec k) (index : Nat) : Bool :=
  if index < count then BitVec.carry m (x index + y index) (z index) false
  else if index < 2*count then
    BitVec.carry k (x (index - count) + y (index - count)) (z (index - count)) false
  else (x (index - 2*count) + y (index - 2*count) + z (index - 2*count)).getLsbD (k-1)

theorem carryAt_isSharing {n : Nat} {H : Pattern (Fin n) (Finset (Fin n))}
    {carry : Shares n (Lint L)} {m count : Nat} {x y z : Nat → BitVec k}
    (h : ∀ e, e < count →
      BitSharing H k carry e (bitVal k (BitVec.carry m (x e + y e) (z e) false)) ∧
      BitSharing H k carry (count + e) (bitVal k (BitVec.carry k (x e + y e) (z e) false)) ∧
      BitSharing H k carry (2*count + e) (bitVal k ((x e + y e + z e).getLsbD (k-1))))
    {i : Nat} (hi : i < 3*count) : BitSharing H k carry i (bitVal k (carryAt m count x y z i)) := by
  rw [carryAt]
  by_cases h₀ : i < count
  · rw [if_pos h₀]
    exact (h i h₀).1
  · rw [if_neg h₀]
    by_cases h₁ : i < 2*count
    · rw [if_pos h₁]
      have hmid := (h (i - count) (by omega)).2.1
      rwa [show count + (i - count) = i by omega] at hmid
    · rw [if_neg h₁]
      have hlast := (h (i - 2*count) (by omega)).2.2
      rwa [show 2*count + (i - 2*count) = i by omega] at hlast

section
variable [Generator G] {net : Net 5 G}
  {multPub : Shares 5 (Lint L) → Shares 5 (Lint L) → Nat → Nat → Net 5 G → Fin 5 → Nat → Lint L}

def Summands (k size : Nat) (r_bitwise : Shares 5 (Lint L)) (x y z : Nat → BitVec k) : Prop :=
  ∀ i, i < size → BitSharing shares5pc k r_bitwise i (x i) ∧
    BitSharing shares5pc k r_bitwise (size + i) (y i) ∧
    BitSharing shares5pc k r_bitwise (2*size + i) (z i)

variable (multPub) in
theorem nBitAddTruncMp_element (hk : k ≤ 8*L) {m size : Nat} (hm : m ≤ size)
    (hnet : shares5pc.Consistent net) (res carry : Shares 5 (Lint L)) {r_bitwise : Shares 5 (Lint L)}
    {x y z : Nat → BitVec k} (hr : Summands k size r_bitwise x y z) :
    ∃ out, (suite5pc multPub).nBitAddTruncMp res carry r_bitwise k m size net = some out ∧
      shares5pc.Consistent out.net ∧
      (∀ i, i < m → BitSharing shares5pc k out.res i (x i + y i + z i)) ∧
      (∀ i, m ≤ i → ∀ p s, out.res p s i = res p s i) ∧
      (0 < size → size ≤ k → ∀ i, i < 3*m →
        BitSharing shares5pc k out.carry i (bitVal k (carryAt size m x y z i))) ∧
      ∀ i, 3*m ≤ i → ∀ p s, out.carry p s i = carry p s i := by
  let S : Suite 5 L G := suite5pc multPub
  have hD := replicated5pc_replicates (L := L) multPub
  let b : Shares 5 (Lint L) := fun p s i => r_bitwise p s (size + i)
  let c : Shares 5 (Lint L) := fun p s i => r_bitwise p s (2*size + i)
  let first := S.bitAddTruncMp res carry r_bitwise b k size m net
  obtain ⟨hnet₁,hsum₁⟩ : shares5pc.Consistent first.net ∧ _ :=
    hD.bitAdd hk res m hnet (a := r_bitwise) (b := b)
  have hfirst : ∀ i, i < m → BitSharing shares5pc k first.res i (x i + y i) := by
    intro i hi j hj
    obtain ⟨hx,hy,-⟩ := hr i (by omega)
    refine (hsum₁ i hi _ _ hx hy j hj).congr fun p s _ => ?_
    simp only [first,Suite.bitAddTruncMp,if_pos hi]
    rfl
  obtain ⟨hnet₂,hsum₂⟩ := hD.bitAdd hk first.res m hnet₁ (a := first.res) (b := c)
  refine ⟨_,if_pos hm,hnet₂,fun i hi j hj => ?_,fun i hi p s => ?_,fun hpos hsize i hi => ?_,
    fun i hi p s => ?_⟩
  · refine (hsum₂ i hi _ _ (hfirst i hi) (hr i (by omega)).2.2 j hj).congr fun p s _ => ?_
    simp only [Suite.bitAddTruncMp,if_pos hi]
    rfl
  · simp only [Suite.bitAddTruncMp,if_neg (by omega : ¬ i < m)]
  · have hcarry := (hD.bitAddTrunc hk hpos hsize first.res (a := first.res) (b := c) m hnet₁).2
    have hbit := carryAt_isSharing (fun e he =>
      (hcarry e he _ _ (hfirst e he) (hr e (by omega)).2.2).2) hi
    refine fun j hj => (hbit j hj).congr fun p s _ => ?_
    simp only [Suite.bitAddTruncMp,if_pos hi]
    rfl
  · simp only [Suite.bitAddTruncMp,if_neg (by omega : ¬ i < 3*m)]

theorem BitSharing.unique {n w : Nat} {H : Pattern (Fin n) (Finset (Fin n))}
    {x : Shares n (BitVec w)} {i : Nat} {v v' : BitVec k} (h : BitSharing H k x i v)
    (h' : BitSharing H k x i v') : v = v' := by
  apply BitVec.eq_of_getLsbD_eq
  intro j hj
  exact (h j hj).unique (h' j hj)

theorem toNat_bitVal (hk : 0 < k) (c : Bool) : (bitVal k c).toNat = c.toNat := by
  have hpow := Nat.one_lt_two_pow (show k ≠ 0 by omega)
  rw [bitVal,BitVec.toNat_setWidth,BitVec.toNat_ofBool,Nat.mod_eq_of_lt]
  cases c
  · exact Nat.lt_trans Nat.zero_lt_one hpow
  · exact hpow

/-- Element `i` of a sum of three numbers that can be cut by `m` bits: the sum, its top bit,
and what the summands without their low bits miss and have too much. -/
structure TruncSum (k m size : Nat) (out : BitAddTrunc 5 L G) (x y z : Nat → BitVec k) (i : Nat) :
    Prop where
  res : BitSharing shares5pc k out.res i (x i + y i + z i)
  top : BitSharing shares5pc k out.carry (2*size + i)
    (bitVal k ((x i + y i + z i).getLsbD (k-1)))
  carry : ∃ low high : BitVec k, BitSharing shares5pc k out.carry i low ∧
    BitSharing shares5pc k out.carry (size + i) high ∧
    (x i).toNat/2^m + (y i).toNat/2^m + (z i).toNat/2^m + low.toNat =
      (x i + y i + z i).toNat/2^m + 2^(k-m)*high.toNat

variable (multPub) in
/-- With as many elements as bits to cut, the swapped arguments do no harm, and what is lost
are the carries of the first addition. -/
theorem nBitAddTruncMp_square {m : Nat} (hm : 0 < m) (hmk : m < k) (hk : k ≤ 8*L)
    (hnet : shares5pc.Consistent net) (res carry : Shares 5 (Lint L))
    {r_bitwise : Shares 5 (Lint L)} {x y z : Nat → BitVec k} (hr : Summands k m r_bitwise x y z) :
    ∃ out, (suite5pc multPub).nBitAddTruncMp res carry r_bitwise k m m net = some out ∧
      ∀ i, i < m → (TruncSum k m m out x y z i ↔
        BitVec.carry m (x i) (y i) false = false ∧ BitVec.carry k (x i) (y i) false = false) := by
  obtain ⟨out,hout,-,hsum,-,hcarry,-⟩ :=
    nBitAddTruncMp_element multPub hk (Nat.le_refl m) hnet res carry hr
  refine ⟨out,hout,fun i hi => ?_⟩
  have hk₀ : 0 < k := by omega
  have hat := hcarry hm (Nat.le_of_lt hmk)
  have hlow := hat i (by omega)
  have hhigh := hat (m + i) (by omega)
  have htop := hat (2*m + i) (by omega)
  rw [carryAt,if_pos hi] at hlow
  rw [carryAt,if_neg (by omega),if_pos (by omega),Nat.add_sub_cancel_left] at hhigh
  rw [carryAt,if_neg (by omega),if_neg (by omega),Nat.add_sub_cancel_left] at htop
  rw [← toNat_add_three_div (x i) (y i) (z i) hmk,← toNat_bitVal hk₀,← toNat_bitVal hk₀]
  constructor
  · intro h
    obtain ⟨low,high,hlow',hhigh',heq⟩ := h.carry
    rwa [hlow.unique hlow',hhigh.unique hhigh']
  · intro heq
    exact ⟨hsum i hi,htop,_,_,hlow,hhigh,heq⟩

variable (multPub) in
/-- With fewer bits to cut than elements, element `m` stays as it was; that can be a sharing
with another low bit. -/
theorem nBitAddTruncMp_short {m size : Nat} (hk₀ : 0 < k) (hk : k ≤ 8*L) (hm : m < size)
    (hnet : shares5pc.Consistent net) {r_bitwise : Shares 5 (Lint L)} {x y z : Nat → BitVec k}
    (hr : Summands k size r_bitwise x y z) :
    ∃ res, ∀ carry out,
      (suite5pc multPub).nBitAddTruncMp res carry r_bitwise k m size net = some out →
      ¬ BitSharing shares5pc k out.res m (x m + y m + z m) := by
  let v := (x m + y m + z m).getLsbD 0
  refine ⟨fun p s _ => bitWord L (!v && ai5pc p s),fun carry out hout hres => ?_⟩
  obtain ⟨out',hout',-,-,hkept,-⟩ := nBitAddTruncMp_element multPub hk (Nat.le_of_lt hm) hnet
    (fun p s _ => bitWord L (!v && ai5pc p s)) carry hr
  obtain rfl : out' = out := Option.some.inj (hout'.symm.trans hout)
  have hold : shares5pc.IsSharing (fun p s => (out'.res p s m).getLsbD 0) (!v) := by
    refine ((suite5pc_marks multPub).publicBit (!v)).congr fun p s _ => ?_
    rw [hkept m (Nat.le_refl m),getLsbD_bitWord,decide_eq_true (by omega : 0 < 8*L),
      decide_eq_true rfl,Bool.true_and,Bool.true_and]
    rfl
  have hbit : v = !v := (hres 0 hk₀).unique hold
  exact Bool.not_ne_self v hbit.symm

theorem carry_eq_false_iff (m : Nat) (x y : BitVec k) :
    BitVec.carry m x y false = false ↔ x.toNat%2^m + y.toNat%2^m < 2^m := by
  rw [BitVec.carry,decide_eq_false_iff_not,Bool.toNat_false,Nat.add_zero,Nat.not_le]

/-- Right whatever the result arrays held before: exactly with as many elements as bits to
cut, and then with no carry into bit `m` and none out of the word in `x + y`. -/
theorem nBitAddTruncMp_isSharing_iff {m : Nat} (hm : 0 < m) (hmk : m < k) (hk : k ≤ 8*L)
    (size : Nat) (hnet : shares5pc.Consistent net) {r_bitwise : Shares 5 (Lint L)}
    {x y z : Nat → BitVec k} (hr : Summands k size r_bitwise x y z) :
    (∀ res carry, ∃ out,
      (suite5pc multPub).nBitAddTruncMp res carry r_bitwise k m size net = some out ∧
      ∀ i, i < size → TruncSum k m size out x y z i) ↔
    m = size ∧ ∀ i, i < size → (x i).toNat%2^m + (y i).toNat%2^m < 2^m ∧
      (x i).toNat + (y i).toNat < 2^k := by
  have hnone : ∀ i, (BitVec.carry m (x i) (y i) false = false ∧
      BitVec.carry k (x i) (y i) false = false) ↔
      (x i).toNat%2^m + (y i).toNat%2^m < 2^m ∧ (x i).toNat + (y i).toNat < 2^k := by
    intro i
    rw [carry_eq_false_iff,carry_eq_false_iff,Nat.mod_eq_of_lt (x i).isLt,
      Nat.mod_eq_of_lt (y i).isLt]
  constructor
  · intro h
    have hle : m ≤ size := by
      by_contra hgt
      obtain ⟨out,hout,-⟩ := h (fun _ _ _ => 0) (fun _ _ _ => 0)
      rw [Suite.nBitAddTruncMp,if_neg hgt] at hout
      exact Option.some_ne_none out hout.symm
    rcases Nat.lt_or_eq_of_le hle with hlt | rfl
    · obtain ⟨res,hwrong⟩ := nBitAddTruncMp_short multPub (by omega) hk hlt hnet hr
      obtain ⟨out,hout,hright⟩ := h res (fun _ _ _ => 0)
      exact absurd (hright m hlt).res (hwrong _ out hout)
    · refine ⟨rfl,fun i hi => (hnone i).mp ?_⟩
      obtain ⟨out,hout,hright⟩ := h (fun _ _ _ => 0) (fun _ _ _ => 0)
      obtain ⟨out',hout',hiff⟩ := nBitAddTruncMp_square multPub hm hmk hk hnet
        (fun _ _ _ => 0) (fun _ _ _ => 0) hr
      obtain rfl : out' = out := Option.some.inj (hout'.symm.trans hout)
      exact (hiff i hi).mp (hright i hi)
  · rintro ⟨rfl,hcarries⟩ res carry
    obtain ⟨out,hout,hiff⟩ := nBitAddTruncMp_square multPub hm hmk hk hnet
      res carry hr
    exact ⟨out,hout,fun i hi => (hiff i hi).mpr ((hnone i).mpr (hcarries i hi))⟩

end

def publicSummands (f : Nat → BitVec 6) : Shares 5 (Lint 4) := fun p s i =>
  if ai5pc p s then (f i).setWidth 32 else 0

theorem publicSummands_isSharing (f : Nat → BitVec 6) (size : Nat) :
    Summands 6 size (publicSummands f) f (fun i => f (size + i)) fun i => f (2*size + i) := by
  have hword := (suite5pc_marks (L := 4) (G := Tape) fun _ _ _ _ _ _ _ => 0).publicWord
    (by decide : 6 ≤ 8*4) f
  exact fun i _ => ⟨hword i,hword (size + i),hword (2*size + i)⟩

theorem nBitAddTruncMp_isSharing_iff_one : ∃ out,
    (suite5pc (L := 4) (G := Tape) fun _ _ _ _ _ _ _ => 0).nBitAddTruncMp (fun _ _ _ => 5)
      (fun _ _ _ => 9) (publicSummands fun i => [4,8,3].getD i 0) 6 1 1
      (fun _ _ => ⟨fun i => BitVec.ofNat 8 (3*i+1)⟩) = some out ∧
    ∀ i, i < 1 → TruncSum 6 1 1 out (fun i => [4,8,3].getD i 0) (fun i => [4,8,3].getD (1 + i) 0)
      (fun i => [4,8,3].getD (2*1 + i) 0) i := by
  refine (nBitAddTruncMp_isSharing_iff (by decide) (by decide) (by decide) 1 ?_
    (publicSummands_isSharing _ 1)).mpr ⟨rfl,by decide⟩ _ _
  exact fun _ _ _ _ _ _ _ => rfl

/-- Cleared result arrays. With two elements and one bit to cut, the second element is not
added up; with one element, one and one lose the carry into bit 1. -/
theorem nBitAddTruncMp_wrong :
    let S := suite5pc (L := 4) (G := Tape) fun _ _ _ _ _ _ _ => 0
    let net : Net 5 Tape := fun _ _ => ⟨fun _ => 0⟩
    (Summands 6 2 (publicSummands fun _ => 1) (fun _ => 1) (fun _ => 1) (fun _ => 1) ∧
      ¬ ∃ out, S.nBitAddTruncMp (fun _ _ _ => 0) (fun _ _ _ => 0) (publicSummands fun _ => 1) 6 1 2
        net = some out ∧ ∀ i, i < 2 → TruncSum 6 1 2 out (fun _ => 1) (fun _ => 1) (fun _ => 1) i) ∧
    Summands 6 1 (publicSummands fun _ => 1) (fun _ => 1) (fun _ => 1) (fun _ => 1) ∧
      ¬ ∃ out, S.nBitAddTruncMp (fun _ _ _ => 0) (fun _ _ _ => 0) (publicSummands fun _ => 1) 6 1 1
        net = some out ∧ ∀ i, i < 1 → TruncSum 6 1 1 out (fun _ => 1) (fun _ => 1) (fun _ => 1) i := by
  intro S net
  have hnet : shares5pc.Consistent net := fun _ _ _ _ _ _ _ => rfl
  have hr := publicSummands_isSharing fun _ => 1
  refine ⟨⟨hr 2,?_⟩,hr 1,?_⟩
  · rintro ⟨out,hout,hright⟩
    obtain ⟨out',hout',-,-,hkept,-⟩ := nBitAddTruncMp_element
      (fun _ _ _ _ _ _ _ => 0) (by decide) (by decide : 1 ≤ 2) hnet (fun _ _ _ => 0)
      (fun _ _ _ => 0) (hr 2)
    have hsame : out' = out := Option.some.inj (hout'.symm.trans hout)
    subst hsame
    have hzero : shares5pc.IsSharing (fun p s => (out'.res p s 1).getLsbD 0) false := by
      refine Pattern.isSharing_zero.congr fun p s _ => ?_
      rw [hkept 1 (Nat.le_refl 1)]
      exact BitVec.getLsbD_zero
    exact Bool.noConfusion (((hright 1 (by decide)).res 0 (by decide)).unique hzero)
  · rintro ⟨out,hout,hright⟩
    obtain ⟨out',hout',hiff⟩ := nBitAddTruncMp_square (fun _ _ _ _ _ _ _ => 0)
      (by decide) (by decide : 1 < 6) (by decide) hnet (fun _ _ _ => 0) (fun _ _ _ => 0) (hr 1)
    have hsame : out' = out := Option.some.inj (hout'.symm.trans hout)
    subst hsame
    have hnone := ((hiff 0 (by decide)).mp (hright 0 (by decide))).1
    exact absurd hnone (by decide)

end RssRing
