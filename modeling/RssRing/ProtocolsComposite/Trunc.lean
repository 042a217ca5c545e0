import RssRing.ProtocolsBasic.MultFixedB
import RssRing.ProtocolsRand.EdaBitTrunc
import RssRing.ProtocolsComposite.RandBitMSB
set_option autoImplicit false

namespace RssRing
open Replicated

variable {n L k m : Nat} {G : Type}

def Suite.truncFrom (S : Suite n L G) (c : Fin n → Nat → Lint L) (eda : EdaBitsTrunc n L G)
    (m ring_size : Nat) : Shares n (Lint L) :=
  let c_prime := fun p i => (c p i >>> m) &&& shift L (ring_size-m-1)
  let b := fun p s i => eda.r_km1 p s i + ((c p i*bitWord L (S.ai p s)) >>> (ring_size-1)) -
    2*(c p i >>> (ring_size-1))*eda.r_km1 p s i
  let r_m_prime := fun p s i => eda.r_prime p s i - (eda.r_km1 p s i <<< (ring_size-1-m))
  fun p s i => c_prime p i*bitWord L (S.ai p s) - r_m_prime p s i + (b p s i <<< (ring_size-m-1))

/-- `Rss_truncPr_1` on arrays given by their addresses, which may be the same. -/
def Suite.truncPr1 [Generator G] (S : Suite 3 L G) (u : Shares 3 (Lint L))
    (mem : Nat → Shares 3 (Lint L)) (res x m size ring_size : Nat) (net : Net 3 G) :
    (Nat → Shares 3 (Lint L)) × Net 3 G :=
  let eda := S.edaBitTrunc u size ring_size m net
  let c := S.openShares (fun p s i => mem x p s i + eda.r p s i) ring_size
  let out := S.truncFrom c eda m ring_size
  (Function.update mem res fun p s i => if i < size then out p s i else mem res p s i,eda.net)

/-- `Rss_truncPr_time`, without the time it takes: `ai` is the table of `Rss_MSB`. -/
def Suite.truncPrTime [Generator G] (S : Suite 3 L G) (u : Shares 3 (Lint L))
    (mem : Nat → Shares 3 (Lint L)) (res x m size ring_size : Nat) (net : Net 3 G) :
    (Nat → Shares 3 (Lint L)) × Net 3 G :=
  let eda := S.edaBitTrunc u size ring_size m net
  let c := S.openShares (fun p s i => mem x p s i + eda.r p s i) ring_size
  let out := Suite.truncFrom { S with ai := aiRssMsb } c eda m ring_size
  (Function.update mem res fun p s i => if i < size then out p s i else mem res p s i,eda.net)

/-- `SHIFT[i]`, where the table of `ring_size + 22` words has such an entry. -/
def shiftAt (L ring_size : Nat) (i : Int) : Option (Lint L) :=
  if 0 ≤ i ∧ i < ring_size + 22 then some (shift L i.toNat) else none

/-- `Rss_truncPr_1`, with nothing for a call whose last loop reads outside `SHIFT`. -/
def Suite.truncPr1Call [Generator G] (S : Suite 3 L G) (u : Shares 3 (Lint L))
    (mem : Nat → Shares 3 (Lint L)) (res x m size ring_size : Nat) (net : Net 3 G) :
    Option ((Nat → Shares 3 (Lint L)) × Net 3 G) :=
  if size = 0 ∨ (shiftAt L ring_size ((ring_size : Int) - m - 1)).isSome then
    some (S.truncPr1 u mem res x m size ring_size net)
  else none

/-- `Rss_truncPriv`: the factor `2^(M-m)` is a secret, and the truncation by `M` works in the
result of the multiplication. -/
def Suite.truncPriv [Generator G] (S : Suite 3 L G) (u : Shares 3 (Lint L)) (mem : Memory 3 L)
    (res x priv_m public_M priv_m_index size ring_size : Nat) (net : Net 3 G) :
    Option (Memory 3 L × Net 3 G) :=
  let prod := rssMultFixedBAt mem res x priv_m priv_m_index size ring_size net
  S.truncPr1Call u prod.1 res res public_M size ring_size prod.2

/-- `Rss_truncPriv_time`, which ends in `Rss_truncPr_time`. -/
def Suite.truncPrivTime [Generator G] (S : Suite 3 L G) (u : Shares 3 (Lint L)) (mem : Memory 3 L)
    (res x priv_m public_M priv_m_index size ring_size : Nat) (net : Net 3 G) :
    Memory 3 L × Net 3 G :=
  let prod := rssMultFixedBAt mem res x priv_m priv_m_index size ring_size net
  S.truncPrTime u prod.1 res res public_M size ring_size prod.2

section TopBit

theorem toNat_lowPart_add (hk : 0 < k) (x : BitVec k) (c : Bool) :
    (lowPart x + topBit k c).toNat = x.toNat%2^(k-1) + c.toNat*2^(k-1) := by
  have hpow : 2^k = 2*2^(k-1) := by rw [← Nat.pow_succ']; congr 1; omega
  have hlow := Nat.mod_lt x.toNat (Nat.two_pow_pos (k-1))
  rw [BitVec.toNat_add,toNat_lowPart,toNat_topBit hk]
  cases c with
  | false => rw [Bool.toNat_false,Nat.zero_mul,Nat.mod_eq_of_lt (by omega)]
  | true => rw [Bool.toNat_true,Nat.one_mul,Nat.mod_eq_of_lt (by omega)]

theorem split_lowPart_add (hk : 0 < k) (x : BitVec k) (c : Bool) :
    lowPart (lowPart x + topBit k c) = lowPart x ∧
      (lowPart x + topBit k c).getLsbD (k-1) = c := by
  have hlow := Nat.mod_lt x.toNat (Nat.two_pow_pos (k-1))
  constructor
  · apply BitVec.eq_of_toNat_eq
    rw [toNat_lowPart,toNat_lowPart_add hk,toNat_lowPart,Nat.add_mul_mod_self_right,Nat.mod_mod]
  · have htop := toNat_getLsbD_top hk (lowPart x + topBit k c)
    rw [toNat_lowPart_add hk,Nat.add_mul_div_right _ _ (Nat.two_pow_pos (k-1)),
      Nat.div_eq_of_lt hlow,Nat.zero_add] at htop
    have hinj : ∀ a b : Bool, a.toNat = b.toNat → a = b := by decide
    exact hinj _ _ htop

theorem split_add_topBit (hk : 0 < k) (x : BitVec k) (c : Bool) :
    lowPart (x + topBit k c) = lowPart x ∧
      (x + topBit k c).getLsbD (k-1) = (x.getLsbD (k-1) ^^ c) := by
  have hsum : x + topBit k c = lowPart x + topBit k (x.getLsbD (k-1) ^^ c) := by
    nth_rewrite 1 [← lowPart_add_topBit hk x]
    rw [add_assoc,topBit_add hk]
  rw [hsum]
  exact split_lowPart_add hk x _

theorem ushiftRight_lowPart (hm : m < k) (x : BitVec k) :
    x >>> m = lowPart x >>> m + 2^(k-1-m)*bitVal k (x.getLsbD (k-1)) := by
  have hpow : 2^(k-1) = 2^m*2^(k-1-m) := by rw [← Nat.pow_add]; congr 1; omega
  have hsplit : x.toNat/2^m = x.toNat%2^(k-1)/2^m + 2^(k-1-m)*(x.toNat/2^(k-1)) := by
    nth_rewrite 1 [← Nat.mod_add_div x.toNat (2^(k-1))]
    nth_rewrite 2 [hpow]
    rw [Nat.mul_assoc,Nat.add_mul_div_left _ _ (Nat.two_pow_pos m)]
  have hcast := congrArg (Nat.cast : Nat → BitVec k) hsplit
  push_cast at hcast
  rw [Carry.ushiftRight_eq_natCast,Carry.ushiftRight_eq_natCast,toNat_lowPart,bitVal_eq_natCast,
    toNat_getLsbD_top (by omega)]
  exact hcast

theorem trunc_value (hm : m < k) (α ρ : BitVec k) :
    lowPart (α + ρ) >>> m - (ρ >>> m - 2^(k-1-m)*bitVal k (ρ.getLsbD (k-1))) +
        2^(k-1-m)*bitVal k ((α + ρ).getLsbD (k-1) ^^ ρ.getLsbD (k-1)) =
      (α + lowPart ρ) >>> m - lowPart ρ >>> m := by
  have hk : 0 < k := by omega
  have hsum : α + ρ = α + lowPart ρ + topBit k (ρ.getLsbD (k-1)) := by
    rw [add_assoc,lowPart_add_topBit hk]
  obtain ⟨hlow,htop⟩ := split_add_topBit hk (α + lowPart ρ) (ρ.getLsbD (k-1))
  rw [hsum,hlow,htop,Bool.xor_assoc,Bool.xor_self,Bool.xor_false,ushiftRight_lowPart hm ρ,
    ushiftRight_lowPart hm (α + lowPart ρ)]
  ring

theorem toNat_trunc_value (hk : 0 < k) {α : BitVec k} (hα : α.toNat < 2^(k-1)) (ρ : BitVec k)
    (m : Nat) : ((α + lowPart ρ) >>> m - lowPart ρ >>> m).toNat = α.toNat/2^m ∨
      ((α + lowPart ρ) >>> m - lowPart ρ >>> m).toNat = α.toNat/2^m + 1 := by
  have hpow : 2^k = 2*2^(k-1) := by rw [← Nat.pow_succ']; congr 1; omega
  have hρ := Nat.mod_lt ρ.toNat (Nat.two_pow_pos (k-1))
  have hsum : (α + lowPart ρ).toNat = α.toNat + (lowPart ρ).toNat := by
    rw [BitVec.toNat_add,Nat.mod_eq_of_lt (by rw [toNat_lowPart]; omega)]
  have hdiv := Nat.add_div (a := α.toNat) (b := (lowPart ρ).toNat) (Nat.two_pow_pos m)
  have hle : lowPart ρ >>> m ≤ (α + lowPart ρ) >>> m := by
    rw [BitVec.le_def,BitVec.toNat_ushiftRight,BitVec.toNat_ushiftRight,hsum,
      Nat.shiftRight_eq_div_pow,Nat.shiftRight_eq_div_pow]
    exact Nat.div_le_div_right (Nat.le_add_left _ _)
  rw [BitVec.toNat_sub_of_le hle,BitVec.toNat_ushiftRight,BitVec.toNat_ushiftRight,hsum,
    Nat.shiftRight_eq_div_pow,Nat.shiftRight_eq_div_pow,hdiv]
  by_cases hcarry : 2^m ≤ α.toNat%2^m + (lowPart ρ).toNat%2^m
  · right
    rw [if_pos hcarry,Nat.add_right_comm,Nat.add_sub_cancel]
  · left
    rw [if_neg hcarry,Nat.add_zero,Nat.add_sub_cancel]

end TopBit

section Words
variable {H : Pattern (Fin n) (Finset (Fin n))}

theorem truncFrom_eq (S : Suite n L G) (c : Fin n → Nat → Lint L) (eda : EdaBitsTrunc n L G)
    (p : Fin n) (s i : Nat) : S.truncFrom c eda m k p s i =
      ((c p i >>> m) &&& shift L (k-1-m))*bitWord L (S.ai p s) -
        (eda.r_prime p s i - (eda.r_km1 p s i <<< (k-1-m))) +
        (S.unmask (fun p i => c p i >>> (k-1)) eda.r_km1 p s i <<< (k-1-m)) := by
  have hshift : (c p i*bitWord L (S.ai p s)) >>> (k-1) =
      bitWord L (S.ai p s)*(c p i >>> (k-1)) := by
    have hword : bitWord L (S.ai p s) = if S.ai p s then 1 else 0 := bitVal_eq (8*L) _
    rw [hword]
    cases S.ai p s <;> simp
  simp only [Suite.truncFrom,Suite.unmask,hshift,Nat.sub_right_comm k m 1,
    add_comm (eda.r_km1 p s i)]

theorem opened_middle (hm : m < k) (hk : k ≤ 8*L) {c : Lint L} {γ : BitVec k}
    (hc : c = γ.setWidth (8*L)) : ((c >>> m) &&& shift L (k-1-m)).setWidth k = lowPart γ >>> m := by
  apply BitVec.eq_of_getLsbD_eq
  intro j hj
  rw [BitVec.getLsbD_setWidth,decide_eq_true hj,Bool.true_and,getLsbD_and_shift,
    BitVec.getLsbD_ushiftRight,BitVec.getLsbD_ushiftRight,hc,BitVec.getLsbD_setWidth]
  by_cases hmj : m + j < k
  · rw [getLsbD_lowPart _ hmj,decide_eq_true (by omega : m + j < 8*L),Bool.true_and]
    congr 2
    exact propext (by omega)
  · rw [BitVec.getLsbD_of_ge _ _ (by omega),BitVec.getLsbD_of_ge _ _ (by omega),Bool.and_false,
      Bool.false_and]

theorem opened_top (hk₀ : 0 < k) (hk : k ≤ 8*L) {c : Lint L} {γ : BitVec k}
    (hc : c = γ.setWidth (8*L)) : c >>> (k-1) = bitWord L (γ.getLsbD (k-1)) := by
  apply BitVec.eq_of_getLsbD_eq
  intro j hj
  rw [BitVec.getLsbD_ushiftRight,hc,BitVec.getLsbD_setWidth,getLsbD_bitWord,decide_eq_true hj,
    Bool.true_and]
  by_cases hj0 : j = 0
  · subst hj0
    rw [Nat.add_zero,decide_eq_true (by omega : k-1 < 8*L)]
    rfl
  · rw [BitVec.getLsbD_of_ge _ _ (by omega),Bool.and_false,decide_eq_false hj0,Bool.false_and]

theorem truncFrom_isSharing {S : Suite n L G} {T₀ : Finset (Fin n)} (hS : S.Marks H T₀)
    (hm : m < k) (hk : k ≤ 8*L) {c : Fin n → Nat → Lint L} {eda : EdaBitsTrunc n L G} {i : Nat}
    {α ρ : BitVec k} (hc : ∀ p, c p i = (α + ρ).setWidth (8*L)) (heda : eda.Sharing H k m i ρ) :
    ArithSharing H k (S.truncFrom c eda m k) i ((α + lowPart ρ) >>> m - lowPart ρ >>> m) := by
  have hb := Suite.unmask_isSharing hS hk (c := fun p i => c p i >>> (k-1))
    (fun p => (opened_top (by omega) hk (hc p))) heda.r_km1
  have hpub := hS.isSharing (lowPart (α + ρ) >>> m)
  rw [← trunc_value hm]
  refine ((hpub.sub (heda.r_prime.sub (heda.r_km1.const_mul (2^(k-1-m))))).add
    (hb.const_mul (2^(k-1-m)))).congr fun p s _ => ?_
  rw [truncFrom_eq,BitVec.setWidth_add _ _ hk,setWidth_sub_of_le _ _ hk,setWidth_sub_of_le _ _ hk,
    setWidth_shiftLeft hk,setWidth_shiftLeft hk,mul_comm (_ &&& _),setWidth_bitWord_mul hk,
    opened_middle (by omega) hk (hc p)]

/-- Another table moves the part of the opened value that is public, and only that. -/
theorem truncFrom_retable (S : Suite n L G) (ai : Fin n → Nat → Bool) (hm : m < k) (hk : k ≤ 8*L)
    {c : Fin n → Nat → Lint L} (eda : EdaBitsTrunc n L G) {i : Nat} {γ : BitVec k}
    (hc : ∀ p, c p i = γ.setWidth (8*L)) (p : Fin n) (s : Nat) :
    (Suite.truncFrom { S with ai := ai } c eda m k p s i).setWidth k =
      (S.truncFrom c eda m k p s i).setWidth k + (if ai p s then γ >>> m else 0) -
        if S.ai p s then γ >>> m else 0 := by
  have hmiddle := opened_middle hm hk (hc p)
  have htop := opened_top (by omega : 0 < k) hk (hc p)
  have hpublic : ∀ b, (bitWord L b*bitWord L (γ.getLsbD (k-1))).setWidth k =
      if b then bitVal k (γ.getLsbD (k-1)) else 0 := by
    intro b
    rw [setWidth_bitWord_mul hk,setWidth_bitWord hk]
  rw [truncFrom_eq,truncFrom_eq,ushiftRight_lowPart hm γ,← hmiddle]
  simp only [Suite.unmask,htop,BitVec.setWidth_add _ _ hk,setWidth_sub_of_le _ _ hk,
    setWidth_shiftLeft hk,hpublic,mul_comm ((c p i >>> m) &&& _),setWidth_bitWord_mul hk]
  cases ai p s <;> cases S.ai p s <;> simp only [if_true,Bool.false_eq_true,if_false] <;> ring

end Words

section
variable [Generator G] {net : Net 3 G}

theorem truncPr_opened (hm : 0 < m) (hmk : m < k) (hkL : k + 2 ≤ 8*L)
    (hnet : shares3pc.Consistent net) (scratch u : Shares 3 (Lint L)) {x : Shares 3 (Lint L)}
    {size i : Nat} (hi : i < size) {α : BitVec k} (hx : ArithSharing shares3pc k x i α) :
    ∀ p, (suite3pc (G := G) scratch).openShares (fun p s i => x p s i +
      ((suite3pc scratch).edaBitTrunc u size k m net).r p s i) k p i =
        (α + dealtSum L k size net i).setWidth (8*L) := by
  have hkL' : k ≤ 8*L := by omega
  have heda := (edaBitTrunc_element (by omega) hkL hm (by omega) hnet scratch u size).2 i hi
  have hsum : ArithSharing shares3pc k (fun p s i => x p s i +
      ((suite3pc scratch).edaBitTrunc u size k m net).r p s i) i (α + dealtSum L k size net i) :=
    (hx.add heda.r).congr fun p s _ => BitVec.setWidth_add _ _ hkL'
  exact (opens3pc (G := G) scratch hkL').arith _ i _ hsum

theorem truncPr1_element (hm : 0 < m) (hmk : m < k) (hkL : k + 2 ≤ 8*L)
    (hnet : shares3pc.Consistent net) (scratch u : Shares 3 (Lint L))
    (mem : Nat → Shares 3 (Lint L)) (res x : Nat) {size i : Nat} (hi : i < size) {α : BitVec k}
    (hx : ArithSharing shares3pc k (mem x) i α) :
    let ρ := dealtSum L k size net i
    ArithSharing shares3pc k (((suite3pc scratch).truncPr1 u mem res x m size k net).1 res) i
      ((α + lowPart ρ) >>> m - lowPart ρ >>> m) := by
  intro ρ
  have heda := (edaBitTrunc_element (by omega) hkL hm (by omega) hnet scratch u size).2 i hi
  have hc := truncPr_opened hm hmk hkL hnet scratch u hi hx
  refine (truncFrom_isSharing (suite3pc_marks scratch) hmk (by omega) hc heda).congr fun p s _ => ?_
  simp only [Suite.truncPr1,Function.update_self,if_pos hi]

/-- Probabilistic truncation by `m` bits, in place or not: a sharing of `x/2^m`, rounded
down or up by one. -/
theorem truncPr1_isSharing (hm : 0 < m) (hmk : m < k) (hkL : k + 2 ≤ 8*L) (size : Nat)
    (hnet : shares3pc.Consistent net) (scratch u : Shares 3 (Lint L)) (mem : Nat → Shares 3 (Lint L))
    (res x : Nat) : ∀ i, i < size → ∀ α : BitVec k, α.toNat < 2^(k-1) →
    ArithSharing shares3pc k (mem x) i α → ∃ v : BitVec k, ArithSharing shares3pc k
      (((suite3pc scratch).truncPr1 u mem res x m size k net).1 res) i v ∧
      (v.toNat = α.toNat/2^m ∨ v.toNat = α.toNat/2^m + 1) := by
  intro i hi α hα hx
  exact ⟨_,truncPr1_element hm hmk hkL hnet scratch u mem res x hi hx,
    toNat_trunc_value (by omega) hα _ m⟩

theorem truncPr1_isSharing_twelve : ∃ v : BitVec 6, ArithSharing shares3pc 6
    (((suite3pc (L := 4) fun _ _ _ => 7).truncPr1 (fun _ _ _ => 9) (fun _ _ _ _ => 4) 0 0 2 1 6
      (fun _ _ => (⟨fun i => BitVec.ofNat 8 (3*i+1)⟩ : Tape))).1 0) 0 v ∧
    (v.toNat = (12 : BitVec 6).toNat/2^2 ∨ v.toNat = (12 : BitVec 6).toNat/2^2 + 1) := by
  refine truncPr1_isSharing (by decide) (by decide) (by decide) 1 ?_ _ _ _ 0 0 0 (by decide) 12
    (by decide) ⟨fun _ => 4,fun _ _ _ => rfl,by simp⟩
  exact fun _ _ _ _ _ _ _ => rfl

theorem rssMultFixedBAt_net (hnet : shares3pc.Consistent net) (mem : Memory 3 L)
    (res a b b_index size ring_size : Nat) :
    shares3pc.Consistent (rssMultFixedBAt mem res a b b_index size ring_size net).2 :=
  advance_consistent3pc hnet (byteWidth ring_size) size

theorem Suite.truncPr1Call_eq (S : Suite 3 L G) (hm : m < k) (u : Shares 3 (Lint L))
    (mem : Nat → Shares 3 (Lint L)) (res x size : Nat) :
    S.truncPr1Call u mem res x m size k net = some (S.truncPr1 u mem res x m size k net) := by
  have hentry : (shiftAt L k ((k : Int) - m - 1)).isSome := by
    rw [shiftAt,if_pos (by omega)]
    rfl
  rw [truncPr1Call,if_pos (.inr hentry)]

theorem Suite.truncPr1Call_none (S : Suite 3 L G) (hm : k ≤ m) (u : Shares 3 (Lint L))
    (mem : Nat → Shares 3 (Lint L)) (res x : Nat) {size : Nat} (hsize : 0 < size) :
    S.truncPr1Call u mem res x m size k net = none := by
  have hentry : shiftAt L k ((k : Int) - m - 1) = none := if_neg (by omega)
  rw [truncPr1Call,hentry,if_neg (by simp; omega)]

theorem toNat_mul_two_pow {M : Nat} (hmM : m < M) (hMk : M < k) {α : BitVec k}
    (hα : α.toNat*2^(M-m) < 2^(k-1)) : (α*2^(M-m)).toNat = α.toNat*2^(M-m) ∧
      (α*2^(M-m)).toNat/2^M = α.toNat/2^m := by
  have htoNat : (α*2^(M-m)).toNat = α.toNat*2^(M-m) := by
    rw [mul_comm,Lifting.two_pow_mul,BitVec.toNat_shiftLeft,Nat.shiftLeft_eq,Nat.mod_eq_of_lt]
    exact hα.trans (Nat.pow_lt_pow_right (by decide) (by omega))
  have hM : 2^M = 2^m*2^(M-m) := by rw [← Nat.pow_add,Nat.add_sub_cancel' (le_of_lt hmM)]
  rw [htoNat,hM,Nat.mul_div_mul_right _ _ (Nat.two_pow_pos _)]
  exact ⟨rfl,rfl⟩

/-- Truncation by a secret number `m` of bits below `M`, in place or not: `x` has room for
`M-m` more bits under the sign. -/
theorem truncPriv_isSharing {M : Nat} (hmM : m < M) (hMk : M < k) (hkL : k + 2 ≤ 8*L) (size : Nat)
    (hnet : shares3pc.Consistent net) (scratch u : Shares 3 (Lint L)) (mem : Memory 3 L)
    (res x priv_m priv_m_index : Nat)
    (hpriv : ArithSharing shares3pc k (mem priv_m) priv_m_index (2^(M-m))) :
    ∃ out, (suite3pc scratch).truncPriv u mem res x priv_m M priv_m_index size k net = some out ∧
    ∀ i, i < size → ∀ α : BitVec k, α.toNat*2^(M-m) < 2^(k-1) →
    ArithSharing shares3pc k (mem x) i α → ∃ v : BitVec k, ArithSharing shares3pc k (out.1 res) i v ∧
      (v.toNat = α.toNat/2^m ∨ v.toNat = α.toNat/2^m + 1) := by
  refine ⟨_,Suite.truncPr1Call_eq _ hMk _ _ _ _ _,fun i hi α hα hx => ?_⟩
  have hprod := rssMultFixedBAt_element (by omega) hnet mem res hi hx hpriv
  obtain ⟨htoNat,hdiv⟩ := toNat_mul_two_pow hmM hMk hα
  obtain ⟨v,hv,hval⟩ := truncPr1_isSharing (m := M) (by omega) hMk hkL size
    (rssMultFixedBAt_net hnet mem res x priv_m priv_m_index size k) scratch u _ res res i hi _
    (by rw [htoNat]; exact hα) hprod
  rw [hdiv] at hval
  exact ⟨v,hv,hval⟩

theorem truncPriv_isSharing_five : ∃ out, (suite3pc (L := 4) fun _ _ _ => 7).truncPriv
      (fun _ _ _ => 9) (fun x _ _ _ => if x = 0 then 23 else 44) 0 0 1 3 0 1 6
      (fun _ _ => (⟨fun i => BitVec.ofNat 8 (3*i+1)⟩ : Tape)) = some out ∧
    ∃ v : BitVec 6, ArithSharing shares3pc 6 (out.1 0) 0 v ∧
      (v.toNat = (5 : BitVec 6).toNat/2^1 ∨ v.toNat = (5 : BitVec 6).toNat/2^1 + 1) := by
  have hnet : shares3pc.Consistent fun _ _ => (⟨fun i => BitVec.ofNat 8 (3*i+1)⟩ : Tape) :=
    fun _ _ _ _ _ _ _ => rfl
  obtain ⟨out,hout,hshared⟩ := truncPriv_isSharing (m := 1) (M := 3) (k := 6) (L := 4) (by decide)
    (by decide) (by decide) 1 hnet (fun _ _ _ => 7) (fun _ _ _ => 9)
    (fun x _ _ _ => if x = 0 then 23 else 44) 0 0 1 0
    ⟨fun _ => 44,fun _ _ _ => rfl,by rw [Finset.sum_const,card_names3pc]; decide⟩
  exact ⟨out,hout,hshared 0 Nat.one_pos 5 (by decide) ⟨fun _ => 23,fun _ _ _ => rfl,by simp⟩⟩

/-- Five modulo `2^8`, of which seven bits are to be cut, with `M = 8` and the secret 2:
`SHIFT[-1]` is read. -/
theorem truncPriv_eight :
    let mem : Memory 3 4 := fun x _ _ _ => if x = 0 then 87 else 86
    (7 < 8 ∧ (5 : BitVec 8).toNat*2^(8-7) < 2^(8-1) ∧ ArithSharing shares3pc 8 (mem 0) 0 5 ∧
      ArithSharing shares3pc 8 (mem 1) 0 (2^(8-7))) ∧
    ∀ (scratch u : Shares 3 (Lint 4)) (net : Net 3 Tape),
      ¬ ∃ out, (suite3pc scratch).truncPriv u mem 0 0 1 8 0 1 8 net = some out := by
  intro mem
  have hx : ArithSharing shares3pc 8 (mem 0) 0 5 :=
    ⟨fun _ => 87,fun _ _ _ => rfl,by rw [Finset.sum_const,card_names3pc]; decide⟩
  have hpriv : ArithSharing shares3pc 8 (mem 1) 0 (2^(8-7)) :=
    ⟨fun _ => 86,fun _ _ _ => rfl,by rw [Finset.sum_const,card_names3pc]; decide⟩
  refine ⟨⟨by decide,by decide,hx,hpriv⟩,fun scratch u net => ?_⟩
  rintro ⟨out,hout⟩
  rw [Suite.truncPriv,Suite.truncPr1Call_none _ le_rfl _ _ _ _ Nat.one_pos] at hout
  cases hout

theorem truncPrTime_setWidth (hm : 0 < m) (hmk : m < k) (hkL : k + 2 ≤ 8*L)
    (hnet : shares3pc.Consistent net) (scratch u : Shares 3 (Lint L))
    (mem : Nat → Shares 3 (Lint L)) (res x : Nat) {size i : Nat} (hi : i < size) {α : BitVec k}
    (hx : ArithSharing shares3pc k (mem x) i α) (p : Fin 3) (s : Nat) :
    let γ := α + dealtSum L k size net i
    (((suite3pc scratch).truncPrTime u mem res x m size k net).1 res p s i).setWidth k =
      (((suite3pc scratch).truncPr1 u mem res x m size k net).1 res p s i).setWidth k +
        (if aiRssMsb p s then γ >>> m else 0) - if ai3pc p s then γ >>> m else 0 := by
  intro γ
  have hc := truncPr_opened hm hmk hkL hnet scratch u hi hx
  simp only [Suite.truncPrTime,Suite.truncPr1,Function.update_self,if_pos hi]
  exact truncFrom_retable (suite3pc scratch) aiRssMsb hmk (by omega) _ hc p s

/-- Slot 1 of party 2 takes the public value and slot 0 of party 3 does not, though they
are copies of one share. -/
theorem truncPrTime_element_iff (hm : 0 < m) (hmk : m < k) (hkL : k + 2 ≤ 8*L)
    (hnet : shares3pc.Consistent net) (scratch u : Shares 3 (Lint L))
    (mem : Nat → Shares 3 (Lint L)) (res x : Nat) {size i : Nat} (hi : i < size) {α : BitVec k}
    (hx : ArithSharing shares3pc k (mem x) i α) :
    let ρ := dealtSum L k size net i
    ArithSharing shares3pc k (((suite3pc scratch).truncPrTime u mem res x m size k net).1 res) i
      ((α + lowPart ρ) >>> m - lowPart ρ >>> m) ↔ (α + ρ).toNat < 2^m := by
  intro ρ
  have hplain := truncPr1_element hm hmk hkL hnet scratch u mem res x hi hx
  have hword := truncPrTime_setWidth hm hmk hkL hnet scratch u mem res x hi hx
  have hsmall : (α + ρ) >>> m = 0 ↔ (α + ρ).toNat < 2^m := by
    rw [← Nat.div_eq_zero_iff_lt (Nat.two_pow_pos m),← Nat.shiftRight_eq_div_pow,
      ← BitVec.toNat_ushiftRight]
    exact ⟨fun h => by rw [h]; rfl,fun h => BitVec.eq_of_toNat_eq (by rw [h]; rfl)⟩
  rw [← hsmall]
  constructor
  · intro h
    have hai : aiRssMsb 1 1 = true ∧ aiRssMsb 2 0 = false ∧ ai3pc 1 1 = false ∧
        ai3pc 2 0 = false := by decide
    have hslot := h.consistent 1 1 2 0 (by decide) (by decide) (by decide)
    have hsame := hplain.consistent 1 1 2 0 (by decide) (by decide) (by decide)
    simp only [hword,hai,hsame,if_true,Bool.false_eq_true,if_false,add_zero,sub_zero] at hslot
    exact left_eq_add.mp hslot.symm
  · intro h
    refine hplain.congr fun p s _ => ?_
    rw [hword,h]
    simp

/-- What the convolution layers use, in the runs in which the timed truncation is right. -/
theorem truncPrivTime_element {M : Nat} (hmM : m < M) (hMk : M < k) (hkL : k + 2 ≤ 8*L)
    {size i : Nat} (hi : i < size) (hnet : shares3pc.Consistent net) (scratch u : Shares 3 (Lint L))
    (mem : Memory 3 L) (res x priv_m priv_m_index : Nat) {α : BitVec k}
    (hα : α.toNat*2^(M-m) < 2^(k-1)) (hx : ArithSharing shares3pc k (mem x) i α)
    (hpriv : ArithSharing shares3pc k (mem priv_m) priv_m_index (2^(M-m)))
    (hopened : (α*2^(M-m) + dealtSum L k size (rssMultFixedBAt mem res x priv_m priv_m_index size k
      net).2 i).toNat < 2^M) :
    ∃ v : BitVec k, ArithSharing shares3pc k (((suite3pc scratch).truncPrivTime u mem res x priv_m M
      priv_m_index size k net).1 res) i v ∧
      (v.toNat = α.toNat/2^m ∨ v.toNat = α.toNat/2^m + 1) := by
  have hprod := rssMultFixedBAt_element (by omega) hnet mem res hi hx hpriv
  have htime := (truncPrTime_element_iff (by omega : 0 < M) hMk hkL
    (rssMultFixedBAt_net hnet mem res x priv_m priv_m_index size k) scratch u _ res res hi
    hprod).mpr hopened
  obtain ⟨htoNat,hdiv⟩ := toNat_mul_two_pow hmM hMk hα
  refine ⟨_,htime,?_⟩
  rw [← hdiv]
  exact toNat_trunc_value (by omega) (by rw [htoNat]; exact hα) _ M

/-- The timed truncation leaves a sharing of what `Rss_truncPr_1` shares, in exactly those
runs in which every opened `x + r` is below `2^m`. -/
theorem truncPrTime_agrees_iff (hm : 0 < m) (hmk : m < k) (hkL : k + 2 ≤ 8*L) (size : Nat)
    (hnet : shares3pc.Consistent net) (scratch u scratch' u' : Shares 3 (Lint L))
    (mem : Nat → Shares 3 (Lint L)) (res x : Nat) {α : Nat → BitVec k}
    (hα : ∀ i, i < size → (α i).toNat < 2^(k-1))
    (hx : ∀ i, i < size → ArithSharing shares3pc k (mem x) i (α i)) :
    (∀ i, i < size → ∃ v : BitVec k,
      ArithSharing shares3pc k
        (((suite3pc scratch).truncPrTime u mem res x m size k net).1 res) i v ∧
      ArithSharing shares3pc k
        (((suite3pc scratch').truncPr1 u' mem res x m size k net).1 res) i v ∧
      (v.toNat = (α i).toNat/2^m ∨ v.toNat = (α i).toNat/2^m + 1)) ↔
    ∀ i, i < size → (α i + dealtSum L k size net i).toNat < 2^m := by
  refine forall_congr' fun i => forall_congr' fun hi => ?_
  have hplain := truncPr1_element hm hmk hkL hnet scratch' u' mem res x hi (hx i hi)
  refine Iff.trans ?_ (truncPrTime_element_iff hm hmk hkL hnet scratch u mem res x hi (hx i hi))
  have hvalue := toNat_trunc_value (by omega) (hα i hi) (dealtSum L k size net i) m
  dsimp only at hplain
  generalize (α i + lowPart (dealtSum L k size net i)) >>> m -
    lowPart (dealtSum L k size net i) >>> m = w at hplain hvalue ⊢
  constructor
  · rintro ⟨v,htime,hv,-⟩
    rw [hplain.unique hv]
    exact htime
  · intro htime
    exact ⟨w,htime,hplain,hvalue⟩

theorem truncPrTime_agrees_three : ∃ v : BitVec 6,
    ArithSharing shares3pc 6 (((suite3pc (L := 4) fun _ _ _ => 7).truncPrTime (fun _ _ _ => 9)
      (fun _ _ _ _ => 1) 0 0 2 1 6 (fun _ _ => (⟨fun _ => 0⟩ : Tape))).1 0) 0 v ∧
    ArithSharing shares3pc 6 (((suite3pc (L := 4) fun _ _ _ => 5).truncPr1 (fun _ _ _ => 0)
      (fun _ _ _ _ => 1) 0 0 2 1 6 (fun _ _ => (⟨fun _ => 0⟩ : Tape))).1 0) 0 v ∧
    (v.toNat = (3 : BitVec 6).toNat/2^2 ∨ v.toNat = (3 : BitVec 6).toNat/2^2 + 1) := by
  refine (truncPrTime_agrees_iff (by decide) (by decide) (by decide) 1 ?_ _ _ _ _ _ 0 0
    (α := fun _ => 3) (fun _ _ => by decide) ?_).mpr ?_ 0 Nat.one_pos
  · exact fun _ _ _ _ _ _ _ => rfl
  · exact fun _ _ => ⟨fun _ => 1,fun _ _ _ => rfl,by simp⟩
  · decide

/-- Twelve on the same streams: `Rss_truncPr_1` leaves 3, the timed copy no sharing of it. -/
theorem truncPrTime_differs : ArithSharing shares3pc 6 (fun _ _ _ => (4 : Lint 4)) 0 12 ∧
    ArithSharing shares3pc 6 (((suite3pc (L := 4) fun _ _ _ => 0).truncPr1 (fun _ _ _ => 0)
      (fun _ _ _ _ => 4) 0 0 2 1 6 (fun _ _ => (⟨fun _ => 0⟩ : Tape))).1 0) 0 3 ∧
    ¬ ∃ v, ArithSharing shares3pc 6 (((suite3pc (L := 4) fun _ _ _ => 0).truncPrTime
      (fun _ _ _ => 0) (fun _ _ _ _ => 4) 0 0 2 1 6 (fun _ _ => (⟨fun _ => 0⟩ : Tape))).1 0) 0 v ∧
      ArithSharing shares3pc 6 (((suite3pc (L := 4) fun _ _ _ => 0).truncPr1 (fun _ _ _ => 0)
      (fun _ _ _ _ => 4) 0 0 2 1 6 (fun _ _ => (⟨fun _ => 0⟩ : Tape))).1 0) 0 v := by
  let silent : Net 3 Tape := fun _ _ => ⟨fun _ => 0⟩
  have hnet : shares3pc.Consistent silent := fun _ _ _ _ _ _ _ => rfl
  have hx : ArithSharing shares3pc 6 (fun _ _ _ => (4 : Lint 4)) 0 12 :=
    ⟨fun _ => 4,fun _ _ _ => rfl,by simp⟩
  let old : Shares 3 (Lint 4) := fun _ _ _ => 0
  have hplain := truncPr1_element (by decide : 0 < 2) (by decide) (by decide) hnet old old
    (fun _ _ _ _ => 4) 0 0 Nat.one_pos hx
  have htime := truncPrTime_element_iff (by decide : 0 < 2) (by decide) (by decide) hnet old old
    (fun _ _ _ _ => 4) 0 0 Nat.one_pos hx
  have hvalue : (12 + lowPart (dealtSum 4 6 1 silent 0)) >>> 2 -
      lowPart (dealtSum 4 6 1 silent 0) >>> 2 = (3 : BitVec 6) := by decide
  dsimp only at hplain htime
  rw [hvalue] at hplain htime
  refine ⟨hx,hplain,?_⟩
  rintro ⟨v,hv,hv'⟩
  rw [hv'.unique hplain] at hv
  exact absurd (htime.mp hv) (by decide)

end
end RssRing
