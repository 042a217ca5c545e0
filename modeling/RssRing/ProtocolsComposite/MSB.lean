import RssRing.ProtocolsComposite.BitLT
import RssRing.ProtocolsRand.EdaBit
import RssRing.ProtocolsRand.RandBit
set_option autoImplicit false

namespace RssRing
open Replicated

variable {n L k : Nat} {G : Type}

/-- Arrays that are not cleared before they are used: those of the public
multiplication and of `Rss_RandBit`, and `u_2`. -/
structure Uncleared (n L : Nat) where
  scratch : Shares n (Lint L)
  u : Shares n (Lint L)
  u_2 : Shares n (Lint L)

def msbSum (ai : Fin n → Nat → Bool) (c : Fin n → Nat → Lint L) (u a b rprime : Shares n (Lint L))
    (ring_size : Nat) : Shares n (Lint L) := fun p s i =>
  a p s i - c p i*bitWord L (ai p s) + rprime p s i - (u p s i <<< (ring_size-1)) +
    (b p s i <<< (ring_size-1))

namespace Suite
variable (S : Suite n L G)

def msbC (a r : Shares n (Lint L)) (ring_size : Nat) (p : Fin n) (i : Nat) : Lint L :=
  S.openShares (fun p s i => a p s i + r p s i) ring_size p i &&& shift L (ring_size-1)

/-- What the MSB routines do once they have a random bit `b` and a random `r`,
with `rprime` and `r_2` for `r` without its top bit. -/
def msbFrom (ai : Fin n → Nat → Bool) (u_2 a b r rprime r_2 : Shares n (Lint L))
    (ring_size size : Nat) (net : Net n G) : Shares n (Lint L) × Net n G :=
  let c := S.msbC a r ring_size
  let u := S.bitLT u_2 c r_2 ring_size size net
  let e := S.openShares (msbSum ai c u.1 a b rprime ring_size) ring_size
  let e_bit := fun p i => getBit (e p i) (ring_size-1)
  (fun p s i => e_bit p i*bitWord L (ai p s) + b p s i - ((e_bit p i*b p s i) <<< 1),u.2)

variable [Generator G]

/-- The common text of `new_Rss_MSB`, `new_Rss_MSB_mp` and `new_Rss_MSB_7pc`. -/
def newMsb (edaBit : Nat → Nat → Net n G → EdaBits n L G) (u u_2 a : Shares n (Lint L))
    (size ring_size : Nat) (net : Net n G) : Shares n (Lint L) × Net n G :=
  let b := S.randBit u size ring_size net
  let eda := edaBit size ring_size b.2
  let rprime := fun p s i =>
    eda.r p s i - (getBit (eda.b_2 p s i) (ring_size-1) <<< (ring_size-1))
  let r_2 := fun p s i => eda.b_2 p s i &&& shift L (ring_size-1)
  S.msbFrom S.ai u_2 a b.1 eda.r rprime r_2 ring_size size eda.net

def composed (r_shares : Shares n (Lint L)) (ring_size : Nat) : Shares n (Lint L) := fun p s j =>
  (List.range (ring_size-1)).foldl (fun x k => x + (r_shares p s (j*ring_size + k) <<< k)) 0

/-- The common text of `Rss_MSB`, `Rss_MSB_mp` and `Rss_MSB_7pc`; `ai` is the table
that the routine sets up for itself. -/
def msb (ai : Fin n → Nat → Bool) (u a : Shares n (Lint L)) (size ring_size : Nat)
    (net : Net n G) : Shares n (Lint L) × Net n G :=
  let r_shares := S.randBit u (size*(ring_size+1)) ring_size net
  let b := fun p s i => r_shares.1 p s (size*ring_size + i)
  let rprime := composed r_shares.1 ring_size
  let r := fun p s j =>
    rprime p s j + (r_shares.1 p s (j*ring_size + (ring_size-1)) <<< (ring_size-1))
  let r_2 := fun p s j => (List.range (ring_size-1)).foldl (fun x k =>
    setBit x k (getBit (r_shares.1 p s (j*ring_size + k)) 0)) 0
  S.msbFrom ai (fun _ _ _ => 0) a b r rprime r_2 ring_size size r_shares.2

end Suite

def newRssMsb [Generator G] (mem : Uncleared 3 L) (a : Shares 3 (Lint L)) (size ring_size : Nat)
    (net : Net 3 G) : Shares 3 (Lint L) × Net 3 G :=
  (suite3pc mem.scratch).newMsb (suite3pc mem.scratch).edaBit mem.u mem.u_2 a size ring_size net

def lowPart (x : BitVec k) : BitVec k := (x.setWidth (k-1)).setWidth k

def topBit (k : Nat) (c : Bool) : BitVec k := bitVal k c <<< (k-1)

section TopBit

theorem toNat_lowPart (x : BitVec k) : (lowPart x).toNat = x.toNat % 2^(k-1) := by
  have hle : 2^(k-1) ≤ 2^k := Nat.pow_le_pow_right (by decide) (by omega)
  have hlt := Nat.mod_lt x.toNat (Nat.two_pow_pos (k-1))
  rw [lowPart,BitVec.toNat_setWidth,BitVec.toNat_setWidth,Nat.mod_eq_of_lt (by omega)]

theorem toNat_topBit (hk : 0 < k) (c : Bool) : (topBit k c).toNat = c.toNat*2^(k-1) := by
  have hpow : 2^k = 2*2^(k-1) := by rw [← Nat.pow_succ']; congr 1; omega
  have hpos := Nat.two_pow_pos (k-1)
  rw [topBit,bitVal_eq,BitVec.toNat_shiftLeft,Nat.shiftLeft_eq]
  cases c with
  | false => simp
  | true =>
    have hone : (1 : BitVec k).toNat = 1 := by
      show 1 % 2^k = 1
      exact Nat.mod_eq_of_lt (by omega)
    rw [if_pos rfl,hone,Bool.toNat_true,Nat.one_mul,Nat.mod_eq_of_lt (by omega)]

theorem getLsbD_topBit (hk : 0 < k) (c : Bool) : (topBit k c).getLsbD (k-1) = c := by
  rw [BitVec.getLsbD,toNat_topBit hk]
  cases c with
  | false => simp
  | true => simp

theorem topBit_add (hk : 0 < k) (c d : Bool) : topBit k c + topBit k d = topBit k (c ^^ d) := by
  have hpow : 2^k = 2*2^(k-1) := by rw [← Nat.pow_succ']; congr 1; omega
  have hpos := Nat.two_pow_pos (k-1)
  apply BitVec.eq_of_toNat_eq
  rw [BitVec.toNat_add,toNat_topBit hk,toNat_topBit hk,toNat_topBit hk,hpow]
  have hwrap : (2^(k-1) + 2^(k-1)) % (2*2^(k-1)) = 0 := by rw [← Nat.two_mul,Nat.mod_self]
  have hsmall : 2^(k-1) % (2*2^(k-1)) = 2^(k-1) := Nat.mod_eq_of_lt (by omega)
  cases c <;> cases d <;> simp [hwrap,hsmall]

theorem toNat_getLsbD_top (hk : 0 < k) (x : BitVec k) :
    (x.getLsbD (k-1)).toNat = x.toNat/2^(k-1) := by
  have hpow : 2^k = 2*2^(k-1) := by rw [← Nat.pow_succ']; congr 1; omega
  have hx := x.isLt
  have hsmall : x.toNat/2^(k-1) < 2 := Nat.div_lt_of_lt_mul (by rw [Nat.mul_comm]; omega)
  rw [BitVec.getLsbD,Nat.testBit_eq_decide_div_mod_eq,Nat.mod_eq_of_lt hsmall]
  rcases Nat.le_one_iff_eq_zero_or_eq_one.mp (Nat.lt_succ_iff.mp hsmall) with h | h <;> simp [h]

theorem lowPart_add_topBit (hk : 0 < k) (x : BitVec k) :
    lowPart x + topBit k (x.getLsbD (k-1)) = x := by
  have hdiv := Nat.div_add_mod x.toNat (2^(k-1))
  apply BitVec.eq_of_toNat_eq
  rw [BitVec.toNat_add,toNat_lowPart,toNat_topBit hk,toNat_getLsbD_top hk,Nat.mul_comm (_/_),
    Nat.add_comm (_%_),hdiv,Nat.mod_eq_of_lt x.isLt]

theorem lowPart_add (hk : 0 < k) (x y : BitVec k) :
    lowPart x + lowPart y =
      lowPart (x + y) + topBit k ((lowPart (x + y)).ult (lowPart y)) := by
  have hpow : 2^k = 2*2^(k-1) := by rw [← Nat.pow_succ']; congr 1; omega
  have hpos := Nat.two_pow_pos (k-1)
  have hx := Nat.mod_lt x.toNat hpos
  have hy := Nat.mod_lt y.toNat hpos
  have hsum : (x + y).toNat % 2^(k-1) = (x.toNat%2^(k-1) + y.toNat%2^(k-1)) % 2^(k-1) := by
    rw [BitVec.toNat_add,Nat.mod_mod_of_dvd _ (Nat.pow_dvd_pow 2 (by omega)),Nat.add_mod]
  apply BitVec.eq_of_toNat_eq
  rw [BitVec.toNat_add,BitVec.toNat_add,toNat_topBit hk,BitVec.ult,toNat_lowPart,toNat_lowPart,
    toNat_lowPart,hsum]
  generalize x.toNat%2^(k-1) = a at *
  generalize y.toNat%2^(k-1) = b at *
  by_cases hwrap : a + b < 2^(k-1)
  · rw [Nat.mod_eq_of_lt hwrap,decide_eq_false (by omega)]
    simp
  · have hmod : (a+b)%2^(k-1) = a + b - 2^(k-1) := by
      rw [Nat.mod_eq_sub_mod (by omega),Nat.mod_eq_of_lt (by omega)]
    rw [hmod,decide_eq_true (by omega),Bool.toNat_true,Nat.one_mul,Nat.sub_add_cancel (by omega)]

/-- What is opened last: everything but two top bits has cancelled. -/
theorem msb_value (hk : 0 < k) (x y : BitVec k) (β : Bool) :
    x + lowPart y - topBit k ((lowPart (x + y)).ult (lowPart y)) + topBit k β - lowPart (x + y) =
      topBit k (x.getLsbD (k-1) ^^ β) := by
  have hsum := lowPart_add hk x y
  rw [← topBit_add hk]
  nth_rewrite 1 [← lowPart_add_topBit hk x]
  rw [add_right_comm (lowPart x),hsum]
  ring

theorem getLsbD_lowPart (x : BitVec k) {j : Nat} (hj : j < k) :
    (lowPart x).getLsbD j = (x.getLsbD j && decide (j < k-1)) := by
  simp only [lowPart,BitVec.getLsbD_setWidth,decide_eq_true hj,Bool.true_and,Bool.and_comm]

theorem topBit_eq_mul (k : Nat) (c : Bool) : topBit k c = 2^(k-1)*bitVal k c := by
  rw [topBit,Lifting.two_pow_mul]

def topBitHom (hk : 0 < k) : Bool →+ BitVec k where
  toFun := topBit k
  map_zero' := by
    show topBit k false = 0
    rw [topBit_eq_mul,bitVal_eq,if_neg (by decide),mul_zero]
  map_add' c d := (topBit_add hk c d).symm

theorem sub_lowPart_topBit (hk : 0 < k) (x : BitVec k) :
    x - (lowPart x + topBit k true) = topBit k (!x.getLsbD (k-1)) := by
  have hneg : topBit k true + topBit k true = 0 := by
    rw [topBit_add hk,Bool.xor_self]
    exact (topBitHom hk).map_zero
  rw [← Bool.xor_true,← topBit_add hk,sub_eq_iff_eq_add]
  nth_rewrite 1 [← lowPart_add_topBit hk x]
  calc lowPart x + topBit k (x.getLsbD (k-1))
      = lowPart x + topBit k (x.getLsbD (k-1)) + (topBit k true + topBit k true) := by
        rw [hneg,add_zero]
    _ = topBit k (x.getLsbD (k-1)) + topBit k true + (lowPart x + topBit k true) := by abel

end TopBit

section Words
variable {ai : Fin n → Nat → Bool} {c : Fin n → Nat → Lint L} {a b r rprime u : Shares n (Lint L)}
  {p : Fin n} {s i : Nat}

theorem msbSum_setWidth (hk : k ≤ 8*L) : (msbSum ai c u a b rprime k p s i).setWidth k =
    (a p s i).setWidth k + (rprime p s i).setWidth k - 2^(k-1)*(u p s i).setWidth k +
      2^(k-1)*(b p s i).setWidth k - if ai p s then (c p i).setWidth k else 0 := by
  rw [msbSum,mul_comm (c p i),← setWidth_bitWord_mul hk,← setWidth_shiftLeft hk,← setWidth_shiftLeft hk]
  simp only [← lowBits_apply hk,map_add,map_sub]
  ring

theorem Suite.msbFrom_setWidth {S : Suite n L G} (hk : k ≤ 8*L) {u_2 r_2 : Shares n (Lint L)}
    {size : Nat} {net : Net n G} {e : Bool} (he : (S.openShares (msbSum ai (S.msbC a r k)
      (S.bitLT u_2 (S.msbC a r k) r_2 k size net).1 a b rprime k) k p i).getLsbD (k-1) = e) :
    ((S.msbFrom ai u_2 a b r rprime r_2 k size net).1 p s i).setWidth k =
      if e then bitVal k (ai p s) - (b p s i).setWidth k else (b p s i).setWidth k := by
  have hsplit : ∀ x : Lint L, (bitWord L e*bitWord L (ai p s) + x -
      ((bitWord L e*x) <<< 1)).setWidth k = (bitWord L e*bitWord L (ai p s)).setWidth k +
        x.setWidth k - ((bitWord L e*x) <<< 1).setWidth k := by
    intro x
    simp only [← lowBits_apply hk,map_add,map_sub]
  simp only [msbFrom,getBit_eq,he]
  rw [hsplit,setWidth_shiftLeft hk,setWidth_bitWord_mul hk,setWidth_bitWord_mul hk,
    setWidth_bitWord hk]
  cases e with
  | false => simp
  | true => simp only [if_true]; ring

theorem Suite.msbC_eq {S : Suite n L G} {v : BitVec k}
    (h : S.openShares (fun p s i => a p s i + r p s i) k p i = v.setWidth (8*L)) :
    S.msbC a r k p i = (lowPart v).setWidth (8*L) := by
  apply BitVec.eq_of_getLsbD_eq
  intro j hj
  rw [msbC,h,getLsbD_and_shift,BitVec.getLsbD_setWidth,BitVec.getLsbD_setWidth,
    decide_eq_true hj,Bool.true_and,Bool.true_and]
  by_cases hjk : j < k
  · rw [getLsbD_lowPart v hjk]
  · rw [BitVec.getLsbD_of_ge v j (by omega),BitVec.getLsbD_of_ge _ j (by omega),Bool.false_and]

end Words

structure MsbPrepared (k : Nat) (b r rprime r_2 : Shares 3 (Lint L)) (i : Nat) (β : Bool)
    (ρ : BitVec k) : Prop where
  bit : ArithSharing shares3pc k b i (bitVal k β)
  whole : ArithSharing shares3pc k r i ρ
  low : ArithSharing shares3pc k rprime i (lowPart ρ)
  bitwise : BitSharing shares3pc k r_2 i (lowPart ρ)

def marks (ai : Fin 3 → Nat → Bool) (p : Fin 3) : Nat :=
  (ai p 0).toNat + (ai p 1).toNat + (ai (p + 1) 1).toNat

section
variable [Generator G] {size i : Nat} {net : Net 3 G} {a b r rprime r_2 : Shares 3 (Lint L)}
  {α ρ : BitVec k} {β : Bool}

theorem msbOpened (hk : 0 < k) (hkL : k < 8*L) (scratch u_2 : Shares 3 (Lint L))
    (ai : Fin 3 → Nat → Bool) (hnet : shares3pc.Consistent net) (hi : i < size)
    (h : MsbPrepared k b r rprime r_2 i β ρ) (ha : ArithSharing shares3pc k a i α) (p : Fin 3) :
    let S : Suite 3 L G := suite3pc scratch
    let c := S.msbC a r k
    rssOpen (msbSum ai c (S.bitLT u_2 c r_2 k size net).1 a b rprime k) k p i =
      (topBit k (α.getLsbD (k-1) ^^ β) + lowPart (α + ρ) -
        marks ai p • lowPart (α + ρ)).setWidth (8*L) := by
  intro S c
  have hkL' : k ≤ 8*L := Nat.le_of_lt hkL
  have hsum : ArithSharing shares3pc k (fun p s i => a p s i + r p s i) i (α + ρ) :=
    (ha.add h.whole).congr fun p s _ => BitVec.setWidth_add _ _ hkL'
  have hc : ∀ q, c q i = (lowPart (α + ρ)).setWidth (8*L) :=
    fun q => Suite.msbC_eq (S := S) (rssOpen_eq hkL' hsum q)
  have hcbits : ∀ q j, j < k → (c q i).getLsbD j = (lowPart (α + ρ)).getLsbD j := by
    intro q j hj
    rw [hc,BitVec.getLsbD_setWidth,decide_eq_true (by omega),Bool.true_and]
  obtain ⟨-,hlt⟩ := (replicated3pc scratch).bitLT_shared size rfl hk hkL'
    (public3pc scratch) u_2 (a := c) (b := r_2) hnet
  obtain ⟨w,hw,hword⟩ := hlt i hi _ _ hcbits h.bitwise
  let x : Fin 3 → Nat → BitVec k := fun q s => (a q s i).setWidth k + (rprime q s i).setWidth k -
    topBit k (w q s) + 2^(k-1)*(b q s i).setWidth k
  have hx : shares3pc.IsSharing x (topBit k (α.getLsbD (k-1) ^^ β) + lowPart (α + ρ)) := by
    have hlin := ((ha.add h.low).sub (hw.map (topBitHom hk))).add (h.bit.const_mul (2^(k-1)))
    have hval := msb_value hk α ρ β
    rw [← topBit_eq_mul] at hlin
    rw [sub_eq_iff_eq_add] at hval
    rw [← hval]
    exact hlin
  have hslot : ∀ q s, s < 2 →
      (msbSum ai c (S.bitLT u_2 c r_2 k size net).1 a b rprime k q s i).setWidth k =
        x q s - (ai q s).toNat • lowPart (α + ρ) := by
    intro q s hs
    rw [msbSum_setWidth hkL',hword q s hs,setWidth_bitWord hkL',← topBit_eq_mul,hc,
      BitVec.setWidth_setWidth_of_le _ hkL',BitVec.setWidth_eq]
    cases ai q s <;> simp [x]
  rw [rssOpen_val hkL',hslot p 0 (by decide),hslot p 1 (by decide),hslot (p+1) 1 (by decide),
    ← isSharing3pc_sum hx p,marks,add_smul,add_smul]
  abel

theorem msbFrom_isSharing (hk : 0 < k) (hkL : k < 8*L) (scratch u_2 : Shares 3 (Lint L))
    (hnet : shares3pc.Consistent net) (hi : i < size) (h : MsbPrepared k b r rprime r_2 i β ρ)
    (ha : ArithSharing shares3pc k a i α) :
    ArithSharing shares3pc k
      ((suite3pc scratch).msbFrom ai3pc u_2 a b r rprime r_2 k size net).1 i
      (bitVal k (α.getLsbD (k-1))) := by
  have hkL' : k ≤ 8*L := Nat.le_of_lt hkL
  have hmarks : ∀ p, marks ai3pc p = 1 := by decide
  let e := α.getLsbD (k-1) ^^ β
  have hresult : shares3pc.IsSharing (fun p s =>
      if e then bitVal k (ai3pc p s) - (b p s i).setWidth k else (b p s i).setWidth k)
      (bitVal k (α.getLsbD (k-1))) := by
    have hflip : α.getLsbD (k-1) = (e ^^ β) := by simp only [e,Bool.xor_assoc,Bool.xor_self,Bool.xor_false]
    rw [hflip,← bitVal_flip]
    have hone : shares3pc.IsSharing (fun p s => bitVal k (ai3pc p s)) 1 :=
      ((suite3pc_marks (G := G) scratch).isSharing 1).congr fun p s _ => bitVal_eq k _
    cases e with
    | false => exact h.bit
    | true => exact hone.sub h.bit
  refine hresult.congr fun p s _ => ?_
  have hopen := msbOpened hk hkL scratch u_2 ai3pc hnet hi h ha p
  rw [hmarks,one_smul,add_sub_cancel_right] at hopen
  have hbit := congrArg (fun x => x.getLsbD (k-1)) hopen
  simp only [BitVec.getLsbD_setWidth,getLsbD_topBit hk,show k-1 < 8*L by omega,decide_true,
    Bool.true_and] at hbit
  exact Suite.msbFrom_setWidth hkL' hbit

end

theorem msbFrom_net [Generator G] (hk : 0 < k) (hkL : k ≤ 8*L) (scratch u_2 : Shares 3 (Lint L))
    (ai : Fin 3 → Nat → Bool) {net : Net 3 G} (hnet : shares3pc.Consistent net)
    (a b r rprime r_2 : Shares 3 (Lint L)) (size : Nat) : shares3pc.Consistent
      ((suite3pc scratch).msbFrom ai u_2 a b r rprime r_2 k size net).2 :=
  ((replicated3pc scratch).bitLT_shared size rfl hk hkL (public3pc scratch) u_2
    (a := (suite3pc (G := G) scratch).msbC a r k) (b := r_2) hnet).1

theorem newRssMsb_net [Generator G] (hk : 2 ≤ k) (hkL : k + 2 ≤ 8*L) {net : Net 3 G}
    (hnet : shares3pc.Consistent net) (mem : Uncleared 3 L) (a : Shares 3 (Lint L)) (size : Nat) :
    shares3pc.Consistent (newRssMsb mem a size k net).2 := by
  have hk' : 0 < k := by omega
  have hkL' : k ≤ 8*L := by omega
  have hnet₁ := (randBit_isSharing (suite3pc_marks mem.scratch)
    (pubCorrect3pc mem.scratch hkL) hk' hkL hnet mem.u size).1
  have hnet₂ := (edaBit_element mem.scratch hkL' hnet₁ size).1
  exact msbFrom_net hk' hkL' mem.scratch mem.u_2 _ hnet₂ _ _ _ _ _ size

theorem newRssMsb_element [Generator G] (hk : 2 ≤ k) (hkL : k + 2 ≤ 8*L) {size i : Nat}
    (hi : i < size) {net : Net 3 G} (hnet : shares3pc.Consistent net) (mem : Uncleared 3 L)
    {a : Shares 3 (Lint L)} {α : BitVec k} (ha : ArithSharing shares3pc k a i α) :
    ArithSharing shares3pc k (newRssMsb mem a size k net).1 i (bitVal k (α.getLsbD (k-1))) := by
  have hkL' : k ≤ 8*L := by omega
  have hk1 : k - 1 < k := by omega
  obtain ⟨hnet₁,hbits⟩ := randBit_isSharing (suite3pc_marks mem.scratch)
    (pubCorrect3pc mem.scratch hkL) (by omega) hkL hnet mem.u size
  obtain ⟨U,-,hb⟩ := hbits i hi
  obtain ⟨hnet₂,heda⟩ := edaBit_element mem.scratch hkL' hnet₁ size
  obtain ⟨hr,hr_2⟩ := heda i hi
  generalize dealtSum (G := G) L k size _ i = ρ at hr hr_2
  refine msbFrom_isSharing (by omega) (by omega) mem.scratch mem.u_2 hnet₂ hi
    ⟨hb,hr,?_,fun j hj => ?_⟩ ha
  · have hlow : lowPart ρ = ρ - topBit k (ρ.getLsbD (k-1)) :=
      eq_sub_of_add_eq (lowPart_add_topBit (by omega) ρ)
    rw [hlow]
    refine (hr.sub ((hr_2 (k-1) hk1).map (topBitHom (by omega)))).congr fun p s _ => ?_
    rw [setWidth_sub_of_le _ _ hkL',setWidth_shiftLeft hkL',getBit_eq,setWidth_bitWord hkL',
      ← topBit_eq_mul]
    rfl
  · rw [getLsbD_lowPart ρ hj]
    by_cases hlt : j < k-1
    · rw [decide_eq_true hlt,Bool.and_true]
      refine (hr_2 j hj).congr fun p s _ => ?_
      rw [getLsbD_and_shift,decide_eq_true hlt,Bool.and_true]
    · rw [decide_eq_false hlt,Bool.and_false]
      refine Pattern.isSharing_zero.congr fun p s _ => ?_
      rw [getLsbD_and_shift,decide_eq_false hlt,Bool.and_false]
      rfl

/-- `new_Rss_MSB` leaves a sharing of the top bit, for all streams and whatever the
uncleared arrays held. -/
theorem newRssMsb_isSharing [Generator G] (hk : 2 ≤ k) (hkL : k + 2 ≤ 8*L) (size : Nat)
    {net : Net 3 G} (hnet : shares3pc.Consistent net) (mem : Uncleared 3 L)
    (a : Shares 3 (Lint L)) : ∀ i, i < size → ∀ α : BitVec k, ArithSharing shares3pc k a i α →
    ArithSharing shares3pc k (newRssMsb mem a size k net).1 i (bitVal k (α.getLsbD (k-1))) := by
  intro i hi α ha
  exact newRssMsb_element hk hkL hi hnet mem ha

theorem newRssMsb_isSharing_two :
    let a : Shares 3 (Lint 4) := fun _ _ i => BitVec.ofNat 32 (3+9*i)
    let msb := (newRssMsb (L := 4) ⟨fun _ _ _ => 7,fun _ _ _ => 9,fun _ _ _ => 5⟩ a 2 6
      (fun _ _ => (⟨fun i => BitVec.ofNat 8 (3*i+1)⟩ : Tape))).1
    ArithSharing shares3pc 6 msb 0 (bitVal 6 ((9 : BitVec 6).getLsbD 5)) ∧
      ArithSharing shares3pc 6 msb 1 (bitVal 6 ((36 : BitVec 6).getLsbD 5)) := by
  intro a msb
  have hnet : shares3pc.Consistent fun _ _ => (⟨fun i => BitVec.ofNat 8 (3*i+1)⟩ : Tape) :=
    fun _ _ _ _ _ _ _ => rfl
  have hmsb := newRssMsb_isSharing (L := 4) (k := 6) (by decide) (by decide) 2 hnet
    ⟨fun _ _ _ => 7,fun _ _ _ => 9,fun _ _ _ => 5⟩ a
  exact ⟨hmsb 0 (by decide) 9 ⟨fun _ => 3,fun _ _ _ => rfl,by decide⟩,
    hmsb 1 (by decide) 36 ⟨fun _ => 12,fun _ _ _ => rfl,by decide⟩⟩

end RssRing
