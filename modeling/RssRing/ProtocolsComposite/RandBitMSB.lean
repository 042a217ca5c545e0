import RssRing.ProtocolsComposite.MSB
set_option autoImplicit false

namespace RssRing
open Replicated

variable {L k : Nat} {G : Type}

/-- The table that `Rss_MSB` sets up for itself: `numShares` is two, so the second
entry goes to party 2. -/
def aiRssMsb (p : Fin 3) (s : Nat) : Bool :=
  let numShares := 2
  if pid p = 1 then s == 0 else if pid p = numShares then s == numShares - 1 else false

def rssMsb [Generator G] (mem : Uncleared 3 L) (a : Shares 3 (Lint L)) (size ring_size : Nat)
    (net : Net 3 G) : Shares 3 (Lint L) × Net 3 G :=
  (suite3pc mem.scratch).msb aiRssMsb mem.u a size ring_size net

/-- The bit that `Rss_RandBit` shares as element `i` of `count`, read off the streams:
whether the three words fetched for it add up to an even number. -/
def drawnBit [Generator G] (net : Net 3 G) (ring_size count i : Nat) : Bool :=
  let bytes := byteWidth (ring_size+2)
  let low := fun q => (net.random 0 bytes count q (i*bytes)).getLsbD 0
  !(low 0 ^^ low 1 ^^ low 2)

def drawnMask [Generator G] (net : Net 3 G) (ring_size count i : Nat) : BitVec ring_size :=
  ofBits ring_size fun m => drawnBit net ring_size count (i*ring_size + m)

section Compose

theorem lowPart_ofBits (f : Nat → Bool) :
    lowPart (ofBits k f) = ofBits k (fun j => decide (j < k-1) && f j) := by
  apply BitVec.eq_of_getLsbD_eq
  intro j hj
  rw [getLsbD_lowPart _ hj,getLsbD_ofBits,getLsbD_ofBits]
  grind

variable {r_shares : Shares 3 (Lint L)} {f : Nat → Bool} {j : Nat}

theorem composed_isSharing (hk : k ≤ 8*L)
    (h : ∀ m, m < k → ArithSharing shares3pc k r_shares (j*k + m) (bitVal k (f m))) :
    ArithSharing shares3pc k (Suite.composed r_shares k) j (lowPart (ofBits k f)) := by
  rw [lowPart_ofBits]
  exact weighted_isSharing hk (k-1) fun m hm => h m (by omega)

theorem bitwise_isSharing (hk : k ≤ 8*L)
    (h : ∀ m, m < k → ArithSharing shares3pc k r_shares (j*k + m) (bitVal k (f m))) :
    BitSharing shares3pc k (fun p s j => (List.range (k-1)).foldl
      (fun x t => setBit x t (getBit (r_shares p s (j*k + t)) 0)) (0 : Lint L)) j
      (lowPart (ofBits k f)) := by
  intro m hm
  have hval : (lowPart (ofBits k f)).getLsbD m = if m < k-1 then f m else false := by
    rw [getLsbD_lowPart _ hm,getLsbD_ofBits,decide_eq_true hm]
    grind
  rw [hval]
  by_cases hlt : m < k-1
  · rw [if_pos hlt]
    exact packed_isSharing (by omega) (fun _ _ _ => 0) (fun t ht => h t (by omega)) (i := j) hlt
      (by omega)
  · rw [if_neg hlt]
    refine Pattern.isSharing_zero.congr fun p s _ => ?_
    simp only [getBit_eq]
    rw [getLsbD_foldl_range (L := L) _ _ _ _ (by omega),if_neg hlt]
    exact BitVec.getLsbD_zero

end Compose

section Parity

theorem one_sub_ne_self (hk : 0 < k) (x : BitVec k) : 1 - x ≠ x := by
  intro h
  have hlsb : (((1 : BitVec k).getLsbD 0) ^^ x.getLsbD 0) = x.getLsbD 0 :=
    (map_sub (lsbHom hk) 1 x).symm.trans (congrArg (lsbHom hk) h)
  simp [hk,-BitVec.getLsbD_eq_getElem] at hlsb

theorem one_sub_ne_zero_sub (hk : 0 < k) (x : BitVec k) : 1 - x ≠ 0 - x := by
  intro h
  have hlsb : (1 : BitVec k).getLsbD 0 = (0 : BitVec k).getLsbD 0 :=
    congrArg (lsbHom hk) (sub_left_inj.mp h)
  simp [hk,-BitVec.getLsbD_eq_getElem] at hlsb

theorem getLsbD_topBit_add (hk : 0 < k) (c : Bool) (x : BitVec k) :
    (topBit k c + lowPart x).getLsbD (k-1) = c := by
  have hpow : 2^k = 2*2^(k-1) := by rw [← Nat.pow_succ']; congr 1; omega
  have hpos := Nat.two_pow_pos (k-1)
  have hlow := Nat.mod_lt x.toNat hpos
  have hc : c.toNat ≤ 1 := Bool.toNat_le c
  have hmul := Nat.mul_le_mul_right (2^(k-1)) hc
  rw [BitVec.getLsbD,BitVec.toNat_add,toNat_topBit hk,toNat_lowPart,Nat.mod_eq_of_lt (by omega),
    Nat.testBit_eq_decide_div_mod_eq,Nat.add_comm,Nat.add_mul_div_right _ _ hpos,
    Nat.div_eq_of_lt hlow]
  cases c <;> simp

theorem lowPart_eq_zero (hk : 0 < k) {x : BitVec k}
    (h : (0 - lowPart x).getLsbD (k-1) = false) : lowPart x = 0 := by
  have hneg := lowPart_add_topBit hk (0 - lowPart x)
  rw [h,topBit_eq_mul,bitVal_eq,if_neg (by decide),mul_zero,add_zero] at hneg
  have hsum : lowPart x + lowPart (0 - lowPart x) = 0 := by rw [hneg]; ring
  have hnat := congrArg BitVec.toNat hsum
  have hpow : 2^k = 2*2^(k-1) := by rw [← Nat.pow_succ']; congr 1; omega
  have h₁ := Nat.mod_lt x.toNat (Nat.two_pow_pos (k-1))
  have h₂ := Nat.mod_lt (0 - lowPart x).toNat (Nat.two_pow_pos (k-1))
  rw [BitVec.toNat_add,toNat_lowPart (0 - lowPart x),toNat_lowPart x,
    Nat.mod_eq_of_lt (by omega)] at hnat
  apply BitVec.eq_of_toNat_eq
  rw [toNat_lowPart]
  simp only [BitVec.ofNat_eq_ofNat,BitVec.toNat_ofNat,Nat.zero_mod] at hnat ⊢
  omega

end Parity

section Opened

/-- The top bit of what party `p` makes of the opened value, where the masked bit is `m` and
`c` should have gone from it once. -/
def openedTop (m : Bool) (c : BitVec k) (p : Fin 3) : Bool :=
  (topBit k m + c - marks aiRssMsb p • c).getLsbD (k-1)

theorem openedTop_first (m : Bool) (c : BitVec k) :
    openedTop m c 0 = (topBit k m - c).getLsbD (k-1) := by
  have hmarks : marks aiRssMsb 0 = 2 := by decide
  have hsplit : topBit k m + c - 2 • c = topBit k m - c := by
    rw [two_smul]
    abel
  rw [openedTop,hmarks,hsplit]

theorem openedTop_second (hk : 0 < k) (m : Bool) (c : BitVec k) : openedTop m c 1 = m := by
  have hmarks : marks aiRssMsb 1 = 1 := by decide
  rw [openedTop,hmarks,one_smul,add_sub_cancel_right,getLsbD_topBit hk]

theorem openedTop_third (hk : 0 < k) (m : Bool) (x : BitVec k) :
    openedTop m (lowPart x) 2 = m := by
  have hmarks : marks aiRssMsb 2 = 0 := by decide
  rw [openedTop,hmarks,zero_smul,sub_zero,getLsbD_topBit_add hk]

theorem openedTop_zero (hk : 0 < k) (m : Bool) (p : Fin 3) :
    openedTop m (0 : BitVec k) p = m := by
  rw [openedTop,smul_zero,sub_zero,add_zero,getLsbD_topBit hk]

end Opened

section
variable [Generator G] {size i : Nat} {net : Net 3 G} {a b r rprime r_2 : Shares 3 (Lint L)}
  {α ρ : BitVec k} {β : Bool}

theorem msbFrom_openedTop (hk : 0 < k) (hkL : k < 8*L) (scratch u_2 : Shares 3 (Lint L))
    (hnet : shares3pc.Consistent net) (hi : i < size) (h : MsbPrepared k b r rprime r_2 i β ρ)
    (ha : ArithSharing shares3pc k a i α) (p : Fin 3) (s : Nat) :
    (((suite3pc scratch).msbFrom aiRssMsb u_2 a b r rprime r_2 k size net).1 p s i).setWidth k =
      if openedTop (α.getLsbD (k-1) ^^ β) (lowPart (α + ρ)) p
        then bitVal k (aiRssMsb p s) - (b p s i).setWidth k else (b p s i).setWidth k := by
  have hopen := congrArg (fun x => x.getLsbD (k-1))
    (msbOpened hk hkL scratch u_2 aiRssMsb hnet hi h ha p)
  simp only [BitVec.getLsbD_setWidth,show k-1 < 8*L by omega,decide_true,Bool.true_and] at hopen
  exact Suite.msbFrom_setWidth (Nat.le_of_lt hkL) hopen

/-- With the table of `Rss_MSB` party 1 takes the public value away twice, party 3
never, and the constant of the last line ends up in two different shares. What
comes out is right exactly when all of that is zero. -/
theorem msbFrom_aiRssMsb_iff (hk : 0 < k) (hkL : k < 8*L) (scratch u_2 : Shares 3 (Lint L))
    (hnet : shares3pc.Consistent net) (hi : i < size) (h : MsbPrepared k b r rprime r_2 i β ρ)
    (ha : ArithSharing shares3pc k a i α) :
    ArithSharing shares3pc k
      ((suite3pc scratch).msbFrom aiRssMsb u_2 a b r rprime r_2 k size net).1 i
      (bitVal k (α.getLsbD (k-1))) ↔
    β = α.getLsbD (k-1) ∧ lowPart (α + ρ) = 0 := by
  have hword := msbFrom_openedTop hk hkL scratch u_2 hnet hi h ha
  have hb := h.bit.consistent
  constructor
  · intro hres
    have hcons := hres.consistent
    have hm : (α.getLsbD (k-1) ^^ β) = false := by
      have hai : aiRssMsb 1 1 = true ∧ aiRssMsb 2 0 = false := by decide
      have hslot := hcons 1 1 2 0 (by decide) (by decide) (by decide)
      have hsame := hb 1 1 2 0 (by decide) (by decide) (by decide)
      simp only [hword,openedTop_second hk,openedTop_third hk,hai,hsame] at hslot
      by_contra hne
      rw [Bool.not_eq_false] at hne
      rw [if_pos hne,if_pos hne,bitVal_eq,bitVal_eq,if_pos rfl,if_neg (by decide)] at hslot
      exact one_sub_ne_zero_sub hk _ hslot
    have hfirst : openedTop false (lowPart (α + ρ)) 0 = false := by
      have hai : aiRssMsb 0 0 = true := by decide
      have hslot := hcons 0 0 2 1 (by decide) (by decide) (by decide)
      have hsame := hb 0 0 2 1 (by decide) (by decide) (by decide)
      simp only [hword,hm,openedTop_third hk,hai,hsame] at hslot
      by_contra hne
      rw [Bool.not_eq_false] at hne
      rw [if_pos hne,if_neg (by decide),bitVal_eq,if_pos rfl] at hslot
      exact one_sub_ne_self hk _ hslot
    refine ⟨?_,lowPart_eq_zero hk ?_⟩
    · rw [← Bool.xor_false (α.getLsbD (k-1)),← hm,← Bool.xor_assoc,Bool.xor_self,Bool.false_xor]
    · rwa [openedTop_first,topBit_eq_mul,bitVal_eq,if_neg (by decide),mul_zero] at hfirst
  · rintro ⟨rfl,hc⟩
    refine h.bit.congr fun p s _ => ?_
    rw [hword,hc,openedTop_zero hk,Bool.xor_self,if_neg (by decide)]

end

section
variable [Generator G] {size i : Nat} {net : Net 3 G}

theorem randBit_drawnBit (hk : 0 < k) (hkL : k + 2 ≤ 8*L) (scratch u : Shares 3 (Lint L))
    (hnet : shares3pc.Consistent net) {count : Nat} (hi : i < count) :
    ArithSharing shares3pc k ((suite3pc scratch).randBit u count k net).1 i
      (bitVal k (drawnBit net k count i)) := by
  obtain ⟨-,hbits⟩ := randBit_isSharing (suite3pc_marks scratch) (pubCorrect3pc scratch hkL) hk hkL
    hnet u count
  obtain ⟨U,hU,hb⟩ := hbits i hi
  have hbytes : 0 < byteWidth (k+2) := by rw [byteWidth_eq]; omega
  have hlow : ∀ q, ((randWords u (byteWidth (k+2)) count net q 0 i).setWidth (k+2)).getLsbD 0 =
      (net.random 0 (byteWidth (k+2)) count q (i*byteWidth (k+2))).getLsbD 0 := by
    intro q
    simp [randWords,hbytes,show 0 < L by omega,-BitVec.getLsbD_eq_getElem]
  have hparity := (isSharing3pc_iff.mp (hU.map (lsbHom (by omega)))).2
  have hdrawn : drawnBit net k count i = !U.getLsbD 0 := by
    simp only [drawnBit,← hlow]
    rw [Fin.sum_univ_three] at hparity
    exact congrArg (fun b => !b) hparity
  rwa [hdrawn]

theorem msbPrepared_composed (hk : 0 < k) (hkL : k ≤ 8*L) {r_shares : Shares 3 (Lint L)}
    {f : Nat → Bool} (hbit : ∀ m, m < size*(k+1) → ArithSharing shares3pc k r_shares m
      (bitVal k (f m))) (hi : i < size) :
    MsbPrepared k (fun p s i => r_shares p s (size*k + i))
      (fun p s j => Suite.composed r_shares k p s j + (r_shares p s (j*k + (k-1)) <<< (k-1)))
      (Suite.composed r_shares k)
      (fun p s j => (List.range (k-1)).foldl (fun x t =>
        setBit x t (getBit (r_shares p s (j*k + t)) 0)) 0)
      i (f (size*k + i)) (ofBits k fun m => f (i*k + m)) := by
  have hsize : size*(k+1) = size*k + size := Nat.mul_succ size k
  have hrow : ∀ m, m < k → i*k + m < size*(k+1) := by
    intro m hm
    have hlt := index_lt hi hm
    omega
  have hbits := fun m (hm : m < k) => hbit (i*k + m) (hrow m hm)
  have hlow := composed_isSharing (f := fun m => f (i*k + m)) hkL hbits
  refine ⟨hbit _ (by omega),?_,hlow,bitwise_isSharing hkL hbits⟩
  have htop : (ofBits k fun m => f (i*k + m)).getLsbD (k-1) = f (i*k + (k-1)) := by
    rw [getLsbD_ofBits,decide_eq_true (by omega),Bool.true_and]
  rw [← lowPart_add_topBit hk (ofBits k fun m => f (i*k + m)),htop,topBit_eq_mul]
  refine (hlow.add ((hbits (k-1) (by omega)).const_mul (2^(k-1)))).congr fun p s _ => ?_
  rw [BitVec.setWidth_add _ _ hkL,setWidth_shiftLeft hkL]

theorem rssMsb_net (hk : 0 < k) (hkL : k + 2 ≤ 8*L) (hnet : shares3pc.Consistent net)
    (mem : Uncleared 3 L) (a : Shares 3 (Lint L)) (size : Nat) :
    shares3pc.Consistent (rssMsb mem a size k net).2 :=
  msbFrom_net hk (by omega) mem.scratch _ _ (randBit_isSharing (suite3pc_marks mem.scratch)
    (pubCorrect3pc mem.scratch hkL) hk hkL hnet mem.u (size*(k+1))).1 _ _ _ _ _ size

/-- One element of `Rss_MSB`: right in exactly those runs whose streams happen to
give the top bit as the random bit and a mask that makes `a + r` zero below it. -/
theorem rssMsb_element_iff (hk : 2 ≤ k) (hkL : k + 2 ≤ 8*L) (hi : i < size)
    (hnet : shares3pc.Consistent net) (mem : Uncleared 3 L) {a : Shares 3 (Lint L)} {α : BitVec k}
    (ha : ArithSharing shares3pc k a i α) :
    ArithSharing shares3pc k (rssMsb mem a size k net).1 i (bitVal k (α.getLsbD (k-1))) ↔
      drawnBit net k (size*(k+1)) (size*k + i) = α.getLsbD (k-1) ∧
        lowPart (α + drawnMask net k (size*(k+1)) i) = 0 := by
  obtain ⟨hnet₁,-⟩ := randBit_isSharing (suite3pc_marks mem.scratch)
    (pubCorrect3pc mem.scratch hkL) (by omega) hkL hnet mem.u (size*(k+1))
  have hbit : ∀ m, m < size*(k+1) → ArithSharing shares3pc k
      ((suite3pc mem.scratch).randBit mem.u (size*(k+1)) k net).1 m
      (bitVal k (drawnBit net k (size*(k+1)) m)) :=
    fun m hm => randBit_drawnBit (by omega) hkL mem.scratch mem.u hnet hm
  exact msbFrom_aiRssMsb_iff (by omega) (by omega) mem.scratch _ hnet₁ hi
    (msbPrepared_composed (by omega) (by omega) hbit hi) ha

end

/-- The two three-party algorithms give sharings of the same bit, the top bit of
each element, in exactly those runs of `Rss_MSB` whose streams happen to give the
top bit as the random bit and a mask that makes `a + r` zero below it. -/
theorem msb_agree_iff [Generator G] (hk : 2 ≤ k) (hkL : k + 2 ≤ 8*L) (size : Nat)
    {net net' : Net 3 G} (hnet : shares3pc.Consistent net) (hnet' : shares3pc.Consistent net')
    (mem mem' : Uncleared 3 L) {a : Shares 3 (Lint L)} {α : Nat → BitVec k}
    (ha : ∀ i, i < size → ArithSharing shares3pc k a i (α i)) :
    (∀ i, i < size →
      ArithSharing shares3pc k (rssMsb mem a size k net).1 i (bitVal k ((α i).getLsbD (k-1))) ∧
      ArithSharing shares3pc k (newRssMsb mem' a size k net').1 i
        (bitVal k ((α i).getLsbD (k-1)))) ↔
    ∀ i, i < size → drawnBit net k (size*(k+1)) (size*k + i) = (α i).getLsbD (k-1) ∧
      lowPart (α i + drawnMask net k (size*(k+1)) i) = 0 := by
  refine forall_congr' fun i => forall_congr' fun hi => ?_
  rw [← rssMsb_element_iff hk hkL hi hnet mem (ha i hi)]
  constructor
  · intro h
    exact h.1
  · intro h
    exact ⟨h,newRssMsb_element hk hkL hi hnet' mem' (ha i hi)⟩

theorem msb_agree_silent :
    ArithSharing shares3pc 6 (rssMsb (L := 4) ⟨fun _ _ _ => 7,fun _ _ _ => 9,fun _ _ _ => 5⟩
      (fun _ _ _ => 11) 1 6 (fun _ _ => (⟨fun _ => 0⟩ : Tape))).1 0
      (bitVal 6 ((33 : BitVec 6).getLsbD 5)) ∧
    ArithSharing shares3pc 6 (newRssMsb (L := 4) ⟨fun _ _ _ => 0,fun _ _ _ => 0,fun _ _ _ => 0⟩
      (fun _ _ _ => 11) 1 6 (fun _ _ => (⟨fun i => BitVec.ofNat 8 (3*i+1)⟩ : Tape))).1 0
      (bitVal 6 ((33 : BitVec 6).getLsbD 5)) := by
  refine (msb_agree_iff (by decide) (by decide) 1 ?_ ?_ _ _ (α := fun _ => 33) ?_).mpr ?_ 0 Nat.one_pos
  · exact fun _ _ _ _ _ _ _ => rfl
  · exact fun _ _ _ _ _ _ _ => rfl
  · exact fun _ _ => ⟨fun _ => 11,fun _ _ _ => rfl,by simp⟩
  · decide

/-- The element 0 on silent streams, which draw ones everywhere. -/
theorem rssMsb_disagrees :
    ArithSharing shares3pc 6 (fun _ _ _ => (0 : Lint 4)) 0 0 ∧
    ¬ ArithSharing shares3pc 6 (rssMsb (L := 4) ⟨fun _ _ _ => 0,fun _ _ _ => 0,fun _ _ _ => 0⟩
      (fun _ _ _ => 0) 1 6 (fun _ _ => (⟨fun _ => 0⟩ : Tape))).1 0
      (bitVal 6 ((0 : BitVec 6).getLsbD 5)) ∧
    ArithSharing shares3pc 6 (newRssMsb (L := 4) ⟨fun _ _ _ => 0,fun _ _ _ => 0,fun _ _ _ => 0⟩
      (fun _ _ _ => 0) 1 6 (fun _ _ => (⟨fun _ => 0⟩ : Tape))).1 0
      (bitVal 6 ((0 : BitVec 6).getLsbD 5)) := by
  have hnet : shares3pc.Consistent (fun _ _ => (⟨fun _ => 0⟩ : Tape)) := fun _ _ _ _ _ _ _ => rfl
  have ha : ArithSharing shares3pc 6 (fun _ _ _ => (0 : Lint 4)) 0 0 :=
    ⟨fun _ => 0,fun _ _ _ => rfl,by simp⟩
  refine ⟨ha,?_,newRssMsb_element (by decide) (by decide) (by decide) hnet _ ha⟩
  rw [rssMsb_element_iff (by decide) (by decide) (by decide) hnet _ ha]
  decide

end RssRing
