import RssRing.ProtocolsRand.EdaBit
set_option autoImplicit false

namespace RssRing
open Replicated

variable {L k l size : Nat} {G : Type} [Generator G]

def cutWord (L ring_size bit_length size : Nat) (net : Net 3 G) (j : Fin 3) (i : Nat) : Lint L :=
  let bytes := byteWidth ring_size
  memcpyWord 0 (net.random 2 bytes size j) (i*bytes) bytes &&& shift L bit_length

def dealtWord (L ring_size bit_length size : Nat) (net : Net 3 G) (j : Fin 3) (i : Nat) :
    BitVec ring_size :=
  (cutWord L ring_size bit_length size net j i).setWidth ring_size

def dealtNumber (L ring_size bit_length size : Nat) (net : Net 3 G) (i : Nat) :
    BitVec ring_size :=
  let x := dealtWord L ring_size bit_length size net
  x 0 i + x 1 i + x 2 i

/-- The two words that `Rss_nBitAdd` adds for element `i`. It takes the first `size` words of
`r_bitwise` for one dealer's and the next `size` for another's, while the dealers take turns
there. -/
def addedNumber (L ring_size bit_length size : Nat) (net : Net 3 G) (i : Nat) :
    BitVec ring_size :=
  let x := dealtWord L ring_size bit_length size net
  x (Fin.ofNat 3 i) (i/3) + x (Fin.ofNat 3 (size + i)) ((size + i)/3)

/-- What a party reads from stream `t` for form `m` of a word, even for arithmetic, odd for
bits. -/
def partWord (L ring_size size : Nat) (net : Net 3 G) (t : Nat) (p : Fin 3) (m : Nat) : Lint L :=
  let bytes := byteWidth ring_size
  memcpyWord 0 (net.random t bytes (2*size) p) (m*bytes) bytes

def restWord (L ring_size bit_length size : Nat) (net : Net 3 G) (p : Fin 3) (m : Nat) : Lint L :=
  let r_bits := cutWord L ring_size bit_length size net p (m/2)
  let second := partWord L ring_size size (net.advance 2 (byteWidth ring_size) size) 1 p m
  if m%2 = 0 then r_bits - second else r_bits ^^^ second

section
variable {net : Net 3 G}

theorem rValuesLength_slots (net : Net 3 G) (p j : Fin 3) (m : Nat) :
    let net₁ := net.advance 2 (byteWidth k) size
    let net₂ := net₁.advance 1 (byteWidth k) (2*size)
    rValuesLength k l size net p 0 j m = (if j = p then masked k (restWord L k l size net p m)
      else if j = p + 2 then partWord L k size net₂ 0 p m else 0) ∧
    rValuesLength k l size net p 1 j m = if j = p then partWord L k size net₁ 1 p m
      else if j = p + 1 then
        sendAndGetDataFromPeer (arithKind L k) (restWord L k l size net) p m else 0 :=
  ⟨rfl,rfl⟩

theorem rValuesLength_isSharing {R : Type} [CommRing R] (val : Lint L → R) (h0 : val 0 = 0)
    (hmasked : ∀ x, val (masked k x) = val x) (hnet : shares3pc.Consistent net) (j : Fin 3)
    {m : Nat} {v : R}
    (hsplit : ∀ z : Lint L, val (if m%2 = 0 then cutWord L k l size net j (m/2) - z
      else cutWord L k l size net j (m/2) ^^^ z) = v - val z) :
    shares3pc.IsSharing (fun p s => val (rValuesLength k l size net p s j m)) v := by
  refine isSharing_exchange val h0 hmasked (fun p => (rValuesLength_slots net p j m).1)
    (fun p => (rValuesLength_slots net p j m).2) ?_ (hsplit _)
  rw [partWord,partWord,random_agree hnet]

theorem dealtWord_isSharing (hk : k ≤ 8*L) (hnet : shares3pc.Consistent net) (l size : Nat)
    (j : Fin 3) (i : Nat) :
    shares3pc.IsSharing (fun p s => (rValuesLength k l size net p s j (2*i) : Lint L).setWidth k)
      (dealtWord L k l size net j i) := by
  refine rValuesLength_isSharing _ (map_zero (lowBits hk)) (arithReading hk).sent hnet j fun z => ?_
  rw [if_pos (Nat.mul_mod_right 2 i),Nat.mul_div_cancel_left i Nat.two_pos]
  exact setWidth_sub_of_le _ _ hk

theorem dealtWord_bit_isSharing (hnet : shares3pc.Consistent net) (j : Fin 3)
    (i : Nat) {m : Nat} (hm : m < k) :
    shares3pc.IsSharing
      (fun p s => (rValuesLength k l size net p s j (2*i + 1) : Lint L).getLsbD m)
      ((dealtWord L k l size net j i).getLsbD m) := by
  refine rValuesLength_isSharing (fun y => y.getLsbD m) BitVec.getLsbD_zero
    (fun y => getLsbD_masked y hm) hnet j fun z => ?_
  have hhalf : (2*i + 1)/2 = i := by omega
  rw [if_neg (by omega : ¬ (2*i + 1)%2 = 0),hhalf,BitVec.getLsbD_xor,dealtWord,
    BitVec.getLsbD_setWidth,decide_eq_true hm,Bool.true_and]
  rfl

theorem generateRandomSharesLength_isSharing (hk : k ≤ 8*L) (hnet : shares3pc.Consistent net)
    (l size : Nat) :
    let g : RandomShares 3 L G := generateRandomSharesLength k l size net
    (∀ i, ArithSharing shares3pc k g.res i (dealtNumber L k l size net i)) ∧
      ∀ m, BitSharing shares3pc k g.res_bitwise m
        (dealtWord L k l size net (Fin.ofNat 3 m) (m/3)) := by
  refine ⟨fun i => ?_,fun m t ht => dealtWord_bit_isSharing hnet _ _ ht⟩
  have hword := fun j => dealtWord_isSharing hk hnet l size j i
  refine (((hword 0).add (hword 1)).add (hword 2)).congr fun p s _ => ?_
  simp only [generateRandomSharesLength,BitVec.setWidth_add _ _ hk]

theorem generateRandomSharesLength_net (hnet : shares3pc.Consistent net) (k l size : Nat) :
    shares3pc.Consistent (generateRandomSharesLength (L := L) k l size net).net :=
  advance_consistent3pc (Net.consistent_advance_own hnet (by decide) _ _) (byteWidth k) (2*size)

/-- Both results are consistent between the parties; they stand for different sums. -/
theorem edaBitLength_element (scratch : Shares 3 (Lint L)) (hk : k ≤ 8*L)
    (hnet : shares3pc.Consistent net) (l : Nat) {i : Nat} (hi : i < size) :
    let out := (suite3pc scratch).edaBitLength size k l net
    ArithSharing shares3pc k out.r i (dealtNumber L k l size net i) ∧
      BitSharing shares3pc k out.b_2 i (addedNumber L k l size net i) := by
  intro out
  obtain ⟨hr,hbits⟩ := generateRandomSharesLength_isSharing hk hnet l size
  have hadd := ((replicated3pc scratch).bitAdd_shared size hk (fun _ _ _ => 0)
    (b := fun p s i => (generateRandomSharesLength k l size net).res_bitwise p s (size + i))
    (generateRandomSharesLength_net (L := L) hnet k l size)).2 i hi _ _ (hbits i) (hbits (size + i))
  exact ⟨hr i,hadd⟩

def EdaBits.Right (out : EdaBits 3 L G) (k size : Nat) : Prop :=
  ∀ i, i < size → ∃ v, ArithSharing shares3pc k out.r i v ∧ BitSharing shares3pc k out.b_2 i v

theorem edaBitLength_right_iff (scratch : Shares 3 (Lint L)) (hk : k ≤ 8*L)
    (hnet : shares3pc.Consistent net) (l size : Nat) :
    ((suite3pc scratch).edaBitLength size k l net).Right k size ↔
      ∀ i, i < size → dealtNumber L k l size net i = addedNumber L k l size net i := by
  have helem := fun i (hi : i < size) => edaBitLength_element scratch hk hnet l hi
  constructor
  · intro hright i hi
    obtain ⟨v,hr,hb⟩ := hright i hi
    have hbits : ∀ m, m < k → v.getLsbD m = (addedNumber L k l size net i).getLsbD m :=
      fun m hm => (hb m hm).unique ((helem i hi).2 m hm)
    rw [(helem i hi).1.unique hr]
    exact BitVec.eq_of_getLsbD_eq hbits
  · intro heq i hi
    refine ⟨_,(helem i hi).1,?_⟩
    rw [heq i hi]
    exact (helem i hi).2

end

theorem dealtWord_zero_length (net : Net 3 G) (j : Fin 3) (i : Nat) :
    dealtWord L k 0 size net j i = 0 := by
  apply BitVec.eq_of_getLsbD_eq
  intro m hm
  rw [dealtWord,cutWord,BitVec.getLsbD_setWidth,getLsbD_and_shift,decide_eq_false (Nat.not_lt_zero m),
    Bool.and_false,Bool.and_false,BitVec.ofNat_eq_ofNat,BitVec.getLsbD_zero]

def unusedDealer (size : Nat) : Fin 3 := if size = 1 then 2 else 1

def oddStart (j : Fin 3) : Net 3 Tape := fun p s =>
  ⟨fun m => if s = 2 ∧ p = j ∧ m = 0 then 1 else 0⟩

theorem oddStart_consistent (j : Fin 3) : shares3pc.Consistent (oddStart j) := by
  intro p s q t hs ht _
  have hs₂ : s ≠ 2 := Nat.ne_of_lt hs
  have ht₂ : t ≠ 2 := Nat.ne_of_lt ht
  simp only [oddStart,hs₂,ht₂,false_and,if_false]

theorem dealtWord_oddStart (hkL : k ≤ 8*L) (hl : 0 < l) (hlk : l ≤ k) (size : Nat) (j p : Fin 3)
    (i : Nat) :
    dealtWord L k l size (oddStart j) p i = bitVal k (decide (p = j ∧ i = 0)) := by
  have hbytes := byteWidth_pos (Nat.lt_of_lt_of_le hl hlk)
  have hwidth := le_byteWidth k
  have hone : ∀ t : Fin 8, (1 : Byte).getLsbD t = decide (t.val = 0) := by decide
  have hoff : ∀ m, i*byteWidth k + m/8 = 0 ↔ i = 0 ∧ m/8 = 0 := fun m => by
    rw [Nat.add_eq_zero_iff,Nat.mul_eq_zero]
    omega
  have hbyte : ∀ m, ((oddStart j).random 2 (byteWidth k) size p (i*byteWidth k + m/8)).getLsbD (m%8) =
      (decide (m = 0) && decide (p = j ∧ i = 0)) := by
    intro m
    simp only [Net.random,oddStart,Generator.getrandom,true_and,hoff m]
    split
    · rw [hone ⟨m%8,Nat.mod_lt m (by decide)⟩]
      grind
    · simp
      grind
  apply BitVec.eq_of_getLsbD_eq
  intro m hm
  rw [dealtWord,cutWord,BitVec.getLsbD_setWidth,getLsbD_and_shift,getLsbD_memcpyWord,if_pos (by omega),
    decide_eq_true hm,decide_eq_true (by omega : m < 8*L),hbyte,getLsbD_bitVal _ hm]
  by_cases h0 : m = 0
  · simp [h0,hl]
  · simp [h0]

theorem oddStart_wrong (scratch : Shares 3 (Lint L)) (hkL : k ≤ 8*L) (hl : 0 < l) (hlk : l ≤ k)
    (hsize : 0 < size) : ¬ ((suite3pc scratch).edaBitLength size k l
      (oddStart (unusedDealer size))).Right k size := by
  have hk : 0 < k := Nat.lt_of_lt_of_le hl hlk
  rw [edaBitLength_right_iff scratch hkL (oddStart_consistent _)]
  intro heq
  have hword := fun p i =>
    dealtWord_oddStart hkL hl hlk size (unusedDealer size) p i
  have hdealt : dealtNumber L k l size (oddStart (unusedDealer size)) 0 = bitVal k true := by
    simp only [dealtNumber,hword]
    by_cases h1 : size = 1 <;> simp [unusedDealer,h1,bitVal]
  have hadded : addedNumber L k l size (oddStart (unusedDealer size)) 0 = bitVal k false := by
    have hother : ¬ (Fin.ofNat 3 (size + 0) = unusedDealer size ∧ (size + 0)/3 = 0) := by
      rintro ⟨hp,hq⟩
      have hlt : size = 1 ∨ size = 2 := by omega
      rcases hlt with rfl | rfl <;> exact absurd hp (by decide)
    have hfirst : (0 : Fin 3) ≠ unusedDealer size := by
      unfold unusedDealer
      split <;> decide
    simp only [addedNumber,hword,decide_eq_false hother]
    simp [bitVal,hfirst]
  have hbit := congrArg (fun x => x.getLsbD 0) (heq 0 hsize)
  simp only [hdealt,hadded,lsb_bitVal hk] at hbit
  exact Bool.noConfusion hbit

/-- A run of the overload with a `bit_length` is right exactly when for every element the words
of all three dealers and the two words that are added bit by bit make the same number. On all
contents of the streams it is right only where nothing is drawn. -/
theorem edaBitLength_isSharing_iff (scratch : Shares 3 (Lint L)) (hkL : k ≤ 8*L) (hlk : l ≤ k)
    (size : Nat) :
    (∀ net : Net 3 G, shares3pc.Consistent net →
      (((suite3pc scratch).edaBitLength size k l net).Right k size ↔
        ∀ i, i < size → dealtNumber L k l size net i = addedNumber L k l size net i)) ∧
    ((∀ net : Net 3 Tape, shares3pc.Consistent net →
      ((suite3pc scratch).edaBitLength size k l net).Right k size) ↔ size = 0 ∨ l = 0) := by
  refine ⟨fun net hnet => edaBitLength_right_iff scratch hkL hnet l size,fun h => ?_,?_⟩
  · by_contra hpos
    obtain ⟨hsize,hl⟩ := not_or.mp hpos
    exact oddStart_wrong scratch hkL (Nat.pos_of_ne_zero hl) hlk (Nat.pos_of_ne_zero hsize)
      (h _ (oddStart_consistent _))
  · rintro (rfl | rfl) net hnet
    · exact fun i hi => absurd hi (Nat.not_lt_zero i)
    · refine (edaBitLength_right_iff scratch hkL hnet 0 size).mpr fun i _ => ?_
      simp only [dealtNumber,addedNumber,dealtWord_zero_length,add_zero]

theorem edaBitLength_isSharing_iff_two :
    (∀ net : Net 3 Tape, shares3pc.Consistent net →
      ((suite3pc (L := 4) fun _ _ _ => 7).edaBitLength 2 6 0 net).Right 6 2) ∧
    ¬ ∀ net : Net 3 Tape, shares3pc.Consistent net →
      ((suite3pc (L := 4) fun _ _ _ => 7).edaBitLength 2 6 3 net).Right 6 2 := by
  have hcut := fun l hl => (edaBitLength_isSharing_iff (L := 4) (k := 6) (l := l) (G := Tape)
    (fun _ _ _ => 7) (by decide) hl 2).2
  exact ⟨(hcut 0 (by decide)).mpr (by decide),fun h => absurd ((hcut 3 (by decide)).mp h) (by decide)⟩

/-- One element, and the third dealer's word is 1: `r` shares 1 and `b_2` shares 0. -/
theorem edaBitLength_third_dealer :
    let out := (suite3pc (L := 4) fun _ _ _ => 7).edaBitLength 1 8 4 (oddStart 2)
    ArithSharing shares3pc 8 out.r 0 1 ∧ BitSharing shares3pc 8 out.b_2 0 (0 : BitVec 8) ∧
      ¬ ∃ v, ArithSharing shares3pc 8 out.r 0 v ∧ BitSharing shares3pc 8 out.b_2 0 v := by
  intro out
  obtain ⟨hr,hb⟩ := edaBitLength_element (L := 4) (k := 8) (fun _ _ _ => 7) (by decide)
    (oddStart_consistent 2) 4 Nat.one_pos
  have hdealt : dealtNumber 4 8 4 1 (oddStart 2) 0 = 1 := by decide
  have hadded : addedNumber 4 8 4 1 (oddStart 2) 0 = 0 := by decide
  rw [hdealt] at hr
  rw [hadded] at hb
  refine ⟨hr,hb,fun ⟨v,hv,hw⟩ => ?_⟩
  have hone := hr.unique hv
  subst hone
  exact Bool.noConfusion ((hw 0 (by decide)).unique (hb 0 (by decide)))

end RssRing
