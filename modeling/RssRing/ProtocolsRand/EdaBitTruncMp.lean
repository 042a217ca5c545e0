import RssRing.ProtocolsComposite.BitAddTruncMp
import RssRing.ProtocolsComposite.MSBMp
import RssRing.ProtocolsRand.EdaBitTrunc
set_option autoImplicit false

namespace RssRing
open Replicated Finset

variable {G : Type} [Generator G] {n L k : Nat}

structure RandomSharesTruncMp (n L : Nat) (G : Type) where
  res : Shares n (Lint L)
  res_prime : Shares n (Lint L)
  res_bitwise : Shares n (Lint L)
  net : Net n G

namespace EdaTable
variable (tab : EdaTable n)

def drawnTrunc (ring_size size : Nat) (net : Net n G) (p : Fin n) (s m : Nat) : Lint L :=
  let bytes := byteWidth ring_size
  memcpyWord 0 (net.random s bytes ((tab.threshold+1)*(3*size)) p) (m*bytes) bytes

def dealerWord (ring_size size : Nat) (net : Net n G) (p : Fin n) (i m : Nat) : Lint L :=
  (List.range (tab.numShares-1)).foldl (fun x j => if m%2 = 0
      then x - tab.drawnTrunc ring_size size net p (j+1) m
      else x ^^^ tab.drawnTrunc ring_size size net p (j+1) m)
    (tab.rBits ring_size size net p i &&& shift L ring_size)

/-- `r_values[0][p_index]`. The third place of an element is the first of the next one. -/
def dealtTrunc (ring_size size : Nat) (net : Net n G) (p : Fin n) : Nat → Lint L :=
  (List.range size).foldl (fun r_values i =>
    [2*i,2*i+1,2*i+2].foldl (fun r_values m =>
      Function.update r_values m (tab.dealerWord ring_size size net p i m)) r_values) fun _ => 0

def rValuesTrunc (ring_size size : Nat) (net : Net n G) (p : Fin n) (s t m : Nat) : Lint L :=
  tab.place ring_size (fun p s => tab.drawnTrunc ring_size size net p s m)
    (fun p => tab.dealtTrunc ring_size size net p m) p s t

/-- `Rss_GenerateRandomShares_trunc_mp`. The array `r_prime` that it fills is not used. -/
def generateRandomSharesTrunc (ring_size size : Nat) (net : Net n G) :
    RandomSharesTruncMp n L G where
  res p s i := (List.range (tab.threshold+1)).foldl
    (fun x t => x + tab.rValuesTrunc ring_size size net p s t (2*i)) 0
  res_prime p s i := (List.range (tab.threshold+1)).foldl
    (fun x t => x + tab.rValuesTrunc ring_size size net p s t (2*i+2)) 0
  res_bitwise p s m := if m/size ≤ tab.threshold then
    tab.rValuesTrunc ring_size size net p s (m/size) (2*(m%size)+1) else 0
  net :=
    let bytes := byteWidth ring_size
    let net₁ := net.advanceAll tab.numShares bytes fun _ => (tab.threshold+1)*(3*size)
    fun p => if p.val ≤ tab.threshold then net₁.advance tab.numShares bytes size p else net₁ p

variable {tab : EdaTable n} {H : Pattern (Fin n) (Finset (Fin n))}

theorem foldl_places {W : Type} (word : Nat → Nat → W) (zero : W) (c m : Nat) :
    (List.range c).foldl (fun r i => [2*i,2*i+1,2*i+2].foldl
      (fun r m => Function.update r m (word i m)) r) (fun _ => zero) m =
    if m ≤ 2*c ∧ 0 < c then word (min (m/2) (c-1)) m else zero := by
  induction c with
  | zero => simp
  | succ c ih =>
    rw [List.range_succ,List.foldl_append,List.foldl_cons,List.foldl_nil]
    simp only [List.foldl_cons,List.foldl_nil] at ih ⊢
    by_cases hlast : 2*c ≤ m ∧ m ≤ 2*c+2
    · have hmin : min (m/2) (c+1-1) = c := by omega
      rw [if_pos (by omega),hmin]
      rcases (by omega : m = 2*c ∨ m = 2*c+1 ∨ m = 2*c+2) with rfl | rfl | rfl
      · rw [Function.update_of_ne (by omega),Function.update_of_ne (by omega),Function.update_self]
      · rw [Function.update_of_ne (by omega),Function.update_self]
      · rw [Function.update_self]
    · rw [Function.update_of_ne (by omega),Function.update_of_ne (by omega),
        Function.update_of_ne (by omega),ih]
      by_cases hm : m < 2*c
      · rw [if_pos (by omega),if_pos (by omega)]
        congr 1
        omega
      · rw [if_neg (by omega),if_neg (by omega)]

theorem drawnTrunc_consistent {net : Net n G} (hnet : H.Consistent net) (tab : EdaTable n)
    (size m : Nat) : H.Consistent fun p s => (tab.drawnTrunc k size net p s m : Lint L) := by
  intro p s q t hs ht hst
  simp only [drawnTrunc,Net.random_eq hnet hs ht hst]

theorem dealerWord_val {R : Type} [CommRing R] (val : Lint L → R)
    (hmasked : ∀ x, val (masked k x) = val x) {m : Nat}
    (hsub : ∀ x y : Lint L, val (if m%2 = 0 then x - y else x ^^^ y) = val x - val y) (size : Nat)
    (net : Net n G) (p : Fin n) (i : Nat) : val (tab.dealerWord k size net p i m) =
      val (tab.rBits k size net p i) -
        ∑ j ∈ range (tab.numShares-1), val (tab.drawnTrunc k size net p (j+1) m) := by
  have hstep : ∀ x : Lint L, ∀ j, val (if m%2 = 0 then x - tab.drawnTrunc k size net p (j+1) m
      else x ^^^ tab.drawnTrunc k size net p (j+1) m) =
      val x - val (tab.drawnTrunc k size net p (j+1) m) := fun x j => hsub x _
  have hcut : val (tab.rBits k size net p i &&& shift L k) = val (tab.rBits k size net p i) :=
    hmasked _
  rw [dealerWord]
  induction tab.numShares-1 with
  | zero => simp [hcut]
  | succ c ih =>
    rw [List.range_succ,List.foldl_append,List.foldl_cons,List.foldl_nil,hstep,ih,
      Finset.sum_range_succ,sub_sub]

section
variable {mult : MultTable n} (hA : mult.Agrees H) (hD : tab.Deals H) {net : Net n G} {size : Nat}
include hD

theorem generateRandomSharesTrunc_net (hnet : H.Consistent net) (k size : Nat) :
    H.Consistent (tab.generateRandomSharesTrunc k size net : RandomSharesTruncMp n L G).net := by
  have hdrew : Net.Drew H (fun _ => [byteWidth k*((tab.threshold+1)*(3*size))]) net
      (tab.generateRandomSharesTrunc k size net : RandomSharesTruncMp n L G).net := by
    intro p s hs
    have hne : s ≠ tab.numShares := by rw [hD.slots]; omega
    have hslot : s < tab.numShares := by rwa [hD.slots]
    by_cases hp : p.val ≤ tab.threshold
    · simp [generateRandomSharesTrunc,hp,Net.advance,hne,Net.advanceAll,hslot]
    · simp [generateRandomSharesTrunc,hp,Net.advanceAll,hslot]
  exact hdrew.consistent hnet

include hA

/-- Place `m` of dealer `d` shares the word of the element that wrote it last. -/
theorem rValuesTrunc_isSharing {R : Type} [CommRing R] (val : Lint L → R) (h0 : val 0 = 0)
    (hmasked : ∀ x, val (masked k x) = val x) (hnet : H.Consistent net) {m : Nat}
    (hsub : ∀ x y : Lint L, val (if m%2 = 0 then x - y else x ^^^ y) = val x - val y)
    (hm : m ≤ 2*size) (hsize : 0 < size) {d : Fin n} (hd : d.val ≤ tab.threshold) :
    H.IsSharing (fun p s => val (tab.rValuesTrunc k size net p s d m))
      (val (tab.rBits k size net d (min (m/2) (size-1)))) := by
  refine place_isSharing val h0 hmasked hA hD (drawnTrunc_consistent hnet tab size m) hd ?_
  rw [dealtTrunc,foldl_places,if_pos ⟨hm,hsize⟩]
  exact dealerWord_val val hmasked hsub size net d _

theorem sumTrunc_isSharing (hk : k ≤ 8*L) (hnet : H.Consistent net) {m : Nat} (heven : m%2 = 0)
    (hm : m ≤ 2*size) (hsize : 0 < size) : H.IsSharing (fun p s =>
      ((List.range (tab.threshold+1)).foldl
        (fun x t => x + tab.rValuesTrunc k size net p s t m) (0 : Lint L)).setWidth k)
      (tab.dealtSum L k size net (min (m/2) (size-1))) := by
  have hsum := Pattern.IsSharing.sum {d : Fin n | d.val ≤ tab.threshold} fun d hd =>
    rValuesTrunc_isSharing hA hD (fun x : Lint L => x.setWidth k) (map_zero (lowBits hk))
      (arithReading hk).sent hnet (m := m)
      (fun x y => by rw [if_pos heven]; exact setWidth_sub_of_le x y hk) hm hsize
      (Finset.mem_filter.mp hd).2
  refine hsum.congr fun p s _ => ?_
  rw [MultPubTable.foldl_add_setWidth hk,sum_map_range,
    sum_dealers hD.threshold fun t => (tab.rValuesTrunc k size net p s t m : Lint L).setWidth k]
  simp

theorem bitsTrunc_isSharing (hnet : H.Consistent net) {i : Nat} (hi : i < size) {d : Fin n}
    (hd : d.val ≤ tab.threshold) : BitSharing H k
      (tab.generateRandomSharesTrunc k size net : RandomSharesTruncMp n L G).res_bitwise
      (d.val*size + i) ((tab.rBits k size net d i : Lint L).setWidth k) := by
  intro j hj
  have hodd : ¬ (2*i+1)%2 = 0 := by omega
  have hhalf : min ((2*i+1)/2) (size-1) = i := by omega
  have hdiv := index_div hi d.val
  have hmod := index_mod hi d.val
  have hpart := rValuesTrunc_isSharing hA hD (fun x : Lint L => x.getLsbD j) BitVec.getLsbD_zero
    (fun x => getLsbD_masked x hj) hnet (m := 2*i+1)
    (fun x y => by rw [if_neg hodd]; exact BitVec.getLsbD_xor) (by omega : 2*i+1 ≤ 2*size)
    (by omega) hd
  rw [hhalf] at hpart
  rw [BitVec.getLsbD_setWidth,decide_eq_true hj,Bool.true_and]
  refine hpart.congr fun p s _ => ?_
  simp only [generateRandomSharesTrunc,hdiv,hmod,hd,if_true]

end
end EdaTable

namespace Suite

/-- `Rss_edaBit_trunc_mp`, where the additions of `Rss_nBitAdd_trunc_mp` have a result. -/
def edaBitTruncMp (S : Suite 5 L G) (u : Shares 5 (Lint L)) (size ring_size m : Nat)
    (net : Net 5 G) : Option (EdaBitsTrunc 5 L G) :=
  let g := edaTable5pc.generateRandomSharesTrunc ring_size size net
  (S.nBitAddTruncMp (fun _ _ _ => 0) (fun _ _ _ => 0) g.res_bitwise ring_size m size g.net).map
    fun b_2 =>
      let carry := S.b2a rssOpenBitwiseMp u b_2.carry ring_size (3*size) b_2.net
      let r_prime := fun p s i =>
        g.res_prime p s i + carry.1 p s i - (carry.1 p s (size + i) <<< (ring_size - m))
      ⟨g.res,r_prime,fun p s i => carry.1 p s (2*size + i),carry.2⟩

end Suite

def dealerWord5pc (L k size : Nat) (net : Net 5 G) (d : Fin 5) (i : Nat) : BitVec k :=
  (edaTable5pc.rBits k size net d i : Lint L).setWidth k

def truncCarry (L k m size : Nat) (net : Net 5 G) (index : Nat) : Bool :=
  let x := dealerWord5pc L k size net
  decide (index < 3*m) && carryAt size m (x 0) (x 1) (x 2) index

section
variable {net : Net 5 G} {m size : Nat}
  {multPub : Shares 5 (Lint L) → Shares 5 (Lint L) → Nat → Nat → Net 5 G → Fin 5 → Nat → Lint L}

theorem summands_dealt (hnet : shares5pc.Consistent net) (size : Nat) :
    Summands k size (edaTable5pc.generateRandomSharesTrunc k size net :
      RandomSharesTruncMp 5 L G).res_bitwise (dealerWord5pc L k size net 0)
      (dealerWord5pc L k size net 1) (dealerWord5pc L k size net 2) := by
  intro i hi
  have hbits : ∀ d : Fin 5, d.val ≤ 2 → BitSharing shares5pc k
      (edaTable5pc.generateRandomSharesTrunc k size net : RandomSharesTruncMp 5 L G).res_bitwise
      (d.val*size + i) (dealerWord5pc L k size net d i) := fun d hd =>
    EdaTable.bitsTrunc_isSharing table5pc_agrees edaTable5pc_deals hnet hi hd
  have h₀ := hbits 0 (by decide)
  have h₁ := hbits 1 (by decide)
  rw [Fin.val_zero,Nat.zero_mul,Nat.zero_add] at h₀
  rw [Fin.val_one,Nat.one_mul] at h₁
  exact ⟨h₀,h₁,hbits 2 (by decide)⟩

/-- One element: `r_prime` starts from the whole sum of the next element, and the carries
are read at places that `Rss_nBitAdd_trunc_mp` may not have filled. -/
theorem edaBitTruncMp_element (hP : (suite5pc multPub).PubCorrect shares5pc (k+2)) (hk : 0 < k)
    (hkL : k + 2 ≤ 8*L) (hm : m ≤ size) (hsize : 0 < size) (hnet : shares5pc.Consistent net)
    (u : Shares 5 (Lint L)) :
    let ρ := edaTable5pc.dealtSum L k size net
    ∃ out, (suite5pc multPub).edaBitTruncMp u size k m net = some out ∧ ∀ i, i < size →
      ArithSharing shares5pc k out.r i (ρ i) ∧
      (3*m ≤ 2*size + i → ArithSharing shares5pc k out.r_km1 i 0) ∧
      (size ≤ k → ArithSharing shares5pc k out.r_prime i (ρ (min (i+1) (size-1)) +
          bitVal k (truncCarry L k m size net i) -
          2^(k-m)*bitVal k (truncCarry L k m size net (size + i))) ∧
        ArithSharing shares5pc k out.r_km1 i (bitVal k (truncCarry L k m size net (2*size + i)))) := by
  intro ρ
  have hkL' : k ≤ 8*L := by omega
  obtain ⟨b_2,hb_2,hnet₂,-,-,hcarry,hkept⟩ := nBitAddTruncMp_element multPub hkL' hm
    (EdaTable.generateRandomSharesTrunc_net (L := L) edaTable5pc_deals hnet k size)
    (fun _ _ _ => 0) (fun _ _ _ => 0) (summands_dealt (L := L) hnet size)
  obtain ⟨-,hb2a⟩ := b2a_isSharing (suite5pc_marks multPub) hP (opens5pc multPub hkL') hk hkL hnet₂ u
    b_2.carry (3*size)
  have hclear : ∀ i, 3*m ≤ i → BitSharing shares5pc k b_2.carry i (bitVal k false) := by
    intro i hi j hj
    rw [getLsbD_bitVal _ hj,Bool.and_false]
    refine Pattern.isSharing_zero.congr fun p s _ => ?_
    rw [hkept i hi]
    exact BitVec.getLsbD_zero
  refine ⟨_,by rw [Suite.edaBitTruncMp,hb_2]; rfl,fun i hi => ⟨?_,fun hlate => ?_,fun hle => ?_⟩⟩
  · have hr := EdaTable.sumTrunc_isSharing table5pc_agrees edaTable5pc_deals hkL' hnet
      (by omega : 2*i%2 = 0) (by omega : 2*i ≤ 2*size) hsize
    rwa [show min (2*i/2) (size-1) = i by omega] at hr
  · have hzero := hb2a (2*size + i) (by omega) _ (hclear _ hlate)
    rwa [bitVal_eq,if_neg (by decide)] at hzero
  · have hat : ∀ index, index < 3*size → ArithSharing shares5pc k
        ((suite5pc multPub).b2a rssOpenBitwiseMp u b_2.carry k (3*size) b_2.net).1 index
        (bitVal k (truncCarry L k m size net index)) := by
      intro index hindex
      refine hb2a index hindex _ ?_
      by_cases hin : index < 3*m
      · rw [truncCarry,decide_eq_true hin,Bool.true_and]
        exact hcarry hsize hle index hin
      · rw [truncCarry,decide_eq_false hin,Bool.false_and]
        exact hclear index (by omega)
    have hprime := EdaTable.sumTrunc_isSharing table5pc_agrees edaTable5pc_deals hkL' hnet
      (by omega : (2*i+2)%2 = 0) (by omega : 2*i+2 ≤ 2*size) hsize
    rw [show min ((2*i+2)/2) (size-1) = min (i+1) (size-1) by omega] at hprime
    refine ⟨?_,hat _ (by omega)⟩
    refine ((hprime.add (hat i (by omega))).sub
      ((hat (size + i) (by omega)).const_mul (2^(k-m)))).congr fun p s _ => ?_
    rw [← setWidth_shiftLeft hkL',← BitVec.setWidth_add _ _ hkL',← setWidth_sub_of_le _ _ hkL']
    rfl

/-- The run has a result, and it is a random number as truncation needs it. -/
def EdaTruncRight
    (multPub : Shares 5 (Lint L) → Shares 5 (Lint L) → Nat → Nat → Net 5 G → Fin 5 → Nat → Lint L)
    (u : Shares 5 (Lint L)) (size k m : Nat) (net : Net 5 G) : Prop :=
  ∃ out, (suite5pc multPub).edaBitTruncMp u size k m net = some out ∧ ∀ i, i < size →
    out.Sharing shares5pc k m i (edaTable5pc.dealtSum L k size net i)

theorem edaBitTruncMp_run_iff (hP : (suite5pc multPub).PubCorrect shares5pc (k+2)) (hm₀ : 0 < m)
    (hmk : m < k) (hkL : k + 2 ≤ 8*L) (hm : m ≤ size) (hsize : size ≤ k)
    (hnet : shares5pc.Consistent net) (u : Shares 5 (Lint L)) :
    let ρ := edaTable5pc.dealtSum L k size net
    EdaTruncRight multPub u size k m net ↔ ∀ i, i < size →
      ρ (min (i+1) (size-1)) + bitVal k (truncCarry L k m size net i) -
          2^(k-m)*bitVal k (truncCarry L k m size net (size + i)) = ρ i >>> m ∧
        truncCarry L k m size net (2*size + i) = (ρ i).getLsbD (k-1) := by
  intro ρ
  have hk : 0 < k := by omega
  have hbit : ∀ c d, bitVal k c = bitVal k d → c = d := by
    intro c d h
    rw [← lsb_bitVal hk c,h,lsb_bitVal hk d]
  obtain ⟨out,hout,helement⟩ :=
    edaBitTruncMp_element hP hk hkL hm (by omega) hnet u
  constructor
  · rintro ⟨out',hout',hright⟩ i hi
    have hsame : out = out' := Option.some.inj (hout.symm.trans hout')
    subst hsame
    obtain ⟨-,hr_prime,hr_km1⟩ := hright i hi
    obtain ⟨hr_prime',hr_km1'⟩ := (helement i hi).2.2 hsize
    exact ⟨hr_prime'.unique hr_prime,hbit _ _ (hr_km1'.unique hr_km1)⟩
  · intro h
    refine ⟨out,hout,fun i hi => ?_⟩
    obtain ⟨hr,-,hrest⟩ := helement i hi
    obtain ⟨hr_prime,hr_km1⟩ := hrest hsize
    obtain ⟨hval,htop⟩ := h i hi
    rw [hval] at hr_prime
    rw [htop] at hr_km1
    exact ⟨hr,hr_prime,hr_km1⟩

theorem edaBitTruncMp_none (hm : size < m) (u : Shares 5 (Lint L)) :
    ¬ EdaTruncRight multPub u size k m net := by
  rintro ⟨out,hout,-⟩
  rw [Suite.edaBitTruncMp,Suite.nBitAddTruncMp,if_neg (by omega)] at hout
  exact Option.some_ne_none out hout.symm

end

def onesDealer : Net 5 Tape := fun p s =>
  if p = 0 ∧ s = 6 then ⟨fun _ => 255⟩ else ⟨fun _ => 0⟩

theorem onesDealer_consistent : shares5pc.Consistent onesDealer := by
  intro p s q t hs ht _
  have hs : s < 6 := hs
  have ht : t < 6 := ht
  rw [onesDealer,onesDealer,if_neg (fun h => absurd h.2 (by omega)),
    if_neg (fun h => absurd h.2 (by omega))]

theorem dealerWord_onesDealer (hk : k ≤ 8*L) (size : Nat) (d : Fin 5) (i : Nat) :
    dealerWord5pc L k size onesDealer d i = if d = 0 then BitVec.allOnes k else 0 := by
  rw [dealerWord5pc,EdaTable.rBits,setWidth_memcpyWord_fill hk _ (decide (d = 0))]
  · simp only [decide_eq_true_eq]
  · intro m _
    by_cases hd : d = 0
    · simp only [Net.random,Generator.getrandom,onesDealer,hd,edaTable5pc,and_self,if_true,
        decide_true]
    · simp only [Net.random,Generator.getrandom,onesDealer,hd,false_and,if_false,decide_false,
        Bool.false_eq_true]

section
variable {m size : Nat}
  {multPub : Shares 5 (Lint L) → Shares 5 (Lint L) → Nat → Nat → Net 5 Tape → Fin 5 → Nat → Lint L}

theorem dealtSum_onesDealer (hk : k ≤ 8*L) (size i : Nat) :
    edaTable5pc.dealtSum L k size onesDealer i = BitVec.allOnes k := by
  have hsum := dealtSum5pc L k size onesDealer i
  have hword := fun d => dealerWord_onesDealer hk size d i
  simp only [dealerWord5pc] at hword
  rw [hsum,hword,hword,hword,if_pos rfl,if_neg (by decide),if_neg (by decide),add_zero,add_zero]

theorem carry_zero_right (m : Nat) (x : BitVec k) : BitVec.carry m x 0 false = false := by
  rw [carry_eq_false_iff]
  simpa using Nat.mod_lt x.toNat (Nat.two_pow_pos m)

/-- With ones from one dealer alone no shape is right: the last top bit is not there, or
nothing is cut off. -/
theorem edaBitTruncMp_ones (hP : (suite5pc multPub).PubCorrect shares5pc (k+2)) (hm₀ : 0 < m)
    (hmk : m < k) (hkL : k + 2 ≤ 8*L) (u : Shares 5 (Lint L)) (size : Nat) :
    ¬ EdaTruncRight multPub u size k m onesDealer := by
  have hk : 0 < k := by omega
  have htop : (BitVec.allOnes k).getLsbD (k-1) = true := by
    rw [BitVec.getLsbD_allOnes,decide_eq_true (by omega)]
  rcases Nat.lt_trichotomy size m with hlt | rfl | hgt
  · exact edaBitTruncMp_none hlt u
  · intro h
    have hvalue := ((edaBitTruncMp_run_iff hP hm₀ hmk hkL (Nat.le_refl size) (by omega)
      onesDealer_consistent u).mp h 0 hm₀).1
    have hno : ∀ index, index < 2*size → truncCarry L k size size onesDealer index = false := by
      intro index hindex
      simp only [truncCarry,carryAt,dealerWord_onesDealer (by omega : k ≤ 8*L),if_pos,
        if_neg (by decide : ¬ (1 : Fin 5) = 0),if_neg (by decide : ¬ (2 : Fin 5) = 0),add_zero,
        carry_zero_right,if_pos hindex,ite_self,Bool.and_false]
    rw [dealtSum_onesDealer (by omega),dealtSum_onesDealer (by omega),hno 0 (by omega),
      hno (size + 0) (by omega),bitVal_eq,if_neg (by decide),add_zero,mul_zero,sub_zero] at hvalue
    have hbit := congrArg (fun x => x.getLsbD (k-1)) hvalue
    simp only [htop,BitVec.getLsbD_ushiftRight,BitVec.getLsbD_allOnes] at hbit
    rw [decide_eq_false (by omega)] at hbit
    exact Bool.noConfusion hbit
  · rintro ⟨out,hout,hright⟩
    obtain ⟨out',hout',helement⟩ := edaBitTruncMp_element hP hk hkL (Nat.le_of_lt hgt) (by omega)
      onesDealer_consistent u
    have hsame : out' = out := Option.some.inj (hout'.symm.trans hout)
    subst hsame
    have hlast := (hright (size-1) (by omega)).r_km1.unique
      ((helement (size-1) (by omega)).2.1 (by omega))
    rw [dealtSum_onesDealer (by omega),htop] at hlast
    have hbit := congrArg (fun x => x.getLsbD 0) hlast
    simp only [lsb_bitVal hk] at hbit
    exact absurd hbit (by simp)

/-- For no shape is `Rss_edaBit_trunc_mp` right on all agreed streams. A run of `size`
elements has no result where `size < m`; with `m ≤ size ≤ k` it is right exactly when the
sum of the next element, the carries as they are placed and the bit in the place of the
top bit happen to fit. -/
theorem edaBitTruncMp_isSharing_iff (hP : (suite5pc multPub).PubCorrect shares5pc (k+2))
    (hm₀ : 0 < m) (hmk : m < k) (hkL : k + 2 ≤ 8*L) (u : Shares 5 (Lint L)) (size : Nat) :
    (¬ ∀ net, shares5pc.Consistent net → EdaTruncRight multPub u size k m net) ∧
    (size < m → ∀ net, ¬ EdaTruncRight multPub u size k m net) ∧
    (m ≤ size → size ≤ k → ∀ net, shares5pc.Consistent net →
      let ρ := edaTable5pc.dealtSum L k size net
      (EdaTruncRight multPub u size k m net ↔ ∀ i, i < size →
        ρ (min (i+1) (size-1)) + bitVal k (truncCarry L k m size net i) -
            2^(k-m)*bitVal k (truncCarry L k m size net (size + i)) = ρ i >>> m ∧
          truncCarry L k m size net (2*size + i) = (ρ i).getLsbD (k-1))) := by
  refine ⟨fun h => ?_,fun hlt net => edaBitTruncMp_none hlt u,fun hm hsize net hnet =>
    edaBitTruncMp_run_iff hP hm₀ hmk hkL hm hsize hnet u⟩
  exact edaBitTruncMp_ones hP hm₀ hmk hkL u size (h onesDealer onesDealer_consistent)

end

theorem edaBitTruncMp_isSharing_iff_two : ¬ ∀ net, shares5pc.Consistent net →
    EdaTruncRight (L := 4) (fun a b size ring_size (net : Net 5 Tape) =>
      (rssMultPubMp (fun _ _ _ => 0) a b size ring_size net).1) (fun _ _ _ => 9) 2 30 1 net :=
  (edaBitTruncMp_isSharing_iff (pubCorrect5pc (by decide) (by decide) _) (by decide) (by decide)
    (by decide) _ 2).1

/-- Streams on which one bit is not cut off two elements, nor off one. -/
theorem edaBitTruncMp_wrong :
    let multPub : Shares 5 (Lint 4) → Shares 5 (Lint 4) → Nat → Nat → Net 5 Tape → Fin 5 → Nat →
      Lint 4 := fun a b size ring_size net =>
        (rssMultPubMp (fun _ _ _ => 0) a b size ring_size net).1
    shares5pc.Consistent onesDealer ∧
      ¬ EdaTruncRight multPub (fun _ _ _ => 0) 2 30 1 onesDealer ∧
      ¬ EdaTruncRight multPub (fun _ _ _ => 0) 1 30 1 onesDealer := by
  intro multPub
  have hP := pubCorrect5pc (G := Tape) (k := 32) (L := 4) (by decide) (by decide) fun _ _ _ => 0
  exact ⟨onesDealer_consistent,
    edaBitTruncMp_ones hP (by decide) (by decide) (by decide) _ 2,
    edaBitTruncMp_ones hP (by decide) (by decide) (by decide) _ 1⟩

end RssRing
