import RssRing.ProtocolsComposite.BitLT
import RssRing.ProtocolsComposite.TwoSlots
set_option autoImplicit false

namespace RssRing
open Replicated Carry

namespace Suite
variable {n L : Nat} {G : Type} (S : Suite n L G)

/-- `CarryBuffer` on cleared buffers; here `r_size` counts pairs. -/
def carryBuffer (d : Shares n (Lint L)) (r_size : Nat) : Shares n (Lint L) := fun q s i =>
  (List.range r_size).foldl (fun x j =>
    let mask1 := 2*j
    let mask2 := 2*j+1
    if s < S.numShares then
      setBit (setBit x mask1 (getBit (d q s i) mask1)) mask2
        (getBit (d q (S.numShares + s) i) mask1)
    else
      setBit (setBit x mask1 (getBit (d q (s - S.numShares) i) mask2)) mask2
        (getBit (d q (s - S.numShares) i) mask2)) 0

def carryOutAux (res d : Shares n (Lint L)) (r_size size : Nat) (net : Net n G) :
    Shares n (Lint L) × Net n G :=
  if 1 < r_size then
    let st := S.carryOutStep r_size size d net
    carryOutAux res st.1 (r_size/2 + r_size%2) size st.2
  else
    (fun q s i =>
      if s = 0 then setBit (res q s i) 0 (getBit (d q 2 i) 0)
      else if s = 1 then setBit (res q s i) 0 (getBit (d q 3 i) 0)
      else res q s i,net)
termination_by r_size
decreasing_by omega

def bitLTBy (carryOutAux : Shares n (Lint L) → Shares n (Lint L) → Nat → Nat → Net n G →
      Shares n (Lint L) × Net n G)
    (res : Shares n (Lint L)) (a : Fin n → Nat → Lint L) (b : Shares n (Lint L))
    (ring_size size : Nat) (net : Net n G) : Shares n (Lint L) × Net n G :=
  let b_prime := fun q s i => b q s i ^^^ S.aiMask q s
  let c := carryOutAux res (S.carryOutStart a b_prime) ring_size size net
  (fun q s i => getBit (c.1 q s i) 0 ^^^ getBit (S.aiMask q s) 0,c.2)

theorem bitLTBy_newCarryOutAux : S.bitLTBy S.newCarryOutAux = S.bitLT := rfl

theorem getLsbD_carryBuffer (d : Shares n (Lint L)) {r_size : Nat} (hL : r_size ≤ 8*L)
    (q : Fin n) {s : Nat} (hs : s < 2*S.numShares) (i : Nat) {t : Nat} (ht : t < 2*(r_size/2)) :
    (S.carryBuffer d (r_size/2) q s i).getLsbD t = (S.optimalBuffer d r_size q s i).getLsbD t := by
  have ht8 : t < 8*L := by omega
  have hhalf : t/2 < r_size/2 := by omega
  by_cases hlow : s < S.numShares
  · have hopt := S.getLsbD_optimalBuffer d hL q (i := i) hlow hhalf
    simp only [carryBuffer,if_pos hlow,getBit_eq]
    rw [getLsbD_foldl_pairs (L := L) _ _ _ _ _ ht8,if_pos ht]
    rcases Nat.mod_two_eq_zero_or_one t with h | h
    · rw [if_pos h,← hopt.1.1]
      congr 1
      omega
    · rw [if_neg (by omega),← hopt.1.2]
      congr 1
      omega
  · obtain ⟨s,rfl⟩ : ∃ s', s = S.numShares + s' := ⟨s - S.numShares,by omega⟩
    have hopt := S.getLsbD_optimalBuffer d hL q (i := i) (show s < S.numShares by omega) hhalf
    simp only [carryBuffer,if_neg hlow,getBit_eq,Nat.add_sub_cancel_left]
    rw [getLsbD_foldl_pairs (L := L) _ _ _ _ _ ht8,if_pos ht]
    rcases Nat.mod_two_eq_zero_or_one t with h | h
    · rw [if_pos h,← hopt.2.1]
      congr 1
      omega
    · rw [if_neg (by omega),← hopt.2.2]
      congr 1
      omega

theorem carryOutAux_eq (res d : Shares n (Lint L)) (r_size size : Nat) (net : Net n G) :
    S.carryOutAux res d r_size size net = S.newCarryOutAux res d r_size size net := by
  induction r_size using Nat.strong_induction_on generalizing d net with
  | _ r_size ih =>
    rw [carryOutAux,newCarryOutAux,carryOutLoop]
    by_cases hone : 1 < r_size
    · simp only [if_pos hone]
      rw [ih _ (by omega)]
      rfl
    · simp only [if_neg hone]

end Suite

namespace Discipline
variable {n L : Nat} {G : Type} {S : Suite n L G} (D : Discipline S)

theorem newCarryOutAux_shared (size : Nat) (hN : S.numShares = 2) {k : Nat} (hk : 0 < k)
    (hL : k ≤ 8*L) (res : Shares n (Lint L)) {d : Shares n (Lint L)} {net : Net n G}
    (hnet : D.NetOk net) : D.NetOk (S.newCarryOutAux res d k size net).2 ∧
      ∀ i, i < size → ∀ f, D.Cells k d i f →
        D.Shared (fun q s => ((S.newCarryOutAux res d k size net).1 q s i).getLsbD 0)
          (ripple f k) := by
  obtain ⟨hok,hcells⟩ := D.carryOutLoop_cells size hL hk (d := d) hnet
  refine ⟨hok,fun i hi f hd => ?_⟩
  have hcarry := (hcells i hi f hd 0 Nat.one_pos).2
  rw [blocks_ripple] at hcarry
  refine D.congr hcarry fun q s hs => ?_
  have hs' : s = 0 ∨ s = 1 := by omega
  rcases hs' with rfl | rfl
  · simp only [Suite.newCarryOutAux,if_true,getBit_eq,getLsbD_setBit _ _ _ _ (by omega : 0 < 8*L),
      hN]
  · simp only [Suite.newCarryOutAux,Nat.one_ne_zero,if_false,if_true,getBit_eq,
      getLsbD_setBit _ _ _ _ (by omega : 0 < 8*L),hN]

end Discipline

section
variable {L k : Nat} {G : Type} [Generator G]

/-- The recursive and the iterative routine share the same carry out, and `CarryBuffer`
would pack the pairs as `OptimalBuffer` does. -/
theorem carryOutAux_agree (hk : 0 < k) (hkL : k ≤ 8*L) (size : Nat) {net net' : Net 3 G}
    (hnet : shares3pc.Consistent net) (hnet' : shares3pc.Consistent net')
    (scratch res res' d : Shares 3 (Lint L)) (p g : Nat → BitVec k)
    (hp : ∀ i, i < size → BitSharing shares3pc k d i (p i))
    (hg : ∀ i, i < size → BitSharing shares3pc k (fun q s => d q (2 + s)) i (g i)) :
    let S := suite3pc (G := G) scratch
    (∀ i, i < size →
      let c := ripple (fun j => ⟨(p i).getLsbD j,(g i).getLsbD j⟩) k
      shares3pc.IsSharing (fun q s => ((S.carryOutAux res d k size net).1 q s i).getLsbD 0) c ∧
      shares3pc.IsSharing (fun q s => ((S.newCarryOutAux res' d k size net').1 q s i).getLsbD 0) c) ∧
    ∀ r_size q s i t, r_size ≤ 8*L → s < 4 → t < 2*(r_size/2) →
      (S.carryBuffer d (r_size/2) q s i).getLsbD t =
        (S.optimalBuffer d r_size q s i).getLsbD t := by
  intro S
  refine ⟨fun i hi => ?_,fun r_size q s i t hL hs ht => S.getLsbD_carryBuffer d hL q hs i ht⟩
  have hcells : (replicated3pc (G := G) scratch).Cells k d i
      fun j => ⟨(p i).getLsbD j,(g i).getLsbD j⟩ := fun j hj => ⟨hp i hi j hj,hg i hi j hj⟩
  rw [S.carryOutAux_eq]
  exact ⟨((replicated3pc scratch).newCarryOutAux_shared size rfl hk hkL res hnet).2 i hi _ hcells,
    ((replicated3pc scratch).newCarryOutAux_shared size rfl hk hkL res' hnet').2 i hi _ hcells⟩

theorem bitSharing_same (w : Nat) (x : Lint L) (i : Nat) :
    BitSharing shares3pc w (fun _ _ _ => x) i (x.setWidth w) := by
  intro j hj
  refine ⟨fun _ => x.getLsbD j,fun _ _ _ => rfl,?_⟩
  rw [Finset.sum_const,card_names3pc,BitVec.getLsbD_setWidth,decide_eq_true hj,Bool.true_and]
  cases x.getLsbD j <;> rfl

theorem carryOutAux_agree_three :
    let c := ripple (fun j => ⟨(5 : BitVec 3).getLsbD j,(5 : BitVec 3).getLsbD j⟩) 3
    let S := suite3pc (L := 4) (G := Tape) fun _ _ _ => 7
    shares3pc.IsSharing (fun q s => ((S.carryOutAux (fun _ _ _ => 3) (fun _ _ _ => 5) 3 1
      (fun _ _ => ⟨fun i => BitVec.ofNat 8 (3*i+1)⟩)).1 q s 0).getLsbD 0) c ∧
    shares3pc.IsSharing (fun q s => ((S.newCarryOutAux (fun _ _ _ => 6) (fun _ _ _ => 5) 3 1
      (fun _ _ => ⟨fun _ => 0⟩)).1 q s 0).getLsbD 0) c := by
  refine (carryOutAux_agree (by decide) (by decide) 1 ?_ ?_ _ _ _ _ (fun _ => 5) (fun _ => 5)
    ?_ ?_).1 0 Nat.one_pos
  · exact fun _ _ _ _ _ _ _ => rfl
  · exact fun _ _ _ _ _ _ _ => rfl
  · exact fun i _ => bitSharing_same 3 (5 : Lint 4) i
  · exact fun i _ => bitSharing_same 3 (5 : Lint 4) i

/-- `Rss_BitLT` over either carry-out routine: words that xor to the comparison. -/
theorem bitLT3pc_isSharing (hk : 0 < k) (hkL : k ≤ 8*L) (size : Nat) {net : Net 3 G}
    (hnet : shares3pc.Consistent net) (scratch res : Shares 3 (Lint L)) {a : Fin 3 → Nat → Lint L}
    {b : Shares 3 (Lint L)} {x y : Nat → BitVec k}
    (ha : ∀ q i j, i < size → j < k → (a q i).getLsbD j = (x i).getLsbD j)
    (hb : ∀ i, i < size → BitSharing shares3pc k b i (y i)) :
    let S := suite3pc (G := G) scratch
    ∀ i, i < size → BitSharing shares3pc (8*L) (S.bitLT res a b k size net).1 i
        (bitWord L ((x i).ult (y i))) ∧
      BitSharing shares3pc (8*L) (S.bitLTBy S.carryOutAux res a b k size net).1 i
        (bitWord L ((x i).ult (y i))) := by
  intro S i hi
  have hboth : S.bitLTBy S.carryOutAux = S.bitLT := by
    rw [← S.bitLTBy_newCarryOutAux]
    congr 1
    funext res d r_size size net
    exact S.carryOutAux_eq res d r_size size net
  obtain ⟨c,hc,hword⟩ := ((replicated3pc scratch).bitLT_shared size rfl hk hkL
    (public3pc scratch) res (a := a) (b := b) hnet).2 i hi (x i) (y i)
    (fun q j hj => ha q i j hi hj) (hb i hi)
  rw [hboth,and_self]
  intro j hj
  rw [getLsbD_bitWord]
  refine ((replicated3pc (G := G) scratch).and_public hc (decide (j < 8*L) && decide (j = 0))).congr
    fun q s hs => ?_
  rw [hword q s hs,getLsbD_bitWord]

theorem bitLT3pc_isSharing_two :
    let S := suite3pc (L := 4) (G := Tape) fun _ _ _ => 7
    BitSharing shares3pc 32 (S.bitLT (fun _ _ _ => 9) (fun _ _ => 10) (fun _ _ _ => 13) 3 1
      (fun _ _ => ⟨fun i => BitVec.ofNat 8 (3*i+1)⟩)).1 0 (bitWord 4 ((2 : BitVec 3).ult 5)) ∧
    BitSharing shares3pc 32 (S.bitLTBy S.carryOutAux (fun _ _ _ => 9) (fun _ _ => 10)
      (fun _ _ _ => 13) 3 1 (fun _ _ => ⟨fun i => BitVec.ofNat 8 (3*i+1)⟩)).1 0
      (bitWord 4 ((2 : BitVec 3).ult 5)) := by
  refine bitLT3pc_isSharing (L := 4) (k := 3) (by decide) (by decide) 1 ?_ _ _ (x := fun _ => 2)
    (y := fun _ => 5) ?_ ?_ 0 Nat.one_pos
  · exact fun _ _ _ _ _ _ _ => rfl
  · have hbits : ∀ j, j < 3 → (10 : Lint 4).getLsbD j = (2 : BitVec 3).getLsbD j := by decide
    exact fun _ _ j _ hj => hbits j hj
  · exact fun i _ => bitSharing_same 3 (13 : Lint 4) i

end

section
variable {n L k : Nat} {G : Type} {S : Suite n L G} {H : Pattern (Fin n) (Finset (Fin n))}
  {T₀ : Finset (Fin n)}

theorem bitLT_visible (S : Suite n L G) (hL : 0 < L) (res : Shares n (Lint L))
    (a : Fin n → Nat → Lint L) (b : Shares n (Lint L)) (ring_size size : Nat) (net : Net n G)
    (p : Fin n) {s : Nat} (hs : 2 ≤ s) (i : Nat) :
    ((S.bitLT res a b ring_size size net).1 p s i).getLsbD 0 =
      ((res p s i).getLsbD 0 ^^ S.ai p s) := by
  rw [S.bitLT_eq hL,getLsbD_bitWord,if_neg (by omega),if_neg (by omega),
    decide_eq_true (by omega : 0 < 8*L)]
  rfl

theorem bitLT_same (hL : 0 < L) (hvis : VisibleFrom2 H) (res : Shares n (Lint L))
    {a a' : Fin n → Nat → Lint L} {b b' : Shares n (Lint L)} {size i : Nat} {net net' : Net n G}
    {v v' : Bool}
    (h : BitSharing H (8*L) (S.bitLT res a b k size net).1 i (bitWord L v))
    (h' : BitSharing H (8*L) (S.bitLT res a' b' k size net').1 i (bitWord L v')) : v = v' := by
  have h8 : 0 < 8*L := by omega
  have hv := h 0 h8
  have hv' := h' 0 h8
  rw [getLsbD_bitWord,decide_eq_true h8] at hv hv'
  refine hvis.eq hv hv' fun p s hs₂ _ => ?_
  rw [bitLT_visible S hL _ _ _ _ _ _ p hs₂,bitLT_visible S hL _ _ _ _ _ _ p hs₂]

theorem bitLT_old (hL : 0 < L) (hS : S.Marks H T₀) (hvis : VisibleFrom2 H)
    {res : Shares n (Lint L)} {a : Fin n → Nat → Lint L} {b : Shares n (Lint L)} {size i : Nat}
    {net : Net n G} {v w : Bool} (hres : H.IsSharing (fun p s => (res p s i).getLsbD 0) w)
    (h : BitSharing H (8*L) (S.bitLT res a b k size net).1 i (bitWord L v)) : v = (w ^^ true) := by
  have h8 : 0 < 8*L := by omega
  have hv := h 0 h8
  rw [getLsbD_bitWord,decide_eq_true h8] at hv
  refine hvis.eq hv (hres.add (hS.publicBit true)) fun p s hs₂ _ => ?_
  rw [bitLT_visible S hL _ _ _ _ _ _ p hs₂]
  rfl

structure BitLTInput (H : Pattern (Fin n) (Finset (Fin n))) (k size : Nat)
    (a : Fin n → Nat → Lint L) (b : Shares n (Lint L)) (x y : Nat → BitVec k) : Prop where
  left : ∀ q i j, i < size → j < k → (a q i).getLsbD j = (x i).getLsbD j
  right : ∀ i, i < size → BitSharing H k b i (y i)

def BitLTOutput (H : Pattern (Fin n) (Finset (Fin n))) (k size : Nat) (res : Shares n (Lint L))
    (x y : Nat → BitVec k) : Prop :=
  ∀ i, i < size → BitSharing H (8*L) res i (bitWord L ((x i).ult (y i)))

theorem bitLT_fixed_res (hk : 0 < k) (hkL : k ≤ 8*L) (hS : S.Marks H T₀) (hvis : VisibleFrom2 H)
    (size : Nat) (net : Net n G) (res : Shares n (Lint L)) :
    (∀ a b x y, BitLTInput H k size a b x y →
      BitLTOutput H k size (S.bitLT res a b k size net).1 x y) ↔ size = 0 := by
  have hL : 0 < L := by omega
  constructor
  · intro h
    by_contra hsize
    have hi : 0 < size := Nat.pos_of_ne_zero hsize
    have hpub : ∀ v : BitVec k, BitLTInput H k size (fun _ _ => 0)
        (fun p s _ => if S.ai p s then v.setWidth (8*L) else (0 : Lint L)) (fun _ => 0)
        fun _ => v :=
      fun v => ⟨fun q i j _ _ => by simp,fun i _ => hS.publicWord hkL (fun _ => v) i⟩
    have hsame := bitLT_same hL hvis res (h _ _ _ _ (hpub 0) 0 hi)
      (h _ _ _ _ (hpub (BitVec.allOnes k)) 0 hi)
    have hmax : (0 : BitVec k).ult (BitVec.allOnes k) = true := by
      have hpow := Nat.one_lt_two_pow (show k ≠ 0 by omega)
      rw [BitVec.ult,BitVec.toNat_allOnes]
      simpa using hpow
    rw [hmax] at hsame
    simp [BitVec.ult] at hsame
  · rintro rfl a b x y _ i hi
    exact absurd hi (Nat.not_lt_zero i)

theorem bitLT_fixed_input (hL : 0 < L) (hS : S.Marks H T₀) (hvis : VisibleFrom2 H) (size : Nat)
    (net : Net n G) (a : Fin n → Nat → Lint L) (b : Shares n (Lint L)) (x y : Nat → BitVec k) :
    (∀ res, BitLTOutput H k size (S.bitLT res a b k size net).1 x y) ↔ size = 0 := by
  constructor
  · intro h
    by_contra hsize
    have hi : 0 < size := Nat.pos_of_ne_zero hsize
    have hold : ∀ w : Bool, (x 0).ult (y 0) = (w ^^ true) := by
      intro w
      refine bitLT_old hL hS hvis ?_ (h (fun p s _ => bitWord L (w && S.ai p s)) 0 hi)
      refine (hS.publicBit w).congr fun p s _ => ?_
      rw [getLsbD_bitWord,decide_eq_true (by omega : 0 < 8*L),decide_eq_true rfl,Bool.true_and,
        Bool.true_and]
    have htrue := hold true
    rw [hold false] at htrue
    exact Bool.noConfusion htrue
  · rintro rfl res i hi
    exact absurd hi (Nat.not_lt_zero i)

end

section
variable {L k : Nat} {G : Type} [Generator G]
  {multPub₅ : Shares 5 (Lint L) → Shares 5 (Lint L) → Nat → Nat → Net 5 G → Fin 5 → Nat → Lint L}
  {multPub₇ : Shares 7 (Lint L) → Shares 7 (Lint L) → Nat → Nat → Net 7 G → Fin 7 → Nat → Lint L}
  {openShares₇ : Shares 7 (Lint L) → Nat → Fin 7 → Nat → Lint L}

/-- `Rss_BitLT_mp` and `Rss_BitLT_7pc` write two slots only. For no fixed contents of `res`
are they right on all inputs, and on no input for all contents of `res`, unless the vector
is empty, where their exchanges do not return (`getRounds_zero`). -/
theorem bitLTMp_isSharing_iff (hk : 0 < k) (hkL : k ≤ 8*L) (size : Nat) (net₅ : Net 5 G)
    (net₇ : Net 7 G) :
    (∀ res, (∀ a b x y, BitLTInput shares5pc k size a b x y → BitLTOutput shares5pc k size
      ((suite5pc multPub₅).bitLT res a b k size net₅).1 x y) ↔ size = 0) ∧
    (∀ a b x y, BitLTInput shares5pc k size a b x y → ((∀ res, BitLTOutput shares5pc k size
      ((suite5pc multPub₅).bitLT res a b k size net₅).1 x y) ↔ size = 0)) ∧
    (∀ res, (∀ a b x y, BitLTInput shares7pc k size a b x y → BitLTOutput shares7pc k size
      ((suite7pc multPub₇ openShares₇).bitLT res a b k size net₇).1 x y) ↔ size = 0) ∧
    ∀ a b x y, BitLTInput shares7pc k size a b x y → ((∀ res, BitLTOutput shares7pc k size
      ((suite7pc multPub₇ openShares₇).bitLT res a b k size net₇).1 x y) ↔ size = 0) := by
  have hL : 0 < L := by omega
  have h₅ := suite5pc_marks multPub₅
  have h₇ := suite7pc_marks multPub₇ openShares₇
  exact ⟨bitLT_fixed_res hk hkL h₅ visible5pc size net₅,
    fun a b x y _ => bitLT_fixed_input hL h₅ visible5pc size net₅ a b x y,
    bitLT_fixed_res hk hkL h₇ visible7pc size net₇,
    fun a b x y _ => bitLT_fixed_input hL h₇ visible7pc size net₇ a b x y⟩

theorem bitLTMp_isSharing_iff_two :
    ¬ ∀ a b x y, BitLTInput shares5pc 4 2 a b x y → BitLTOutput shares5pc 4 2
      ((suite5pc (L := 4) (fun _ _ _ _ _ _ _ => 0)).bitLT (fun _ _ _ => 0) a b 4 2
        (fun _ _ => (⟨fun i => BitVec.ofNat 8 (3*i+1)⟩ : Tape))).1 x y :=
  fun h => Nat.succ_ne_zero 1 (((@bitLTMp_isSharing_iff 4 4 Tape _ _ (fun _ _ _ _ _ _ _ => 0)
    (fun _ _ _ _ => 0) (by decide) (by decide) 2 _ (fun _ _ => ⟨fun _ => 0⟩)).1 _).mp h)

/-- Zero is shared as below zero among five and among seven parties. -/
theorem bitLTMp_zero :
    BitLTInput shares5pc 4 1 (fun _ _ => (0 : Lint 4)) (fun _ _ _ => 0) (fun _ => 0) (fun _ => 0) ∧
    ¬ BitLTOutput shares5pc 4 1 ((suite5pc (L := 4) (fun _ _ _ _ _ _ _ => 0)).bitLT
      (fun _ _ _ => 0) (fun _ _ => 0) (fun _ _ _ => 0) 4 1
      (fun _ _ => (⟨fun _ => 0⟩ : Tape))).1 (fun _ => 0) (fun _ => 0) ∧
    BitLTInput shares7pc 4 1 (fun _ _ => (0 : Lint 4)) (fun _ _ _ => 0) (fun _ => 0) (fun _ => 0) ∧
    ¬ BitLTOutput shares7pc 4 1 ((suite7pc (L := 4) (fun _ _ _ _ _ _ _ => 0)
      (fun _ _ _ _ => 0)).bitLT (fun _ _ _ => 0) (fun _ _ => 0) (fun _ _ _ => 0) 4 1
      (fun _ _ => (⟨fun _ => 0⟩ : Tape))).1 (fun _ => 0) (fun _ => 0) := by
  have hzero₅ : ∀ j, shares5pc.IsSharing (fun _ _ => (0 : Lint 4).getLsbD j) false := by
    intro j
    rw [BitVec.ofNat_eq_ofNat,BitVec.getLsbD_zero]
    exact Pattern.isSharing_zero
  have hzero₇ : ∀ j, shares7pc.IsSharing (fun _ _ => (0 : Lint 4).getLsbD j) false := by
    intro j
    rw [BitVec.ofNat_eq_ofNat,BitVec.getLsbD_zero]
    exact Pattern.isSharing_zero
  refine ⟨⟨fun _ _ _ _ _ => by simp,fun _ _ j _ => by simpa using hzero₅ j⟩,fun h => ?_,
    ⟨fun _ _ _ _ _ => by simp,fun _ _ j _ => by simpa using hzero₇ j⟩,fun h => ?_⟩
  · have hult : (0 : BitVec 4).ult 0 = (false ^^ true) := by
      refine bitLT_old (by decide) (suite5pc_marks _) visible5pc ?_ (h 0 Nat.one_pos)
      exact hzero₅ 0
    simp [BitVec.ult] at hult
  · have hult : (0 : BitVec 4).ult 0 = (false ^^ true) := by
      refine bitLT_old (by decide) (suite7pc_marks _ _) visible7pc ?_ (h 0 Nat.one_pos)
      exact hzero₇ 0
    simp [BitVec.ult] at hult

end

end RssRing
