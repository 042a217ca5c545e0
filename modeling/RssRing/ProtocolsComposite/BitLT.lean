import RssRing.Library.Carry
import RssRing.ProtocolsComposite.BitAdd
set_option autoImplicit false

namespace RssRing
open Replicated Carry

namespace Suite
variable {n L : Nat} {G : Type} (S : Suite n L G)

def optimalBuffer (d : Shares n (Lint L)) (r_size : Nat) : Shares n (Lint L) := fun q s i =>
  if s < S.numShares then
    (d q s i &&& even L r_size) ||| ((d q (S.numShares + s) i &&& even L r_size) <<< 1)
  else
    ((d q (s - S.numShares) i &&& odd L r_size) >>> 1) ||| (d q (s - S.numShares) i &&& odd L r_size)

/-- One pass of the loop of `new_Rss_CarryOutAux`. -/
def carryOutStep (r_size size : Nat) (d : Shares n (Lint L)) (net : Net n G) :
    Shares n (Lint L) × Net n G :=
  let n_uints := byteWidth r_size
  let buffer := S.optimalBuffer d r_size
  let u := S.multByte (toBytes n_uints buffer 0) (toBytes n_uints buffer S.numShares)
    (n_uints*size) net
  let new_r_size := r_size/2
  let buffer := fun q s i => (List.range new_r_size).foldl (fun x j =>
    let t_index := j/4 + i*n_uints
    if s < S.numShares then
      setBit x j (getBit ((u.1 q s t_index).setWidth (8*L)) (2*j%8))
    else
      setBit x j (getBit ((u.1 q (s - S.numShares) t_index).setWidth (8*L)) ((2*j+1)%8) ^^^
        getBit (d q s i) (2*j+1))) 0
  (fun q s i => if r_size%2 = 1 then
      setBit (buffer q s i) new_r_size (getBit (d q s i) (r_size-1)) else buffer q s i,u.2)

def carryOutLoop (size r_size : Nat) (d : Shares n (Lint L)) (net : Net n G) :
    Shares n (Lint L) × Net n G :=
  if 1 < r_size then
    let st := S.carryOutStep r_size size d net
    carryOutLoop size (r_size/2 + r_size%2) st.1 st.2
  else (d,net)
termination_by r_size
decreasing_by omega

/-- `new_Rss_CarryOutAux`. Whatever the number of shares is, `res[0]` and `res[1]`
are written, from `d[2]` and `d[3]`. -/
def newCarryOutAux (res d : Shares n (Lint L)) (ring_size size : Nat) (net : Net n G) :
    Shares n (Lint L) × Net n G :=
  let st := S.carryOutLoop size ring_size d net
  (fun q s i =>
    if s = 0 then setBit (res q s i) 0 (getBit (st.1 q 2 i) 0)
    else if s = 1 then setBit (res q s i) 0 (getBit (st.1 q 3 i) 0)
    else res q s i,st.2)

/-- The `p` and `g` words that `Rss_CarryOut` starts from, with a carry put in. -/
def carryOutStart (a : Fin n → Nat → Lint L) (b : Shares n (Lint L)) : Shares n (Lint L) :=
  let p := fun q s i => (a q i &&& S.aiMask q s) ^^^ b q s i
  let g := fun q s i => a q i &&& b q s i
  fun q s i =>
    if s < S.numShares then p q s i
    else setBit (g q (s - S.numShares) i) 0
      (getBit (g q (s - S.numShares) i) 0 ^^^ getBit (p q (s - S.numShares) i) 0)

def carryOut (res : Shares n (Lint L)) (a : Fin n → Nat → Lint L) (b : Shares n (Lint L))
    (ring_size size : Nat) (net : Net n G) : Shares n (Lint L) × Net n G :=
  S.newCarryOutAux res (S.carryOutStart a b) ring_size size net

def bitLT (res : Shares n (Lint L)) (a : Fin n → Nat → Lint L) (b : Shares n (Lint L))
    (ring_size size : Nat) (net : Net n G) : Shares n (Lint L) × Net n G :=
  let b_prime := fun q s i => b q s i ^^^ S.aiMask q s
  let c := S.carryOut res a b_prime ring_size size net
  (fun q s i => getBit (c.1 q s i) 0 ^^^ getBit (S.aiMask q s) 0,c.2)

theorem getLsbD_optimalBuffer (d : Shares n (Lint L)) {r_size : Nat} (hL : r_size ≤ 8*L) (q : Fin n)
    {s i j : Nat} (hs : s < S.numShares) (hj : j < r_size/2) :
    ((S.optimalBuffer d r_size q s i).getLsbD (2*j) = (d q s i).getLsbD (2*j) ∧
      (S.optimalBuffer d r_size q s i).getLsbD (2*j+1) =
        (d q (S.numShares + s) i).getLsbD (2*j)) ∧
    ((S.optimalBuffer d r_size q (S.numShares + s) i).getLsbD (2*j) = (d q s i).getLsbD (2*j+1) ∧
      (S.optimalBuffer d r_size q (S.numShares + s) i).getLsbD (2*j+1) =
        (d q s i).getLsbD (2*j+1)) := by
  have hge : ¬ S.numShares + s < S.numShares := by omega
  have hback : S.numShares + s - S.numShares = s := by omega
  have h₀ : 2*j < r_size := by omega
  have h₁ : 2*j+1 < r_size := by omega
  have h8 : 2*j+1 < 8*L := by omega
  have hodd : (2*j+1)%2 = 1 := by omega
  have heven : 2*j%2 = 0 := by omega
  simp only [optimalBuffer,hs,hge,hback,if_true,if_false,BitVec.getLsbD_or,BitVec.getLsbD_and,
    BitVec.getLsbD_shiftLeft,BitVec.getLsbD_ushiftRight,getLsbD_even _ _ hL,getLsbD_odd _ _ hL,
    h₀,h₁,h8,hodd,heven,Nat.add_sub_cancel]
  refine ⟨⟨?_,?_⟩,?_,?_⟩
  · rcases Nat.eq_zero_or_pos j with rfl | hpos
    · simp
    · have hprev : ¬ (2*j-1)%2 = 0 := by omega
      simp [hprev]
  · simp
  · have hnext : 1 + 2*j = 2*j+1 := by omega
    simp [hnext,h₁]
  · have hnext : ¬ (1 + (2*j+1))%2 = 1 := by omega
    simp [hnext]

def carryOutProduct (r_size size : Nat) (d : Shares n (Lint L)) (net : Net n G) (q : Fin n)
    (s i t : Nat) : Bool :=
  ((S.multByte (toBytes (byteWidth r_size) (S.optimalBuffer d r_size) 0)
    (toBytes (byteWidth r_size) (S.optimalBuffer d r_size) S.numShares) (byteWidth r_size*size)
    net).1 q s (t/8 + i*byteWidth r_size)).getLsbD (t%8)

theorem getLsbD_carryOutStep (r_size size : Nat) (hL : r_size ≤ 8*L) (d : Shares n (Lint L))
    (net : Net n G) (q : Fin n) {s i : Nat} (hs : s < S.numShares) :
    (∀ j, j < r_size/2 →
      ((S.carryOutStep r_size size d net).1 q s i).getLsbD j =
        S.carryOutProduct r_size size d net q s i (2*j) ∧
      ((S.carryOutStep r_size size d net).1 q (S.numShares + s) i).getLsbD j =
        (S.carryOutProduct r_size size d net q s i (2*j+1) ^^
          (d q (S.numShares + s) i).getLsbD (2*j+1))) ∧
    (r_size%2 = 1 → ∀ s', ((S.carryOutStep r_size size d net).1 q s' i).getLsbD (r_size/2) =
      (d q s' i).getLsbD (r_size-1)) := by
  have hge : ¬ S.numShares + s < S.numShares := by omega
  have hback : S.numShares + s - S.numShares = s := by omega
  constructor
  · intro j hj
    have hj8 : j < 8*L := by omega
    have hne : j ≠ r_size/2 := by omega
    have hlast : ∀ (x : Lint L) c, (if r_size%2 = 1 then setBit x (r_size/2) (getBit c (r_size-1))
        else x).getLsbD j = x.getLsbD j := by
      intro x c
      by_cases hodd : r_size%2 = 1
      · rw [if_pos hodd,getBit_eq,getLsbD_setBit _ _ _ _ hj8,if_neg hne]
      · rw [if_neg hodd]
    have h₀ : j/4 = 2*j/8 := by omega
    have h₁ : j/4 = (2*j+1)/8 := by omega
    constructor
    · simp only [carryOutStep,hlast,hs,if_true,getBit_byte]
      rw [getLsbD_foldl_range (L := L) _ _ _ _ hj8,if_pos hj,h₀]
      rfl
    · simp only [carryOutStep,hlast,hge,hback,if_false,getBit_byte]
      simp only [getBit_eq,bitWord_xor]
      rw [getLsbD_foldl_range (L := L) _ _ _ _ hj8,if_pos hj,h₁]
      rfl
  · intro hodd s'
    rw [carryOutStep]
    simp only [if_pos hodd]
    rw [getBit_eq,getLsbD_setBit _ _ _ _ (by omega),if_pos rfl]

theorem bitLT_eq (hL : 0 < L) (res : Shares n (Lint L)) (a : Fin n → Nat → Lint L)
    (b : Shares n (Lint L)) (ring_size size : Nat) (net : Net n G) (q : Fin n) (s i : Nat) :
    let d := (S.carryOutLoop size ring_size
      (S.carryOutStart a fun q s i => b q s i ^^^ S.aiMask q s) net).1
    (S.bitLT res a b ring_size size net).1 q s i = bitWord L ((if s = 0 then (d q 2 i).getLsbD 0
      else if s = 1 then (d q 3 i).getLsbD 0 else (res q s i).getLsbD 0) ^^ S.ai q s) := by
  intro d
  have h8 : 0 < 8*L := by omega
  simp only [bitLT,carryOut,newCarryOutAux,getBit_eq,bitWord_xor,S.getLsbD_aiMask q s h8]
  congr 2
  by_cases h₀ : s = 0
  · simp only [h₀,if_true,getLsbD_setBit _ _ _ _ h8]
    rfl
  · by_cases h₁ : s = 1
    · simp only [h₁,Nat.one_ne_zero,if_false,if_true,getLsbD_setBit _ _ _ _ h8]
      rfl
    · simp only [h₀,h₁,if_false]

end Suite

namespace Discipline
variable {n L : Nat} {G : Type} {S : Suite n L G} (D : Discipline S) {r_size size : Nat}

theorem carryOutStep_cells (hL : r_size ≤ 8*L) {d : Shares n (Lint L)} {net : Net n G}
    (hnet : D.NetOk net) {i : Nat} (hi : i < size) {f : Nat → Carry.Block} (hd : D.Cells r_size d i f) :
    D.Cells (r_size/2 + r_size%2) (S.carryOutStep r_size size d net).1 i fun j =>
      if j < r_size/2 then (f (2*j)).circle (f (2*j+1)) else f (r_size-1) := by
  have hbytes := le_byteWidth r_size
  intro j hj
  by_cases hhalf : j < r_size/2
  · simp only [if_pos hhalf]
    have hwords := fun q s (hs : s < S.numShares) =>
      S.getLsbD_optimalBuffer d hL q (i := i) hs hhalf
    have hset := fun q s (hs : s < S.numShares) =>
      (S.getLsbD_carryOutStep r_size size hL d net q (i := i) hs).1 j hhalf
    obtain ⟨hp₀,hg₀⟩ := hd (2*j) (by omega)
    obtain ⟨hp₁,hg₁⟩ := hd (2*j+1) (by omega)
    have hprod : ∀ t v w, t < r_size →
        D.Shared (fun q s => (S.optimalBuffer d r_size q (0 + s) i).getLsbD t) v →
        D.Shared (fun q s => (S.optimalBuffer d r_size q (S.numShares + s) i).getLsbD t) w →
        D.Shared (fun q s => S.carryOutProduct r_size size d net q s i t) (v && w) :=
      fun t v w ht hv hw => D.byteWords _ 0 S.numShares hnet hi (by omega) hv hw
    have hpp := hprod (2*j) _ _ (by omega)
      (D.congr hp₀ fun q s hs => by rw [Nat.zero_add,(hwords q s hs).1.1])
      (D.congr hp₁ fun q s hs => by rw [(hwords q s hs).2.1])
    have hgp := hprod (2*j+1) _ _ (by omega)
      (D.congr hg₀ fun q s hs => by rw [Nat.zero_add,(hwords q s hs).1.2])
      (D.congr hp₁ fun q s hs => by rw [(hwords q s hs).2.2])
    exact ⟨D.congr hpp fun q s hs => (hset q s hs).1,
      D.congr (D.xor hgp hg₁) fun q s hs => (hset q s hs).2⟩
  · have hodd : r_size%2 = 1 := by omega
    have hj : j = r_size/2 := by omega
    subst hj
    have hset := fun q s (hs : s < S.numShares) =>
      (S.getLsbD_carryOutStep r_size size hL d net q (i := i) hs).2 hodd
    simp only [Nat.lt_irrefl,if_false]
    obtain ⟨hp,hg⟩ := hd (r_size-1) (by omega)
    exact ⟨D.congr hp fun q s hs => hset q s hs s,
      D.congr hg fun q s hs => hset q s hs (S.numShares + s)⟩

theorem carryOutLoop_cells (size : Nat) (hL : r_size ≤ 8*L) (hpos : 0 < r_size)
    {d : Shares n (Lint L)} {net : Net n G} (hnet : D.NetOk net) :
    D.NetOk (S.carryOutLoop size r_size d net).2 ∧ ∀ i, i < size → ∀ f, D.Cells r_size d i f →
      D.Cells 1 (S.carryOutLoop size r_size d net).1 i fun _ => blocks f 0 r_size := by
  induction r_size using Nat.strong_induction_on generalizing d net with
  | _ r_size ih =>
    rw [Suite.carryOutLoop]
    by_cases hone : 1 < r_size
    · rw [if_pos hone]
      obtain ⟨hok,hcells⟩ := ih (r_size/2 + r_size%2) (by omega) (by omega) (by omega)
        (d := (S.carryOutStep r_size size d net).1) (D.byteNet _ _ _ hnet)
      refine ⟨hok,fun i hi f hd => ?_⟩
      have hend := hcells i hi _ (D.carryOutStep_cells hL hnet hi hd)
      rwa [blocks_halve (f := f) r_size (fun j hj => by rw [if_pos hj])
        (fun _ => by rw [if_neg (Nat.lt_irrefl _)])] at hend
    · rw [if_neg hone]
      have hr : r_size = 1 := by omega
      subst hr
      refine ⟨hnet,fun i _ f hd x hx => ?_⟩
      have hx0 : x = 0 := by omega
      subst hx0
      simpa only [blocks_one] using hd 0 hx

theorem carryOutStart_cells {k : Nat} (hL : k ≤ 8*L)
    (hpub : ∀ c, D.Shared (fun q s => c && S.ai q s) c) {a : Fin n → Nat → Lint L}
    {b : Shares n (Lint L)} {i : Nat} {x y : BitVec k}
    (ha : ∀ q j, j < k → (a q i).getLsbD j = x.getLsbD j)
    (hb : ∀ j, j < k → D.Shared (fun q s => (b q s i).getLsbD j) (y.getLsbD j)) :
    D.Cells k (S.carryOutStart a fun q s i => b q s i ^^^ S.aiMask q s) i
      (adder x (~~~y) true) := by
  have hge : ∀ s, ¬ S.numShares + s < S.numShares := fun s => by omega
  have hflip : ∀ j, j < k → D.Shared (fun q s => (b q s i ^^^ S.aiMask q s).getLsbD j)
      ((~~~y).getLsbD j) := by
    intro j hj
    have hval : (~~~y).getLsbD j = (y.getLsbD j ^^ true) := by simp [hj,-BitVec.getLsbD_eq_getElem]
    rw [hval]
    refine D.congr (D.xor (hb j hj) (hpub true)) fun q s _ => ?_
    rw [BitVec.getLsbD_xor,S.getLsbD_aiMask q s (by omega),Bool.true_and]
  have hp : ∀ j, j < k → D.Shared (fun q s =>
      ((a q i &&& S.aiMask q s) ^^^ (b q s i ^^^ S.aiMask q s)).getLsbD j)
      (adder x (~~~y) true j).p := by
    intro j hj
    refine D.congr (D.xor (hpub (x.getLsbD j)) (hflip j hj)) fun q s _ => ?_
    rw [BitVec.getLsbD_xor,BitVec.getLsbD_and,ha q j hj,S.getLsbD_aiMask q s (by omega)]
  have hg : ∀ j, j < k → D.Shared (fun q s => (a q i &&& (b q s i ^^^ S.aiMask q s)).getLsbD j)
      (x.getLsbD j && (~~~y).getLsbD j) := by
    intro j hj
    refine D.congr (D.and_public (hflip j hj) (x.getLsbD j)) fun q s _ => ?_
    rw [BitVec.getLsbD_and,ha q j hj]
  intro j hj
  have hj8 : j < 8*L := by omega
  constructor
  · refine D.congr (hp j hj) fun q s hs => ?_
    simp only [Suite.carryOutStart,hs,if_true]
  · cases j with
    | zero =>
      refine D.congr (D.xor (hg 0 hj) (hp 0 hj)) fun q s _ => ?_
      simp only [Suite.carryOutStart,hge,if_false,Nat.add_sub_cancel_left,getBit_eq,bitWord_xor,
        getLsbD_setBit _ _ _ _ hj8,if_true]
    | succ j =>
      have hval : (adder x (~~~y) true (j+1)).g = (x.getLsbD (j+1) && (~~~y).getLsbD (j+1)) := by
        simp [adder]
      rw [hval]
      refine D.congr (hg (j+1) hj) fun q s _ => ?_
      simp only [Suite.carryOutStart,hge,if_false,Nat.add_sub_cancel_left,getBit_eq,bitWord_xor,
        getLsbD_setBit _ _ _ _ hj8,Nat.succ_ne_zero]

theorem bitLT_shared (size : Nat) (hN : S.numShares = 2) {k : Nat} (hk : 0 < k) (hL : k ≤ 8*L)
    (hpub : ∀ c, D.Shared (fun q s => c && S.ai q s) c) (res : Shares n (Lint L))
    {a : Fin n → Nat → Lint L} {b : Shares n (Lint L)} {net : Net n G} (hnet : D.NetOk net) :
    D.NetOk (S.bitLT res a b k size net).2 ∧ ∀ i, i < size → ∀ x y : BitVec k,
      (∀ q j, j < k → (a q i).getLsbD j = x.getLsbD j) →
      (∀ j, j < k → D.Shared (fun q s => (b q s i).getLsbD j) (y.getLsbD j)) →
      ∃ c, D.Shared c (x.ult y) ∧
        ∀ q s, s < 2 → (S.bitLT res a b k size net).1 q s i = bitWord L (c q s) := by
  obtain ⟨hok,hcells⟩ := D.carryOutLoop_cells size
    (d := S.carryOutStart a fun q s i => b q s i ^^^ S.aiMask q s) hL hk hnet
  refine ⟨hok,fun i hi x y ha hb => ?_⟩
  have hcarry := (hcells i hi _ (D.carryOutStart_cells hL hpub ha hb) 0
    Nat.one_pos).2
  have hult : x.ult y = ((blocks (adder x (~~~y) true) 0 k).g ^^ true) := by
    rw [ult_blocks x y hk,Bool.xor_true]
  rw [hult]
  refine ⟨_,D.xor hcarry (hpub true),fun q s hs => ?_⟩
  rw [S.bitLT_eq (by omega)]
  have hs' : s = 0 ∨ s = 1 := by omega
  rcases hs' with rfl | rfl <;> simp [hN]

end Discipline
end RssRing
