import RssRing.ProtocolsComposite.BitAdd
set_option autoImplicit false

namespace RssRing
open Replicated Carry

namespace Suite
variable {n L : Nat} {G : Type} (S : Suite n L G)

/-- `CarryBuffer_Lint`: the bits of `CarryBuffer2` in words of their own, over what these
held before. -/
def carryBufferLint (index : List (Nat × Nat)) (a_prime b_prime d : Shares n (Lint L)) :
    Shares n (Lint L) × Shares n (Lint L) :=
  (fun q s i => (List.range index.length).foldl (fun x j =>
    let mask1p := (index.getD j (0,0)).1
    setBit (setBit x (2*j) (getBit (d q s i) mask1p)) (2*j+1)
      (getBit (d q (S.numShares + s) i) mask1p)) (a_prime q s i),
  fun q s i => (List.range index.length).foldl (fun x j =>
    let mask2p := (index.getD j (0,0)).2
    setBit (setBit x (2*j) (getBit (d q s i) mask2p)) (2*j+1) (getBit (d q s i) mask2p))
      (b_prime q s i))

structure CircleLintState (n L : Nat) (G : Type) where
  d : Shares n (Lint L)
  a_prime : Shares n (Lint L)
  b_prime : Shares n (Lint L)
  u_prime : Shares n (Lint L)
  net : Net n G

def circleRoundLint (r_size size i : Nat) (st : CircleLintState n L G) : CircleLintState n L G :=
  let index := circleIndex r_size i
  let op_r := index.length
  let buffer := S.carryBufferLint index st.a_prime st.b_prime st.d
  let u_prime := S.multBitwise st.u_prime buffer.1 buffer.2 size r_size st.net
  let d := fun q s l => (List.range op_r).foldl (fun x j =>
    let mask2 := (index.getD j (0,0)).2
    if s < S.numShares then
      setBit x mask2 (getBit (u_prime.1 q s l) (2*j))
    else
      setBit x mask2 (getBit (u_prime.1 q (s - S.numShares) l) (2*j+1) ^^^ getBit x mask2))
    (st.d q s l)
  ⟨d,buffer.1,buffer.2,u_prime.1,u_prime.2⟩

/-- `Rss_CircleOpL_Lint` and `Rss_CircleOpL_Lint_mp`; the last three arrays are the ones it
allocates. -/
def circleOpLLint (d : Shares n (Lint L)) (r_size size : Nat) (net : Net n G)
    (a_prime b_prime u_prime : Shares n (Lint L)) : Shares n (Lint L) × Net n G :=
  if 1 < r_size then
    let st := (List.range (Nat.clog 2 r_size)).foldl
      (fun st r => S.circleRoundLint r_size size (r+1) st) ⟨d,a_prime,b_prime,u_prime,net⟩
    (st.d,st.net)
  else (d,net)

/-- The same code with the buffers cleared only where they are allocated. -/
def keepsBuffer : Suite n L G := { S with clearsBuffer := false }

theorem carryBufferLint_gathered (index : List (Nat × Nat)) (a_prime b_prime d : Shares n (Lint L))
    (l : Nat) (hL : 2*index.length ≤ 8*L) :
    S.Gathered index d (S.carryBufferLint index a_prime b_prime d).1
      (S.carryBufferLint index a_prime b_prime d).2 l := by
  constructor <;> intro q s j hs hj
  all_goals
    simp only [carryBufferLint,getBit_eq]
    exact getLsbD_foldl_pair _ _ _ hL hj

variable {r_size r : Nat}

theorem circleRoundLint_placed (hL : r_size ≤ 8*L) (hr : r < Nat.clog 2 r_size) (size : Nat)
    (st : CircleLintState n L G) (l : Nat) :
    S.Placed (circleIndex r_size (r+1))
      (fun q s t => ((S.circleRoundLint r_size size (r+1) st).u_prime q s l).getLsbD t) st.d
      (S.circleRoundLint r_size size (r+1) st).d l := by
  refine S.placed_foldl hL hr _ (fun q s hs => ?_) fun q s hs => ?_
  · simp only [circleRoundLint,hs,if_true,getBit_eq]
  · have hge : ¬ S.numShares + s < S.numShares := by omega
    simp only [circleRoundLint,hge,Nat.add_sub_cancel_left,if_false,getBit_eq,bitWord_xor]

end Suite

namespace Discipline
variable {n L : Nat} {G : Type} {S : Suite n L G} (D : Discipline S) {r_size r size : Nat}

/-- Clearing the buffers is not what makes the bits come out right. -/
def keepsBuffer : Discipline S.keepsBuffer where
  Shared := D.Shared
  NetOk := D.NetOk
  congr := D.congr
  zero := D.zero
  xor := D.xor
  byteNet := D.byteNet
  byteBit := D.byteBit
  bitwiseNet := D.bitwiseNet
  bitwiseBit := D.bitwiseBit

theorem circleRoundLint_cells (hL : r_size ≤ 8*L) (hr : r < Nat.clog 2 r_size)
    {st : Suite.CircleLintState n L G} (hnet : D.NetOk st.net) {l : Nat} (hl : l < size)
    {f : Nat → Carry.Block} (hd : D.Cells r_size st.d l (prefixBlock f r)) :
    D.Cells r_size (S.circleRoundLint r_size size (r+1) st).d l (prefixBlock f (r+1)) := by
  have hlen : 2*(circleIndex r_size (r+1)).length ≤ r_size := length_circleIndex hr
  refine D.cells_round hL hr (S.carryBufferLint_gathered _ st.a_prime st.b_prime st.d l (by omega))
    (S.circleRoundLint_placed hL hr size st l) (fun t v w ht hv hw => ?_) hd
  exact D.bitwiseBit st.u_prime _ _ hnet hl (by omega) hv hw

theorem circleOpLLint_cells (size : Nat) (hL : r_size ≤ 8*L) {d : Shares n (Lint L)}
    {net : Net n G} (hnet : D.NetOk net) (a_prime b_prime u_prime : Shares n (Lint L)) :
    D.NetOk (S.circleOpLLint d r_size size net a_prime b_prime u_prime).2 ∧
      ∀ l, l < size → ∀ f, D.Cells r_size d l f →
        D.Cells r_size (S.circleOpLLint d r_size size net a_prime b_prime u_prime).1 l
          fun x => blocks f 0 (x+1) := by
  by_cases hone : 1 < r_size
  · rw [Suite.circleOpLLint,if_pos hone]
    exact D.cells_rounds Suite.CircleLintState.d Suite.CircleLintState.net
      (fun r st => S.circleRoundLint r_size size (r+1) st)
      (fun r st h => D.bitwiseNet _ _ _ _ _ h)
      (fun r st hr h l hl f hd => D.circleRoundLint_cells hL hr h hl hd)
      ⟨d,a_prime,b_prime,u_prime,net⟩ hnet
  · rw [Suite.circleOpLLint,if_neg hone]
    exact ⟨hnet,fun l _ f hd => D.cells_single hone hd⟩

end Discipline

section Routines
variable {L : Nat} {G : Type} [Generator G]

def adders3pc : Suite 3 L G := suite3pc fun _ _ _ => 0
def adders5pc : Suite 5 L G := suite5pc fun _ _ _ _ _ _ _ => 0

def rssCircleOpL (d : Shares 3 (Lint L)) (r_size size : Nat) (net : Net 3 G) :
    Shares 3 (Lint L) × Net 3 G :=
  adders3pc.circleOpL d r_size size net

def rssCircleOpLLint (d : Shares 3 (Lint L)) (r_size size : Nat) (net : Net 3 G)
    (a_prime b_prime u_prime : Shares 3 (Lint L)) : Shares 3 (Lint L) × Net 3 G :=
  adders3pc.circleOpLLint d r_size size net a_prime b_prime u_prime

def rssCircleOpLMp (d : Shares 5 (Lint L)) (r_size size : Nat) (net : Net 5 G) :
    Shares 5 (Lint L) × Net 5 G :=
  adders5pc.keepsBuffer.circleOpL d r_size size net

def rssCircleOpLMpTest (d : Shares 5 (Lint L)) (r_size size : Nat) (net : Net 5 G) :
    Shares 5 (Lint L) × Net 5 G :=
  adders5pc.circleOpL d r_size size net

def rssCircleOpLLintMp (d : Shares 5 (Lint L)) (r_size size : Nat) (net : Net 5 G)
    (a_prime b_prime u_prime : Shares 5 (Lint L)) : Shares 5 (Lint L) × Net 5 G :=
  adders5pc.circleOpLLint d r_size size net a_prime b_prime u_prime

end Routines

section Words
variable {k : Nat}

def wordBlocks (p g : BitVec k) (x : Nat) : Carry.Block := ⟨p.getLsbD x,g.getLsbD x⟩

def prefixWords (p g : BitVec k) : BitVec k × BitVec k :=
  (ofBits k fun x => (blocks (wordBlocks p g) 0 (x+1)).p,
    ofBits k fun x => (blocks (wordBlocks p g) 0 (x+1)).g)

def PairSharing {n L : Nat} (H : Pattern (Fin n) (Finset (Fin n))) (k : Nat)
    (d : Shares n (Lint L)) (i : Nat) (v : BitVec k × BitVec k) : Prop :=
  BitSharing H k d i v.1 ∧ BitSharing H k (fun q s => d q (H.slots + s)) i v.2

variable {n L : Nat} {H : Pattern (Fin n) (Finset (Fin n))} {d : Shares n (Lint L)} {i : Nat}

theorem pairSharing_iff (f : Nat → Carry.Block) :
    PairSharing H k d i (ofBits k fun x => (f x).p,ofBits k fun x => (f x).g) ↔
      ∀ x, x < k → H.IsSharing (fun q s => (d q s i).getLsbD x) (f x).p ∧
        H.IsSharing (fun q s => (d q (H.slots + s) i).getLsbD x) (f x).g := by
  constructor
  · intro h x hx
    have hp := h.1 x hx
    have hg := h.2 x hx
    rw [getLsbD_ofBits,decide_eq_true hx,Bool.true_and] at hp hg
    exact ⟨hp,hg⟩
  · intro h
    constructor <;> intro x hx
    · rw [getLsbD_ofBits,decide_eq_true hx,Bool.true_and]
      exact (h x hx).1
    · rw [getLsbD_ofBits,decide_eq_true hx,Bool.true_and]
      exact (h x hx).2

end Words

section Agreement
variable {L k : Nat} {G : Type} [Generator G]

theorem circleOpL3pc_words (hk : k ≤ 8*L) (size : Nat) {d : Shares 3 (Lint L)} {i : Nat}
    (hi : i < size) {p g : BitVec k} (hd : PairSharing shares3pc k d i (p,g)) :
    (∀ net : Net 3 G, shares3pc.Consistent net →
      PairSharing shares3pc k (rssCircleOpL d k size net).1 i (prefixWords p g)) ∧
    ∀ (net : Net 3 G) (a_prime b_prime u_prime : Shares 3 (Lint L)), shares3pc.Consistent net →
      PairSharing shares3pc k (rssCircleOpLLint d k size net a_prime b_prime u_prime).1 i
        (prefixWords p g) := by
  let D := replicated3pc (L := L) (G := G) fun _ _ _ => 0
  have hcells : D.Cells k d i (wordBlocks p g) := fun x hx => ⟨hd.1 x hx,hd.2 x hx⟩
  constructor
  · intro net hnet
    exact (pairSharing_iff _).mpr ((D.circleOpL_cells size hk hnet).2 i hi _ hcells)
  · intro net a_prime b_prime u_prime hnet
    exact (pairSharing_iff _).mpr
      ((D.circleOpLLint_cells size hk hnet a_prime b_prime u_prime).2 i hi _ hcells)

theorem circleOpL5pc_words (hk : k ≤ 8*L) (size : Nat) {d : Shares 5 (Lint L)} {i : Nat}
    (hi : i < size) {p g : BitVec k} (hd : PairSharing shares5pc k d i (p,g)) :
    (∀ net : Net 5 G, shares5pc.Consistent net →
      PairSharing shares5pc k (rssCircleOpLMp d k size net).1 i (prefixWords p g) ∧
      PairSharing shares5pc k (rssCircleOpLMpTest d k size net).1 i (prefixWords p g)) ∧
    ∀ (net : Net 5 G) (a_prime b_prime u_prime : Shares 5 (Lint L)), shares5pc.Consistent net →
      PairSharing shares5pc k (rssCircleOpLLintMp d k size net a_prime b_prime u_prime).1 i
        (prefixWords p g) := by
  let D := replicated5pc (L := L) (G := G) fun _ _ _ _ _ _ _ => 0
  have hcells : D.Cells k d i (wordBlocks p g) := fun x hx => ⟨hd.1 x hx,hd.2 x hx⟩
  constructor
  · intro net hnet
    exact ⟨(pairSharing_iff _).mpr ((D.keepsBuffer.circleOpL_cells size hk hnet).2 i hi _ hcells),
      (pairSharing_iff _).mpr ((D.circleOpL_cells size hk hnet).2 i hi _ hcells)⟩
  · intro net a_prime b_prime u_prime hnet
    exact (pairSharing_iff _).mpr
      ((D.circleOpLLint_cells size hk hnet a_prime b_prime u_prime).2 i hi _ hcells)

/-- The word-level and the byte-packed adders leave sharings of the same prefix words, each
on streams of its own. -/
theorem circleOpL_family (hk : k ≤ 8*L) (size : Nat) :
    (∀ (d : Shares 3 (Lint L)) (i : Nat) (p g : BitVec k), i < size →
      PairSharing shares3pc k d i (p,g) →
      ∀ (net net' : Net 3 G) (a_prime b_prime u_prime : Shares 3 (Lint L)),
        shares3pc.Consistent net → shares3pc.Consistent net' →
        PairSharing shares3pc k (rssCircleOpL d k size net).1 i (prefixWords p g) ∧
        PairSharing shares3pc k (rssCircleOpLLint d k size net' a_prime b_prime u_prime).1 i
          (prefixWords p g)) ∧
    ∀ (d : Shares 5 (Lint L)) (i : Nat) (p g : BitVec k), i < size →
      PairSharing shares5pc k d i (p,g) →
      ∀ (net net' net'' : Net 5 G) (a_prime b_prime u_prime : Shares 5 (Lint L)),
        shares5pc.Consistent net → shares5pc.Consistent net' → shares5pc.Consistent net'' →
        PairSharing shares5pc k (rssCircleOpLMp d k size net).1 i (prefixWords p g) ∧
        PairSharing shares5pc k (rssCircleOpLMpTest d k size net').1 i (prefixWords p g) ∧
        PairSharing shares5pc k (rssCircleOpLLintMp d k size net'' a_prime b_prime u_prime).1 i
          (prefixWords p g) := by
  constructor
  · intro d i p g hi hd net net' a_prime b_prime u_prime hnet hnet'
    obtain ⟨hbytes,hwords⟩ := circleOpL3pc_words (G := G) hk size hi hd
    exact ⟨hbytes net hnet,hwords net' a_prime b_prime u_prime hnet'⟩
  · intro d i p g hi hd net net' net'' a_prime b_prime u_prime hnet hnet' hnet''
    obtain ⟨hbytes,hwords⟩ := circleOpL5pc_words (G := G) hk size hi hd
    exact ⟨(hbytes net hnet).1,(hbytes net' hnet').2,
      hwords net'' a_prime b_prime u_prime hnet''⟩

end Agreement

theorem circleOpL_family_three :
    let net : Net 3 Tape := fun _ _ => ⟨fun i => BitVec.ofNat 8 (3*i+1)⟩
    let d : Shares 3 (Lint 4) := fun _ s _ => if s < 2 then 2 else 1
    PairSharing shares3pc 3 (rssCircleOpL d 3 1 net).1 0 (0,3) ∧
      PairSharing shares3pc 3 (rssCircleOpLLint d 3 1 net (fun _ _ _ => 7) (fun _ _ _ => 9)
        fun _ _ _ => 8).1 0 (0,3) := by
  intro net d
  have hnet : shares3pc.Consistent net := fun _ _ _ _ _ _ _ => rfl
  have hwords : prefixWords (2 : BitVec 3) 1 = (0,3) := by decide
  rw [← hwords]
  refine (circleOpL_family (L := 4) (k := 3) (by decide) 1).1 d 0 2 1 (by decide) ⟨?_,?_⟩ net net
    _ _ _ hnet hnet
  · intro j _
    refine ⟨fun _ => (2 : Lint 4).getLsbD j,fun p s hs => ?_,by decide +revert⟩
    have hs : s < 2 := hs
    simp only [d,if_pos hs]
  · intro j _
    refine ⟨fun _ => (1 : Lint 4).getLsbD j,fun p s _ => ?_,by decide +revert⟩
    have hs : ¬ shares3pc.slots + s < 2 := Nat.not_lt.mpr (Nat.le_add_right 2 s)
    simp only [d,if_neg hs]

end RssRing
