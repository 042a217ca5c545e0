import RssRing.ProtocolsComposite.B2a
import RssRing.ProtocolsComposite.NBitAdd
set_option autoImplicit false

namespace RssRing
open Replicated Carry

variable {n L k : Nat} {G : Type}

structure BitAddTrunc (n L : Nat) (G : Type) where
  res : Shares n (Lint L)
  carry : Shares n (Lint L)
  net : Net n G

namespace Suite

/-- `Rss_BitAdd_trunc`: the carries out of the low `m` bits and out of the ring, and the
top bit of the sum. -/
def bitAddTrunc (S : Suite n L G) (res a b : Shares n (Lint L)) (ring_size m size : Nat)
    (net : Net n G) : BitAddTrunc n L G :=
  let e := S.multBitwise res a b size ring_size net
  let d := fun q s i =>
    if s < S.numShares then a q s i ^^^ b q s i else e.1 q (s - S.numShares) i
  let d := S.circleOpL d ring_size size e.2
  let res := fun q s i => (a q s i ^^^ b q s i) ^^^ (d.1 q (S.numShares + s) i <<< 1)
  let carry := fun q s i =>
    if i < size then getBit (d.1 q (S.numShares + s) i) (m-1)
    else if i < 2*size then getBit (d.1 q (S.numShares + s) (i - size)) (ring_size-1)
    else getBit (res q s (i - 2*size)) (ring_size-1)
  ⟨res,carry,d.2⟩

/-- `Rss_nBitAdd_trunc` for a threshold of one. -/
def nBitAddTrunc (S : Suite 3 L G) (res r_bitwise : Shares 3 (Lint L)) (ring_size m size : Nat)
    (net : Net 3 G) : BitAddTrunc 3 L G :=
  S.bitAddTrunc res r_bitwise (fun p s i => r_bitwise p s (size + i)) ring_size m size net

end Suite

namespace Discipline
variable {S : Suite n L G} {D : Discipline S} {H : Pattern (Fin n) (Finset (Fin n))}

theorem Replicates.bitAddTrunc (hD : D.Replicates H) (hk : k ≤ 8*L) {m : Nat} (hm : 0 < m)
    (hmk : m ≤ k) (res : Shares n (Lint L)) {a b : Shares n (Lint L)} (size : Nat) {net : Net n G}
    (hnet : H.Consistent net) :
    let out := S.bitAddTrunc res a b k m size net
    H.Consistent out.net ∧ ∀ i, i < size → ∀ x y : BitVec k,
      BitSharing H k a i x → BitSharing H k b i y → BitSharing H k out.res i (x + y) ∧
        BitSharing H k out.carry i (bitVal k (BitVec.carry m x y false)) ∧
        BitSharing H k out.carry (size + i) (bitVal k (BitVec.carry k x y false)) ∧
        BitSharing H k out.carry (2*size + i) (bitVal k ((x + y).getLsbD (k-1))) := by
  intro out
  obtain ⟨hok,hsum⟩ := hD.bitAdd hk res size hnet (a := a) (b := b)
  refine ⟨hok,fun i hi x y ha hb => ?_⟩
  have hres := hsum i hi x y ha hb
  have hcells := D.bitAdd_cells size res ((hD.netOk net).mpr hnet) hi
    (fun j hj => (hD.shared _ _).mpr (ha j hj)) fun j hj => (hD.shared _ _).mpr (hb j hj)
  have hmult := D.bitwiseNet res a b size k ((hD.netOk net).mpr hnet)
  have hcarry := fun j (hj : j < k) =>
    (hD.shared _ _).mp (D.sum_shared size hk hmult hi hcells hj).1
  have hlow := hcarry (m-1) (by omega)
  have htop := hcarry (k-1) (by omega)
  rw [Nat.sub_add_cancel hm] at hlow
  rw [Nat.sub_add_cancel (by omega : 1 ≤ k)] at htop
  refine ⟨hres,fun j hj => ?_,fun j hj => ?_,fun j hj => ?_⟩
  · refine (getBit_isSharing hk hlow j hj).congr fun p s _ => ?_
    simp only [out,Suite.bitAddTrunc,if_pos hi]
  · refine (getBit_isSharing hk htop j hj).congr fun p s _ => ?_
    simp only [out,Suite.bitAddTrunc,if_neg (by omega : ¬ size + i < size),
      if_pos (by omega : size + i < 2*size),Nat.add_sub_cancel_left]
  · refine (getBit_isSharing hk (hres (k-1) (by omega)) j hj).congr fun p s _ => ?_
    simp only [out,Suite.bitAddTrunc,if_neg (by omega : ¬ 2*size + i < size),
      if_neg (by omega : ¬ 2*size + i < 2*size),Nat.add_sub_cancel_left]
    rfl

end Discipline
end RssRing
