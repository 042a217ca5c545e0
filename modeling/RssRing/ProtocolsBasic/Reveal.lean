import RssRing.ProtocolsBasic.Mult
import RssRing.ProtocolsBasic.MultPub
set_option autoImplicit false

namespace RssRing
open Replicated Finset

variable {G W : Type} [Generator G] {L n k : Nat}

/-- `Rss_Open` among three parties. `a[1]` is cut to the ring size while it is sent. -/
def rssOpen (a : Shares 3 (Lint L)) (ring_size : Nat) (p : Fin 3) (i : Nat) : Lint L :=
  let K := arithKind L ring_size
  masked ring_size (a p 0 i + K.sent (a p 1 i) + sendAndGetDataFromPeer K (fun q => a q 1) p i)

def rssOpenBitwise (a : Shares 3 (Lint L)) (ring_size : Nat) (p : Fin 3) (i : Nat) : Lint L :=
  let K := bitwiseKind L ring_size
  masked ring_size (a p 0 i ^^^ K.sent (a p 1 i) ^^^ sendAndGetDataFromPeer K (fun q => a q 1) p i)

def rssOpenByte (a : Shares 3 Byte) (p : Fin 3) (i : Nat) : Byte :=
  a p 0 i ^^^ a p 1 i ^^^ sendAndGetDataFromPeer byteKind (fun q => a q 1) p i

/-- What a call of an opening leaves in `res` and in the array it was handed. -/
structure Opened (n w : Nat) where
  res : Fin n → Nat → BitVec w
  shares : Shares n (BitVec w)

/-- `sendDataToPeer` cuts the words in the array it is given, here `a[1]`. -/
def sendInPlace {w : Nat} (K : WordKind (BitVec w)) (size : Nat) (a : Shares 3 (BitVec w)) :
    Shares 3 (BitVec w) := fun p s i => if s = 1 ∧ i < size then K.sent (a p s i) else a p s i

def callOpen (a : Shares 3 (Lint L)) (size ring_size : Nat) : Opened 3 (8*L) :=
  ⟨rssOpen a ring_size,sendInPlace (arithKind L ring_size) size a⟩

def callOpenBitwise (a : Shares 3 (Lint L)) (size ring_size : Nat) : Opened 3 (8*L) :=
  ⟨rssOpenBitwise a ring_size,sendInPlace (bitwiseKind L ring_size) size a⟩

def callOpenByte (a : Shares 3 Byte) (size : Nat) : Opened 3 8 :=
  ⟨rssOpenByte a,sendInPlace byteKind size a⟩

/-- Among five parties it is the local arrays `sendbuf` that are cut. -/
def callOpenMp (a : Shares 5 (Lint L)) (ring_size : Nat) : Opened 5 (8*L) :=
  ⟨rssOpenMp a ring_size,a⟩

def callOpenBitwiseMp (a : Shares 5 (Lint L)) (ring_size : Nat) : Opened 5 (8*L) :=
  ⟨rssOpenBitwiseMp a ring_size,a⟩

def callOpenByteMp (a : Shares 5 Byte) : Opened 5 8 := ⟨rssOpenByteMp a,a⟩

structure Opened.Reveals {w : Nat} (o : Opened n w) (a : Shares n (BitVec w)) (i : Nat)
    (v : BitVec k) : Prop where
  res : ∀ p, o.res p i = v.setWidth w
  shares : ∀ p s, (o.shares p s i).setWidth k = (a p s i).setWidth k

def opa : Fin 3 → Int
  | 0 => 1 | 1 => -1 | 2 => -1

def opb : Fin 3 → Int
  | 0 => 1 | 1 => 1 | 2 => -1

/-- `Rss_MultPub` among three parties. Only the low bytes of each element of
`v_a` and `c` are written before they are used. -/
def rssMultPub (v_a c : Fin 3 → Nat → Lint L) (a b : Shares 3 (Lint L)) (size ring_size : Nat)
    (net : Net 3 G) : (Fin 3 → Nat → Lint L) × Net 3 G :=
  let K := arithKind L ring_size
  let v_a := fun p i => K.load (v_a p i) (net.random 0 K.bytes size p) i
  let net₁ := net.advance 0 K.bytes size
  let c := fun p i => K.load (c p i) (net₁.random 1 K.bytes size p) i
  let v := fun p i => product3pc K (fun s => a p s i) (fun s => b p s i)
  let c := fun p i =>
    v p i + BitVec.ofInt (8*L) (opb p)*c p i + BitVec.ofInt (8*L) (opa p)*v_a p i
  let recvbuf := fun q i => received ring_size (c q i)
  (fun p i => masked ring_size (c p i + recvbuf (p + 2) i + recvbuf (p + 1) i),
    net₁.advance 1 K.bytes size)

theorem rssOpen_val (hk : k ≤ 8*L) (a : Shares 3 (Lint L)) (p : Fin 3) (i : Nat) (v : BitVec k) :
    rssOpen a k p i = v.setWidth (8*L) ↔ (a p 0 i).setWidth k + (a p 1 i).setWidth k +
      (a (p + 1) 1 i).setWidth k = v := by
  have hsent : (masked k (a p 1 i)).setWidth k = (a p 1 i).setWidth k := (arithReading hk).sent _
  have hrecv : (received k (a (p + 1) 1 i)).setWidth k = (a (p + 1) 1 i).setWidth k :=
    (arithReading hk).recv _
  rw [rssOpen,masked_eq_iff hk,sendAndGetDataFromPeer_eq,BitVec.setWidth_add _ _ hk,
    BitVec.setWidth_add _ _ hk]
  simp only [arithKind,hsent,hrecv]

theorem sum_next {R : Type} [AddCommMonoid R] (f : Fin 3 → R) (p : Fin 3) :
    f p + f (p + 1) + f (p + 2) = ∑ q, f q := by
  have hshift : ∑ q, f (p + q) = ∑ q, f q := Fintype.sum_equiv (Equiv.addLeft p) _ _ fun _ => rfl
  rw [← hshift,Fin.sum_univ_three,add_zero]

theorem isSharing3pc_sum {R : Type} [AddCommMonoid R] {x : Fin 3 → Nat → R} {v : R}
    (hx : shares3pc.IsSharing x v) (p : Fin 3) : x p 0 + x p 1 + x (p + 1) 1 = v := by
  obtain ⟨hnext,hsum⟩ := isSharing3pc_iff.mp hx
  have htwo : p + 1 + 1 = p + 2 := by rw [add_assoc]; rfl
  rw [hnext p,hnext (p + 1),htwo,sum_next (fun q => x q 0),hsum]

theorem rssOpen_eq (hk : k ≤ 8*L) {a : Shares 3 (Lint L)} {i : Nat} {v : BitVec k}
    (ha : ArithSharing shares3pc k a i v) (p : Fin 3) : rssOpen a k p i = v.setWidth (8*L) :=
  (rssOpen_val hk a p i v).mpr (isSharing3pc_sum ha p)

theorem rssOpenBitwise_eq (hk : k ≤ 8*L) {a : Shares 3 (Lint L)} {i : Nat} {v : BitVec k}
    (ha : BitSharing shares3pc k a i v) (p : Fin 3) :
    rssOpenBitwise a k p i = v.setWidth (8*L) := by
  rw [rssOpenBitwise,masked_eq_iff hk]
  apply BitVec.eq_of_getLsbD_eq
  intro j hj
  have hsent : ((bitwiseKind L k).sent (a p 1 i)).getLsbD j = (a p 1 i).getLsbD j :=
    (bitReading L hj).sent _
  have hrecv : ((bitwiseKind L k).recv (a (p + 1) 1 i)).getLsbD j = (a (p + 1) 1 i).getLsbD j :=
    (bitReading L hj).recv _
  rw [BitVec.getLsbD_setWidth,decide_eq_true hj,Bool.true_and,sendAndGetDataFromPeer_eq,
    BitVec.getLsbD_xor,BitVec.getLsbD_xor,hsent,hrecv]
  exact isSharing3pc_sum (ha j hj) p

theorem rssOpenByte_eq {a : Shares 3 Byte} {i : Nat} {v : Byte}
    (ha : BitSharing shares3pc 8 a i v) (p : Fin 3) : rssOpenByte a p i = v := by
  apply BitVec.eq_of_getLsbD_eq
  intro j hj
  rw [rssOpenByte,sendAndGetDataFromPeer_eq,BitVec.getLsbD_xor,BitVec.getLsbD_xor]
  exact isSharing3pc_sum (ha j hj) p

theorem sendInPlace_setWidth {w : Nat} {K : WordKind (BitVec w)}
    (hK : ∀ x, (K.sent x).setWidth k = x.setWidth k) (size : Nat) (a : Shares 3 (BitVec w))
    (p : Fin 3) (s i : Nat) : (sendInPlace K size a p s i).setWidth k = (a p s i).setWidth k := by
  by_cases h : s = 1 ∧ i < size
  · rw [sendInPlace,if_pos h,hK]
  · rw [sendInPlace,if_neg h]

/-- The openings among three and five parties. -/
theorem open_family (hk : k ≤ 8*L) (size : Nat) (a₃ : Shares 3 (Lint L)) (b₃ : Shares 3 Byte)
    (a₅ : Shares 5 (Lint L)) (b₅ : Shares 5 Byte) : ∀ i, i < size →
    (∀ v : BitVec k, ArithSharing shares3pc k a₃ i v → (callOpen a₃ size k).Reveals a₃ i v) ∧
    (∀ v : BitVec k, BitSharing shares3pc k a₃ i v →
      (callOpenBitwise a₃ size k).Reveals a₃ i v) ∧
    (∀ v : Byte, BitSharing shares3pc 8 b₃ i v → (callOpenByte b₃ size).Reveals b₃ i v) ∧
    (∀ v : BitVec k, ArithSharing shares5pc k a₅ i v → (callOpenMp a₅ k).Reveals a₅ i v) ∧
    (∀ v : BitVec k, BitSharing shares5pc k a₅ i v → (callOpenBitwiseMp a₅ k).Reveals a₅ i v) ∧
    (∀ v : Byte, BitSharing shares5pc 8 b₅ i v → (callOpenByteMp b₅).Reveals b₅ i v) := by
  intro i _
  have hcut : ∀ x : Lint L, (masked k x).setWidth k = x.setWidth k := (arithReading hk).sent
  have hbyte : ∀ v : Byte, v.setWidth 8 = v := BitVec.setWidth_eq
  refine ⟨?_,?_,?_,?_,?_,?_⟩
  · intro v ha
    exact ⟨rssOpen_eq hk ha,fun p s => sendInPlace_setWidth hcut size a₃ p s i⟩
  · intro v ha
    exact ⟨rssOpenBitwise_eq hk ha,fun p s => sendInPlace_setWidth hcut size a₃ p s i⟩
  · intro v hb
    exact ⟨fun p => (rssOpenByte_eq hb p).trans (hbyte v).symm,
      fun p s => sendInPlace_setWidth (fun _ => rfl) size b₃ p s i⟩
  · intro v ha
    exact ⟨rssOpenMp_eq hk ha,fun _ _ => rfl⟩
  · intro v ha
    exact ⟨rssOpenBitwiseMp_eq hk ha,fun _ _ => rfl⟩
  · intro v hb
    exact ⟨fun p => (rssOpenByteMp_eq hb p).trans (hbyte v).symm,fun _ _ => rfl⟩

theorem open_family_ones : (callOpen (L := 4) (fun _ _ _ => 33) 1 4).Reveals
    (fun _ _ _ => 33) 0 (3 : BitVec 4) := by
  refine (open_family (by decide) 1 _ (fun _ _ _ => 0) (fun _ _ _ => 0) (fun _ _ _ => 0) 0
    (by decide)).1 3 ?_
  exact ⟨fun _ => 1,fun _ _ _ => (by decide : (33 : Lint 4).setWidth 4 = 1),by simp⟩

theorem rssMultPub_net {net : Net 3 G} (h : shares3pc.Consistent net) (v_a c : Fin 3 → Nat → Lint L)
    (a b : Shares 3 (Lint L)) (size : Nat) :
    shares3pc.Consistent (rssMultPub v_a c a b size k net).2 := by
  have hcomm := net.advance_comm (s := 0) (t := 1) (by decide) (byteWidth k) size (byteWidth k) size
  have hnet := advance_consistent3pc h (byteWidth k) size
  rw [← hcomm] at hnet
  exact hnet

theorem sum_masks3pc {R : Type} [AddCommGroup R] (fresh : Fin 3 → R) :
    ∑ q, opb q • fresh (q + 1) + ∑ q, opa q • fresh q = 0 := by
  have h₁ : (0 : Fin 3) + 1 = 1 := rfl
  have h₂ : (1 : Fin 3) + 1 = 2 := rfl
  have h₃ : (2 : Fin 3) + 1 = 0 := rfl
  simp only [Fin.sum_univ_three,opa,opb,one_smul,neg_smul,h₁,h₂,h₃]
  abel

theorem sent3pc_val (hk : k ≤ 8*L) {net : Net 3 G} (hnet : shares3pc.Consistent net) (v : Lint L)
    (v_a c : Fin 3 → Nat → Lint L) (size i : Nat) (q : Fin 3) :
    let K := arithKind L k
    let fresh := fun q => (arithReading hk).val (mask K net size 0 q i)
    (v + BitVec.ofInt (8*L) (opb q)*
        K.load (c q i) ((net.advance 0 K.bytes size).random 1 K.bytes size q) i +
      BitVec.ofInt (8*L) (opa q)*K.load (v_a q i) (net.random 0 K.bytes size q) i).setWidth k =
    v.setWidth k + opb q • fresh (q + 1) + opa q • fresh q := by
  intro K fresh
  let ρ := arithReading hk
  have hb : opb q = 1 ∨ opb q = -1 := by revert q; decide
  have ha : opa q = 1 ∨ opa q = -1 := by revert q; decide
  have hsecond : ρ.val (K.load (c q i)
      ((net.advance 0 K.bytes size).random 1 K.bytes size q) i) = fresh (q + 1) := by
    rw [net.random_advance_of_ne (by decide),ρ.load _ K.zero]
    exact congrArg ρ.val (mask_second hnet K size q i)
  have hfirst : ρ.val (K.load (v_a q i) (net.random 0 K.bytes size q) i) = fresh q :=
    ρ.load _ K.zero _ _
  rw [BitVec.setWidth_add _ _ hk,BitVec.setWidth_add _ _ hk,MultPubTable.sign_mul_setWidth hk hb,
    MultPubTable.sign_mul_setWidth hk ha]
  exact congrArg₂ (fun x y => v.setWidth k + opb q • x + opa q • y) hsecond hfirst

theorem rssMultPub_eq (hk : k ≤ 8*L) {net : Net 3 G} (hnet : shares3pc.Consistent net)
    (v_a c : Fin 3 → Nat → Lint L) {a b : Shares 3 (Lint L)} (size : Nat) {i : Nat} {x y : BitVec k}
    (ha : ArithSharing shares3pc k a i x) (hb : ArithSharing shares3pc k b i y) (p : Fin 3) :
    (rssMultPub v_a c a b size k net).1 p i = (x*y).setWidth (8*L) := by
  let K := arithKind L k
  let v : Fin 3 → Lint L := fun q => product3pc K (fun s => a q s i) (fun s => b q s i)
  have hproduct : ∑ q, (v q).setWidth k = x*y :=
    sum_product3pc (arithReading hk) (product3pc_val _) ha hb
  let sent : Fin 3 → Lint L := fun q => v q +
    BitVec.ofInt (8*L) (opb q)*
      K.load (c q i) ((net.advance 0 K.bytes size).random 1 K.bytes size q) i +
    BitVec.ofInt (8*L) (opa q)*K.load (v_a q i) (net.random 0 K.bytes size q) i
  have hsent := fun q => sent3pc_val hk hnet (v q) v_a c size i q
  have hrecv : ∀ x : Lint L, (received k x).setWidth k = x.setWidth k := (arithReading hk).recv
  have hwords : (rssMultPub v_a c a b size k net).1 p i =
      masked k (sent p + received k (sent (p + 2)) + received k (sent (p + 1))) := rfl
  rw [hwords,masked_eq_iff hk,BitVec.setWidth_add _ _ hk,BitVec.setWidth_add _ _ hk,hrecv,hrecv,
    add_right_comm,sum_next (fun q => (sent q).setWidth k) p,← hproduct]
  have hzero := sum_masks3pc fun q => (arithReading hk).val (mask K net size 0 q i)
  simp only [sent,K,hsent,Finset.sum_add_distrib]
  rw [add_assoc,hzero,add_zero]

/-- Every party learns the same product of each element, and each masked partial
product is counted once. -/
theorem rssMultPub_public (hk : k ≤ 8*L) (size : Nat) {net : Net 3 G}
    (hnet : shares3pc.Consistent net) (v_a c : Fin 3 → Nat → Lint L) (a b : Shares 3 (Lint L)) :
    ∀ i, i < size → ∀ x y : BitVec k, ArithSharing shares3pc k a i x →
    ArithSharing shares3pc k b i y →
    ∀ p, (rssMultPub v_a c a b size k net).1 p i = (x*y).setWidth (8*L) := by
  intro i _ x y ha hb p
  exact rssMultPub_eq hk hnet v_a c size ha hb p

theorem rssMultPub_public_ones :
    (rssMultPub (L := 4) (fun _ _ => 5) (fun _ _ => 9) (fun _ _ _ => 1) (fun _ _ _ => 2) 1 6
      (fun _ _ => (⟨fun i => BitVec.ofNat 8 (3*i+1)⟩ : Tape))).1 2 0 =
    ((3 : BitVec 6)*6).setWidth 32 := by
  refine rssMultPub_public (by decide) 1 ?_ _ _ _ _ 0 (by decide) 3 6 ?_ ?_ 2
  · exact fun _ _ _ _ _ _ _ => rfl
  · exact ⟨fun _ => 1,fun _ _ _ => rfl,by simp⟩
  · exact ⟨fun _ => 2,fun _ _ _ => rfl,by simp⟩

end RssRing
