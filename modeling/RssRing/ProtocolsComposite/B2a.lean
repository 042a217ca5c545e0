import RssRing.Memory
import RssRing.ProtocolsRand.RandBit
set_option autoImplicit false

namespace RssRing
open Replicated

variable {n L k : Nat} {G : Type}

structure Suite.Opens (S : Suite n L G)
    (openBitwise : Shares n (Lint L) → Nat → Fin n → Nat → Lint L)
    (H : Pattern (Fin n) (Finset (Fin n))) (k : Nat) : Prop where
  arith : ∀ a i (v : BitVec k), ArithSharing H k a i v →
    ∀ p, S.openShares a k p i = v.setWidth (8*L)
  bitwise : ∀ a i (v : BitVec k), BitSharing H k a i v → ∀ p, openBitwise a k p i = v.setWidth (8*L)

def Suite.b2a [Generator G] (S : Suite n L G)
    (openBitwise : Shares n (Lint L) → Nat → Fin n → Nat → Lint L) (u a : Shares n (Lint L))
    (ring_size size : Nat) (net : Net n G) : Shares n (Lint L) × Net n G :=
  let b := S.randBit u size ring_size net
  let b_2 := fun p s i => getBit (b.1 p s i) 0
  let c := openBitwise (fun p s i => a p s i ^^^ b_2 p s i) ring_size
  (S.unmask c b.1,b.2)

/-- `Rss_b2a` and `Rss_b2a_mp`. The loop that writes the result does not read `a`. -/
def Suite.b2aAt [Generator G] (S : Suite n L G)
    (openBitwise : Shares n (Lint L) → Nat → Fin n → Nat → Lint L) (u : Shares n (Lint L))
    (mem : Memory n L) (res a ring_size size : Nat) (net : Net n G) : Memory n L × Net n G :=
  let out := S.b2a openBitwise u (mem a) ring_size size net
  (mem.store res size out.1,out.2)

theorem opens3pc [Generator G] (scratch : Shares 3 (Lint L)) (hk : k ≤ 8*L) :
    (suite3pc (G := G) scratch).Opens rssOpenBitwise shares3pc k where
  arith _ _ _ ha := rssOpen_eq hk ha
  bitwise _ _ _ ha := rssOpenBitwise_eq hk ha

theorem opens5pc [Generator G]
    (multPub : Shares 5 (Lint L) → Shares 5 (Lint L) → Nat → Nat → Net 5 G → Fin 5 → Nat → Lint L)
    (hk : k ≤ 8*L) : (suite5pc multPub).Opens rssOpenBitwiseMp shares5pc k where
  arith _ _ _ ha := rssOpenMp_eq hk ha
  bitwise _ _ _ ha := rssOpenBitwiseMp_eq hk ha

section Bits
variable {H : Pattern (Fin n) (Finset (Fin n))}

theorem bitVal_xor (c d : Bool) : bitVal k (c ^^ d) = bitVal k c ^^^ bitVal k d := by
  cases c <;> cases d <;> simp [bitVal_eq]

theorem getBit_isSharing (hk : k ≤ 8*L) {x : Shares n (Lint L)} {i N : Nat} {c : Bool}
    (h : H.IsSharing (fun p s => (x p s i).getLsbD N) c) :
    BitSharing H k (fun p s i => getBit (x p s i) N) i (bitVal k c) := by
  intro j hj
  rw [getLsbD_bitVal c hj]
  have hbit : ∀ p s, (getBit (x p s i) N).getLsbD j = (decide (j = 0) && (x p s i).getLsbD N) := by
    intro p s
    rw [getBit_eq,getLsbD_bitWord,decide_eq_true (by omega),Bool.true_and]
  by_cases h0 : j = 0
  · rw [decide_eq_true h0,Bool.true_and]
    exact h.congr fun p s _ => by rw [hbit,decide_eq_true h0,Bool.true_and]
  · rw [decide_eq_false h0,Bool.false_and]
    exact Pattern.isSharing_zero.congr fun p s _ => by
      rw [hbit,decide_eq_false h0,Bool.false_and]; rfl

theorem BitSharing.xor {w : Nat} {x y : Shares n (BitVec w)} {i : Nat} {v v' : BitVec k}
    (hx : BitSharing H k x i v) (hy : BitSharing H k y i v') :
    BitSharing H k (fun p s i => x p s i ^^^ y p s i) i (v ^^^ v') := by
  intro j hj
  rw [BitVec.getLsbD_xor]
  exact ((hx j hj).add (hy j hj)).congr fun p s _ => BitVec.getLsbD_xor

theorem b2a_isSharing [Generator G] {S : Suite n L G} {T₀ : Finset (Fin n)}
    {openBitwise : Shares n (Lint L) → Nat → Fin n → Nat → Lint L} (hS : S.Marks H T₀)
    (hP : S.PubCorrect H (k+2)) (hO : S.Opens openBitwise H k) (hk : 0 < k) (hkL : k + 2 ≤ 8*L)
    {net : Net n G} (hnet : H.Consistent net) (u a : Shares n (Lint L)) (size : Nat) :
    H.Consistent (S.b2a openBitwise u a k size net).2 ∧ ∀ i, i < size → ∀ c,
      BitSharing H k a i (bitVal k c) →
      ArithSharing H k (S.b2a openBitwise u a k size net).1 i (bitVal k c) := by
  obtain ⟨hnet',hbits⟩ := randBit_isSharing hS hP hk hkL hnet u size
  refine ⟨hnet',fun i hi c ha => ?_⟩
  obtain ⟨U,-,hb⟩ := hbits i hi
  have hmasked := ha.xor (getBit_isSharing (L := L) (k := k) (by omega) (lsb_isSharing hk hb))
  rw [← bitVal_xor] at hmasked
  have hc := fun p => (hO.bitwise _ i _ hmasked p).trans (setWidth_bitVal hk (8*L) _)
  have hout := Suite.unmask_isSharing hS (by omega) hc hb
  rwa [Bool.xor_assoc,Bool.xor_self,Bool.xor_false] at hout

end Bits

section
variable [Generator G]

/-- Conversion of shared bits among three and among five parties, with the result in any
array, as far as the public multiplication of the random bits is right. -/
theorem b2a_family (hk : 0 < k) (hkL : k + 2 ≤ 8*L) (size res a : Nat) :
    (∀ (net : Net 3 G) (scratch u : Shares 3 (Lint L)) (mem : Memory 3 L),
      shares3pc.Consistent net → ∀ i, i < size → ∀ c,
      BitSharing shares3pc k (mem a) i (bitVal k c) → ArithSharing shares3pc k
        (((suite3pc scratch).b2aAt rssOpenBitwise u mem res a k size net).1 res) i (bitVal k c)) ∧
    ∀ multPub, (suite5pc (L := L) (G := G) multPub).PubCorrect shares5pc (k+2) →
      ∀ (net : Net 5 G) (u : Shares 5 (Lint L)) (mem : Memory 5 L),
      shares5pc.Consistent net → ∀ i, i < size → ∀ c,
      BitSharing shares5pc k (mem a) i (bitVal k c) → ArithSharing shares5pc k
        (((suite5pc multPub).b2aAt rssOpenBitwiseMp u mem res a k size net).1 res) i
        (bitVal k c) := by
  have hkL' : k ≤ 8*L := by omega
  constructor
  · intro net scratch u mem hnet i hi c ha
    have hout := (b2a_isSharing (suite3pc_marks scratch) (pubCorrect3pc scratch hkL)
      (opens3pc scratch hkL') hk hkL hnet u (mem a) size).2 i hi c ha
    exact hout.congr fun p s _ => by simp only [Suite.b2aAt,Memory.store_same hi]
  · intro multPub hP net u mem hnet i hi c ha
    have hout := (b2a_isSharing (suite5pc_marks multPub) hP (opens5pc multPub hkL') hk hkL hnet u
      (mem a) size).2 i hi c ha
    exact hout.congr fun p s _ => by simp only [Suite.b2aAt,Memory.store_same hi]

theorem b2a_family_one :
    let net := fun n => (fun _ _ => ⟨fun i => BitVec.ofNat 8 (3*i+1)⟩ : Net n Tape)
    let one : Lint 4 := (bitVal 30 true).setWidth 32
    ArithSharing shares3pc 30 (((suite3pc (L := 4) fun _ _ _ => 7).b2aAt rssOpenBitwise
      (fun _ _ _ => 9) (fun _ p s _ => if ai3pc p s then one else 0) 0 0 30 1 (net 3)).1 0) 0
      (bitVal 30 true) ∧
    ArithSharing shares5pc 30 (((suite5pc (L := 4) fun a b size ring_size net =>
      (rssMultPubMp (fun _ _ _ => 0) a b size ring_size net).1).b2aAt rssOpenBitwiseMp
      (fun _ _ _ => 9) (fun _ p s _ => if ai5pc p s then one else 0) 0 0 30 1 (net 5)).1 0) 0
      (bitVal 30 true) := by
  intro net one
  obtain ⟨h₃,h₅⟩ := b2a_family (G := Tape) (L := 4) (k := 30) (by decide) (by decide) 1 0 0
  have hP := pubCorrect5pc (G := Tape) (k := 32) (L := 4) (by decide) (by decide) fun _ _ _ => 0
  have hbit₃ := (suite3pc_marks (L := 4) (G := Tape) fun _ _ _ => 7).publicWord (by decide)
    (fun _ => bitVal 30 true) 0
  have hbit₅ := (suite5pc_marks (L := 4) (G := Tape) fun _ _ _ _ _ _ _ => 0).publicWord
    (by decide) (fun _ => bitVal 30 true) 0
  exact ⟨h₃ (net 3) _ _ _ (fun _ _ _ _ _ _ _ => rfl) 0 Nat.one_pos true hbit₃,
    h₅ _ hP (net 5) _ _ (fun _ _ _ _ _ _ _ => rfl) 0 Nat.one_pos true hbit₅⟩

end
end RssRing
