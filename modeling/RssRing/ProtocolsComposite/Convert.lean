import RssRing.ProtocolsComposite.B2a
import RssRing.ProtocolsComposite.NBitAdd
import RssRing.ProtocolsComposite.MSBMp
set_option autoImplicit false

namespace RssRing
open Replicated

variable {n L k k' : Nat} {G : Type} [Generator G]

/-- `new_Rss_Convert` and `new_Rss_Convert_mp`. The arrays `u` of the random bits and
`r_2` are not cleared before they are used. -/
def Suite.newConvert (S : Suite n L G)
    (openBitwise : Shares n (Lint L) → Nat → Fin n → Nat → Lint L)
    (edaBit : Nat → Nat → Net n G → EdaBits n L G) (u r_2 a : Shares n (Lint L))
    (size ring_size ring_size_prime : Nat) (net : Net n G) : Shares n (Lint L) × Net n G :=
  let r_shares := S.randBit u (size*ring_size) ring_size_prime net
  let eda := edaBit size ring_size r_shares.2
  let c := S.openShares (fun p s i => a p s i - eda.r p s i) ring_size
  let a_2 := S.bitAddPublic c eda.b_2 ring_size size eda.net
  let r_2 := fun p s j => (List.range ring_size).foldl
    (fun x k => setBit x k (getBit (r_shares.1 p s (j*ring_size + k)) 0)) (r_2 p s j)
  let c := openBitwise (fun p s i => a_2.1 p s i ^^^ r_2 p s i) ring_size
  let a_k_prime := S.unmask (fun p index => getBit (c p (index/ring_size)) (index%ring_size))
    r_shares.1
  (fun p s j => (List.range ring_size).foldl
    (fun x k => x + (a_k_prime p s (j*ring_size + k) <<< k)) 0,a_2.2)

def newRssConvert (scratch u r_2 a : Shares 3 (Lint L)) (size ring_size ring_size_prime : Nat)
    (net : Net 3 G) : Shares 3 (Lint L) × Net 3 G :=
  let S := suite3pc scratch
  S.newConvert rssOpenBitwise S.edaBit u r_2 a size ring_size ring_size_prime net

def newRssConvertMp
    (multPub : Shares 5 (Lint L) → Shares 5 (Lint L) → Nat → Nat → Net 5 G → Fin 5 → Nat → Lint L)
    (u r_2 a : Shares 5 (Lint L)) (size ring_size ring_size_prime : Nat) (net : Net 5 G) :
    Shares 5 (Lint L) × Net 5 G :=
  let S := suite5pc multPub
  S.newConvert rssOpenBitwiseMp S.edaBitMp u r_2 a size ring_size ring_size_prime net

def EdaCorrect (H : Pattern (Fin n) (Finset (Fin n))) (k : Nat)
    (edaBit : Nat → Nat → Net n G → EdaBits n L G) : Prop :=
  ∀ size net, H.Consistent net → H.Consistent (edaBit size k net).net ∧ ∀ i, i < size →
    ∃ ρ : BitVec k, ArithSharing H k (edaBit size k net).r i ρ ∧
      BitSharing H k (edaBit size k net).b_2 i ρ

theorem edaBit_correct (scratch : Shares 3 (Lint L)) (hk : k ≤ 8*L) :
    EdaCorrect shares3pc k (suite3pc (G := G) scratch).edaBit := by
  intro size net hnet
  obtain ⟨hnet',heda⟩ := edaBit_element scratch hk hnet size
  exact ⟨hnet',fun i hi => ⟨_,heda i hi⟩⟩

theorem edaBitMp_correct
    (multPub : Shares 5 (Lint L) → Shares 5 (Lint L) → Nat → Nat → Net 5 G → Fin 5 → Nat → Lint L)
    (hk : k ≤ 8*L) : EdaCorrect shares5pc k (suite5pc multPub).edaBitMp := by
  intro size net hnet
  obtain ⟨hnet',heda⟩ := edaBitMp_element hk hnet multPub size
  exact ⟨hnet',fun i hi => ⟨_,heda i hi⟩⟩

theorem ofBits_getLsbD (α : BitVec k) :
    ofBits k' (fun t => decide (t < k) && α.getLsbD t) = α.setWidth k' := by
  apply BitVec.eq_of_getLsbD_eq
  intro j hj
  rw [getLsbD_ofBits,BitVec.getLsbD_setWidth,decide_eq_true hj,Bool.true_and,Bool.true_and]
  by_cases hjk : j < k
  · rw [decide_eq_true hjk,Bool.true_and]
  · rw [decide_eq_false hjk,Bool.false_and,BitVec.getLsbD_of_ge α j (by omega)]

section
variable {H : Pattern (Fin n) (Finset (Fin n))} {S : Suite n L G} {D : Discipline S}
  {T₀ : Finset (Fin n)}

omit [Generator G] in
theorem unmaskBits_isSharing (hS : S.Marks H T₀) (hk' : k' ≤ 8*L) (hk : k ≤ 8*L)
    {c : Fin n → Nat → Lint L} {r_shares : Shares n (Lint L)} {i : Nat} {α : BitVec k}
    {β : Nat → Bool} (hc : ∀ p, c p i = (α ^^^ ofBits k β).setWidth (8*L))
    (hβ : ∀ t, t < k → ArithSharing H k' r_shares (i*k + t) (bitVal k' (β t))) :
    H.IsSharing (fun p s => ((List.range k).foldl (fun x t => x + (S.unmask (fun p index =>
      getBit (c p (index/k)) (index%k)) r_shares p s (i*k + t) <<< t)) (0 : Lint L)).setWidth k')
      (α.setWidth k') := by
  rw [← ofBits_getLsbD]
  refine weighted_isSharing hk' k fun t ht => ?_
  have hbit : ∀ p, getBit (c p ((i*k + t)/k)) ((i*k + t)%k) =
      bitWord L (α.getLsbD t ^^ β t) := by
    intro p
    rw [index_div ht,index_mod ht,getBit_eq,hc,BitVec.getLsbD_setWidth,
      decide_eq_true (by omega),Bool.true_and,BitVec.getLsbD_xor,getLsbD_ofBits,decide_eq_true ht,Bool.true_and]
  have hout := Suite.unmask_isSharing (c := fun p index => getBit (c p (index/k)) (index%k)) hS hk'
    hbit (hβ t ht)
  rwa [Bool.xor_assoc,Bool.xor_self,Bool.xor_false] at hout

variable {openBitwise : Shares n (Lint L) → Nat → Fin n → Nat → Lint L}
  {edaBit : Nat → Nat → Net n G → EdaBits n L G}

omit [Generator G] in
theorem packedBits_isSharing (hk' : 0 < k') (hk : k ≤ 8*L) {x : Shares n (Lint L)}
    (old : Shares n (Lint L)) {i : Nat} {β : Nat → Bool}
    (hβ : ∀ t, t < k → ArithSharing H k' x (i*k + t) (bitVal k' (β t))) :
    BitSharing H k (fun p s j => (List.range k).foldl
      (fun y t => setBit y t (getBit (x p s (j*k + t)) 0)) (old p s j)) i (ofBits k β) := by
  intro j hj
  rw [getLsbD_ofBits,decide_eq_true hj,Bool.true_and]
  exact packed_isSharing hk' old hβ hj (by omega)

omit [Generator G] in
theorem addOpened_isSharing (hS : S.Marks H T₀) (hD : D.Replicates H)
    (hO : S.Opens openBitwise H k) (hk : k ≤ 8*L) {net : Net n G} (hnet : H.Consistent net)
    {sum b_2 : Shares n (Lint L)} {size i : Nat} (hi : i < size) {α ρ : BitVec k}
    (hsum : ArithSharing H k sum i (α - ρ)) (hb_2 : BitSharing H k b_2 i ρ) :
    BitSharing H k (S.bitAddPublic (S.openShares sum k) b_2 k size net).1 i α := by
  have hmasked := fun q => congrArg (BitVec.setWidth k) (hO.arith _ i _ hsum q)
  simp only [BitVec.setWidth_setWidth_of_le _ hk,BitVec.setWidth_eq] at hmasked
  have ha_2 := (hD.bitAddPublic hk hS size hnet).2 i hi (α - ρ) ρ hmasked hb_2
  rwa [sub_add_cancel] at ha_2

theorem newConvert_isSharing (hS : S.Marks H T₀) (hD : D.Replicates H)
    (hP : S.PubCorrect H (k'+2)) (hO : S.Opens openBitwise H k) (hE : EdaCorrect H k edaBit)
    (hk : k ≤ 8*L) (hk' : 0 < k') (hkL' : k' + 2 ≤ 8*L) {net : Net n G}
    (hnet : H.Consistent net) (u r_2 a : Shares n (Lint L)) (size : Nat) {i : Nat}
    (hi : i < size) {α : BitVec k} (ha : ArithSharing H k a i α) :
    ArithSharing H k' (S.newConvert openBitwise edaBit u r_2 a size k k' net).1 i
      (α.setWidth k') := by
  obtain ⟨hnet₁,hbits⟩ := randBit_isSharing hS hP hk' hkL' hnet u (size*k)
  obtain ⟨hnet₂,heda⟩ := hE size _ hnet₁
  obtain ⟨ρ,hr,hb_2⟩ := heda i hi
  have hdrawn : ∀ t, ∃ β : Bool, t < k →
      ArithSharing H k' (S.randBit u (size*k) k' net).1 (i*k + t) (bitVal k' β) := by
    intro t
    by_cases ht : t < k
    · obtain ⟨U,-,hU⟩ := hbits _ (index_lt hi ht)
      exact ⟨_,fun _ => hU⟩
    · exact ⟨false,fun h => absurd h ht⟩
  choose β hβ using hdrawn
  have hsum : ArithSharing H k (fun p s i => a p s i - (edaBit size k
      (S.randBit u (size*k) k' net).2).r p s i) i (α - ρ) :=
    (ha.sub hr).congr fun p s _ => setWidth_sub_of_le _ _ hk
  have ha_2 := addOpened_isSharing hS hD hO hk hnet₂ hi hsum hb_2
  have hr_2 := packedBits_isSharing hk' hk r_2 hβ
  exact unmaskBits_isSharing hS (by omega) hk (fun p => hO.bitwise _ i _ (ha_2.xor hr_2) p) hβ

theorem newConvert_net (hS : S.Marks H T₀) (hD : D.Replicates H) (hP : S.PubCorrect H (k'+2))
    (hE : EdaCorrect H k edaBit) (hk : k ≤ 8*L) (hk' : 0 < k') (hkL' : k' + 2 ≤ 8*L)
    {net : Net n G} (hnet : H.Consistent net) (u r_2 a : Shares n (Lint L)) (size : Nat) :
    H.Consistent (S.newConvert openBitwise edaBit u r_2 a size k k' net).2 := by
  have hnet₁ := (randBit_isSharing hS hP hk' hkL' hnet u (size*k)).1
  have hnet₂ := (hE size _ hnet₁).1
  exact (hD.bitAddPublic hk hS size hnet₂).1

end

/-- Conversion from the ring modulo `2^k` to the one modulo `2^k'`, whatever the
uncleared arrays held; with five parties as far as the public multiplication is right. -/
theorem newConvert_family (hk : k ≤ 8*L) (hk' : 0 < k') (hkL' : k' + 2 ≤ 8*L) (size : Nat) :
    (∀ (net : Net 3 G) (scratch u r_2 a : Shares 3 (Lint L)), shares3pc.Consistent net →
      ∀ i, i < size → ∀ α : BitVec k, ArithSharing shares3pc k a i α →
      ArithSharing shares3pc k' (newRssConvert scratch u r_2 a size k k' net).1 i
        (α.setWidth k')) ∧
    ∀ multPub, (suite5pc (L := L) (G := G) multPub).PubCorrect shares5pc (k'+2) →
      ∀ (net : Net 5 G) (u r_2 a : Shares 5 (Lint L)), shares5pc.Consistent net →
      ∀ i, i < size → ∀ α : BitVec k, ArithSharing shares5pc k a i α →
      ArithSharing shares5pc k' (newRssConvertMp multPub u r_2 a size k k' net).1 i
        (α.setWidth k') := by
  constructor
  · intro net scratch u r_2 a hnet i hi α ha
    exact newConvert_isSharing (suite3pc_marks scratch) (replicated3pc_replicates scratch)
      (pubCorrect3pc scratch hkL') (opens3pc scratch hk) (edaBit_correct scratch hk) hk hk' hkL'
      hnet u r_2 a size hi ha
  · intro multPub hP net u r_2 a hnet i hi α ha
    exact newConvert_isSharing (suite5pc_marks multPub) (replicated5pc_replicates multPub) hP
      (opens5pc multPub hk) (edaBitMp_correct multPub hk) hk hk' hkL' hnet u r_2 a size hi ha

theorem newConvert_family_five :
    ArithSharing shares3pc 30 (newRssConvert (L := 4) (fun _ _ _ => 7) (fun _ _ _ => 9)
      (fun _ _ _ => 3) (fun _ _ _ => 7) 1 4 30
      (fun _ _ => (⟨fun i => BitVec.ofNat 8 (3*i+1)⟩ : Tape))).1 0 5 ∧
    ArithSharing shares5pc 30 (newRssConvertMp (L := 4) (fun a b size ring_size net =>
      (rssMultPubMp (fun _ _ _ => 0) a b size ring_size net).1) (fun _ _ _ => 9) (fun _ _ _ => 3)
      (fun _ _ _ => 2) 1 4 30 (fun _ _ => (⟨fun i => BitVec.ofNat 8 (3*i+1)⟩ : Tape))).1 0 4 := by
  obtain ⟨h₃,h₅⟩ := newConvert_family (G := Tape) (L := 4) (k := 4) (by decide)
    (by decide : 0 < 30) (by decide) 1
  refine ⟨h₃ _ _ _ _ _ (fun _ _ _ _ _ _ _ => rfl) 0 (by decide) 5 ?_,
    h₅ _ (pubCorrect5pc (by decide) (by decide) _) _ _ _ _ (fun _ _ _ _ _ _ _ => rfl) 0
      (by decide) 4 ?_⟩
  · exact ⟨fun _ => 7,fun _ _ _ => rfl,by simp⟩
  · exact ⟨fun _ => 2,fun _ _ _ => rfl,by simp⟩

end RssRing
