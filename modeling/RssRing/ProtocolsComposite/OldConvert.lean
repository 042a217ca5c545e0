import RssRing.ProtocolsComposite.Convert
import RssRing.ProtocolsComposite.TwoSlots
set_option autoImplicit false

namespace RssRing
open Replicated

variable {n L k k' : Nat} {G : Type} [Generator G]

/-- `Rss_Convert` and `Rss_Convert_mp`, which treat two slots. The arrays `u`, `r_2` and `sum`
are not cleared before they are used. -/
def Suite.convert (S : Suite n L G) (openBitwise : Shares n (Lint L) → Nat → Fin n → Nat → Lint L)
    (u r_2 sum res a : Shares n (Lint L)) (size ring_size ring_size_prime : Nat) (net : Net n G) :
    Shares n (Lint L) × Net n G :=
  let r_shares := S.randBit u (2*size*ring_size) ring_size_prime net
  let r := firstSlots 2 (fun p s j => (List.range ring_size).foldl
    (fun x k => x + (r_shares.1 p s (j*ring_size + k) <<< k)) 0) fun _ _ _ => 0
  let bits := firstSlots 2 (fun p s j => (List.range ring_size).foldl
    (fun x k => setBit x k (getBit (r_shares.1 p s (j*ring_size + k)) 0)) (r_2 p s j)) r_2
  let c := S.openShares (firstSlots 2 (fun p s i => a p s i - r p s i) sum) ring_size
  let a_2 := S.bitAddPublic c bits ring_size size r_shares.2
  let second := fun p s index => r_shares.1 p s (size*ring_size + index)
  let fresh := firstSlots 2 (fun p s j => (List.range ring_size).foldl
    (fun x k => setBit x k (getBit (second p s (j*ring_size + k)) 0)) 0) fun _ _ _ => 0
  let c := openBitwise (firstSlots 2 (fun p s i => a_2.1 p s i ^^^ fresh p s i) sum) ring_size
  let a_k_prime := { S with ai := a12 }.unmask
    (fun p index => getBit (c p (index/ring_size)) (index%ring_size)) second
  let out := firstSlots 2 (fun p s j => (List.range ring_size).foldl
    (fun x k => x + (a_k_prime p s (j*ring_size + k) <<< k)) 0) res
  (fun p s j => if j < size then out p s j else res p s j,a_2.2)

def rssConvert (scratch u r_2 sum res a : Shares 3 (Lint L))
    (size ring_size ring_size_prime : Nat) (net : Net 3 G) : Shares 3 (Lint L) × Net 3 G :=
  (suite3pc scratch).convert rssOpenBitwise u r_2 sum res a size ring_size ring_size_prime net

def rssConvertMp
    (multPub : Shares 5 (Lint L) → Shares 5 (Lint L) → Nat → Nat → Net 5 G → Fin 5 → Nat → Lint L)
    (u r_2 sum res a : Shares 5 (Lint L)) (size ring_size ring_size_prime : Nat)
    (net : Net 5 G) : Shares 5 (Lint L) × Net 5 G :=
  (suite5pc multPub).convert rssOpenBitwiseMp u r_2 sum res a size ring_size ring_size_prime net

theorem a12_marks3pc (scratch : Shares 3 (Lint L)) :
    { suite3pc (G := G) scratch with ai := a12 }.Marks shares3pc {1} where
  slots := rfl
  mem := by decide
  ai := by
    show ∀ p s, s < shares3pc.slots → a12 p s = decide (shares3pc.hold p s = {1})
    decide

section
variable {H : Pattern (Fin n) (Finset (Fin n))} {S : Suite n L G} {D : Discipline S}
  {T₀ : Finset (Fin n)} {openBitwise : Shares n (Lint L) → Nat → Fin n → Nat → Lint L}

omit [Generator G] in
theorem bit_isSharing_of_le (hkk : k ≤ k') (hkL : k' ≤ 8*L) {x : Shares n (Lint L)} {i : Nat}
    {c : Bool} (h : ArithSharing H k' x i (bitVal k' c)) : ArithSharing H k x i (bitVal k c) := by
  have hlow := h.map (lowBits hkk).toAddMonoidHom
  have hval : (lowBits hkk).toAddMonoidHom (bitVal k' c) = bitVal k c := by
    show (bitVal k' c).setWidth k = bitVal k c
    rw [← setWidth_bitWord hkL,BitVec.setWidth_setWidth_of_le _ hkk,setWidth_bitWord (by omega)]
  rw [hval] at hlow
  exact hlow.congr fun p s _ => (BitVec.setWidth_setWidth_of_le _ hkk).symm

/-- With two slots, where the table by party id marks the share of the constants, the old
conversion is right, whatever the uncleared arrays held. -/
theorem convert_isSharing (hS : S.Marks H T₀) (hS' : { S with ai := a12 }.Marks H T₀)
    (htwo : H.slots ≤ 2) (hD : D.Replicates H) (hP : S.PubCorrect H (k'+2))
    (hO : S.Opens openBitwise H k) (hkk : k ≤ k') (hk' : 0 < k') (hkL' : k' + 2 ≤ 8*L)
    {net : Net n G} (hnet : H.Consistent net) (u r_2 sum res a : Shares n (Lint L)) {size i : Nat}
    (hi : i < size) {α : BitVec k} (ha : ArithSharing H k a i α) :
    ArithSharing H k' (S.convert openBitwise u r_2 sum res a size k k' net).1 i
      (α.setWidth k') := by
  have hk : k ≤ 8*L := by omega
  obtain ⟨hnet₁,hbits⟩ := randBit_isSharing hS hP hk' hkL' hnet u (2*size*k)
  have hdrawn : ∀ m, ∃ c : Bool, m < 2*size*k →
      ArithSharing H k' (S.randBit u (2*size*k) k' net).1 m (bitVal k' c) := by
    intro m
    by_cases hm : m < 2*size*k
    · obtain ⟨U,-,hU⟩ := hbits m hm
      exact ⟨_,fun _ => hU⟩
    · exact ⟨false,fun h => absurd h hm⟩
  choose β hβ using hdrawn
  have hhalf : 2*size*k = size*k + size*k := by rw [Nat.mul_assoc,Nat.two_mul]
  have hfirst : ∀ t, t < k → ArithSharing H k' (S.randBit u (2*size*k) k' net).1 (i*k + t)
      (bitVal k' (β (i*k + t))) := fun t ht => hβ _ (by have := index_lt hi ht; omega)
  have hsecond : ∀ t, t < k → ArithSharing H k'
      (fun p s index => (S.randBit u (2*size*k) k' net).1 p s (size*k + index)) (i*k + t)
      (bitVal k' (β (size*k + (i*k + t)))) := fun t ht => hβ _ (by have := index_lt hi ht; omega)
  let ρ := ofBits k fun t => β (i*k + t)
  have hr : ArithSharing H k (fun p s j => (List.range k).foldl (fun x t => x +
      ((S.randBit u (2*size*k) k' net).1 p s (j*k + t) <<< t)) (0 : Lint L)) i ρ := by
    have hweighted := weighted_isSharing hk k fun t ht => bit_isSharing_of_le hkk (by omega)
      (hfirst t ht)
    have hρ : ofBits k (fun t => decide (t < k) && β (i*k + t)) = ρ := by
      apply BitVec.eq_of_getLsbD_eq
      intro t ht
      rw [getLsbD_ofBits,getLsbD_ofBits,decide_eq_true ht,Bool.true_and]
    rwa [hρ] at hweighted
  have hsum : ArithSharing H k (fun p s i => a p s i - firstSlots 2 (fun p s j => (List.range k).foldl
      (fun x t => x + ((S.randBit u (2*size*k) k' net).1 p s (j*k + t) <<< t)) 0)
      (fun _ _ _ => 0) p s i) i (α - ρ) :=
    (ha.sub (hr.firstSlots htwo _)).congr fun p s _ => setWidth_sub_of_le _ _ hk
  have ha_2 := addOpened_isSharing hS hD hO hk hnet₁ hi (hsum.firstSlots htwo sum)
    ((packedBits_isSharing hk' hk r_2 hfirst).firstSlots htwo r_2)
  have hmasked := (ha_2.xor ((packedBits_isSharing hk' hk (fun _ _ _ => 0) hsecond).firstSlots htwo
    fun _ _ _ => 0)).firstSlots htwo sum
  have hout := unmaskBits_isSharing hS' (by omega) hk (fun p => hO.bitwise _ i _ hmasked p) hsecond
  refine hout.congr fun p s hs => ?_
  simp only [Suite.convert,if_pos hi,firstSlots_of_lt (Nat.lt_of_lt_of_le hs htwo)]

theorem convert_net (hS : S.Marks H T₀) (hD : D.Replicates H) (hP : S.PubCorrect H (k'+2))
    (hk : k ≤ 8*L) (hk' : 0 < k') (hkL' : k' + 2 ≤ 8*L) {net : Net n G} (hnet : H.Consistent net)
    (u r_2 sum res a : Shares n (Lint L)) (size : Nat) :
    H.Consistent (S.convert openBitwise u r_2 sum res a size k k' net).2 :=
  (hD.bitAddPublic hk hS size (randBit_isSharing hS hP hk' hkL' hnet u (2*size*k)).1).1

omit [Generator G] in
theorem convert_kept [Generator G] (S : Suite n L G) (u r_2 sum res a : Shares n (Lint L))
    (size ring_size ring_size_prime : Nat) (net : Net n G) (p : Fin n) {s : Nat} (hs : 2 ≤ s)
    (i : Nat) :
    (S.convert openBitwise u r_2 sum res a size ring_size ring_size_prime net).1 p s i =
      res p s i := by
  simp only [Suite.convert,firstSlots_of_ge hs,ite_self]

end

def SharedArray (H : Pattern (Fin n) (Finset (Fin n))) (k size : Nat) (a : Shares n (Lint L)) :
    Prop :=
  ∀ i, i < size → ∃ α : BitVec k, ArithSharing H k a i α

section
variable {H : Pattern (Fin n) (Finset (Fin n))} {S : Suite n L G} {T₀ : Finset (Fin n)}
  {openBitwise : Shares n (Lint L) → Nat → Fin n → Nat → Lint L}
  {new : Shares n (Lint L) → Shares n (Lint L)} {size : Nat} {net : Net n G}

theorem convert_fixed_res (hS : S.Marks H T₀) (hvis : VisibleFrom2 H) (hk : 0 < k) (hkk : k ≤ k')
    (hkL : k' ≤ 8*L) (hnew : ∀ a i (α : BitVec k), i < size → ArithSharing H k a i α →
      ArithSharing H k' (new a) i (α.setWidth k'))
    (u r_2 sum res : Shares n (Lint L)) :
    (∀ a, SharedArray H k size a → SameShared H k' size
      (S.convert openBitwise u r_2 sum res a size k k' net).1 (new a)) ↔ size = 0 := by
  refine kept_fixed_res hvis (by omega) _ _ _
    (fun a p _ hs i => convert_kept S u r_2 sum res a size k k' net p hs i) fun hsize c => ?_
  have ha := hS.publicArith (by omega : k ≤ 8*L) fun _ => bitVal k c
  refine ⟨_,fun i _ => ⟨_,ha i⟩,?_⟩
  rw [← setWidth_bitVal hk k' c]
  exact hnew _ 0 _ hsize (ha 0)

theorem convert_fixed_input (hS : S.Marks H T₀) (hvis : VisibleFrom2 H) (hk' : 0 < k')
    (hkL : k' ≤ 8*L) (y u r_2 sum a : Shares n (Lint L)) :
    (∀ res, SameShared H k' size (S.convert openBitwise u r_2 sum res a size k k' net).1 y) ↔
      size = 0 :=
  kept_fixed_input hS hvis hk' hkL _
    (fun res p _ hs i => convert_kept S u r_2 sum res a size k k' net p hs i) y

end

/-- Among three parties the old conversion gives what the new one gives. Among five it writes
two slots of six: for no fixed contents of `res` does it agree with the new one on all inputs,
and on no input for all contents of `res`, unless the vector is empty, where the exchanges do not
return (`getRounds_zero`). -/
theorem convert_agrees_iff (hk : 0 < k) (hkk : k ≤ k') (hkL' : k' + 2 ≤ 8*L) (size : Nat) :
    (∀ net net' : Net 3 G, shares3pc.Consistent net → shares3pc.Consistent net' →
      ∀ scratch u r_2 sum res u' r_2' a : Shares 3 (Lint L), SharedArray shares3pc k size a →
      SameShared shares3pc k' size (rssConvert scratch u r_2 sum res a size k k' net).1
        (newRssConvert scratch u' r_2' a size k k' net').1) ∧
    ∀ multPub, (suite5pc (L := L) (G := G) multPub).PubCorrect shares5pc (k'+2) →
      ∀ (net net' : Net 5 G), shares5pc.Consistent net' →
      ∀ u r_2 sum u' r_2' : Shares 5 (Lint L),
      (∀ res, (∀ a, SharedArray shares5pc k size a → SameShared shares5pc k' size
        (rssConvertMp multPub u r_2 sum res a size k k' net).1
        (newRssConvertMp multPub u' r_2' a size k k' net').1) ↔ size = 0) ∧
      ∀ a, SharedArray shares5pc k size a → ((∀ res, SameShared shares5pc k' size
        (rssConvertMp multPub u r_2 sum res a size k k' net).1
        (newRssConvertMp multPub u' r_2' a size k k' net').1) ↔ size = 0) := by
  have hk' : 0 < k' := by omega
  have hkL : k ≤ 8*L := by omega
  constructor
  · intro net net' hnet hnet' scratch u r_2 sum res u' r_2' a ha i hi
    obtain ⟨α,hα⟩ := ha i hi
    have hS := suite3pc_marks (G := G) scratch
    have hD := replicated3pc_replicates (G := G) scratch
    have hP := pubCorrect3pc (G := G) scratch hkL'
    have hO := opens3pc (G := G) scratch hkL
    exact ⟨α.setWidth k',
      convert_isSharing hS (a12_marks3pc scratch) (by decide) hD hP hO hkk hk' hkL' hnet u r_2 sum
        res a hi hα,
      newConvert_isSharing hS hD hP hO (edaBit_correct scratch hkL) hkL hk' hkL' hnet' u' r_2' a
        size hi hα⟩
  · intro multPub hP net net' hnet' u r_2 sum u' r_2'
    have hS := suite5pc_marks (G := G) multPub
    have hnew : ∀ (a : Shares 5 (Lint L)) i (α : BitVec k), i < size → ArithSharing shares5pc k a i α →
        ArithSharing shares5pc k' (newRssConvertMp multPub u' r_2' a size k k' net').1 i
          (α.setWidth k') := fun a i α hi hα =>
      newConvert_isSharing hS (replicated5pc_replicates multPub) hP (opens5pc multPub hkL)
        (edaBitMp_correct multPub hkL) hkL hk' hkL' hnet' u' r_2' a size hi hα
    exact ⟨convert_fixed_res hS visible5pc hk hkk (by omega) hnew u r_2 sum,
      fun a _ => convert_fixed_input hS visible5pc hk' (by omega) _ u r_2 sum a⟩

theorem convert_agrees_iff_fifteen :
    let net := fun n => (fun _ _ => ⟨fun i => BitVec.ofNat 8 (3*i+1)⟩ : Net n Tape)
    let multPub : Shares 5 (Lint 4) → Shares 5 (Lint 4) → Nat → Nat → Net 5 Tape →
      Fin 5 → Nat → Lint 4 := fun a b size ring_size net =>
        (rssMultPubMp (fun _ _ _ => 0) a b size ring_size net).1
    SameShared shares3pc 30 1 (rssConvert (L := 4) (fun _ _ _ => 7) (fun _ _ _ => 9) (fun _ _ _ => 3)
        (fun _ _ _ => 8) (fun _ _ _ => 6) (fun _ _ _ => 5) 1 4 30 (net 3)).1
      (newRssConvert (fun _ _ _ => 7) (fun _ _ _ => 9) (fun _ _ _ => 3) (fun _ _ _ => 5) 1 4 30
        (net 3)).1 ∧
    ¬ ∀ a, SharedArray shares5pc 4 1 a → SameShared shares5pc 30 1
      (rssConvertMp multPub (fun _ _ _ => 9) (fun _ _ _ => 3) (fun _ _ _ => 8) (fun _ _ _ => 6) a
        1 4 30 (net 5)).1
      (newRssConvertMp multPub (fun _ _ _ => 9) (fun _ _ _ => 3) a 1 4 30 (net 5)).1 := by
  intro net multPub
  have hnet : ∀ n H, Pattern.Consistent (P := Fin n) (T := Finset (Fin n)) H (net n) :=
    fun _ _ _ _ _ _ _ _ _ => rfl
  obtain ⟨h₃,h₅⟩ := convert_agrees_iff (G := Tape) (L := 4) (k := 4) (by decide)
    (by decide : 4 ≤ 30) (by decide) 1
  refine ⟨h₃ _ _ (hnet 3 _) (hnet 3 _) _ _ _ _ _ _ _ _ fun i _ => ⟨15,fun _ => 5,fun _ _ _ => rfl,rfl⟩,
    fun h => absurd (((h₅ multPub ?_ (net 5) (net 5) (hnet 5 _) _ _ _ _ _).1 _).mp h) (by decide)⟩
  exact pubCorrect5pc (by decide) (by decide) _

/-- Four, below `2^4`, among five parties with a cleared result: a sharing of zero, at best. -/
theorem convertMp_four :
    let net : Net 5 Tape := fun _ _ => ⟨fun i => BitVec.ofNat 8 (3*i+1)⟩
    let multPub : Shares 5 (Lint 4) → Shares 5 (Lint 4) → Nat → Nat → Net 5 Tape →
      Fin 5 → Nat → Lint 4 := fun a b size ring_size net =>
        (rssMultPubMp (fun _ _ _ => 0) a b size ring_size net).1
    let new := (newRssConvertMp multPub (fun _ _ _ => 0) (fun _ _ _ => 0) (fun _ _ _ => 2) 1 4 30
      net).1
    ArithSharing shares5pc 4 (fun _ _ _ => (2 : Lint 4)) 0 4 ∧ ArithSharing shares5pc 30 new 0 4 ∧
    ¬ SameShared shares5pc 30 1 (rssConvertMp multPub (fun _ _ _ => 0) (fun _ _ _ => 0)
      (fun _ _ _ => 0) (fun _ _ _ => 0) (fun _ _ _ => 2) 1 4 30 net).1 new := by
  intro net multPub new
  have hnet : shares5pc.Consistent net := fun _ _ _ _ _ _ _ => rfl
  have hP : (suite5pc (L := 4) multPub).PubCorrect shares5pc (30+2) :=
    pubCorrect5pc (by decide) (by decide) _
  have ha : ArithSharing shares5pc 4 (fun _ _ _ => (2 : Lint 4)) 0 4 :=
    ⟨fun _ => 2,fun _ _ _ => rfl,by simp⟩
  have hnew : ArithSharing shares5pc 30 new 0 4 :=
    newConvert_isSharing (suite5pc_marks multPub) (replicated5pc_replicates multPub) hP
      (opens5pc multPub (by decide)) (edaBitMp_correct multPub (by decide)) (by decide) (by decide)
      (by decide) hnet _ _ _ 1 Nat.one_pos ha
  refine ⟨ha,hnew,fun h => ?_⟩
  obtain ⟨v,hold,hv⟩ := h 0 Nat.one_pos
  have hzero : v = 0 := visible5pc.eq hold Pattern.isSharing_zero fun p s hs _ => by
    rw [rssConvertMp,convert_kept _ _ _ _ _ _ _ _ _ _ p hs]
    rfl
  rw [hzero] at hv
  exact absurd (hnew.unique hv) (by decide)

end RssRing
