import RssRing.ProtocolsComposite.TapSuite
import RssRing.ProtocolsRand.RandBitRoot
set_option autoImplicit false

namespace RssRing
open Replicated Coupling

variable {L k : Nat}

namespace Tap
variable {p : Fin 3} {net : Net 3 (Tap L)}

def Sound (p : Fin 3) (net : Net 3 (Tap L)) : Prop :=
  ∀ ω, shares3pc.Consistent (silence (withHidden p net ω))

theorem hiddenAt_of_lt (p q : Fin 3) {s : Nat} (hs : s < 2) :
    hiddenAt p q s = if shares3pc.hold q s = {p} then some .share else none := by
  have htable : ∀ p q : Fin 3, ∀ s, s < 2 →
      (q = p + 1 ∧ s = 1 ∨ q = p + 2 ∧ s = 0 ↔ shares3pc.hold q s = {p}) := by decide
  have hown : s ≠ 2 := by omega
  simp only [hiddenAt,htable p q s hs,hown,and_false,if_false]

theorem Sound.of_consistent {ω : Hidden → Nat → Byte}
    (h : shares3pc.Consistent (silence (withHidden p net ω))) : Sound p net := by
  intro ω' q s r t hs ht hst
  have hnet := h q s r t hs ht hst
  simp only [silence,withHidden,hiddenAt_of_lt p q hs,hiddenAt_of_lt p r ht,hst] at hnet ⊢
  by_cases hold : shares3pc.hold r t = {p}
  · simp only [if_pos hold]
  · simpa only [if_neg hold] using hnet

theorem Sound.of_same (p : Fin 3) (g : Nat → Byte) :
    Sound p (fun _ _ => ⟨g,[]⟩ : Net 3 (Tap L)) := by
  let same : Net 3 (Tap L) := fun _ _ => ⟨g,[]⟩
  have hall : ∀ q s, silence (withHidden p same fun _ => g) q s = ⟨g,[]⟩ := by
    intro q s
    rw [silence,withHidden]
    cases hiddenAt p q s <;> rfl
  have hstart : shares3pc.Consistent (silence (withHidden p same fun _ => g)) := by
    intro q s r t _ _ _
    rw [hall,hall]
  exact Sound.of_consistent hstart

theorem random_silence (net : Net 3 (Tap L)) (keyID size length : Nat) (q : Fin 3) :
    (silence net).random keyID size length q = net.random keyID size length q := rfl

end Tap

/-- Two runs that party `p` cannot tell apart, with sound streams, and what is known of
their arrays. -/
structure Matched {A : Type} (p : Fin 3) (Q : A → A → Prop) (x y : A × Net 3 (Tap L)) : Prop where
  arrays : Q x.1 y.1
  own : x.2 p = y.2 p
  left : Tap.Sound p x.2
  right : Tap.Sound p y.2

theorem coupled_matched {A : Type} {p : Fin 3} {N : Hidden → Nat}
    {m m' : (Hidden → Nat → Byte) → A × Net 3 (Tap L)} {Q R : A → A → Prop} {V W : A → Prop}
    (h : Coupled (overlay p) N m m' fun x y => Q x.1 y.1 ∧ x.2 p = y.2 p)
    (hm : ∀ ω, V (m ω).1 ∧ shares3pc.Consistent (Tap.silence (m ω).2))
    (hm' : ∀ ω, W (m' ω).1 ∧ shares3pc.Consistent (Tap.silence (m' ω).2))
    (hR : ∀ x y, Q x y → V x → W y → R x y) : Coupled (overlay p) N m m' (Matched p R) := by
  have hstrong := h.strengthen (fun x => V x.1 ∧ shares3pc.Consistent (Tap.silence x.2))
    (fun x => W x.1 ∧ shares3pc.Consistent (Tap.silence x.2))
    (fun x => V x.1 ∧ Tap.Sound p x.2) (fun x => W x.1 ∧ Tap.Sound p x.2) hm hm'
    (fun x ω hx => ⟨hx.1,Tap.Sound.of_consistent hx.2⟩)
    (fun x ω hx => ⟨hx.1,Tap.Sound.of_consistent hx.2⟩)
  exact hstrong.mono fun x y hxy => ⟨hR _ _ hxy.1.1 hxy.2.1.1 hxy.2.2.1,hxy.1.2,hxy.2.1.2,hxy.2.2.2⟩

section MultPub
variable {p : Fin 3} {a a' b b' : Shares 3 (Lint L)} {net net' : Net 3 (Tap L)} {size i : Nat}

theorem rssMultPubWord_val (hk : k ≤ 8*L) (hnet : shares3pc.Consistent (Tap.silence net))
    (v_a c : Fin 3 → Nat → Lint L) (q : Fin 3) :
    let K := arithKind L k
    let fresh := fun q => (arithReading hk).val (mask K net size 0 q i)
    (rssMultPubWord v_a c a b size k net q i).setWidth k =
      (product3pc K (fun s => a q s i) (fun s => b q s i)).setWidth k + opb q • fresh (q + 1) +
        opa q • fresh q := by
  intro K fresh
  have hval := sent3pc_val hk hnet (product3pc K (fun s => a q s i) (fun s => b q s i)) v_a c size i q
  simp only [Tap.silence_advance,Tap.random_silence] at hval
  exact hval

theorem received_setWidth (hk : k ≤ 8*L) (x : Lint L) : (received k x).setWidth k = x.setWidth k :=
  (arithReading hk).recv x

theorem multPub_value (hk : k ≤ 8*L) (hnet : shares3pc.Consistent (Tap.silence net))
    (scratch : Shares 3 (Lint L)) {x y : BitVec k} (ha : ArithSharing shares3pc k a i x)
    (hb : ArithSharing shares3pc k b i y) (q : Fin 3) :
    ((tapSuite scratch).multPub a b size k net).1 q i = (x*y).setWidth (8*L) := by
  have hpub := rssMultPub_eq hk hnet (fun p => scratch p 0) (fun p => scratch p 1) size ha hb q
  have hsilent := congrArg Prod.fst (multPub_silence scratch a b size k net)
  rw [← hpub]
  exact (congrFun (congrFun hsilent q) i).symm

theorem multPub_sound (scratch a b : Shares 3 (Lint L))
    (hnet : shares3pc.Consistent (Tap.silence net)) :
    shares3pc.Consistent (Tap.silence ((tapSuite scratch).multPub a b size k net).2) := by
  have hsilent : Tap.silence ((tapSuite scratch).multPub a b size k net).2 =
      ((suite3pc scratch).multPub a b size k (Tap.silence net)).2 :=
    (congrArg Prod.snd (multPub_silence scratch a b size k net)).symm
  rw [hsilent]
  exact rssMultPub_net hnet _ _ a b size

theorem sum_rssMultPubWord (hk : k ≤ 8*L) (hnet : shares3pc.Consistent (Tap.silence net))
    (scratch : Shares 3 (Lint L)) {x y : BitVec k} (ha : ArithSharing shares3pc k a i x)
    (hb : ArithSharing shares3pc k b i y) (p : Fin 3) :
    let word := fun q => (rssMultPubWord (fun p => scratch p 0) (fun p => scratch p 1) a b size k
      net q i).setWidth k
    word p + word (p + 2) + word (p + 1) = x*y := by
  intro word
  let W := rssMultPubWord (fun p => scratch p 0) (fun p => scratch p 1) a b size k net
  have hvalue : masked k (W p i + received k (W (p + 2) i) + received k (W (p + 1) i)) =
      (x*y).setWidth (8*L) := multPub_value hk hnet scratch ha hb p
  rw [masked_eq_iff hk,BitVec.setWidth_add _ _ hk,BitVec.setWidth_add _ _ hk,
    received_setWidth hk,received_setWidth hk] at hvalue
  exact hvalue

theorem opb_sq (q : Fin 3) : opb q*opb q = 1 := by
  revert q
  decide

/-- The words are the same in two runs with the same product if the hidden mask of the one is
that of the other with the difference of the two parts of the next party. -/
theorem rssMultPubWord_eq (hk : k ≤ 8*L) (p : Fin 3) (hnet : shares3pc.Consistent (Tap.silence net))
    (hnet' : shares3pc.Consistent (Tap.silence net')) (scratch scratch' : Shares 3 (Lint L))
    {x x' y y' : BitVec k} (ha : ArithSharing shares3pc k a i x) (hb : ArithSharing shares3pc k b i y)
    (ha' : ArithSharing shares3pc k a' i x') (hb' : ArithSharing shares3pc k b' i y')
    (hproduct : x*y = x'*y') (haa : ∀ s, s < 2 → a p s i = a' p s i)
    (hbb : ∀ s, s < 2 → b p s i = b' p s i)
    (hown : ∀ s, net.random s (byteWidth k) size p = net'.random s (byteWidth k) size p)
    (hshift : (arithReading hk).val (mask (arithKind L k) net' size 0 (p + 2) i) =
      (arithReading hk).val (mask (arithKind L k) net size 0 (p + 2) i) + opb (p + 1) •
        ((product3pc (arithKind L k) (fun s => a (p + 1) s i) (fun s => b (p + 1) s i)).setWidth k -
          (product3pc (arithKind L k) (fun s => a' (p + 1) s i) (fun s => b' (p + 1) s i)).setWidth k))
    (q : Fin 3) :
    let word := fun (scratch a b : Shares 3 (Lint L)) (net : Net 3 (Tap L)) (q : Fin 3) =>
      (rssMultPubWord (fun p => scratch p 0) (fun p => scratch p 1) a b size k net q i).setWidth k
    word scratch a b net q = word scratch' a' b' net' q := by
  intro word
  let K := arithKind L k
  have htwo : p + 1 + 1 = p + 2 := by rw [add_assoc]; rfl
  have hsame : ∀ s, mask K net size s p i = mask K net' size s p i := by
    intro s
    rw [mask,mask]
    exact congrArg (fun r => K.load K.zero r i) (hown s)
  have hnext : mask K net size 0 (p + 1) i = mask K net' size 0 (p + 1) i :=
    ((mask_second hnet K size p i).symm.trans (hsame 1)).trans (mask_second hnet' K size p i)
  have hlocal : product3pc K (fun s => a p s i) (fun s => b p s i) =
      product3pc K (fun s => a' p s i) (fun s => b' p s i) := product3pc_congr K haa hbb
  have hfirst : word scratch a b net p = word scratch' a' b' net' p := by
    simp only [word,rssMultPubWord_val hk hnet,rssMultPubWord_val hk hnet']
    rw [hlocal,hnext,hsame 0]
  have hsecond : word scratch a b net (p + 1) = word scratch' a' b' net' (p + 1) := by
    simp only [word,rssMultPubWord_val hk hnet,rssMultPubWord_val hk hnet',htwo]
    rw [hshift,hnext,smul_add,smul_smul,opb_sq,one_smul]
    abel
  have hthird : word scratch a b net (p + 2) = word scratch' a' b' net' (p + 2) := by
    have hsum : word scratch a b net p + word scratch a b net (p + 2) + word scratch a b net (p + 1) =
        x*y := sum_rssMultPubWord hk hnet scratch ha hb p
    have hsum' : word scratch' a' b' net' p + word scratch' a' b' net' (p + 2) +
        word scratch' a' b' net' (p + 1) = x'*y' := sum_rssMultPubWord hk hnet' scratch' ha' hb' p
    rw [hproduct,← hsum',hfirst,hsecond] at hsum
    exact add_left_cancel (add_right_cancel hsum)
  have hcases : ∀ p q : Fin 3, q = p ∨ q = p + 1 ∨ q = p + 2 := by decide
  rcases hcases p q with rfl | rfl | rfl
  · exact hfirst
  · exact hsecond
  · exact hthird

theorem multPub_local (p : Fin 3) (scratch a b : Shares 3 (Lint L)) (net : Net 3 (Tap L))
    (d : Blocks (Tap.ofShare (byteWidth k*size)) Byte) : ∃ x, ∀ ω,
      (tapSuite scratch).multPub a b size k (Tap.withHidden p net (join d ω)) = overlay p x ω := by
  let word := fun net => rssMultPubWord (fun p => scratch p 0) (fun p => scratch p 1) a b size k net
  let sent := fun net q => (List.range size).map fun i => received k (word net q i)
  obtain ⟨x,hx⟩ := heard_local p net
    (fun net => (rssMultPub (fun p => scratch p 0) (fun p => scratch p 1) a b size k net).1)
    (fun net p => Message.words (sent net (p + 2) ++ sent net (p + 1)))
    (fun net net' h => by
      have hsecond : ∀ net : Net 3 (Tap L), ∀ q, (net.advance 0 (byteWidth k) size).random 1
          (byteWidth k) size q = net.random 1 (byteWidth k) size q :=
        fun net q => Net.random_advance_of_ne net (by decide) _ _ _ _ q
      have hword : word net = word net' := by
        funext q i
        simp only [word,rssMultPubWord,arithKind,hsecond,h 0 (by decide),h 1 (by decide)]
      refine ⟨?_,by simp only [sent,hword]⟩
      funext p i
      show masked k (word net p i + received k (word net (p + 2) i) + received k (word net (p + 1) i)) =
        masked k (word net' p i + received k (word net' (p + 2) i) + received k (word net' (p + 1) i))
      rw [hword]) d
  refine ⟨x,fun ω => ?_⟩
  rw [← hx ω,Net.advance_comm _ (by decide)]
  rfl

theorem multPub_coupled (hk : k ≤ 8*L) (p : Fin 3) (scratch scratch' : Shares 3 (Lint L))
    {x x' y y' : Nat → BitVec k} (haa : AlikeAt p 2 size a a') (hbb : AlikeAt p 2 size b b')
    (hnet : net p = net' p) (hs : Tap.Sound p net) (hs' : Tap.Sound p net')
    (ha : ∀ i, i < size → ArithSharing shares3pc k a i (x i))
    (hb : ∀ i, i < size → ArithSharing shares3pc k b i (y i))
    (ha' : ∀ i, i < size → ArithSharing shares3pc k a' i (x' i))
    (hb' : ∀ i, i < size → ArithSharing shares3pc k b' i (y' i))
    (hproduct : ∀ i, i < size → x i*y i = x' i*y' i) :
    Coupled (overlay p) (Tap.ofShare (byteWidth k*size))
      (fun ω => (tapSuite scratch).multPub a b size k (Tap.withHidden p net ω))
      (fun ω => (tapSuite scratch').multPub a' b' size k (Tap.withHidden p net' ω))
      (Matched p fun e e' => ∀ i, i < size → ∀ q,
        e q i = (x i*y i).setWidth (8*L) ∧ e' q i = (x i*y i).setWidth (8*L)) := by
  let K := arithKind L k
  let v := fun (a b : Shares 3 (Lint L)) i =>
    (product3pc K (fun s => a (p + 1) s i) (fun s => b (p + 1) s i)).setWidth k
  let shifted : Nat → BitVec k ≃ BitVec k := fun i =>
    Equiv.addRight (opb (p + 1) • (v a b i - v a' b' i))
  have hpair : Coupled (overlay p) (Tap.ofShare (byteWidth k*size))
      (fun ω => (tapSuite scratch).multPub a b size k (Tap.withHidden p net ω))
      (fun ω => (tapSuite scratch').multPub a' b' size k (Tap.withHidden p net' ω))
      fun x y => True ∧ x.2 p = y.2 p := by
    refine Coupled.of_local (multPub_local p scratch a b net) (multPub_local p scratch' a' b' net')
      (Tap.rewordBlocks (j := .share) (le_byteWidth k) (Nat.le_refl _) shifted)
      fun d z z' hz hz' => ⟨trivial,?_⟩
    let d' := Tap.rewordBlocks (N := Tap.ofShare (byteWidth k*size)) (j := .share) (le_byteWidth k)
      (Nat.le_refl _) shifted d
    have hmask : ∀ i, i < size → ∀ (net : Net 3 (Tap L)) (d : Blocks (Tap.ofShare (byteWidth k*size)) Byte),
        (arithReading hk).val (mask K (Tap.withHidden p net (join d default)) size 0 (p + 2) i) =
          Tap.blockWord k (byteWidth k) d .share i := by
      intro i hi net d
      have hplace : Tap.hiddenAt p (p + 2) 0 = some .share := if_pos (.inr ⟨rfl,rfl⟩)
      exact load_hidden (arithMasking hk) hplace net d K.zero hi
    have hword : ∀ i, i < size → ∀ q,
        received k (rssMultPubWord (fun p => scratch p 0) (fun p => scratch p 1) a b size k
          (Tap.withHidden p net (join d default)) q i) =
        received k (rssMultPubWord (fun p => scratch' p 0) (fun p => scratch' p 1) a' b' size k
          (Tap.withHidden p net' (join d' default)) q i) := by
      intro i hi q
      refine (arithMasking hk).shown _ _ ?_
      refine rssMultPubWord_eq hk p (hs (join d default)) (hs' (join d' default)) scratch scratch'
        (ha i hi) (hb i hi) (ha' i hi) (hb' i hi) (hproduct i hi) (fun s hs => haa s hs i hi)
        (fun s hs => hbb s hs i hi) (fun s => random_self hnet s _ size _ _) ?_ q
      rw [hmask i hi,hmask i hi,Tap.blockWord_rewordBlocks (le_byteWidth k) (Nat.le_refl _) shifted d hi]
      rfl
    let sent := fun (scratch a b : Shares 3 (Lint L)) (net : Net 3 (Tap L)) (q : Fin 3) =>
      (List.range size).map fun i =>
        received k (rssMultPubWord (fun p => scratch p 0) (fun p => scratch p 1) a b size k net q i)
    have hsent : ∀ q, sent scratch a b (Tap.withHidden p net (join d default)) q =
        sent scratch' a' b' (Tap.withHidden p net' (join d' default)) q := fun q =>
      List.map_congr_left fun i hi => hword i (List.mem_range.mp hi) q
    have hstart : Tap.withHidden p net (join d default) p = Tap.withHidden p net' (join d' default) p := by
      rw [Tap.withHidden_self,Tap.withHidden_self,hnet]
    have hheard : Message.words (sent scratch a b (Tap.withHidden p net (join d default)) (p + 2) ++
          sent scratch a b (Tap.withHidden p net (join d default)) (p + 1)) =
        Message.words (sent scratch' a' b' (Tap.withHidden p net' (join d' default)) (p + 2) ++
          sent scratch' a' b' (Tap.withHidden p net' (join d' default)) (p + 1)) := by
      rw [hsent,hsent]
    have hown : ((tapSuite scratch).multPub a b size k (Tap.withHidden p net (join d default))).2 p =
        ((tapSuite scratch').multPub a' b' size k (Tap.withHidden p net' (join d' default))).2 p := by
      show Tap.hear (fun p => .words (sent scratch a b _ (p + 2) ++ sent scratch a b _ (p + 1))) _ p =
        Tap.hear (fun p => .words (sent scratch' a' b' _ (p + 2) ++ sent scratch' a' b' _ (p + 1))) _ p
      exact Tap.hear_congr hheard
        (Net.advance_congr (Net.advance_congr hstart 0 (byteWidth k) size) 1 (byteWidth k) size)
    rw [hz default,hz' default] at hown
    simpa only [overlay,Tap.withHidden_self] using hown
  refine coupled_matched (Q := fun _ _ => True) hpair
    (V := fun e => ∀ i, i < size → ∀ q, e q i = (x i*y i).setWidth (8*L))
    (W := fun e => ∀ i, i < size → ∀ q, e q i = (x' i*y' i).setWidth (8*L)) (fun ω => ⟨?_,?_⟩)
    (fun ω => ⟨?_,?_⟩) fun e e' _ he he' i hi q => ⟨he i hi q,by rw [hproduct i hi,he' i hi q]⟩
  · exact fun i hi q => multPub_value hk (hs ω) scratch (ha i hi) (hb i hi) q
  · exact multPub_sound scratch a b (hs ω)
  · exact fun i hi q => multPub_value hk (hs' ω) scratch' (ha' i hi) (hb' i hi) q
  · exact multPub_sound scratch' a' b' (hs' ω)

end MultPub

section RandBit
variable {p : Fin 3} {size i : Nat} {net net' : Net 3 (Tap L)} {u u' : Shares 3 (Lint L)}

def twoSlots (x : Shares 3 (Lint L)) : Shares 3 (Lint L) := fun q s i => if s < 2 then x q s i else 0

theorem twoSlots_of_lt (x : Shares 3 (Lint L)) (q : Fin 3) {s : Nat} (hs : s < 2) (i : Nat) :
    twoSlots x q s i = x q s i := if_pos hs

theorem twoSlots_isSharing {x : Shares 3 (Lint L)} {v : BitVec k} :
    ArithSharing shares3pc k (twoSlots x) i v ↔ ArithSharing shares3pc k x i v := by
  constructor
  · exact fun h => h.congr fun q s hs => by rw [twoSlots_of_lt x q hs]
  · exact fun h => h.congr fun q s hs => by rw [twoSlots_of_lt x q hs]

theorem AlikeAt.twoSlots {x y : Shares 3 (Lint L)} (h : AlikeAt p 2 size x y) :
    AlikeAt p 2 size (twoSlots x) (twoSlots y) := by
  intro s hs i hi
  rw [twoSlots_of_lt x p hs,twoSlots_of_lt y p hs,h s hs i hi]

def fetched (u : Shares 3 (Lint L)) (ring_size size : Nat) (net : Net 3 (Tap L)) :
    Shares 3 (Lint L) × Net 3 (Tap L) :=
  (twoSlots (randWords u (byteWidth ring_size) size net),
    net.advanceAll 2 (byteWidth ring_size) fun _ => size)

theorem advanceAll_shared (net : Net 3 (Tap L)) (bytes size : Nat) :
    net.advanceAll 2 bytes (fun _ => size) = (net.advance 1 bytes size).advance 0 bytes size := by
  funext q s
  rw [Tap.advanceShared_apply]
  rfl

theorem fetched_local (p : Fin 3) (u : Shares 3 (Lint L)) (net : Net 3 (Tap L))
    (d : Blocks (Tap.ofShare (byteWidth k*size)) Byte) : ∃ x, ∀ ω,
      fetched u k size (Tap.withHidden p net (join d ω)) = overlay p x ω := by
  simp only [fetched,advanceAll_shared]
  refine shared_local p net (fun net => twoSlots (randWords u (byteWidth k) size net))
    (fun net net' h => ?_) d
  funext q s i
  simp only [twoSlots,randWords]
  by_cases hs : s < 2
  · rw [if_pos hs,if_pos hs,h s hs]
  · rw [if_neg hs,if_neg hs]

theorem fetched_sound (u : Shares 3 (Lint L)) (hnet : shares3pc.Consistent (Tap.silence net)) :
    shares3pc.Consistent (Tap.silence (fetched u k size net).2) := by
  rw [fetched,advanceAll_shared,← Tap.silence_advance,← Tap.silence_advance]
  exact advance_consistent3pc hnet _ _

def knownSum (k : Nat) (u : Shares 3 (Lint L)) (size : Nat) (net : Net 3 (Tap L)) (p : Fin 3) (i : Nat) :
    BitVec k :=
  (randWords u (byteWidth k) size net p 0 i).setWidth k +
    (randWords u (byteWidth k) size net p 1 i).setWidth k

theorem fetched_isSharing (hk : k ≤ 8*L) (hs : Tap.Sound p net) (u : Shares 3 (Lint L))
    (d : Blocks (Tap.ofShare (byteWidth k*size)) Byte) (hi : i < size) :
    ArithSharing shares3pc k (fetched u k size (Tap.withHidden p net (join d default))).1 i
      (knownSum k u size net p i + Tap.blockWord k (byteWidth k) d .share i) := by
  let start := Tap.withHidden p net (join d default)
  obtain ⟨U,hU⟩ := (randWords_consistent (k := k) (hs (join d default)) u size i).exists_sharing
  have hsum := isSharing3pc_sum hU p
  have hplace : Tap.hiddenAt p (p + 1) 1 = some .share := if_pos (.inl ⟨rfl,rfl⟩)
  have hhidden : (randWords u (byteWidth k) size start (p + 1) 1 i).setWidth k =
      Tap.blockWord k (byteWidth k) d .share i :=
    load_hidden (arithMasking hk) hplace net d (u (p + 1) 1 i) hi
  have hknown : ∀ s, (randWords u (byteWidth k) size start p s i).setWidth k =
      (randWords u (byteWidth k) size net p s i).setWidth k := by
    intro s
    rw [randWords,randWords,Tap.random_known _ _ (Tap.hiddenAt_self p s)]
  rw [knownSum,← hknown 0,← hknown 1,← hhidden]
  refine twoSlots_isSharing.mpr ?_
  have hshared : ArithSharing shares3pc k (randWords u (byteWidth k) size start) i U := hU
  rwa [← hsum] at hshared

/-- The other word that has the same odd square and the other last bit, up to what is known. -/
def flipWord (κ : BitVec k) : BitVec k ≃ BitVec k := Equiv.subLeft (-(2*κ + 1))

theorem add_flipWord (κ x : BitVec k) : κ + flipWord κ x = ~~~(κ + x) := by
  have hnot : ~~~(κ + x) = -(κ + x) - 1 := by
    rw [BitVec.neg_eq_not_add]
    exact (add_sub_cancel_right _ _).symm
  rw [hnot]
  show κ + (-(2*κ + 1) - x) = -(κ + x) - 1
  ring

theorem fetched_coupled (hk : k ≤ 8*L) (p : Fin 3) (turned : Nat → Bool)
    (hu : AlikeAt p 2 size u u') (hnet : net p = net' p) (hs : Tap.Sound p net)
    (hs' : Tap.Sound p net') : Coupled (overlay p) (Tap.ofShare (byteWidth k*size))
      (fun ω => fetched u k size (Tap.withHidden p net ω))
      (fun ω => fetched u' k size (Tap.withHidden p net' ω))
      (Matched p fun w w' => AlikeAt p 2 size w w' ∧ ∀ i, i < size → ∃ U,
        ArithSharing shares3pc k w i U ∧
          ArithSharing shares3pc k w' i (if turned i then ~~~U else U)) := by
  let κ := knownSum k u size net p
  let shifted : Nat → BitVec k ≃ BitVec k := fun i => if turned i then flipWord (κ i) else Equiv.refl _
  have hwords : ∀ ω ω', AlikeAt p 2 size (randWords u (byteWidth k) size (Tap.withHidden p net ω))
      (randWords u' (byteWidth k) size (Tap.withHidden p net' ω')) := by
    intro ω ω' s hs i hi
    rw [randWords,randWords,hu s hs i hi,random_self hnet]
  have hκ : ∀ i, i < size → knownSum k u' size net' p i = κ i := by
    intro i hi
    simp only [κ,knownSum,randWords,Net.random,hnet,hu 0 (by decide) i hi,hu 1 (by decide) i hi]
  have hpair : Coupled (overlay p) (Tap.ofShare (byteWidth k*size))
      (fun ω => fetched u k size (Tap.withHidden p net ω))
      (fun ω => fetched u' k size (Tap.withHidden p net' ω))
      fun x y => (AlikeAt p 2 size x.1 y.1 ∧ ∀ i, i < size → ∃ U, ArithSharing shares3pc k x.1 i U ∧
        ArithSharing shares3pc k y.1 i (if turned i then ~~~U else U)) ∧ x.2 p = y.2 p := by
    refine Coupled.of_local (fetched_local p u net) (fetched_local p u' net')
      (Tap.rewordBlocks (j := .share) (le_byteWidth k) (Nat.le_refl _) shifted) fun d z z' hz hz' => ?_
    let d' := Tap.rewordBlocks (N := Tap.ofShare (byteWidth k*size)) (j := .share) (le_byteWidth k)
      (Nat.le_refl _) shifted d
    have hend : fetched u k size (Tap.withHidden p net (join d default)) = overlay p z default := hz default
    have hend' : fetched u' k size (Tap.withHidden p net' (join d' default)) = overlay p z' default :=
      hz' default
    have harrays : z.1 = (fetched u k size (Tap.withHidden p net (join d default))).1 := by rw [hend]; rfl
    have harrays' : z'.1 = (fetched u' k size (Tap.withHidden p net' (join d' default))).1 := by
      rw [hend']; rfl
    refine ⟨⟨?_,fun i hi => ?_⟩,?_⟩
    · rw [harrays,harrays']
      exact (hwords _ _).twoSlots
    · rw [harrays,harrays']
      refine ⟨_,fetched_isSharing hk hs u d hi,?_⟩
      have hright := fetched_isSharing hk hs' u' d' hi
      rw [hκ i hi,Tap.blockWord_rewordBlocks (le_byteWidth k) (Nat.le_refl _) shifted d hi] at hright
      simp only [shifted] at hright
      by_cases hturned : turned i = true
      · rw [if_pos hturned] at hright ⊢
        rwa [add_flipWord] at hright
      · rwa [if_neg hturned] at hright ⊢
    · have hown : (overlay p z default).2 p = (overlay p z' default).2 p := by
        rw [← hend,← hend']
        simp only [fetched,advanceAll_shared]
        refine Net.advance_congr (Net.advance_congr ?_ _ _ _) _ _ _
        rw [Tap.withHidden_self,Tap.withHidden_self,hnet]
      simpa only [overlay,Tap.withHidden_self] using hown
  refine coupled_matched (V := fun _ => True) (W := fun _ => True) hpair (fun ω => ⟨trivial,?_⟩)
    (fun ω => ⟨trivial,?_⟩) fun _ _ h _ _ => h
  · exact fetched_sound u (hs ω)
  · exact fetched_sound u' (hs' ω)

def oddWords (w : Shares 3 (Lint L)) : Shares 3 (Lint L) := fun q s i =>
  (w q s i <<< 1) + bitWord L (ai3pc q s)

def rootBits (ring_size : Nat) (w : Shares 3 (Lint L)) (e : Fin 3 → Nat → Lint L) :
    Shares 3 (Lint L) := fun q s i =>
  (rssSqrtInv (ring_size+2) (e q i)*oddWords w q s i + bitWord L (ai3pc q s)) >>> 1

def randBitFrom (scratch : Shares 3 (Lint L)) (ring_size size : Nat)
    (x : Shares 3 (Lint L) × Net 3 (Tap L)) : Shares 3 (Lint L) × Net 3 (Tap L) :=
  let e := (tapSuite scratch).multPub (oddWords x.1) (oddWords x.1) size (ring_size+2) x.2
  (twoSlots (rootBits ring_size x.1 e.1),e.2)

theorem multPub_congr (scratch : Shares 3 (Lint L)) {a a' b b' : Shares 3 (Lint L)}
    (ha : ∀ q s, s < 2 → ∀ i, a q s i = a' q s i) (hb : ∀ q s, s < 2 → ∀ i, b q s i = b' q s i)
    (size ring_size : Nat) (net : Net 3 (Tap L)) :
    (tapSuite scratch).multPub a b size ring_size net =
      (tapSuite scratch).multPub a' b' size ring_size net := by
  let word := fun a b => rssMultPubWord (fun p => scratch p 0) (fun p => scratch p 1) a b size
    ring_size net
  have hword : word a b = word a' b' := by
    funext q i
    simp only [word,rssMultPubWord]
    rw [product3pc_congr _ (fun s hs => ha q s hs i) (fun s hs => hb q s hs i)]
  let sent := fun (word : Fin 3 → Nat → Lint L) q => (List.range size).map fun i =>
    received ring_size (word q i)
  have hunfold : ∀ a b, (tapSuite scratch).multPub a b size ring_size net =
      (fun p i => masked ring_size (word a b p i + received ring_size (word a b (p + 2) i) +
          received ring_size (word a b (p + 1) i)),
        Tap.hear (fun p => .words (sent (word a b) (p + 2) ++ sent (word a b) (p + 1)))
          ((net.advance 0 (byteWidth ring_size) size).advance 1 (byteWidth ring_size) size)) :=
    fun _ _ => rfl
  rw [hunfold,hunfold,hword]

theorem randBit_twoSlots (scratch u : Shares 3 (Lint L)) (size : Nat) (net : Net 3 (Tap L)) :
    (twoSlots ((tapSuite scratch).randBit u size k net).1,
      ((tapSuite scratch).randBit u size k net).2) =
        randBitFrom scratch k size (fetched u (k+2) size net) := by
  let w := randWords u (byteWidth (k+2)) size net
  have hodd : ∀ q s, s < 2 → ∀ i, oddWords w q s i = oddWords (twoSlots w) q s i := by
    intro q s hs i
    rw [oddWords,oddWords,twoSlots_of_lt w q hs]
  have hsquares := multPub_congr scratch hodd hodd size (k+2)
    (net.advanceAll 2 (byteWidth (k+2)) fun _ => size)
  have hrun : (tapSuite scratch).randBit u size k net =
      let e := (tapSuite scratch).multPub (oddWords w) (oddWords w) size (k+2)
        (net.advanceAll 2 (byteWidth (k+2)) fun _ => size)
      (rootBits k w e.1,e.2) := rfl
  rw [hrun,hsquares]
  refine Prod.ext ?_ rfl
  funext q s i
  let e := (tapSuite scratch).multPub (oddWords (twoSlots w)) (oddWords (twoSlots w)) size (k+2)
    (net.advanceAll 2 (byteWidth (k+2)) fun _ => size)
  show twoSlots (rootBits k w e.1) q s i = twoSlots (rootBits k (twoSlots w) e.1) q s i
  by_cases hs : s < 2
  · rw [twoSlots_of_lt _ q hs,twoSlots_of_lt _ q hs,rootBits,rootBits,hodd q s hs i]
  · rw [twoSlots,twoSlots,if_neg hs,if_neg hs]

theorem oddWords_isSharing (hk : k ≤ 8*L) {w : Shares 3 (Lint L)} {U : BitVec k}
    (hw : ArithSharing shares3pc k w i U) : ArithSharing shares3pc k (oddWords w) i (2*U+1) := by
  have hone := (suite3pc_marks (G := Tap L) (L := L) fun _ _ _ => 0).isSharing (1 : BitVec k)
  refine ((hw.const_mul 2).add hone).congr fun q s _ => ?_
  rw [oddWords,← lowBits_apply hk,map_add,← Lifting.two_mul_eq,map_mul,map_ofNat,lowBits_apply,
    lowBits_apply,setWidth_bitWord hk,bitVal_eq]
  rfl

theorem rootBits_isSharing (hk : 0 < k) (hkL : k + 2 ≤ 8*L) {w : Shares 3 (Lint L)}
    {e : Fin 3 → Nat → Lint L} {U : BitVec (k+2)} (hw : ArithSharing shares3pc (k+2) w i U)
    (he : ∀ q, e q i = ((2*U+1)*(2*U+1)).setWidth (8*L)) :
    ArithSharing shares3pc k (rootBits k w e) i (bitVal k (!U.getLsbD 0)) := by
  let c : Lint L := rssSqrtInv (k+2) (((2*U+1)*(2*U+1)).setWidth (8*L))
  obtain ⟨hc,hvalue⟩ := randBit_value (L := L) hk hkL U
  have hlow : ArithSharing shares3pc k w i (U.setWidth k) := by
    refine (hw.map (lowBits (show k ≤ k+2 by omega)).toAddMonoidHom).congr fun p s _ => ?_
    exact (BitVec.setWidth_setWidth_of_le _ (by omega)).symm
  have hmark := (suite3pc_marks (G := Tap L) (L := L) fun _ _ _ => 0).isSharing
    (((c+1) >>> 1).setWidth k)
  have hsum := (hlow.const_mul (c.setWidth k)).add hmark
  rw [hvalue] at hsum
  refine hsum.congr fun q s _ => ?_
  have hroot : rssSqrtInv (k+2) (e q i) = c := by rw [he]
  rw [rootBits,hroot,oddWords,randBit_word (by omega) hc]
  rfl

theorem AlikeAt.rootBits {w w' : Shares 3 (Lint L)} {e e' : Fin 3 → Nat → Lint L}
    (hw : AlikeAt p 2 size w w') (he : ∀ i, i < size → e p i = e' p i) :
    AlikeAt p 2 size (rootBits k w e) (rootBits k w' e') := by
  intro s hs i hi
  rw [RssRing.rootBits,RssRing.rootBits,oddWords,oddWords,hw s hs i hi,he i hi]

theorem turned_square (U : BitVec k) : (2*U+1)*(2*U+1) = (2*~~~U+1)*(2*~~~U+1) := by
  have hnot : ~~~U = -U - 1 := by
    rw [BitVec.neg_eq_not_add]
    exact (add_sub_cancel_right _ _).symm
  rw [hnot]
  ring

theorem randBit_coupled (hk : 0 < k) (hkL : k + 2 ≤ 8*L) (p : Fin 3) (turned : Nat → Bool)
    (scratch scratch' : Shares 3 (Lint L)) (hu : AlikeAt p 2 size u u') (hnet : net p = net' p)
    (hs : Tap.Sound p net) (hs' : Tap.Sound p net') :
    Coupled (overlay p)
      (Tap.ofShare (byteWidth (k+2)*size) + Tap.ofShare (byteWidth (k+2)*size))
      (fun ω => randBitFrom scratch k size (fetched u (k+2) size (Tap.withHidden p net ω)))
      (fun ω => randBitFrom scratch' k size (fetched u' (k+2) size (Tap.withHidden p net' ω)))
      (Matched p fun b b' => AlikeAt p 2 size b b' ∧ ∀ i, i < size → ∃ β,
        ArithSharing shares3pc k b i (bitVal k β) ∧
          ArithSharing shares3pc k b' i (bitVal k (β ^^ turned i))) := by
  refine (fetched_coupled hkL p turned hu hnet hs hs').bind (overlay p) (randBitFrom scratch k size)
    (randBitFrom scratch' k size) fun x x' hx => ?_
  obtain ⟨⟨hw,hvalues⟩,hown,hleft,hright⟩ := hx
  choose! U hU hU' using hvalues
  have hodd : AlikeAt p 2 size (oddWords x.1) (oddWords x'.1) := fun s hs i hi => by
    rw [oddWords,oddWords,hw s hs i hi]
  have hsquares := multPub_coupled hkL p scratch scratch' hodd hodd hown hleft hright
    (fun i hi => oddWords_isSharing hkL (hU i hi)) (fun i hi => oddWords_isSharing hkL (hU i hi))
    (fun i hi => oddWords_isSharing hkL (hU' i hi)) (fun i hi => oddWords_isSharing hkL (hU' i hi))
    fun i hi => by
      by_cases hturned : turned i = true
      · rw [if_pos hturned,turned_square]
      · rw [if_neg hturned]
  refine coupled_arrays (fun e => twoSlots (rootBits k x.1 e)) (fun e => twoSlots (rootBits k x'.1 e))
    hsquares fun y y' hy => ⟨⟨?_,fun i hi => ⟨!(U i).getLsbD 0,?_,?_⟩⟩,hy.own,hy.left,hy.right⟩
  · refine (hw.rootBits fun i hi => ?_).twoSlots
    rw [(hy.arrays i hi p).1,(hy.arrays i hi p).2]
  · exact twoSlots_isSharing.mpr (rootBits_isSharing hk hkL (hU i hi) fun q => (hy.arrays i hi q).1)
  · refine twoSlots_isSharing.mpr ?_
    by_cases hturned : turned i = true
    · have hright := hU' i hi
      rw [if_pos hturned] at hright
      have hsquare : ∀ q, y'.1 q i = ((2*~~~U i+1)*(2*~~~U i+1)).setWidth (8*L) := fun q => by
        rw [(hy.arrays i hi q).2,turned_square]
      have hbit := rootBits_isSharing hk hkL hright hsquare
      have hlow : (~~~U i).getLsbD 0 = !(U i).getLsbD 0 := by
        rw [BitVec.getLsbD_not,decide_eq_true (by omega),Bool.true_and]
      rw [hlow] at hbit
      rwa [hturned,Bool.xor_true]
    · have hright := hU' i hi
      rw [if_neg hturned] at hright
      rw [Bool.not_eq_true] at hturned
      rw [hturned,Bool.xor_false]
      exact rootBits_isSharing hk hkL hright fun q => (hy.arrays i hi q).2

theorem randBit_silence (scratch u : Shares 3 (Lint L)) (size : Nat) (net : Net 3 (Tap L)) :
    (suite3pc scratch).randBit u size k (Tap.silence net) =
      (((tapSuite scratch).randBit u size k net).1,
        Tap.silence ((tapSuite scratch).randBit u size k net).2) := by
  have hstart : (Tap.silence net).advanceAll 2 (byteWidth (k+2)) (fun _ => size) =
      Tap.silence (net.advanceAll 2 (byteWidth (k+2)) fun _ => size) := by
    rw [advanceAll_shared,advanceAll_shared,Tap.silence_advance,Tap.silence_advance]
  let w := randWords u (byteWidth (k+2)) size net
  have hrun : (suite3pc scratch).randBit u size k (Tap.silence net) =
      let e := (suite3pc scratch).multPub (oddWords w) (oddWords w) size (k+2)
        ((Tap.silence net).advanceAll 2 (byteWidth (k+2)) fun _ => size)
      (rootBits k w e.1,e.2) := rfl
  rw [hrun,hstart,multPub_silence]
  rfl

/-- A run of `Rss_RandBit` is that of the code with a note of all messages, and hides the bits:
whichever of them are turned, hidden streams that are permutations of each other give two runs
that look the same to a party and leave sharings of bits that differ just there. -/
theorem randBit_views (hk : 0 < k) (hkL : k + 2 ≤ 8*L) (p : Fin 3) (turned : Nat → Bool)
    (scratch scratch' u u' : Shares 3 (Lint L)) (hu : AlikeAt p 2 size u u')
    (net net' : Net 3 (Tap L)) (hnet : net p = net' p) (hs : Tap.Sound p net)
    (hs' : Tap.Sound p net') :
    (suite3pc scratch).randBit u size k (Tap.silence net) =
      (((tapSuite scratch).randBit u size k net).1,
        Tap.silence ((tapSuite scratch).randBit u size k net).2) ∧
    ∃ φ : (Hidden → Nat → Byte) ≃ (Hidden → Nat → Byte), ∀ ω,
      let x := (tapSuite scratch).randBit u size k (Tap.withHidden p net ω)
      let y := (tapSuite scratch').randBit u' size k (Tap.withHidden p net' (φ ω))
      SeenAlike p 2 size x y ∧ ∀ i, i < size → ∃ β, ArithSharing shares3pc k x.1 i (bitVal k β) ∧
        ArithSharing shares3pc k y.1 i (bitVal k (β ^^ turned i)) := by
  refine ⟨randBit_silence scratch u size net,?_⟩
  obtain ⟨φ,hφ⟩ := (randBit_coupled hk hkL p turned scratch scratch' hu hnet hs hs').exists_equiv
  refine ⟨φ,fun ω => ?_⟩
  intro x y
  obtain ⟨z,z',ω',hz,hz',⟨hseen,hbits⟩,hown,-,-⟩ := hφ ω
  rw [← randBit_twoSlots] at hz hz'
  have hx : twoSlots x.1 = z.1 ∧ x.2 = Tap.withHidden p z.2 ω' := Prod.ext_iff.mp hz
  have hy : twoSlots y.1 = z'.1 ∧ y.2 = Tap.withHidden p z'.2 ω' := Prod.ext_iff.mp hz'
  rw [← hx.1,← hy.1] at hseen hbits
  refine ⟨⟨fun s hs i hi => ?_,?_⟩,fun i hi => ?_⟩
  · rw [← twoSlots_of_lt x.1 p hs,← twoSlots_of_lt y.1 p hs]
    exact hseen s hs i hi
  · rw [hx.2,hy.2,Tap.withHidden_self,Tap.withHidden_self,hown]
  · obtain ⟨β,hβ,hβ'⟩ := hbits i hi
    exact ⟨β,twoSlots_isSharing.mp hβ,twoSlots_isSharing.mp hβ'⟩

theorem randBit_views_turned :
    let net : Net 3 (Tap 4) := fun _ _ => ⟨fun i => BitVec.ofNat 8 (3*i+1),[]⟩
    let blank : Shares 3 (Lint 4) := fun _ _ _ => 0
    ∃ φ : (Hidden → Nat → Byte) ≃ (Hidden → Nat → Byte), ∀ ω,
      let x := (tapSuite blank).randBit blank 2 6 (Tap.withHidden 0 net ω)
      let y := (tapSuite blank).randBit blank 2 6 (Tap.withHidden 0 net (φ ω))
      SeenAlike 0 2 2 x y ∧ ∀ i, i < 2 → ∃ β, ArithSharing shares3pc 6 x.1 i (bitVal 6 β) ∧
        ArithSharing shares3pc 6 y.1 i (bitVal 6 (β ^^ decide (i = 1))) := by
  intro net blank
  have hsound := Tap.Sound.of_same (L := 4) 0 fun i => BitVec.ofNat 8 (3*i+1)
  exact (randBit_views (L := 4) (k := 6) (by decide) (by decide) 0 (fun i => decide (i = 1)) blank blank
    blank blank (fun _ _ _ _ => rfl) net net rfl hsound hsound).2

end RandBit

end RssRing
