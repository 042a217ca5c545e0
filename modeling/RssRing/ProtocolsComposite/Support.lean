import RssRing.ProtocolsComposite.Suite
set_option autoImplicit false
set_option maxRecDepth 8000

namespace RssRing
open Replicated Finset

variable {n L k : Nat} {W : Type}

def Silent (net : Net n Tape) : Prop := ∀ p s i, (net p s).byte i = 0

namespace Silent
variable {net : Net n Tape}

theorem random_eq (h : Silent net) (keyID size length : Nat) (p : Fin n) :
    net.random keyID size length p = fun _ => 0 := by
  funext i
  exact h p keyID i

theorem advance (h : Silent net) (keyID size length : Nat) :
    Silent (net.advance keyID size length) := by
  intro p s i
  by_cases hs : s = keyID
  · subst hs
    rw [Net.advance,Function.update_self]
    exact h p s _
  · rw [Net.advance,Function.update_of_ne hs]
    exact h p s i

theorem advanceAll (h : Silent net) (slots size : Nat) (length : Nat → Nat) :
    Silent (net.advanceAll slots size length) := by
  intro p s i
  by_cases hs : s < slots
  · rw [Net.advanceAll,if_pos hs]
    exact h p s _
  · rw [Net.advanceAll,if_neg hs]
    exact h p s i

end Silent

def Supported (H : Pattern (Fin n) (Finset (Fin n))) (A : Finset (Finset (Fin n)))
    (x : Fin n → Nat → Bool) : Prop := ∀ p s, s < H.slots → H.hold p s ∉ A → x p s = false

namespace Supported
variable {H : Pattern (Fin n) (Finset (Fin n))} {A : Finset (Finset (Fin n))}
  {x y : Fin n → Nat → Bool}

theorem congr (h : Supported H A x) (hxy : ∀ p s, s < H.slots → y p s = x p s) :
    Supported H A y := by
  intro p s hs hp
  rw [hxy p s hs,h p s hs hp]

theorem xor (hx : Supported H A x) (hy : Supported H A y) :
    Supported H A fun p s => x p s ^^ y p s := by
  intro p s hs hp
  show (x p s ^^ y p s) = false
  rw [hx p s hs hp,hy p s hs hp,Bool.xor_false]

end Supported

namespace MultTable
variable {tab : MultTable n} {H : Pattern (Fin n) (Finset (Fin n))}

/-- Every product of two of the shares `A` is handed to a share of `A`. -/
def Closed (tab : MultTable n) (H : Pattern (Fin n) (Finset (Fin n)))
    (A : Finset (Finset (Fin n))) : Prop :=
  ∀ q, ∀ r ∈ slotPairs tab.numShares tab.gamma, H.hold q r.1 ∈ A → H.hold q r.2 ∈ A →
    H.hold q 0 ∈ A

theorem Agrees.mult_supported (hA : tab.Agrees H) (track : Tracking) (K : WordKind W) {size : Nat}
    {net : Net n Tape} (hnet : Silent net) {A : Finset (Finset (Fin n))} (hclosed : tab.Closed H A)
    (hpairs : ∀ q ∈ slotPairs tab.numShares tab.gamma, q.1 < H.slots ∧ q.2 < H.slots)
    (ρ : Reading K Bool) (hload : ∀ pos, ρ.val (K.load K.zero (fun _ => 0) pos) = 0)
    (a b : Shares n W) {i : Nat} (hi : i < size) (ha : Supported H A fun p s => ρ.val (a p s i))
    (hb : Supported H A fun p s => ρ.val (b p s i)) :
    Supported H A fun p s =>
      ρ.val ((tab.mult K (fun size p => tab.maskUses track p size) size net a b).1 p s i) := by
  intro p t ht hp
  have hmask : ∀ q s p', ρ.val (tab.maskWord track K size net q s i p') = 0 := by
    intro q s p'
    rw [maskWord,hnet.random_eq]
    exact hload _
  have hown : ∀ q, tab.ownMasks track ρ size net i q = 0 := by
    intro q
    rw [ownMasks]
    simp only [hmask,ite_self,Finset.sum_const_zero]
  have hproduct : ∀ q, H.hold q 0 = H.hold p t →
      ρ.val (productMp K tab.numShares tab.gamma (fun s => a q s i) (fun s => b q s i)) = 0 := by
    intro q hq
    have hproducts : ∀ r ∈ slotPairs tab.numShares tab.gamma,
        ρ.val (a q r.1 i) * ρ.val (b q r.2 i) = 0 := by
      intro r hr
      obtain ⟨h₁,h₂⟩ := hpairs r hr
      by_cases hr₁ : H.hold q r.1 ∈ A
      · have hr₂ : H.hold q r.2 ∉ A := fun hr₂ => hp (hq ▸ hclosed q r hr hr₁ hr₂)
        exact (congrArg _ (hb q r.2 h₂ hr₂)).trans (mul_zero _)
      · exact (congrArg (· * _) (ha q r.1 h₁ hr₁)).trans (zero_mul _)
    rw [productMp_val,List.map_congr_left hproducts]
    simp only [List.map_const',List.sum_replicate,smul_zero]
  refine (hA.mult_val track K size net ρ a b p ht hi).trans ?_
  have hsum : (∑ q with H.hold q 0 = H.hold p t,
      (ρ.val (productMp K tab.numShares tab.gamma (fun s => a q s i) (fun s => b q s i)) -
        tab.ownMasks track ρ size net i q)) = 0 := by
    refine Finset.sum_eq_zero fun q hq => ?_
    rw [hproduct q (Finset.mem_filter.mp hq).2,hown]
    exact sub_zero _
  simp only [hmask,ite_self,Finset.sum_const_zero,hsum]
  rfl

end MultTable

theorem bitReading_load {j : Nat} (hj : j < k) (pos : Nat) :
    (bitReading L hj).val ((bitwiseKind L k).load 0 (fun _ => 0) pos) = 0 := by
  show (memcpyWord (0 : Lint L) (fun _ => 0) (pos*byteWidth k) (byteWidth k)).getLsbD j = false
  simp

theorem byteReading_load (j pos : Nat) :
    (byteReading j).val (byteKind.load 0 (fun _ => 0) pos) = 0 := BitVec.getLsbD_zero

def supported5pc (A : Finset (Finset (Fin 5))) (hA : table5pc.Closed shares5pc A)
    (multPub : Shares 5 (Lint L) → Shares 5 (Lint L) → Nat → Nat → Net 5 Tape → Fin 5 → Nat → Lint L) :
    Discipline (suite5pc multPub) where
  Shared x _ := Supported shares5pc A x
  NetOk := Silent
  congr h hxy := h.congr hxy
  zero _ _ _ _ := rfl
  xor hx hy := hx.xor hy
  byteNet _ _ _ _ hnet := hnet.advanceAll _ _ _
  byteBit a b _ _ _ _ _ _ hnet hi _ hx hy :=
    table5pc_agrees.mult_supported .running byteKind hnet hA pairs5pc_lt (byteReading _)
      (byteReading_load _) a b hi hx hy
  bitwiseNet _ _ _ _ _ _ hnet := hnet.advanceAll _ _ _
  bitwiseBit _ a b _ _ _ _ _ _ _ hnet hi hj hx hy :=
    table5pc_agrees.mult_supported .running _ hnet hA pairs5pc_lt (bitReading L hj)
      (bitReading_load hj) a b hi hx hy

def supported7pc (A : Finset (Finset (Fin 7))) (hA : table7pc.Closed shares7pc A)
    (multPub : Shares 7 (Lint L) → Shares 7 (Lint L) → Nat → Nat → Net 7 Tape → Fin 7 → Nat → Lint L)
    (openShares : Shares 7 (Lint L) → Nat → Fin 7 → Nat → Lint L) :
    Discipline (suite7pc multPub openShares) where
  Shared x _ := Supported shares7pc A x
  NetOk := Silent
  congr h hxy := h.congr hxy
  zero _ _ _ _ := rfl
  xor hx hy := hx.xor hy
  byteNet _ _ _ _ hnet := hnet.advanceAll _ _ _
  byteBit a b _ _ _ _ _ _ hnet hi _ hx hy :=
    table7pc_agrees.mult_supported .unmoved byteKind hnet hA pairs7pc_lt (byteReading _)
      (byteReading_load _) a b hi hx hy
  bitwiseNet _ _ _ _ _ _ hnet := hnet.advanceAll _ _ _
  bitwiseBit _ a b _ _ _ _ _ _ _ hnet hi hj hx hy :=
    table7pc_agrees.mult_supported .perUse _ hnet hA pairs7pc_lt (bitReading L hj)
      (bitReading_load hj) a b hi hx hy

theorem closed5pc : table5pc.Closed shares5pc {{1,2}} := by
  unfold MultTable.Closed
  decide

theorem closed7pc : table7pc.Closed shares7pc {{1,2,3}} := by
  unfold MultTable.Closed
  decide

end RssRing
