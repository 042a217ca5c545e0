import RssRing.ProtocolsBasic.MultMp
set_option autoImplicit false

namespace RssRing
open Replicated Tally Finset

variable {W : Type} {L n k : Nat}

/-- `sendbuf[r]` of an opening is the sum of the slots `sendSlots r`. -/
structure OpenTable (n : Nat) where
  numShares : Nat
  routing : Routing n
  sendSlots : Nat → List Nat

namespace OpenTable
variable (tab : OpenTable n)

/-- The common body of the openings among five and seven parties. -/
def openShares (ring_size : Nat) (a : Shares n (Lint L)) (p : Fin n) (i : Nat) : Lint L :=
  let sum := sumWords (arithKind L ring_size)
  let sendbuf := fun q r => sum ((tab.sendSlots r).map fun s => a q s i)
  let recvbuf := fun r => tab.routing.deliver (fun q r' => received ring_size (sendbuf q r')) 0 p r
  masked ring_size (sum ((List.range tab.numShares).map fun s => a p s i) +
    sum ((List.range tab.routing.rounds).map recvbuf))

def collect (K : WordKind W) (a : Shares n W) (p : Fin n) (i : Nat) : W :=
  let sum := sumWords K
  let sendbuf := fun q r => sum ((tab.sendSlots r).map fun s => a q s i)
  let recvbuf := fun r => tab.routing.deliver (fun q r' => K.recv (sendbuf q r')) K.zero p r
  K.add (sum ((List.range tab.numShares).map fun s => a p s i))
    (sum ((List.range tab.routing.rounds).map recvbuf))

def counted (H : Pattern (Fin n) (Finset (Fin n))) (p : Fin n) : List (Finset (Fin n)) :=
  (List.range tab.numShares).map (H.hold p) ++ (List.range tab.routing.rounds).flatMap fun r =>
    match tab.routing.source p r with
    | some (q,r') => (tab.sendSlots r').map (H.hold q)
    | none => []

section
variable {tab} {H : Pattern (Fin n) (Finset (Fin n))}

theorem collect_val {R : Type} [CommRing R] {K : WordKind W} (ρ : Reading K R)
    (hslots : tab.numShares = H.slots)
    (hsend : ∀ r, r < tab.routing.rounds → ∀ s ∈ tab.sendSlots r, s < H.slots)
    (hserved : ∀ p r, r < tab.routing.rounds → (tab.routing.source p r).isSome)
    {a : Shares n W} {i : Nat} {σ : Finset (Fin n) → R}
    (ha : H.Holds (fun p s => ρ.val (a p s i)) σ) (p : Fin n) :
    ρ.val (tab.collect K a p i) = ((tab.counted H p).map σ).sum := by
  have hslot : ∀ q s, s < H.slots → ρ.val (a q s i) = σ (H.hold q s) := ha
  rw [collect,ρ.add,sumWords_val,sumWords_val,counted,List.map_append,List.sum_append,List.map_map,
    List.map_map,List.map_map,sum_map_flatMap]
  have hown : (List.range tab.numShares).map (ρ.val ∘ fun s => a p s i) =
      (List.range tab.numShares).map (σ ∘ H.hold p) := by
    apply List.map_congr_left
    intro s hs
    exact hslot p s (hslots ▸ List.mem_range.mp hs)
  have hrecv : (List.range tab.routing.rounds).map (ρ.val ∘ fun r =>
      tab.routing.deliver (fun q r' => K.recv (sumWords K
        ((tab.sendSlots r').map fun s => a q s i))) K.zero p r) =
      (List.range tab.routing.rounds).map fun r => ((match tab.routing.source p r with
        | some (q,r') => (tab.sendSlots r').map (H.hold q)
        | none => []).map σ).sum := by
    apply List.map_congr_left
    intro r hr
    obtain ⟨⟨q,r'⟩,hq⟩ := Option.isSome_iff_exists.mp (hserved p r (List.mem_range.mp hr))
    rw [Function.comp_apply,Routing.deliver_of_source hq,hq,List.map_map,ρ.recv,sumWords_val,
      List.map_map]
    congr 1
    apply List.map_congr_left
    intro s hs
    exact hslot q s (hsend r' (Routing.lt_of_source hq) s hs)
  rw [hown,hrecv]

end

theorem openShares_congr {a b : Shares n (Lint L)} {p : Fin n} {i : Nat}
    (hown : ∀ s, s < tab.numShares → a p s i = b p s i)
    (hsent : ∀ r, r < tab.routing.rounds → ∀ q r', tab.routing.source p r = some (q,r') →
      ∀ s ∈ tab.sendSlots r', a q s i = b q s i) :
    tab.openShares k a p i = tab.openShares k b p i := by
  have hbuf : (List.range tab.routing.rounds).map (fun r => tab.routing.deliver
      (fun q r' => received k (sumWords (arithKind L k) ((tab.sendSlots r').map fun s => a q s i)))
        0 p r) = (List.range tab.routing.rounds).map fun r => tab.routing.deliver
      (fun q r' => received k (sumWords (arithKind L k) ((tab.sendSlots r').map fun s => b q s i)))
        0 p r := by
    apply List.map_congr_left
    intro r hr
    rw [Routing.deliver,Routing.deliver]
    cases hq : tab.routing.source p r with
    | none => rfl
    | some x =>
      obtain ⟨q,r'⟩ := x
      simp only [List.map_congr_left (hsent r (List.mem_range.mp hr) q r' hq)]
  have hslots : (List.range tab.numShares).map (fun s => a p s i) =
      (List.range tab.numShares).map fun s => b p s i :=
    List.map_congr_left fun s hs => hown s (List.mem_range.mp hs)
  simp only [openShares,hbuf,hslots]

end OpenTable

theorem masked_eq_iff (hk : k ≤ 8*L) (x : Lint L) (v : BitVec k) :
    masked k x = v.setWidth (8*L) ↔ x.setWidth k = v := by
  constructor
  · intro h
    have hx : x.setWidth k = (masked k x).setWidth k :=
      setWidth_ext fun j hj => (getLsbD_masked x hj).symm
    rw [hx,h,BitVec.setWidth_setWidth_of_le _ hk,BitVec.setWidth_eq]
  · rintro rfl
    apply BitVec.eq_of_getLsbD_eq
    intro j hj
    rw [masked,getLsbD_and_shift,BitVec.getLsbD_setWidth,BitVec.getLsbD_setWidth,
      decide_eq_true hj,Bool.true_and,Bool.and_comm]

section
variable {tab : OpenTable n} {H : Pattern (Fin n) (Finset (Fin n))}

theorem openShares_val (hk : k ≤ 8*L) (hslots : tab.numShares = H.slots)
    (hsend : ∀ r, r < tab.routing.rounds → ∀ s ∈ tab.sendSlots r, s < H.slots)
    (hserved : ∀ p r, r < tab.routing.rounds → (tab.routing.source p r).isSome)
    {a : Shares n (Lint L)} {i : Nat} {σ : Finset (Fin n) → BitVec k}
    (ha : H.Holds (fun p s => (a p s i).setWidth k) σ) (p : Fin n) (v : BitVec k) :
    tab.openShares k a p i = v.setWidth (8*L) ↔ ((tab.counted H p).map σ).sum = v := by
  have hval : ∀ x : Lint L, (arithReading hk).val x = x.setWidth k := fun _ => rfl
  show masked k (tab.collect (arithKind L k) a p i) = _ ↔ _
  rw [masked_eq_iff hk,← hval,tab.collect_val (arithReading hk) hslots hsend hserved ha]

end

def openTable5pc : OpenTable 5 where
  numShares := 6
  routing := openMap5pc
  sendSlots := fun | 0 => [0,1] | 1 => [4,5] | _ => []

def openTable7pc : OpenTable 7 where
  numShares := 20
  routing := openMap7pc
  sendSlots := fun | 0 => [0,1,2,3,4] | 1 => [10,11,12,13,14] | 2 => [1,5,16,17,18] | _ => []

def rssOpenMp (a : Shares 5 (Lint L)) (ring_size : Nat) := openTable5pc.openShares ring_size a

def rssOpenBitwiseMp (a : Shares 5 (Lint L)) (ring_size : Nat) (p : Fin 5) (i : Nat) : Lint L :=
  masked ring_size (openTable5pc.collect (bitwiseKind L ring_size) a p i)

def rssOpenByteMp (a : Shares 5 Byte) (p : Fin 5) (i : Nat) : Byte :=
  openTable5pc.collect byteKind a p i

def rssOpen7pc (a : Shares 7 (Lint L)) (ring_size : Nat) := openTable7pc.openShares ring_size a

/-- The shares that `Rss_Open_7pc` counts at party `p` once it has counted them
already: three of them come twice more. -/
def repeated7pc (p : Fin 7) : Multiset (Finset (Fin 7)) :=
  ↑(([[0,1,2],[0,1,2],[0,1,3],[0,1,3],[0,1,4],[0,2,3],[0,2,3],[1,5,6]] : List (List (Fin 7))).map
    fun T => (T.map fun d => p + d).toFinset)

def missing7pc (p : Fin 7) : Multiset (Finset (Fin 7)) :=
  ↑(([[0,1,6],[0,2,6],[0,3,4],[0,3,5],[0,3,6],[0,4,5],[0,4,6],[0,5,6]] : List (List (Fin 7))).map
    fun T => (T.map fun d => p + d).toFinset)

theorem counted5pc : ∀ p, (openTable5pc.counted shares5pc p : Multiset _) = shares5pc.names.val := by
  decide

theorem counted7pc : ∀ p, (openTable7pc.counted shares7pc p : Multiset _) + missing7pc p =
    shares7pc.names.val + repeated7pc p := by
  have htally : ∀ p,
      ((openTable7pc.counted shares7pc p : Multiset _) + missing7pc p).card < 64 ∧
      (shares7pc.names.val + repeated7pc p).card < 64 ∧
      tally 64 (((openTable7pc.counted shares7pc p : Multiset _) + missing7pc p).map maskOf) =
        tally 64 ((shares7pc.names.val + repeated7pc p).map maskOf) := by
    decide
  intro p
  obtain ⟨hleft,hright,h⟩ := htally p
  exact eq_of_tally maskOf_injective hleft hright h

theorem collect5pc_eq {R : Type} [CommRing R] {K : WordKind W} (ρ : Reading K R) {a : Shares 5 W}
    {i : Nat} {v : R} (ha : shares5pc.IsSharing (fun p s => ρ.val (a p s i)) v) (p : Fin 5) :
    ρ.val (openTable5pc.collect K a p i) = v := by
  obtain ⟨σ,hσ,rfl⟩ := ha
  rw [OpenTable.collect_val ρ rfl (by decide) (by decide) hσ,← Multiset.sum_coe,
    ← Multiset.map_coe,counted5pc]
  rfl

theorem rssOpenMp_eq (hk : k ≤ 8*L) {a : Shares 5 (Lint L)} {i : Nat} {v : BitVec k}
    (ha : ArithSharing shares5pc k a i v) (p : Fin 5) : rssOpenMp a k p i = v.setWidth (8*L) := by
  have hval : (openTable5pc.collect (arithKind L k) a p i).setWidth k = v :=
    collect5pc_eq (arithReading hk) ha p
  exact (masked_eq_iff hk _ v).mpr hval

theorem rssOpenBitwiseMp_eq (hk : k ≤ 8*L) {a : Shares 5 (Lint L)} {i : Nat} {v : BitVec k}
    (ha : BitSharing shares5pc k a i v) (p : Fin 5) :
    rssOpenBitwiseMp a k p i = v.setWidth (8*L) := by
  rw [rssOpenBitwiseMp,masked_eq_iff hk]
  apply BitVec.eq_of_getLsbD_eq
  intro j hj
  rw [BitVec.getLsbD_setWidth,decide_eq_true hj,Bool.true_and]
  exact collect5pc_eq (bitReading L hj) (ha j hj) p

theorem rssOpenByteMp_eq {a : Shares 5 Byte} {i : Nat} {v : Byte}
    (ha : BitSharing shares5pc 8 a i v) (p : Fin 5) : rssOpenByteMp a p i = v := by
  apply BitVec.eq_of_getLsbD_eq
  intro j hj
  exact collect5pc_eq (byteReading j) (ha j hj) p

/-- A seven-party opening is right at every party exactly when the shares it
repeats make up for the shares it leaves out. -/
theorem rssOpen7pc_eq_iff (hk : k ≤ 8*L) (size : Nat) {a : Shares 7 (Lint L)}
    {σ : Nat → Finset (Fin 7) → BitVec k}
    (ha : ∀ i, i < size → shares7pc.Holds (fun p s => (a p s i).setWidth k) (σ i)) :
    (∀ p i, i < size →
      rssOpen7pc a k p i = (∑ T ∈ shares7pc.names, σ i T).setWidth (8*L)) ↔
    ∀ p i, i < size → ((repeated7pc p).map (σ i)).sum = ((missing7pc p).map (σ i)).sum := by
  refine forall_congr' fun p => forall_congr' fun i => forall_congr' fun hi => ?_
  have hsum := congrArg (fun m => (m.map (σ i)).sum) (counted7pc p)
  simp only [Multiset.map_add,Multiset.sum_add,Multiset.map_coe,Multiset.sum_coe] at hsum
  refine (openShares_val hk rfl (by decide) (by decide) (ha i hi) p _).trans ?_
  rw [Finset.sum_eq_multiset_sum]
  constructor
  · intro h
    rw [h] at hsum
    exact (add_left_cancel hsum).symm
  · intro h
    rw [h] at hsum
    exact add_right_cancel hsum

/-- Where all shares are 1, the eight that are repeated make up for the eight left out. -/
theorem rssOpen7pc_alike : rssOpen7pc (L := 4) (fun _ _ _ => 1) 8 3 1 =
    (∑ _T ∈ shares7pc.names, (1 : BitVec 8)).setWidth 32 :=
  (rssOpen7pc_eq_iff (by decide) 2 (a := fun _ _ _ => 1) (σ := fun _ _ => 1)
    (fun _ _ _ _ _ => rfl)).mpr (by decide) 3 1 (by decide)

/-- Party 1 gets 0 for a secret 1 whose only nonzero share is that of `{1,2,7}`. -/
theorem rssOpen7pc_missing :
    shares7pc.Holds (fun p s => (if shares7pc.hold p s = {0,1,6} then (1 : Lint 4) else 0).setWidth 8)
      (fun T => if T = {0,1,6} then (1 : BitVec 8) else 0) ∧
    (∑ T ∈ shares7pc.names, if T = {0,1,6} then (1 : BitVec 8) else 0) = 1 ∧
    rssOpen7pc (L := 4) (fun p s _ => if shares7pc.hold p s = {0,1,6} then 1 else 0) 8 0 0 = 0 := by
  refine ⟨fun p s _ => ?_,by decide,by decide⟩
  by_cases hT : shares7pc.hold p s = {0,1,6} <;> simp [hT]

end RssRing
