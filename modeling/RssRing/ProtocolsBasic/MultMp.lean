import RssRing.Sharing
import RssRing.ProtocolsBasic.MaskLoop
set_option autoImplicit false
set_option maxRecDepth 8000

namespace RssRing
open Replicated Tally Finset

variable {G W : Type} [Generator G] {L n : Nat}

def sumWords (K : WordKind W) (l : List W) : W := l.foldl K.add K.zero

def productMp (K : WordKind W) (numShares : Nat) (gamma : Nat → List Nat) (a b : Nat → W) : W :=
  sumWords K ((List.range numShares).map fun s => K.mul (a s) (sumWords K ((gamma s).map b)))

namespace MultTable
variable (tab : MultTable n)

/-- The common body of the multiplications among five and seven parties.
`masks size p` lists the masks party `p` takes from its streams. -/
def mult (K : WordKind W) (masks : Nat → Fin n → List (MaskUse n)) (size : Nat) (net : Net n G)
    (a b : Shares n W) : Shares n W × Net n G :=
  let buffer := fun p t => net.random t K.bytes (tab.prgCtrs t*size) p
  let z := fun p (u : MaskUse n) => K.load K.zero (buffer p u.tIndex) u.pos
  let c := fun p t i => (masks size p).foldl
    (fun acc u => if u.tIndex = t ∧ u.i = i then K.add acc (z p u) else acc) K.zero
  let v := fun p i => (masks size p).foldl
    (fun acc u => if u.pPrime = p ∧ u.i = i then K.sub acc (z p u) else acc)
    (productMp K tab.numShares tab.gamma (fun s => a p s i) (fun s => b p s i))
  let recvBuf := fun p r i => tab.routing.deliver (fun q _ => K.recv (v q i)) K.zero p r
  let received := fun p t i => (List.range tab.routing.rounds).foldl
    (fun acc r => if t = tab.recvSlot r then K.add acc (recvBuf p r i) else acc) (c p t i)
  (fun p t i => if t = 0 then K.add (received p t i) (K.sent (v p i)) else received p t i,
    net.advanceAll tab.numShares K.bytes fun t => tab.prgCtrs t*size)

/-- What a multiplication does with the products of the parties: the masks and the
messages are added to what the result arrays held. -/
def reshare (K : WordKind W) (masks : Fin n → List (MaskUse n)) (size : Nat) (net : Net n G)
    (held : Shares n W) (products : Fin n → Nat → W) : Shares n W :=
  let buffer := fun p t => net.random t K.bytes (tab.prgCtrs t*size) p
  let z := fun p (u : MaskUse n) => K.load K.zero (buffer p u.tIndex) u.pos
  let c := fun p t i => (masks p).foldl
    (fun acc u => if u.tIndex = t ∧ u.i = i then K.add acc (z p u) else acc) (held p t i)
  let v := fun p i => (masks p).foldl
    (fun acc u => if u.pPrime = p ∧ u.i = i then K.sub acc (z p u) else acc) (products p i)
  let recvBuf := fun p r i => tab.routing.deliver (fun q _ => K.recv (v q i)) K.zero p r
  let received := fun p t i => (List.range tab.routing.rounds).foldl
    (fun acc r => if t = tab.recvSlot r then K.add acc (recvBuf p r i) else acc) (c p t i)
  fun p t i => if t = 0 then K.add (received p t i) (K.sent (v p i)) else received p t i

theorem mult_eq (K : WordKind W) (masks : Nat → Fin n → List (MaskUse n)) (size : Nat)
    (net : Net n G) (a b : Shares n W) : (tab.mult K masks size net a b).1 =
      tab.reshare K (masks size) size net (fun _ _ _ => K.zero)
        fun p i => productMp K tab.numShares tab.gamma (fun s => a p s i) (fun s => b p s i) := rfl

def sender (p : Fin n) (r : Nat) : Fin n := ((tab.routing.source p r).map Prod.fst).getD p

def incoming (p : Fin n) (t : Nat) : List (Fin n) :=
  ((List.range tab.routing.rounds).filter (fun r => t = tab.recvSlot r)).map (tab.sender p) ++
    if t = 0 then [p] else []

/-- What the tables have to say for the parties to keep a sharing over `H`. -/
structure Agrees (H : Pattern (Fin n) (Finset (Fin n))) : Prop where
  slots : tab.numShares = H.slots
  slots_pos : 0 < H.slots
  used_iff : ∀ p p' t, t < H.slots →
    (tab.used p p' t = true ↔ p' ∉ H.hold p t ∧ H.hold p' 0 ≠ H.hold p t)
  prgCtrs : ∀ p t, t < H.slots → tab.contributors p t = tab.prgCtrs t
  hold_inj : ∀ p s, s < H.slots → ∀ t, t < H.slots → H.hold p s = H.hold p t → s = t
  hold_image : ∀ p, (range H.slots).image (H.hold p) = {T ∈ H.names | p ∉ T}
  served : ∀ p r, r < tab.routing.rounds → (tab.routing.source p r).isSome
  incoming : ∀ p t, t < H.slots →
    ({q | H.hold q 0 = H.hold p t} : Finset (Fin n)).val = ↑(tab.incoming p t)

end MultTable

section Reading
variable {R : Type} [CommRing R] {K : WordKind W} (ρ : Reading K R)

theorem sumWords_val (l : List W) : ρ.val (sumWords K l) = (l.map ρ.val).sum := by
  have hfold : ∀ (l : List W) (x : W), ρ.val (l.foldl K.add x) = ρ.val x + (l.map ρ.val).sum := by
    intro l
    induction l with
    | nil => intro x; simp
    | cons y l ih => intro x; simp [ih,add_assoc]
  rw [sumWords,hfold,ρ.zero,zero_add]

def slotPairs (numShares : Nat) (gamma : Nat → List Nat) : List (Nat × Nat) :=
  (List.range numShares).flatMap fun s => (gamma s).map fun t => (s,t)

theorem productMp_val (numShares : Nat) (gamma : Nat → List Nat) (a b : Nat → W) :
    ρ.val (productMp K numShares gamma a b) =
      ((slotPairs numShares gamma).map fun q => ρ.val (a q.1) * ρ.val (b q.2)).sum := by
  rw [productMp,sumWords_val,slotPairs]
  induction List.range numShares with
  | nil => rfl
  | cons s l ih =>
    simp only [List.map_cons,List.sum_cons,List.flatMap_cons,List.map_append,List.sum_append,
      List.map_map] at ih ⊢
    rw [ih]
    congr 1
    simp only [Function.comp_def,ρ.mul,sumWords_val,List.map_map]
    rw [List.sum_map_mul_left]

theorem foldl_add_val {A : Type} (l : List A) (P : A → Prop) [DecidablePred P] (f : A → W) (x : W) :
    ρ.val (l.foldl (fun acc u => if P u then K.add acc (f u) else acc) x) =
      ρ.val x + (l.map fun u => if P u then ρ.val (f u) else 0).sum := by
  induction l generalizing x with
  | nil => simp
  | cons u l ih =>
    rw [List.foldl_cons,ih,List.map_cons,List.sum_cons,← add_assoc]
    by_cases hu : P u <;> simp [hu]

theorem foldl_sub_val {A : Type} (l : List A) (P : A → Prop) [DecidablePred P] (f : A → W) (x : W) :
    ρ.val (l.foldl (fun acc u => if P u then K.sub acc (f u) else acc) x) =
      ρ.val x - (l.map fun u => if P u then ρ.val (f u) else 0).sum := by
  induction l generalizing x with
  | nil => simp
  | cons u l ih =>
    rw [List.foldl_cons,ih,List.map_cons,List.sum_cons,← sub_sub]
    by_cases hu : P u <;> simp [hu]

end Reading

theorem sum_map_flatMap {A B R : Type} [AddCommMonoid R] (l : List A) (g : A → List B)
    (f : B → R) : ((l.flatMap g).map f).sum = (l.map fun a => ((g a).map f).sum).sum := by
  induction l with
  | nil => rfl
  | cons a l ih => simp [ih]

theorem sum_map_range {R : Type} [AddCommMonoid R] (m : Nat) (f : Nat → R) :
    ((List.range m).map f).sum = ∑ i ∈ range m, f i := by
  induction m with
  | zero => rfl
  | succ m ih => rw [List.range_succ,List.map_append,List.sum_append,ih,Finset.sum_range_succ]; simp

theorem sum_map_filter {A R : Type} [AddCommMonoid R] (l : List A) (P : A → Bool) (f : A → R) :
    ((l.filter P).map f).sum = (l.map fun a => if P a then f a else 0).sum := by
  induction l with
  | nil => rfl
  | cons a l ih => by_cases ha : P a <;> simp [ha,ih]

namespace MultTable
variable (tab : MultTable n) (track : Tracking)

theorem sum_maskUses {R : Type} [AddCommMonoid R] (p : Fin n) (size : Nat) (f : MaskUse n → R) :
    ((tab.maskUses track p size).map f).sum =
      ∑ i ∈ range size, ∑ p' : Fin n, ∑ t ∈ range tab.numShares,
        if tab.used p p' t then f ⟨i,p',t,tab.place track p i p' t⟩ else 0 := by
  rw [maskUses_eq,sum_map_flatMap,sum_map_range]
  refine Finset.sum_congr rfl (fun i _ => ?_)
  rw [sum_map_flatMap,← Fin.sum_univ_def]
  refine Finset.sum_congr rfl (fun p' _ => ?_)
  rw [List.map_map,sum_map_filter,sum_map_range]
  rfl

def maskWord (K : WordKind W) (size : Nat) (net : Net n G) (p : Fin n) (t i : Nat) (p' : Fin n) :
    W :=
  K.load K.zero (net.random t K.bytes (tab.prgCtrs t*size) p) (tab.place track p i p' t)

def outgoing (K : WordKind W) (size : Nat) (net : Net n G) (products : Fin n → Nat → W) (i : Nat)
    (p : Fin n) : W :=
  (tab.maskUses track p size).foldl (fun acc u => if u.pPrime = p ∧ u.i = i then
    K.sub acc (K.load K.zero (net.random u.tIndex K.bytes (tab.prgCtrs u.tIndex*size) p) u.pos)
    else acc) (products p i)

def ownMasks {R : Type} [CommRing R] {K : WordKind W} (ρ : Reading K R) (size : Nat)
    (net : Net n G) (i : Nat) (p : Fin n) : R :=
  ∑ t ∈ range tab.numShares,
    if tab.used p p t then ρ.val (tab.maskWord track K size net p t i p) else 0

section Sums
variable {R : Type} [CommRing R] {K : WordKind W} (ρ : Reading K R) (size : Nat) (net : Net n G)

theorem outgoing_val (products : Fin n → Nat → W) (p : Fin n) {i : Nat} (hi : i < size) :
    ρ.val (tab.outgoing track K size net products i p) =
      ρ.val (products p i) - tab.ownMasks track ρ size net i p := by
  rw [outgoing,foldl_sub_val,sum_maskUses,ownMasks]
  congr 1
  rw [Finset.sum_eq_single i]
  · rw [Finset.sum_eq_single p]
    · simp [maskWord]
    · intro p' _ hp'
      simp [hp']
    · simp
  · intro i' _ hi'
    simp [hi']
  · simp [hi]

theorem maskSum_val (held : W) (p : Fin n) {t i : Nat} (ht : t < tab.numShares) (hi : i < size) :
    ρ.val ((tab.maskUses track p size).foldl (fun acc u => if u.tIndex = t ∧ u.i = i then
      K.add acc (K.load K.zero (net.random u.tIndex K.bytes (tab.prgCtrs u.tIndex*size) p) u.pos)
      else acc) held) = ρ.val held +
    ∑ p', if tab.used p p' t then ρ.val (tab.maskWord track K size net p t i p') else 0 := by
  rw [foldl_add_val,sum_maskUses,Finset.sum_eq_single i]
  · congr 1
    refine Finset.sum_congr rfl (fun p' _ => ?_)
    rw [Finset.sum_eq_single t]
    · simp [maskWord]
    · intro t' _ ht'
      simp [ht']
    · simp [ht]
  · intro i' _ hi'
    simp [hi']
  · simp [hi]

end Sums

def contributorsTo (H : Pattern (Fin n) (Finset (Fin n))) (T : Finset (Fin n)) : Nat :=
  (List.finRange n).countP fun q => q ∉ T ∧ H.hold q 0 ≠ T

section Correct
variable {tab : MultTable n} {H : Pattern (Fin n) (Finset (Fin n))} (hA : tab.Agrees H)
include hA

theorem Agrees.used_eq {p q : Fin n} {s t : Nat} (hs : s < H.slots) (ht : t < H.slots)
    (hst : H.hold p s = H.hold q t) (p' : Fin n) : tab.used p p' s = tab.used q p' t := by
  rw [Bool.eq_iff_iff,hA.used_iff p p' s hs,hA.used_iff q p' t ht,hst]

theorem Agrees.contributors_eq {p q : Fin n} {s t : Nat} (hs : s < H.slots) (ht : t < H.slots)
    (hst : H.hold p s = H.hold q t) : tab.contributors p s = tab.contributors q t := by
  simp only [contributors,hA.used_eq hs ht hst]

theorem Agrees.place_eq {p q : Fin n} {s t : Nat} (hs : s < H.slots) (ht : t < H.slots)
    (hst : H.hold p s = H.hold q t) (i : Nat) (p' : Fin n) :
    tab.place track p i p' s = tab.place track q i p' t := by
  rw [place,place,← hA.prgCtrs p s hs,← hA.prgCtrs q t ht,rank,rank]
  simp only [hA.used_eq hs ht hst,hA.contributors_eq hs ht hst]

variable (K : WordKind W) (size : Nat) (net : Net n G)

theorem Agrees.maskWord_eq (hnet : H.Consistent net) {p q : Fin n} {s t : Nat} (hs : s < H.slots)
    (ht : t < H.slots) (hst : H.hold p s = H.hold q t) (i : Nat) (p' : Fin n) :
    tab.maskWord track K size net p s i p' = tab.maskWord track K size net q t i p' := by
  have hctr : tab.prgCtrs s = tab.prgCtrs t := by
    rw [← hA.prgCtrs p s hs,← hA.prgCtrs q t ht,hA.contributors_eq hs ht hst]
  rw [maskWord,maskWord,hA.place_eq track hs ht hst,hctr,Net.random_eq hnet hs ht hst]

theorem Agrees.notMem_hold (p : Fin n) {t : Nat} (ht : t < H.slots) : p ∉ H.hold p t := by
  have himage := Finset.mem_image_of_mem (H.hold p) (Finset.mem_range.mpr ht)
  rw [hA.hold_image p,Finset.mem_filter] at himage
  exact himage.2

theorem Agrees.sum_slots {R : Type} [AddCommMonoid R] (p : Fin n) (f : Finset (Fin n) → R) :
    (∑ t ∈ range H.slots, if tab.used p p t then f (H.hold p t) else 0) =
      ∑ T ∈ H.names, if p ∉ T ∧ H.hold p 0 ≠ T then f T else 0 := by
  have hinj : Set.InjOn (H.hold p) (range H.slots) := by
    intro s hs t ht hst
    exact hA.hold_inj p s (Finset.mem_range.mp hs) t (Finset.mem_range.mp ht) hst
  calc (∑ t ∈ range H.slots, if tab.used p p t then f (H.hold p t) else 0)
      = ∑ t ∈ range H.slots,
          if p ∉ H.hold p t ∧ H.hold p 0 ≠ H.hold p t then f (H.hold p t) else 0 := by
        refine Finset.sum_congr rfl (fun t ht => ?_)
        simp only [hA.used_iff p p t (Finset.mem_range.mp ht)]
    _ = ∑ T ∈ (range H.slots).image (H.hold p), if p ∉ T ∧ H.hold p 0 ≠ T then f T else 0 :=
        (Finset.sum_image (f := fun T => if p ∉ T ∧ H.hold p 0 ≠ T then f T else 0) hinj).symm
    _ = ∑ T ∈ H.names, if p ∉ T ∧ H.hold p 0 ≠ T then f T else 0 := by
        rw [hA.hold_image,Finset.sum_filter]
        refine Finset.sum_congr rfl (fun T _ => ?_)
        by_cases hT : p ∈ T <;> simp [hT]

/-- The words of a multiplication, slot by slot: what was there, the masks of the
share and the messages of the parties that reshare into it. -/
theorem Agrees.reshare_val {R : Type} [CommRing R] (ρ : Reading K R) (held : Shares n W)
    (products : Fin n → Nat → W) (p : Fin n) {t i : Nat} (ht : t < H.slots) (hi : i < size) :
    ρ.val (tab.reshare K (fun p => tab.maskUses track p size) size net held products p t i) =
      ρ.val (held p t i) +
      ((∑ p', if tab.used p p' t then ρ.val (tab.maskWord track K size net p t i p') else 0) +
        ∑ q with H.hold q 0 = H.hold p t,
          (ρ.val (products q i) - tab.ownMasks track ρ size net i q)) := by
  have ht' : t < tab.numShares := hA.slots ▸ ht
  have hc := tab.maskSum_val track ρ size net (held p t i) p ht' hi
  have hv := fun q => tab.outgoing_val track ρ size net products q hi
  have hrecv : ((List.range tab.routing.rounds).map fun r => if t = tab.recvSlot r then
      ρ.val (tab.routing.deliver (fun q _ => K.recv (tab.outgoing track K size net products i q))
        K.zero p r) else 0).sum =
      (((List.range tab.routing.rounds).filter (fun r => t = tab.recvSlot r)).map fun r =>
        ρ.val (products (tab.sender p r) i) -
          tab.ownMasks track ρ size net i (tab.sender p r)).sum := by
    rw [sum_map_filter]
    congr 1
    apply List.map_congr_left
    intro r hr
    obtain ⟨⟨q,r'⟩,hq⟩ := Option.isSome_iff_exists.mp (hA.served p r (List.mem_range.mp hr))
    have hsender : tab.sender p r = q := by rw [sender,hq]; rfl
    rw [Routing.deliver_of_source hq,ρ.recv,hv,hsender]
    simp only [decide_eq_true_eq]
  have hin : (∑ q with H.hold q 0 = H.hold p t,
      (ρ.val (products q i) - tab.ownMasks track ρ size net i q)) =
      ((tab.incoming p t).map fun q =>
        ρ.val (products q i) - tab.ownMasks track ρ size net i q).sum := by
    rw [Finset.sum_eq_multiset_sum,hA.incoming p t ht,Multiset.map_coe,Multiset.sum_coe]
  have hbase := foldl_add_val ρ (List.range tab.routing.rounds) (fun r => t = tab.recvSlot r)
    (fun r => tab.routing.deliver
      (fun q _ => K.recv (tab.outgoing track K size net products i q)) K.zero p r)
  rw [hin,MultTable.incoming,List.map_append,List.sum_append,List.map_map,Function.comp_def,← hrecv,
    ← add_assoc,← add_assoc,← hc,← hbase]
  by_cases h0 : t = 0
  · rw [if_pos h0,List.map_cons,List.map_nil,List.sum_singleton,← hv p,
      ← ρ.sent (tab.outgoing track K size net products i p),← ρ.add]
    exact congrArg ρ.val (if_pos h0)
  · simp only [h0,if_false,List.map_nil,List.sum_nil,add_zero]
    exact congrArg ρ.val (if_neg h0)

theorem Agrees.mult_val {R : Type} [CommRing R] (ρ : Reading K R) (a b : Shares n W)
    (p : Fin n) {t i : Nat} (ht : t < H.slots) (hi : i < size) :
    ρ.val ((tab.mult K (fun size p => tab.maskUses track p size) size net a b).1 p t i) =
      (∑ p', if tab.used p p' t then ρ.val (tab.maskWord track K size net p t i p') else 0) +
        ∑ q with H.hold q 0 = H.hold p t,
          (ρ.val (productMp K tab.numShares tab.gamma (fun s => a q s i) (fun s => b q s i)) -
            tab.ownMasks track ρ size net i q) := by
  have h := hA.reshare_val track K size net ρ (fun _ _ _ => K.zero)
    (fun p i => productMp K tab.numShares tab.gamma (fun s => a p s i) (fun s => b p s i)) p ht hi
  rw [ρ.zero,zero_add] at h
  rw [mult_eq]
  exact h

theorem Agrees.reshare_isSharing {R : Type} [CommRing R] (ρ : Reading K R)
    (hnet : H.Consistent net) (held : Shares n W) (products : Fin n → Nat → W) {i : Nat}
    (hi : i < size) {w : R} (hheld : H.IsSharing (fun p s => ρ.val (held p s i)) w) :
    H.IsSharing (fun p s => ρ.val (tab.reshare K (fun p => tab.maskUses track p size) size net held
      products p s i)) (w + ∑ p, ρ.val (products p i)) := by
  have hmask : H.Consistent (fun p t => fun p' =>
      ρ.val (tab.maskWord track K size net p t i p')) := by
    intro p s q t hs ht hst
    funext p'
    exact congrArg ρ.val (hA.maskWord_eq track K size net hnet hs ht hst i p')
  have : Inhabited (Fin n → R) := ⟨fun _ => 0⟩
  obtain ⟨μ,hμ⟩ := hmask.exists_holds
  let C : Finset (Fin n) → Fin n → Prop := fun T q => q ∉ T ∧ H.hold q 0 ≠ T
  have hown : ∀ q, tab.ownMasks track ρ size net i q =
      ∑ T ∈ H.names, if C T q then μ T q else 0 := by
    intro q
    rw [ownMasks,← hA.sum_slots q (fun T => μ T q),← hA.slots]
    refine Finset.sum_congr rfl (fun t ht => ?_)
    rw [← hμ q t (hA.slots ▸ Finset.mem_range.mp ht)]
  have hnames : ∀ q, H.hold q 0 ∈ H.names := fun q => H.hold_mem q 0 hA.slots_pos
  have hfresh : H.IsSharing (fun p t =>
      (∑ p', if tab.used p p' t then ρ.val (tab.maskWord track K size net p t i p') else 0) +
        ∑ q with H.hold q 0 = H.hold p t,
          (ρ.val (products q i) - tab.ownMasks track ρ size net i q))
      (∑ p, ρ.val (products p i)) := by
    refine ⟨fun T => (∑ q, if C T q then μ T q else 0) + ∑ q with H.hold q 0 = T,
      (ρ.val (products q i) - ∑ U ∈ H.names, if C U q then μ U q else 0),?_,
      Pattern.sum_reshared hnames C μ fun q => ρ.val (products q i)⟩
    intro p t ht
    refine congrArg₂ (fun u v => u + v) ?_ ?_
    · refine Finset.sum_congr rfl (fun p' _ => ?_)
      rw [← hμ p t ht]
      simp only [hA.used_iff p p' t ht,C]
    · exact Finset.sum_congr rfl (fun q _ => by rw [hown])
  exact (hheld.add hfresh).congr fun p t ht =>
    hA.reshare_val track K size net ρ held products p ht hi

theorem Agrees.reshare_add_iff {R : Type} [CommRing R] (ρ : Reading K R) (hnet : H.Consistent net)
    (held : Shares n W) (products : Fin n → Nat → W) {i : Nat} (hi : i < size) {v : R}
    (hv : ∑ p, ρ.val (products p i) = v) (w : R) :
    H.IsSharing (fun p s => ρ.val (tab.reshare K (fun p => tab.maskUses track p size) size net held
      products p s i)) (w + v) ↔ H.IsSharing (fun p s => ρ.val (held p s i)) w := by
  constructor
  · intro h
    have hzero : H.IsSharing (fun (_ : Fin n) (_ : Nat) => ρ.val K.zero) 0 :=
      Pattern.isSharing_zero.congr fun _ _ _ => ρ.zero
    have hfresh := hA.reshare_isSharing track K size net ρ hnet (fun _ _ _ => K.zero)
      products hi hzero
    have hheld := h.sub hfresh
    rw [hv,zero_add,add_sub_cancel_right] at hheld
    refine hheld.congr fun p t ht => ?_
    rw [hA.reshare_val track K size net ρ held products p ht hi,
      hA.reshare_val track K size net ρ _ products p ht hi,ρ.zero,zero_add,add_sub_cancel_right]
  · intro h
    have hshared := hA.reshare_isSharing track K size net ρ hnet held products hi h
    rwa [hv] at hshared

theorem Agrees.reshare_iff {R : Type} [CommRing R] (ρ : Reading K R) (hnet : H.Consistent net)
    (held : Shares n W) (products : Fin n → Nat → W) {i : Nat} (hi : i < size) {v : R}
    (hv : ∑ p, ρ.val (products p i) = v) :
    H.IsSharing (fun p s => ρ.val (tab.reshare K (fun p => tab.maskUses track p size) size net held
      products p s i)) v ↔ H.IsSharing (fun p s => ρ.val (held p s i)) 0 := by
  rw [← hA.reshare_add_iff track K size net ρ hnet held products hi hv,zero_add]

omit hA in
theorem sum_productMp {R : Type} [CommRing R] (ρ : Reading K R) {m : Nat} (ω : Rotation H m)
    [NeZero n] (hpairs : ∀ q ∈ slotPairs tab.numShares tab.gamma, q.1 < H.slots ∧ q.2 < H.slots)
    (hcount : ∀ x, (slotPairs tab.numShares tab.gamma).countP (fun q => ω.key q = x) = 1)
    {a b : Fin n → Nat → W} {x y : R} (ha : H.IsSharing (fun p s => ρ.val (a p s)) x)
    (hb : H.IsSharing (fun p s => ρ.val (b p s)) y) :
    ∑ p, ρ.val (productMp K tab.numShares tab.gamma (a p) (b p)) = x*y := by
  obtain ⟨α,hα,rfl⟩ := ha
  obtain ⟨β,hβ,rfl⟩ := hb
  rw [← ω.sum_cross (slotPairs tab.numShares tab.gamma) hpairs hcount α β]
  refine Finset.sum_congr rfl (fun p _ => ?_)
  rw [productMp_val]
  congr 1
  apply List.map_congr_left
  intro r hr
  obtain ⟨h₁,h₂⟩ := hpairs r hr
  exact congrArg₂ (fun u v => u * v) (hα p r.1 h₁) (hβ p r.2 h₂)

theorem Agrees.isSharing {R : Type} [CommRing R] (ρ : Reading K R) {m : Nat} (ω : Rotation H m)
    [NeZero n] (hpairs : ∀ q ∈ slotPairs tab.numShares tab.gamma, q.1 < H.slots ∧ q.2 < H.slots)
    (hcount : ∀ x, (slotPairs tab.numShares tab.gamma).countP (fun q => ω.key q = x) = 1)
    (hnet : H.Consistent net) (a b : Shares n W) {i : Nat} (hi : i < size) {x y : R}
    (ha : H.IsSharing (fun p s => ρ.val (a p s i)) x)
    (hb : H.IsSharing (fun p s => ρ.val (b p s i)) y) :
    H.IsSharing (fun p s => ρ.val ((tab.mult K (fun size p => tab.maskUses track p size) size net
      a b).1 p s i)) (x*y) := by
  have hzero : H.IsSharing (fun (_ : Fin n) (_ : Nat) => ρ.val K.zero) 0 :=
    Pattern.isSharing_zero.congr fun _ _ _ => ρ.zero
  have h := hA.reshare_isSharing track K size net ρ hnet (fun _ _ _ => K.zero) (fun p i =>
    productMp K tab.numShares tab.gamma (fun s => a p s i) (fun s => b p s i)) hi hzero
  rw [sum_productMp K ρ ω hpairs hcount ha hb,zero_add] at h
  rw [mult_eq]
  exact h

theorem Agrees.prgCtrs_eq (p : Fin n) {t : Nat} (ht : t < H.slots) :
    tab.prgCtrs t = contributorsTo H (H.hold p t) := by
  rw [← hA.prgCtrs p t ht,contributors,contributorsTo]
  congr 1
  funext q
  rw [Bool.eq_iff_iff,hA.used_iff p q t ht,decide_eq_true_eq]

theorem Agrees.drew (masks : Nat → Fin n → List (MaskUse n)) (a b : Shares n W) :
    Net.Drew H (fun T => [K.bytes*(contributorsTo H T*size)]) net
      (tab.mult K masks size net a b).2 := by
  have hlength : ∀ p s, s < H.slots → tab.prgCtrs s*size = contributorsTo H (H.hold p s)*size :=
    fun p s hs => congrArg (fun c => c*size) (hA.prgCtrs_eq p hs)
  have hdrew := Net.drew_advanceAll (H := H) (fun T => contributorsTo H T*size) hlength net K.bytes
  rwa [← hA.slots] at hdrew

theorem Agrees.net_consistent (hnet : H.Consistent net)
    (masks : Nat → Fin n → List (MaskUse n)) (a b : Shares n W) :
    H.Consistent (tab.mult K masks size net a b).2 :=
  (hA.drew K size net masks a b).consistent hnet

end Correct

end MultTable

def chiPPrimeInT (p' : Fin 5) (T : List (Fin 5)) : Bool :=
  (p' + 1 == T.getD 0 0 && p' + 2 == T.getD 1 0) || (p' + 1 == T.getD 1 0 && p' + 2 == T.getD 0 0)

def chiPPrimeInT7 (p' : Fin 7) (T : List (Fin 7)) : Bool :=
  T.contains (p' + 1) && T.contains (p' + 2) && T.contains (p' + 3)

def gamma5pc : Nat → List Nat
  | 0 => [0,1,2,3,4,5] | 1 => [0,1,2,3,4,5] | 2 => [1,3] | 3 => [0,2] | 4 => [0,1] | 5 => [0,4]
  | _ => []

def gamma7pc : Nat → List Nat
  | 0 => List.range 20 | 1 => List.range 20 | 2 => List.range 20 | 3 => List.range 20
  | 4 => [0,1,2,3,10,11,12,13,15] | 5 => List.range 20 | 6 => [2,5,7,9,11,13]
  | 7 => [0,4,5,6,10,11,12] | 8 => [0,4,5,10,11,16] | 9 => [1,4,7,8,10,13]
  | 10 => [0,1,2,3,4,5,9] | 11 => [0,1,4,6,7,8] | 12 => [0,1,2,4,5,7] | 13 => [0,4,5,6]
  | 14 => [2,4,5] | 15 => [1,4] | 16 => [0,1,2,3,15] | 17 => [0,1,2] | 18 => [1,8]
  | 19 => [0,5,6] | _ => []

def prgCtrs5pc (t : Nat) : Nat := [2,3,3,2,3,2].getD t 0

def prgCtrs7pc (t : Nat) : Nat := [3,4,4,4,4,4,4,4,4,4,3,4,4,4,4,4,3,4,4,3].getD t 0

def table5pc : MultTable 5 where
  numShares := 6
  tMap := tMap5pc
  chiPPrimeInT := chiPPrimeInT
  prgCtrs := prgCtrs5pc
  gamma := gamma5pc
  routing := map5pc
  recvSlot r := [5,3].getD r 0

def table7pc : MultTable 7 where
  numShares := 20
  tMap := tMap7pc
  chiPPrimeInT := chiPPrimeInT7
  prgCtrs := prgCtrs7pc
  gamma := gamma7pc
  routing := map7pc
  recvSlot r := [19,16,10].getD r 0

theorem table5pc_agrees : table5pc.Agrees shares5pc where
  slots := rfl
  slots_pos := by decide
  used_iff := by decide
  prgCtrs := by decide
  hold_inj := by decide
  hold_image := by decide
  served := by decide
  incoming := by decide

theorem slots7pc_once (p : Fin 7) : (range shares7pc.slots).val.map (shares7pc.hold p) =
    ({T ∈ shares7pc.names | p ∉ T} : Finset (Finset (Fin 7))).val := by
  have hcard : ({T ∈ shares7pc.names | p ∉ T} : Finset (Finset (Fin 7))).card ≤ 35 :=
    (Finset.card_filter_le _ _).trans card_names7pc.le
  have htally : ∀ p, tally 64 (((range shares7pc.slots).val.map (shares7pc.hold p)).map maskOf) =
      tally 64 (({T ∈ shares7pc.names | p ∉ T} : Finset (Finset (Fin 7))).val.map maskOf) := by
    decide
  exact eq_of_tally maskOf_injective (by rw [Multiset.card_map]; decide)
    (Nat.lt_of_le_of_lt hcard (by decide)) (htally p)

theorem table7pc_agrees : table7pc.Agrees shares7pc where
  slots := rfl
  slots_pos := by decide
  used_iff := by decide
  prgCtrs := by decide
  hold_inj p s hs t ht :=
    injOn_of_map (slots7pc_once p) (Finset.mem_range.mpr hs) (Finset.mem_range.mpr ht)
  hold_image p := image_eq_of_map (slots7pc_once p)
  served := by decide
  incoming := by decide

theorem pairs5pc_lt : ∀ q ∈ slotPairs table5pc.numShares table5pc.gamma,
    q.1 < shares5pc.slots ∧ q.2 < shares5pc.slots := by decide

theorem pairs7pc_lt : ∀ q ∈ slotPairs table7pc.numShares table7pc.gamma,
    q.1 < shares7pc.slots ∧ q.2 < shares7pc.slots := by decide

theorem pairs5pc_once : ∀ x, (slotPairs table5pc.numShares table5pc.gamma).countP
    (fun q => rotation5pc.key q = x) = 1 := by decide

theorem pairs7pc_once : ∀ x, (slotPairs table7pc.numShares table7pc.gamma).countP
    (fun q => rotation7pc.key q = x) = 1 :=
  countP_of_tally Rotation.keyCode_injective Rotation.keyCode_lt (b := 256)
    (by decide) (by decide) (by decide)

def rssMultMpMasks (size : Nat) (p : Fin 5) := table5pc.maskUses .perUse p size
def rssMultFixedBMpMasks (size : Nat) (p : Fin 5) := table5pc.maskUses .perUse p size
def rssMultBitwiseMpMasks (size : Nat) (p : Fin 5) := table5pc.maskUses .running p size
def rssMultByteMpMasks (size : Nat) (p : Fin 5) := table5pc.maskUses .running p size
def rssMult7pcMasks (size : Nat) (p : Fin 7) := table7pc.maskUses .perUse p size
def rssMultBitwise7pcMasks (size : Nat) (p : Fin 7) := table7pc.maskUses .perUse p size
def rssMultByte7pcMasks (size : Nat) (p : Fin 7) := table7pc.maskUses .unmoved p size

def rssMultBitwiseMp (a b : Shares 5 (Lint L)) (size ring_size : Nat) (net : Net 5 G) :=
  table5pc.mult (bitwiseKind L ring_size) rssMultBitwiseMpMasks size net a b

def rssMultMp (a b : Shares 5 (Lint L)) (size ring_size : Nat) (net : Net 5 G) :=
  table5pc.mult (arithKind L ring_size) rssMultMpMasks size net a b

def rssMultFixedBMp (a b : Shares 5 (Lint L)) (b_index size ring_size : Nat) (net : Net 5 G) :=
  table5pc.mult (arithKind L ring_size) rssMultFixedBMpMasks size net a
    (fun p s _ => b p s b_index)

def rssMultByteMp (a b : Shares 5 Byte) (size : Nat) (net : Net 5 G) :=
  table5pc.mult byteKind rssMultByteMpMasks size net a b

def rssMult7pc (a b : Shares 7 (Lint L)) (size ring_size : Nat) (net : Net 7 G) :=
  table7pc.mult (arithKind L ring_size) rssMult7pcMasks size net a b

def rssMultBitwise7pc (a b : Shares 7 (Lint L)) (size ring_size : Nat) (net : Net 7 G) :=
  table7pc.mult (bitwiseKind L ring_size) rssMultBitwise7pcMasks size net a b

def rssMultByte7pc (a b : Shares 7 Byte) (size : Nat) (net : Net 7 G) :=
  table7pc.mult byteKind rssMultByte7pcMasks size net a b

section
variable {k size i : Nat} {net : Net 5 G}

theorem rssMultMp_isSharing (hk : k ≤ 8*L) (hnet : shares5pc.Consistent net)
    (a b : Shares 5 (Lint L)) (hi : i < size) {x y : BitVec k} (ha : ArithSharing shares5pc k a i x)
    (hb : ArithSharing shares5pc k b i y) :
    ArithSharing shares5pc k (rssMultMp a b size k net).1 i (x*y) :=
  table5pc_agrees.isSharing .perUse _ size net (arithReading hk) rotation5pc pairs5pc_lt
    pairs5pc_once hnet a b hi ha hb

theorem rssMultFixedBMp_isSharing (hk : k ≤ 8*L) (hnet : shares5pc.Consistent net)
    (a b : Shares 5 (Lint L)) {b_index : Nat} (hi : i < size) {x y : BitVec k}
    (ha : ArithSharing shares5pc k a i x) (hb : ArithSharing shares5pc k b b_index y) :
    ArithSharing shares5pc k (rssMultFixedBMp a b b_index size k net).1 i (x*y) :=
  table5pc_agrees.isSharing .perUse _ size net (arithReading hk) rotation5pc pairs5pc_lt
    pairs5pc_once hnet a _ hi ha hb

theorem rssMultBitwiseMp_isSharing (hnet : shares5pc.Consistent net) (a b : Shares 5 (Lint L))
    (hi : i < size) {x y : BitVec k} (ha : BitSharing shares5pc k a i x)
    (hb : BitSharing shares5pc k b i y) :
    BitSharing shares5pc k (rssMultBitwiseMp a b size k net).1 i (x &&& y) := by
  intro j hj
  rw [BitVec.getLsbD_and]
  exact table5pc_agrees.isSharing .running _ size net (bitReading L hj) rotation5pc pairs5pc_lt
    pairs5pc_once hnet a b hi (ha j hj) (hb j hj)

theorem rssMultByteMp_isSharing (hnet : shares5pc.Consistent net) (a b : Shares 5 Byte)
    (hi : i < size) {x y : Byte} (ha : BitSharing shares5pc 8 a i x)
    (hb : BitSharing shares5pc 8 b i y) :
    BitSharing shares5pc 8 (rssMultByteMp a b size net).1 i (x &&& y) := by
  intro j hj
  rw [BitVec.getLsbD_and]
  exact table5pc_agrees.isSharing .running _ size net (byteReading j) rotation5pc pairs5pc_lt
    pairs5pc_once hnet a b hi (ha j hj) (hb j hj)

/-- Every five-party multiplication takes consistent sharings to a consistent
sharing of the product. -/
theorem multMp_family (hk : k ≤ 8*L) (size : Nat) (hnet : shares5pc.Consistent net)
    (a b : Shares 5 (Lint L)) (s t : Shares 5 Byte) :
    (∀ i, i < size → ∀ x y : BitVec k, ArithSharing shares5pc k a i x →
      ArithSharing shares5pc k b i y →
      ArithSharing shares5pc k (rssMultMp a b size k net).1 i (x*y)) ∧
    (∀ b_index, ∀ y : BitVec k, ArithSharing shares5pc k b b_index y →
      ∀ i, i < size → ∀ x : BitVec k, ArithSharing shares5pc k a i x →
      ArithSharing shares5pc k (rssMultFixedBMp a b b_index size k net).1 i (x*y)) ∧
    (∀ i, i < size → ∀ x y : BitVec k, BitSharing shares5pc k a i x →
      BitSharing shares5pc k b i y →
      BitSharing shares5pc k (rssMultBitwiseMp a b size k net).1 i (x &&& y)) ∧
    (∀ i, i < size → ∀ x y : Byte, BitSharing shares5pc 8 s i x → BitSharing shares5pc 8 t i y →
      BitSharing shares5pc 8 (rssMultByteMp s t size net).1 i (x &&& y)) := by
  refine ⟨?_,?_,?_,?_⟩
  · intro i hi x y ha hb
    exact rssMultMp_isSharing hk hnet a b hi ha hb
  · intro b_index y hb i hi x ha
    exact rssMultFixedBMp_isSharing hk hnet a b hi ha hb
  · intro i hi x y ha hb
    exact rssMultBitwiseMp_isSharing hnet a b hi ha hb
  · intro i hi x y ha hb
    exact rssMultByteMp_isSharing hnet s t hi ha hb

theorem multMp_family_ones :
    ArithSharing shares5pc 4 (rssMultMp (L := 4) (fun _ _ _ => 1) (fun _ _ _ => 2) 1 4
      (fun _ _ => (⟨fun i => BitVec.ofNat 8 (3*i+1)⟩ : Tape))).1 0 (10*20) := by
  refine (multMp_family (by decide) 1 ?_ _ _ (fun _ _ _ => 0)
    (fun _ _ _ => 0)).1 0 (by decide) 10 20 ?_ ?_
  · exact fun _ _ _ _ _ _ _ => rfl
  · exact ⟨fun _ => 1,fun _ _ _ => rfl,by simp⟩
  · exact ⟨fun _ => 2,fun _ _ _ => rfl,by simp⟩

end

section
variable {k size i : Nat} {net : Net 7 G}

theorem rssMult7pc_isSharing (hk : k ≤ 8*L) (hnet : shares7pc.Consistent net)
    (a b : Shares 7 (Lint L)) (hi : i < size) {x y : BitVec k} (ha : ArithSharing shares7pc k a i x)
    (hb : ArithSharing shares7pc k b i y) :
    ArithSharing shares7pc k (rssMult7pc a b size k net).1 i (x*y) :=
  table7pc_agrees.isSharing .perUse _ size net (arithReading hk) rotation7pc pairs7pc_lt
    pairs7pc_once hnet a b hi ha hb

theorem rssMultBitwise7pc_isSharing (hnet : shares7pc.Consistent net) (a b : Shares 7 (Lint L))
    (hi : i < size) {x y : BitVec k} (ha : BitSharing shares7pc k a i x)
    (hb : BitSharing shares7pc k b i y) :
    BitSharing shares7pc k (rssMultBitwise7pc a b size k net).1 i (x &&& y) := by
  intro j hj
  rw [BitVec.getLsbD_and]
  exact table7pc_agrees.isSharing .perUse _ size net (bitReading L hj) rotation7pc pairs7pc_lt
    pairs7pc_once hnet a b hi (ha j hj) (hb j hj)

theorem rssMultByte7pc_isSharing (hnet : shares7pc.Consistent net) (a b : Shares 7 Byte)
    (hi : i < size) {x y : Byte} (ha : BitSharing shares7pc 8 a i x)
    (hb : BitSharing shares7pc 8 b i y) :
    BitSharing shares7pc 8 (rssMultByte7pc a b size net).1 i (x &&& y) := by
  intro j hj
  rw [BitVec.getLsbD_and]
  exact table7pc_agrees.isSharing .unmoved _ size net (byteReading j) rotation7pc pairs7pc_lt
    pairs7pc_once hnet a b hi (ha j hj) (hb j hj)

/-- Every seven-party multiplication takes consistent sharings to a consistent
sharing of the product. -/
theorem mult7pc_family (hk : k ≤ 8*L) (size : Nat) (hnet : shares7pc.Consistent net)
    (a b : Shares 7 (Lint L)) (s t : Shares 7 Byte) :
    (∀ i, i < size → ∀ x y : BitVec k, ArithSharing shares7pc k a i x →
      ArithSharing shares7pc k b i y →
      ArithSharing shares7pc k (rssMult7pc a b size k net).1 i (x*y)) ∧
    (∀ i, i < size → ∀ x y : BitVec k, BitSharing shares7pc k a i x →
      BitSharing shares7pc k b i y →
      BitSharing shares7pc k (rssMultBitwise7pc a b size k net).1 i (x &&& y)) ∧
    (∀ i, i < size → ∀ x y : Byte, BitSharing shares7pc 8 s i x → BitSharing shares7pc 8 t i y →
      BitSharing shares7pc 8 (rssMultByte7pc s t size net).1 i (x &&& y)) := by
  refine ⟨?_,?_,?_⟩
  · intro i hi x y ha hb
    exact rssMult7pc_isSharing hk hnet a b hi ha hb
  · intro i hi x y ha hb
    exact rssMultBitwise7pc_isSharing hnet a b hi ha hb
  · intro i hi x y ha hb
    exact rssMultByte7pc_isSharing hnet s t hi ha hb

theorem mult7pc_family_ones :
    ArithSharing shares7pc 4 (rssMult7pc (L := 4) (fun _ _ _ => 1) (fun _ _ _ => 2) 1 4
      (fun _ _ => (⟨fun i => BitVec.ofNat 8 (3*i+1)⟩ : Tape))).1 0 (35*70) := by
  refine (mult7pc_family (by decide) 1 ?_ _ _ (fun _ _ _ => 0)
    (fun _ _ _ => 0)).1 0 (by decide) 35 70 ?_ ?_
  · exact fun _ _ _ _ _ _ _ => rfl
  · exact ⟨fun _ => 1,fun _ _ _ => rfl,by simp⟩
  · exact ⟨fun _ => 2,fun _ _ _ => rfl,by simp⟩

end

end RssRing
