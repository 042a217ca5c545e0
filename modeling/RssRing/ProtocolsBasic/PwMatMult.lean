import RssRing.ProtocolsBasic.MatProduct
set_option autoImplicit false

namespace RssRing
open Replicated

variable {G : Type} [Generator G] {L k : Nat}

structure PwSizes where
  width : Nat
  height : Nat
  in_channels : Nat
  kernel : Nat
  out_channels : Nat
  batch_size : Nat

namespace PwSizes
variable (d : PwSizes)

def crow : Nat := d.kernel*d.kernel*d.in_channels
def ccol : Nat := d.height*d.width

def terms : Terms :=
  pwTerms d.width d.height d.in_channels d.kernel d.out_channels d.batch_size

def patchPlace (b i t : Nat) : Nat := (b*d.ccol + i)*d.crow + t

def weightPlace (t j : Nat) : Nat := t*d.out_channels + j

def resultPlace (b i j : Nat) : Nat := b*d.ccol*d.out_channels + i*d.out_channels + j

/-- The entry that the routine takes in its place: its images are as long as those that the
patches were made from. -/
def readPlace (b i t : Nat) : Nat := t + i*d.crow + d.in_channels*d.width*d.height*b

def product (X V : Nat → BitVec k) (b i j : Nat) : BitVec k :=
  ∑ t ∈ Finset.range d.crow, X (d.patchPlace b i t)*V (d.weightPlace t j)

def productRead (X V : Nat → BitVec k) (b i j : Nat) : BitVec k :=
  ∑ t ∈ Finset.range d.crow, X (d.readPlace b i t)*V (d.weightPlace t j)

structure Inside (b i j : Nat) : Prop where
  image : b < d.batch_size
  position : i < d.ccol
  channel : j < d.out_channels

variable {d} {b i j t : Nat}

theorem resultPlace_lt (h : d.Inside b i j) :
    d.resultPlace b i j < pwOutputDim d.width d.height d.out_channels d.batch_size ∧
      d.resultPlace b i j < d.terms.length := by
  have hlt := batch_index_lt h.image h.position h.channel
  have hdim : d.batch_size*d.ccol*d.out_channels =
      pwOutputDim d.width d.height d.out_channels d.batch_size := by
    rw [ccol,pwOutputDim]
    ring
  have hlen : d.terms.length = d.batch_size*d.ccol*d.out_channels := length_batchLoops _
  exact ⟨by rwa [← hdim],by rwa [hlen]⟩

theorem getD_terms (h : d.Inside b i j) : d.terms.getD (d.resultPlace b i j) [] =
    (List.range d.crow).map fun t => (d.readPlace b i t,d.weightPlace t j) := by
  refine (getD_batchLoops _ h.image h.position h.channel).trans ?_
  refine List.map_congr_left fun t _ => ?_
  have hlen : d.batch_size*d.in_channels*d.width*d.height/d.batch_size =
      d.in_channels*d.width*d.height := by
    rw [Nat.mul_assoc,Nat.mul_assoc,Nat.mul_div_cancel_left _ (Nat.lt_of_le_of_lt (Nat.zero_le b)
      h.image),Nat.mul_assoc]
  rw [readPlace,weightPlace,hlen,Nat.add_comm j]
  rfl

theorem patchPlace_lt (h : d.Inside b i j) (ht : t < d.crow) :
    d.patchPlace b i t < d.batch_size*d.ccol*d.crow ∧
      d.weightPlace t j < d.crow*d.out_channels :=
  ⟨index_lt (index_lt h.image h.position) ht,index_lt ht h.channel⟩

theorem readPlace_lt (h : d.Inside b i j) (ht : t < d.crow) :
    d.readPlace b i t < d.batch_size*d.ccol*d.crow := by
  have hpatch := (patchPlace_lt h ht).1
  have hk : 1 ≤ d.kernel*d.kernel := by
    refine Nat.pos_of_ne_zero fun h0 => ?_
    rw [crow,h0,Nat.zero_mul] at ht
    exact Nat.not_lt_zero t ht
  have himage : d.in_channels*d.width*d.height ≤ d.ccol*d.crow := by
    calc d.in_channels*d.width*d.height = 1*(d.in_channels*d.width*d.height) := (Nat.one_mul _).symm
      _ ≤ d.kernel*d.kernel*(d.in_channels*d.width*d.height) := Nat.mul_le_mul_right _ hk
      _ = d.ccol*d.crow := by rw [ccol,crow]; ring
  have hoffset := Nat.mul_le_mul_right b himage
  have hsplit : d.patchPlace b i t = t + i*d.crow + d.ccol*d.crow*b := by
    rw [patchPlace]
    ring
  rw [readPlace]
  omega

section Routine
variable {net : Net 3 G} (hnet : shares3pc.Consistent net) (hk : k ≤ 8*L) {X V : Nat → BitVec k}
  {x W : Shares 3 (Lint L)} (hx : ∀ t, t < d.batch_size*d.ccol*d.crow → ArithSharing shares3pc k x t (X t))
  (hW : ∀ t, t < d.crow*d.out_channels → ArithSharing shares3pc k W t (V t))
include hnet hk hx hW

theorem pwMatrixmul_value (h : d.Inside b i j) (res : Shares 3 (Lint L)) :
    ArithSharing shares3pc k (rssPwMatrixmul res x W d.width d.height d.in_channels d.kernel
      d.out_channels k d.batch_size net).1 (d.resultPlace b i j) (d.productRead X V b i j) := by
  obtain ⟨hsize,hlength⟩ := resultPlace_lt h
  have hterms := matMult3pc_terms hnet hk d.terms hsize hlength res (a := x) (b := W) (X := X) (V := V)
  rw [getD_terms h] at hterms
  have hsum : termSum X V ((List.range d.crow).map fun t => (d.readPlace b i t,d.weightPlace t j)) =
      d.productRead X V b i j := termSum_range _ _
  rw [hsum] at hterms
  refine hterms (fun e he => ?_) fun e he => ?_
  · obtain ⟨t,ht,rfl⟩ := List.mem_map.mp he
    exact hx _ (readPlace_lt h (List.mem_range.mp ht))
  · obtain ⟨t,ht,rfl⟩ := List.mem_map.mp he
    exact hW _ (patchPlace_lt h (List.mem_range.mp ht)).2

theorem pwMatrixmul_value_iff (h : d.Inside b i j) (res : Shares 3 (Lint L)) :
    ArithSharing shares3pc k (rssPwMatrixmul res x W d.width d.height d.in_channels d.kernel
      d.out_channels k d.batch_size net).1 (d.resultPlace b i j) (d.product X V b i j) ↔
      d.productRead X V b i j = d.product X V b i j := by
  have hvalue := pwMatrixmul_value hnet hk hx hW h res
  exact ⟨fun hright => hvalue.unique hright,fun heq => heq ▸ hvalue⟩

end Routine

/-- The patches of the images begin where the routine looks for them. -/
def Aligned (d : PwSizes) : Prop :=
  d.batch_size ≤ 1 ∨ d.kernel ≤ 1 ∨ d.in_channels = 0 ∨ d.ccol = 0 ∨ d.out_channels = 0

theorem productRead_of_aligned (hd : d.Aligned) (h : d.Inside b i j) (X V : Nat → BitVec k) :
    d.productRead X V b i j = d.product X V b i j := by
  refine Finset.sum_congr rfl fun t ht => ?_
  have ht : t < d.crow := Finset.mem_range.mp ht
  have hsplit : d.patchPlace b i t = t + i*d.crow + d.ccol*d.crow*b := by
    rw [patchPlace]
    ring
  have hoffset : d.in_channels*d.width*d.height*b = d.ccol*d.crow*b := by
    have hb := h.image
    have hi := h.position
    have hj := h.channel
    rcases hd with hbatch | hkernel | hchannels | hcol | hout
    · rw [show b = 0 by omega,Nat.mul_zero,Nat.mul_zero]
    · have hone : d.kernel = 1 := by
        refine Nat.le_antisymm hkernel (Nat.pos_of_ne_zero fun h0 => ?_)
        simp [crow,h0] at ht
      rw [crow,ccol,hone]
      ring
    · simp [crow,hchannels] at ht
    · omega
    · omega
  rw [readPlace,hoffset,hsplit]

theorem sum_indicator (hc : 0 < d.crow) (ho : 0 < d.out_channels) (f : Nat → BitVec k) :
    ∑ t ∈ Finset.range d.crow, f t*indicator k 0 (d.weightPlace t 0) = f 0 := by
  rw [Finset.sum_eq_single_of_mem 0 (Finset.mem_range.mpr hc) fun t _ ht => ?_]
  · rw [weightPlace,Nat.zero_mul,Nat.add_zero,indicator_self,mul_one]
  · have hplace : d.weightPlace t 0 ≠ 0 := by
      rw [weightPlace,Nat.add_zero]
      exact Nat.mul_ne_zero ht (by omega)
    rw [indicator_of_ne hplace,mul_zero]

/-- The pointwise product comes out right for all patches and weights exactly where the
patches are as long as the images, and for single ones where the entries that are read have
the same products. -/
theorem pwMatrixmul_iff {net : Net 3 G} (hnet : shares3pc.Consistent net) (hk₀ : 0 < k)
    (hk : k ≤ 8*L) (d : PwSizes) :
    ((∀ (X V : Nat → BitVec k) (x W res : Shares 3 (Lint L)),
      (∀ t, t < d.batch_size*d.ccol*d.crow → ArithSharing shares3pc k x t (X t)) →
      (∀ t, t < d.crow*d.out_channels → ArithSharing shares3pc k W t (V t)) →
      ∀ b i j, d.Inside b i j →
        ArithSharing shares3pc k (rssPwMatrixmul res x W d.width d.height d.in_channels d.kernel
          d.out_channels k d.batch_size net).1 (d.resultPlace b i j) (d.product X V b i j)) ↔
      d.Aligned) ∧
    ∀ (X V : Nat → BitVec k) (x W res : Shares 3 (Lint L)),
      (∀ t, t < d.batch_size*d.ccol*d.crow → ArithSharing shares3pc k x t (X t)) →
      (∀ t, t < d.crow*d.out_channels → ArithSharing shares3pc k W t (V t)) →
      ∀ b i j, d.Inside b i j →
        (ArithSharing shares3pc k (rssPwMatrixmul res x W d.width d.height d.in_channels d.kernel
          d.out_channels k d.batch_size net).1 (d.resultPlace b i j) (d.product X V b i j) ↔
        d.productRead X V b i j = d.product X V b i j) := by
  refine ⟨⟨fun hright => ?_,fun hd X V x W res hx hW b i j h => ?_⟩,
    fun X V x W res hx hW b i j h => pwMatrixmul_value_iff hnet hk hx hW h res⟩
  · by_contra hd
    simp only [Aligned,not_or,Nat.not_le] at hd
    obtain ⟨hbatch,hkernel,hchannels,hcol,hout⟩ := hd
    have hlong : d.in_channels*d.width*d.height < d.ccol*d.crow := by
      have hpos : 0 < d.in_channels*d.ccol := Nat.mul_pos (by omega) (by omega)
      have hsquare : 1 < d.kernel*d.kernel := Nat.mul_lt_mul'' hkernel hkernel
      calc d.in_channels*d.width*d.height = 1*(d.in_channels*d.ccol) := by rw [ccol]; ring
        _ < d.kernel*d.kernel*(d.in_channels*d.ccol) := Nat.mul_lt_mul_of_pos_right hsquare hpos
        _ = d.ccol*d.crow := by rw [crow]; ring
    have hcrow : 0 < d.crow := Nat.pos_of_ne_zero fun h0 => by simp [h0] at hlong
    have hin : d.Inside 1 0 0 := ⟨hbatch,by omega,by omega⟩
    have hshared := fun f => exists_arithSharing (L := L) (k := k) (H := shares3pc) (t := {0})
      (by decide) hk f
    obtain ⟨x,hx⟩ := hshared (indicator k (d.in_channels*d.width*d.height))
    obtain ⟨W,hW⟩ := hshared (indicator k 0)
    have hvalue := (pwMatrixmul_value_iff hnet hk (fun t _ => hx t) (fun t _ => hW t) hin
      (fun _ _ _ => 0)).mp (hright _ _ x W _ (fun t _ => hx t) (fun t _ => hW t) 1 0 0 hin)
    rw [productRead,product,sum_indicator hcrow (by omega) fun t => _,
      sum_indicator hcrow (by omega) fun t => _] at hvalue
    have hread : d.readPlace 1 0 0 = d.in_channels*d.width*d.height := by simp [readPlace]
    have hpatch : d.patchPlace 1 0 0 = d.ccol*d.crow := by simp [patchPlace]
    rw [hread,hpatch,indicator_self,indicator_of_ne (by omega)] at hvalue
    exact one_ne_zero_of_pos hk₀ hvalue
  · exact (pwMatrixmul_value_iff hnet hk hx hW h res).mpr (productRead_of_aligned hd h X V)

theorem pwMatrixmul_iff_pair :
    let net : Net 3 Tape := fun _ _ => ⟨fun i => BitVec.ofNat 8 (3*i+1)⟩
    ArithSharing (L := 4) shares3pc 8 (rssPwMatrixmul (fun _ _ _ => 7) (fun _ _ _ => 1)
      (fun _ _ _ => 2) 1 1 1 1 1 8 2 net).1 1 18 := by
  intro net
  have hnet : shares3pc.Consistent net := fun _ _ _ _ _ _ _ => rfl
  have hd : Aligned ⟨1,1,1,1,1,2⟩ := Or.inr (Or.inl (le_refl 1))
  exact ((pwMatrixmul_iff (L := 4) (k := 8) hnet (by decide) (by decide) ⟨1,1,1,1,1,2⟩).1.mpr hd)
    (fun _ => 3) (fun _ => 6) (fun _ _ _ => 1) (fun _ _ _ => 2) (fun _ _ _ => 7)
    (fun _ _ => ⟨fun _ => 1,fun _ _ _ => rfl,by simp⟩)
    (fun _ _ => ⟨fun _ => 2,fun _ _ _ => rfl,by simp⟩) 1 0 0 ⟨by decide,by decide,by decide⟩

/-- Two images of one pixel under a kernel of four elements: entry 1, which belongs to the first
image, is the only one that is not zero, and the second result comes out as 3. -/
theorem pwMatrixmul_second_image :
    let net : Net 3 Tape := fun _ _ => ⟨fun i => BitVec.ofNat 8 (3*i+1)⟩
    let x : Shares 3 (Lint 4) := fun _ _ t => if t = 1 then 1 else 0
    let d : PwSizes := ⟨1,1,1,2,1,2⟩
    (∀ t, ArithSharing shares3pc 8 x t (if t = 1 then 3 else 0)) ∧ d.Inside 1 0 0 ∧
      ¬ ArithSharing shares3pc 8 (rssPwMatrixmul (fun _ _ _ => 7) x (fun _ _ _ => 3) 1 1 1 2 1 8 2
        net).1 (d.resultPlace 1 0 0) (d.product (fun t => if t = 1 then 3 else 0) (fun _ => 9) 1 0 0) := by
  intro net x d
  have hnet : shares3pc.Consistent net := fun _ _ _ _ _ _ _ => rfl
  have hx : ∀ t, ArithSharing shares3pc 8 x t (if t = 1 then 3 else 0) := by
    intro t
    refine ⟨fun _ => if t = 1 then 1 else 0,fun _ _ _ => ?_,?_⟩
    · by_cases ht : t = 1 <;> simp [x,ht]
    · by_cases ht : t = 1 <;> simp [ht]
  have hin : d.Inside 1 0 0 := ⟨by decide,by decide,by decide⟩
  refine ⟨hx,hin,fun hright => ?_⟩
  have hvalue := (pwMatrixmul_value_iff (d := d) hnet (by decide) (fun t _ => hx t)
    (V := fun _ => 9) (fun _ _ => ⟨fun _ => 3,fun _ _ _ => rfl,by simp⟩) hin _).mp hright
  exact absurd hvalue (by decide)

end PwSizes
end RssRing
