import RssRing.ProtocolsBasic.PwMatMult
import RssRing.ProtocolsComposite.Trunc
import RssRing.ProtocolsMl.NnLayers
import RssRing.ProtocolsMl.SvmOps
set_option autoImplicit false

namespace RssRing
open Replicated

variable {L : Nat} {G : Type}

section Layers
variable [Generator G] (A : Activations L G) (nn : Network L)

def convPatches (kernel stride : Nat) (d : Shape) (data_im : Shares 3 (Lint L)) :
    Shares 3 (Lint L) :=
  let x_padded : Shares 3 (Lint L) := fun p => extractPatch 2 (fun _ _ => 0) (data_im p)
    d.in_channels d.n d.n kernel stride nn.batch_size 1
  fun p => subZp 2 (x_padded p) (x_padded p) (nn.input_zp p) (convPadSize nn kernel stride d) 1
    d.layer_id

def convWeights (kernel out_channels : Nat) (d : Shape) (W : Shares 3 (Lint L)) :
    Shares 3 (Lint L) :=
  fun p => subZp 2 (W p) (W p) (nn.weights_zp p) (kernel*kernel*d.in_channels*out_channels) 1
    d.layer_id

/-- What both layers do up to the biases; `res` is the array they do it in. -/
def convSums (kernel out_channels stride : Nat) (d : Shape) (data_im res W : Shares 3 (Lint L))
    (net : Net 3 G) : Shares 3 (Lint L) × Net 3 G :=
  let n := d.n/stride
  let out := rssPwMatrixmul res (convPatches nn kernel stride d data_im)
    (convWeights nn kernel out_channels d W) n n d.in_channels kernel out_channels nn.ring_size
    nn.batch_size net
  (fun p => pwAddBiases 2 (out.1 p) (out.1 p) (nn.biases d.layer_id p) n n out_channels
    nn.batch_size,out.2)

def convActivation (out_channels stride : Nat) (d : Shape) (res : Shares 3 (Lint L))
    (net : Net 3 G) : Shares 3 (Lint L) × Net 3 G :=
  let size := convSize nn out_channels stride d
  let clamped := relu6AlphaTimer A res nn.relu_bounds size nn.ring_size d.layer_id net
  A.rssTruncPrivTime clamped.1 clamped.1 nn.trunc_vals nn.public_M d.layer_id size nn.ring_size
    clamped.2

def convAddZp (out_channels stride : Nat) (d : Shape) (res : Shares 3 (Lint L)) :
    Shares 3 (Lint L) :=
  fun p => addZp 2 (res p) (res p) (nn.output_zp p) (d.n/stride*(d.n/stride)*out_channels)
    nn.batch_size d.layer_id

variable (kernel out_channels stride : Nat) (st : Inference L G)

theorem rssConv2dFirst_x :
    let sums := convSums nn kernel out_channels stride st.shape nn.input_x (st.x st.shape.layer_id)
      (st.W st.shape.layer_id) st.net
    (rssConv2dFirst A nn kernel out_channels stride st).x =
      Function.update
        (Function.update st.x (st.shape.layer_id + 1)
          (convAddZp nn out_channels stride st.shape (st.x (st.shape.layer_id + 1))))
        st.shape.layer_id (convActivation A nn out_channels stride st.shape sums.1 sums.2).1 := rfl

theorem rssConv2dFinalLayer_output :
    let sums := convSums nn kernel out_channels stride st.shape (st.x (st.shape.layer_id - 1))
      st.output_x (st.W st.shape.layer_id) st.net
    (rssConv2dFinalLayer A nn kernel out_channels stride st).output_x =
      (convActivation A nn out_channels stride st.shape
        (convAddZp nn out_channels stride st.shape sums.1) sums.2).1 := rfl

end Layers

structure ConvValues (k : Nat) where
  x : Nat → BitVec k
  /-- The element of the image that stands at each place of the patches, unless that place is
  in the padding. -/
  patch : Nat → Option Nat
  W : Nat → BitVec k
  biases : Nat → BitVec k
  input_zp : BitVec k
  weights_zp : BitVec k
  output_zp : BitVec k
  relu_bound : BitVec k
  m : Nat

namespace ConvValues
variable {k : Nat} (v : ConvValues k)

/-- Element `e` of the result is channel `e % out_channels` of place `e/out_channels`. -/
def sum (crow out_channels e : Nat) : BitVec k :=
  ∑ t ∈ Finset.range crow, ((v.patch (e/out_channels*crow + t)).elim 0 v.x - v.input_zp)*
    (v.W (t*out_channels + e%out_channels) - v.weights_zp) + v.biases (e%out_channels)

def clamp (y : BitVec k) : BitVec k := BitVec.ofInt k (max 0 (min y.toInt v.relu_bound.toInt))

/-- `y/2^m`, rounded down or up by one. -/
def Truncated (y u : BitVec k) : Prop := u.toNat = y.toNat/2^v.m ∨ u.toNat = y.toNat/2^v.m + 1

end ConvValues

structure ConvShared (nn : Network L) (kernel out_channels : Nat) (d : Shape)
    (data_im W : Shares 3 (Lint L)) (v : ConvValues nn.ring_size) : Prop where
  x : ∀ i, i < d.in_channels*d.n*d.n*nn.batch_size →
    ArithSharing shares3pc nn.ring_size data_im i (v.x i)
  W : ∀ i, i < kernel*kernel*d.in_channels*out_channels →
    ArithSharing shares3pc nn.ring_size W i (v.W i)
  biases : ∀ j, j < out_channels →
    ArithSharing shares3pc nn.ring_size (nn.biases d.layer_id) j (v.biases j)
  input_zp : ArithSharing shares3pc nn.ring_size nn.input_zp d.layer_id v.input_zp
  weights_zp : ArithSharing shares3pc nn.ring_size nn.weights_zp d.layer_id v.weights_zp
  output_zp : ArithSharing shares3pc nn.ring_size nn.output_zp d.layer_id v.output_zp
  relu_bound : ArithSharing shares3pc nn.ring_size nn.relu_bounds d.layer_id v.relu_bound
  trunc_val : ArithSharing shares3pc nn.ring_size nn.trunc_vals d.layer_id (2^(nn.public_M - v.m))
  m_lt : v.m < nn.public_M

def ConvOutput (nn : Network L) (out_channels stride : Nat) (d : Shape)
    (v : ConvValues nn.ring_size) (y : Nat → BitVec nn.ring_size) (res : Shares 3 (Lint L)) :
    Prop :=
  ∀ e, e < convSize nn out_channels stride d →
    ∃ u, ArithSharing shares3pc nn.ring_size res e u ∧ v.Truncated (v.clamp (y e)) u

def PwMeets [Generator G] (k n in_channels kernel out_channels batch_size : Nat)
    (res x W : Shares 3 (Lint L)) (net : Net 3 G) : Prop :=
  let crow := kernel*kernel*in_channels
  ∀ X V : Nat → BitVec k,
    (∀ i, i < in_channels*kernel*kernel*n*n*batch_size → ArithSharing shares3pc k x i (X i)) →
    (∀ i, i < crow*out_channels → ArithSharing shares3pc k W i (V i)) →
    ∀ e, e < out_channels*n*n*batch_size → ArithSharing shares3pc k
      (rssPwMatrixmul res x W n n in_channels kernel out_channels k batch_size net).1 e
      (∑ t ∈ Finset.range crow,
        X (e/out_channels*crow + t)*V (t*out_channels + e%out_channels))

/-- The routines that a layer calls do on its arguments what they are for; `sums` with the
values `y` is what it clamps. -/
structure ConvMeets [Generator G] (A : Activations L G) (nn : Network L)
    (kernel out_channels stride : Nat) (d : Shape) (data_im res W : Shares 3 (Lint L))
    (net : Net 3 G) (v : ConvValues nn.ring_size) (sums : Shares 3 (Lint L))
    (y : Nat → BitVec nn.ring_size) : Prop where
  stride_pos : 0 < stride
  /-- Without a result the exchanges do not come to an end. -/
  size_pos : 0 < convSize nn out_channels stride d
  fits : PatchesFit nn kernel stride d
  patch : ∀ p s i, s < 2 → i < convPadSize nn kernel stride d →
    extractPatch 2 (fun _ _ => 0) (data_im p) d.in_channels d.n d.n kernel stride nn.batch_size 1
      s i = (v.patch i).elim 0 (data_im p s)
  patch_lt : ∀ i t, i < convPadSize nn kernel stride d → v.patch i = some t →
    t < d.in_channels*d.n*d.n*nn.batch_size
  product : PwMeets nn.ring_size (d.n/stride) d.in_channels kernel out_channels nn.batch_size res
    (convPatches nn kernel stride d data_im) (convWeights nn kernel out_channels d W) net
  clamp : let size := convSize nn out_channels stride d
    (∀ e, e < size → ArithSharing shares3pc nn.ring_size sums e (y e)) →
    ArithSharing shares3pc nn.ring_size nn.relu_bounds d.layer_id v.relu_bound →
    ∀ e, e < size → ArithSharing shares3pc nn.ring_size (relu6AlphaTimer A sums nn.relu_bounds size
      nn.ring_size d.layer_id (convSums nn kernel out_channels stride d data_im res W net).2).1 e
      (v.clamp (y e))
  trunc : let size := convSize nn out_channels stride d
    let clamped := relu6AlphaTimer A sums nn.relu_bounds size nn.ring_size d.layer_id
      (convSums nn kernel out_channels stride d data_im res W net).2
    (∀ e, e < size → ArithSharing shares3pc nn.ring_size clamped.1 e (v.clamp (y e))) →
    ArithSharing shares3pc nn.ring_size nn.trunc_vals d.layer_id (2^(nn.public_M - v.m)) →
    ∀ e, e < size → ∃ u, ArithSharing shares3pc nn.ring_size (A.rssTruncPrivTime clamped.1 clamped.1
      nn.trunc_vals nn.public_M d.layer_id size nn.ring_size clamped.2).1 e u ∧
      v.Truncated (v.clamp (y e)) u

/-- The inputs of a call of the first layer, and what it expects of the routines it calls. -/
structure FirstReady [Generator G] (A : Activations L G) (nn : Network L)
    (kernel out_channels stride : Nat) (v : ConvValues nn.ring_size) (st : Inference L G) : Prop where
  shared : ConvShared nn kernel out_channels st.shape nn.input_x (st.W st.shape.layer_id) v
  meets : ConvMeets A nn kernel out_channels stride st.shape nn.input_x (st.x st.shape.layer_id)
    (st.W st.shape.layer_id) st.net v
    (convSums nn kernel out_channels stride st.shape nn.input_x (st.x st.shape.layer_id)
      (st.W st.shape.layer_id) st.net).1
    (v.sum (kernel*kernel*st.shape.in_channels) out_channels)

/-- The same for the last layer, where the zero point of the output is part of what is clamped. -/
structure FinalReady [Generator G] (A : Activations L G) (nn : Network L)
    (kernel out_channels stride : Nat) (v : ConvValues nn.ring_size) (st : Inference L G) : Prop where
  shared : ConvShared nn kernel out_channels st.shape (st.x (st.shape.layer_id - 1))
    (st.W st.shape.layer_id) v
  meets : ConvMeets A nn kernel out_channels stride st.shape (st.x (st.shape.layer_id - 1))
    st.output_x (st.W st.shape.layer_id) st.net v
    (convAddZp nn out_channels stride st.shape (convSums nn kernel out_channels stride st.shape
      (st.x (st.shape.layer_id - 1)) st.output_x (st.W st.shape.layer_id) st.net).1)
    fun e => v.sum (kernel*kernel*st.shape.in_channels) out_channels e + v.output_zp

section Layers
variable {k size i : Nat} {u w : BitVec k} {res x y : Shares 3 (Lint L)} {index : Nat → Nat}

theorem mapIndexed_add (hk : k ≤ 8*L) (hi : i < size) (hx : ArithSharing shares3pc k x i u)
    (hy : ArithSharing shares3pc k y (index i) w) :
    ArithSharing shares3pc k
      (fun p => mapIndexed 2 size (fun x z => x + z) (res p) (x p) (y p) index) i (u + w) :=
  (hx.add hy).congr fun p s hs => by
    simp only [mapIndexed,if_pos (⟨hs,hi⟩ : s < 2 ∧ i < size),BitVec.setWidth_add _ _ hk]

theorem mapIndexed_sub (hk : k ≤ 8*L) (hi : i < size) (hx : ArithSharing shares3pc k x i u)
    (hy : ArithSharing shares3pc k y (index i) w) :
    ArithSharing shares3pc k
      (fun p => mapIndexed 2 size (fun x z => x - z) (res p) (x p) (y p) index) i (u - w) :=
  (hx.sub hy).congr fun p s hs => by
    simp only [mapIndexed,if_pos (⟨hs,hi⟩ : s < 2 ∧ i < size),setWidth_sub_of_le _ _ hk]

variable [Generator G] {A : Activations L G} {nn : Network L} {kernel out_channels stride : Nat}
  {d : Shape} {data_im W sums : Shares 3 (Lint L)} {net : Net 3 G} {v : ConvValues nn.ring_size}
  {Y : Nat → BitVec nn.ring_size}

theorem convPatches_isSharing (hk : nn.ring_size ≤ 8*L)
    (hv : ConvShared nn kernel out_channels d data_im W v)
    (hA : ConvMeets A nn kernel out_channels stride d data_im res W net v sums Y)
    (hi : i < convPadSize nn kernel stride d) :
    ArithSharing shares3pc nn.ring_size (convPatches nn kernel stride d data_im) i
      ((v.patch i).elim 0 v.x - v.input_zp) := by
  have hpatch : ArithSharing shares3pc nn.ring_size (fun p => extractPatch 2 (fun _ _ => 0)
      (data_im p) d.in_channels d.n d.n kernel stride nn.batch_size 1) i
      ((v.patch i).elim 0 v.x) := by
    cases hcell : v.patch i with
    | none =>
      refine Pattern.isSharing_zero.congr fun p s hs => ?_
      simp only [hA.patch p s i hs hi,hcell]
      exact BitVec.setWidth_zero _ _
    | some t =>
      refine (hv.x t (hA.patch_lt i t hi hcell)).congr fun p s hs => ?_
      simp only [hA.patch p s i hs hi,hcell]
      rfl
  exact mapIndexed_sub hk (by rwa [Nat.mul_one]) hpatch hv.input_zp

theorem convWeights_isSharing (hk : nn.ring_size ≤ 8*L)
    (hv : ConvShared nn kernel out_channels d data_im W v)
    (hi : i < kernel*kernel*d.in_channels*out_channels) :
    ArithSharing shares3pc nn.ring_size (convWeights nn kernel out_channels d W) i
      (v.W i - v.weights_zp) :=
  mapIndexed_sub hk (by rwa [Nat.mul_one]) (hv.W i hi) hv.weights_zp

theorem convSums_isSharing (hk : nn.ring_size ≤ 8*L)
    (hv : ConvShared nn kernel out_channels d data_im W v)
    (hA : ConvMeets A nn kernel out_channels stride d data_im res W net v sums Y)
    (hi : i < convSize nn out_channels stride d) :
    ArithSharing shares3pc nn.ring_size
      (convSums nn kernel out_channels stride d data_im res W net).1 i
      (v.sum (kernel*kernel*d.in_channels) out_channels i) := by
  have hproduct := hA.product _ _ (fun i hi => convPatches_isSharing hk hv hA hi)
    (fun i hi => convWeights_isSharing hk hv hi) i hi
  have hchannels : 0 < out_channels := by
    by_contra h
    rw [convSize,Nat.eq_zero_of_not_pos h] at hi
    omega
  refine mapIndexed_add hk ?_ hproduct (hv.biases (i%out_channels) (Nat.mod_lt i hchannels))
  calc i < out_channels*(d.n/stride)*(d.n/stride)*nn.batch_size := hi
    _ = d.n/stride*(d.n/stride)*nn.batch_size*out_channels := by ac_rfl

theorem convZpSize_eq : d.n/stride*(d.n/stride)*out_channels*nn.batch_size =
    convSize nn out_channels stride d := by
  rw [convSize]
  ac_rfl

theorem convAddZp_isSharing (hk : nn.ring_size ≤ 8*L) {z u : BitVec nn.ring_size}
    (hz : ArithSharing shares3pc nn.ring_size nn.output_zp d.layer_id z)
    (hi : i < convSize nn out_channels stride d) (hx : ArithSharing shares3pc nn.ring_size x i u) :
    ArithSharing shares3pc nn.ring_size (convAddZp nn out_channels stride d x) i (u + z) :=
  mapIndexed_add hk (by rwa [convZpSize_eq]) hx hz

theorem convActivation_output
    (hv : ConvShared nn kernel out_channels d data_im W v)
    (hA : ConvMeets A nn kernel out_channels stride d data_im res W net v sums Y)
    (hsums : ∀ e, e < convSize nn out_channels stride d →
      ArithSharing shares3pc nn.ring_size sums e (Y e)) :
    ConvOutput nn out_channels stride d v Y (convActivation A nn out_channels stride d sums
      (convSums nn kernel out_channels stride d data_im res W net).2).1 :=
  hA.trunc (hA.clamp hsums hv.relu_bound) hv.trunc_val

theorem FinalReady.output (hk : nn.ring_size ≤ 8*L) {st : Inference L G}
    (h : FinalReady A nn kernel out_channels stride v st) :
    ConvOutput nn out_channels stride st.shape v
      (fun e => v.sum (kernel*kernel*st.shape.in_channels) out_channels e + v.output_zp)
      (rssConv2dFinalLayer A nn kernel out_channels stride st).output_x := by
  rw [rssConv2dFinalLayer_output]
  exact convActivation_output h.shared h.meets fun e he =>
    convAddZp_isSharing hk h.shared.output_zp he (convSums_isSharing hk h.shared h.meets he)

/-- What the first layer really leaves: the sums without the zero point of the output. -/
theorem FirstReady.output (hk : nn.ring_size ≤ 8*L) {st : Inference L G}
    (h : FirstReady A nn kernel out_channels stride v st) :
    ConvOutput nn out_channels stride st.shape v
      (v.sum (kernel*kernel*st.shape.in_channels) out_channels)
      ((rssConv2dFirst A nn kernel out_channels stride st).x st.shape.layer_id) := by
  rw [rssConv2dFirst_x,Function.update_self]
  exact convActivation_output h.shared h.meets fun e he =>
    convSums_isSharing hk h.shared h.meets he

theorem rssConv2dFirst_other (A : Activations L G) (nn : Network L)
    (kernel out_channels stride : Nat) (st : Inference L G) (l : Nat)
    (hl : l ≠ st.shape.layer_id) :
    (rssConv2dFirst A nn kernel out_channels stride st).x l =
      if l = st.shape.layer_id + 1 then convAddZp nn out_channels stride st.shape (st.x l)
      else st.x l := by
  rw [rssConv2dFirst_x,Function.update_of_ne hl]
  by_cases hnext : l = st.shape.layer_id + 1
  · rw [if_pos hnext,hnext,Function.update_self]
  · rw [if_neg hnext,Function.update_of_ne hnext]

theorem convAddZp_eq_iff {d : Shape} (hsize : 0 < convSize nn out_channels stride d)
    (x : Shares 3 (Lint L)) : convAddZp nn out_channels stride d x = x ↔
      ∀ p s, s < 2 → nn.output_zp p s d.layer_id = 0 := by
  constructor
  · intro h p s hs
    have hword := congrFun (congrFun (congrFun h p) s) 0
    simp only [convAddZp,addZp,mapIndexed] at hword
    rw [convZpSize_eq,if_pos ⟨hs,hsize⟩] at hword
    exact add_eq_left.mp hword
  · intro hzero
    funext p s i
    simp only [convAddZp,addZp,mapIndexed]
    split
    case isTrue hin => rw [hzero p s hin.1,add_zero]
    case isFalse => rfl

theorem convAddZp_values_iff (hk : nn.ring_size ≤ 8*L) {z w₀ : BitVec nn.ring_size}
    (hsize : 0 < convSize nn out_channels stride d)
    (hz : ArithSharing shares3pc nn.ring_size nn.output_zp d.layer_id z)
    (hw₀ : ArithSharing shares3pc nn.ring_size x 0 w₀) :
    (∀ i w, ArithSharing shares3pc nn.ring_size x i w →
      ArithSharing shares3pc nn.ring_size (convAddZp nn out_channels stride d x) i w) ↔ z = 0 := by
  constructor
  · intro h
    have hadded := convAddZp_isSharing hk hz hsize hw₀
    exact add_eq_left.mp (hadded.unique (h 0 w₀ hw₀))
  · rintro rfl i w hw
    by_cases hin : i < convSize nn out_channels stride d
    · have hadded := convAddZp_isSharing hk hz hin hw
      rwa [add_zero] at hadded
    · refine hw.congr fun p s _ => ?_
      simp only [convAddZp,addZp,mapIndexed]
      rw [convZpSize_eq,if_neg fun h => hin h.2]

/-- The last layer computes the truncation of the clamp of the sums with the zero point of the
output, and keeps to its own buffer. The first layer adds that zero point to the buffer of the
next layer: it does the same in exactly those calls in which the zero point does not show. -/
theorem conv2d_agree_iff (A : Activations L G) (nn : Network L) (hk : nn.ring_size ≤ 8*L)
    (kernel out_channels stride : Nat) (v : ConvValues nn.ring_size) :
    (∀ st : Inference L G, FinalReady A nn kernel out_channels stride v st →
      let last := rssConv2dFinalLayer A nn kernel out_channels stride st
      ConvOutput nn out_channels stride st.shape v
        (fun e => v.sum (kernel*kernel*st.shape.in_channels) out_channels e + v.output_zp)
        last.output_x ∧ last.x = st.x) ∧
    ∀ st : Inference L G, FirstReady A nn kernel out_channels stride v st →
      let layer_id := st.shape.layer_id
      let first := rssConv2dFirst A nn kernel out_channels stride st
      let Right := ConvOutput nn out_channels stride st.shape v
        (fun e => v.sum (kernel*kernel*st.shape.in_channels) out_channels e + v.output_zp)
        (first.x layer_id)
      ((Right ∧ ∀ l, l ≠ layer_id → first.x l = st.x l) ↔
        ∀ p s, s < 2 → nn.output_zp p s layer_id = 0) ∧
      ∀ w₀, ArithSharing shares3pc nn.ring_size (st.x (layer_id + 1)) 0 w₀ →
        ((Right ∧ ∀ l, l ≠ layer_id → ∀ i w, ArithSharing shares3pc nn.ring_size (st.x l) i w →
          ArithSharing shares3pc nn.ring_size (first.x l) i w) ↔ v.output_zp = 0) := by
  refine ⟨fun st h => ⟨h.output hk,rfl⟩,fun st h => ?_⟩
  intro layer_id first Right
  have hsize := h.meets.size_pos
  have hright : v.output_zp = 0 → Right := by
    intro hz e he
    simp only [hz,add_zero]
    exact h.output hk e he
  have hnext : first.x (layer_id + 1) =
      convAddZp nn out_channels stride st.shape (st.x (layer_id + 1)) := by
    rw [rssConv2dFirst_other A nn kernel out_channels stride st _ (Nat.succ_ne_self _),if_pos rfl]
  have hrest : ∀ l, l ≠ layer_id → l ≠ layer_id + 1 → first.x l = st.x l := by
    intro l hl hl'
    rw [rssConv2dFirst_other A nn kernel out_channels stride st l hl,if_neg hl']
  refine ⟨⟨fun hall => ?_,fun hwords => ⟨?_,fun l hl => ?_⟩⟩,fun w₀ hw₀ =>
    ⟨fun hall => ?_,fun hvalue => ⟨hright hvalue,fun l hl i w hw => ?_⟩⟩⟩
  · rw [← convAddZp_eq_iff hsize (st.x (layer_id + 1)),← hnext]
    exact hall.2 _ (Nat.succ_ne_self _)
  · refine hright (h.shared.output_zp.unique (Pattern.isSharing_zero.congr fun p s hs => ?_))
    rw [hwords p s hs]
    exact BitVec.setWidth_zero _ _
  · by_cases hl' : l = layer_id + 1
    · rw [hl',hnext]
      exact (convAddZp_eq_iff hsize _).mpr hwords
    · exact hrest l hl hl'
  · rw [← convAddZp_values_iff hk hsize h.shared.output_zp hw₀,← hnext]
    exact hall.2 _ (Nat.succ_ne_self _)
  · by_cases hl' : l = layer_id + 1
    · subst hl'
      rw [hnext]
      exact (convAddZp_values_iff hk hsize h.shared.output_zp hw₀).mpr hvalue i w hw
    · rwa [hrest l hl hl']

/-- `Rss_pw_matrixmul` takes the patches of an entry of the batch to be as long as the entry of
the image, which is so for kernels of one element; a single entry starts at zero anyway. -/
theorem rssPwMatrixmul_meets (hk : k ≤ 8*L) (hnet : shares3pc.Consistent net)
    {n in_channels batch_size : Nat} (hshape : kernel = 1 ∨ batch_size = 1)
    (res x W : Shares 3 (Lint L)) :
    PwMeets k n in_channels kernel out_channels batch_size res x W net := by
  intro X V hX hV e he
  let d : PwSizes := ⟨n,n,in_channels,kernel,out_channels,batch_size⟩
  have hrows : e < batch_size*(n*n)*out_channels := by
    calc e < out_channels*n*n*batch_size := he
      _ = batch_size*(n*n)*out_channels := by ac_rfl
  obtain ⟨l,i,j,hl,rfl⟩ := exists_batch_index hrows
  have hrow : (l*(n*n)*out_channels + i.val*out_channels + j.val)/out_channels = l*(n*n) + i.val := by
    rw [← Nat.add_mul,index_div j.isLt]
  have hcolumn : (l*(n*n)*out_channels + i.val*out_channels + j.val)%out_channels = j.val := by
    rw [← Nat.add_mul,index_mod j.isLt]
  have hin : d.Inside l i.val j.val := ⟨hl,i.isLt,j.isLt⟩
  have hd : d.Aligned := by
    rcases hshape with rfl | rfl
    · exact Or.inr (Or.inl le_rfl)
    · exact Or.inl le_rfl
  have hx : ∀ t, t < d.batch_size*d.ccol*d.crow → ArithSharing shares3pc k x t (X t) := by
    intro t ht
    refine hX t ?_
    calc t < batch_size*(n*n)*(kernel*kernel*in_channels) := ht
      _ = in_channels*kernel*kernel*n*n*batch_size := by ac_rfl
  have h := PwSizes.pwMatrixmul_value hnet hk hx hV hin res
  rw [PwSizes.productRead_of_aligned hd hin] at h
  rw [hrow,hcolumn]
  exact h

end Layers

section Modelled
variable [Generator G]

def pairMemory (x y : Shares 3 (Lint L)) : Memory 3 L := fun a => if a = 0 then x else y

/-- The layers' routines out of the modelled protocols, each called in place. -/
def activations3pc (C : Comparisons 3 L G) (w : Nat → CallArrays 3 L) (scratch u : Shares 3 (Lint L)) :
    Activations L G where
  fixedRssGTLTTime _ a b size ring_size layer net :=
    let out := C.fixedRssGTLTTime (pairMemory a b) 0 0 1 size ring_size layer net
    (out.1 0,out.2)
  rssTruncPrivTime _ x priv_m public_M priv_m_index size ring_size net :=
    let out := (suite3pc scratch).truncPrivTime u (pairMemory x priv_m) 0 0 1 public_M priv_m_index
      size ring_size net
    (out.1 0,out.2)
  rssTruncPrTime _ x m size ring_size net :=
    let out := (suite3pc scratch).truncPrTime u (pairMemory x x) 0 0 m size ring_size net
    (out.1 0,out.2)
  edaArgMaxTime res res_index a ring_size size batch_size net :=
    let out := C.edaArgMaxTime w res res_index a ring_size size batch_size net
    ((out.res,out.res_index),out.net)

/-- What `Rss_truncPr_time` opens of element `e` of a layer: it is right about those elements
for which this is below `2^public_M`. -/
def convOpened (nn : Network L) (d : Shape) (m size : Nat)
    (clamped : Shares 3 (Lint L) × Net 3 G) (y : BitVec nn.ring_size) (e : Nat) :
    BitVec nn.ring_size :=
  y*2^(nn.public_M - m) + dealtSum L nn.ring_size size (rssMultFixedBAt
    (pairMemory clamped.1 nn.trunc_vals) 0 0 1 d.layer_id size nn.ring_size clamped.2).2 e

variable {nn : Network L} {kernel out_channels stride : Nat} {d : Shape}
  {data_im res W sums : Shares 3 (Lint L)} {net : Net 3 G} {v : ConvValues nn.ring_size}
  {Y : Nat → BitVec nn.ring_size}

/-- The modelled protocols are what the layers expect, where the sums are not negative and have
room for the bits that the truncation adds, in the runs in which the truncation is right. -/
theorem activations3pc_meets {C : Comparisons 3 L G} (hC : C.Correct shares3pc nn.ring_size)
    (hM : nn.public_M < nn.ring_size) (hkL : nn.ring_size + 2 ≤ 8*L)
    (hnet : shares3pc.Consistent net) (hshape : kernel = 1 ∨ nn.batch_size = 1) (hs : 0 < stride)
    (hsize : 0 < convSize nn out_channels stride d) (hdvd : stride ∣ d.n)
    (hpatch : ∀ p s i, s < 2 → i < convPadSize nn kernel stride d →
      extractPatch 2 (fun _ _ => 0) (data_im p) d.in_channels d.n d.n kernel stride nn.batch_size 1
        s i = (v.patch i).elim 0 (data_im p s))
    (hlt : ∀ i t, i < convPadSize nn kernel stride d → v.patch i = some t →
      t < d.in_channels*d.n*d.n*nn.batch_size)
    (hm : v.m < nn.public_M) (hυ : 0 ≤ v.relu_bound.toInt)
    (hY : ∀ e, e < convSize nn out_channels stride d → 0 ≤ (Y e).toInt ∧
      |(Y e).toInt - v.relu_bound.toInt| < 2^(nn.ring_size-1) ∧
      (v.clamp (Y e)).toNat*2^(nn.public_M - v.m) < 2^(nn.ring_size-1))
    (w : Nat → CallArrays 3 L) (scratch u : Shares 3 (Lint L))
    (hopened : let size := convSize nn out_channels stride d
      let clamped := relu6AlphaTimer (activations3pc C w scratch u) sums nn.relu_bounds size
        nn.ring_size d.layer_id (convSums nn kernel out_channels stride d data_im res W net).2
      ∀ e, e < size → (convOpened nn d v.m size clamped (v.clamp (Y e)) e).toNat < 2^nn.public_M) :
    ConvMeets (activations3pc C w scratch u) nn kernel out_channels stride d data_im res W net v sums
      Y := by
  have hk : nn.ring_size ≤ 8*L := by omega
  have hnet₁ : shares3pc.Consistent
      (convSums nn kernel out_channels stride d data_im res W net).2 :=
    advance_consistent3pc hnet _ _
  refine ⟨hs,hsize,patchesFit_of_dvd nn hs hdvd,hpatch,hlt,rssPwMatrixmul_meets hk hnet hshape _ _ _,
    ?_,?_⟩
  · intro size hsums hbound e he
    obtain ⟨hnonneg,hrange,-⟩ := hY e he
    let mem := pairMemory sums nn.relu_bounds
    have hsum : ArithSharing shares3pc nn.ring_size (mem 0) e (Y e) := hsums e he
    have hupper : ArithSharing shares3pc nn.ring_size (mem 1) d.layer_id v.relu_bound := hbound
    have hclamped := Comparisons.fixedRssGTLTTime_element 0 hC hk hnet₁ he Nat.one_ne_zero hsum hupper
      (abs_lt.mp hrange).1.le (abs_lt.mp hrange).2
    simp only [if_neg (Int.not_lt.mpr hnonneg),zero_add] at hclamped
    rw [ConvValues.clamp,max_eq_right (le_min hnonneg hυ)]
    exact hclamped
  · intro size clamped hclamped hpriv e he
    have hnet₂ : shares3pc.Consistent clamped.2 :=
      hC.multNet _ _ _ (hC.multNet _ _ _ (hC.msbNet _ _ hnet₁))
    exact truncPrivTime_element hm hM hkL he hnet₂ scratch u (pairMemory clamped.1 nn.trunc_vals) 0 0
      1 d.layer_id (hY e he).2.2 (hclamped e he) hpriv (hopened e he)

end Modelled

section Pixel

def pixelNetwork (z : Lint 4) : Network 4 where
  input_x _ _ _ := 1
  biases _ _ _ _ := -1
  relu_bounds _ _ _ := 7
  trunc_vals _ _ _ := 22
  input_zp _ _ _ := 0
  weights_zp _ _ _ := 0
  output_zp _ _ _ := z
  batch_size := 1
  public_M := 2
  ring_size := 6

/-- With these streams the dealers deal numbers that add up to 52. -/
def pixelInference (layer_id : Nat) : Inference 4 (Steady 26) where
  x _ _ _ _ := 1
  W _ _ _ _ := 1
  output_x _ _ _ := 0
  final_x _ _ _ := 0
  final_x_ind _ _ _ := 0
  shape := ⟨1,1,layer_id⟩
  net _ _ := ⟨⟩

def pixelValues (z : Lint 4) : ConvValues 6 where
  x _ := 3
  patch := some
  W _ := 3
  biases _ := -3
  input_zp := 0
  weights_zp := 0
  output_zp := 3*z.setWidth 6
  relu_bound := 21
  m := 1

def pixelActivations : Activations 4 (Steady 26) :=
  let x : Shares 3 (Lint 4) := fun _ _ _ => 8
  activations3pc (comparisons3pc ⟨fun _ _ _ => 7,fun _ _ _ => 9,fun _ _ _ => 5⟩ fun _ _ _ => 3)
    (fun _ => ⟨x,x,x,x,x,x,x⟩) x x

theorem same_isSharing {c : Lint 4} {v : BitVec 6} (h : 3*c.setWidth 6 = v) (i : Nat) :
    ArithSharing shares3pc 6 (fun _ _ _ => c) i v := by
  refine ⟨fun _ => c.setWidth 6,fun _ _ _ => rfl,?_⟩
  rw [Finset.sum_const,card_names3pc,nsmul_eq_mul,← h]
  rfl

theorem pixel_shared (z : Lint 4) (layer_id : Nat) {data_im W : Shares 3 (Lint 4)}
    (hdata : data_im = fun _ _ _ => 1) (hW : W = fun _ _ _ => 1) :
    ConvShared (pixelNetwork z) 1 1 ⟨1,1,layer_id⟩ data_im W (pixelValues z) := by
  have hthree : 3*(1 : Lint 4).setWidth 6 = (3 : BitVec 6) := by decide
  have hzero : 3*(0 : Lint 4).setWidth 6 = (0 : BitVec 6) := by decide
  subst hdata hW
  exact ⟨fun i _ => same_isSharing hthree i,fun i _ => same_isSharing hthree i,
    fun j _ => same_isSharing (by decide : 3*(-1 : Lint 4).setWidth 6 = -3) j,
    same_isSharing hzero layer_id,same_isSharing hzero layer_id,same_isSharing rfl layer_id,
    same_isSharing (by decide : 3*(7 : Lint 4).setWidth 6 = 21) layer_id,
    same_isSharing (by decide : 3*(22 : Lint 4).setWidth 6 = 2^(2-1)) layer_id,
    (by decide : (1 : Nat) < 2)⟩

theorem pixel_opened (clamped : Shares 3 (Lint 4) × Net 3 (Steady 26)) (z : Lint 4) (d : Shape)
    {y : BitVec 6} (hy : y = 6) : (convOpened (pixelNetwork z) d (pixelValues z).m 1 clamped
      ((pixelValues z).clamp y) 0).toNat < 2^(pixelNetwork z).public_M := by
  have hdealt : dealtSum 4 6 1 (rssMultFixedBAt (pairMemory clamped.1 fun _ _ _ => 22) 0 0 1
      d.layer_id 1 6 clamped.2).2 0 = dealtSum 4 6 1 (fun _ _ => (⟨⟩ : Steady 26)) 0 :=
    congrArg (fun net => dealtSum 4 6 1 net 0) (Subsingleton.elim _ _)
  have hvalue : (BitVec.ofInt 6 (max 0 (min (6 : BitVec 6).toInt 21))*2^(2 - 1) +
      dealtSum 4 6 1 (fun _ _ => (⟨⟩ : Steady 26)) 0).toNat < 2^2 := by decide
  subst hy
  rw [← hdealt] at hvalue
  exact hvalue

theorem pixel_meets (z : Lint 4) (layer_id : Nat) (res sums : Shares 3 (Lint 4))
    {Y : Nat → BitVec 6} (hY : Y 0 = 6) :
    ConvMeets pixelActivations (pixelNetwork z) 1 1 1 ⟨1,1,layer_id⟩ (fun _ _ _ => 1) res
      (fun _ _ _ => 1) (pixelInference layer_id).net (pixelValues z) sums Y := by
  have hpad : convPadSize (pixelNetwork z) 1 1 ⟨1,1,layer_id⟩ = 1 := by
    simp [convPadSize,pixelNetwork]
  have hsize : convSize (pixelNetwork z) 1 1 ⟨1,1,layer_id⟩ = 1 := by
    simp [convSize,pixelNetwork]
  have hcopy : ∀ s, s < 2 → extractPatch 2 (fun _ _ => 0) (fun _ _ => (1 : Lint 4)) 1 1 1 1 1 1 1
      s 0 = 1 := by decide
  have hbounds : 0 ≤ (6 : BitVec 6).toInt ∧ |(6 : BitVec 6).toInt - 21| < 2^5 ∧
      (BitVec.ofInt 6 (max 0 (min (6 : BitVec 6).toInt 21))).toNat*2^1 < 2^5 := by decide
  refine activations3pc_meets (comparisons3pc_correct (by decide : 2 ≤ 6) (by decide : 6 + 2 ≤ 32) _ _)
    (by decide : (2 : Nat) < 6) (by decide : 6 + 2 ≤ 32) (fun _ _ _ _ _ _ _ => rfl) (Or.inl rfl)
    Nat.one_pos (by rw [hsize]; exact Nat.one_pos) (one_dvd _) ?_ ?_
    (by decide : (1 : Nat) < 2) (by decide : 0 ≤ (21 : BitVec 6).toInt) ?_ _ _ _ ?_
  · intro p s i hs hi
    rw [hpad,Nat.lt_one_iff] at hi
    subst hi
    exact hcopy s hs
  · rintro i t hi ⟨⟩
    rwa [hpad] at hi
  · intro e he
    rw [hsize,Nat.lt_one_iff] at he
    rw [he,hY]
    exact hbounds
  · intro size clamped e he
    have hone : size = 1 := hsize
    rw [hone,Nat.lt_one_iff] at he
    rw [he,hone]
    exact pixel_opened clamped z _ hY

theorem conv2d_agree_iff_pixel :
    let nn := pixelNetwork 0
    let last := rssConv2dFinalLayer pixelActivations nn 1 1 1 (pixelInference 1)
    let first := rssConv2dFirst pixelActivations nn 1 1 1 (pixelInference 0)
    (∃ u : BitVec 6, ArithSharing shares3pc 6 last.output_x 0 u ∧ (u.toNat = 3 ∨ u.toNat = 4)) ∧
    last.x = (pixelInference 1).x ∧
    (∃ u : BitVec 6, ArithSharing shares3pc 6 (first.x 0) 0 u ∧ (u.toNat = 3 ∨ u.toNat = 4)) ∧
    first.x 1 = (pixelInference 0).x 1 := by
  intro nn last first
  have hsum : (pixelValues 0).sum 1 1 0 = 6 := by decide
  have hsum₁ : (pixelValues 0).sum 1 1 0 + (pixelValues 0).output_zp = 6 := by decide
  have hpos : 0 < convSize nn 1 1 ⟨1,1,0⟩ := by decide
  obtain ⟨hlast,hfirst⟩ := conv2d_agree_iff pixelActivations nn (by decide) 1 1 1 (pixelValues 0)
  obtain ⟨hout,hx⟩ := hlast (pixelInference 1)
    ⟨pixel_shared 0 1 rfl rfl,pixel_meets 0 1 _ _ hsum₁⟩
  obtain ⟨hright,hothers⟩ := (hfirst (pixelInference 0)
    ⟨pixel_shared 0 0 rfl rfl,pixel_meets 0 0 _ _ hsum⟩).1.mpr fun _ _ _ => rfl
  have hhalf : ∀ u, (pixelValues 0).Truncated
      ((pixelValues 0).clamp ((pixelValues 0).sum 1 1 0 + (pixelValues 0).output_zp)) u →
        u.toNat = 3 ∨ u.toNat = 4 := by
    rw [hsum₁]
    exact fun u hu => hu
  obtain ⟨u,hu,hval⟩ := hout 0 hpos
  obtain ⟨u',hu',hval'⟩ := hright 0 hpos
  exact ⟨⟨u,hu,hhalf u hval⟩,hx,⟨u',hu',hhalf u' hval'⟩,hothers 1 Nat.one_ne_zero⟩

/-- With the zero point nine the first layer should leave a half of fifteen, and leaves a half
of six; the array of the next layer, which shared three, shares twelve. -/
theorem rssConv2dFirst_nine :
    let nn := pixelNetwork 3
    let st := pixelInference 0
    let v := pixelValues 3
    let first := rssConv2dFirst pixelActivations nn 1 1 1 st
    FirstReady pixelActivations nn 1 1 1 v st ∧
    ¬ ConvOutput nn 1 1 st.shape v (fun e => v.sum 1 1 e + v.output_zp) (first.x 0) ∧
    ArithSharing shares3pc 6 (st.x 1) 0 3 ∧ ArithSharing shares3pc 6 (first.x 1) 0 12 := by
  intro nn st v first
  have hsum : v.sum 1 1 0 = 6 := by decide
  have hsum₁ : v.sum 1 1 0 + v.output_zp = 15 := by decide
  have hpos : 0 < convSize nn 1 1 ⟨1,1,0⟩ := by decide
  have hready : FirstReady pixelActivations nn 1 1 1 v st :=
    ⟨pixel_shared 3 0 rfl rfl,pixel_meets 3 0 _ _ hsum⟩
  have hnext : ArithSharing shares3pc 6 (st.x 1) 0 3 := same_isSharing (by decide) 0
  refine ⟨hready,fun h => ?_,hnext,?_⟩
  · obtain ⟨u,hu,hval⟩ := hready.output (by decide) 0 hpos
    obtain ⟨u',hu',hval'⟩ := h 0 hpos
    rw [hu.unique hu'] at hval
    have hsix : ∀ y, y = 6 → (pixelValues 3).Truncated ((pixelValues 3).clamp y) u' →
        u'.toNat = 3 ∨ u'.toNat = 4 := by
      rintro y rfl hu
      exact hu
    have hfifteen : ∀ y, y = 15 → (pixelValues 3).Truncated ((pixelValues 3).clamp y) u' →
        u'.toNat = 7 ∨ u'.toNat = 8 := by
      rintro y rfl hu
      exact hu
    have hlow := hsix _ hsum hval
    have hhigh := hfifteen _ hsum₁ hval'
    omega
  · have hother : first.x 1 = convAddZp nn 1 1 st.shape (st.x 1) :=
      rssConv2dFirst_other pixelActivations nn 1 1 1 st 1 Nat.one_ne_zero
    rw [hother]
    exact convAddZp_isSharing (by decide) hready.shared.output_zp hpos hnext

end Pixel

end RssRing
