import RssRing.ProtocolsBasic.MatMult
import RssRing.ProtocolsMl.ExtractPatch
set_option autoImplicit false

namespace RssRing
open Replicated

variable {L : Nat} {G : Type}

/-- The protocols that the layers end with. Each one writes only the arrays it is given
as results, the first of its arguments. -/
structure Activations (L : Nat) (G : Type) where
  /-- `fixed_Rss_GT_LT_time(res, a, b, size, ring_size, layer)` -/
  fixedRssGTLTTime : Shares 3 (Lint L) → Shares 3 (Lint L) → Shares 3 (Lint L) → Nat → Nat → Nat →
    Net 3 G → Shares 3 (Lint L) × Net 3 G
  /-- `Rss_truncPriv_time(res, x, priv_m, public_M, priv_m_index, size, ring_size)` -/
  rssTruncPrivTime : Shares 3 (Lint L) → Shares 3 (Lint L) → Shares 3 (Lint L) → Nat → Nat → Nat →
    Nat → Net 3 G → Shares 3 (Lint L) × Net 3 G
  /-- `Rss_truncPr_time(res, x, m, size, ring_size)` -/
  rssTruncPrTime : Shares 3 (Lint L) → Shares 3 (Lint L) → Nat → Nat → Nat → Net 3 G →
    Shares 3 (Lint L) × Net 3 G
  /-- `eda_arg_max_time(res, res_index, a, ring_size, size, batch_size)` -/
  edaArgMaxTime : Shares 3 (Lint L) → Shares 3 (Lint L) → Shares 3 (Lint L) → Nat → Nat → Nat →
    Net 3 G → (Shares 3 (Lint L) × Shares 3 (Lint L)) × Net 3 G

structure Network (L : Nat) where
  input_x : Shares 3 (Lint L)
  biases : Nat → Shares 3 (Lint L)
  relu_bounds : Shares 3 (Lint L)
  trunc_vals : Shares 3 (Lint L)
  input_zp : Shares 3 (Lint L)
  weights_zp : Shares 3 (Lint L)
  output_zp : Shares 3 (Lint L)
  batch_size : Nat
  public_M : Nat
  ring_size : Nat

structure Shape where
  n : Nat
  in_channels : Nat
  layer_id : Nat

structure Inference (L : Nat) (G : Type) where
  x : Nat → Shares 3 (Lint L)
  W : Nat → Shares 3 (Lint L)
  output_x : Shares 3 (Lint L)
  final_x : Shares 3 (Lint L)
  final_x_ind : Shares 3 (Lint L)
  shape : Shape
  net : Net 3 G

variable (A : Activations L G) (nn : Network L)

/-- The elements of `x_padded` in `Rss_conv2d_first` and `Rss_conv2d_final_layer`. -/
def convPadSize (kernel stride : Nat) (d : Shape) : Nat :=
  d.in_channels*kernel*kernel*(d.n/stride)*(d.n/stride)*nn.batch_size

def convSize (out_channels stride : Nat) (d : Shape) : Nat :=
  out_channels*(d.n/stride)*(d.n/stride)*nn.batch_size

/-- All writes of `extract_patch` are to places that `x_padded` has. -/
def PatchesFit (kernel stride : Nat) (d : Shape) : Prop :=
  ∀ e ∈ PatchSizes.patchEntries ⟨d.in_channels,d.n,d.n,kernel,stride,nn.batch_size,1⟩,
    e.1 < convPadSize nn kernel stride d

/-- `ReLU_6_alpha_timer`, which does not look at its argument `x`. -/
def relu6AlphaTimer (res upper : Shares 3 (Lint L)) (size ring_size layer : Nat) (net : Net 3 G) :
    Shares 3 (Lint L) × Net 3 G :=
  A.fixedRssGTLTTime res res upper size ring_size layer net

theorem colSize_of_dvd {size stride : Nat} (ksize : Nat) (hs : 0 < stride) (h : stride ∣ size) :
    colSize size ksize stride 1 = (size/stride : Nat) := by
  obtain ⟨q,rfl⟩ := h
  have hround : (stride*q + stride - 1)/stride = q := by
    rw [Nat.add_sub_assoc hs,Nat.mul_add_div hs,Nat.div_eq_of_lt (by omega),Nat.add_zero]
  rw [colSize,if_neg Nat.one_ne_zero,hround,Nat.mul_div_cancel_left _ hs]

theorem patchesFit_of_dvd {kernel stride : Nat} {d : Shape} (hs : 0 < stride) (h : stride ∣ d.n) :
    PatchesFit nn kernel stride d := by
  intro e he
  rw [PatchSizes.patchEntries_eq,List.mem_map] at he
  obtain ⟨t,ht,rfl⟩ := he
  have hsize : nn.batch_size*PatchSizes.outBatchSize
      ⟨d.in_channels,d.n,d.n,kernel,stride,nn.batch_size,1⟩ = convPadSize nn kernel stride d := by
    simp only [PatchSizes.outBatchSize,PatchSizes.colsWide,PatchSizes.colsHigh,
      colSize_of_dvd kernel hs h,← Int.natCast_mul,Int.toNat_natCast,convPadSize]
    ring
  rw [← hsize]
  exact List.mem_range.mp ht

section Layers
variable [Generator G]

/-- The zero point of the output goes to the array of the next layer. -/
def rssConv2dFirst (kernel out_channels stride : Nat) (st : Inference L G) : Inference L G :=
  let ⟨n₀,in_channels,layer_id⟩ := st.shape
  let n := n₀/stride
  let pad_size := in_channels*kernel*kernel*n*n*nn.batch_size
  let x_padded : Shares 3 (Lint L) := fun p => extractPatch 2 (fun _ _ => 0) (nn.input_x p)
    in_channels n₀ n₀ kernel stride nn.batch_size 1
  let x_padded := fun p => subZp 2 (x_padded p) (x_padded p) (nn.input_zp p) pad_size 1 layer_id
  let W := fun p => subZp 2 (st.W layer_id p) (st.W layer_id p) (nn.weights_zp p)
    (kernel*kernel*in_channels*out_channels) 1 layer_id
  let (res,net) := rssPwMatrixmul (st.x layer_id) x_padded W n n in_channels kernel out_channels
    nn.ring_size nn.batch_size st.net
  let res := fun p => pwAddBiases 2 (res p) (res p) (nn.biases layer_id p) n n out_channels
    nn.batch_size
  let next := fun p => addZp 2 (st.x (layer_id+1) p) (st.x (layer_id+1) p) (nn.output_zp p)
    (n*n*out_channels) nn.batch_size layer_id
  let size := out_channels*n*n*nn.batch_size
  let (res,net) := relu6AlphaTimer A res nn.relu_bounds size nn.ring_size layer_id net
  let (res,net) := A.rssTruncPrivTime res res nn.trunc_vals nn.public_M layer_id size nn.ring_size
    net
  { st with
    x := Function.update (Function.update st.x (layer_id+1) next) layer_id res
    W := Function.update st.W layer_id W
    shape := ⟨n,out_channels,layer_id+1⟩
    net := net }

/-- The first half of `Rss_dw_pw_conv2d`, up to the increment of `layer_id`. -/
def rssDwConv2d (stride : Nat) (st : Inference L G) : Inference L G :=
  let ⟨n₀,in_channels,layer_id⟩ := st.shape
  let pad_size := (n₀ + 2)*(n₀ + 2)*in_channels*nn.batch_size
  let x_padded : Shares 3 (Lint L) := fun p => padOriginal 2 (fun _ _ => 0) (st.x (layer_id-1) p)
    in_channels n₀ n₀ nn.batch_size
  let x_padded := fun p => subZp 2 (x_padded p) (x_padded p) (nn.input_zp p)
    (pad_size/nn.batch_size) nn.batch_size layer_id
  let W := fun p => subZp 2 (st.W layer_id p) (st.W layer_id p) (nn.weights_zp p)
    (3*3*in_channels) 1 layer_id
  let (res,net) := rssDwMatrixmul (st.x layer_id) x_padded W n₀ n₀ in_channels 3 nn.ring_size
    nn.batch_size stride st.net
  let n := n₀/stride
  let res := fun p => pwAddBiases 2 (res p) (res p) (nn.biases layer_id p) n n in_channels
    nn.batch_size
  let size := in_channels*n*n*nn.batch_size
  let (res,net) := relu6AlphaTimer A res nn.relu_bounds size nn.ring_size layer_id net
  let (res,net) := A.rssTruncPrivTime res res nn.trunc_vals nn.public_M layer_id size nn.ring_size
    net
  { st with
    x := Function.update st.x layer_id res
    W := Function.update st.W layer_id W
    shape := ⟨n,in_channels,layer_id+1⟩
    net := net }

/-- The second half of `Rss_dw_pw_conv2d`. -/
def rssPwConv2d (out_channels : Nat) (st : Inference L G) : Inference L G :=
  let ⟨n,in_channels,layer_id⟩ := st.shape
  let x_padded : Shares 3 (Lint L) := fun p => extractPatch 2 (fun _ _ => 0)
    (st.x (layer_id-1) p) in_channels n n 1 1 nn.batch_size 1
  let x_padded := fun p => subZp 2 (x_padded p) (x_padded p) (nn.input_zp p) (in_channels*n*n)
    nn.batch_size layer_id
  let W := fun p => subZp 2 (st.W layer_id p) (st.W layer_id p) (nn.weights_zp p)
    (1*1*in_channels*out_channels) 1 layer_id
  let (res,net) := rssPwMatrixmul (st.x layer_id) x_padded W n n in_channels 1 out_channels
    nn.ring_size nn.batch_size st.net
  let res := fun p => pwAddBiases 2 (res p) (res p) (nn.biases layer_id p) n n out_channels
    nn.batch_size
  let size := out_channels*n*n*nn.batch_size
  let (res,net) := relu6AlphaTimer A res nn.relu_bounds size nn.ring_size layer_id net
  let (res,net) := A.rssTruncPrivTime res res nn.trunc_vals nn.public_M layer_id size nn.ring_size
    net
  { st with
    x := Function.update st.x layer_id res
    W := Function.update st.W layer_id W
    shape := ⟨n,out_channels,layer_id+1⟩
    net := net }

def rssDwPwConv2d (out_channels stride : Nat) (st : Inference L G) : Inference L G :=
  rssPwConv2d A nn out_channels (rssDwConv2d A nn stride st)

def rssConv2dFinalLayer (kernel out_channels stride : Nat) (st : Inference L G) :
    Inference L G :=
  let ⟨n₀,in_channels,layer_id⟩ := st.shape
  let n := n₀/stride
  let pad_size := in_channels*kernel*kernel*n*n*nn.batch_size
  let x_padded : Shares 3 (Lint L) := fun p => extractPatch 2 (fun _ _ => 0)
    (st.x (layer_id-1) p) in_channels n₀ n₀ kernel stride nn.batch_size 1
  let x_padded := fun p => subZp 2 (x_padded p) (x_padded p) (nn.input_zp p) pad_size 1 layer_id
  let W := fun p => subZp 2 (st.W layer_id p) (st.W layer_id p) (nn.weights_zp p)
    (kernel*kernel*in_channels*out_channels) 1 layer_id
  let (res,net) := rssPwMatrixmul st.output_x x_padded W n n in_channels kernel out_channels
    nn.ring_size nn.batch_size st.net
  let res := fun p => pwAddBiases 2 (res p) (res p) (nn.biases layer_id p) n n out_channels
    nn.batch_size
  let res := fun p => addZp 2 (res p) (res p) (nn.output_zp p) (n*n*out_channels) nn.batch_size
    layer_id
  let size := out_channels*n*n*nn.batch_size
  let (res,net) := relu6AlphaTimer A res nn.relu_bounds size nn.ring_size layer_id net
  let (res,net) := A.rssTruncPrivTime res res nn.trunc_vals nn.public_M layer_id size nn.ring_size
    net
  { st with
    output_x := res
    W := Function.update st.W layer_id W
    shape := ⟨n,out_channels,layer_id+1⟩
    net := net }

end Layers

/-- `Rss_avg_pool_trunc` as the iteration calls it; the average is left to the truncation. -/
def rssAvgPoolTrunc (st : Inference L G) : Inference L G :=
  let ⟨n,in_channels,layer_id⟩ := st.shape
  let res : Shares 3 (Lint L) := fun p => avgPool 2 (st.x layer_id p) (st.x (layer_id-1) p)
    in_channels n nn.batch_size
  let (res,net) := A.rssTruncPrTime res res (Nat.log2 (n*n)) (in_channels*nn.batch_size)
    nn.ring_size st.net
  { st with
    x := Function.update st.x layer_id res
    shape := ⟨n/n,in_channels,layer_id⟩
    net := net }

end RssRing
