import RssRing.ProtocolsBasic.MatProduct
import RssRing.ProtocolsMl.NeuralOps
set_option autoImplicit false

namespace RssRing
open Replicated

variable {L : Nat}

structure ConvSizes where
  channels : Nat
  height : Nat
  width : Nat
  ksize : Nat
  stride : Nat
  batch_size : Nat

namespace ConvSizes
variable (d : ConvSizes)

/-- `pad` is 0; the difference is one of `uint` values. -/
def heightCol : Nat := uint ((d.height : Int) - d.ksize)/d.stride + 1
def widthCol : Nat := uint ((d.width : Int) - d.ksize)/d.stride + 1

def channelsCol : Nat := d.channels*d.ksize*d.ksize

/-- The writes of `im2col`. A place outside the image would be written without the offset of
the image. -/
def im2colEntries : List (Nat × Option Nat) :=
  let in_batch_size := d.channels*d.height*d.width
  let out_batch_size := d.channelsCol*d.heightCol*d.widthCol
  (List.range d.batch_size).flatMap fun i => (List.range d.channelsCol).flatMap fun c =>
    let w_offset := c % d.ksize
    let h_offset := c/d.ksize % d.ksize
    let c_im := c/d.ksize/d.ksize
    (List.range d.heightCol).flatMap fun h => (List.range d.widthCol).map fun w =>
      let im_row := h_offset + h*d.stride
      let im_col := w_offset + w*d.stride
      let col_index := (c*d.heightCol + h)*d.widthCol + w
      if d.height ≤ im_row ∨ d.width ≤ im_col then (col_index,none)
      else (col_index + i*out_batch_size,
        some (i*in_batch_size + im_col + d.width*(im_row + d.height*c_im)))

def im2col (numShares : Nat) (res a : PartyShares L) : PartyShares L :=
  copyEntries numShares d.im2colEntries res a

structure Valid : Prop where
  stride : 0 < d.stride
  height : d.ksize ≤ d.height ∧ d.height < 4294967296
  width : d.ksize ≤ d.width ∧ d.width < 4294967296

def inputCell (b c r q : Nat) : Nat := b*(d.channels*d.height*d.width) + (c*d.height + r)*d.width + q

def columnCell (b t z : Nat) : Nat :=
  b*(d.channelsCol*(d.heightCol*d.widthCol)) + t*(d.heightCol*d.widthCol) + z

/-- Row `t` stands for a place of the kernel in a channel, column `z` for a position. -/
def columnSource (b t z : Nat) : Nat :=
  d.inputCell b (t/d.ksize/d.ksize) (z/d.widthCol*d.stride + t/d.ksize%d.ksize)
    (z%d.widthCol*d.stride + t%d.ksize)

variable {d}

theorem colSize_valid {size ksize stride y i : Nat} (hs : 0 < stride) (hk : ksize ≤ size)
    (hsize : size < 4294967296) (hy : y < uint ((size : Int) - ksize)/stride + 1) (hi : i < ksize) :
    y*stride + i < size := by
  have hdiff : ((size : Int) - ksize) = (size - ksize : Nat) := by omega
  rw [hdiff,uint_of_lt (by omega)] at hy
  have hmul := (Nat.le_div_iff_mul_le hs).mp (show y ≤ (size - ksize)/stride by omega)
  omega

theorem im2colEntries_eq (hd : d.Valid) : d.im2colEntries =
    (List.range (d.batch_size*(d.channelsCol*(d.heightCol*d.widthCol)))).map fun x =>
      let place := x%(d.channelsCol*(d.heightCol*d.widthCol))
      (x,some (d.columnSource (x/(d.channelsCol*(d.heightCol*d.widthCol)))
        (place/(d.heightCol*d.widthCol)) (place%(d.heightCol*d.widthCol)))) := by
  have hcell : ∀ i c h w, i < d.batch_size → c < d.channelsCol → h < d.heightCol → w < d.widthCol →
      (if d.height ≤ c/d.ksize%d.ksize + h*d.stride ∨ d.width ≤ c%d.ksize + w*d.stride then
        ((c*d.heightCol + h)*d.widthCol + w,none)
      else ((c*d.heightCol + h)*d.widthCol + w + i*(d.channelsCol*d.heightCol*d.widthCol),
        some (i*(d.channels*d.height*d.width) + (c%d.ksize + w*d.stride) +
          d.width*(c/d.ksize%d.ksize + h*d.stride + d.height*(c/d.ksize/d.ksize))))) =
      (d.columnCell i c (h*d.widthCol + w),some (d.columnSource i c (h*d.widthCol + w))) := by
    intro i c h w hi hc hh hw
    have hk : 0 < d.ksize := Nat.pos_of_ne_zero fun h0 => by simp [channelsCol,h0] at hc
    have hrow := colSize_valid hd.stride hd.height.1 hd.height.2 hh (Nat.mod_lt (c/d.ksize) hk)
    have hcol := colSize_valid hd.stride hd.width.1 hd.width.2 hw (Nat.mod_lt c hk)
    rw [if_neg (by omega),columnSource,index_div hw,index_mod hw,columnCell,inputCell]
    congr 1
    · ring
    · congr 1
      ring
  have hloops : d.im2colEntries = (List.range d.batch_size).flatMap fun i =>
      (List.range d.channelsCol).flatMap fun c => (List.range d.heightCol).flatMap fun h =>
        (List.range d.widthCol).map fun w => (d.columnCell i c (h*d.widthCol + w),
          some (d.columnSource i c (h*d.widthCol + w))) :=
    List.flatMap_congr fun i hi => List.flatMap_congr fun c hc => List.flatMap_congr fun h hh =>
      List.map_congr_left fun w hw => hcell i c h w (List.mem_range.mp hi) (List.mem_range.mp hc)
        (List.mem_range.mp hh) (List.mem_range.mp hw)
  rw [hloops]
  simp only [Loops.flatMap_range,Nat.div_add_mod']
  refine List.map_congr_left fun x _ => ?_
  rw [columnCell,Nat.add_assoc,Nat.div_add_mod',Nat.div_add_mod']

theorem im2col_cell (hd : d.Valid) {numShares s b t z : Nat} (hs : s < numShares)
    (hb : b < d.batch_size) (ht : t < d.channelsCol) (hz : z < d.heightCol*d.widthCol)
    (res a : PartyShares L) :
    d.im2col numShares res a s (d.columnCell b t z) = a s (d.columnSource b t z) := by
  have hplace := index_lt ht hz
  have hcell : d.columnCell b t z < d.batch_size*(d.channelsCol*(d.heightCol*d.widthCol)) := by
    rw [columnCell,Nat.add_assoc]
    exact index_lt hb hplace
  rw [im2col,im2colEntries_eq hd]
  refine (copyEntries_range hs).trans ?_
  rw [if_pos hcell,columnCell,Nat.add_assoc,index_div hplace,index_mod hplace,index_div hz,
    index_mod hz]
  rfl

variable {k : Nat}

def conv (d : ConvSizes) (X : Nat → Nat → Nat → BitVec k) (V : Nat → Nat → Nat → BitVec k)
    (y x : Nat) : BitVec k :=
  ∑ c ∈ Finset.range d.channels, ∑ ky ∈ Finset.range d.ksize, ∑ kx ∈ Finset.range d.ksize,
    V c ky kx*X c (y*d.stride + ky) (x*d.stride + kx)

theorem conv_eq_sum (X : Nat → Nat → Nat → BitVec k) (V : Nat → Nat → Nat → BitVec k) (y x : Nat) :
    ∑ t ∈ Finset.range d.channelsCol, V (t/d.ksize/d.ksize) (t/d.ksize%d.ksize) (t%d.ksize)*
      X (t/d.ksize/d.ksize) (y*d.stride + t/d.ksize%d.ksize) (x*d.stride + t%d.ksize) =
      d.conv X V y x := by
  rw [channelsCol,conv]
  refine (Loops.sum_range_mul (d.channels*d.ksize) d.ksize fun u kx =>
    V (u/d.ksize) (u%d.ksize) kx*X (u/d.ksize) (y*d.stride + u%d.ksize) (x*d.stride + kx)).trans ?_
  exact Loops.sum_range_mul d.channels d.ksize fun c ky => ∑ kx ∈ Finset.range d.ksize,
    V c ky kx*X c (y*d.stride + ky) (x*d.stride + kx)

section Product
variable {G : Type} [Generator G] {net : Net 3 G}

/-- `im2col` and `Rss_MatMultArray_batch` as the layers call them: the weights are one matrix
for the whole batch. -/
def im2colMatMult (d : ConvSizes) (filters ring_size : Nat) (c res x W : Shares 3 (Lint L)) (net : Net 3 G) :
    Shares 3 (Lint L) × Net 3 G :=
  rssMatMultArrayBatch c W (fun p => d.im2col 2 (res p) (x p)) filters d.channelsCol
    (d.heightCol*d.widthCol) ring_size d.batch_size 0 1 net

def filterCell (d : ConvSizes) (f c ky kx : Nat) : Nat := f*d.channelsCol + ((c*d.ksize + ky)*d.ksize + kx)
def outputCell (d : ConvSizes) (filters b f y x : Nat) : Nat :=
  b*filters*(d.heightCol*d.widthCol) + f*(d.heightCol*d.widthCol) + (y*d.widthCol + x)

def ImageSharing (d : ConvSizes) (k : Nat) (x : Shares 3 (Lint L))
    (X : Nat → Nat → Nat → Nat → BitVec k) : Prop :=
  ∀ b c r q, b < d.batch_size → c < d.channels → r < d.height → q < d.width →
    ArithSharing shares3pc k x (d.inputCell b c r q) (X b c r q)

def FilterSharing (d : ConvSizes) (filters k : Nat) (W : Shares 3 (Lint L))
    (V : Nat → Nat → Nat → Nat → BitVec k) : Prop :=
  ∀ f c ky kx, f < filters → c < d.channels → ky < d.ksize → kx < d.ksize →
    ArithSharing shares3pc k W (d.filterCell f c ky kx) (V f c ky kx)

def filterMatrix (d : ConvSizes) (filters : Nat) (V : Nat → Nat → Nat → Nat → BitVec k) :
    Matrix (Fin filters) (Fin d.channelsCol) (BitVec k) :=
  Matrix.of fun f t => V f (t/d.ksize/d.ksize) (t/d.ksize%d.ksize) (t%d.ksize)

def columnMatrix (d : ConvSizes) (X : Nat → Nat → Nat → BitVec k) :
    Matrix (Fin d.channelsCol) (Fin (d.heightCol*d.widthCol)) (BitVec k) :=
  Matrix.of fun t z => X (t/d.ksize/d.ksize) (z/d.widthCol*d.stride + t/d.ksize%d.ksize)
    (z%d.widthCol*d.stride + t%d.ksize)

theorem channelsCol_place {t : Nat} (ht : t < d.channelsCol) :
    0 < d.ksize ∧ t/d.ksize/d.ksize < d.channels ∧
      (t/d.ksize/d.ksize*d.ksize + t/d.ksize%d.ksize)*d.ksize + t%d.ksize = t := by
  have hk : 0 < d.ksize := Nat.pos_of_ne_zero fun h0 => by simp [channelsCol,h0] at ht
  refine ⟨hk,?_,by rw [Nat.div_add_mod',Nat.div_add_mod']⟩
  exact (Nat.div_lt_iff_lt_mul hk).mpr ((Nat.div_lt_iff_lt_mul hk).mpr ht)

theorem FilterSharing.rows {filters : Nat} {W : Shares 3 (Lint L)}
    {V : Nat → Nat → Nat → Nat → BitVec k} (hV : d.FilterSharing filters k W V) :
    MatSharing shares3pc k W 0 (d.filterMatrix filters V) := by
  intro f t
  obtain ⟨hk,hc,hplace⟩ := channelsCol_place t.isLt
  have h := hV f (t/d.ksize/d.ksize) (t/d.ksize%d.ksize) (t%d.ksize) f.isLt hc
    (Nat.mod_lt _ hk) (Nat.mod_lt _ hk)
  rw [filterCell,hplace] at h
  rwa [Nat.zero_add]

theorem ImageSharing.columns (hd : d.Valid) {x : Shares 3 (Lint L)}
    {X : Nat → Nat → Nat → Nat → BitVec k} (hx : d.ImageSharing k x X) (res : Shares 3 (Lint L))
    {b : Nat} (hb : b < d.batch_size) :
    MatSharing shares3pc k (fun p => d.im2col 2 (res p) (x p))
      (b*(d.channelsCol*(d.heightCol*d.widthCol))) (d.columnMatrix (X b)) := by
  intro t z
  obtain ⟨hk,hc,-⟩ := channelsCol_place t.isLt
  have hw : 0 < d.widthCol := Nat.succ_pos _
  have hrow := colSize_valid hd.stride hd.height.1 hd.height.2
    ((Nat.div_lt_iff_lt_mul hw).mpr z.isLt) (Nat.mod_lt (t/d.ksize) hk)
  have hcol := colSize_valid hd.stride hd.width.1 hd.width.2 (Nat.mod_lt z hw) (Nat.mod_lt t hk)
  refine (hx b _ _ _ hb hc hrow hcol).congr fun p s hs => ?_
  exact congrArg (BitVec.setWidth k) (im2col_cell hd hs hb t.isLt z.isLt (res p) (x p))

/-- The unfolded images times the weights are the convolutions of all images with all
filters. -/
theorem im2colMatMult_isSharing (hk : k ≤ 8*L) (hnet : shares3pc.Consistent net)
    (hd : d.Valid) (filters : Nat) (c res : Shares 3 (Lint L)) {x W : Shares 3 (Lint L)}
    {X V : Nat → Nat → Nat → Nat → BitVec k} (hx : d.ImageSharing k x X)
    (hV : d.FilterSharing filters k W V) {b f y z : Nat} (hb : b < d.batch_size) (hf : f < filters)
    (hy : y < d.heightCol) (hz : z < d.widthCol) :
    ArithSharing shares3pc k (d.im2colMatMult filters k c res x W net).1
      (d.outputCell filters b f y z) (d.conv (X b) (V f) y z) := by
  have hplace := index_lt hy hz
  have h : MatSharing shares3pc k (d.im2colMatMult filters k c res x W net).1
      (b*filters*(d.heightCol*d.widthCol)) (d.filterMatrix filters V*d.columnMatrix (X (1*b))) :=
    rssMatMultArrayBatch_isSharing hnet hk (A := fun _ => d.filterMatrix filters V)
      (B := fun l => d.columnMatrix (X l)) c
      (fun l _ => by simpa only [Nat.zero_mul] using hV.rows)
      (fun l hl => by simpa only [Nat.one_mul,Nat.mul_assoc] using hx.columns hd res hl) hb
  have h := h ⟨f,hf⟩ ⟨y*d.widthCol + z,hplace⟩
  have hentry : (d.filterMatrix filters V*d.columnMatrix (X (1*b))) ⟨f,hf⟩
      ⟨y*d.widthCol + z,hplace⟩ = d.conv (X b) (V f) y z := by
    rw [Matrix.mul_apply,← conv_eq_sum,Finset.sum_range,Nat.one_mul]
    simp only [filterMatrix,columnMatrix,Matrix.of_apply,index_div hz,index_mod hz]
  rwa [hentry] at h

end Product

theorem im2colMatMult_isSharing_square :
    let net : Net 3 Tape := fun _ _ => ⟨fun i => BitVec.ofNat 8 (3*i+1)⟩
    let d : ConvSizes := ⟨1,2,2,2,1,1⟩
    ArithSharing (L := 4) shares3pc 8 (d.im2colMatMult 2 8 (fun _ _ _ => 7) (fun _ _ _ => 9)
      (fun _ _ _ => 1) (fun _ _ _ => 2) net).1 (d.outputCell 2 0 1 0 0) 72 := by
  intro net d
  have hnet : shares3pc.Consistent net := fun _ _ _ _ _ _ _ => rfl
  have hd : d.Valid := ⟨by decide,by decide,by decide⟩
  have h := im2colMatMult_isSharing (L := 4) (k := 8) (d := d) (by decide) hnet hd 2 (fun _ _ _ => 7)
    (fun _ _ _ => 9) (x := fun _ _ _ => 1) (W := fun _ _ _ => 2) (X := fun _ _ _ _ => 3)
    (V := fun _ _ _ _ => 6) (fun _ _ _ _ _ _ _ _ => ⟨fun _ => 1,fun _ _ _ => rfl,by simp⟩)
    (fun _ _ _ _ _ _ _ _ => ⟨fun _ => 2,fun _ _ _ => rfl,by simp⟩) (b := 0) (f := 1) (y := 0)
    (z := 0) (by decide) (by decide) (by decide) (by decide)
  have hsum : d.conv (k := 8) (fun _ _ _ => 3) (fun _ _ _ => 6) 0 0 = 72 := by decide
  rwa [hsum] at h

end ConvSizes
end RssRing
