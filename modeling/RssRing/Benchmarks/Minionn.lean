import RssRing.ProtocolsBasic.Reveal
import RssRing.ProtocolsComposite.OldConvert
import RssRing.ProtocolsComposite.RandBitMSB
import RssRing.ProtocolsMl.Layers
import RssRing.ProtocolsMl.SvmOps
import RssRing.Utilities.BatchInput
set_option autoImplicit false

namespace RssRing
open Replicated

variable {G : Type} [Generator G]

/-- What the arrays hold that a call creates and does not clear. It may be something else at
each call; the state of the streams tells the calls apart. -/
structure Heap (L : Nat) (G : Type) where
  msb : Net 3 G → Uncleared 3 L
  array : Net 3 G → Nat → Shares 3 (Lint L)
  candidates : Net 3 G → Nat → CallArrays 3 L

namespace Heap
variable {L k k' : Nat} (h : Heap L G)

/-- `new_Rss_MSB` and `Rss_Mult`. -/
def newComparisons : Comparisons 3 L G where
  msb a size ring_size net := newRssMsb (h.msb net) a size ring_size net
  mult a b size ring_size net := rssMult (h.array net 0) a b size ring_size net

/-- `Rss_MSB` and `Rss_Mult`. -/
def comparisons : Comparisons 3 L G where
  msb a size ring_size net := rssMsb (h.msb net) a size ring_size net
  mult a b size ring_size net := rssMult (h.array net 0) a b size ring_size net

def newConvert (a : Shares 3 (Lint L)) (size ring_size ring_size_prime : Nat) (net : Net 3 G) :
    Shares 3 (Lint L) × Net 3 G :=
  newRssConvert (h.array net 0) (h.array net 1) (h.array net 2) a size ring_size ring_size_prime net

def convert (a : Shares 3 (Lint L)) (size ring_size ring_size_prime : Nat) (net : Net 3 G) :
    Shares 3 (Lint L) × Net 3 G :=
  rssConvert (h.array net 0) (h.array net 1) (h.array net 2) (h.array net 3) a a size ring_size
    ring_size_prime net

theorem newComparisons_correct (hk : 2 ≤ k) (hkL : k + 2 ≤ 8*L) :
    h.newComparisons.Correct shares3pc k where
  msb _ _ _ _ _ hnet hi ha := newRssMsb_element hk hkL hi hnet (h.msb _) ha
  msbNet a size _ hnet := newRssMsb_net hk hkL hnet (h.msb _) a size
  mult a b _ _ _ _ _ hnet _ ha hb := rssMult_isSharing (by omega) hnet (h.array _ 0) a b ha hb
  multNet a b size _ hnet := mult3pc_net hnet (arithKind L k) (product3pc _) size (h.array _ 0) a b

theorem comparisons_multiplies (hk : 0 < k) (hkL : k + 2 ≤ 8*L) :
    h.comparisons.Multiplies shares3pc k where
  keepsNet :=
    { msb := fun a size _ hnet => rssMsb_net hk hkL hnet (h.msb _) a size
      mult := fun a b size _ hnet => mult3pc_net hnet (arithKind L k) (product3pc _) size (h.array _ 0) a b }
  mult a b _ _ _ _ _ hnet _ ha hb := rssMult_isSharing (by omega) hnet (h.array _ 0) a b ha hb

/-- The streams at a comparison give the top bit of every difference as its random bit and a mask
that makes the difference zero below it. -/
def Drawn (k batch_size : Nat) (x : Comparisons.Compared 3 L G) : Prop :=
  let total := (x.size + 1)/2*batch_size
  ∀ j i, j < batch_size → i < x.size/2 → ∀ α : BitVec k,
    ArithSharing shares3pc k x.diff (j*((x.size + 1)/2) + i) α →
    drawnBit x.net k (total*(k+1)) (total*k + (j*((x.size + 1)/2) + i)) = α.getLsbD (k-1) ∧
      lowPart (α + drawnMask x.net k (total*(k+1)) (j*((x.size + 1)/2) + i)) = 0

/-- In these runs, and no others, `Rss_MSB` decides all matches rightly. -/
theorem drawn_iff (hk : 2 ≤ k) (hkL : k + 2 ≤ 8*L) {batch_size : Nat}
    {x : Comparisons.Compared 3 L G} (hnet : shares3pc.Consistent x.net) :
    Drawn k batch_size x ↔
      ∀ j, j < batch_size → h.comparisons.RightAt shares3pc k batch_size j x := by
  have hplace := fun j i (hj : j < batch_size) (hi : i < x.size/2) α hα =>
    rssMsb_element_iff (a := x.diff) (α := α) hk hkL (match_lt hj hi) hnet (h.msb x.net) hα
  constructor
  · exact fun hdrawn j hj i hi α hα => (hplace j i hj hi α hα).mpr (hdrawn j i hj hi α hα)
  · exact fun hright j i hj hi α hα => (hplace j i hj hi α hα).mp (hright j hj i hi α hα)

variable {net : Net 3 G} {a : Shares 3 (Lint L)} {size i : Nat}

theorem newConvert_isSharing (hk : k ≤ 8*L) (hk' : 0 < k') (hkL' : k' + 2 ≤ 8*L)
    (hnet : shares3pc.Consistent net) (hi : i < size) {α : BitVec k}
    (ha : ArithSharing shares3pc k a i α) :
    ArithSharing shares3pc k' (h.newConvert a size k k' net).1 i (α.setWidth k') :=
  RssRing.newConvert_isSharing (suite3pc_marks _) (replicated3pc_replicates _)
    (pubCorrect3pc _ hkL') (opens3pc _ hk) (edaBit_correct _ hk) hk hk' hkL' hnet _ _ a size hi ha

theorem newConvert_net (hk : k ≤ 8*L) (hk' : 0 < k') (hkL' : k' + 2 ≤ 8*L)
    (hnet : shares3pc.Consistent net) (a : Shares 3 (Lint L)) (size : Nat) :
    shares3pc.Consistent (h.newConvert a size k k' net).2 :=
  RssRing.newConvert_net (suite3pc_marks _) (replicated3pc_replicates _) (pubCorrect3pc _ hkL')
    (edaBit_correct _ hk) hk hk' hkL' hnet _ _ a size

theorem convert_isSharing (hkk : k ≤ k') (hk' : 0 < k') (hkL' : k' + 2 ≤ 8*L)
    (hnet : shares3pc.Consistent net) (hi : i < size) {α : BitVec k}
    (ha : ArithSharing shares3pc k a i α) :
    ArithSharing shares3pc k' (h.convert a size k k' net).1 i (α.setWidth k') :=
  RssRing.convert_isSharing (suite3pc_marks _) (a12_marks3pc _) (by decide)
    (replicated3pc_replicates _) (pubCorrect3pc _ hkL') (opens3pc _ (by omega)) hkk hk' hkL' hnet
    _ _ _ a a hi ha

theorem convert_net (hk : k ≤ 8*L) (hk' : 0 < k') (hkL' : k' + 2 ≤ 8*L)
    (hnet : shares3pc.Consistent net) (a : Shares 3 (Lint L)) (size : Nat) :
    shares3pc.Consistent (h.convert a size k k' net).2 :=
  RssRing.convert_net (suite3pc_marks _) (replicated3pc_replicates _) (pubCorrect3pc _ hkL') hk hk'
    hkL' hnet _ _ _ a a size

/-- A convolution layer whose result is converted in place, to a ring of ten bits more. -/
def convStage (d : ConvSizes) (filters ring_size : Nat) (old : ConvArrays L)
    (x W b : Shares 3 (Lint L)) (net : Net 3 G) : ConvArrays L × Net 3 G :=
  let layer := convLayer h.newComparisons d filters ring_size old x W b net
  let pooled := h.newConvert layer.1.pooled (filters*(d.heightCol/2*(d.widthCol/2))*d.batch_size)
    ring_size (ring_size+10) layer.2
  (⟨layer.1.columns,layer.1.maps,pooled.1⟩,pooled.2)

section
variable {d : ConvSizes} {filters : Nat} {x W b : Shares 3 (Lint L)}
  {X V : Nat → Layers.Image Int} {β : Nat → Int}

def stageImage (d : ConvSizes) (V : Nat → Layers.Image Int) (β : Nat → Int)
    (X : Layers.Image Int) : Layers.Image Int :=
  Layers.pool (Layers.relu (d.convolved V β X))

theorem convStage_net (d : ConvSizes) (filters : Nat) (hk : 2 ≤ k) (hkL : k + 12 ≤ 8*L)
    (hnet : shares3pc.Consistent net) (old : ConvArrays L) (x W b : Shares 3 (Lint L)) :
    shares3pc.Consistent (h.convStage d filters k old x W b net).2 :=
  h.newConvert_net (by omega) (by omega) (by omega)
    (ConvSizes.convLayer_net (h.newComparisons_correct hk (by omega)) hnet old x W b) _ _

theorem convStage_isSharing (hk : 2 ≤ k) (hkL : k + 12 ≤ 8*L) (hnet : shares3pc.Consistent net)
    (hd : d.Pooled) (old : ConvArrays L) (hin : d.LayerInput filters k x W b X V β) {l f i j : Nat}
    (hplace : (d.maps filters).Inside l f i j) :
    ArithSharing shares3pc (k+10) (h.convStage d filters k old x W b net).1.pooled
      ((d.maps filters).outputPlace l f i j) (BitVec.ofInt (k+10) (stageImage d V β (X l) f i j)) := by
  have hC := h.newComparisons_correct (G := G) hk (by omega)
  have hlayer := ConvSizes.convLayer_isSharing hC hk (by omega) hnet hd old hin hplace
  have hsize : (d.maps filters).outputPlace l f i j <
      filters*(d.heightCol/2*(d.widthCol/2))*d.batch_size := by
    have hlt := PoolSizes.outputPlace_lt hplace
    have hdim : (d.maps filters).imageDim*(d.maps filters).batch_size =
        filters*(d.heightCol/2*(d.widthCol/2))*d.batch_size := by
      rw [PoolSizes.imageDim,ConvSizes.maps]
      ring
    rwa [hdim] at hlt
  have hnet₁ : shares3pc.Consistent (convLayer h.newComparisons d filters k old x W b net).2 :=
    ConvSizes.convLayer_net hC hnet old x W b
  have hout : ArithSharing shares3pc (k+10) (h.convStage d filters k old x W b net).1.pooled
      ((d.maps filters).outputPlace l f i j)
      ((BitVec.ofInt k (stageImage d V β (X l) f i j)).setWidth (k+10)) :=
    h.newConvert_isSharing (by omega) (by omega) (by omega) hnet₁ hsize hlayer
  have hrange : 0 ≤ stageImage d V β (X l) f i j ∧ stageImage d V β (X l) f i j < 2^k := by
    refine Layers.pool_mem (P := fun v => 0 ≤ v ∧ v < 2^k) fun y z hy hz => ⟨le_max_right _ _,?_⟩
    have hrow : i < d.heightCol/2 := hplace.row
    have hcol : j < d.widthCol/2 := hplace.column
    have hfits := hin.fits l f y z hplace.image hplace.map (by omega) (by omega)
    have hpow : (2 : Int)^(k-1) ≤ 2^k := pow_le_pow_right₀ (by norm_num) (Nat.sub_le k 1)
    exact max_lt (hfits.2.trans_le hpow) (by positivity)
  rwa [Signed.setWidth_ofInt (k+10) hrange.1 hrange.2] at hout

end

end Heap

namespace Minionn

/-- The arrays of numbers that are read from files, of type `long long`. -/
structure Inputs where
  W1 : Nat → BitVec 64
  W2 : Nat → BitVec 64
  W3 : Nat → BitVec 64
  W4 : Nat → BitVec 64
  b1 : Nat → BitVec 64
  b2 : Nat → BitVec 64
  b3 : Nat → BitVec 64
  b4 : Nat → BitVec 64
  X : Nat → BitVec 64
  Y : Nat → BitVec 64

abbrev Shared := Shares 3 (Lint 8)

structure State (G : Type) where
  X : Shared
  X0 : Shared
  X1 : Shared
  X2 : Shared
  X3 : Shared
  X4 : Shared
  X5 : Shared
  X6 : Shared
  X7 : Shared
  correct : Fin 3 → Nat
  net : Net 3 G

def start (net : Net 3 G) : State G where
  X := fun _ _ _ => 0
  X0 := fun _ _ _ => 0
  X1 := fun _ _ _ => 0
  X2 := fun _ _ _ => 0
  X3 := fun _ _ _ => 0
  X4 := fun _ _ _ => 0
  X5 := fun _ _ _ => 0
  X6 := fun _ _ _ => 0
  X7 := fun _ _ _ => 0
  correct := fun _ => 0
  net := net

def sizes1 (batch_size : Nat) : ConvSizes := ⟨1,28,28,5,1,batch_size⟩
def sizes2 (batch_size : Nat) : ConvSizes := ⟨16,12,12,5,1,batch_size⟩

theorem sizes1_maps (batch_size : Nat) :
    (sizes1 batch_size).heightCol = 24 ∧ (sizes1 batch_size).widthCol = 24 := by
  have h : uint (28 - 5)/1 + 1 = 24 := by decide
  exact ⟨h,h⟩

theorem sizes2_maps (batch_size : Nat) :
    (sizes2 batch_size).heightCol = 8 ∧ (sizes2 batch_size).widthCol = 8 := by
  have h : uint (12 - 5)/1 + 1 = 8 := by decide
  exact ⟨h,h⟩

theorem maps1 (batch_size : Nat) : (sizes1 batch_size).maps 16 = ⟨16,24,24,batch_size⟩ := by
  obtain ⟨hheight,hwidth⟩ := sizes1_maps batch_size
  rw [ConvSizes.maps,hheight,hwidth]
  rfl

theorem maps2 (batch_size : Nat) : (sizes2 batch_size).maps 16 = ⟨16,8,8,batch_size⟩ := by
  obtain ⟨hheight,hwidth⟩ := sizes2_maps batch_size
  rw [ConvSizes.maps,hheight,hwidth]
  rfl

section Program
variable [AesNi] (inp : Inputs) (h : Heap 8 G) (batch_size : Nat)

def split (input : Nat → BitVec 64) (size ring_size : Nat) : Shared := fun p =>
  splitData .longLong p (fun _ _ => 0) input size ring_size

/-! The calls of a turn, one after another. -/

def conv1 (s : State G) : ConvArrays 8 × Net 3 G :=
  h.convStage (sizes1 batch_size) 16 20 ⟨s.X0,s.X1,s.X2⟩ s.X (split inp.W1 (16*25) 20)
    (split inp.b1 (1*16) 20) s.net

def conv2 (s : State G) : ConvArrays 8 × Net 3 G :=
  let last := conv1 inp h batch_size s
  h.convStage (sizes2 batch_size) 16 30 ⟨s.X3,s.X4,s.X5⟩ last.1.pooled (split inp.W2 (16*400) 30)
    (split inp.b2 (1*16) 30) last.2

def full1 (s : State G) : Shared × Net 3 G :=
  let last := conv2 inp h batch_size s
  denseLayer 100 256 40 batch_size s.X6 last.1.pooled (split inp.W3 (100*256) 40)
    (split inp.b3 (1*100) 40) last.2

def active (s : State G) : Shared × Net 3 G :=
  let last := full1 inp h batch_size s
  let X6 := h.newComparisons.reLU (fun _ => last.1) 0 0 (100*1*batch_size) 40 last.2
  h.convert (X6.1 0) (100*1*batch_size) 40 49 X6.2

def full2 (s : State G) : Shared × Net 3 G :=
  let last := active inp h batch_size s
  denseLayer 10 100 49 batch_size s.X7 last.1 (split inp.W4 (10*100) 49) (split inp.b4 (1*10) 49)
    last.2

def forward (s : State G) : State G :=
  let conv1 := conv1 inp h batch_size s
  let conv2 := conv2 inp h batch_size s
  let full2 := full2 inp h batch_size s
  { s with
    X0 := conv1.1.columns, X1 := conv1.1.maps, X2 := conv1.1.pooled, X3 := conv2.1.columns,
    X4 := conv2.1.maps, X5 := conv2.1.pooled, X6 := (active inp h batch_size s).1, X7 := full2.1,
    net := full2.2 }

def load (k : Nat) (s : State G) : State G :=
  { s with X := fun p => splitX p (s.X p) inp.X 784 batch_size k 20 }

/-- `arg_max` of the results. -/
def best (s : State G) : Comparisons.ArgMax 3 8 G :=
  h.comparisons.argMax (h.candidates s.net) s.X1 s.X0 s.X7 49 10 batch_size s.net

def turn (k : Nat) (s : State G) : State G :=
  let s := forward inp h batch_size (load inp batch_size k s)
  let best := best h batch_size s
  let res := rssOpen best.res_index 49
  { s with
    X0 := best.res_index, X1 := best.res, net := best.net,
    correct := fun p => s.correct p +
      (List.range batch_size).countP fun i => res p i + 1 == inp.Y (k*batch_size + i) }

def run (turns : Nat) (net : Net 3 G) : State G :=
  (List.range turns).foldl (fun s k => turn inp h batch_size k s) (start net)

def minionn (size : Nat) (net : Net 3 G) : State G := run inp h batch_size (size/batch_size) net

def compared (k : Nat) (s : State G) : List (Comparisons.Compared 3 8 G) :=
  let s := forward inp h batch_size (load inp batch_size k s)
  h.comparisons.argMaxCompared 2 a12 (h.candidates s.net) s.X7 49 10 batch_size s.net

end Program

namespace Inputs
variable (inp : Inputs)

def filterWeights (channels : Nat) (input : Nat → BitVec 64) : Nat → Layers.Image Int :=
  fun f c ky kx => (input (f*(channels*5*5) + ((c*5 + ky)*5 + kx))).toInt

def numbers (input : Nat → BitVec 64) (t : Nat) : Int := (input t).toInt

def matrix (n : Nat) (input : Nat → BitVec 64) (i t : Nat) : Int := (input (i*n + t)).toInt

/-! The network, on numbers without bounds. -/

def sums1 (X : Layers.Image Int) : Layers.Image Int :=
  Layers.convolution 1 5 1 (filterWeights 1 inp.W1) (numbers inp.b1) X

def hidden1 (X : Layers.Image Int) : Layers.Image Int := Layers.pool (Layers.relu (inp.sums1 X))

def sums2 (X : Layers.Image Int) : Layers.Image Int :=
  Layers.convolution 16 5 1 (filterWeights 16 inp.W2) (numbers inp.b2) (inp.hidden1 X)

def hidden2 (X : Layers.Image Int) : Layers.Image Int := Layers.pool (Layers.relu (inp.sums2 X))

def sums3 (X : Layers.Image Int) : Nat → Int :=
  Layers.dense 256 (matrix 256 inp.W3) (numbers inp.b3) fun t =>
    inp.hidden2 X (t/16) (t/4%4) (t%4)

def logits (X : Layers.Image Int) : Nat → Int :=
  Layers.dense 100 (matrix 100 inp.W4) (numbers inp.b4) fun t => max (inp.sums3 X t) 0

def label (X : Layers.Image Int) : Nat := Tournament.winner (inp.logits X) 10 id

structure NoOverflow (X : Layers.Image Int) : Prop where
  sums1 : ∀ f y x, f < 16 → y < 24 → x < 24 → Fits 20 (inp.sums1 X f y x)
  sums2 : ∀ f y x, f < 16 → y < 8 → x < 8 → Fits 30 (inp.sums2 X f y x)
  sums3 : ∀ i, i < 100 → Fits 40 (inp.sums3 X i)

/-- The logits can be told apart by the sign of their differences. -/
structure Comparable (X : Layers.Image Int) : Prop where
  fits : ∀ i, i < 10 → Fits 49 (inp.logits X i)
  apart : ∀ i j, i < 10 → j < 10 → |inp.logits X i - inp.logits X j| < 2^48

def image (e : Nat) : Layers.Image Int := fun _ y x => (inp.X (e*784 + (y*28 + x))).toInt

/-- What entry `l` of the batch is in turn `k`: `splitX` copies one image. -/
def shown (batch_size k l : Nat) : Layers.Image Int :=
  if l = 0 then inp.image (k*batch_size) else fun _ _ _ => 0

end Inputs

section Shared
variable [AesNi] {input : Nat → BitVec 64} {size k i : Nat}

theorem split_isSharing (hk : k < 64) (hi : i < size) :
    ArithSharing shares3pc k (split input size k) i (BitVec.ofInt k (Inputs.numbers input i)) :=
  copyShares_copied (c := Overload.longLong.read 8) hk input rfl _ hi hi

theorem matrix_isSharing {m n t : Nat} (hk : k < 64) (hi : i < m) (ht : t < n) :
    ArithSharing shares3pc k (split input (m*n) k) (i*n + t)
      (BitVec.ofInt k (Inputs.matrix n input i t)) :=
  split_isSharing hk (index_lt hi ht)

theorem weights1_isSharing (hk : k < 64) (batch_size : Nat) (input : Nat → BitVec 64) :
    (sizes1 batch_size).FilterSharing 16 k (split input (16*25) k)
      (words k (Inputs.filterWeights 1 input)) := by
  intro f c ky kx hf hc hky hkx
  have hcell : (sizes1 batch_size).filterCell f c ky kx < 16*(1*5*5) :=
    index_lt hf (index_lt (index_lt hc hky) hkx)
  exact split_isSharing hk hcell

theorem weights2_isSharing (hk : k < 64) (batch_size : Nat) (input : Nat → BitVec 64) :
    (sizes2 batch_size).FilterSharing 16 k (split input (16*400) k)
      (words k (Inputs.filterWeights 16 input)) := by
  intro f c ky kx hf hc hky hkx
  have hcell : (sizes2 batch_size).filterCell f c ky kx < 16*(16*5*5) :=
    index_lt hf (index_lt (index_lt hc hky) hkx)
  exact split_isSharing hk hcell

def Blank (batch_size : Nat) (X : Shared) : Prop :=
  ∀ e, 784 ≤ e → e < 784*batch_size → ArithSharing shares3pc 20 X e 0

theorem blank_splitX (inp : Inputs) {batch_size : Nat} {X : Shared} (hX : Blank batch_size X)
    (k : Nat) : Blank batch_size fun p => splitX p (X p) inp.X 784 batch_size k 20 := by
  intro e hge he
  exact (hX e hge he).congr fun p s _ => by simp only [splitX,copyShares_of_ge hge]

theorem shown_isSharing (inp : Inputs) {batch_size : Nat} {X : Shared} (hX : Blank batch_size X)
    (k : Nat) : (sizes1 batch_size).ImageSharing 20
      (fun p => splitX p (X p) inp.X 784 batch_size k 20) (words 20 (inp.shown batch_size k)) := by
  intro l c r q hl hc hr hq
  have hl' : l < batch_size := hl
  have hr' : r < 28 := hr
  have hq' : q < 28 := hq
  obtain rfl : c = 0 := Nat.lt_one_iff.mp hc
  have hcell : (sizes1 batch_size).inputCell l 0 r q = l*784 + (r*28 + q) := by
    rw [ConvSizes.inputCell,sizes1]
    ring
  rw [hcell]
  by_cases hfirst : l = 0
  · subst hfirst
    rw [Nat.zero_mul,Nat.zero_add]
    have hpixel : r*28 + q < 784 := by omega
    have hcopied := copyShares_copied (c := Overload.longLong.read 8) (k := 20) (by decide)
      (fun i => inp.X (k*784*batch_size + i)) rfl X hpixel (show r*28 + q < 784*batch_size by omega)
    have hvalue : words 20 (inp.shown batch_size k) 0 0 r q =
        BitVec.ofInt 20 ((inp.X (k*784*batch_size + (r*28 + q))).toInt) := by
      rw [words,Inputs.shown,if_pos rfl,Inputs.image,Nat.mul_right_comm]
    rw [hvalue]
    exact hcopied
  · have hzero : words 20 (inp.shown batch_size k) l 0 r q = 0 := by
      rw [words,Inputs.shown,if_neg hfirst]
      rfl
    rw [hzero]
    exact blank_splitX inp hX k _ (by omega) (by omega)

section Forward
variable {inp : Inputs} {batch_size : Nat} {x : Shared} {X : Nat → Layers.Image Int}

omit [AesNi] in
theorem pooled1 (batch_size : Nat) : (sizes1 batch_size).Pooled := by
  obtain ⟨hheight,hwidth⟩ := sizes1_maps batch_size
  refine ⟨⟨Nat.one_pos,?_,?_⟩,?_,hheight.trans hwidth.symm⟩
  · exact (by decide : 5 ≤ 28 ∧ 28 < 4294967296)
  · exact (by decide : 5 ≤ 28 ∧ 28 < 4294967296)
  · rw [hheight]
    decide

omit [AesNi] in
theorem pooled2 (batch_size : Nat) : (sizes2 batch_size).Pooled := by
  obtain ⟨hheight,hwidth⟩ := sizes2_maps batch_size
  refine ⟨⟨Nat.one_pos,?_,?_⟩,?_,hheight.trans hwidth.symm⟩
  · exact (by decide : 5 ≤ 12 ∧ 12 < 4294967296)
  · exact (by decide : 5 ≤ 12 ∧ 12 < 4294967296)
  · rw [hheight]
    decide

theorem layer1 (hx : (sizes1 batch_size).ImageSharing 20 x (words 20 X))
    (hfits : ∀ l, l < batch_size → inp.NoOverflow (X l)) :
    (sizes1 batch_size).LayerInput 16 20 x (split inp.W1 (16*25) 20) (split inp.b1 (1*16) 20) X
      (Inputs.filterWeights 1 inp.W1) (Inputs.numbers inp.b1) where
  images := hx
  weights := weights1_isSharing (by decide) batch_size inp.W1
  biases f hf := split_isSharing (by decide) (by omega)
  fits l f y z hl hf hy hz := by
    obtain ⟨hheight,hwidth⟩ := sizes1_maps batch_size
    exact (hfits l hl).sums1 f y z hf (hheight ▸ hy) (hwidth ▸ hz)

theorem layer2 (hx : (sizes2 batch_size).ImageSharing 30 x (words 30 fun l => inp.hidden1 (X l)))
    (hfits : ∀ l, l < batch_size → inp.NoOverflow (X l)) :
    (sizes2 batch_size).LayerInput 16 30 x (split inp.W2 (16*400) 30) (split inp.b2 (1*16) 30)
      (fun l => inp.hidden1 (X l)) (Inputs.filterWeights 16 inp.W2) (Inputs.numbers inp.b2) where
  images := hx
  weights := weights2_isSharing (by decide) batch_size inp.W2
  biases f hf := split_isSharing (by decide) (by omega)
  fits l f y z hl hf hy hz := by
    obtain ⟨hheight,hwidth⟩ := sizes2_maps batch_size
    exact (hfits l hl).sums2 f y z hf (hheight ▸ hy) (hwidth ▸ hz)

variable (h : Heap 8 G) {net : Net 3 G}

section
variable {s : State G} (hnet : shares3pc.Consistent s.net)
include hnet

section
variable (inp batch_size)

theorem conv1_net : shares3pc.Consistent (conv1 inp h batch_size s).2 :=
  h.convStage_net (sizes1 batch_size) 16 (by decide) (by decide) hnet _ _ _ _

theorem conv2_net : shares3pc.Consistent (conv2 inp h batch_size s).2 :=
  h.convStage_net (sizes2 batch_size) 16 (by decide) (by decide)
    (conv1_net inp batch_size h hnet) _ _ _ _

theorem full1_net : shares3pc.Consistent (full1 inp h batch_size s).2 :=
  denseLayer_net (k := 40) (conv2_net inp batch_size h hnet) 100 256 batch_size s.X6
    (conv2 inp h batch_size s).1.pooled (split inp.W3 (100*256) 40) (split inp.b3 (1*100) 40)

theorem relu_net : shares3pc.Consistent (h.newComparisons.reLU
    (fun _ => (full1 inp h batch_size s).1) 0 0 (100*1*batch_size) 40 (full1 inp h batch_size s).2).2 :=
  Comparisons.reLU_net (h.newComparisons_correct (by decide) (by decide))
    (full1_net inp batch_size h hnet) _ _ _ _

theorem active_net : shares3pc.Consistent (active inp h batch_size s).2 :=
  h.convert_net (by decide) (by decide) (by decide) (relu_net inp batch_size h hnet) _ _

theorem forward_net : shares3pc.Consistent (forward inp h batch_size s).net :=
  denseLayer_net (k := 49) (active_net inp batch_size h hnet) 10 100 batch_size s.X7
    (active inp h batch_size s).1 (split inp.W4 (10*100) 49) (split inp.b4 (1*10) 49)

end

variable (hX : (sizes1 batch_size).ImageSharing 20 s.X (words 20 X))
  (hfits : ∀ l, l < batch_size → inp.NoOverflow (X l))
include hX hfits

theorem conv1_isSharing : (sizes2 batch_size).ImageSharing 30 (conv1 inp h batch_size s).1.pooled
    (words 30 fun l => inp.hidden1 (X l)) := by
  intro l c r q hl hc hr hq
  have hinside : ((sizes1 batch_size).maps 16).Inside l c r q := by
    have hr' : r < 12 := hr
    have hq' : q < 12 := hq
    rw [maps1]
    exact ⟨hl,hc,show r < 24/2 by omega,show q < 24/2 by omega⟩
  have hplace : ((sizes1 batch_size).maps 16).outputPlace l c r q =
      (sizes2 batch_size).inputCell l c r q := by
    rw [maps1]
    show ((l*16 + c)*(24/2) + r)*(24/2) + q = l*(16*12*12) + (c*12 + r)*12 + q
    omega
  rw [← hplace]
  exact h.convStage_isSharing (by decide) (by decide) hnet (pooled1 batch_size) _ (layer1 hX hfits)
    hinside

variable {l i : Nat} (hl : l < batch_size)
include hl

theorem conv2_isSharing (hi : i < 256) :
    ArithSharing shares3pc 40 (conv2 inp h batch_size s).1.pooled (l*256 + i)
      (BitVec.ofInt 40 (inp.hidden2 (X l) (i/16) (i/4%4) (i%4))) := by
  have hinside : ((sizes2 batch_size).maps 16).Inside l (i/16) (i/4%4) (i%4) := by
    rw [maps2]
    exact ⟨hl,show i/16 < 16 by omega,show i/4%4 < 8/2 by omega,show i%4 < 8/2 by omega⟩
  have hplace : ((sizes2 batch_size).maps 16).outputPlace l (i/16) (i/4%4) (i%4) = l*256 + i := by
    rw [maps2]
    show ((l*16 + i/16)*(8/2) + i/4%4)*(8/2) + i%4 = l*256 + i
    omega
  rw [← hplace]
  exact h.convStage_isSharing (by decide) (by decide) (conv1_net inp batch_size h hnet) (pooled2 batch_size) _
    (layer2 (conv1_isSharing h hnet hX hfits) hfits) hinside

theorem full1_isSharing (hi : i < 100) :
    ArithSharing shares3pc 40 (full1 inp h batch_size s).1 (l*100 + i)
      (BitVec.ofInt 40 (inp.sums3 (X l) i)) := by
  have hW : ∀ i t, i < 100 → t < 256 → ArithSharing shares3pc 40 (split inp.W3 (100*256) 40)
      (i*256 + t) (BitVec.ofInt 40 (Inputs.matrix 256 inp.W3 i t)) :=
    fun _ _ => matrix_isSharing (by decide)
  have hb : ∀ i, i < 100 → ArithSharing shares3pc 40 (split inp.b3 (1*100) 40) i
      (BitVec.ofInt 40 (Inputs.numbers inp.b3 i)) := fun i hi => split_isSharing (by decide) (by omega)
  have hsums := denseLayer_isSharing (by decide) (conv2_net inp batch_size h hnet) s.X6
    (fun _ _ hl ht => conv2_isSharing h hnet hX hfits hl ht) hW hb hl hi
  exact hsums

theorem active_isSharing (hi : i < 100) :
    ArithSharing shares3pc 49 (active inp h batch_size s).1 (l*100 + i)
      (BitVec.ofInt 49 (max (inp.sums3 (X l) i) 0)) := by
  have hplace : l*100 + i < 100*1*batch_size := by omega
  have hfit := (hfits l hl).sums3 i hi
  have hrelu := Comparisons.reLU_element (fun _ => (full1 inp h batch_size s).1) 0 0
    (h.newComparisons_correct (by decide) (by decide)) (by decide) (full1_net inp batch_size h hnet) hplace
    (full1_isSharing h hnet hX hfits hl hi)
  rw [hfit.toInt (by decide)] at hrelu
  rw [← Signed.setWidth_ofInt (k := 40) 49 (le_max_right _ _)
    (max_lt (hfit.2.trans_le (by norm_num)) (by norm_num))]
  exact h.convert_isSharing (by decide) (by decide) (by decide) (relu_net inp batch_size h hnet) hplace hrelu

theorem logits_isSharing (hi : i < 10) :
    ArithSharing shares3pc 49 (forward inp h batch_size s).X7 (l*10 + i)
      (BitVec.ofInt 49 (inp.logits (X l) i)) := by
  have hW : ∀ i t, i < 10 → t < 100 → ArithSharing shares3pc 49 (split inp.W4 (10*100) 49)
      (i*100 + t) (BitVec.ofInt 49 (Inputs.matrix 100 inp.W4 i t)) :=
    fun _ _ => matrix_isSharing (by decide)
  have hb : ∀ i, i < 10 → ArithSharing shares3pc 49 (split inp.b4 (1*10) 49) i
      (BitVec.ofInt 49 (Inputs.numbers inp.b4 i)) := fun i hi => split_isSharing (by decide) (by omega)
  have hsums := denseLayer_isSharing (by decide) (active_net inp batch_size h hnet) s.X7
    (fun _ _ hl ht => active_isSharing h hnet hX hfits hl ht) hW hb hl hi
  exact hsums

end

end Forward

section Turn
variable {inp : Inputs} {h : Heap 8 G} {batch_size k : Nat} {s : State G}

@[simp] theorem turn_X : (turn inp h batch_size k s).X = (load inp batch_size k s).X := by
  simp only [turn,forward]

@[simp] theorem turn_X7 : (turn inp h batch_size k s).X7 =
    (forward inp h batch_size (load inp batch_size k s)).X7 := by
  simp only [turn]

@[simp] theorem turn_net : (turn inp h batch_size k s).net =
    (best h batch_size (forward inp h batch_size (load inp batch_size k s))).net := by
  simp only [turn]

structure Ready (batch_size : Nat) (s : State G) : Prop where
  net : shares3pc.Consistent s.net
  blank : Blank batch_size s.X

theorem turn_ready (hs : Ready batch_size s) :
    Ready batch_size (turn inp h batch_size k s) where
  net := by
    have hforward := forward_net (s := load inp batch_size k s) inp batch_size h hs.net
    rw [turn_net]
    exact Comparisons.argMaxWith_net _ _ _ (h.comparisons_multiplies (by decide) (by decide)).keepsNet
      hforward 10 batch_size
  blank := by
    rw [turn_X]
    exact blank_splitX inp hs.blank k

variable (hfits : ∀ l, l < batch_size → inp.NoOverflow (inp.shown batch_size k l))
  (hs : Ready batch_size s) {l : Nat} (hl : l < batch_size)
include hfits hs hl

theorem turn_logits {i : Nat} (hi : i < 10) :
    ArithSharing shares3pc 49 (turn inp h batch_size k s).X7 (l*10 + i)
      (BitVec.ofInt 49 (inp.logits (inp.shown batch_size k l) i)) := by
  rw [turn_X7]
  exact logits_isSharing (s := load inp batch_size k s) h hs.net (shown_isSharing inp hs.blank k)
    hfits hl hi

theorem best_label (hdrawn : ∀ x ∈ compared inp h batch_size k s, Heap.Drawn 49 batch_size x)
    (hrange : inp.Comparable (inp.shown batch_size k l)) (p : Fin 3) :
    rssOpen (best h batch_size (forward inp h batch_size (load inp batch_size k s))).res_index 49
      p l = BitVec.ofNat 64 (inp.label (inp.shown batch_size k l)) := by
  let A : Nat → BitVec 49 := fun i => BitVec.ofInt 49 (inp.logits (inp.shown batch_size k l) i)
  have hvalue : ∀ i, i < 10 → (A i).toInt = inp.logits (inp.shown batch_size k l) i :=
    fun i hi => (hrange.fits i hi).toInt (by decide)
  have hA : Comparisons.InRange A 10 id := by
    intro i hi j hj
    rw [id,id,hvalue i hi,hvalue j hj]
    exact hrange.apart i j hi hj
  have hlabel : Tournament.winner (fun i => (A i).toInt) 10 id =
      inp.label (inp.shown batch_size k l) := Tournament.winner_congr id hvalue
  let f := forward inp h batch_size (load inp batch_size k s)
  have hlogits : ∀ i, i < 10 → ArithSharing shares3pc 49 f.X7 (l*10 + i) (A i) := fun i hi =>
    logits_isSharing (s := load inp batch_size k s) h hs.net (shown_isSharing inp hs.blank k) hfits
      hl hi
  have hforward := forward_net (s := load inp batch_size k s) inp batch_size h hs.net
  have hbest := (Comparisons.argMaxWith_of_right (w := h.candidates f.net) f.X1 f.X0
    (h.comparisons_multiplies (by decide) (by decide)) (by decide) (Nat.le_refl 2) a12_marked hforward
    (by decide : 0 < 10) hl hA (fun x hx hnet => (h.drawn_iff (by decide) (by decide) hnet).mp
      (hdrawn x hx) l hl) hlogits).2
  rw [hlabel] at hbest
  have hopen := rssOpen_eq (by decide) hbest p
  have hsmall : inp.label (inp.shown batch_size k l) < 10 := by
    obtain ⟨i,hi,heq⟩ := Tournament.winner_mem (f := inp.logits (inp.shown batch_size k l)) id
      (by decide : 0 < 10)
    rw [Inputs.label,heq]
    exact hi
  refine hopen.trans (BitVec.eq_of_toNat_eq ?_)
  rw [BitVec.toNat_setWidth,BitVec.toNat_ofNat,BitVec.toNat_ofNat,Nat.mod_eq_of_lt (by omega),
    Nat.mod_eq_of_lt (by omega),Nat.mod_eq_of_lt (by omega)]

omit hl in
theorem turn_correct (hdrawn : ∀ x ∈ compared inp h batch_size k s, Heap.Drawn 49 batch_size x)
    (hrange : ∀ l, l < batch_size → inp.Comparable (inp.shown batch_size k l)) (p : Fin 3) :
    (turn inp h batch_size k s).correct p = s.correct p + (List.range batch_size).countP fun l =>
      BitVec.ofNat 64 (inp.label (inp.shown batch_size k l) + 1) == inp.Y (k*batch_size + l) := by
  have hcount : ∀ l, l ∈ List.range batch_size →
      ((rssOpen (best h batch_size
        (forward inp h batch_size (load inp batch_size k s))).res_index 49 p l + 1 ==
          inp.Y (k*batch_size + l)) = true ↔
        (BitVec.ofNat 64 (inp.label (inp.shown batch_size k l) + 1) ==
          inp.Y (k*batch_size + l)) = true) := by
    intro l hl
    have hl' := List.mem_range.mp hl
    rw [best_label hfits hs hl' hdrawn (hrange l hl') p,BitVec.ofNat_add]
    rfl
  simp only [turn]
  rw [List.countP_congr hcount]
  simp only [forward,load]

end Turn

theorem run_succ (inp : Inputs) (h : Heap 8 G) (batch_size turns : Nat)
    (net : Net 3 G) : run inp h batch_size (turns+1) net =
      turn inp h batch_size turns (run inp h batch_size turns net) := by
  rw [run,List.range_succ,List.foldl_append]
  rfl

theorem run_ready (inp : Inputs) (h : Heap 8 G) (batch_size turns : Nat) {net : Net 3 G}
    (hnet : shares3pc.Consistent net) : Ready batch_size (run inp h batch_size turns net) := by
  induction turns with
  | zero => exact ⟨hnet,fun _ _ _ => Pattern.isSharing_zero.congr fun _ _ _ => rfl⟩
  | succ turns ih =>
    rw [run_succ]
    exact turn_ready ih

/-- After each turn the parties share the logits of the network for what the entries of the
batch are in that turn, as far as no sum is too large for its ring. -/
theorem minionn_logits (inp : Inputs) (h : Heap 8 G) (batch_size : Nat) {net : Net 3 G}
    (hnet : shares3pc.Consistent net) (k : Nat)
    (hfits : ∀ l, l < batch_size → inp.NoOverflow (inp.shown batch_size k l)) {l i : Nat}
    (hl : l < batch_size) (hi : i < 10) :
    ArithSharing shares3pc 49 (run inp h batch_size (k+1) net).X7 (l*10 + i)
      (BitVec.ofInt 49 (inp.logits (inp.shown batch_size k l) i)) := by
  have hready := run_ready inp h batch_size k hnet
  rw [run_succ]
  exact turn_logits hfits hready hl hi

/-- In the runs in which the streams fit what `arg_max` compares, the parties count the entries
whose label is the expected one. -/
theorem minionn_correct (inp : Inputs) (h : Heap 8 G) (batch_size size : Nat) {net : Net 3 G}
    (hnet : shares3pc.Consistent net)
    (hfits : ∀ k, k < size/batch_size → ∀ l, l < batch_size →
      inp.NoOverflow (inp.shown batch_size k l) ∧ inp.Comparable (inp.shown batch_size k l))
    (hdrawn : ∀ k, k < size/batch_size → ∀ x ∈ compared inp h batch_size k
      (run inp h batch_size k net), Heap.Drawn 49 batch_size x)
    (p : Fin 3) : (minionn inp h batch_size size net).correct p =
      ∑ k ∈ Finset.range (size/batch_size), (List.range batch_size).countP fun l =>
        BitVec.ofNat 64 (inp.label (inp.shown batch_size k l) + 1) == inp.Y (k*batch_size + l) := by
  rw [minionn]
  generalize size/batch_size = turns at hfits hdrawn
  induction turns with
  | zero => rfl
  | succ turns ih =>
    have hready := run_ready inp h batch_size turns hnet
    have hlast := hfits turns (Nat.lt_succ_self turns)
    rw [run_succ,Finset.sum_range_succ,← ih (fun k hk => hfits k (by omega)) fun k hk =>
      hdrawn k (by omega)]
    exact turn_correct (fun l hl => (hlast l hl).1) hready (hdrawn turns (Nat.lt_succ_self turns))
      (fun l hl => (hlast l hl).2) p

end Shared

def onlySeven : Inputs where
  W1 := fun _ => 0
  W2 := fun _ => 0
  W3 := fun _ => 0
  W4 := fun _ => 0
  b1 := fun _ => 0
  b2 := fun _ => 0
  b3 := fun _ => 0
  b4 := fun i => if i = 7 then 5 else 0
  X := fun i => BitVec.ofNat 64 i
  Y := fun _ => 8

theorem onlySeven_logits (X : Layers.Image Int) (i : Nat) :
    onlySeven.logits X i = if i = 7 then 5 else 0 := by
  have hzero : ∀ t, Inputs.matrix 100 onlySeven.W4 i t = 0 := fun _ => rfl
  simp only [Inputs.logits,Layers.dense,hzero,zero_mul,Finset.sum_const_zero,zero_add]
  show (if i = 7 then 5 else 0 : BitVec 64).toInt = if i = 7 then 5 else 0
  split <;> decide

theorem onlySeven_noOverflow (X : Layers.Image Int) : onlySeven.NoOverflow X := by
  have hfits : ∀ k, Fits k 0 := fun k =>
    ⟨neg_nonpos.mpr (by positivity),by positivity⟩
  have hzero : (0 : BitVec 64).toInt = 0 := rfl
  refine ⟨fun f y x _ _ _ => ?_,fun f y x _ _ _ => ?_,fun i _ => ?_⟩
  · simpa [Inputs.sums1,Layers.convolution,Inputs.filterWeights,Inputs.numbers,onlySeven,hzero]
      using hfits 20
  · simpa [Inputs.sums2,Layers.convolution,Inputs.filterWeights,Inputs.numbers,onlySeven,hzero]
      using hfits 30
  · simpa [Inputs.sums3,Layers.dense,Inputs.matrix,Inputs.numbers,onlySeven,hzero] using hfits 40

def fullHeap : Heap 8 G where
  msb _ := ⟨fun _ _ _ => 7,fun _ _ _ => 9,fun _ _ _ => 5⟩
  array _ m := fun _ _ _ => BitVec.ofNat 64 m
  candidates _ _ := ⟨fun _ _ _ => 1,fun _ _ _ => 2,fun _ _ _ => 3,fun _ _ _ => 4,fun _ _ _ => 5,
    fun _ _ _ => 6,fun _ _ _ => 7⟩

theorem minionn_logits_seven :
    let net : Net 3 Tape := fun _ _ => ⟨fun i => BitVec.ofNat 8 (3*i+1)⟩
    ¬ ∃ _ : AesNi, ¬ ArithSharing shares3pc 49
      (run onlySeven fullHeap 2 2 net).X7 (1*10 + 7) 5 := by
  rintro net ⟨_,h⟩
  have hnet : shares3pc.Consistent net := fun _ _ _ _ _ _ _ => rfl
  have hlogits := minionn_logits onlySeven fullHeap 2 hnet 1 (fun _ _ => onlySeven_noOverflow _)
    (by decide : 1 < 2) (by decide : 7 < 10)
  rw [onlySeven_logits] at hlogits
  exact h hlogits

def allAlike : Inputs := { onlySeven with b4 := fun _ => 5, Y := fun _ => 1 }

theorem allAlike_logits (X : Layers.Image Int) (i : Nat) : allAlike.logits X i = 5 := by
  have hzero : ∀ t, Inputs.matrix 100 allAlike.W4 i t = 0 := fun _ => rfl
  simp only [Inputs.logits,Layers.dense,hzero,zero_mul,Finset.sum_const_zero,zero_add]
  rfl

theorem allAlike_fits (X : Layers.Image Int) : allAlike.NoOverflow X ∧ allAlike.Comparable X := by
  have hfits := onlySeven_noOverflow X
  refine ⟨⟨hfits.sums1,hfits.sums2,hfits.sums3⟩,fun i _ => ?_,fun i j _ _ => ?_⟩
  · rw [allAlike_logits]
    exact ⟨by norm_num,by norm_num⟩
  · rw [allAlike_logits,allAlike_logits]
    norm_num

theorem allAlike_label (X : Layers.Image Int) : allAlike.label X = 0 :=
  Tournament.winner_of_alike id fun x y => by
    rw [allAlike_logits,allAlike_logits]
    exact lt_irrefl 5

section Steady
variable {net : Net 3 (Steady 1)}

theorem steady_consistent (net : Net 3 (Steady 1)) : shares3pc.Consistent net :=
  fun _ _ _ _ _ _ _ => Subsingleton.elim _ _

theorem steady_drawn {batch_size : Nat} {x : Comparisons.Compared 3 8 (Steady 1)}
    (hx : ∀ j i, j < batch_size → i < x.size/2 →
      ArithSharing shares3pc 49 x.diff (j*((x.size + 1)/2) + i) 0) : Heap.Drawn 49 batch_size x := by
  intro j i hj hi α hα
  have hbit : ∀ count i, drawnBit x.net 49 count i = false := by
    intro count i
    show (!((1 : Byte).getLsbD 0 ^^ (1 : Byte).getLsbD 0 ^^ (1 : Byte).getLsbD 0)) = false
    decide
  have hmask : ∀ count i, drawnMask x.net 49 count i = 0 := by
    intro count i
    apply BitVec.eq_of_getLsbD_eq
    intro m hm
    rw [drawnMask,getLsbD_ofBits,hbit,Bool.and_false]
    exact BitVec.getLsbD_zero.symm
  obtain rfl : α = 0 := hα.unique (hx j i hj hi)
  rw [hbit,hmask]
  exact ⟨by decide,by decide⟩

variable {h : Heap 8 (Steady 1)} {w : CallArrays 3 8} {batch_size size : Nat} {v : BitVec 49}
  {a : Shared}

theorem level_alike (net : Net 3 (Steady 1)) (ha : ∀ j i, j < batch_size → i < size →
      ArithSharing shares3pc 49 a (j*size + i) v) :
    Heap.Drawn 49 batch_size (Comparisons.compared 2 w a size batch_size net) ∧
    ∀ j i, j < batch_size → i < (size + 1)/2 → ArithSharing shares3pc 49
      (h.comparisons.larger 2 w a 49 size batch_size net).ap (j*((size + 1)/2) + i) v := by
  have hdrawn : Heap.Drawn 49 batch_size (Comparisons.compared 2 w a size batch_size net) := by
    refine steady_drawn fun j i hj hi => ?_
    obtain ⟨h0,h1⟩ := halves_isSharing le_rfl hj hi (V := fun _ => v) (fun i hi => ha j i hj hi)
      w.a0 w.a1
    have hsub := Comparisons.sub_isSharing (by decide) h0 h1
    rw [sub_self] at hsub
    exact fill_isSharing (a := fun p s i => half 2 size batch_size 0 a w.a0 p s i -
      half 2 size batch_size (size/2) a w.a1 p s i) le_rfl (match_lt hj hi) hsub w.diff
  refine ⟨hdrawn,fun j i hj hi => ?_⟩
  have hright := (h.drawn_iff (by decide) (by decide) (steady_consistent _)).mp hdrawn j hj
  have hrange : Comparisons.InRange (fun _ : Nat => v) size id := by
    intro x _ y _
    rw [sub_self,abs_zero]
    positivity
  exact (Comparisons.larger_isSharing (h.comparisons_multiplies (by decide) (by decide)) (by decide)
    le_rfl (steady_consistent net) hj hrange hright fun i hi => ha j i hj hi).2.2 i hi

theorem helper_alike (w : Nat → CallArrays 3 8) :
    ∀ {size : Nat} {a a_index : Shared} {net : Net 3 (Steady 1)}, (∀ j i, j < batch_size →
      i < size → ArithSharing shares3pc 49 a (j*size + i) v) →
    ∀ x ∈ h.comparisons.helperCompared 2 w 49 batch_size size a a_index net,
      Heap.Drawn 49 batch_size x := by
  intro size
  induction size using Nat.strong_induction_on with
  | _ size ih =>
    intro a a_index net ha
    rw [Comparisons.helperCompared]
    by_cases hmany : 1 < size
    · obtain ⟨hdrawn,hrest⟩ := level_alike (h := h) (w := w size) net ha
      simp only [if_pos hmany,List.forall_mem_cons]
      exact ⟨hdrawn,ih ((size + 1)/2) (by omega) hrest⟩
    · simp only [if_neg hmany,List.not_mem_nil,false_imp_iff,implies_true]

end Steady

/-- Three images, for all of which the expected label is that of a zero. -/
theorem minionn_correct_alike :
    let net : Net 3 (Steady 1) := fun _ _ => ⟨⟩
    ¬ ∃ _ : AesNi, ¬ (minionn allAlike fullHeap 1 3 net).correct 0 = 3 := by
  rintro net ⟨_,h⟩
  have hcorrect := minionn_correct allAlike fullHeap 1 3 (steady_consistent net)
    (fun _ _ _ _ => allAlike_fits _) (fun k _ => ?_) 0
  · simp only [allAlike_label] at hcorrect
    exact h (hcorrect.trans (by decide))
  · let s := run allAlike fullHeap 1 k net
    let f := forward allAlike fullHeap 1 (load allAlike 1 k s)
    have hlogits : ∀ j i, j < 1 → i < 10 →
        ArithSharing shares3pc 49 f.X7 (j*10 + i) (5 : BitVec 49) := by
      intro j i hj hi
      have hready := run_ready allAlike fullHeap 1 k (steady_consistent net)
      have hturn := turn_logits (h := fullHeap) (k := k)
        (fun l _ => (allAlike_fits (allAlike.shown 1 k l)).1) hready hj hi
      rw [allAlike_logits,turn_X7] at hturn
      exact hturn
    obtain ⟨hdrawn,hrest⟩ := level_alike (h := fullHeap) (w := fullHeap.candidates f.net 10)
      f.net hlogits
    rw [compared,Comparisons.argMaxCompared,if_pos (by decide)]
    exact List.forall_mem_cons.mpr ⟨hdrawn,helper_alike _ hrest⟩

end Minionn

end RssRing
