import RssRing.Library.Layers
import RssRing.ProtocolsMl.Im2col
import RssRing.ProtocolsMl.MaxPool
import RssRing.ProtocolsMl.ReLU6
set_option autoImplicit false

namespace RssRing
open Replicated

variable {L k : Nat} {G : Type} [Generator G]

structure ConvArrays (L : Nat) where
  columns : Shares 3 (Lint L)
  maps : Shares 3 (Lint L)
  pooled : Shares 3 (Lint L)

/-- The calls that the networks make for a convolution layer, the biases and `ReLU` in place. -/
def convLayer (C : Comparisons 3 L G) (d : ConvSizes) (filters ring_size : Nat)
    (old : ConvArrays L) (x W b : Shares 3 (Lint L)) (net : Net 3 G) : ConvArrays L × Net 3 G :=
  let positions := d.heightCol*d.widthCol
  let columns := fun p => d.im2col 2 (old.columns p) (x p)
  let maps := rssMatMultArrayBatch old.maps W columns filters d.channelsCol positions ring_size
    d.batch_size 0 1 net
  let biased := fun p => addBiases 2 (maps.1 p) (maps.1 p) (b p) filters positions d.batch_size
  let active := C.reLU (fun _ => biased) 0 0 (filters*positions*d.batch_size) ring_size maps.2
  let pooled := C.maximumOf.edaMaxPool old.pooled (active.1 0) filters d.heightCol d.widthCol
    d.batch_size ring_size active.2
  (⟨columns,active.1 0,pooled.1⟩,pooled.2)

def denseLayer (m n ring_size batch_size : Nat) (old x W b : Shares 3 (Lint L)) (net : Net 3 G) :
    Shares 3 (Lint L) × Net 3 G :=
  let out := rssMatMultArrayBatch old W x m n 1 ring_size batch_size 0 1 net
  (fun p => addBiases 2 (out.1 p) (out.1 p) (b p) m 1 batch_size,out.2)

section Biases
variable {n : Nat} {H : Pattern (Fin n) (Finset (Fin n))} {m batch_size l f z : Nat}

theorem addBiases_isSharing {N : Nat} (hk : k ≤ 8*L) (hs : H.slots ≤ 2) {a b : Shares n (Lint L)}
    (hl : l < batch_size) (hf : f < m) (hz : z < N) {α β : BitVec k}
    (ha : ArithSharing H k a ((l*m + f)*N + z) α) (hb : ArithSharing H k b f β) :
    ArithSharing H k (fun p => addBiases 2 (a p) (a p) (b p) m N batch_size) ((l*m + f)*N + z)
      (α + β) := by
  refine (ha.add hb).congr fun p s hslot => ?_
  have hin : (l*m + f)*N + z < batch_size*m*N := index_lt (index_lt hl hf) hz
  have hindex : ((l*m + f)*N + z)/N%m = f := by rw [index_div hz,index_mod hf]
  simp only [addBiases,mapIndexed]
  rw [if_pos ⟨Nat.lt_of_lt_of_le hslot hs,hin⟩,hindex,BitVec.setWidth_add _ _ hk]

end Biases

theorem rssMatMultArrayBatch_net {net : Net 3 G} (hnet : shares3pc.Consistent net)
    (c a b : Shares 3 (Lint L)) (m n s batch_size weight_flag_a weight_flag_b : Nat) :
    shares3pc.Consistent
      (rssMatMultArrayBatch c a b m n s k batch_size weight_flag_a weight_flag_b net).2 :=
  advance_consistent3pc hnet (byteWidth k) (batch_size*m*s)

abbrev words (k : Nat) (X : Nat → Layers.Image Int) : Nat → Nat → Nat → Nat → BitVec k :=
  fun l c r q => BitVec.ofInt k (X l c r q)

def Fits (k : Nat) (v : Int) : Prop := -2^(k-1) ≤ v ∧ v < 2^(k-1)

theorem Fits.toInt {v : Int} (h : Fits k v) (hk : 0 < k) : (BitVec.ofInt k v).toInt = v :=
  BitVec.toInt_ofInt_eq_self hk h.1 h.2

def nonneg (k : Nat) : Set (BitVec k) := {α | 0 ≤ α.toInt}

theorem mem_nonneg {α : BitVec k} : α ∈ nonneg k ↔ 0 ≤ α.toInt := Iff.rfl

omit [Generator G] in
theorem maximumOf_nonneg {C : Comparisons 3 L G} (hC : C.Correct shares3pc k) (hk : k ≤ 8*L) :
    C.maximumOf.Correct shares3pc k (nonneg k) := by
  refine Comparisons.maximumOf_correct hC hk fun α hα β hβ => ?_
  have hα' : 0 ≤ α.toInt := hα
  have hβ' : 0 ≤ β.toInt := hβ
  have hα₁ := BitVec.toInt_lt (x := α)
  have hβ₁ := BitVec.toInt_lt (x := β)
  rw [abs_lt]
  constructor <;> linarith

theorem nonneg_nontrivial (hk : 2 ≤ k) : (nonneg k).Nontrivial := by
  have hpow : (1 : Int) < 2^(k-1) := one_lt_pow₀ (by norm_num) (by omega)
  have hval : ∀ v : Int, 0 ≤ v → v < 2^(k-1) → (BitVec.ofInt k v).toInt = v := fun v hlo hhi =>
    BitVec.toInt_ofInt_eq_self (by omega) (by linarith) hhi
  have hzero := hval 0 le_rfl (by linarith)
  have hone := hval 1 (by norm_num) hpow
  refine ⟨BitVec.ofInt k 0,hzero.ge,BitVec.ofInt k 1,?_,fun heq => ?_⟩
  · exact mem_nonneg.mpr (by rw [hone]; norm_num)
  · rw [heq,hone] at hzero
    exact absurd hzero (by norm_num)

namespace PoolSizes
variable {d : PoolSizes} {Y : Nat → Layers.Image Int} {l f y x i j : Nat}

def listed (d : PoolSizes) (k : Nat) (Y : Nat → Layers.Image Int) (t : Nat) : BitVec k :=
  words k Y (t/d.n/d.m/d.c) (t/d.n/d.m%d.c) (t/d.n%d.m) (t%d.n)

theorem listed_inputPlace (hf : f < d.c) (hy : y < d.m) (hx : x < d.n) :
    d.listed k Y (d.inputPlace l f y x) = words k Y l f y x := by
  rw [listed,inputPlace,index_div hx,index_mod hx,index_div hy,index_mod hy,index_div hf,
    index_mod hf]

omit [Generator G] in
theorem edaMaxPool_isSharing {C : Comparisons 3 L G} (hC : C.Correct shares3pc k) (hk₂ : 2 ≤ k)
    (hk : k ≤ 8*L) {net : Net 3 G} (hnet : shares3pc.Consistent net) (heven : 2 ∣ d.m)
    (hsquare : d.m = d.n) (res : Shares 3 (Lint L)) {a : Shares 3 (Lint L)}
    (hY : ∀ l f y x, l < d.batch_size → f < d.c → y < d.m → x < d.n → 0 ≤ Y l f y x ∧
      Y l f y x < 2^(k-1) ∧ ArithSharing shares3pc k a (d.inputPlace l f y x) (words k Y l f y x))
    (h : d.Inside l f i j) :
    ArithSharing shares3pc k (C.maximumOf.edaMaxPool res a d.c d.m d.n d.batch_size k net).1
      (d.outputPlace l f i j) (BitVec.ofInt k (Layers.pool (Y l) f i j)) := by
  have htoInt : ∀ l f y x, l < d.batch_size → f < d.c → y < d.m → x < d.n →
      (words k Y l f y x).toInt = Y l f y x := by
    intro l f y x hl hf hy hx
    obtain ⟨hlo,hhi,-⟩ := hY l f y x hl hf hy hx
    exact BitVec.toInt_ofInt_eq_self (by omega) (by linarith [show (0:Int) ≤ 2^(k-1) by positivity]) hhi
  have himages : d.Images shares3pc k (nonneg k) a (d.listed k Y) := by
    have hcell : ∀ t, t < d.batch_size*(d.c*d.m*d.n) → ∃ l f y x, l < d.batch_size ∧ f < d.c ∧
        y < d.m ∧ x < d.n ∧ t = d.inputPlace l f y x := by
      intro t ht
      rw [← Nat.mul_assoc,← Nat.mul_assoc] at ht
      obtain ⟨u,x,hu,hx,rfl⟩ := exists_index ht
      obtain ⟨v,y,hv,hy,rfl⟩ := exists_index hu
      obtain ⟨l,f,hl,hf,rfl⟩ := exists_index hv
      exact ⟨l,f,y,x,hl,hf,hy,hx,rfl⟩
    constructor
    · intro t ht
      obtain ⟨l,f,y,x,hl,hf,hy,hx,rfl⟩ := hcell t ht
      rw [listed_inputPlace hf hy hx]
      exact (hY l f y x hl hf hy hx).2.2
    · intro t ht
      obtain ⟨l,f,y,x,hl,hf,hy,hx,rfl⟩ := hcell t ht
      rw [listed_inputPlace hf hy hx]
      exact mem_nonneg.mpr (by rw [htoInt l f y x hl hf hy hx]; exact (hY l f y x hl hf hy hx).1)
  have hpools := (pools_iff (L := L) (maximumOf_nonneg hC hk) (nonneg_nontrivial hk₂) (Nat.le_refl 2)
    hnet heven (hsquare ▸ heven) hk (t := {0}) (by decide)).mpr (Or.inl hsquare)
  have hout := hpools (d.listed k Y) a res himages l f i j h
  have hwindow : d.windowMax (d.listed k Y) l f i j =
      BitVec.ofInt k (Layers.pool (Y l) f i j) := by
    have hrow := h.row
    have hcol := h.column
    have hvalue : ∀ y x, y < 2*i + 2 → x < 2*j + 2 →
        (d.listed k Y (d.inputPlace l f y x)).toInt = Y l f y x := by
      intro y x hy hx
      rw [listed_inputPlace h.map (by omega) (by omega)]
      exact htoInt l f y x h.image h.map (by omega) (by omega)
    rw [windowMax,Layers.pool,hvalue _ _ (by omega) (by omega),hvalue _ _ (by omega) (by omega),
      hvalue _ _ (by omega) (by omega),hvalue _ _ (by omega) (by omega)]
  rwa [hwindow] at hout

end PoolSizes

namespace ConvSizes
variable {d : ConvSizes} {filters : Nat} {net : Net 3 G} {x W b : Shares 3 (Lint L)}
  {X V : Nat → Layers.Image Int} {β : Nat → Int} {l f y z : Nat}

def maps (d : ConvSizes) (filters : Nat) : PoolSizes where
  c := filters
  m := d.heightCol
  n := d.widthCol
  batch_size := d.batch_size

def convolved (d : ConvSizes) (V : Nat → Layers.Image Int) (β : Nat → Int)
    (X : Layers.Image Int) : Layers.Image Int :=
  Layers.convolution d.channels d.ksize d.stride V β X

theorem inputPlace_maps (l f y z : Nat) : (d.maps filters).inputPlace l f y z =
    (l*filters + f)*(d.heightCol*d.widthCol) + (y*d.widthCol + z) := by
  rw [PoolSizes.inputPlace,maps]
  ring

theorem product_isSharing (hk : k ≤ 8*L) (hnet : shares3pc.Consistent net) (hd : d.Valid)
    (old columns : Shares 3 (Lint L)) (hx : d.ImageSharing k x (words k X))
    (hV : d.FilterSharing filters k W (words k V)) (hl : l < d.batch_size) (hf : f < filters)
    (hy : y < d.heightCol) (hz : z < d.widthCol) :
    ArithSharing shares3pc k (rssMatMultArrayBatch old W (fun p => d.im2col 2 (columns p) (x p))
      filters d.channelsCol (d.heightCol*d.widthCol) k d.batch_size 0 1 net).1
      ((d.maps filters).inputPlace l f y z) (d.conv (words k X l) (words k V f) y z) := by
  have hplace := index_lt hy hz
  have h : MatSharing shares3pc k
      (rssMatMultArrayBatch old W (fun p => d.im2col 2 (columns p) (x p)) filters d.channelsCol
        (d.heightCol*d.widthCol) k d.batch_size 0 1 net).1
      (l*filters*(d.heightCol*d.widthCol))
      (d.filterMatrix filters (words k V)*d.columnMatrix (words k X (1*l))) :=
    rssMatMultArrayBatch_isSharing hnet hk (A := fun _ => d.filterMatrix filters (words k V))
      (B := fun l => d.columnMatrix (words k X l)) old
      (fun l _ => by simpa only [Nat.zero_mul] using hV.rows)
      (fun l hl => by simpa only [Nat.one_mul,Nat.mul_assoc] using hx.columns hd columns hl) hl
  have hentry : (d.filterMatrix filters (words k V)*d.columnMatrix (words k X (1*l))) ⟨f,hf⟩
      ⟨y*d.widthCol + z,hplace⟩ = d.conv (words k X l) (words k V f) y z := by
    rw [Matrix.mul_apply,← conv_eq_sum,Finset.sum_range,Nat.one_mul]
    simp only [filterMatrix,columnMatrix,Matrix.of_apply,index_div hz,index_mod hz]
  have h := h ⟨f,hf⟩ ⟨y*d.widthCol + z,hplace⟩
  rwa [hentry,← Nat.add_mul,← inputPlace_maps] at h

/-- The pooling takes the maps of a layer in full squares of four. -/
structure Pooled (d : ConvSizes) : Prop where
  valid : d.Valid
  even : 2 ∣ d.heightCol
  square : d.heightCol = d.widthCol

structure LayerInput (d : ConvSizes) (filters k : Nat) (x W b : Shares 3 (Lint L))
    (X V : Nat → Layers.Image Int) (β : Nat → Int) : Prop where
  images : d.ImageSharing k x (words k X)
  weights : d.FilterSharing filters k W (words k V)
  biases : ∀ f, f < filters → ArithSharing shares3pc k b f (BitVec.ofInt k (β f))
  fits : ∀ l f y z, l < d.batch_size → f < filters → y < d.heightCol → z < d.widthCol →
    Fits k (d.convolved V β (X l) f y z)

theorem convLayer_net {C : Comparisons 3 L G} (hC : C.Correct shares3pc k)
    (hnet : shares3pc.Consistent net) (old : ConvArrays L) (x W b : Shares 3 (Lint L)) :
    shares3pc.Consistent (convLayer C d filters k old x W b net).2 := by
  have hmaps := rssMatMultArrayBatch_net (k := k) hnet old.maps W
    (fun p => d.im2col 2 (old.columns p) (x p)) filters d.channelsCol (d.heightCol*d.widthCol)
    d.batch_size 0 1
  have hpair : ∀ (left right : Shares 3 (Lint L)) size {net : Net 3 G}, shares3pc.Consistent net →
      shares3pc.Consistent (C.mult (C.msb left size k net).1 right size k (C.msb left size k net).2).2 :=
    fun _ _ _ _ h => hC.multNet _ _ _ (hC.msbNet _ _ h)
  exact hpair _ _ _ (hpair _ _ _ (hpair _ _ _ hmaps))

theorem convLayer_isSharing {C : Comparisons 3 L G} (hC : C.Correct shares3pc k) (hk₂ : 2 ≤ k)
    (hk : k ≤ 8*L) (hnet : shares3pc.Consistent net) (hd : d.Pooled) (old : ConvArrays L)
    (h : d.LayerInput filters k x W b X V β) {i j : Nat} (hin : (d.maps filters).Inside l f i j) :
    ArithSharing shares3pc k (convLayer C d filters k old x W b net).1.pooled
      ((d.maps filters).outputPlace l f i j)
      (BitVec.ofInt k (Layers.pool (Layers.relu (d.convolved V β (X l))) f i j)) := by
  let maps := rssMatMultArrayBatch old.maps W (fun p => d.im2col 2 (old.columns p) (x p)) filters
    d.channelsCol (d.heightCol*d.widthCol) k d.batch_size 0 1 net
  have hmaps : shares3pc.Consistent maps.2 := rssMatMultArrayBatch_net hnet _ _ _ _ _ _ _ _ _
  let biased : Shares 3 (Lint L) := fun p =>
    addBiases 2 (maps.1 p) (maps.1 p) (b p) filters (d.heightCol*d.widthCol) d.batch_size
  let active := C.reLU (fun _ => biased) 0 0 (filters*(d.heightCol*d.widthCol)*d.batch_size) k maps.2
  have hactive : shares3pc.Consistent active.2 := hC.multNet _ _ _ (hC.msbNet _ _ hmaps)
  refine PoolSizes.edaMaxPool_isSharing (d := d.maps filters) (a := active.1 0)
    (Y := fun l => Layers.relu (d.convolved V β (X l))) hC hk₂ hk hactive hd.even hd.square
    old.pooled (fun l f y z hl hf hy hz => ?_) hin
  have hfit := h.fits l f y z hl hf hy hz
  have hcell : y*d.widthCol + z < d.heightCol*d.widthCol := index_lt hy hz
  have hbiased : ArithSharing shares3pc k biased ((d.maps filters).inputPlace l f y z)
      (BitVec.ofInt k (d.convolved V β (X l) f y z)) := by
    have hproduct := product_isSharing hk hnet hd.valid old.maps old.columns h.images h.weights hl hf
      hy hz
    rw [inputPlace_maps] at hproduct ⊢
    have hsum := addBiases_isSharing hk (Nat.le_refl 2) hl hf hcell hproduct (h.biases f hf)
    have hvalue : BitVec.ofInt k (d.convolved V β (X l) f y z) =
        d.conv (words k X l) (words k V f) y z + BitVec.ofInt k (β f) :=
      Layers.map_convolution (Int.castRingHom (BitVec k)) _ _ _ V β (X l) f y z
    rwa [hvalue]
  have hplace : (d.maps filters).inputPlace l f y z <
      filters*(d.heightCol*d.widthCol)*d.batch_size := by
    have hlt := index_lt (index_lt hl hf) hcell
    have hsize : filters*(d.heightCol*d.widthCol)*d.batch_size =
        d.batch_size*filters*(d.heightCol*d.widthCol) := by ring
    rw [inputPlace_maps,hsize]
    exact hlt
  have hrelu := Comparisons.reLU_element (fun _ => biased) 0 0 hC hk hmaps hplace hbiased
  rw [hfit.toInt (by omega)] at hrelu
  have hpow : (0 : Int) < 2^(k-1) := by positivity
  exact ⟨le_max_right _ _,max_lt hfit.2 hpow,hrelu⟩

end ConvSizes

theorem denseLayer_net {net : Net 3 G} (hnet : shares3pc.Consistent net) (m n batch_size : Nat)
    (old x W b : Shares 3 (Lint L)) :
    shares3pc.Consistent (denseLayer m n k batch_size old x W b net).2 :=
  rssMatMultArrayBatch_net hnet old W x m n 1 batch_size 0 1

theorem denseLayer_isSharing {m n batch_size l i : Nat} {net : Net 3 G} (hk : k ≤ 8*L)
    (hnet : shares3pc.Consistent net) (old : Shares 3 (Lint L)) {x W b : Shares 3 (Lint L)}
    {X V : Nat → Nat → Int} {β : Nat → Int}
    (hx : ∀ l t, l < batch_size → t < n →
      ArithSharing shares3pc k x (l*n + t) (BitVec.ofInt k (X l t)))
    (hV : ∀ i t, i < m → t < n → ArithSharing shares3pc k W (i*n + t) (BitVec.ofInt k (V i t)))
    (hb : ∀ i, i < m → ArithSharing shares3pc k b i (BitVec.ofInt k (β i)))
    (hl : l < batch_size) (hi : i < m) :
    ArithSharing shares3pc k (denseLayer m n k batch_size old x W b net).1 (l*m + i)
      (BitVec.ofInt k (Layers.dense n V β (X l) i)) := by
  let A : Matrix (Fin m) (Fin n) (BitVec k) := Matrix.of fun i t => BitVec.ofInt k (V i t)
  let B : Nat → Matrix (Fin n) (Fin 1) (BitVec k) := fun l =>
    Matrix.of fun t _ => BitVec.ofInt k (X l t)
  have hA : ∀ l, l < batch_size → MatSharing shares3pc k W (0*l*m*n) A := by
    intro l _ i t
    rw [Nat.zero_mul,Nat.zero_mul,Nat.zero_mul,Nat.zero_add]
    exact hV i t i.isLt t.isLt
  have hB : ∀ l, l < batch_size → MatSharing shares3pc k x (1*l*n*1) (B (1*l)) := by
    intro l hl t j
    rw [Nat.one_mul,Nat.mul_one,Nat.mul_one,Fin.val_eq_zero j,Nat.add_zero]
    exact hx l t hl t.isLt
  have hproduct : MatSharing shares3pc k
      (rssMatMultArrayBatch old W x m n 1 k batch_size 0 1 net).1 (l*m*1) (A*B (1*l)) :=
    rssMatMultArrayBatch_isSharing hnet hk (A := fun _ => A) old hA hB hl
  have hentry := hproduct ⟨i,hi⟩ 0
  rw [Matrix.mul_apply,Nat.mul_one,Nat.mul_one,Nat.one_mul] at hentry
  have hsum := addBiases_isSharing (N := 1) (z := 0) hk (Nat.le_refl 2) hl hi Nat.one_pos
    (by simpa only [Nat.mul_one,Fin.val_zero] using hentry) (hb i hi)
  have hvalue : BitVec.ofInt k (Layers.dense n V β (X l) i) =
      (∑ t, A ⟨i,hi⟩ t*B l t 0) + BitVec.ofInt k (β i) := by
    refine (Layers.map_dense (Int.castRingHom (BitVec k)) n V β (X l) i).trans ?_
    rw [Layers.dense,Finset.sum_range]
    rfl
  rw [hvalue]
  rw [Nat.mul_one,Nat.add_zero] at hsum
  exact hsum

end RssRing
