import RssRing.ProtocolsBasic.MatProduct
set_option autoImplicit false

namespace RssRing
open Replicated

variable {G : Type} [Generator G] {L k : Nat}

section WindowLoops
variable {A : Type} {width height stride batch_size count : Nat} {f : Nat → Nat → Nat → List A}
  (hf : ∀ b i j, (f b i j).length = count)
include hf

theorem length_windowLoops :
    ((List.range batch_size).flatMap fun b => (windows width stride).flatMap fun i =>
      (windows height stride).flatMap (f b i)).length =
      batch_size*(width/stride*(height/stride*count)) := by
  simp only [windows,List.flatMap_map]
  exact length_blocks _ _ _ fun _ _ => length_blocks _ _ _ fun _ _ => length_blocks _ _ _ fun _ _ =>
    hf _ _ _

theorem getD_windowLoops {a : A} {b i j r : Nat} (hb : b < batch_size) (hi : i < width/stride)
    (hj : j < height/stride) (hr : r < count) :
    ((List.range batch_size).flatMap fun b => (windows width stride).flatMap fun i =>
      (windows height stride).flatMap (f b i)).getD
        (((b*(width/stride) + i)*(height/stride) + j)*count + r) a =
      (f b (stride - 1 + i*stride) (stride - 1 + j*stride)).getD r a := by
  have hindex : ((b*(width/stride) + i)*(height/stride) + j)*count + r =
      b*(width/stride*(height/stride*count)) + (i*(height/stride*count) + (j*count + r)) := by
    ring
  have hplace := index_lt hj hr
  simp only [windows,List.flatMap_map]
  rw [hindex,getD_blocks _ _ _ _ (fun _ _ => length_blocks _ _ _ fun _ _ => length_blocks _ _ _
    fun _ _ => hf _ _ _) hb (index_lt hi hplace),getD_blocks _ _ _ _ (fun _ _ => length_blocks _ _ _
    fun _ _ => hf _ _ _) hi hplace,getD_blocks _ _ _ _ (fun _ _ => hf _ _ _) hj hr]

end WindowLoops

structure DwSizes where
  width : Nat
  height : Nat
  channels : Nat
  filter : Nat
  batch_size : Nat
  stride : Nat

namespace DwSizes
variable (d : DwSizes)

def outputDim : Nat := dwOutputDim d.width d.height d.channels d.batch_size d.stride

def terms3pc : Terms :=
  dwTerms3pc d.width d.height d.channels d.filter d.batch_size d.stride

def termsMp : Terms :=
  dwTermsMp d.width d.height d.channels d.filter d.batch_size d.stride

def imageDim : Nat := d.channels*(d.width/d.stride)*(d.height/d.stride)

def padded : Nat := d.channels*(d.width + 2)*(d.height + 2)

def pixelPlace (i j fi fj c : Nat) : Nat :=
  (d.stride - 1 + i*d.stride + fi)*(d.height + 2)*d.channels +
    (d.stride - 1 + j*d.stride + fj)*d.channels + c

def weightPlace (fi fj c : Nat) : Nat := fi*d.filter*d.channels + fj*d.channels + c

def resultPlace (b i j c : Nat) : Nat :=
  ((b*(d.width/d.stride) + i)*(d.height/d.stride) + j)*d.channels + c

/-- Channel `c` of window `(i,j)` times the kernel of this channel, in the image that begins at
`start`. -/
def window (X V : Nat → BitVec k) (start i j c : Nat) : BitVec k :=
  ∑ fi ∈ Finset.range d.filter, ∑ fj ∈ Finset.range d.filter,
    X (start + d.pixelPlace i j fi fj c)*V (d.weightPlace fi fj c)

structure Inside (b i j c : Nat) : Prop where
  image : b < d.batch_size
  column : i < d.width/d.stride
  row : j < d.height/d.stride
  channel : c < d.channels

variable {d} {b i j fi fj c : Nat}

theorem outputDim_eq : d.outputDim = d.batch_size*(d.width/d.stride*(d.height/d.stride*d.channels)) := by
  rw [outputDim,dwOutputDim]
  ring

theorem outputDim_div (hb : b < d.batch_size) : d.outputDim/d.batch_size = d.imageDim := by
  have hsplit : d.outputDim = d.batch_size*d.imageDim := by
    rw [outputDim,dwOutputDim,imageDim]
    ring
  rw [hsplit,Nat.mul_div_cancel_left _ (by omega)]

theorem resultPlace_lt (h : d.Inside b i j c) : d.resultPlace b i j c < d.outputDim := by
  have hdim : d.outputDim = d.batch_size*(d.width/d.stride)*(d.height/d.stride)*d.channels := by
    rw [outputDim_eq]
    ring
  rw [hdim]
  exact index_lt (index_lt (index_lt h.image h.column) h.row) h.channel

theorem dwXIndex_eq (hb : b < d.batch_size) (i j fi fj c : Nat) :
    dwXIndex d.height d.channels d.outputDim d.batch_size b (d.stride - 1 + i*d.stride)
      (d.stride - 1 + j*d.stride) fi fj c = b*d.imageDim + d.pixelPlace i j fi fj c := by
  rw [dwXIndex,outputDim_div hb,pixelPlace]
  ring

theorem getD_termsMp (h : d.Inside b i j c) : d.termsMp.getD (d.resultPlace b i j c) [] =
    (List.range (d.filter*d.filter)).map fun t =>
      (b*d.imageDim + d.pixelPlace i j (t/d.filter) (t%d.filter) c,
        d.weightPlace (t/d.filter) (t%d.filter) c) := by
  have hplace := getD_windowLoops (a := []) (f := fun b i j => (List.range d.channels).map fun c =>
    (List.range d.filter).flatMap fun fi => (List.range d.filter).map fun fj =>
      (dwXIndex d.height d.channels d.outputDim d.batch_size b i j fi fj c,d.weightPlace fi fj c))
    (fun _ _ _ => by simp) h.image h.column h.row h.channel
  refine hplace.trans ?_
  rw [getD_map_range _ _ h.channel,Loops.flatMap_range]
  simp only [dwXIndex_eq h.image]

theorem exists_of_mem_termsMp (h : d.Inside b i j c) {e : Nat × Nat}
    (he : e ∈ d.termsMp.getD (d.resultPlace b i j c) []) : ∃ fi fj, fi < d.filter ∧ fj < d.filter ∧
      e = (b*d.imageDim + d.pixelPlace i j fi fj c,d.weightPlace fi fj c) := by
  rw [getD_termsMp h] at he
  obtain ⟨t,ht,rfl⟩ := List.mem_map.mp he
  have ht : t < d.filter*d.filter := List.mem_range.mp ht
  have hpos : 0 < d.filter := Nat.pos_of_ne_zero fun h0 => by simp [h0] at ht
  exact ⟨t/d.filter,t%d.filter,Nat.div_lt_of_lt_mul ht,Nat.mod_lt t hpos,rfl⟩

theorem termSum_termsMp (h : d.Inside b i j c) (X V : Nat → BitVec k) :
    termSum X V (d.termsMp.getD (d.resultPlace b i j c) []) = d.window X V (b*d.imageDim) i j c := by
  rw [getD_termsMp h,termSum_range,window,← Loops.sum_range_mul]

theorem length_termsMp : d.termsMp.length = d.outputDim := by
  rw [outputDim_eq]
  exact length_windowLoops fun _ _ _ => by simp

theorem length_terms3pc : d.terms3pc.length =
    d.batch_size*(d.width/d.stride*(d.height/d.stride*(d.filter*d.filter))) :=
  length_windowLoops fun _ _ _ => length_blocks _ d.filter d.filter fun _ _ => by simp

theorem window_eq_sum (X V : Nat → BitVec k) (start i j c : Nat) : d.window X V start i j c =
    ∑ t ∈ Finset.range (d.filter*d.filter),
      X (start + d.pixelPlace i j (t/d.filter) (t%d.filter) c)*V (t*d.channels + c) := by
  rw [window,← Loops.sum_range_mul]
  refine Finset.sum_congr rfl fun t _ => ?_
  rw [weightPlace,← Nat.add_mul,Nat.mul_comm (t/d.filter),Nat.div_add_mod]

theorem window_indicator (hc : c < d.channels) {t : Nat} (ht : t < d.filter*d.filter)
    (X : Nat → BitVec k) (start i j : Nat) :
    d.window X (indicator k (t*d.channels + c)) start i j c =
      X (start + d.pixelPlace i j (t/d.filter) (t%d.filter) c) := by
  rw [window_eq_sum,Finset.sum_eq_single_of_mem t (Finset.mem_range.mpr ht) fun u _ hu => ?_]
  · rw [indicator_self,mul_one]
  · have hplace : u*d.channels + c ≠ t*d.channels + c := by
      intro h
      exact hu (Nat.eq_of_mul_eq_mul_right (by omega) (Nat.add_right_cancel h))
    rw [indicator_of_ne hplace,mul_zero]

theorem imageDim_lt_padded (hc : 0 < d.channels) : d.imageDim < d.padded := by
  have hw := Nat.div_le_self d.width d.stride
  have hh := Nat.div_le_self d.height d.stride
  rw [imageDim,padded,Nat.mul_assoc,Nat.mul_assoc]
  exact Nat.mul_lt_mul_of_pos_left (Nat.mul_lt_mul'' (by omega) (by omega)) hc

def Fits (d : DwSizes) : Prop :=
  (d.width/d.stride*d.stride + d.filter - 2)*(d.height + 2) +
    (d.height/d.stride*d.stride + d.filter - 2) < (d.width + 2)*(d.height + 2)

theorem fits_of_filter_le (hf : d.filter ≤ 3) : d.Fits := by
  have hw := Nat.div_mul_le_self d.width d.stride
  have hh := Nat.div_mul_le_self d.height d.stride
  exact index_lt (by omega) (by omega)

theorem pixelPlace_eq (i j fi fj c : Nat) : d.pixelPlace i j fi fj c =
    ((d.stride - 1 + i*d.stride + fi)*(d.height + 2) + (d.stride - 1 + j*d.stride + fj))*d.channels +
      c := by
  rw [pixelPlace]
  ring

theorem window_le {m t : Nat} (ht : t < m/d.stride) (f : Nat) :
    d.stride - 1 + t*d.stride + f ≤ m/d.stride*d.stride + f - 1 := by
  have hmul := Nat.mul_le_mul_right d.stride (show t+1 ≤ m/d.stride from ht)
  rw [Nat.succ_mul] at hmul
  have hstride : 0 < d.stride := Nat.pos_of_ne_zero fun h0 => by simp [h0] at ht
  omega

theorem pixelPlace_lt (hd : d.Fits) (hi : i < d.width/d.stride) (hj : j < d.height/d.stride)
    (hfi : fi < d.filter) (hfj : fj < d.filter) (hc : c < d.channels) :
    d.pixelPlace i j fi fj c < d.padded := by
  have hcol := window_le hi fi
  have hrow := window_le hj fj
  have hlast : (d.stride - 1 + i*d.stride + fi)*(d.height + 2) ≤
      (d.width/d.stride*d.stride + d.filter - 2)*(d.height + 2) :=
    Nat.mul_le_mul_right _ (by omega)
  have hpixel : (d.stride - 1 + i*d.stride + fi)*(d.height + 2) + (d.stride - 1 + j*d.stride + fj) <
      (d.width + 2)*(d.height + 2) := by
    rw [Fits] at hd
    omega
  have hlen : d.padded = (d.width + 2)*(d.height + 2)*d.channels := by
    rw [padded]
    ring
  rw [pixelPlace_eq,hlen]
  exact index_lt hpixel hc

section ThreeParties
variable {net : Net 3 G} (hnet : shares3pc.Consistent net) (hk : k ≤ 8*L) {X V : Nat → BitVec k}
  {x W : Shares 3 (Lint L)}
include hnet hk

end ThreeParties

section FiveParties
variable {net : Net 5 G} (hnet : shares5pc.Consistent net) (hk : k ≤ 8*L) {X V : Nat → BitVec k}
  {x W : Shares 5 (Lint L)}
include hnet hk

theorem dwMatrixmulMp_value (h : d.Inside b i j c) (hx : ∀ fi fj, fi < d.filter → fj < d.filter →
      ArithSharing shares5pc k x (b*d.imageDim + d.pixelPlace i j fi fj c)
        (X (b*d.imageDim + d.pixelPlace i j fi fj c)))
    (hW : ∀ fi fj, fi < d.filter → fj < d.filter →
      ArithSharing shares5pc k W (d.weightPlace fi fj c) (V (d.weightPlace fi fj c)))
    (res : Shares 5 (Lint L)) (w : BitVec k) :
    ArithSharing shares5pc k (rssDwMatrixmulMp res x W d.width d.height d.channels d.filter k
      d.batch_size d.stride net).1 (d.resultPlace b i j c)
      (w + d.window X V (b*d.imageDim) i j c) ↔
    ArithSharing shares5pc k res (d.resultPlace b i j c) w := by
  rw [← termSum_termsMp h]
  refine matMult5pc_terms hnet hk (resultPlace_lt h) length_termsMp res (fun e he => ?_)
    (fun e he => ?_) w
  · obtain ⟨fi,fj,hfi,hfj,rfl⟩ := exists_of_mem_termsMp h he
    exact hx fi fj hfi hfj
  · obtain ⟨fi,fj,hfi,hfj,rfl⟩ := exists_of_mem_termsMp h he
    exact hW fi fj hfi hfj

end FiveParties

theorem weightPlace_lt (hfi : fi < d.filter) (hfj : fj < d.filter) (hc : c < d.channels) :
    d.weightPlace fi fj c < d.filter*d.filter*d.channels := by
  rw [weightPlace,← Nat.add_mul]
  exact index_lt (index_lt hfi hfj) hc

section Sizes
variable (hk₀ : 0 < k) (hk : k ≤ 8*L) {net : Net 3 G} (hnet : shares3pc.Consistent net)
include hk₀ hk hnet

end Sizes

theorem last_place (hf : 0 < d.filter) : (d.filter*d.filter - 1)/d.filter = d.filter - 1 ∧
    (d.filter*d.filter - 1)%d.filter = d.filter - 1 := by
  have hsplit : d.filter*d.filter - 1 = (d.filter - 1)*d.filter + (d.filter - 1) := by
    have hmul := Nat.sub_mul d.filter 1 d.filter
    have hle := Nat.le_mul_of_pos_left d.filter hf
    omega
  rw [hsplit]
  exact ⟨index_div (by omega) _,index_mod (by omega) _⟩

theorem padded_le_last (hd : ¬ d.Fits) (hcols : 0 < d.width/d.stride) (hrows : 0 < d.height/d.stride)
    (hf : 0 < d.filter) : d.padded ≤
      d.pixelPlace (d.width/d.stride - 1) (d.height/d.stride - 1) (d.filter - 1) (d.filter - 1) 0 := by
  have hlast : ∀ {m}, 0 < m/d.stride → d.stride - 1 + (m/d.stride - 1)*d.stride + (d.filter - 1) =
      m/d.stride*d.stride + d.filter - 2 := by
    intro m hm
    have hstride : 0 < d.stride := Nat.pos_of_ne_zero fun h0 => by simp [h0] at hm
    have hmul := Nat.sub_mul (m/d.stride) 1 d.stride
    have hle := Nat.le_mul_of_pos_left d.stride hm
    omega
  have hlen : d.padded = (d.width + 2)*(d.height + 2)*d.channels := by
    rw [padded]
    ring
  rw [Fits,Nat.not_lt] at hd
  rw [pixelPlace_eq,hlast hcols,hlast hrows,hlen]
  exact Nat.mul_le_mul_right _ hd

def SameWindows (d : DwSizes) (k b : Nat) : Prop :=
  ∀ X Y V : Nat → BitVec k, (∀ t, t < d.padded → Y t = X (b*d.padded + t)) →
    ∀ i j c, d.Inside b i j c → d.window X V (b*d.imageDim) i j c = d.window Y V 0 i j c

theorem sameWindows_of_fits (hd : d.Fits) : d.SameWindows k 0 := by
  intro X Y V hXY i j c h
  refine Finset.sum_congr rfl fun fi hfi => Finset.sum_congr rfl fun fj hfj => ?_
  have hlt := pixelPlace_lt hd h.column h.row (Finset.mem_range.mp hfi) (Finset.mem_range.mp hfj)
    h.channel
  rw [Nat.zero_mul,Nat.zero_add,hXY _ hlt,Nat.zero_mul,Nat.zero_add]

theorem sameWindows_iff (hk : 0 < k) (hb : b < d.batch_size) : d.SameWindows k b ↔
    d.outputDim = 0 ∨ d.filter = 0 ∨ b = 0 ∧ d.Fits := by
  constructor
  · intro hsame
    rw [or_iff_not_imp_left,or_iff_not_imp_left]
    intro hout hfilter
    simp only [outputDim_eq,Nat.mul_eq_zero,not_or,← Nat.pos_iff_ne_zero] at hout hfilter
    obtain ⟨-,hcols,hrows,hchannels⟩ := hout
    have hplaces : 0 < d.filter*d.filter := Nat.mul_pos hfilter hfilter
    have hb₀ : b = 0 := by
      by_contra hne
      have heq := hsame (indicator k (b*d.imageDim + d.pixelPlace 0 0 (0/d.filter) (0%d.filter) 0))
        _ (indicator k (0*d.channels + 0)) (fun _ _ => rfl) 0 0 0 ⟨hb,hcols,hrows,hchannels⟩
      have hfar : b*d.imageDim < b*d.padded :=
        Nat.mul_lt_mul_of_pos_left (imageDim_lt_padded hchannels) (by omega)
      rw [window_indicator hchannels hplaces,window_indicator hchannels hplaces,Nat.zero_add,
        indicator_self,indicator_of_ne (by omega)] at heq
      exact one_ne_zero_of_pos hk heq
    refine ⟨hb₀,?_⟩
    subst hb₀
    by_contra hfits
    obtain ⟨hdiv,hmod⟩ := last_place hfilter
    have hbehind := padded_le_last hfits hcols hrows hfilter
    have heq := hsame (fun _ => 0) (indicator k (d.pixelPlace (d.width/d.stride - 1)
      (d.height/d.stride - 1) (d.filter - 1) (d.filter - 1) 0))
      (indicator k ((d.filter*d.filter - 1)*d.channels + 0)) (fun t ht => indicator_of_ne (by omega))
      _ _ 0 ⟨hb,Nat.sub_lt hcols Nat.one_pos,Nat.sub_lt hrows Nat.one_pos,hchannels⟩
    rw [window_indicator hchannels (by omega),window_indicator hchannels (by omega),hdiv,hmod,
      Nat.zero_add,indicator_self] at heq
    exact one_ne_zero_of_pos hk heq.symm
  · rintro (hout | hfilter | ⟨rfl,hd⟩)
    · intro X Y V _ i j c h
      have hlt := resultPlace_lt h
      omega
    · intro X Y V _ i j c _
      simp only [window,hfilter,Finset.range_zero,Finset.sum_empty]
    · exact sameWindows_of_fits hd

theorem dwMatrixmulMp_alone (hk : k ≤ 8*L) {net : Net 5 G} (hnet : shares5pc.Consistent net)
    {Y V : Nat → BitVec k} {y W : Shares 5 (Lint L)} (h : d.Inside b i j c)
    (hy : ∀ fi fj, fi < d.filter → fj < d.filter →
      ArithSharing shares5pc k y (d.pixelPlace i j fi fj c) (Y (d.pixelPlace i j fi fj c)))
    (hW : ∀ fi fj, fi < d.filter → fj < d.filter →
      ArithSharing shares5pc k W (d.weightPlace fi fj c) (V (d.weightPlace fi fj c)))
    (res : Shares 5 (Lint L)) (w : BitVec k) :
    ArithSharing shares5pc k (rssDwMatrixmulMp (fun p s t => res p s (b*d.imageDim + t)) y W d.width
      d.height d.channels d.filter k 1 d.stride net).1 (d.resultPlace 0 i j c)
      (w + d.window Y V 0 i j c) ↔
    ArithSharing shares5pc k res (d.resultPlace b i j c) w := by
  let alone : DwSizes := { d with batch_size := 1 }
  have hin : alone.Inside 0 i j c := ⟨Nat.one_pos,h.column,h.row,h.channel⟩
  have hplace : d.resultPlace b i j c = b*d.imageDim + d.resultPlace 0 i j c := by
    rw [resultPlace,resultPlace,imageDim]
    ring
  have hvalue := dwMatrixmulMp_value hnet hk hin (X := Y) (V := V) (x := y) (W := W)
    (fun fi fj hfi hfj => by rw [Nat.zero_mul,Nat.zero_add]; exact hy fi fj hfi hfj) hW
    (fun p s t => res p s (b*d.imageDim + t)) w
  rw [Nat.zero_mul] at hvalue
  rw [hplace]
  exact hvalue

/-- What the other images hold does not matter to image `b`, and neither does what stands behind
the padded images, exactly where its elements are read from their own places. -/
theorem dwMatrixmulMp_image_iff (hk₀ : 0 < k) (hk : k ≤ 8*L) {net net' : Net 5 G}
    (hnet : shares5pc.Consistent net) (hnet' : shares5pc.Consistent net') (d : DwSizes) {b : Nat}
    (hb : b < d.batch_size) :
    (∀ (X Y V : Nat → BitVec k) (x y W res : Shares 5 (Lint L)),
      (∀ t, t < d.batch_size*d.padded → ArithSharing shares5pc k x t (X t)) →
      (∀ t, t < d.padded → ArithSharing shares5pc k y t (Y t)) →
      (∀ t, t < d.filter*d.filter*d.channels → ArithSharing shares5pc k W t (V t)) →
      (∀ t, t < d.padded → Y t = X (b*d.padded + t)) →
      ∀ i j c, d.Inside b i j c → ∀ w,
        (ArithSharing shares5pc k (rssDwMatrixmulMp res x W d.width d.height d.channels d.filter k
          d.batch_size d.stride net).1 (d.resultPlace b i j c) w ↔
        ArithSharing shares5pc k (rssDwMatrixmulMp (fun p s t => res p s (b*d.imageDim + t)) y W
          d.width d.height d.channels d.filter k 1 d.stride net').1 (d.resultPlace 0 i j c) w)) ↔
      d.outputDim = 0 ∨ d.filter = 0 ∨ b = 0 ∧ d.Fits := by
  rw [← sameWindows_iff hk₀ hb]
  constructor
  · intro hright X Y V hXY i j c h
    have hshared := fun f => exists_arithSharing (L := L) (k := k) (H := shares5pc) (t := {0,1})
      (by decide) hk f
    obtain ⟨x,hx⟩ := hshared X
    obtain ⟨y,hy⟩ := hshared Y
    obtain ⟨W,hW⟩ := hshared V
    have hzero : ArithSharing (L := L) shares5pc k (fun _ _ _ => 0) (d.resultPlace b i j c) 0 :=
      Pattern.isSharing_zero.congr fun _ _ _ => map_zero (lowBits hk)
    have hbatch := (dwMatrixmulMp_value hnet hk h (fun _ _ _ _ => hx _) (fun _ _ _ _ => hW _) _ 0).mpr
      hzero
    have halone := (dwMatrixmulMp_alone hk hnet' h (fun _ _ _ _ => hy _) (fun _ _ _ _ => hW _) _ 0).mpr
      hzero
    have hsame := (hright X Y V x y W _ (fun t _ => hx t) (fun t _ => hy t) (fun t _ => hW t) hXY
      i j c h _).mp hbatch
    rw [zero_add] at hsame halone
    exact hsame.unique halone
  · intro hsame X Y V x y W res hx hy hW hXY i j c h w
    have hread : ∀ fi fj, fi < d.filter → fj < d.filter →
        b*d.imageDim + d.pixelPlace i j fi fj c < d.batch_size*d.padded ∧
          d.pixelPlace i j fi fj c < d.padded := by
      intro fi fj hfi hfj
      rcases (sameWindows_iff hk₀ hb).mp hsame with hout | hfilter | ⟨rfl,hd⟩
      · have hlt := resultPlace_lt h
        omega
      · omega
      · have hlt := pixelPlace_lt hd h.column h.row hfi hfj h.channel
        rw [Nat.zero_mul,Nat.zero_add]
        exact ⟨Nat.lt_of_lt_of_le hlt (Nat.le_mul_of_pos_left _ hb),hlt⟩
    have hW' : ∀ fi fj, fi < d.filter → fj < d.filter →
        ArithSharing shares5pc k W (d.weightPlace fi fj c) (V (d.weightPlace fi fj c)) :=
      fun fi fj hfi hfj => hW _ (weightPlace_lt hfi hfj h.channel)
    have hbatch := dwMatrixmulMp_value hnet hk h (fun fi fj hfi hfj => hx _ (hread fi fj hfi hfj).1)
      hW' res (w - d.window Y V 0 i j c)
    have halone := dwMatrixmulMp_alone hk hnet' h (fun fi fj hfi hfj => hy _ (hread fi fj hfi hfj).2)
      hW' res (w - d.window Y V 0 i j c)
    rw [hsame X Y V hXY i j c h,sub_add_cancel] at hbatch
    rw [sub_add_cancel] at halone
    exact hbatch.trans halone.symm

theorem dwMatrixmulMp_image_iff_first :
    let net : Net 5 Tape := fun _ _ => ⟨fun i => BitVec.ofNat 8 (3*i+1)⟩
    let x : Shares 5 (Lint 4) := fun _ _ t => if t < 9 then 1 else 2
    ∀ w, ArithSharing shares5pc 8 (rssDwMatrixmulMp (fun _ _ _ => 7) x (fun _ _ _ => 2) 1 1 1 1 8 2 1
        net).1 0 w ↔
      ArithSharing (L := 4) shares5pc 8 (rssDwMatrixmulMp (fun _ _ _ => 7) (fun _ _ _ => 1)
        (fun _ _ _ => 2) 1 1 1 1 8 1 1 net).1 0 w := by
  intro net x
  have hnet : shares5pc.Consistent net := fun _ _ _ _ _ _ _ => rfl
  have hfits : Fits ⟨1,1,1,1,2,1⟩ := fits_of_filter_le (by decide)
  refine (dwMatrixmulMp_image_iff (L := 4) (k := 8) (by decide) (by decide) hnet hnet ⟨1,1,1,1,2,1⟩
    (b := 0) (by decide)).mpr (Or.inr (Or.inr ⟨rfl,hfits⟩)) (fun t => if t < 9 then 10 else 20)
    (fun _ => 10) (fun _ => 20) x (fun _ _ _ => 1) (fun _ _ _ => 2) (fun _ _ _ => 7) (fun t _ => ?_)
    (fun _ _ => ⟨fun _ => 1,fun _ _ _ => rfl,by simp⟩)
    (fun _ _ => ⟨fun _ => 2,fun _ _ _ => rfl,by simp⟩) (fun t ht => ?_) 0 0 0
    ⟨by decide,by decide,by decide,by decide⟩
  · by_cases ht : t < 9
    · exact ⟨fun _ => 1,fun _ _ _ => by simp [x,ht],by simp [ht]⟩
    · exact ⟨fun _ => 2,fun _ _ _ => by simp [x,ht],by simp [ht]⟩
  · have ht : 0*9 + t < 9 := by
      have hpadded : padded ⟨1,1,1,1,2,1⟩ = 9 := rfl
      omega
    exact (if_pos ht).symm

/-- Of two images of one pixel only entry 1 is not zero, which belongs to the border of the
first one. The second result takes it for a pixel. -/
theorem dwMatrixmulMp_second_image :
    let net : Net 5 Tape := fun _ _ => ⟨fun i => BitVec.ofNat 8 (3*i+1)⟩
    let x : Shares 5 (Lint 4) := fun _ _ t => if t = 1 then 1 else 0
    let d : DwSizes := ⟨1,1,1,1,2,1⟩
    (∀ t, ArithSharing shares5pc 8 x t (if t = 1 then 10 else 0)) ∧ d.Inside 1 0 0 0 ∧
      (∀ t, t < d.padded → (0 : BitVec 8) = if 1*d.padded + t = 1 then 10 else 0) ∧
      ¬ ∀ w, ArithSharing shares5pc 8 (rssDwMatrixmulMp (fun _ _ _ => 0) x (fun _ _ _ => 1) 1 1 1 1
          8 2 1 net).1 (d.resultPlace 1 0 0 0) w ↔
        ArithSharing (L := 4) shares5pc 8 (rssDwMatrixmulMp (fun _ _ _ => 0) (fun _ _ _ => 0)
          (fun _ _ _ => 1) 1 1 1 1 8 1 1 net).1 (d.resultPlace 0 0 0 0) w := by
  intro net x d
  have hnet : shares5pc.Consistent net := fun _ _ _ _ _ _ _ => rfl
  have hx : ∀ t, ArithSharing shares5pc 8 x t (if t = 1 then 10 else 0) := by
    intro t
    by_cases ht : t = 1
    · exact ⟨fun _ => 1,fun _ _ _ => by simp [x,ht],by simp [ht]⟩
    · exact ⟨fun _ => 0,fun _ _ _ => by simp [x,ht],by simp [ht]⟩
  have hin : d.Inside 1 0 0 0 := ⟨by decide,by decide,by decide,by decide⟩
  have hpadded : d.padded = 9 := rfl
  refine ⟨hx,hin,fun t ht => (if_neg (by omega)).symm,fun hsame => ?_⟩
  have hzero : ∀ t, ArithSharing (L := 4) shares5pc 8 (fun _ _ _ => 0) t 0 :=
    fun _ => ⟨fun _ => 0,fun _ _ _ => rfl,by simp⟩
  have hW : ∀ t, ArithSharing (L := 4) shares5pc 8 (fun _ _ _ => 1) t 10 :=
    fun _ => ⟨fun _ => 1,fun _ _ _ => rfl,by simp⟩
  have hbatch := (dwMatrixmulMp_value (d := d) hnet (by decide) hin (X := fun t => if t = 1 then 10 else 0)
    (V := fun _ => 10) (fun _ _ _ _ => hx _) (fun _ _ _ _ => hW _) (fun _ _ _ => 0) 0).mpr (hzero _)
  have halone := (dwMatrixmulMp_alone (d := d) (by decide) hnet hin (Y := fun _ => 0) (V := fun _ => 10)
    (fun _ _ _ _ => hzero _) (fun _ _ _ _ => hW _) (fun _ _ _ => 0) 0).mpr (hzero _)
  exact absurd (((hsame _).mp hbatch).unique halone) (by decide)

end DwSizes
end RssRing
