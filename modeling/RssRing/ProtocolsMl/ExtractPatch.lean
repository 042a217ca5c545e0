import RssRing.ProtocolsMl.PadOriginal
set_option autoImplicit false

namespace RssRing

variable {L : Nat}

structure PatchSizes where
  channels : Nat
  height : Nat
  width : Nat
  ksize : Nat
  stride : Nat
  batch_size : Nat
  pad_flag : Nat

namespace PatchSizes
variable (d : PatchSizes)

def colsHigh : Int := colSize d.height d.ksize d.stride d.pad_flag
def colsWide : Int := colSize d.width d.ksize d.stride d.pad_flag
def heightCol : Nat := d.colsHigh.toNat
def widthCol : Nat := d.colsWide.toNat
def padTop : Nat := if d.pad_flag = 0 then 0 else padBefore d.height d.ksize d.stride
def padLeft : Nat := if d.pad_flag = 0 then 0 else padBefore d.width d.ksize d.stride
def outBatchSize : Nat := (d.ksize*d.ksize*d.channels*d.colsWide*d.colsHigh).toNat

/-- How often the loop over `c` goes round: also when both numbers are negative. -/
def patches : Nat := (d.colsWide*d.colsHigh).toNat

/-- What is read for place `w` of row `h` of the kernel in turn `c` of image `i`. -/
def readAt (i c h w : Nat) : Option Nat :=
  pixel d.height (d.width*d.channels)
    (((c : Int).tdiv d.colsHigh).tmod d.colsHigh*d.stride + h - d.padTop)
    ((c : Int).tmod d.colsWide*d.stride*d.channels + w - d.padLeft)
    (i*(d.channels*d.height*d.width) +
      d.width*d.channels*(d.height*(((c : Int).tdiv d.colsWide).tdiv d.colsWide).toNat))

def patchEntries : List (Nat × Option Nat) :=
  (List.range d.batch_size).flatMap fun i => (List.range d.patches).flatMap fun c =>
    (List.range d.ksize).flatMap fun h => (List.range (d.ksize*d.channels)).map fun w =>
      ((c*d.ksize + h)*d.ksize*d.channels + w + i*d.outBatchSize,d.readAt i c h w)

def patchCell (b y x ky kx c : Nat) : Nat :=
  ((y*d.widthCol + x)*d.ksize + ky)*d.ksize*d.channels + (kx*d.channels + c) + b*d.outBatchSize

/-- The element of the image that belongs there, if the image has it. -/
def patchElement (b y x ky kx c : Nat) : Option Nat :=
  let row : Int := (y*d.stride + ky : Nat) - d.padTop
  let col : Int := (x*d.stride + kx : Nat) - d.padLeft
  if (0 ≤ row ∧ row < d.height) ∧ 0 ≤ col ∧ col < d.width then
    some (imageCell d.channels d.height d.width b row.toNat col.toNat c)
  else none

def patchSource (b y x ky kx c : Nat) : Option Nat :=
  pixel d.height (d.width*d.channels)
    (((y*d.widthCol + x)/d.heightCol % d.heightCol*d.stride + ky : Nat) - d.padTop)
    ((x*d.stride*d.channels + (kx*d.channels + c) : Nat) - d.padLeft)
    (b*(d.channels*d.height*d.width) + d.width*d.channels*(d.height*(y/d.widthCol)))

structure Inside (b y x ky kx c : Nat) : Prop where
  image : b < d.batch_size
  row : y < d.heightCol
  col : x < d.widthCol
  kernelRow : ky < d.ksize
  kernelCol : kx < d.ksize
  channel : c < d.channels

theorem extractPatch_eq (numShares : Nat) (res data_im : PartyShares L) :
    extractPatch numShares res data_im d.channels d.height d.width d.ksize d.stride d.batch_size
      d.pad_flag = copyEntries numShares d.patchEntries res data_im := rfl

def sourceAt (t : Nat) : Option Nat :=
  let place := t%d.outBatchSize
  let kernel := d.ksize*(d.ksize*d.channels)
  d.readAt (t/d.outBatchSize) (place/kernel) (place%kernel/(d.ksize*d.channels))
    (place%kernel%(d.ksize*d.channels))

theorem outBatchSize_eq : d.patches*(d.ksize*(d.ksize*d.channels)) = d.outBatchSize := by
  have hsplit : (d.ksize*d.ksize*d.channels*d.colsWide*d.colsHigh : Int) =
      d.colsWide*d.colsHigh*(d.ksize*(d.ksize*d.channels) : Nat) := by
    push_cast
    ring
  rw [patches,outBatchSize,hsplit]
  rcases Int.le_total 0 (d.colsWide*d.colsHigh) with hpos | hneg
  · rw [Int.toNat_mul hpos (Int.natCast_nonneg _),Int.toNat_natCast]
  · rw [Int.toNat_of_nonpos hneg,Nat.zero_mul,Int.toNat_of_nonpos]
    exact Int.mul_nonpos_of_nonpos_of_nonneg hneg (Int.natCast_nonneg _)

theorem patchEntries_eq : d.patchEntries =
    (List.range (d.batch_size*d.outBatchSize)).map fun t => (t,d.sourceAt t) := by
  simp only [patchEntries,Loops.flatMap_range,d.outBatchSize_eq]
  refine List.map_congr_left fun t _ => ?_
  have hcell : (t%d.outBatchSize/(d.ksize*(d.ksize*d.channels))*d.ksize +
      t%d.outBatchSize%(d.ksize*(d.ksize*d.channels))/(d.ksize*d.channels))*d.ksize*d.channels +
      t%d.outBatchSize%(d.ksize*(d.ksize*d.channels))%(d.ksize*d.channels) +
      t/d.outBatchSize*d.outBatchSize = t := by
    rw [Nat.mul_assoc,Nat.add_mul,Nat.add_assoc (_*(d.ksize*d.channels)),Nat.div_add_mod',
      Nat.mul_assoc,Nat.div_add_mod',Nat.add_comm,Nat.div_add_mod']
  rw [hcell]
  rfl

variable {d} {b y x ky kx c : Nat}

theorem patches_eq (hrow : 0 < d.heightCol) (hcol : 0 < d.widthCol) :
    d.colsHigh = d.heightCol ∧ d.colsWide = d.widthCol ∧ d.patches = d.widthCol*d.heightCol := by
  have hhigh : d.colsHigh = d.heightCol := (Int.toNat_of_nonneg (Int.lt_toNat.mp hrow).le).symm
  have hwide : d.colsWide = d.widthCol := (Int.toNat_of_nonneg (Int.lt_toNat.mp hcol).le).symm
  refine ⟨hhigh,hwide,?_⟩
  rw [patches,hhigh,hwide,← Int.natCast_mul,Int.toNat_natCast]

theorem readAt_eq (hrow : 0 < d.heightCol) (hcol : 0 < d.widthCol) (i c h w : Nat) :
    d.readAt i c h w = pixel d.height (d.width*d.channels)
      ((c/d.heightCol % d.heightCol*d.stride + h : Nat) - d.padTop)
      ((c % d.widthCol*d.stride*d.channels + w : Nat) - d.padLeft)
      (i*(d.channels*d.height*d.width) +
        d.width*d.channels*(d.height*(c/d.widthCol/d.widthCol))) := by
  obtain ⟨hhigh,hwide,-⟩ := patches_eq hrow hcol
  simp only [readAt,hhigh,hwide,← Int.ofNat_tdiv,← Int.ofNat_tmod,Int.toNat_natCast,Nat.cast_add,
    Nat.cast_mul]

theorem patchCell_lt (h : d.Inside b y x ky kx c) :
    d.patchCell b y x ky kx c < d.batch_size*d.outBatchSize ∧
      d.sourceAt (d.patchCell b y x ky kx c) = d.patchSource b y x ky kx c := by
  have hrow : 0 < d.heightCol := Nat.zero_lt_of_lt h.row
  have hcolumn : 0 < d.widthCol := Nat.zero_lt_of_lt h.col
  obtain ⟨-,-,hpatches⟩ := patches_eq hrow hcolumn
  have hpatch : y*d.widthCol + x < d.patches := by
    rw [hpatches,Nat.mul_comm d.widthCol]
    exact index_lt h.row h.col
  have hcol := index_lt h.kernelCol h.channel
  have hkernel := index_lt h.kernelRow hcol
  have hplace := index_lt hpatch hkernel
  rw [d.outBatchSize_eq] at hplace
  have hcell : d.patchCell b y x ky kx c = b*d.outBatchSize +
      ((y*d.widthCol + x)*(d.ksize*(d.ksize*d.channels)) +
        (ky*(d.ksize*d.channels) + (kx*d.channels + c))) := by
    rw [patchCell]
    ring
  rw [hcell]
  refine ⟨index_lt h.image hplace,?_⟩
  simp only [sourceAt,readAt_eq hrow hcolumn,index_div hplace,index_mod hplace,index_div hkernel,
    index_mod hkernel,index_div hcol,index_mod hcol,index_div h.col,index_mod h.col]
  rfl

theorem pixel_place {channels height width b c : Nat} (hc : c < channels) (row col : Int) :
    pixel height (width*channels) row (col*channels + c) (b*(channels*height*width)) =
      if (0 ≤ row ∧ row < height) ∧ 0 ≤ col ∧ col < width then
        some (imageCell channels height width b row.toNat col.toNat c) else none := by
  split
  · rename_i hin
    obtain ⟨⟨hr0,hrh⟩,hq0,hqw⟩ := hin
    obtain ⟨r,rfl⟩ := Int.eq_ofNat_of_zero_le hr0
    obtain ⟨q,rfl⟩ := Int.eq_ofNat_of_zero_le hq0
    have hq : q < width := by omega
    have hcol : ((q : Nat) : Int)*channels + c = (q*channels + c : Nat) := by push_cast; ring
    rw [hcol,pixel_some (by omega) (index_lt hq hc),imageCell]
    simp only [Int.toNat_natCast]
    congr 1
    ring
  · rename_i hout
    apply pixel_none
    by_cases hr : 0 ≤ row ∧ row < height
    · have hq : col < 0 ∨ (width : Int) ≤ col := by omega
      rcases hq with hq | hq
      · have hmul : col*channels ≤ -1*channels := Int.mul_le_mul_of_nonneg_right (by omega) (by omega)
        right; left; omega
      · have hmul := Int.mul_le_mul_of_nonneg_right hq (show (0 : Int) ≤ channels by omega)
        right; right; right
        push_cast
        omega
    · omega

theorem pixel_mem {height rowLength start t : Nat} {row col : Int}
    (h : t ∈ pixel height rowLength row col start) :
    col.toNat < rowLength ∧ t = start + col.toNat + rowLength*row.toNat := by
  rw [pixel] at h
  split at h
  · cases h
  · exact ⟨by omega,(Option.some.inj h).symm⟩

theorem padBefore_lt {size ksize stride : Nat} (hk : 0 < ksize) : padBefore size ksize stride < ksize := by
  rw [padBefore]
  split
  · exact hk
  · split <;> omega

theorem padTop_lt (d : PatchSizes) (hk : 0 < d.ksize) : d.padTop < d.ksize := by
  rw [padTop]
  split
  · exact hk
  · exact padBefore_lt hk

theorem padLeft_lt (d : PatchSizes) (hk : 0 < d.ksize) : d.padLeft < d.ksize := by
  rw [padLeft]
  split
  · exact hk
  · exact padBefore_lt hk

theorem colSize_stride {size ksize stride pad_flag y : Nat} (hk : 0 < ksize) (hs : 0 < stride)
    (hy : y < (colSize size ksize stride pad_flag).toNat) (hsize : 0 < size ∨ 0 < y) :
    y*stride < size := by
  rw [colSize] at hy
  split at hy
  · rcases Nat.lt_or_ge size ksize with hlt | hge
    · have hneg : ((size : Int) - ksize) = -((ksize - size : Nat) : Int) := by omega
      have hquot : (0 : Int) ≤ ((ksize - size : Nat) : Int).tdiv stride :=
        Int.tdiv_nonneg (by omega) (by omega)
      rw [hneg,Int.neg_tdiv] at hy
      have hzero : y = 0 := by omega
      subst hzero
      omega
    · have hpos : ((size : Int) - ksize) = ((size - ksize : Nat) : Int) := by omega
      rw [hpos,← Int.ofNat_tdiv] at hy
      have hmul := (Nat.le_div_iff_mul_le hs).mp (show y ≤ (size - ksize)/stride by omega)
      omega
  · rw [Int.toNat_natCast] at hy
    have hmul := (Nat.le_div_iff_mul_le hs).mp (show y+1 ≤ (size + stride - 1)/stride from hy)
    rw [Nat.succ_mul] at hmul
    omega

/-- The patches have no cell, or there is nothing to write but zeros. -/
def Trivial (d : PatchSizes) : Prop :=
  d.batch_size = 0 ∨ d.channels = 0 ∨ d.ksize = 0 ∨ d.width = 0 ∨ d.heightCol = 0 ∨ d.widthCol = 0

/-- The sizes for which the row of a patch is found with the number of rows in the place of
the number of columns, and the padding does not have to be counted in channels. -/
def Sound (d : PatchSizes) : Prop :=
  (d.heightCol = d.widthCol ∨ d.heightCol = 1) ∧ (d.channels = 1 ∨ d.padLeft = 0)

variable {d : PatchSizes} {b y x ky kx c : Nat}

theorem patchSource_of_sound (hd : d.Sound) (h : d.Inside b y x ky kx c) :
    d.patchSource b y x ky kx c = d.patchElement b y x ky kx c := by
  have hrow : (y*d.widthCol + x)/d.heightCol % d.heightCol = y ∧ y/d.widthCol = 0 := by
    have hy := h.row
    rcases hd.1 with hsame | hone
    · rw [hsame] at hy ⊢
      rw [index_div h.col,Nat.mod_eq_of_lt hy,Nat.div_eq_of_lt hy]
      exact ⟨rfl,rfl⟩
    · have hzero : y = 0 := by omega
      rw [hone,hzero,Nat.mod_one,Nat.zero_div]
      exact ⟨rfl,rfl⟩
  have hpad : d.padLeft*d.channels = d.padLeft := by
    rcases hd.2 with hc | hp
    · rw [hc,Nat.mul_one]
    · rw [hp,Nat.zero_mul]
  have hcol : ((x*d.stride*d.channels + (kx*d.channels + c) : Nat) : Int) - d.padLeft =
      (((x*d.stride + kx : Nat) : Int) - d.padLeft)*d.channels + c := by
    nth_rewrite 1 [← hpad]
    push_cast
    ring
  rw [patchSource,hrow.1,hrow.2,Nat.mul_zero,Nat.mul_zero,Nat.add_zero,hcol,pixel_place h.channel]
  rfl

/-- Where a patch begins inside the image, the place of the kernel that falls on its first
element tells which element is read. -/
theorem start_of_right (hb : 0 < d.batch_size) (hk : 0 < d.ksize) (hc : 0 < d.channels)
    (hy : y < d.heightCol) (hx : x < d.widthCol) (hrow : y*d.stride < d.height)
    (hcol : x*d.stride < d.width)
    (hright : ∀ b y x ky kx c, d.Inside b y x ky kx c →
      d.patchSource b y x ky kx c = d.patchElement b y x ky kx c) :
    x*d.stride*d.channels + d.padLeft*d.channels - d.padLeft < d.width*d.channels ∧
      (y*d.stride*d.width + x*d.stride)*d.channels =
        d.width*d.channels*(d.height*(y/d.widthCol)) +
          (x*d.stride*d.channels + d.padLeft*d.channels - d.padLeft) +
          d.width*d.channels*((y*d.widthCol + x)/d.heightCol % d.heightCol*d.stride) := by
  have h := hright 0 y x d.padTop d.padLeft 0 ⟨hb,hy,hx,padTop_lt d hk,padLeft_lt d hk,hc⟩
  have hr : ((y*d.stride + d.padTop : Nat) : Int) - d.padTop = (y*d.stride : Nat) := by omega
  have hq : ((x*d.stride + d.padLeft : Nat) : Int) - d.padLeft = (x*d.stride : Nat) := by omega
  have helement : d.patchElement 0 y x d.padTop d.padLeft 0 =
      some ((y*d.stride*d.width + x*d.stride)*d.channels) := by
    rw [patchElement]
    simp only [hr,hq]
    rw [if_pos (by omega),Int.toNat_natCast,Int.toNat_natCast,imageCell,Nat.zero_mul,Nat.zero_add,
      Nat.add_zero]
  rw [helement,patchSource] at h
  obtain ⟨hlt,hplace⟩ := pixel_mem h
  have hA : (((y*d.widthCol + x)/d.heightCol % d.heightCol*d.stride + d.padTop : Nat) - d.padTop :
      Int).toNat = (y*d.widthCol + x)/d.heightCol % d.heightCol*d.stride := by omega
  have hpad : ((x*d.stride*d.channels + (d.padLeft*d.channels + 0) : Nat) - d.padLeft : Int).toNat =
      x*d.stride*d.channels + d.padLeft*d.channels - d.padLeft := by omega
  rw [hpad] at hlt
  rw [hA,hpad,Nat.zero_mul,Nat.zero_add] at hplace
  exact ⟨hlt,hplace⟩

/-- There is a patch, and every patch that begins inside the image has its first element from
the right place. -/
structure StartsRight (d : PatchSizes) : Prop where
  stride : 0 < d.stride
  channels : 0 < d.channels
  ksize : 0 < d.ksize
  width : 0 < d.width
  rows : 0 < d.heightCol
  cols : 0 < d.widthCol
  start : ∀ y x, y < d.heightCol → x < d.widthCol → y*d.stride < d.height →
    x*d.stride*d.channels + d.padLeft*d.channels - d.padLeft < d.width*d.channels ∧
      (y*d.stride*d.width + x*d.stride)*d.channels =
        d.width*d.channels*(d.height*(y/d.widthCol)) +
          (x*d.stride*d.channels + d.padLeft*d.channels - d.padLeft) +
          d.width*d.channels*((y*d.widthCol + x)/d.heightCol % d.heightCol*d.stride)

theorem startsRight_of_right (hs : 0 < d.stride) (hne : ¬ d.Trivial)
    (hright : ∀ b y x ky kx c, d.Inside b y x ky kx c →
      d.patchSource b y x ky kx c = d.patchElement b y x ky kx c) : d.StartsRight := by
  simp only [Trivial,not_or] at hne
  obtain ⟨hb,hc,hk,hw,hhc,hwc⟩ := hne
  refine ⟨hs,by omega,by omega,by omega,by omega,by omega,fun y x hy hx hr => ?_⟩
  exact start_of_right (by omega) (by omega) (by omega) hy hx hr
    (colSize_stride (by omega) hs hx (.inl (by omega))) hright

namespace StartsRight
variable (h : d.StartsRight)
include h

theorem row_lt (hy : y < d.heightCol) (hin : 0 < d.height ∨ 0 < y) : y*d.stride < d.height :=
  colSize_stride h.ksize h.stride hy hin

theorem col_lt (hx : x < d.widthCol) : x*d.stride < d.width :=
  colSize_stride h.ksize h.stride hx (.inl h.width)

theorem cols_le (htwo : 2 ≤ d.heightCol) : d.widthCol ≤ d.heightCol := by
  by_contra hlt
  have hlt : d.heightCol < d.widthCol := by omega
  have hheight : 0 < d.height := by
    have := h.row_lt htwo (.inr Nat.one_pos)
    omega
  obtain ⟨-,hplace⟩ := h.start 0 d.heightCol h.rows hlt (h.row_lt h.rows (.inl hheight))
  have hone : d.heightCol/d.heightCol = 1 := Nat.div_self h.rows
  simp only [Nat.zero_mul,Nat.zero_add,Nat.zero_div,Nat.mul_zero,hone,Nat.mod_eq_of_lt htwo,
    Nat.one_mul] at hplace
  have hfirst := Nat.mul_lt_mul_of_pos_right (h.col_lt hlt) h.channels
  have hsecond := Nat.le_mul_of_pos_right (d.width*d.channels) h.stride
  omega

theorem rows_le (htwo : 2 ≤ d.heightCol) : d.heightCol ≤ d.widthCol := by
  by_contra hgt
  have hinside : 1*d.stride < d.height := h.row_lt htwo (.inr Nat.one_pos)
  obtain ⟨hlast,hplace⟩ := h.start 1 0 htwo h.cols hinside
  have hzero : (1*d.widthCol + 0)/d.heightCol = 0 := Nat.div_eq_of_lt (by omega)
  have hwanted : d.stride*d.width*d.channels = d.width*d.channels*d.stride := by ring
  rw [hzero] at hplace
  simp only [Nat.zero_mod,Nat.zero_mul,Nat.mul_zero,Nat.add_zero,Nat.zero_add,Nat.one_mul,
    hwanted] at hplace hlast
  have hsecond := Nat.le_mul_of_pos_right (d.width*d.channels) h.stride
  by_cases hone : d.widthCol = 1
  · have hbelow := Nat.mul_lt_mul_of_pos_left hinside (Nat.mul_pos h.width h.channels)
    rw [hone,Nat.div_self Nat.one_pos,Nat.mul_one] at hplace
    rw [Nat.one_mul] at hbelow
    omega
  · have hcols := h.cols
    rw [Nat.div_eq_of_lt (show 1 < d.widthCol by omega),Nat.mul_zero,Nat.mul_zero,
      Nat.zero_add] at hplace
    omega

theorem unpadded : d.channels = 1 ∨ d.padLeft = 0 := by
  by_contra hpad
  have hflag : d.pad_flag ≠ 0 := fun h => hpad (.inr (by rw [padLeft,if_pos h]))
  have hheight : 0 < d.height := by
    by_contra hzero
    refine Nat.ne_of_gt h.rows ?_
    have hksize := h.ksize
    have hstride := h.stride
    rw [heightCol,colsHigh,colSize,if_neg hflag,Int.toNat_natCast,show d.height = 0 by omega,Nat.zero_add]
    exact Nat.div_eq_of_lt (by omega)
  obtain ⟨-,hplace⟩ := h.start 0 0 h.rows h.cols (h.row_lt h.rows (.inl hheight))
  have hzero : (0*d.widthCol + 0)/d.heightCol = 0 := by rw [Nat.zero_mul,Nat.zero_div]
  rw [hzero,Nat.zero_mod,Nat.zero_div] at hplace
  simp only [Nat.zero_mul,Nat.mul_zero,Nat.zero_add,Nat.add_zero] at hplace
  have hchannels := h.channels
  have htwo := Nat.mul_le_mul_left d.padLeft (show 2 ≤ d.channels by omega)
  omega

theorem sound : d.Sound := by
  refine ⟨?_,h.unpadded⟩
  have hrows := h.rows
  by_cases htwo : 2 ≤ d.heightCol
  · exact .inl (Nat.le_antisymm (h.rows_le htwo) (h.cols_le htwo))
  · exact .inr (by omega)

end StartsRight

/-- What is read for every cell is what belongs there exactly for these sizes. -/
theorem patchSource_iff (hs : 0 < d.stride) :
    (∀ b y x ky kx c, d.Inside b y x ky kx c →
      d.patchSource b y x ky kx c = d.patchElement b y x ky kx c) ↔ d.Trivial ∨ d.Sound := by
  constructor
  · intro hright
    by_cases hne : d.Trivial
    · exact .inl hne
    · exact .inr (startsRight_of_right hs hne hright).sound
  · rintro (htriv | hsound) b y x ky kx c h
    · have hb := h.image
      have hy := h.row
      have hx := h.col
      have hk := h.kernelRow
      have hc := h.channel
      have hwidth : d.width = 0 := by
        simp only [Trivial] at htriv
        omega
      rw [patchSource,patchElement,hwidth,Nat.zero_mul]
      rw [pixel_none (by omega),if_neg (by omega)]
    · exact patchSource_of_sound hsound h

theorem eq_of_elim (hL : 0 < L) {e e' : Option Nat}
    (h : ∀ data_im : PartyShares L, e.elim 0 (data_im 0) = e'.elim 0 (data_im 0)) : e = e' := by
  have hone : (1 : Lint L) ≠ 0 := one_ne_zero_of_pos (by omega)
  cases e with
  | none =>
    cases e' with
    | none => rfl
    | some t => exact absurd (h fun _ _ => 1) (Ne.symm hone)
  | some t =>
    have ht := h fun _ i => if i = t then 1 else 0
    cases e' with
    | none => exact absurd (by simpa using ht) hone
    | some t' =>
      by_cases heq : t' = t
      · rw [heq]
      · exact absurd (by simpa [heq] using ht) hone

/-- The patches hold what belongs there, for all images. -/
theorem extractPatch_iff (hL : 0 < L) {numShares : Nat} (hn : 0 < numShares) (hs : 0 < d.stride) :
    d.patchEntries.map Prod.fst = List.range (d.batch_size*d.outBatchSize) ∧
    ((∀ (res data_im : PartyShares L) (s b y x ky kx c : Nat), s < numShares →
      d.Inside b y x ky kx c →
      extractPatch numShares res data_im d.channels d.height d.width d.ksize d.stride d.batch_size
        d.pad_flag s (d.patchCell b y x ky kx c) =
        (d.patchElement b y x ky kx c).elim 0 (data_im s)) ↔ d.Trivial ∨ d.Sound) := by
  constructor
  · rw [patchEntries_eq,List.map_map]
    exact List.map_id _
  · have hread : ∀ (res data_im : PartyShares L) (s b y x ky kx c : Nat), s < numShares →
        d.Inside b y x ky kx c →
        extractPatch numShares res data_im d.channels d.height d.width d.ksize d.stride d.batch_size
          d.pad_flag s (d.patchCell b y x ky kx c) =
          (d.patchSource b y x ky kx c).elim 0 (data_im s) := by
      intro res data_im s b y x ky kx c hs h
      obtain ⟨hlt,hsource⟩ := patchCell_lt h
      rw [extractPatch_eq,patchEntries_eq,copyEntries_range hs,if_pos hlt,hsource]
    rw [← patchSource_iff hs]
    constructor
    · intro hright b y x ky kx c h
      refine eq_of_elim hL fun data_im => ?_
      rw [← hread (fun _ _ => 0) data_im 0 b y x ky kx c hn h,
        hright (fun _ _ => 0) data_im 0 b y x ky kx c hn h]
    · intro hright res data_im s b y x ky kx c hs h
      rw [hread res data_im s b y x ky kx c hs h,hright b y x ky kx c h]

theorem extractPatch_iff_square :
    let d : PatchSizes := ⟨1,2,2,3,1,1,1⟩
    let res := extractPatch (L := 4) 2 (fun _ _ => 7) (fun _ i => BitVec.ofNat 32 (i+5)) 1 2 2 3 1 1 1
    res 1 (d.patchCell 0 1 1 0 0 0) = 5 ∧ res 1 (d.patchCell 0 1 1 2 2 0) = 0 := by
  intro d res
  have hpatch := (extractPatch_iff (L := 4) (d := d) (by decide) (Nat.succ_pos 1) (by decide)).2.mpr
    (.inr ⟨.inl rfl,.inl rfl⟩) (fun _ _ => 7) fun _ i => BitVec.ofNat 32 (i+5)
  exact ⟨(hpatch 1 0 1 1 0 0 0 (by decide) (by constructor <;> decide)).trans (by decide),
    (hpatch 1 0 1 1 2 2 0 (by decide) (by constructor <;> decide)).trans (by decide)⟩

/-- An image of one place with two channels: the middle of the kernel falls on the first
channel and gets the second. -/
theorem extractPatch_two_channels :
    let d : PatchSizes := ⟨2,1,1,3,1,1,1⟩
    let data_im : PartyShares 4 := fun _ i => BitVec.ofNat 32 (i+5)
    let res := extractPatch 2 (fun _ _ => 0) data_im 2 1 1 3 1 1 1
    ¬ ∀ s b y x ky kx c, s < 2 → d.Inside b y x ky kx c →
      res s (d.patchCell b y x ky kx c) = (d.patchElement b y x ky kx c).elim 0 (data_im s) := by
  intro d data_im res h
  have hmiddle := h 0 0 0 0 1 1 0 (by decide) (by constructor <;> decide)
  have hread : res 0 (d.patchCell 0 0 0 1 1 0) = 6 := by decide
  have hwanted : (d.patchElement 0 0 0 1 1 0).elim 0 (data_im 0) = 5 := by decide
  rw [hread,hwanted] at hmiddle
  exact absurd hmiddle (by decide)

end PatchSizes
end RssRing
