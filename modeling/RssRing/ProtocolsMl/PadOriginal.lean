import RssRing.ProtocolsMl.NeuralOps
set_option autoImplicit false

namespace RssRing

variable {L : Nat}

/-- Element `c` at row `r` and column `q` of image `b`, where the channels of a place stand
one after the other. -/
def imageCell (channels height width b r q c : Nat) : Nat :=
  b*(channels*height*width) + (r*width + q)*channels + c

def padEntries (channels height width batch_size : Nat) : List (Nat × Option Nat) :=
  let height_col := height + 2
  let width_col := width + 2
  let in_batch_size := channels*height*width
  let out_batch_size := channels*height_col*width_col
  (List.range batch_size).flatMap fun i =>
    (List.range height_col).flatMap fun h => (List.range (width_col*channels)).map fun w =>
      (h*width_col*channels + w + i*out_batch_size,
        pixel height (width*channels) (h - 1) (w - channels) (i*in_batch_size))

/-- The writes of `pad_original` in the arithmetic of the source: `im_row`, `im_col` and the places are
`uint`, and the test `im_row < 0` never holds. The loop over `c` has one turn. -/
def padEntriesUint (channels height width stride batch_size : Nat) : List (Nat × Option Nat) :=
  let height_col := height + 2
  let width_col := width + 2
  let in_batch_size := uint (channels*height*width : Nat)
  let out_batch_size := uint (channels*height_col*width_col : Nat)
  (List.range batch_size).flatMap fun i => (List.range 1).flatMap fun c =>
    let w_offset := c % width_col
    let h_offset := c/height_col % height_col
    let c_im := c/width_col/width_col
    (List.range height_col).flatMap fun h => (List.range (width_col*channels)).map fun w =>
      let im_row := uint ((uint (h_offset*stride + h : Nat) : Int) - 1)
      let im_col := uint ((uint (w_offset*stride*channels + w : Nat) : Int) - channels)
      let col_index := uint ((c*height_col + h)*width_col*channels + w : Nat)
      (uint (col_index + i*out_batch_size : Nat),
        if height ≤ im_row ∨ width*channels ≤ im_col then none
        else some (uint (i*in_batch_size + im_col + width*channels*(im_row + height*c_im) : Nat)))

section Pixel
variable {height rowLength start : Nat} {im_row im_col : Int}

theorem pixel_none (h : im_row < 0 ∨ im_col < 0 ∨ height ≤ im_row ∨ rowLength ≤ im_col) :
    pixel height rowLength im_row im_col start = none := if_pos h

theorem pixel_some {r q : Nat} (hr : r < height) (hq : q < rowLength) :
    pixel height rowLength r q start = some (start + q + rowLength*r) := by
  rw [pixel,if_neg (by omega)]
  rfl

end Pixel

section Layout
variable {channels height width batch_size b r q c : Nat}

theorem imageCell_lt (hb : b < batch_size) (hr : r < height) (hq : q < width) (hc : c < channels) :
    imageCell channels height width b r q c < batch_size*(channels*height*width) := by
  have hplace := index_lt (index_lt hr hq) hc
  have hlen : height*width*channels = channels*height*width := by ring
  rw [imageCell,Nat.add_assoc]
  exact index_lt hb (by omega)

theorem exists_imageCell {x : Nat} (hx : x < batch_size*(channels*height*width)) :
    ∃ b r q c, (b < batch_size ∧ r < height ∧ q < width ∧ c < channels) ∧
      x = imageCell channels height width b r q c := by
  obtain ⟨b,y,hb,hy,rfl⟩ := exists_index hx
  rw [show channels*height*width = height*width*channels by ring] at hy
  obtain ⟨z,c,hz,hc,rfl⟩ := exists_index hy
  obtain ⟨r,q,hr,hq,rfl⟩ := exists_index hz
  exact ⟨b,r,q,c,⟨hb,hr,hq,hc⟩,(Nat.add_assoc ..).symm⟩

theorem imageCell_div (hr : r < height) (hq : q < width) (hc : c < channels) :
    imageCell channels height width b r q c/(channels*height*width) = b ∧
      imageCell channels height width b r q c%(channels*height*width) =
        r*(width*channels) + (q*channels + c) := by
  have hplace := index_lt (index_lt hr hq) hc
  have hlen : height*width*channels = channels*height*width := by ring
  have hsplit : (r*width + q)*channels + c = r*(width*channels) + (q*channels + c) := by ring
  rw [imageCell,Nat.add_assoc]
  exact ⟨index_div (by omega) b,(index_mod (by omega) b).trans hsplit⟩

end Layout

section Pad
variable {channels height width batch_size : Nat}

theorem padOriginal_eq (numShares : Nat) (res data_im : PartyShares L) :
    padOriginal numShares res data_im channels height width batch_size =
      copyEntries numShares (padEntries channels height width batch_size) res data_im := rfl

def padSource (channels height width x : Nat) : Option Nat :=
  let out_batch_size := channels*(height+2)*(width+2)
  let rowLength := (width+2)*channels
  pixel height (width*channels) ((x%out_batch_size/rowLength : Nat) - 1)
    ((x%out_batch_size%rowLength : Nat) - channels) (x/out_batch_size*(channels*height*width))

theorem padEntries_eq (channels height width batch_size : Nat) :
    padEntries channels height width batch_size =
      (List.range (batch_size*(channels*(height+2)*(width+2)))).map fun x =>
        (x,padSource channels height width x) := by
  have hlen : (height+2)*((width+2)*channels) = channels*(height+2)*(width+2) := by ring
  have hrows := fun i => Loops.flatMap_range (height+2) ((width+2)*channels) fun h w =>
    (h*(width+2)*channels + w + i*(channels*(height+2)*(width+2)),
      pixel height (width*channels) (h - 1) (w - channels) (i*(channels*height*width)))
  simp only [padEntries,hrows,hlen]
  rw [Loops.flatMap_range]
  refine List.map_congr_left fun x _ => ?_
  have hcell : x%(channels*(height+2)*(width+2))/((width+2)*channels)*(width+2)*channels +
      x%(channels*(height+2)*(width+2))%((width+2)*channels) +
      x/(channels*(height+2)*(width+2))*(channels*(height+2)*(width+2)) = x := by
    rw [Nat.mul_assoc,Nat.div_add_mod',Nat.add_comm,Nat.div_add_mod']
  rw [hcell]
  rfl

variable {b r q c : Nat}

theorem padSource_cell (hr : r < height+2) (hq : q < width+2) (hc : c < channels) :
    padSource channels height width (imageCell channels (height+2) (width+2) b r q c) =
      if (1 ≤ r ∧ r ≤ height) ∧ 1 ≤ q ∧ q ≤ width then
        some (imageCell channels height width b (r-1) (q-1) c) else none := by
  obtain ⟨himage,hplace⟩ := imageCell_div (b := b) hr hq hc
  have hcol := index_lt hq hc
  rw [padSource,himage,hplace,index_div hcol,index_mod hcol]
  split
  · rename_i hin
    obtain ⟨⟨hr1,hrh⟩,hq1,hqw⟩ := hin
    obtain ⟨r,rfl⟩ : ∃ r', r = r'+1 := ⟨r-1,by omega⟩
    obtain ⟨q,rfl⟩ : ∃ q', q = q'+1 := ⟨q-1,by omega⟩
    have hrow : ((r+1 : Nat) : Int) - 1 = (r : Nat) := by omega
    have hcol : (((q+1)*channels + c : Nat) : Int) - channels = (q*channels + c : Nat) := by
      rw [Nat.succ_mul]; omega
    rw [hrow,hcol,pixel_some (by omega) (index_lt (by omega) hc),imageCell]
    congr 1
    simp only [Nat.add_sub_cancel]
    ring
  · rename_i hout
    apply pixel_none
    rcases Nat.eq_zero_or_pos q with rfl | hq0
    · right; left; omega
    · by_cases hqw : q ≤ width
      · have hrow : r = 0 ∨ height < r := by omega
        omega
      · have hmul := Nat.mul_le_mul_right channels (show width+1 ≤ q by omega)
        rw [Nat.succ_mul] at hmul
        right; right; right
        omega

/-- One place below the first row or column is `2^32` less a little, which no image reaches. -/
theorem pixel_uint {rowLength start h w : Nat} (hh : h < 4294967296) (hw : w < 4294967296)
    (hheight : height < 4294967296) (hrow : rowLength + channels < 4294967296)
    (hstart : start + rowLength*height < 4294967296) :
    (if height ≤ uint ((uint h : Int) - 1) ∨ rowLength ≤ uint ((uint w : Int) - channels) then none
      else some (uint (start + uint ((uint w : Int) - channels) +
        rowLength*uint ((uint h : Int) - 1) : Nat))) =
      pixel height rowLength (h - 1) (w - channels) start := by
  rw [uint_of_lt hh,uint_of_lt hw]
  rcases Nat.eq_zero_or_pos h with rfl | hpos
  · have hwrap : height ≤ uint ((0 : Nat) - 1) := by simp only [uint]; omega
    rw [if_pos (.inl hwrap),pixel_none (.inl (by omega))]
  · obtain ⟨h,rfl⟩ : ∃ h', h = h'+1 := ⟨h-1,by omega⟩
    have him : ((h+1 : Nat) : Int) - 1 = (h : Nat) := by omega
    by_cases hcol : w < channels
    · have hwrap : rowLength ≤ uint ((w : Int) - channels) := by simp only [uint]; omega
      rw [if_pos (.inr hwrap),pixel_none (.inr (.inl (by omega)))]
    · obtain ⟨q,rfl⟩ : ∃ q, w = q+channels := ⟨w-channels,by omega⟩
      have hcol : ((q + channels : Nat) : Int) - channels = (q : Nat) := by omega
      rw [him,hcol,uint_of_lt (show h < 4294967296 by omega),
        uint_of_lt (show q < 4294967296 by omega)]
      by_cases hin : h < height ∧ q < rowLength
      · have hplace : start + q + rowLength*h < start + rowLength*height := by
          have hmul := Nat.mul_le_mul_left rowLength (show h+1 ≤ height by omega)
          rw [Nat.mul_succ] at hmul
          omega
        rw [if_neg (by omega),pixel_some hin.1 hin.2,uint_of_lt (by omega)]
      · rw [if_pos (by omega),pixel_none (by omega)]

theorem padEntriesUint_eq (stride : Nat)
    (hfit : batch_size*(channels*(height+2)*(width+2)) < 4294967296) :
    padEntriesUint channels height width stride batch_size =
      padEntries channels height width batch_size := by
  have hlen : (height+2)*((width+2)*channels) = channels*(height+2)*(width+2) := by ring
  simp only [padEntriesUint,padEntries,List.range_one,List.flatMap_singleton,Nat.zero_mod,
    Nat.zero_div,Nat.zero_mul,Nat.mul_zero,Nat.zero_add,Nat.add_zero]
  refine List.flatMap_congr fun i hi => List.flatMap_congr fun h hh => List.map_congr_left fun w hw => ?_
  simp only [List.mem_range] at hi hh hw
  have hchannels : 0 < channels := Nat.pos_of_ne_zero fun h0 => by simp [h0] at hw
  have hrowlen : (width+2)*channels = width*channels + channels + channels := by ring
  have hplace := index_lt hh hw
  have hcell := index_lt hi (hlen ▸ hplace)
  have hout : channels*(height+2)*(width+2) < 4294967296 :=
    Nat.lt_of_le_of_lt (Nat.le_mul_of_pos_left _ (by omega)) hfit
  have hin : channels*height*width ≤ channels*(height+2)*(width+2) :=
    Nat.mul_le_mul (Nat.mul_le_mul_left _ (by omega)) (by omega)
  have hheight : height + 2 ≤ channels*(height+2)*(width+2) := by
    rw [← hlen]
    exact Nat.le_mul_of_pos_right _ (Nat.mul_pos (by omega) hchannels)
  have hwidth : (width+2)*channels ≤ channels*(height+2)*(width+2) := by
    rw [← hlen]
    exact Nat.le_mul_of_pos_left _ (by omega)
  have hstart : i*(channels*height*width) + width*channels*height < 4294967296 := by
    have himage : width*channels*height = channels*height*width := by ring
    have hmul := Nat.mul_le_mul_right (channels*height*width) (show i+1 ≤ batch_size from hi)
    have hall := Nat.mul_le_mul_left batch_size hin
    rw [Nat.succ_mul] at hmul
    omega
  rw [uint_of_lt hout,uint_of_lt (Nat.lt_of_le_of_lt hin hout)]
  have hindex : h*(width+2)*channels + w + i*(channels*(height+2)*(width+2)) < 4294967296 := by
    rw [Nat.mul_assoc]
    omega
  rw [uint_of_lt (show h*(width+2)*channels + w < 4294967296 by omega),uint_of_lt hindex,
    pixel_uint (by omega) (by omega) (by omega) (by omega) hstart]

/-- Every cell of the padded images is written once: the inner ones with the image in its
order, those at the border with zero. -/
theorem padOriginal_family (channels height width batch_size : Nat) :
    (padEntries channels height width batch_size).map Prod.fst =
      List.range (batch_size*(channels*(height+2)*(width+2))) ∧
    (∀ e ∈ padEntries channels height width batch_size, ∀ t ∈ e.2,
      t < batch_size*(channels*height*width)) ∧
    (∀ (numShares : Nat) (res data_im : PartyShares L) (s b r q c : Nat), s < numShares →
      b < batch_size → r < height+2 → q < width+2 → c < channels →
      padOriginal numShares res data_im channels height width batch_size s
        (imageCell channels (height+2) (width+2) b r q c) =
        if (1 ≤ r ∧ r ≤ height) ∧ 1 ≤ q ∧ q ≤ width then
          data_im s (imageCell channels height width b (r-1) (q-1) c) else 0) ∧
    ∀ stride, batch_size*(channels*(height+2)*(width+2)) < 4294967296 →
      padEntriesUint channels height width stride batch_size =
        padEntries channels height width batch_size := by
  refine ⟨?_,?_,?_,fun stride hfit => padEntriesUint_eq stride hfit⟩
  · rw [padEntries_eq,List.map_map]
    exact List.map_id _
  · intro e he t ht
    rw [padEntries_eq] at he
    obtain ⟨x,hx,rfl⟩ := List.mem_map.mp he
    obtain ⟨b,r,q,c,⟨hb,hr,hq,hc⟩,rfl⟩ := exists_imageCell (List.mem_range.mp hx)
    rw [padSource_cell hr hq hc] at ht
    split at ht
    · obtain rfl := Option.some.inj ht
      exact imageCell_lt hb (by omega) (by omega) hc
    · cases ht
  · intro numShares res data_im s b r q c hs hb hr hq hc
    rw [padOriginal_eq,padEntries_eq,copyEntries_range hs,if_pos (imageCell_lt hb hr hq hc),
      padSource_cell hr hq hc]
    split <;> rfl

theorem padOriginal_family_place :
    let res := padOriginal (L := 4) 2 (fun _ _ => 7) (fun s i => BitVec.ofNat 32 (10*s + i)) 2 1 1 1
    res 1 (imageCell 2 3 3 0 1 1 1) = 11 ∧ res 1 (imageCell 2 3 3 0 1 2 0) = 0 := by
  intro res
  have hcells := (padOriginal_family (L := 4) 2 1 1 1).2.2.1
  exact ⟨hcells 2 _ _ 1 0 1 1 1 (by decide) (by decide) (by decide) (by decide) (by decide),
    hcells 2 _ _ 1 0 1 2 0 (by decide) (by decide) (by decide) (by decide) (by decide)⟩

end Pad
end RssRing
