import RssRing.Sharing
set_option autoImplicit false

namespace RssRing

variable {L : Nat}

/-- The share arrays of one party: slot `s` at element `i`. -/
abbrev PartyShares (L : Nat) := Nat → Nat → Lint L

/-- Writes of the slots below `numShares`, in the order of the loop. An entry is the place
written and the place read, or nothing where a zero is written. -/
def copyEntries (numShares : Nat) (entries : List (Nat × Option Nat)) (res x : PartyShares L) :
    PartyShares L := fun s =>
  if s < numShares then
    entries.foldl (fun res e => Function.update res e.1 (e.2.elim 0 (x s))) (res s)
  else res s

def uint (x : Int) : Nat := (x % 4294967296).toNat

/-- One cell that `extract_patch` or `pad_original` writes: the element at row `im_row` and
place `im_col` in it, where the image has it. -/
def pixel (height rowLength : Nat) (im_row im_col : Int) (start : Nat) : Option Nat :=
  if im_row < 0 ∨ im_col < 0 ∨ height ≤ im_row ∨ rowLength ≤ im_col then none
  else some (start + im_col.toNat + rowLength*im_row.toNat)

def padBefore (size ksize stride : Nat) : Nat :=
  if 1 < stride then 0
  else (if size % stride = 0 then ksize - stride else ksize - size % stride)/2

/-- `height_col` or `width_col`, an `int`: below zero for a kernel that sticks out of the image. -/
def colSize (size ksize stride pad_flag : Nat) : Int :=
  if pad_flag = 0 then Int.tdiv ((size : Int) - ksize) stride + 1
  else ((size + stride - 1)/stride : Nat)

def extractPatch (numShares : Nat) (res data_im : PartyShares L)
    (channels height width ksize stride batch_size pad_flag : Nat) : PartyShares L :=
  let height_col := colSize height ksize stride pad_flag
  let width_col := colSize width ksize stride pad_flag
  let pad_top := if pad_flag = 0 then 0 else padBefore height ksize stride
  let pad_left := if pad_flag = 0 then 0 else padBefore width ksize stride
  let in_batch_size := channels*height*width
  let out_batch_size := (ksize*ksize*channels*width_col*height_col).toNat
  let entries : List (Nat × Option Nat) := (List.range batch_size).flatMap fun (i : Nat) =>
    (List.range (width_col*height_col).toNat).flatMap fun (c : Nat) =>
      let w_offset := (c : Int).tmod width_col
      let h_offset := ((c : Int).tdiv height_col).tmod height_col
      let c_im := (((c : Int).tdiv width_col).tdiv width_col).toNat
      (List.range ksize).flatMap fun (h : Nat) => (List.range (ksize*channels)).map fun (w : Nat) =>
        let im_row : Int := h_offset*stride + h - pad_top
        let im_col : Int := w_offset*stride*channels + w - pad_left
        ((c*ksize + h)*ksize*channels + w + i*out_batch_size,
          pixel height (width*channels) im_row im_col
            (i*in_batch_size + width*channels*(height*c_im)))
  copyEntries numShares entries res data_im

/-- `im_row` and `im_col` are unsigned here: below zero they wrap to a number that no image
reaches. -/
def padOriginal (numShares : Nat) (res data_im : PartyShares L)
    (channels height width batch_size : Nat) : PartyShares L :=
  let height_col := height + 2
  let width_col := width + 2
  let in_batch_size := channels*height*width
  let out_batch_size := channels*height_col*width_col
  let entries := (List.range batch_size).flatMap fun i =>
    (List.range height_col).flatMap fun h => (List.range (width_col*channels)).map fun w =>
      (h*width_col*channels + w + i*out_batch_size,
        pixel height (width*channels) (h - 1) (w - channels) (i*in_batch_size))
  copyEntries numShares entries res data_im

def mapIndexed (numShares size : Nat) (f : Lint L → Lint L → Lint L) (res x y : PartyShares L)
    (index : Nat → Nat) : PartyShares L := fun s i =>
  if s < numShares ∧ i < size then f (x s i) (y s (index i)) else res s i

/-- Bias `i` is for the elements `i*n` to `i*n + n - 1` of an entry of the batch. -/
def addBiases (numShares : Nat) (res a b : PartyShares L) (m n batch_size : Nat) : PartyShares L :=
  mapIndexed numShares (batch_size*m*n) (fun a b => a + b) res a b fun x => x/n%m

def pwAddBiases (numShares : Nat) (res x b : PartyShares L)
    (height width channels batch_size : Nat) : PartyShares L :=
  mapIndexed numShares (height*width*batch_size*channels) (fun x b => x + b) res x b
    fun i => i % channels

def subZp (numShares : Nat) (res x z_p : PartyShares L) (size batch_size layer_id : Nat) :
    PartyShares L :=
  mapIndexed numShares (size*batch_size) (fun x z => x - z) res x z_p fun _ => layer_id

def addZp (numShares : Nat) (res x z_p : PartyShares L) (size batch_size layer_id : Nat) :
    PartyShares L :=
  mapIndexed numShares (size*batch_size) (fun x z => x + z) res x z_p fun _ => layer_id

def avgPool (numShares : Nat) (res x : PartyShares L) (in_channels n batch_size : Nat) :
    PartyShares L := fun s out_index =>
  if s < numShares ∧ out_index < in_channels*batch_size then
    let i := out_index % in_channels
    let l := out_index/in_channels
    ((List.range n).flatMap fun j => (List.range n).map fun k =>
      k*in_channels + j*n*in_channels + i + l*(in_channels*n*n)).foldl
        (fun sum e => sum + x s e) 0
  else res s out_index

theorem uint_of_lt {x : Nat} (hx : x < 4294967296) : uint x = x := by
  rw [uint]
  omega

section Copy
variable {numShares N s x : Nat} {res data_im : PartyShares L} {source : Nat → Option Nat}

theorem copyEntries_range (hs : s < numShares) :
    copyEntries numShares ((List.range N).map fun x => (x,source x)) res data_im s x =
      if x < N then (source x).elim 0 (data_im s) else res s x := by
  rw [copyEntries,if_pos hs,List.foldl_map]
  exact Loops.foldl_update_range N (fun x => (source x).elim 0 (data_im s)) (res s) x

end Copy

end RssRing
