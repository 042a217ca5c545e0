import RssRing.ProtocolsBasic.Mult
import RssRing.ProtocolsBasic.MultMp
set_option autoImplicit false

namespace RssRing
open Replicated

variable {G : Type} [Generator G] {L n : Nat}

/-- For each element of a result, in the order of the loops, the elements of the two
factors that are multiplied and added up there. -/
abbrev Terms := List (List (Nat × Nat))

def dotProduct (product : (Nat → Lint L) → (Nat → Lint L) → Lint L) (terms : Terms)
    (a b : Nat → Nat → Lint L) (i : Nat) : Lint L :=
  (terms.getD i []).foldl (fun v t => v + product (fun s => a s t.1) (fun s => b s t.2)) 0

/-- The common body of the three-party matrix products with `size` elements in the result.
What is sent is a copy, so that `v` is not cut to the ring size. -/
def matMult3pc (terms : Terms) (size ring_size : Nat) (net : Net 3 G)
    (c a b : Shares 3 (Lint L)) : Shares 3 (Lint L) × Net 3 G :=
  let K := arithKind L ring_size
  let reached := fun i => i < terms.length
  let c₀ := fun p i => if reached i then K.load (c p 0 i) (net.random 1 K.bytes size p) i else c p 0 i
  let v := fun p i => if reached i then dotProduct (product3pc K) terms (a p) (b p) i - c₀ p i else 0
  let net₁ := net.advance 1 K.bytes size
  let recv_buf := sendAndGetDataFromPeer K v
  let c₁ := fun p i => recv_buf p i + c₀ p i
  let c₀' := fun p i => K.load (c₀ p i) (net₁.random 0 K.bytes size p) i + v p i
  (fun p s i => if size ≤ i then c p s i else if s = 0 then c₀' p i else if s = 1 then c₁ p i
    else c p s i, net₁.advance 0 K.bytes size)

/-- The common body of the matrix products of more parties. The masks and the messages
are added to what the result arrays held before. -/
def MultTable.matMult (tab : MultTable n) (terms : Terms) (size ring_size : Nat) (net : Net n G)
    (c a b : Shares n (Lint L)) : Shares n (Lint L) × Net n G :=
  let K := arithKind L ring_size
  let buffer := fun p t => net.random t K.bytes (tab.prgCtrs t*size) p
  let masks := fun p => tab.maskUses .running p terms.length
  let z := fun p (u : MaskUse n) => K.load K.zero (buffer p u.tIndex) u.pos
  let added := fun p t i => (masks p).foldl
    (fun acc u => if u.tIndex = t ∧ u.i = i then acc + z p u else acc) (c p t i)
  let v := fun p i => (masks p).foldl
    (fun acc u => if u.pPrime = p ∧ u.i = i then acc - z p u else acc)
    (dotProduct (productMp K tab.numShares tab.gamma) terms (a p) (b p) i)
  let recvBuf := fun p r i => tab.routing.deliver (fun q _ => K.recv (v q i)) K.zero p r
  let received := fun p t i => (List.range tab.routing.rounds).foldl
    (fun acc r => if t = tab.recvSlot r then acc + recvBuf p r i else acc) (added p t i)
  (fun p t i => if size ≤ i then c p t i
    else if t = 0 then received p t i + K.sent (v p i) else received p t i,
    net.advanceAll tab.numShares K.bytes fun t => tab.prgCtrs t*size)

def matTerms (m n s : Nat) : Terms :=
  (List.range m).flatMap fun i => (List.range s).map fun j =>
    (List.range n).map fun k => (i*n + k,k*s + j)

def batchTerms (m n s batch_size weight_flag_a weight_flag_b : Nat) : Terms :=
  (List.range batch_size).flatMap fun l => (List.range m).flatMap fun i =>
    (List.range s).map fun j => (List.range n).map fun k =>
      (weight_flag_a*l*m*n + i*n + k,weight_flag_b*l*n*s + j*n + k)

def bTranspose (n s batch_size weight_flag_b : Nat) (b : Nat → Lint L) : Nat → Lint L :=
  let entries := (List.range batch_size).flatMap fun l => (List.range n).flatMap fun i =>
    (List.range s).map fun j =>
      (weight_flag_b*l*n*s + j*n + i,b (weight_flag_b*l*n*s + i*s + j))
  entries.foldl (fun b_transpose e => Function.update b_transpose e.1 e.2) fun _ => 0

/-- `for (uint i = (stride - 1); i < width; i += stride)`. -/
def windows (width stride : Nat) : List Nat :=
  (List.range (width/stride)).map fun t => stride - 1 + t*stride

def dwXIndex (height channels output_dim batch_size b i j fi fj c : Nat) : Nat :=
  (i + fi)*(height + 2)*channels + (j + fj)*channels + c + (output_dim/batch_size)*b

def dwOutputDim (width height channels batch_size stride : Nat) : Nat :=
  batch_size*channels*(width/stride)*(height/stride)

/-- In `Rss_dw_matrixmul` an element is done after each place of the filter, with the
products of all channels. -/
def dwTerms3pc (width height channels filter batch_size stride : Nat) : Terms :=
  (List.range batch_size).flatMap fun b => (windows width stride).flatMap fun i =>
    (windows height stride).flatMap fun j => (List.range filter).flatMap fun fi =>
      (List.range filter).map fun fj => (List.range channels).map fun c =>
        (dwXIndex height channels (dwOutputDim width height channels batch_size stride) batch_size
          b i j fi fj c,fi*filter*channels + fj*channels + c)

/-- In `Rss_dw_matrixmul_mp` an element is done for each channel, with the products of
all places of the filter. -/
def dwTermsMp (width height channels filter batch_size stride : Nat) : Terms :=
  (List.range batch_size).flatMap fun b => (windows width stride).flatMap fun i =>
    (windows height stride).flatMap fun j => (List.range channels).map fun c =>
      (List.range filter).flatMap fun fi => (List.range filter).map fun fj =>
        (dwXIndex height channels (dwOutputDim width height channels batch_size stride) batch_size
          b i j fi fj c,fi*filter*channels + fj*channels + c)

def pwOutputDim (width height out_channels batch_size : Nat) : Nat :=
  batch_size*out_channels*width*height

def pwTerms (width height in_channels kernel out_channels batch_size : Nat) : Terms :=
  let crow := kernel*kernel*in_channels
  let in_dim := batch_size*in_channels*width*height
  (List.range batch_size).flatMap fun b => (List.range (height*width)).flatMap fun i =>
    (List.range out_channels).map fun j => (List.range crow).map fun k =>
      (k + i*crow + (in_dim/batch_size)*b,j + k*out_channels)

abbrev Matrices (n : Nat) (W : Type) := Fin n → Nat → Nat → Nat → W

def flatten {W : Type} (columns : Nat) (a : Matrices n W) : Shares n W := fun p s x =>
  a p s (x/columns) (x%columns)

def rssMatMult (c a b : Matrices 3 (Lint L)) (m n s ring_size : Nat) (net : Net 3 G) :
    Matrices 3 (Lint L) × Net 3 G :=
  let out := matMult3pc (matTerms m n s) (m*s) ring_size net (flatten s c) (flatten n a) (flatten s b)
  (fun p t i j => if j < s then out.1 p t (i*s + j) else c p t i j,out.2)

def rssMatMultArray (c a b : Shares 3 (Lint L)) (m n s ring_size : Nat) (net : Net 3 G) :
    Shares 3 (Lint L) × Net 3 G :=
  matMult3pc (matTerms m n s) (m*s) ring_size net c a b

def rssMatMultArrayBatch (c a b : Shares 3 (Lint L))
    (m n s ring_size batch_size weight_flag_a weight_flag_b : Nat) (net : Net 3 G) :
    Shares 3 (Lint L) × Net 3 G :=
  matMult3pc (batchTerms m n s batch_size weight_flag_a weight_flag_b) (batch_size*m*s) ring_size
    net c a fun p t => bTranspose n s batch_size weight_flag_b (b p t)

/-- With fewer channels than the filter has places there are more elements than `v`, `buffer` and
`res` have room for: what the source then writes behind them is left out. -/
def rssDwMatrixmul (res x W : Shares 3 (Lint L))
    (width height channels filter ring_size batch_size stride : Nat) (net : Net 3 G) :
    Shares 3 (Lint L) × Net 3 G :=
  matMult3pc (dwTerms3pc width height channels filter batch_size stride)
    (dwOutputDim width height channels batch_size stride) ring_size net res x W

def rssPwMatrixmul (res x W : Shares 3 (Lint L))
    (width height in_channels kernel out_channels ring_size batch_size : Nat) (net : Net 3 G) :
    Shares 3 (Lint L) × Net 3 G :=
  matMult3pc (pwTerms width height in_channels kernel out_channels batch_size)
    (pwOutputDim width height out_channels batch_size) ring_size net res x W

/-- For `n = 0` the source leaves `v_index`, which it sets in the loop over `n`, undefined. -/
def rssMatMultArrayBatchMp (c a b : Shares 5 (Lint L))
    (m n s ring_size batch_size weight_flag_a weight_flag_b : Nat) (net : Net 5 G) :
    Shares 5 (Lint L) × Net 5 G :=
  table5pc.matMult (batchTerms m n s batch_size weight_flag_a weight_flag_b) (batch_size*m*s)
    ring_size net c a fun p t => bTranspose n s batch_size weight_flag_b (b p t)

def rssDwMatrixmulMp (res x W : Shares 5 (Lint L))
    (width height channels filter ring_size batch_size stride : Nat) (net : Net 5 G) :
    Shares 5 (Lint L) × Net 5 G :=
  table5pc.matMult (dwTermsMp width height channels filter batch_size stride)
    (dwOutputDim width height channels batch_size stride) ring_size net res x W

def rssPwMatrixmulMp (res x W : Shares 5 (Lint L))
    (width height in_channels kernel out_channels ring_size batch_size : Nat) (net : Net 5 G) :
    Shares 5 (Lint L) × Net 5 G :=
  table5pc.matMult (pwTerms width height in_channels kernel out_channels batch_size)
    (pwOutputDim width height out_channels batch_size) ring_size net res x W

end RssRing
