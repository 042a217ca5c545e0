import RssRing.ProtocolsComposite.LT
import RssRing.ProtocolsMl.NeuralOps
set_option autoImplicit false

namespace RssRing
open Replicated

variable {parties L k : Nat} {G : Type}

structure Maximum (parties L : Nat) (G : Type) where
  newRssLT : (res a b : Shares parties (Lint L)) → Nat → Nat → Net parties G →
    Shares parties (Lint L) × Net parties G

structure Maximum.Correct (M : Maximum parties L G) (H : Pattern (Fin parties) (Finset (Fin parties)))
    (k : Nat) (S : Set (BitVec k)) : Prop where
  max : ∀ res a b size {net i} {α β : BitVec k}, H.Consistent net → i < size → α ∈ S → β ∈ S →
    ArithSharing H k a i α → ArithSharing H k b i β →
    ArithSharing H k (M.newRssLT res a b size k net).1 i (BitVec.ofInt k (max α.toInt β.toInt))
  net : ∀ res a b size {net}, H.Consistent net → H.Consistent (M.newRssLT res a b size k net).2

def callMemory (res a b : Shares parties (Lint L)) : Memory parties L := fun x => match x with
  | 0 => res
  | 1 => a
  | _ => b

def Comparisons.maximumOf (C : Comparisons parties L G) : Maximum parties L G where
  newRssLT res a b size ring_size net :=
    let out := C.newRssLT (callMemory res a b) 0 1 2 size ring_size net
    (out.1 0,out.2)

theorem Comparisons.maximumOf_correct {C : Comparisons parties L G}
    {H : Pattern (Fin parties) (Finset (Fin parties))} (hC : C.Correct H k) (hk : k ≤ 8*L)
    {S : Set (BitVec k)} (hS : ∀ α ∈ S, ∀ β ∈ S, |α.toInt - β.toInt| < 2^(k-1)) :
    C.maximumOf.Correct H k S := by
  constructor
  · intro res a b size net i α β hnet hi hα hβ ha hb
    obtain ⟨hlo,hhi⟩ := abs_lt.mp (hS α hα β hβ)
    have h : ArithSharing H k ((C.newRssLT (callMemory res a b) 0 1 2 size k net).1 0) i
        (BitVec.ofInt k (max α.toInt β.toInt)) :=
      newRssLT_element 0 hC hk hnet hi ha hb hlo.le hhi
    exact h
  · intro res a b size net hnet
    exact hC.multNet _ _ _ (hC.msbNet _ _ hnet)

def pairEntries (size batch_size offset : Nat) : List (Nat × Option Nat) :=
  (List.range batch_size).flatMap fun j => (List.range size).map fun i =>
    (j*size + i,some (j*size*2 + 2*i + offset))

/-- The copies for each place of the pooled images, which a counter numbers. -/
def windowEntries (c m n size batch_size offset : Nat) : List (Nat × Option Nat) :=
  (List.range batch_size).flatMap fun l =>
    ((List.range (c*m/2)).flatMap fun i => (List.range (n/2)).map fun j =>
      2*l*size + j + offset + i*n).zipIdx.map fun e => (l*size + e.2,some e.1)

/-- The common text of `eda_MaxPool` and `eda_MaxPool_mp`. -/
def Maximum.maxPool (M : Maximum parties L G) (numShares : Nat) (res a : Shares parties (Lint L))
    (c m n batch_size ring_size : Nat) (net : Net parties G) :
    Shares parties (Lint L) × Net parties G :=
  let cleared : PartyShares L := fun _ _ => 0
  let size := c*m*n/2
  let x0 := fun p => copyEntries numShares (pairEntries size batch_size 0) cleared (a p)
  let x1 := fun p => copyEntries numShares (pairEntries size batch_size 1) cleared (a p)
  let temp := M.newRssLT (fun _ => cleared) x0 x1 (size*batch_size) ring_size net
  let size := size/2
  let x0 := fun p => copyEntries numShares (windowEntries c m n size batch_size 0) cleared (temp.1 p)
  let x1 := fun p =>
    copyEntries numShares (windowEntries c m n size batch_size (m/2)) cleared (temp.1 p)
  M.newRssLT res x0 x1 (size*batch_size) ring_size temp.2

def Maximum.edaMaxPool (M : Maximum 3 L G) (res a : Shares 3 (Lint L))
    (c m n batch_size ring_size : Nat) (net : Net 3 G) : Shares 3 (Lint L) × Net 3 G :=
  M.maxPool 2 res a c m n batch_size ring_size net

def Maximum.edaMaxPoolMp (M : Maximum 5 L G) (res a : Shares 5 (Lint L))
    (c m n batch_size ring_size : Nat) (net : Net 5 G) : Shares 5 (Lint L) × Net 5 G :=
  M.maxPool 6 res a c m n batch_size ring_size net

structure PoolSizes where
  c : Nat
  m : Nat
  n : Nat
  batch_size : Nat

namespace PoolSizes
variable (d : PoolSizes)

def imageDim : Nat := d.c*(d.m/2)*(d.n/2)

def inputPlace (b f y x : Nat) : Nat := ((b*d.c + f)*d.m + y)*d.n + x

def outputPlace (b f i j : Nat) : Nat := ((b*d.c + f)*(d.m/2) + i)*(d.n/2) + j

def pairMax (A : Nat → BitVec k) (t : Nat) : BitVec k :=
  BitVec.ofInt k (max (A (2*t)).toInt (A (2*t + 1)).toInt)

/-- The largest one of the four elements of window `(i,j)`. -/
def windowMax (A : Nat → BitVec k) (b f i j : Nat) : BitVec k :=
  BitVec.ofInt k (max
    (max (A (d.inputPlace b f (2*i) (2*j))).toInt (A (d.inputPlace b f (2*i) (2*j + 1))).toInt)
    (max (A (d.inputPlace b f (2*i + 1) (2*j))).toInt
      (A (d.inputPlace b f (2*i + 1) (2*j + 1))).toInt))

def tempPlace (b f i j : Nat) : Nat := 2*b*d.imageDim + j + (f*(d.m/2) + i)*d.n

/-- What the second comparison takes: its second pair stands half a column further on. -/
def readMax (A : Nat → BitVec k) (b f i j : Nat) : BitVec k :=
  BitVec.ofInt k (max (pairMax A (d.tempPlace b f i j)).toInt
    (pairMax A (d.tempPlace b f i j + d.m/2)).toInt)

structure Inside (b f i j : Nat) : Prop where
  image : b < d.batch_size
  map : f < d.c
  row : i < d.m/2
  column : j < d.n/2

structure Images (H : Pattern (Fin parties) (Finset (Fin parties))) (k : Nat) (S : Set (BitVec k))
    (a : Shares parties (Lint L)) (A : Nat → BitVec k) : Prop where
  shared : ∀ t, t < d.batch_size*(d.c*d.m*d.n) → ArithSharing H k a t (A t)
  mem : ∀ t, t < d.batch_size*(d.c*d.m*d.n) → A t ∈ S

variable {d} {b f i j t : Nat}

theorem exists_outputPlace {x : Nat} (hx : x < d.batch_size*d.imageDim) :
    ∃ b f i j, d.Inside b f i j ∧ x = d.outputPlace b f i j := by
  have hlen : d.batch_size*d.imageDim = d.batch_size*d.c*(d.m/2)*(d.n/2) := by
    rw [imageDim]
    ring
  rw [hlen] at hx
  obtain ⟨y,j,hy,hj,rfl⟩ := exists_index hx
  obtain ⟨z,i,hz,hi,rfl⟩ := exists_index hy
  obtain ⟨b,f,hb,hf,rfl⟩ := exists_index hz
  exact ⟨b,f,i,j,⟨hb,hf,hi,hj⟩,rfl⟩

theorem outputPlace_lt (h : d.Inside b f i j) : d.outputPlace b f i j < d.imageDim*d.batch_size := by
  have hlen : d.imageDim*d.batch_size = d.batch_size*d.c*(d.m/2)*(d.n/2) := by
    rw [imageDim]
    ring
  rw [hlen]
  exact index_lt (index_lt (index_lt h.image h.map) h.row) h.column

theorem outputPlace_eq (b f i j : Nat) :
    d.outputPlace b f i j = b*d.imageDim + ((f*(d.m/2) + i)*(d.n/2) + j) := by
  rw [outputPlace,imageDim]
  ring

section Even
variable (hm : 2 ∣ d.m) (hn : 2 ∣ d.n)
include hm hn

theorem elements_eq : d.c*d.m*d.n = 2*d.imageDim*2 := by
  obtain ⟨m,hm⟩ := hm
  obtain ⟨n,hn⟩ := hn
  have hm' : d.m/2 = m := by omega
  have hn' : d.n/2 = n := by omega
  rw [imageDim,hm',hn',hm,hn]
  ring

theorem size_eq : d.c*d.m*d.n/2 = 2*d.imageDim := by
  rw [elements_eq hm hn,Nat.mul_div_cancel _ Nat.two_pos]

omit hn in
theorem rows_eq : d.c*d.m/2*(d.n/2) = d.imageDim := by
  rw [Nat.mul_div_assoc _ hm,imageDim]

theorem tempPlace_eq (x : Nat) : 2*(d.tempPlace b f i j + x) = d.inputPlace b f (2*i) (2*j) + 2*x := by
  obtain ⟨m,hm⟩ := hm
  obtain ⟨n,hn⟩ := hn
  have hm' : d.m/2 = m := by omega
  have hn' : d.n/2 = n := by omega
  rw [tempPlace,inputPlace,imageDim,hm',hn',hm,hn]
  ring

theorem windowMax_eq (A : Nat → BitVec k) : d.windowMax A b f i j =
    BitVec.ofInt k (max (pairMax A (d.tempPlace b f i j)).toInt
      (pairMax A (d.tempPlace b f i j + d.n/2)).toInt) := by
  have hfirst := tempPlace_eq hm hn (b := b) (f := f) (i := i) (j := j) 0
  have hsecond := tempPlace_eq hm hn (b := b) (f := f) (i := i) (j := j) (d.n/2)
  rw [Nat.add_zero,Nat.mul_zero,Nat.add_zero] at hfirst
  have hrow : d.inputPlace b f (2*i) (2*j) + 2*(d.n/2) = d.inputPlace b f (2*i + 1) (2*j) := by
    rw [Nat.mul_div_cancel' hn,inputPlace,inputPlace]
    ring
  rw [hrow] at hsecond
  rw [windowMax,pairMax,pairMax,Signed.toInt_ofInt_max,Signed.toInt_ofInt_max,hfirst,hsecond]
  rfl

omit hm in
theorem tempPlace_lt (h : d.Inside b f i j) :
    d.tempPlace b f i j + d.n/2 < 2*d.imageDim*d.batch_size := by
  obtain ⟨n,hn⟩ := hn
  have hn' : d.n/2 = n := by omega
  have hj := h.column
  have hlast := outputPlace_lt (⟨h.image,h.map,h.row,Nat.sub_lt (by omega) Nat.one_pos⟩ :
    d.Inside b f i (d.n/2 - 1))
  rw [outputPlace_eq,hn'] at hlast
  have hsplit : d.tempPlace b f i j = 2*(b*d.imageDim + (f*(d.m/2) + i)*n) + j := by
    rw [tempPlace,hn]
    ring
  have hmul : 2*d.imageDim*d.batch_size = 2*(d.imageDim*d.batch_size) := Nat.mul_assoc ..
  rw [hsplit,hmul,hn']
  omega

end Even

theorem pairEntries_eq (size batch_size offset : Nat) : pairEntries size batch_size offset =
    (List.range (batch_size*size)).map fun x => (x,some (2*x + offset)) := by
  rw [pairEntries,Loops.flatMap_range]
  refine List.map_congr_left fun x _ => ?_
  have hplace : x/size*size*2 + 2*(x%size) = 2*x := by
    have hx := Nat.div_add_mod' x size
    omega
  rw [hplace,Nat.div_add_mod']

theorem windowEntries_eq (hm : 2 ∣ d.m) (offset : Nat) :
    windowEntries d.c d.m d.n d.imageDim d.batch_size offset = (List.range (d.batch_size*d.imageDim)).map fun x =>
      (x,some (2*(x/d.imageDim)*d.imageDim + x%d.imageDim%(d.n/2) + offset +
        x%d.imageDim/(d.n/2)*d.n)) := by
  simp only [windowEntries,Loops.flatMap_range,Loops.zipIdx_range,List.map_map,rows_eq hm]
  refine List.map_congr_left fun x _ => ?_
  simp only [Function.comp,Nat.div_add_mod']

theorem windowSource_eq (h : d.Inside b f i j) (offset : Nat) :
    2*(d.outputPlace b f i j/d.imageDim)*d.imageDim +
      d.outputPlace b f i j%d.imageDim%(d.n/2) + offset +
      d.outputPlace b f i j%d.imageDim/(d.n/2)*d.n = d.tempPlace b f i j + offset := by
  have hplace : (f*(d.m/2) + i)*(d.n/2) + j < d.imageDim := by
    exact index_lt (index_lt h.map h.row) h.column
  rw [outputPlace_eq,index_div hplace,index_mod hplace,index_mod h.column,index_div h.column,tempPlace]
  ring

section Pool
variable {M : Maximum parties L G} {H : Pattern (Fin parties) (Finset (Fin parties))} {S : Set (BitVec k)}
  {a : Shares parties (Lint L)} {A : Nat → BitVec k} {numShares : Nat} {net : Net parties G}

theorem copyEntries_isSharing (hs : H.slots ≤ numShares) {N x y : Nat} {source : Nat → Nat}
    (hx : x < N) (hy : source x = y) {v : BitVec k} (h : ArithSharing H k a y v)
    (cleared : PartyShares L) : ArithSharing H k (fun p => copyEntries numShares
      ((List.range N).map fun x => (x,some (source x))) cleared (a p)) x v := by
  refine h.congr fun p s hslot => congrArg (BitVec.setWidth k) ?_
  refine (copyEntries_range (Nat.lt_of_lt_of_le hslot hs)).trans ?_
  rw [if_pos hx,← hy]
  rfl

theorem pairMax_mem {t : Nat} (h0 : A (2*t) ∈ S) (h1 : A (2*t + 1) ∈ S) : pairMax A t ∈ S := by
  rw [pairMax,Signed.ofInt_max]
  split
  · exact h1
  · exact h0

/-- What a cell of the pooled images holds, if both pairs that are read for it are there. -/
theorem maxPool_value (hM : M.Correct H k S) (hs : H.slots ≤ numShares) (hnet : H.Consistent net)
    (hm : 2 ∣ d.m) (hn : 2 ∣ d.n) (ha : d.Images H k S a A) (h : d.Inside b f i j)
    (hread : d.tempPlace b f i j + d.m/2 < 2*d.imageDim*d.batch_size)
    (res : Shares parties (Lint L)) :
    ArithSharing H k (M.maxPool numShares res a d.c d.m d.n d.batch_size k net).1
      (d.outputPlace b f i j) (d.readMax A b f i j) := by
  have hcomm := Nat.mul_comm (2*d.imageDim) d.batch_size
  have hcells := Nat.mul_comm d.imageDim d.batch_size
  have htotal : d.batch_size*(d.c*d.m*d.n) = 2*(2*d.imageDim*d.batch_size) := by
    rw [elements_eq hm hn]
    ring
  let cleared : PartyShares L := fun _ _ => 0
  let x0 : Shares parties (Lint L) := fun p =>
    copyEntries numShares (pairEntries (2*d.imageDim) d.batch_size 0) cleared (a p)
  let x1 : Shares parties (Lint L) := fun p =>
    copyEntries numShares (pairEntries (2*d.imageDim) d.batch_size 1) cleared (a p)
  let temp := M.newRssLT (fun _ => cleared) x0 x1 (2*d.imageDim*d.batch_size) k net
  have htemp : ∀ t, t < 2*d.imageDim*d.batch_size →
      ArithSharing H k temp.1 t (pairMax A t) ∧ pairMax A t ∈ S := by
    intro t ht
    have h0 : A (2*t) ∈ S := ha.mem _ (by omega)
    have h1 : A (2*t + 1) ∈ S := ha.mem _ (by omega)
    have hx0 : ArithSharing H k x0 t (A (2*t)) := by
      simp only [x0,pairEntries_eq]
      exact copyEntries_isSharing hs (by omega) rfl (ha.shared _ (by omega)) cleared
    have hx1 : ArithSharing H k x1 t (A (2*t + 1)) := by
      simp only [x1,pairEntries_eq]
      exact copyEntries_isSharing hs (by omega) rfl (ha.shared _ (by omega)) cleared
    exact ⟨hM.max _ x0 x1 _ hnet ht h0 h1 hx0 hx1,pairMax_mem h0 h1⟩
  have hplace := outputPlace_lt h
  have hout : ∀ offset, d.tempPlace b f i j + offset < 2*d.imageDim*d.batch_size →
      ArithSharing H k (fun p => copyEntries numShares
        (windowEntries d.c d.m d.n d.imageDim d.batch_size offset) cleared (temp.1 p))
        (d.outputPlace b f i j) (pairMax A (d.tempPlace b f i j + offset)) := by
    intro offset hoffset
    have hcell : d.outputPlace b f i j < d.batch_size*d.imageDim := by omega
    rw [windowEntries_eq hm]
    exact copyEntries_isSharing hs hcell (windowSource_eq h offset) (htemp _ hoffset).1 cleared
  have hfirst := hout 0 (by omega)
  rw [Nat.add_zero] at hfirst
  have hhalf : 2*d.imageDim/2 = d.imageDim := Nat.mul_div_cancel_left _ Nat.two_pos
  simp only [Maximum.maxPool,size_eq hm hn,hhalf]
  exact hM.max res _ _ _ (hM.net _ _ _ _ hnet) hplace (htemp _ (by omega)).2 (htemp _ hread).2
    hfirst (hout _ hread)

theorem pairMax_self {u : BitVec k} (h0 : A (2*t) = u) (h1 : A (2*t + 1) = u) : pairMax A t = u := by
  rw [pairMax,h0,h1,max_self,BitVec.ofInt_toInt]

def Pools (d : PoolSizes) (H : Pattern (Fin parties) (Finset (Fin parties))) (k : Nat)
    (S : Set (BitVec k)) (pool : (res a : Shares parties (Lint L)) → Shares parties (Lint L)) : Prop :=
  ∀ (A : Nat → BitVec k) (a res : Shares parties (Lint L)), d.Images H k S a A →
    ∀ b f i j, d.Inside b f i j →
      ArithSharing H k (pool res a) (d.outputPlace b f i j) (d.windowMax A b f i j)

theorem square_of_pools (hM : M.Correct H k S) (hs : H.slots ≤ numShares) (hnet : H.Consistent net)
    (hm : 2 ∣ d.m) (hn : 2 ∣ d.n) (hk : k ≤ 8*L) {t : Finset (Fin parties)} (ht : t ∈ H.names)
    {u v : BitVec k} (hu : u ∈ S) (hv : v ∈ S) (huv : u.toInt < v.toInt) (h : d.Inside 0 0 0 0)
    (hpools : d.Pools H k S fun res a =>
      (M.maxPool (L := L) numShares res a d.c d.m d.n d.batch_size k net).1) : d.m = d.n := by
  by_contra hne
  let A : Nat → BitVec k := fun t => if t = d.n then v else u
  have hother : ∀ t, t ≠ d.n → A t = u := fun t ht => if_neg ht
  have hself : A d.n = v := if_pos rfl
  have hmem : ∀ t, A t ∈ S := by
    intro t
    by_cases ht : t = d.n
    · rwa [ht,hself]
    · rwa [hother t ht]
  obtain ⟨a,ha⟩ := exists_arithSharing (L := L) ht hk A
  have himages : d.Images H k S a A := ⟨fun t _ => ha t,fun t _ => hmem t⟩
  have hrow := h.row
  have hcol := h.column
  have hplace : d.tempPlace 0 0 0 0 = 0 := by simp [tempPlace]
  have hread : d.tempPlace 0 0 0 0 + d.m/2 < 2*d.imageDim*d.batch_size := by
    have hdim : d.m/2 ≤ d.imageDim := by
      rw [imageDim]
      exact (Nat.le_mul_of_pos_left _ h.map).trans (Nat.le_mul_of_pos_right _ hcol)
    have hbatch := Nat.le_mul_of_pos_right (2*d.imageDim) h.image
    omega
  have heq := (maxPool_value hM hs hnet hm hn himages h hread fun _ _ _ => 0).unique
    (hpools A a _ himages 0 0 0 0 h)
  have hfirst : pairMax A 0 = u := pairMax_self (hother _ (by omega)) (hother _ (by omega))
  have hmissed : pairMax A (0 + d.m/2) = u := pairMax_self (hother _ (by omega)) (hother _ (by omega))
  have hlower : pairMax A (0 + d.n/2) = v := by
    have hn' : 2*(0 + d.n/2) = d.n := by omega
    rw [pairMax,hn',hother (d.n + 1) (by omega),hself,max_eq_left huv.le,BitVec.ofInt_toInt]
  rw [readMax,windowMax_eq hm hn,hplace,hfirst,hmissed,hlower,max_self,max_eq_right huv.le,
    BitVec.ofInt_toInt,BitVec.ofInt_toInt] at heq
  exact huv.ne (congrArg BitVec.toInt heq)

theorem pools_iff (hM : M.Correct H k S) (hS : S.Nontrivial) (hs : H.slots ≤ numShares)
    (hnet : H.Consistent net) (hm : 2 ∣ d.m) (hn : 2 ∣ d.n) (hk : k ≤ 8*L) {t : Finset (Fin parties)}
    (ht : t ∈ H.names) : (d.Pools H k S fun res a =>
      (M.maxPool (L := L) numShares res a d.c d.m d.n d.batch_size k net).1) ↔
      d.m = d.n ∨ d.batch_size*d.imageDim = 0 := by
  constructor
  · intro hpools
    rw [or_iff_not_imp_right]
    intro hcells
    obtain ⟨b,f,i,j,h,-⟩ := exists_outputPlace (Nat.pos_of_ne_zero hcells)
    have hfirst : d.Inside 0 0 0 0 := ⟨Nat.zero_lt_of_lt h.image,Nat.zero_lt_of_lt h.map,
      Nat.zero_lt_of_lt h.row,Nat.zero_lt_of_lt h.column⟩
    obtain ⟨u,hu,v,hv,hne⟩ := hS
    rcases lt_trichotomy u.toInt v.toInt with huv | heq | hvu
    · exact square_of_pools hM hs hnet hm hn hk ht hu hv huv hfirst hpools
    · exact absurd (BitVec.eq_of_toInt_eq heq) hne
    · exact square_of_pools hM hs hnet hm hn hk ht hv hu hvu hfirst hpools
  · rintro (hsquare | hempty) A a res ha b f i j h
    · have hhalf : d.m/2 = d.n/2 := by rw [hsquare]
      have hread := tempPlace_lt hn h
      rw [← hhalf] at hread
      have hvalue := maxPool_value hM hs hnet hm hn ha h hread res
      rw [readMax,hhalf] at hvalue
      rwa [windowMax_eq hm hn]
    · have hlt := outputPlace_lt h
      rw [Nat.mul_comm,hempty] at hlt
      exact absurd hlt (Nat.not_lt_zero _)

end Pool

/-- The pooled images are the maxima of their windows exactly where the maps are square. -/
theorem edaMaxPool_iff {M : Maximum 3 L G} {N : Maximum 5 L G} {S : Set (BitVec k)}
    (hM : M.Correct shares3pc k S) (hN : N.Correct shares5pc k S) (hS : S.Nontrivial) (hk : k ≤ 8*L)
    {net : Net 3 G} (hnet : shares3pc.Consistent net) {net' : Net 5 G}
    (hnet' : shares5pc.Consistent net') (d : PoolSizes) (hm : 2 ∣ d.m) (hn : 2 ∣ d.n) :
    (∀ x, x < d.batch_size*d.imageDim → ∃ b f i j, d.Inside b f i j ∧ x = d.outputPlace b f i j) ∧
    ((d.Pools shares3pc k S fun res a =>
      (M.edaMaxPool res a d.c d.m d.n d.batch_size k net).1) ↔
      d.m = d.n ∨ d.batch_size*d.imageDim = 0) ∧
    ((d.Pools shares5pc k S fun res a =>
      (N.edaMaxPoolMp res a d.c d.m d.n d.batch_size k net').1) ↔
      d.m = d.n ∨ d.batch_size*d.imageDim = 0) ∧
    ∀ b f i j, d.Inside b f i j → d.tempPlace b f i j + d.m/2 < 2*d.imageDim*d.batch_size →
      ∀ A : Nat → BitVec k,
      (∀ a res, d.Images shares3pc k S a A → ArithSharing shares3pc k
        (M.edaMaxPool res a d.c d.m d.n d.batch_size k net).1 (d.outputPlace b f i j)
        (d.readMax A b f i j)) ∧
      ∀ a res, d.Images shares5pc k S a A → ArithSharing shares5pc k
        (N.edaMaxPoolMp res a d.c d.m d.n d.batch_size k net').1 (d.outputPlace b f i j)
        (d.readMax A b f i j) := by
  refine ⟨fun x hx => exists_outputPlace hx,?_,?_,fun b f i j h hread A => ⟨fun a res ha => ?_,
    fun a res ha => ?_⟩⟩
  · exact pools_iff hM hS (Nat.le_refl 2) hnet hm hn hk (t := {0}) (by decide)
  · exact pools_iff hN hS (Nat.le_refl 6) hnet' hm hn hk (t := {0,1}) (by decide)
  · exact maxPool_value hM (Nat.le_refl 2) hnet hm hn ha h hread res
  · exact maxPool_value hN (Nat.le_refl 6) hnet' hm hn ha h hread res

/-- The values that are left when the top two bits are for the sign. -/
def small (k : Nat) : Set (BitVec (k+2)) := {α | |α.toInt| < 2^k}

instance (k : Nat) (α : BitVec (k+2)) : Decidable (α ∈ small k) :=
  inferInstanceAs (Decidable (|α.toInt| < 2^k))

theorem small_apart {α β : BitVec (k+2)} (hα : α ∈ small k) (hβ : β ∈ small k) :
    |α.toInt - β.toInt| < 2^(k+2-1) := by
  have hpow : (2 : Int)^(k+2-1) = 2^k + 2^k := by
    rw [show k+2-1 = k+1 from rfl,pow_succ]
    ring
  rw [hpow]
  exact lt_of_le_of_lt (abs_sub _ _) (add_lt_add hα hβ)

theorem maximumOf_small {C : Comparisons parties L G} {H : Pattern (Fin parties) (Finset (Fin parties))}
    (hC : C.Correct H (k+2)) (hk : k+2 ≤ 8*L) : C.maximumOf.Correct H (k+2) (small k) :=
  Comparisons.maximumOf_correct hC hk fun _ hα _ hβ => small_apart hα hβ

theorem edaMaxPool_iff_window :
    let M := (comparisons3pc (L := 4) (G := Tape) ⟨fun _ _ _ => 7,fun _ _ _ => 9,fun _ _ _ => 5⟩
      fun _ _ _ => 3).maximumOf
    let net : Net 3 Tape := fun _ _ => ⟨fun i => BitVec.ofNat 8 (3*i+1)⟩
    let a : Shares 3 (Lint 4) := fun _ _ t => BitVec.ofNat 32 ([1,3,2,0].getD t 0)
    ArithSharing shares3pc 6 (M.edaMaxPool (fun _ _ _ => 8) a 1 2 2 1 6 net).1 0 9 := by
  intro M net a
  let N := (comparisons5pc (L := 4) (G := Tape) openedMsb5pc).maximumOf
  let net' : Net 5 Tape := fun _ _ => ⟨fun i => BitVec.ofNat 8 (3*i+1)⟩
  have hnet : shares3pc.Consistent net := fun _ _ _ _ _ _ _ => rfl
  have hnet' : shares5pc.Consistent net' := fun _ _ _ _ _ _ _ => rfl
  have hM : M.Correct shares3pc 6 (small 4) :=
    maximumOf_small (comparisons3pc_correct (by decide) (by decide) _ _) (by decide)
  have hN : N.Correct shares5pc 6 (small 4) :=
    maximumOf_small (comparisons5pc_correct (by decide) (by decide)) (by decide)
  have hS : (small 4).Nontrivial := ⟨0,by decide,1,by decide,by decide⟩
  have ha : (⟨1,2,2,1⟩ : PoolSizes).Images shares3pc 6 (small 4) a
      fun t => BitVec.ofNat 6 ([3,9,6,0].getD t 0) := by
    have hplace : ∀ t, t < 4 → (BitVec.ofNat 32 ([1,3,2,0].getD t 0)).setWidth 6 =
        BitVec.ofNat 6 ([1,3,2,0].getD t 0) ∧ (∑ _T ∈ shares3pc.names,
          BitVec.ofNat 6 ([1,3,2,0].getD t 0)) = BitVec.ofNat 6 ([3,9,6,0].getD t 0) ∧
        BitVec.ofNat 6 ([3,9,6,0].getD t 0) ∈ small 4 := by decide
    exact ⟨fun t ht => ⟨fun _ => _,fun _ _ _ => (hplace t ht).1,(hplace t ht).2.1⟩,
      fun t ht => (hplace t ht).2.2⟩
  exact (edaMaxPool_iff hM hN hS (by decide) hnet hnet' ⟨1,2,2,1⟩ (by decide) (by decide)).2.1.mpr
    (Or.inl rfl) _ a (fun _ _ _ => 8) ha 0 0 0 0 ⟨by decide,by decide,by decide,by decide⟩

/-- In a map of two rows and four columns only the first element of the lower row is not zero.
The first maximum misses it. -/
theorem edaMaxPool_wide :
    let M := (comparisons3pc (L := 4) (G := Tape) ⟨fun _ _ _ => 7,fun _ _ _ => 9,fun _ _ _ => 5⟩
      fun _ _ _ => 3).maximumOf
    let net : Net 3 Tape := fun _ _ => ⟨fun i => BitVec.ofNat 8 (3*i+1)⟩
    let a : Shares 3 (Lint 4) := fun _ _ t => if t = 4 then 1 else 0
    let A : Nat → BitVec 6 := fun t => if t = 4 then 3 else 0
    let d : PoolSizes := ⟨1,2,4,1⟩
    d.Images shares3pc 6 (small 4) a A ∧ d.Inside 0 0 0 0 ∧ d.windowMax A 0 0 0 0 = 3 ∧
      ArithSharing shares3pc 6 (M.edaMaxPool (fun _ _ _ => 8) a 1 2 4 1 6 net).1
        (d.outputPlace 0 0 0 0) 0 ∧
      ¬ ArithSharing shares3pc 6 (M.edaMaxPool (fun _ _ _ => 8) a 1 2 4 1 6 net).1
        (d.outputPlace 0 0 0 0) (d.windowMax A 0 0 0 0) := by
  intro M net a A d
  have hnet : shares3pc.Consistent net := fun _ _ _ _ _ _ _ => rfl
  have hM : M.Correct shares3pc 6 (small 4) :=
    maximumOf_small (comparisons3pc_correct (by decide) (by decide) _ _) (by decide)
  clear_value M
  have ha : d.Images shares3pc 6 (small 4) a A := by
    refine ⟨fun t _ => ?_,fun t _ => ?_⟩
    · by_cases ht : t = 4
      · exact ⟨fun _ => 1,fun _ _ _ => by simp [a,ht],by simp [A,ht]⟩
      · exact ⟨fun _ => 0,fun _ _ _ => by simp [a,ht],by simp [A,ht]⟩
    · by_cases ht : t = 4
      · simp only [A,if_pos ht]
        decide
      · simp only [A,if_neg ht]
        decide
  have hin : d.Inside 0 0 0 0 := ⟨by decide,by decide,by decide,by decide⟩
  have hvalue := maxPool_value hM (Nat.le_refl 2) hnet (by decide) (by decide) ha hin (by decide)
    fun _ _ _ => 8
  have hzero : d.readMax A 0 0 0 0 = 0 := by decide
  rw [hzero] at hvalue
  exact ⟨ha,hin,by decide,hvalue,fun hright => absurd (hvalue.unique hright) (by decide)⟩

end PoolSizes
end RssRing
