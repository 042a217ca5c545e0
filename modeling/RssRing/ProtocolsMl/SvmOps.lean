import RssRing.Library.Tournament
import RssRing.ProtocolsComposite.LT
set_option autoImplicit false

namespace RssRing
open Replicated

variable {n L k : Nat} {G : Type}

/-- The arrays that a call allocates and does not clear, as far as they are read. -/
structure CallArrays (n L : Nat) where
  a0 : Shares n (Lint L)
  a1 : Shares n (Lint L)
  a0_index : Shares n (Lint L)
  a1_index : Shares n (Lint L)
  ap : Shares n (Lint L)
  index : Shares n (Lint L)
  diff : Shares n (Lint L)

def fill (m size : Nat) (x old : Shares n (Lint L)) : Shares n (Lint L) := fun p s i =>
  if s < m ∧ i < size then x p s i else old p s i

def half (m size batch_size offset : Nat) (a old : Shares n (Lint L)) : Shares n (Lint L) :=
  let new_size_ceil := (size + 1)/2
  fun p s i =>
    if s < m ∧ i%new_size_ceil < size/2 ∧ i/new_size_ceil < batch_size then
      a p s (offset + i%new_size_ceil + i/new_size_ceil*size) else old p s i

/-- For an odd `size` the last place of every entry is given what `x` has for it. -/
def appendUnused (m size batch_size : Nat) (x : Fin n → Nat → Nat → Lint L)
    (old : Shares n (Lint L)) : Shares n (Lint L) :=
  let new_size_ceil := (size + 1)/2
  fun p s i =>
    if s < m ∧ size%2 = 1 ∧ i%new_size_ceil = size/2 ∧ i/new_size_ceil < batch_size then
      x p s (i/new_size_ceil) else old p s i

def lastOf (size : Nat) (a : Shares n (Lint L)) (p : Fin n) (s j : Nat) : Lint L :=
  a p s (j*size + size - 1)

namespace Comparisons
variable (C : Comparisons n L G)

/-- What one call has of its values: the results `c` of the comparisons, the differences as it
leaves them, the larger values, and the network. -/
structure Level (n L : Nat) (G : Type) where
  c : Shares n (Lint L)
  diff : Shares n (Lint L)
  ap : Shares n (Lint L)
  net : Net n G

def larger (m : Nat) (w : CallArrays n L) (a : Shares n (Lint L))
    (ring_size size batch_size : Nat) (net : Net n G) : Level n L G :=
  let total_new_ceil := (size + 1)/2*batch_size
  let a0 := half m size batch_size 0 a w.a0
  let a1 := half m size batch_size (size/2) a w.a1
  let diff := fill m total_new_ceil (fun p s i => a0 p s i - a1 p s i) w.diff
  let c := C.msb diff total_new_ceil ring_size net
  let diff := fill m total_new_ceil (fun p s i => a1 p s i - a0 p s i) diff
  let d0 := C.mult c.1 diff total_new_ceil ring_size c.2
  let ap := fill m total_new_ceil (fun p s i => d0.1 p s i + a0 p s i) w.ap
  ⟨c.1,diff,appendUnused m size batch_size (lastOf size a) ap,d0.2⟩

structure ArgMax (n L : Nat) (G : Type) where
  res : Shares n (Lint L)
  res_index : Shares n (Lint L)
  net : Net n G

/-- The common text of `arg_max_helper`, `eda_arg_max_helper`, `eda_arg_max_helper_time` and
their five-party forms, for the slots below `m`. -/
def argMaxHelper (m : Nat) (w : Nat → CallArrays n L) (res res_index : Shares n (Lint L))
    (ring_size batch_size size : Nat) (a a_index : Shares n (Lint L)) (net : Net n G) :
    ArgMax n L G :=
  if 1 < size then
    let total_new_ceil := (size + 1)/2*batch_size
    let l := C.larger m (w size) a ring_size size batch_size net
    let a0_index := half m size batch_size 0 a_index (w size).a0_index
    let a1_index := half m size batch_size (size/2) a_index (w size).a1_index
    let diff := fill m total_new_ceil (fun p s i => a1_index p s i - a0_index p s i) l.diff
    let d0 := C.mult l.c diff total_new_ceil ring_size l.net
    let index := fill m total_new_ceil (fun p s i => d0.1 p s i + a0_index p s i) (w size).index
    argMaxHelper m w res res_index ring_size batch_size ((size + 1)/2) l.ap
      (appendUnused m size batch_size (lastOf size a_index) index) d0.2
  else ⟨fill m batch_size a res,fill m batch_size a_index res_index,net⟩
termination_by size
decreasing_by omega

/-- The common text of `arg_max`, `eda_arg_max`, `eda_arg_max_time` and their five-party forms.
The bits `b` mark the slots that take the public indices. -/
def argMaxWith (m : Nat) (b : Fin n → Nat → Bool) (w : Nat → CallArrays n L)
    (res res_index a : Shares n (Lint L)) (ring_size size batch_size : Nat) (net : Net n G) :
    ArgMax n L G :=
  if 1 < size then
    let new_size_ceil := (size + 1)/2
    let l := C.larger m (w size) a ring_size size batch_size net
    let index := fun p s i =>
      if s < m ∧ i%new_size_ceil < size/2 ∧ i/new_size_ceil < batch_size then
        l.c p s i*BitVec.ofNat (8*L) (size/2) +
          BitVec.ofNat (8*L) (i%new_size_ceil)*bitWord L (b p s)
      else (w size).index p s i
    let last := fun p s _ => bitWord L (b p s)*BitVec.ofNat (8*L) (size - 1)
    C.argMaxHelper m w res res_index ring_size batch_size new_size_ceil l.ap
      (appendUnused m size batch_size last index) l.net
  else ⟨fill m batch_size a res,fill m batch_size (fun _ _ _ => 0) res_index,net⟩

/-- A comparison of the players of all entries: how many they are in an entry, the array of
differences and the streams. -/
structure Compared (n L : Nat) (G : Type) where
  size : Nat
  diff : Shares n (Lint L)
  net : Net n G

def compared (m : Nat) (w : CallArrays n L) (a : Shares n (Lint L)) (size batch_size : Nat)
    (net : Net n G) : Compared n L G :=
  let a0 := half m size batch_size 0 a w.a0
  let a1 := half m size batch_size (size/2) a w.a1
  ⟨size,fill m ((size + 1)/2*batch_size) (fun p s i => a0 p s i - a1 p s i) w.diff,net⟩

def helperCompared (m : Nat) (w : Nat → CallArrays n L) (ring_size batch_size size : Nat)
    (a a_index : Shares n (Lint L)) (net : Net n G) : List (Compared n L G) :=
  if 1 < size then
    let total_new_ceil := (size + 1)/2*batch_size
    let l := C.larger m (w size) a ring_size size batch_size net
    let a0_index := half m size batch_size 0 a_index (w size).a0_index
    let a1_index := half m size batch_size (size/2) a_index (w size).a1_index
    let diff := fill m total_new_ceil (fun p s i => a1_index p s i - a0_index p s i) l.diff
    let d0 := C.mult l.c diff total_new_ceil ring_size l.net
    let index := fill m total_new_ceil (fun p s i => d0.1 p s i + a0_index p s i) (w size).index
    compared m (w size) a size batch_size net :: helperCompared m w ring_size batch_size
      ((size + 1)/2) l.ap (appendUnused m size batch_size (lastOf size a_index) index) d0.2
  else []
termination_by size
decreasing_by omega

def firstIndex (m : Nat) (b : Fin n → Nat → Bool) (w : CallArrays n L) (c : Shares n (Lint L))
    (size batch_size : Nat) : Shares n (Lint L) :=
  let new_size_ceil := (size + 1)/2
  let index := fun p s i =>
    if s < m ∧ i%new_size_ceil < size/2 ∧ i/new_size_ceil < batch_size then
      c p s i*BitVec.ofNat (8*L) (size/2) +
        BitVec.ofNat (8*L) (i%new_size_ceil)*bitWord L (b p s)
    else w.index p s i
  appendUnused m size batch_size (fun p s _ => bitWord L (b p s)*BitVec.ofNat (8*L) (size - 1)) index

def argMaxCompared (m : Nat) (b : Fin n → Nat → Bool) (w : Nat → CallArrays n L)
    (a : Shares n (Lint L)) (ring_size size batch_size : Nat) (net : Net n G) :
    List (Compared n L G) :=
  if 1 < size then
    let l := C.larger m (w size) a ring_size size batch_size net
    compared m (w size) a size batch_size net :: C.helperCompared m w ring_size batch_size
      ((size + 1)/2) l.ap (firstIndex m b (w size) l.c size batch_size) l.net
  else []

def maximumWith (m : Nat) (w : Nat → CallArrays n L) (res : Shares n (Lint L))
    (ring_size batch_size size : Nat) (a : Shares n (Lint L)) (net : Net n G) :
    Shares n (Lint L) × Net n G :=
  if 1 < size then
    let mem : Memory n L := fun x => match x with
      | 0 => (w size).ap
      | 1 => half m size batch_size 0 a (w size).a0
      | _ => half m size batch_size (size/2) a (w size).a1
    let ap := C.newRssLT mem 0 1 2 ((size + 1)/2*batch_size) ring_size net
    maximumWith m w res ring_size batch_size ((size + 1)/2)
      (appendUnused m size batch_size (lastOf size a) (ap.1 0)) ap.2
  else (fill m batch_size a res,net)
termination_by size
decreasing_by omega

end Comparisons

def bi (p : Fin n) (s : Nat) : Bool :=
  if n = 3 then
    match pid p with
    | 1 => s == 0
    | 3 => s == 1
    | _ => false
  else if n = 5 then
    match pid p with
    | 1 => s == 0
    | 4 => s == 5
    | 5 => s == 3
    | _ => false
  else false

namespace Comparisons

/-- With `Rss_MSB` for the comparisons. -/
def argMax (C : Comparisons 3 L G) (w : Nat → CallArrays 3 L) (res res_index a : Shares 3 (Lint L))
    (ring_size size batch_size : Nat) (net : Net 3 G) : ArgMax 3 L G :=
  C.argMaxWith 2 a12 w res res_index a ring_size size batch_size net

/-- With `new_Rss_MSB`; `eda_arg_max_time` differs by `new_Rss_MSB_time`. -/
def edaArgMax (C : Comparisons 3 L G) (w : Nat → CallArrays 3 L)
    (res res_index a : Shares 3 (Lint L)) (ring_size size batch_size : Nat) (net : Net 3 G) :
    ArgMax 3 L G :=
  C.argMaxWith 2 bi w res res_index a ring_size size batch_size net

def edaArgMaxTime (C : Comparisons 3 L G) (w : Nat → CallArrays 3 L)
    (res res_index a : Shares 3 (Lint L)) (ring_size size batch_size : Nat) (net : Net 3 G) :
    ArgMax 3 L G :=
  C.argMaxWith 2 bi w res res_index a ring_size size batch_size net

def maximum (C : Comparisons 3 L G) (w : Nat → CallArrays 3 L) (res a : Shares 3 (Lint L))
    (ring_size size batch_size : Nat) (net : Net 3 G) : Shares 3 (Lint L) × Net 3 G :=
  C.maximumWith 2 w res ring_size batch_size size a net

def edaMaximum (C : Comparisons 3 L G) (w : Nat → CallArrays 3 L) (res a : Shares 3 (Lint L))
    (ring_size size batch_size : Nat) (net : Net 3 G) : Shares 3 (Lint L) × Net 3 G :=
  C.maximumWith 2 w res ring_size batch_size size a net

end Comparisons

section Arrays
variable {H : Pattern (Fin n) (Finset (Fin n))} {m size batch_size i j : Nat}
  {a old : Shares n (Lint L)} {v : BitVec k}

theorem match_lt (hj : j < batch_size) (hi : i < size/2) :
    j*((size + 1)/2) + i < (size + 1)/2*batch_size := by
  rw [Nat.mul_comm ((size + 1)/2)]
  exact index_lt hj (by omega)

theorem fill_isSharing (hm : H.slots ≤ m) (hi : i < size) (h : ArithSharing H k a i v)
    (old : Shares n (Lint L)) : ArithSharing H k (fill m size a old) i v :=
  h.congr fun p s hs => by simp only [fill,if_pos (⟨by omega,hi⟩ : s < m ∧ i < size)]

theorem fill_of_ge {n : Nat} {x old : Shares n (Lint L)} {p : Fin n} {s : Nat} (hs : m ≤ s)
    (i : Nat) : fill m size x old p s i = old p s i :=
  if_neg fun h => Nat.not_lt.mpr hs h.1

theorem half_isSharing {offset : Nat} (hm : H.slots ≤ m) (hj : j < batch_size) (hi : i < size/2)
    (h : ArithSharing H k a (j*size + (offset + i)) v) :
    ArithSharing H k (half m size batch_size offset a old) (j*((size + 1)/2) + i) v := by
  have hi' : i < (size + 1)/2 := by omega
  refine h.congr fun p s hs => ?_
  simp only [half,index_mod hi',index_div hi']
  rw [if_pos ⟨by omega,hi,hj⟩,Nat.add_comm (offset + i)]

theorem halves_isSharing (hm : H.slots ≤ m) (hj : j < batch_size) (hi : i < size/2)
    {V : Nat → BitVec k} (ha : ∀ i, i < size → ArithSharing H k a (j*size + i) (V i))
    (old old' : Shares n (Lint L)) :
    ArithSharing H k (half m size batch_size 0 a old) (j*((size + 1)/2) + i) (V i) ∧
      ArithSharing H k (half m size batch_size (size/2) a old') (j*((size + 1)/2) + i)
        (V (size/2 + i)) := by
  constructor
  · refine half_isSharing hm hj hi ?_
    rw [Nat.zero_add]
    exact ha i (by omega)
  · exact half_isSharing hm hj hi (ha (size/2 + i) (by omega))

theorem appendUnused_match {x : Fin n → Nat → Nat → Lint L} (hi : i < size/2)
    (h : ArithSharing H k old (j*((size + 1)/2) + i) v) :
    ArithSharing H k (appendUnused m size batch_size x old) (j*((size + 1)/2) + i) v := by
  have hi' : i < (size + 1)/2 := by omega
  refine h.congr fun p s hs => ?_
  simp only [appendUnused,index_mod hi']
  rw [if_neg (by omega)]

theorem appendUnused_last {x : Fin n → Nat → Nat → Lint L} (hm : H.slots ≤ m) (hj : j < batch_size)
    (hodd : size%2 = 1) (h : H.IsSharing (fun p s => (x p s j).setWidth k) v) :
    ArithSharing H k (appendUnused m size batch_size x old) (j*((size + 1)/2) + size/2) v := by
  have hi' : size/2 < (size + 1)/2 := by omega
  refine h.congr fun p s hs => ?_
  simp only [appendUnused,index_mod hi',index_div hi']
  rw [if_pos ⟨by omega,hodd,trivial,hj⟩]

theorem appendUnused_isSharing {ι : Type} {f : ι → Int} {V : ι → BitVec k} {field : Nat → ι}
    {x : Fin n → Nat → Nat → Lint L} (hm : H.slots ≤ m) (hj : j < batch_size)
    (hi : i < (size + 1)/2)
    (hmatch : ∀ i, i < size/2 → ArithSharing H k old (j*((size + 1)/2) + i)
      (if f (field i) < f (field (size/2 + i)) then V (field (size/2 + i)) else V (field i)))
    (hlast : size%2 = 1 →
      H.IsSharing (fun p s => (x p s j).setWidth k) (V (field (size - 1)))) :
    ArithSharing H k (appendUnused m size batch_size x old) (j*((size + 1)/2) + i)
      (V (Tournament.round f size field i)) := by
  unfold Tournament.round
  by_cases h : i < size/2
  · rw [if_pos h,Tournament.play,apply_ite V]
    exact appendUnused_match h (hmatch i h)
  · rw [if_neg h]
    have heq : i = size/2 := by omega
    subst heq
    exact appendUnused_last hm hj (by omega) (hlast (by omega))

theorem lastOf_isSharing {V : Nat → BitVec k}
    (ha : ∀ i, i < size → ArithSharing H k a (j*size + i) (V i)) (hodd : size%2 = 1) :
    H.IsSharing (fun p s => (lastOf size a p s j).setWidth k) (V (size - 1)) :=
  (ha (size - 1) (by omega)).congr fun p s _ => by
    rw [lastOf,Nat.add_sub_assoc (by omega : 1 ≤ size)]

theorem fill_last (hm : H.slots ≤ m) (hj : j < batch_size) (hsize : 0 < size) (hone : ¬1 < size)
    {V : Nat → BitVec k} (ha : ∀ i, i < size → ArithSharing H k a (j*size + i) (V i))
    (old : Shares n (Lint L)) : ArithSharing H k (fill m batch_size a old) j (V 0) := by
  have hv := ha 0 hsize
  rw [show size = 1 by omega,Nat.mul_one,Nat.add_zero] at hv
  exact fill_isSharing hm hj hv old

end Arrays

structure Marked (H : Pattern (Fin n) (Finset (Fin n))) (b : Fin n → Nat → Bool)
    (T₀ : Finset (Fin n)) : Prop where
  mem : T₀ ∈ H.names
  mark : ∀ p s, s < H.slots → b p s = decide (H.hold p s = T₀)

theorem Marked.word {H : Pattern (Fin n) (Finset (Fin n))} {b : Fin n → Nat → Bool}
    {T₀ : Finset (Fin n)} (hb : Marked H b T₀) (hk : k ≤ 8*L) (c : Nat) :
    H.IsSharing (fun p s => (bitWord L (b p s)*BitVec.ofNat (8*L) c).setWidth k)
      (BitVec.ofNat k c) := by
  refine Pattern.isSharing_public hb.mem _ fun p s hs => ?_
  rw [setWidth_bitWord_mul hk,BitVec.setWidth_ofNat_of_le hk,hb.mark p s hs]
  simp only [decide_eq_true_eq]

theorem a12_marked : Marked shares3pc a12 {1} where
  mem := by decide
  mark := by decide

theorem bi_marked : Marked shares3pc bi {1} where
  mem := by decide
  mark := by decide

/-- In every entry of the batch consistent sharings, of values no two of which are too far
apart. -/
structure Candidates {n : Nat} (H : Pattern (Fin n) (Finset (Fin n))) (k size batch_size : Nat)
    (a : Shares n (Lint L)) (A : Nat → Nat → BitVec k) : Prop where
  shared : ∀ j, j < batch_size → ∀ i, i < size → ArithSharing H k a (j*size + i) (A j i)
  range : ∀ j, j < batch_size → ∀ x, x < size → ∀ y, y < size →
    |(A j x).toInt - (A j y).toInt| < 2^(k-1)

namespace Comparisons
variable {C : Comparisons n L G} {H : Pattern (Fin n) (Finset (Fin n))} {m total i : Nat}
  {net : Net n G}

theorem chosen_isSharing (hC : C.Multiplies H k) (hk : k ≤ 8*L) (hm : H.slots ≤ m)
    (hnet : H.Consistent net) (hi : i < total) {c x0 x1 : Shares n (Lint L)} {P : Prop}
    [Decidable P] {u v : BitVec k} (hc : ArithSharing H k c i (bitVal k (decide P)))
    (h0 : ArithSharing H k x0 i u) (h1 : ArithSharing H k x1 i v) (old old' : Shares n (Lint L)) :
    ArithSharing H k (fill m total (fun p s i => (C.mult c
      (fill m total (fun p s i => x1 p s i - x0 p s i) old) total k net).1 p s i + x0 p s i) old') i
      (if P then v else u) := by
  have hsub : ArithSharing H k (fun p s i => x1 p s i - x0 p s i) i (v - u) :=
    sub_isSharing hk h1 h0
  have hsum := (hC.mult c _ total hnet hi hc (fill_isSharing hm hi hsub old)).add h0
  have hval : bitVal k (decide P)*(v - u) + u = if P then v else u := by
    by_cases hP : P
    · rw [decide_eq_true hP,bitVal_eq,if_pos rfl,if_pos hP,one_mul,sub_add_cancel]
    · rw [decide_eq_false hP,bitVal_eq,if_neg Bool.false_ne_true,if_neg hP,zero_mul,zero_add]
  rw [hval] at hsum
  exact fill_isSharing hm hi (hsum.congr fun p s _ => BitVec.setWidth_add _ _ hk) old'

section Level
variable {ι : Type} {A : ι → BitVec k} {field : Nat → ι} {w : CallArrays n L}
  {a : Shares n (Lint L)} {size batch_size j : Nat}

def InRange (A : ι → BitVec k) (size : Nat) (field : Nat → ι) : Prop :=
  ∀ x, x < size → ∀ y, y < size → |(A (field x)).toInt - (A (field y)).toInt| < 2^(k-1)

theorem InRange.bounds (h : InRange A size field) {x y : Nat} (hx : x < size) (hy : y < size) :
    -2^(k-1) ≤ (A (field x)).toInt - (A (field y)).toInt ∧
      (A (field x)).toInt - (A (field y)).toInt < 2^(k-1) :=
  ⟨(abs_lt.mp (h x hx y hy)).1.le,(abs_lt.mp (h x hx y hy)).2⟩

theorem InRange.round (h : InRange A size field) :
    InRange A ((size + 1)/2) (Tournament.round (fun x => (A x).toInt) size field) := by
  intro x hx y hy
  obtain ⟨x',hx',heqx⟩ := Tournament.round_mem (f := fun x => (A x).toInt) field hx
  obtain ⟨y',hy',heqy⟩ := Tournament.round_mem (f := fun x => (A x).toInt) field hy
  rw [heqx,heqy]
  exact h x' hx' y' hy'

def RightAt (C : Comparisons n L G) (H : Pattern (Fin n) (Finset (Fin n))) (k batch_size j : Nat)
    (x : Compared n L G) : Prop :=
  ∀ i, i < x.size/2 → ∀ α : BitVec k, ArithSharing H k x.diff (j*((x.size + 1)/2) + i) α →
    ArithSharing H k (C.msb x.diff ((x.size + 1)/2*batch_size) k x.net).1 (j*((x.size + 1)/2) + i)
      (bitVal k (α.getLsbD (k-1)))

theorem Correct.rightAt (hC : C.Correct H k) (hj : j < batch_size) {x : Compared n L G}
    (hnet : H.Consistent x.net) : C.RightAt H k batch_size j x :=
  fun _ hi _ hα => hC.msb x.diff _ hnet (match_lt hj hi) hα

theorem larger_isSharing (hC : C.Multiplies H k) (hk : k ≤ 8*L) (hm : H.slots ≤ m)
    (hnet : H.Consistent net) (hj : j < batch_size) (hA : InRange A size field)
    (hright : C.RightAt H k batch_size j (compared m w a size batch_size net))
    (ha : ∀ i, i < size → ArithSharing H k a (j*size + i) (A (field i))) :
    let l := C.larger m w a k size batch_size net
    H.Consistent l.net ∧
    (∀ i, i < size/2 → ArithSharing H k l.c (j*((size + 1)/2) + i)
      (bitVal k (decide ((A (field i)).toInt < (A (field (size/2 + i))).toInt)))) ∧
    ∀ i, i < (size + 1)/2 → ArithSharing H k l.ap (j*((size + 1)/2) + i)
      (A (Tournament.round (fun x => (A x).toInt) size field i)) := by
  intro l
  let total := (size + 1)/2*batch_size
  let a0 := half m size batch_size 0 a w.a0
  let a1 := half m size batch_size (size/2) a w.a1
  let diff := fill m total (fun p s i => a0 p s i - a1 p s i) w.diff
  have hnet₁ : H.Consistent (C.msb diff total k net).2 := hC.keepsNet.msb _ _ hnet
  have hc : ∀ i, i < size/2 → ArithSharing H k l.c (j*((size + 1)/2) + i)
      (bitVal k (decide ((A (field i)).toInt < (A (field (size/2 + i))).toInt))) := by
    intro i hi
    obtain ⟨h0,h1⟩ := halves_isSharing hm hj hi ha w.a0 w.a1
    have hsub : ArithSharing H k (fun p s i => a0 p s i - a1 p s i) (j*((size + 1)/2) + i)
        (A (field i) - A (field (size/2 + i))) := sub_isSharing hk h0 h1
    obtain ⟨hlo,hhi⟩ := hA.bounds (by omega : i < size) (by omega : size/2 + i < size)
    rw [← Signed.sub_top hlo hhi]
    exact hright i hi _ (fill_isSharing hm (match_lt hj hi) hsub w.diff)
  refine ⟨hC.keepsNet.mult _ _ _ hnet₁,hc,fun i hi => ?_⟩
  refine appendUnused_isSharing hm hj hi (fun i hi => ?_) (lastOf_isSharing ha)
  obtain ⟨h0,h1⟩ := halves_isSharing hm hj hi ha w.a0 w.a1
  exact chosen_isSharing hC hk hm hnet₁ (match_lt hj hi) (hc i hi) h0 h1 diff w.ap

theorem argMaxHelper_isSharing {I : ι → BitVec k} {w : Nat → CallArrays n L}
    (res res_index : Shares n (Lint L)) (hC : C.Multiplies H k) (hk : k ≤ 8*L) (hm : H.slots ≤ m)
    (hj : j < batch_size) :
    ∀ {size : Nat} {field : Nat → ι} {a a_index : Shares n (Lint L)} {net : Net n G}, 0 < size →
    H.Consistent net → InRange A size field →
    (∀ x ∈ C.helperCompared m w k batch_size size a a_index net, H.Consistent x.net →
      C.RightAt H k batch_size j x) →
    (∀ i, i < size → ArithSharing H k a (j*size + i) (A (field i))) →
    (∀ i, i < size → ArithSharing H k a_index (j*size + i) (I (field i))) →
    let r := C.argMaxHelper m w res res_index k batch_size size a a_index net
    ArithSharing H k r.res j (A (Tournament.winner (fun x => (A x).toInt) size field)) ∧
      ArithSharing H k r.res_index j (I (Tournament.winner (fun x => (A x).toInt) size field)) := by
  intro size
  induction size using Nat.strong_induction_on with
  | _ size ih =>
    intro field a a_index net hsize hnet hA hright ha hindex
    rw [argMaxHelper,Tournament.winner]
    rw [helperCompared] at hright
    by_cases hmany : 1 < size
    · simp only [if_pos hmany,List.forall_mem_cons] at hright ⊢
      obtain ⟨hnet₁,hc,hap⟩ := larger_isSharing (w := w size) hC hk hm hnet hj hA (hright.1 hnet) ha
      refine ih ((size + 1)/2) (by omega) (by omega) (hC.keepsNet.mult _ _ _ hnet₁) hA.round hright.2
        hap fun i hi => ?_
      refine appendUnused_isSharing hm hj hi (fun i hi => ?_) (lastOf_isSharing hindex)
      obtain ⟨h0,h1⟩ := halves_isSharing hm hj hi hindex (w size).a0_index (w size).a1_index
      exact chosen_isSharing hC hk hm hnet₁ (match_lt hj hi) (hc i hi) h0 h1
        (C.larger m (w size) a k size batch_size net).diff (w size).index
    · simp only [if_neg hmany]
      exact ⟨fill_last hm hj hsize hmany ha res,fill_last hm hj hsize hmany hindex res_index⟩

theorem ofNat_select (h i : Nat) (P : Prop) [Decidable P] :
    BitVec.ofNat k h*bitVal k (decide P) + BitVec.ofNat k i =
      if P then BitVec.ofNat k (h + i) else BitVec.ofNat k i := by
  by_cases hP : P
  · rw [decide_eq_true hP,bitVal_eq,if_pos rfl,if_pos hP,mul_one,← BitVec.ofNat_add]
  · rw [decide_eq_false hP,bitVal_eq,if_neg Bool.false_ne_true,if_neg hP,mul_zero,zero_add]

/-- After the first level the index of a place is that of the winner of its match. Only the
comparisons that are made have to be right. -/
theorem argMaxWith_of_right {b : Fin n → Nat → Bool} {T₀ : Finset (Fin n)} {A : Nat → BitVec k}
    {w : Nat → CallArrays n L} (res res_index : Shares n (Lint L)) (hC : C.Multiplies H k)
    (hk : k ≤ 8*L) (hm : H.slots ≤ m) (hb : Marked H b T₀) (hnet : H.Consistent net)
    (hsize : 0 < size) (hj : j < batch_size) (hA : InRange A size id)
    (hright : ∀ x ∈ C.argMaxCompared m b w a k size batch_size net, H.Consistent x.net →
      C.RightAt H k batch_size j x)
    (ha : ∀ i, i < size → ArithSharing H k a (j*size + i) (A i)) :
    let r := C.argMaxWith m b w res res_index a k size batch_size net
    ArithSharing H k r.res j (A (Tournament.winner (fun x => (A x).toInt) size id)) ∧
      ArithSharing H k r.res_index j
        (BitVec.ofNat k (Tournament.winner (fun x => (A x).toInt) size id)) := by
  rw [argMaxWith,Tournament.winner]
  rw [argMaxCompared] at hright
  by_cases hmany : 1 < size
  · simp only [if_pos hmany,List.forall_mem_cons] at hright ⊢
    obtain ⟨hnet₁,hc,hap⟩ := larger_isSharing (w := w size) hC hk hm hnet hj hA (hright.1 hnet) ha
    refine argMaxHelper_isSharing (I := BitVec.ofNat k) res res_index hC hk hm hj (by omega) hnet₁
      hA.round hright.2 hap fun i hi => ?_
    refine appendUnused_isSharing hm hj hi (fun i hi => ?_) fun _ => hb.word hk (size - 1)
    have hsum := ((hc i hi).const_mul (BitVec.ofNat k (size/2))).add (hb.word hk i)
    rw [ofNat_select] at hsum
    refine hsum.congr fun p s hs => ?_
    have hi' : i < (size + 1)/2 := by omega
    simp only [index_mod hi',index_div hi']
    rw [if_pos ⟨by omega,hi,hj⟩,BitVec.setWidth_add _ _ hk,BitVec.setWidth_mul _ _ hk,
      BitVec.setWidth_ofNat_of_le hk,mul_comm (BitVec.setWidth k _),mul_comm (bitWord L _)]
  · simp only [if_neg hmany]
    refine ⟨fill_last hm hj hsize hmany ha res,fill_isSharing hm hj ?_ res_index⟩
    exact Pattern.isSharing_zero.congr fun p s _ => BitVec.setWidth_zero _ _

theorem argMaxWith_isSharing {b : Fin n → Nat → Bool} {T₀ : Finset (Fin n)} {A : Nat → BitVec k}
    {w : Nat → CallArrays n L} (res res_index : Shares n (Lint L)) (hC : C.Correct H k)
    (hk : k ≤ 8*L) (hm : H.slots ≤ m) (hb : Marked H b T₀) (hnet : H.Consistent net)
    (hsize : 0 < size) (hj : j < batch_size) (hA : InRange A size id)
    (ha : ∀ i, i < size → ArithSharing H k a (j*size + i) (A i)) :
    let r := C.argMaxWith m b w res res_index a k size batch_size net
    ArithSharing H k r.res j (A (Tournament.winner (fun x => (A x).toInt) size id)) ∧
      ArithSharing H k r.res_index j
        (BitVec.ofNat k (Tournament.winner (fun x => (A x).toInt) size id)) :=
  argMaxWith_of_right res res_index hC.multiplies hk hm hb hnet hsize hj hA
    (fun _ _ hnet' => hC.rightAt hj hnet') ha

theorem argMaxHelper_net {w : Nat → CallArrays n L} (res res_index : Shares n (Lint L))
    (hC : C.KeepsNet H k) (batch_size : Nat) :
    ∀ {size : Nat} (a a_index : Shares n (Lint L)) {net : Net n G}, H.Consistent net →
    H.Consistent (C.argMaxHelper m w res res_index k batch_size size a a_index net).net := by
  intro size
  induction size using Nat.strong_induction_on with
  | _ size ih =>
    intro a a_index net hnet
    rw [argMaxHelper]
    by_cases hmany : 1 < size
    · simp only [if_pos hmany]
      exact ih ((size + 1)/2) (by omega) _ _ (hC.mult _ _ _ (hC.mult _ _ _ (hC.msb _ _ hnet)))
    · simpa only [if_neg hmany] using hnet

theorem argMaxWith_net {b : Fin n → Nat → Bool} {w : Nat → CallArrays n L}
    (res res_index a : Shares n (Lint L)) (hC : C.KeepsNet H k) (hnet : H.Consistent net)
    (size batch_size : Nat) :
    H.Consistent (C.argMaxWith m b w res res_index a k size batch_size net).net := by
  rw [argMaxWith]
  by_cases hmany : 1 < size
  · simp only [if_pos hmany]
    exact argMaxHelper_net res res_index hC batch_size _ _ (hC.mult _ _ _ (hC.msb _ _ hnet))
  · simpa only [if_neg hmany] using hnet

theorem maximumWith_isSharing {w : Nat → CallArrays n L} (res : Shares n (Lint L))
    (hC : C.Correct H k) (hk : k ≤ 8*L) (hm : H.slots ≤ m) (hj : j < batch_size) :
    ∀ {size : Nat} (field : Nat → ι) {a : Shares n (Lint L)} {net : Net n G}, 0 < size →
    H.Consistent net → InRange A size field →
    (∀ i, i < size → ArithSharing H k a (j*size + i) (A (field i))) →
    ArithSharing H k (C.maximumWith m w res k batch_size size a net).1 j
      (A (Tournament.winner (fun x => (A x).toInt) size field)) := by
  intro size
  induction size using Nat.strong_induction_on with
  | _ size ih =>
    intro field a net hsize hnet hA ha
    rw [maximumWith,Tournament.winner]
    by_cases hmany : 1 < size
    · simp only [if_pos hmany]
      refine ih ((size + 1)/2) (by omega) _ (by omega) (hC.multNet _ _ _ (hC.msbNet _ _ hnet))
        hA.round fun i hi => ?_
      refine appendUnused_isSharing hm hj hi (fun i hi => ?_) (lastOf_isSharing ha)
      obtain ⟨h0,h1⟩ := halves_isSharing hm hj hi ha (w size).a0 (w size).a1
      obtain ⟨hlo,hhi⟩ := hA.bounds (by omega : i < size) (by omega : size/2 + i < size)
      rw [← Signed.ofInt_max]
      exact newRssLT_element 0 hC hk hnet (match_lt hj hi) h0 h1 hlo hhi
    · simp only [if_neg hmany]
      exact fill_last hm hj hsize hmany ha res

end Level

/-- `C` has the old comparisons, `D` the ones from dealt bits and `E` those with a timer. -/
theorem argMax_family {C D E : Comparisons 3 L G} (hC : C.Correct shares3pc k)
    (hD : D.Correct shares3pc k) (hE : E.Correct shares3pc k) (hk : k ≤ 8*L)
    {a : Shares 3 (Lint L)} {size batch_size : Nat} {net : Net 3 G}
    (hnet : shares3pc.Consistent net) (hsize : 0 < size) {A : Nat → Nat → BitVec k}
    (ha : Candidates shares3pc k size batch_size a A) :
    ∀ j, j < batch_size → ∃ x, x < size ∧ (∀ y, y < size → (A j y).toInt ≤ (A j x).toInt) ∧
      ∀ w res res_index,
        ArithSharing shares3pc k (C.argMax w res res_index a k size batch_size net).res j (A j x) ∧
        ArithSharing shares3pc k (C.argMax w res res_index a k size batch_size net).res_index j
          (BitVec.ofNat k x) ∧
        ArithSharing shares3pc k (D.edaArgMax w res res_index a k size batch_size net).res j
          (A j x) ∧
        ArithSharing shares3pc k (D.edaArgMax w res res_index a k size batch_size net).res_index j
          (BitVec.ofNat k x) ∧
        ArithSharing shares3pc k (E.edaArgMaxTime w res res_index a k size batch_size net).res j
          (A j x) ∧
        ArithSharing shares3pc k
          (E.edaArgMaxTime w res res_index a k size batch_size net).res_index j
          (BitVec.ofNat k x) ∧
        ArithSharing shares3pc k (C.maximum w res a k size batch_size net).1 j (A j x) ∧
        ArithSharing shares3pc k (D.edaMaximum w res a k size batch_size net).1 j (A j x) := by
  intro j hj
  obtain ⟨x,hx,heq⟩ :=
    Tournament.winner_mem (f := fun x => (A j x).toInt) id hsize
  refine ⟨x,hx,fun y hy => ?_,fun w res res_index => ?_⟩
  · have hle := Tournament.le_winner (f := fun x => (A j x).toInt) id y hy
    rw [heq] at hle
    exact hle
  · have hold := argMaxWith_isSharing (w := w) res res_index hC hk (Nat.le_refl 2) a12_marked hnet
      hsize hj (ha.range j hj) (ha.shared j hj)
    have heda := argMaxWith_isSharing (w := w) res res_index hD hk (Nat.le_refl 2) bi_marked hnet
      hsize hj (ha.range j hj) (ha.shared j hj)
    have htime := argMaxWith_isSharing (w := w) res res_index hE hk (Nat.le_refl 2) bi_marked hnet
      hsize hj (ha.range j hj) (ha.shared j hj)
    have hmax := maximumWith_isSharing (w := w) res hC hk (Nat.le_refl 2) hj id hsize hnet
      (ha.range j hj) (ha.shared j hj)
    have hedaMax := maximumWith_isSharing (w := w) res hD hk (Nat.le_refl 2) hj id hsize hnet
      (ha.range j hj) (ha.shared j hj)
    rw [heq] at hold heda htime hmax hedaMax
    exact ⟨hold.1,hold.2,heda.1,heda.2,htime.1,htime.2,hmax,hedaMax⟩

theorem argMax_family_two :
    let C := comparisons3pc (L := 4) (G := Tape) ⟨fun _ _ _ => 7,fun _ _ _ => 9,fun _ _ _ => 5⟩
      fun _ _ _ => 3
    let a : Shares 3 (Lint 4) := fun _ _ i => BitVec.ofNat 32 ([1,4,4,5,2,0].getD i 0)
    let net : Net 3 Tape := fun _ _ => ⟨fun i => BitVec.ofNat 8 (3*i+1)⟩
    let x : Shares 3 (Lint 4) := fun _ _ _ => 8
    let w : Nat → CallArrays 3 4 := fun _ => ⟨x,x,x,x,x,x,x⟩
    ArithSharing shares3pc 6 (C.argMax w x x a 6 3 2 net).res 1 15 ∧
    ArithSharing shares3pc 6 (C.argMax w x x a 6 3 2 net).res_index 1 0 ∧
    ArithSharing shares3pc 6 (C.edaMaximum w x a 6 3 2 net).1 1 15 := by
  intro C a net x w
  have hC : C.Correct shares3pc 6 := comparisons3pc_correct (by decide) (by decide) _ _
  have hnet : shares3pc.Consistent net := fun _ _ _ _ _ _ _ => rfl
  let A : Nat → Nat → BitVec 6 := fun j i => BitVec.ofNat 6 (3*[1,4,4,5,2,0].getD (j*3 + i) 0)
  have ha : Candidates shares3pc 6 3 2 a A := by
    refine ⟨fun j hj i hi => ⟨fun _ => (a 0 0 (j*3 + i)).setWidth 6,fun _ _ _ => rfl,?_⟩,by decide⟩
    revert i hi j hj
    decide
  obtain ⟨y,hy,hmax,h⟩ := argMax_family hC hC hC (by decide) hnet (by decide : 0 < 3) ha 1
    (by decide)
  have hfirst : ∀ y, y < 3 → (A 1 0).toInt ≤ (A 1 y).toInt → y = 0 := by decide
  obtain rfl := hfirst y hy (hmax 0 (by decide))
  obtain ⟨hres,hindex,-,-,-,-,-,hmaximum⟩ := h w x x
  exact ⟨hres,hindex,hmaximum⟩

end Comparisons
end RssRing
