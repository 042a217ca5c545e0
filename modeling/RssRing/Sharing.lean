import RssRing.NodeNetwork.Exchange
import RssRing.NodeNetwork.Prg
set_option autoImplicit false

namespace RssRing
open Replicated

/-- What the variants of one protocol do differently with their words: how many
bytes an element takes in a stream and on the wire, and how two words combine. -/
structure WordKind (W : Type) where
  bytes : Nat
  zero : W
  add : W → W → W
  sub : W → W → W
  mul : W → W → W
  load : W → (Nat → Byte) → Nat → W
  sent : W → W
  recv : W → W

def arithKind (L ring_size : Nat) : WordKind (Lint L) where
  bytes := byteWidth ring_size
  zero := 0
  add x y := x + y
  sub x y := x - y
  mul x y := x * y
  load z buffer pos := memcpyWord z buffer (pos*byteWidth ring_size) (byteWidth ring_size)
  sent := masked ring_size
  recv := received ring_size

def bitwiseKind (L ring_size : Nat) : WordKind (Lint L) where
  bytes := byteWidth ring_size
  zero := 0
  add x y := x ^^^ y
  sub x y := x ^^^ y
  mul x y := x &&& y
  load z buffer pos := memcpyWord z buffer (pos*byteWidth ring_size) (byteWidth ring_size)
  sent := masked ring_size
  recv := received ring_size

def byteKind : WordKind Byte where
  bytes := 1
  zero := 0
  add x y := x ^^^ y
  sub x y := x ^^^ y
  mul x y := x &&& y
  load _ buffer pos := buffer pos
  sent x := x
  recv x := x

/-- A ring that the words stand for. What a word held before a `load` and the
cut to the ring size on the wire do not show in it. -/
structure Reading {W : Type} (K : WordKind W) (R : Type) [CommRing R] where
  val : W → R
  zero : val K.zero = 0
  add : ∀ x y, val (K.add x y) = val x + val y
  sub : ∀ x y, val (K.sub x y) = val x - val y
  mul : ∀ x y, val (K.mul x y) = val x * val y
  load : ∀ x y buffer pos, val (K.load x buffer pos) = val (K.load y buffer pos)
  sent : ∀ x, val (K.sent x) = val x
  recv : ∀ x, val (K.recv x) = val x

attribute [simp] Reading.zero Reading.add Reading.sub Reading.mul Reading.sent Reading.recv

variable {L k j : Nat}

theorem setWidth_ext {x y : Lint L} (h : ∀ j, j < k → x.getLsbD j = y.getLsbD j) :
    x.setWidth k = y.setWidth k := by
  apply BitVec.eq_of_getLsbD_eq
  intro j hj
  simp only [BitVec.getLsbD_setWidth,h j hj]

theorem getLsbD_masked (x : Lint L) (hj : j < k) : (masked k x).getLsbD j = x.getLsbD j := by
  rw [masked,getLsbD_and_shift,decide_eq_true hj,Bool.and_true]

theorem getLsbD_load (x y : Lint L) (src : Nat → Byte) (off : Nat) (hj : j < k) :
    (memcpyWord x src off (byteWidth k)).getLsbD j =
      (memcpyWord y src off (byteWidth k)).getLsbD j := by
  have hk := le_byteWidth k
  have hbyte : j < 8*byteWidth k := by omega
  rw [getLsbD_memcpyWord,getLsbD_memcpyWord,if_pos hbyte,if_pos hbyte]

theorem setWidth_sub_of_le (x y : Lint L) (hk : k ≤ 8*L) :
    (x - y).setWidth k = x.setWidth k - y.setWidth k := by
  rw [BitVec.sub_eq_add_neg,BitVec.setWidth_add _ _ hk,BitVec.setWidth_neg_of_le hk,
    BitVec.sub_eq_add_neg]

def lowBits {w k : Nat} (hk : k ≤ w) : BitVec w →+* BitVec k where
  toFun x := x.setWidth k
  map_one' := by
    apply BitVec.eq_of_getLsbD_eq
    intro j hj
    cases j with
    | zero => simp [hj,show 0 < w by omega]
    | succ j => simp
  map_mul' x y := BitVec.setWidth_mul x y hk
  map_zero' := by simp
  map_add' x y := BitVec.setWidth_add x y hk

theorem lowBits_apply {w k : Nat} (hk : k ≤ w) (x : BitVec w) : lowBits hk x = x.setWidth k := rfl

def arithReading (hk : k ≤ 8*L) : Reading (arithKind L k) (BitVec k) where
  val x := x.setWidth k
  zero := by simp [arithKind]
  add x y := BitVec.setWidth_add x y hk
  sub x y := setWidth_sub_of_le x y hk
  mul x y := BitVec.setWidth_mul x y hk
  load x y buffer pos := setWidth_ext fun _ hj => getLsbD_load x y buffer _ hj
  sent x := setWidth_ext fun _ hj => getLsbD_masked x hj
  recv x := setWidth_ext fun _ hj => by
    simp only [arithKind,received_eq,getLsbD_masked x hj]

def bitReading (L : Nat) (hj : j < k) : Reading (bitwiseKind L k) Bool where
  val x := x.getLsbD j
  zero := BitVec.getLsbD_zero
  add _ _ := BitVec.getLsbD_xor
  sub _ _ := BitVec.getLsbD_xor
  mul _ _ := BitVec.getLsbD_and
  load x y buffer pos := getLsbD_load x y buffer _ hj
  sent x := getLsbD_masked x hj
  recv x := by simp only [bitwiseKind,received_eq,getLsbD_masked x hj]

def byteReading (j : Nat) : Reading byteKind Bool where
  val x := x.getLsbD j
  zero := BitVec.getLsbD_zero
  add _ _ := BitVec.getLsbD_xor
  sub _ _ := BitVec.getLsbD_xor
  mul _ _ := BitVec.getLsbD_and
  load _ _ _ _ := rfl
  sent _ := rfl
  recv _ := rfl

abbrev Shares (n : Nat) (W : Type) := Fin n → Nat → Nat → W

def bitVal (k : Nat) (c : Bool) : BitVec k := (BitVec.ofBool c).setWidth k

theorem bitVal_eq (k : Nat) (c : Bool) : bitVal k c = if c then 1 else 0 := by
  cases c with
  | false => simp [bitVal]
  | true =>
    apply BitVec.eq_of_toNat_eq
    simp [bitVal]

theorem lsb_bitVal (hk : 0 < k) (c : Bool) : (bitVal k c).getLsbD 0 = c := by
  simp [bitVal,hk,-BitVec.getLsbD_eq_getElem]

theorem getLsbD_bitVal (c : Bool) (hj : j < k) :
    (bitVal k c).getLsbD j = (decide (j = 0) && c) := by
  cases j with
  | zero => simpa using lsb_bitVal hj c
  | succ j => simp [bitVal]

theorem setWidth_bitVal (hk : 0 < k) (k' : Nat) (c : Bool) :
    (bitVal k c).setWidth k' = bitVal k' c := by
  apply BitVec.eq_of_getLsbD_eq
  intro j hj
  rw [BitVec.getLsbD_setWidth,getLsbD_bitVal c hj,decide_eq_true hj,Bool.true_and]
  by_cases hjk : j < k
  · exact getLsbD_bitVal c hjk
  · rw [BitVec.getLsbD_of_ge _ j (by omega),decide_eq_false (by omega),Bool.false_and]

theorem setWidth_bitWord (hk : k ≤ 8*L) (c : Bool) : (bitWord L c).setWidth k = bitVal k c := by
  rw [bitWord,bitVal,BitVec.setWidth_setWidth_of_le _ hk]

variable {n : Nat} {T : Type}

/-- The holders of each share agree modulo `2^k` on element `i`, and the shares
add up to `v`. -/
def ArithSharing (H : Pattern (Fin n) T) (k : Nat) (x : Shares n (Lint L)) (i : Nat)
    (v : BitVec k) : Prop :=
  H.IsSharing (fun p s => (x p s i).setWidth k) v

/-- The holders of each share agree on the low `k` bits of element `i`, and the
shares xor to `v`. -/
def BitSharing {w : Nat} (H : Pattern (Fin n) T) (k : Nat) (x : Shares n (BitVec w)) (i : Nat)
    (v : BitVec k) : Prop :=
  ∀ j, j < k → H.IsSharing (fun p s => (x p s i).getLsbD j) (v.getLsbD j)

def indicator (k a : Nat) (i : Nat) : BitVec k := if i = a then 1 else 0

theorem indicator_self (k a : Nat) : indicator k a a = 1 := if_pos rfl

theorem indicator_of_ne {a i : Nat} (h : i ≠ a) : indicator k a i = 0 := if_neg h

theorem one_ne_zero_of_pos (hk : 0 < k) : (1 : BitVec k) ≠ 0 := by
  intro h
  have hbit := congrArg (fun x => x.getLsbD 0) h
  simp [hk] at hbit

theorem exists_arithSharing [DecidableEq T] {H : Pattern (Fin n) T} {t : T} (ht : t ∈ H.names)
    (hk : k ≤ 8*L) (f : Nat → BitVec k) :
    ∃ x : Shares n (Lint L), ∀ i, ArithSharing H k x i (f i) := by
  refine ⟨fun p s i => if H.hold p s = t then (f i).setWidth (8*L) else 0,fun i => ?_⟩
  refine Pattern.isSharing_public ht (f i) fun p s _ => ?_
  by_cases h : H.hold p s = t
  · simp only [if_pos h]
    rw [BitVec.setWidth_setWidth_of_le _ hk,BitVec.setWidth_eq]
  · simp only [if_neg h]
    exact BitVec.setWidth_zero ..

def firstSlots {W : Type} (m : Nat) (x old : Shares n W) : Shares n W := fun p s i =>
  if s < m then x p s i else old p s i

theorem firstSlots_of_lt {W : Type} {m s : Nat} (hs : s < m) (x old : Shares n W) (p : Fin n)
    (i : Nat) : firstSlots m x old p s i = x p s i := if_pos hs

theorem firstSlots_of_ge {W : Type} {m s : Nat} (hs : m ≤ s) (x old : Shares n W) (p : Fin n)
    (i : Nat) : firstSlots m x old p s i = old p s i := if_neg (Nat.not_lt.mpr hs)

theorem ArithSharing.firstSlots {H : Pattern (Fin n) T} {m : Nat} (hm : H.slots ≤ m)
    {x : Shares n (Lint L)} {i : Nat} {v : BitVec k} (h : ArithSharing H k x i v)
    (old : Shares n (Lint L)) : ArithSharing H k (firstSlots m x old) i v :=
  h.congr fun p s hs => by rw [firstSlots_of_lt (Nat.lt_of_lt_of_le hs hm)]

theorem BitSharing.firstSlots {w : Nat} {H : Pattern (Fin n) T} {m : Nat} (hm : H.slots ≤ m)
    {x : Shares n (BitVec w)} {i : Nat} {v : BitVec k} (h : BitSharing H k x i v)
    (old : Shares n (BitVec w)) : BitSharing H k (firstSlots m x old) i v := fun j hj =>
  (h j hj).congr fun p s hs => by rw [firstSlots_of_lt (Nat.lt_of_lt_of_le hs hm)]

end RssRing
