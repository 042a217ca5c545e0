import RssRing.ProtocolsBasic.Reveal
set_option autoImplicit false

namespace RssRing
open Replicated

/-- What the composite routines, which have one text for all numbers of parties,
are built from. -/
structure Suite (n L : Nat) (G : Type) where
  numShares : Nat
  /-- Whether `ai[s]` is set at a party: its slot of the one share that takes the
  public constants. -/
  ai : Fin n → Nat → Bool
  multByte : Shares n Byte → Shares n Byte → Nat → Net n G → Shares n Byte × Net n G
  multBitwise : Shares n (Lint L) → Shares n (Lint L) → Shares n (Lint L) → Nat → Nat → Net n G →
    Shares n (Lint L) × Net n G
  multPub : Shares n (Lint L) → Shares n (Lint L) → Nat → Nat → Net n G →
    (Fin n → Nat → Lint L) × Net n G
  openShares : Shares n (Lint L) → Nat → Fin n → Nat → Lint L
  clearsBuffer : Bool

variable {n L : Nat} {G : Type}

def ai3pc (p : Fin 3) (s : Nat) : Bool :=
  match pid p with
  | 1 => s == 0
  | 3 => s == 1
  | _ => false

/-- `a1` and `a2`, or `b1` and `b2`, in code for any number of parties. -/
def a12 (p : Fin n) (s : Nat) : Bool :=
  match pid p with
  | 1 => s == 0
  | 3 => s == 1
  | _ => false

def ai5pc (p : Fin 5) (s : Nat) : Bool :=
  match pid p with
  | 1 => s == 0
  | 4 => s == 5
  | 5 => s == 3
  | _ => false

def ai7pc (p : Fin 7) (s : Nat) : Bool :=
  match pid p with
  | 1 => s == 0
  | 5 => s == 19
  | 6 => s == 16
  | 7 => s == 10
  | _ => false

/-- `scratch` is what the arrays `v_a` and `c` of the public multiplication held
before. A byte is overwritten whole, so for `Rss_Mult_Byte` that does not matter. -/
def suite3pc [Generator G] (scratch : Shares 3 (Lint L)) : Suite 3 L G where
  numShares := 2
  ai := ai3pc
  multByte := rssMultByte fun _ _ _ => 0
  multBitwise := rssMultBitwise
  multPub := rssMultPub (fun p => scratch p 0) (fun p => scratch p 1)
  openShares := rssOpen
  clearsBuffer := false

/-- `Rss_MultPub_mp` as a parameter; its calls of `prg_getrandom` are kept. -/
def suite5pc [Generator G]
    (multPub : Shares 5 (Lint L) → Shares 5 (Lint L) → Nat → Nat → Net 5 G → Fin 5 → Nat → Lint L) :
    Suite 5 L G where
  numShares := 6
  ai := ai5pc
  multByte := rssMultByteMp
  multBitwise _ := rssMultBitwiseMp
  multPub a b size ring_size net := (multPub a b size ring_size net,
    net.advanceAll 6 (byteWidth ring_size) fun _ => size)
  openShares := rssOpenMp
  clearsBuffer := true

def suite7pc [Generator G]
    (multPub : Shares 7 (Lint L) → Shares 7 (Lint L) → Nat → Nat → Net 7 G → Fin 7 → Nat → Lint L)
    (openShares : Shares 7 (Lint L) → Nat → Fin 7 → Nat → Lint L) : Suite 7 L G where
  numShares := 20
  ai := ai7pc
  multByte := rssMultByte7pc
  multBitwise _ := rssMultBitwise7pc
  multPub a b size ring_size net := (multPub a b size ring_size net,
    net.advanceAll 20 (byteWidth ring_size) fun _ => size)
  openShares := openShares
  clearsBuffer := true

structure Suite.Marks (S : Suite n L G) (H : Pattern (Fin n) (Finset (Fin n)))
    (T₀ : Finset (Fin n)) : Prop where
  slots : S.numShares = H.slots
  mem : T₀ ∈ H.names
  ai : ∀ p s, s < H.slots → S.ai p s = decide (H.hold p s = T₀)

theorem suite3pc_marks [Generator G] (scratch : Shares 3 (Lint L)) :
    (suite3pc (G := G) scratch).Marks shares3pc {1} where
  slots := rfl
  mem := by decide
  ai := by
    show ∀ p s, s < shares3pc.slots → ai3pc p s = decide (shares3pc.hold p s = {1})
    decide

theorem suite5pc_marks [Generator G]
    (multPub : Shares 5 (Lint L) → Shares 5 (Lint L) → Nat → Nat → Net 5 G → Fin 5 → Nat → Lint L) :
    (suite5pc (G := G) multPub).Marks shares5pc {1,2} where
  slots := rfl
  mem := by decide
  ai := by
    show ∀ p s, s < shares5pc.slots → ai5pc p s = decide (shares5pc.hold p s = {1,2})
    decide

theorem suite7pc_marks [Generator G]
    (multPub : Shares 7 (Lint L) → Shares 7 (Lint L) → Nat → Nat → Net 7 G → Fin 7 → Nat → Lint L)
    (openShares : Shares 7 (Lint L) → Nat → Fin 7 → Nat → Lint L) :
    (suite7pc (G := G) multPub openShares).Marks shares7pc {1,2,3} where
  slots := rfl
  mem := by decide
  ai := by
    show ∀ p s, s < shares7pc.slots → ai7pc p s = decide (shares7pc.hold p s = {1,2,3})
    decide

theorem Suite.Marks.isSharing {R : Type} [AddCommMonoid R] {S : Suite n L G}
    {H : Pattern (Fin n) (Finset (Fin n))} {T₀ : Finset (Fin n)} (hS : S.Marks H T₀) (c : R) :
    H.IsSharing (fun p s => if S.ai p s then c else 0) c := by
  refine Pattern.isSharing_public hS.mem c fun p s hs => ?_
  rw [hS.ai p s hs]
  simp only [decide_eq_true_eq]

theorem Suite.Marks.publicBit {S : Suite n L G} {H : Pattern (Fin n) (Finset (Fin n))}
    {T₀ : Finset (Fin n)} (hS : S.Marks H T₀) (c : Bool) :
    H.IsSharing (fun p s => c && S.ai p s) c := by
  refine (hS.isSharing c).congr fun p s _ => ?_
  cases S.ai p s with
  | false => exact Bool.and_false c
  | true => exact Bool.and_true c

theorem Suite.Marks.publicWord {S : Suite n L G} {H : Pattern (Fin n) (Finset (Fin n))}
    {T₀ : Finset (Fin n)} (hS : S.Marks H T₀) {k : Nat} (hk : k ≤ 8*L) (f : Nat → BitVec k)
    (i : Nat) :
    BitSharing H k (fun p s i => if S.ai p s then (f i).setWidth (8*L) else 0) i (f i) := by
  intro j hj
  refine (hS.publicBit ((f i).getLsbD j)).congr fun p s _ => ?_
  have hj8 : j < 8*L := by omega
  by_cases hai : S.ai p s
  · simp [hai,hj8,-BitVec.getLsbD_eq_getElem]
  · simp [hai]

theorem Suite.Marks.publicArith {S : Suite n L G} {H : Pattern (Fin n) (Finset (Fin n))}
    {T₀ : Finset (Fin n)} (hS : S.Marks H T₀) {k : Nat} (hk : k ≤ 8*L) (f : Nat → BitVec k)
    (i : Nat) :
    ArithSharing H k (fun p s i => if S.ai p s then (f i).setWidth (8*L) else 0) i (f i) := by
  refine (hS.isSharing (f i)).congr fun p s _ => ?_
  have hword : ((f i).setWidth (8*L)).setWidth k = f i := by
    rw [BitVec.setWidth_setWidth_of_le _ hk,BitVec.setWidth_eq]
  cases hai : S.ai p s with
  | true => simp [hai,hword]
  | false => simp [hai]

/-- The low `n_uints` bytes of each word one after the other: `memcpy(a[s] +
j*n_uints, buffer[first + s] + j, n_uints)` for every `j`, as far as the bytes are read. -/
def toBytes (n_uints : Nat) (x : Shares n (Lint L)) (first : Nat) : Shares n Byte := fun p s m =>
  byteOf (x p (first + s) (m/n_uints)) (m%n_uints)

/-- What is kept true of every shared bit while a bitwise routine runs: `Shared x v`
says that the slots `x` stand for the bit `v`, in whatever sense the basic
operations respect. -/
structure Discipline (S : Suite n L G) where
  Shared : (Fin n → Nat → Bool) → Bool → Prop
  NetOk : Net n G → Prop
  congr : ∀ {x y v}, Shared x v → (∀ p s, s < S.numShares → y p s = x p s) → Shared y v
  zero : Shared (fun _ _ => false) false
  xor : ∀ {x y v w}, Shared x v → Shared y w → Shared (fun p s => x p s ^^ y p s) (v ^^ w)
  byteNet : ∀ a b size {net}, NetOk net → NetOk (S.multByte a b size net).2
  byteBit : ∀ a b {size net i j v w}, NetOk net → i < size → j < 8 →
    Shared (fun p s => (a p s i).getLsbD j) v → Shared (fun p s => (b p s i).getLsbD j) w →
    Shared (fun p s => ((S.multByte a b size net).1 p s i).getLsbD j) (v && w)
  bitwiseNet : ∀ c a b size ring_size {net}, NetOk net →
    NetOk (S.multBitwise c a b size ring_size net).2
  bitwiseBit : ∀ c a b {size ring_size net i j v w}, NetOk net → i < size → j < ring_size →
    Shared (fun p s => (a p s i).getLsbD j) v → Shared (fun p s => (b p s i).getLsbD j) w →
    Shared (fun p s => ((S.multBitwise c a b size ring_size net).1 p s i).getLsbD j) (v && w)

namespace Discipline
variable {S : Suite n L G} (D : Discipline S)

theorem and_public {x : Fin n → Nat → Bool} {v : Bool} (h : D.Shared x v) (c : Bool) :
    D.Shared (fun p s => c && x p s) (c && v) := by
  cases c with
  | false => simpa using D.zero
  | true => simpa using h

theorem byteWords (x : Shares n (Lint L)) (first second : Nat) {n_uints size i t : Nat}
    {net : Net n G} (hnet : D.NetOk net) (hi : i < size) (ht : t < 8*n_uints) {v w : Bool}
    (hv : D.Shared (fun p s => (x p (first + s) i).getLsbD t) v)
    (hw : D.Shared (fun p s => (x p (second + s) i).getLsbD t) w) :
    D.Shared (fun p s => ((S.multByte (toBytes n_uints x first) (toBytes n_uints x second)
      (n_uints*size) net).1 p s (t/8 + i*n_uints)).getLsbD (t%8)) (v && w) := by
  have hdiv : t/8 < n_uints := by omega
  have hmod : t%8 < 8 := Nat.mod_lt t (by decide)
  have hpos : t/8 + i*n_uints < n_uints*size := by
    have hle := Nat.mul_le_mul_right n_uints (show i+1 ≤ size from hi)
    rw [Nat.add_mul,Nat.one_mul,Nat.mul_comm size] at hle
    omega
  have hword : (t/8 + i*n_uints)/n_uints = i := by
    rw [Nat.add_mul_div_right _ _ (by omega),Nat.div_eq_of_lt hdiv,Nat.zero_add]
  have hbyte : (t/8 + i*n_uints)%n_uints = t/8 := by
    rw [Nat.add_mul_mod_self_right,Nat.mod_eq_of_lt hdiv]
  have hbit : ∀ y : Lint L, (byteOf y (t/8)).getLsbD (t%8) = y.getLsbD t := by
    intro y
    rw [getLsbD_byteOf,decide_eq_true hmod,Bool.true_and,Nat.div_add_mod]
  refine D.byteBit _ _ hnet hpos hmod ?_ ?_
  · simpa only [toBytes,hword,hbyte,hbit] using hv
  · simpa only [toBytes,hword,hbyte,hbit] using hw

end Discipline

def replicated3pc [Generator G] (scratch : Shares 3 (Lint L)) :
    Discipline (suite3pc (G := G) scratch) where
  Shared x v := shares3pc.IsSharing x v
  NetOk := shares3pc.Consistent
  congr h hxy := h.congr hxy
  zero := Pattern.isSharing_zero
  xor hx hy := hx.add hy
  byteNet a b size _ hnet := mult3pc_net hnet byteKind productByte size _ a b
  byteBit a b _ _ _ _ _ _ hnet _ _ hx hy :=
    mult3pc_isSharing (byteReading _) (productByte_val _) hnet _ _ _ a b hx hy
  bitwiseNet c a b size ring_size _ hnet :=
    mult3pc_net hnet (bitwiseKind L ring_size) (product3pc _) size c a b
  bitwiseBit c a b _ _ _ _ _ _ _ hnet _ hj hx hy :=
    mult3pc_isSharing (bitReading L hj) (product3pc_val _) hnet _ _ c a b hx hy

theorem public3pc [Generator G] (scratch : Shares 3 (Lint L)) (c : Bool) :
    (replicated3pc (G := G) scratch).Shared (fun p s => c && ai3pc p s) c :=
  (suite3pc_marks (G := G) scratch).publicBit c

def replicated5pc [Generator G]
    (multPub : Shares 5 (Lint L) → Shares 5 (Lint L) → Nat → Nat → Net 5 G → Fin 5 → Nat → Lint L) :
    Discipline (suite5pc (G := G) multPub) where
  Shared x v := shares5pc.IsSharing x v
  NetOk := shares5pc.Consistent
  congr h hxy := h.congr hxy
  zero := Pattern.isSharing_zero
  xor hx hy := hx.add hy
  byteNet a b size _ hnet := table5pc_agrees.net_consistent byteKind size _ hnet _ a b
  byteBit a b _ _ _ _ _ _ hnet hi _ hx hy :=
    table5pc_agrees.isSharing .running _ _ _ (byteReading _) rotation5pc pairs5pc_lt pairs5pc_once
      hnet a b hi hx hy
  bitwiseNet _ a b size ring_size _ hnet :=
    table5pc_agrees.net_consistent (bitwiseKind L ring_size) size _ hnet _ a b
  bitwiseBit _ a b _ _ _ _ _ _ _ hnet hi hj hx hy :=
    table5pc_agrees.isSharing .running _ _ _ (bitReading L hj) rotation5pc pairs5pc_lt pairs5pc_once
      hnet a b hi hx hy

def replicated7pc [Generator G]
    (multPub : Shares 7 (Lint L) → Shares 7 (Lint L) → Nat → Nat → Net 7 G → Fin 7 → Nat → Lint L)
    (openShares : Shares 7 (Lint L) → Nat → Fin 7 → Nat → Lint L) :
    Discipline (suite7pc (G := G) multPub openShares) where
  Shared x v := shares7pc.IsSharing x v
  NetOk := shares7pc.Consistent
  congr h hxy := h.congr hxy
  zero := Pattern.isSharing_zero
  xor hx hy := hx.add hy
  byteNet a b size _ hnet := table7pc_agrees.net_consistent byteKind size _ hnet _ a b
  byteBit a b _ _ _ _ _ _ hnet hi _ hx hy :=
    table7pc_agrees.isSharing .unmoved _ _ _ (byteReading _) rotation7pc pairs7pc_lt pairs7pc_once
      hnet a b hi hx hy
  bitwiseNet _ a b size ring_size _ hnet :=
    table7pc_agrees.net_consistent (bitwiseKind L ring_size) size _ hnet _ a b
  bitwiseBit _ a b _ _ _ _ _ _ _ hnet hi hj hx hy :=
    table7pc_agrees.isSharing .perUse _ _ _ (bitReading L hj) rotation7pc pairs7pc_lt pairs7pc_once
      hnet a b hi hx hy

end RssRing
