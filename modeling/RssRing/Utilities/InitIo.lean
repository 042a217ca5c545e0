import RssRing.Sharing
import RssRing.NodeNetwork.PrgSetup
set_option autoImplicit false

namespace RssRing
open Replicated

variable {L : Nat}

structure IntType where
  width : Nat
  signed : Bool

namespace IntType
variable (c : IntType)

def toInt (x : BitVec c.width) : Int := if c.signed then x.toInt else x.toNat

/-- The width an operation with a `Lint` takes place in. -/
def common (L : Nat) : Nat := max c.width (8*L)

def convert (L : Nat) (x : BitVec c.width) : BitVec (c.common L) :=
  if c.signed then x.signExtend (c.common L) else x.setWidth (c.common L)

def maskInput (L ring_size : Nat) (x : BitVec c.width) : BitVec (c.common L) :=
  c.convert L x &&& (((1 : Lint L) <<< ring_size) - 1).setWidth (c.common L)

theorem le_common (L : Nat) : 8*L ≤ c.common L := Nat.le_max_right c.width (8*L)

theorem setWidth_convert {k : Nat} (hk : k ≤ 8*L) (x : BitVec c.width) :
    (c.convert L x).setWidth k = BitVec.ofInt k (c.toInt x) := by
  have hcommon : k ≤ c.common L := hk.trans (c.le_common L)
  by_cases hs : c.signed = true
  · have hdvd : 2^k ∣ 2^c.common L := Nat.pow_dvd_pow 2 hcommon
    rw [convert,toInt,if_pos hs,if_pos hs,BitVec.signExtend,
      ← BitVec.signExtend_eq_setWidth_of_le _ hcommon]
    apply BitVec.eq_of_toInt_eq
    rw [BitVec.toInt_signExtend_eq_toInt_bmod_of_le _ hcommon,BitVec.toInt_ofInt,
      BitVec.toInt_ofInt,Int.bmod_bmod_of_dvd hdvd]
  · rw [convert,toInt,if_neg hs,if_neg hs,BitVec.setWidth_setWidth_of_le _ hcommon,
      BitVec.ofInt_natCast]
    exact BitVec.eq_of_toNat_eq (by simp)

theorem setWidth_maskInput {k : Nat} (hk : k < 8*L) (x : BitVec c.width) :
    (c.maskInput L k x).setWidth k = BitVec.ofInt k (c.toInt x) := by
  rw [← c.setWidth_convert hk.le]
  apply BitVec.eq_of_getLsbD_eq
  intro j hj
  have hcommon := c.le_common L
  have hshift : ((1 : Lint L) <<< k) - 1 = shift L k := by
    rw [shift,if_neg (by omega)]
  rw [maskInput,hshift,BitVec.getLsbD_setWidth,BitVec.getLsbD_setWidth,BitVec.getLsbD_and,
    BitVec.getLsbD_setWidth,getLsbD_shift,decide_eq_true hj,decide_eq_true (by omega),
    decide_eq_true (by omega)]
  simp

end IntType

/-- The overloads, named by the type of the input. -/
inductive Overload where
  | longLong
  | sLint
  | lint
  | quantParam

/-- What an overload reads of element `i`. Of a `quant_param` it is the `int`
`zero_point`. -/
def Overload.read (L : Nat) : Overload → IntType
  | .longLong => ⟨64,true⟩
  | .sLint => ⟨64,true⟩
  | .lint => ⟨8*L,false⟩
  | .quantParam => ⟨32,true⟩

section Generator
variable [AesNi]

def offlinePrg (src : Block) (ri : List Block) : Block := prgAes ri src

def offlinePrgKeyschedule (src : Block) : List Block := prgKeyschedule src

/-- The word that goes to `destination` and the next seed: the same bytes over zeros. -/
def prgAesNi (L : Nat) (seed : Block) (key : List Block) : Lint L × Block :=
  let res := offlinePrg seed key
  (res.setWidth (8*L),(res.setWidth (8*L)).setWidth 128)

def blockOf (bytes : List Byte) : Block := memcpyWord (L := 16) 0 (fun j => bytes.getD j 0) 0 16

def rawKey : Block := blockOf
  [0x2b,0x7e,0x15,0x16,0x28,0xae,0xd2,0xa6,0xab,0xf7,0x15,0x88,0x09,0xcf,0x4f,0x3c]

def key1 : Block := blockOf
  [0x32,0x43,0xf6,0xa8,0x88,0x5a,0x30,0x8d,0x31,0x31,0x98,0xa2,0xe0,0x37,0x07,0x34]

def drawShares (draws ring_size : Nat) (seed : Block) : (Nat → Lint L) × Block :=
  (List.range draws).foldl (fun (splitInput,seed) j =>
    let (destination,seed) := prgAesNi L seed (offlinePrgKeyschedule rawKey)
    (Function.update splitInput j (destination &&& shift L ring_size),seed)) (fun _ => 0,seed)

/-- `splitInput[j][i]` after the loop over the elements. `last` makes the last share
of an element from its drawn ones. -/
def splitInput (draws ring_size size : Nat) (last : Nat → (Nat → Lint L) → Lint L) :
    Nat → Nat → Lint L :=
  ((List.range size).foldl (fun (splitInput,seed) i =>
    let (shares,seed) := drawShares draws ring_size seed
    let shares := Function.update shares draws (last i shares)
    (fun j => Function.update (splitInput j) i (shares j),seed))
    ((fun _ _ => 0),key1)).1

theorem splitInput_column {draws k size : Nat} (last : Nat → (Nat → Lint L) → Lint L) {i : Nat}
    (hi : i < size) :
    ∃ seed, ∀ j, splitInput draws k size last j i = Function.update (drawShares draws k seed).1 draws
      (last i (drawShares draws k seed).1) j := by
  induction size with
  | zero => exact absurd hi (Nat.not_lt_zero i)
  | succ size ih =>
    simp only [splitInput,List.range_succ,List.foldl_append,List.foldl_cons,List.foldl_nil]
    rcases Nat.lt_succ_iff_lt_or_eq.mp hi with hlt | rfl
    · obtain ⟨seed,hseed⟩ := ih hlt
      refine ⟨seed,fun j => ?_⟩
      rw [Function.update_of_ne (by omega)]
      exact hseed j
    · exact ⟨_,fun j => by rw [Function.update_self]⟩

theorem splitInput_sum {draws k size : Nat} (last : Nat → (Nat → Lint L) → Lint L) {i : Nat}
    (hi : i < size) {v : BitVec k} (hlast : ∀ drawn,
      (last i drawn).setWidth k = v - ∑ j ∈ Finset.range draws, (drawn j).setWidth k) :
    ∑ j ∈ Finset.range (draws+1), (splitInput draws k size last j i).setWidth k = v := by
  obtain ⟨seed,hdrawn⟩ := splitInput_column last hi
  have hfirst : ∀ j ∈ Finset.range draws,
      splitInput draws k size last j i = (drawShares draws k seed).1 j := by
    intro j hj
    rw [hdrawn,Function.update_of_ne (Finset.mem_range.mp hj).ne]
  rw [Finset.sum_range_succ,Finset.sum_congr rfl fun j hj => by rw [hfirst j hj],hdrawn draws,
    Function.update_self,hlast]
  abel

end Generator

def lastShare (c : IntType) (ring_size : Nat) (input : BitVec c.width) (splitInput : Nat → Lint L) :
    Lint L :=
  ((c.maskInput L ring_size input - (splitInput 0).setWidth (c.common L)
    - (splitInput 1).setWidth (c.common L)) &&&
      (shift L ring_size).setWidth (c.common L)).setWidth (8*L)

def lastShareMp (c : IntType) (ring_size : Nat) (input : BitVec c.width)
    (splitInput : Nat → Lint L) : Lint L :=
  (List.range 9).foldl (fun share j => share - splitInput j)
    ((c.maskInput L ring_size input).setWidth (8*L)) &&& shift L ring_size

def shareOrder3pc (p : Fin 3) (s : Nat) : Nat :=
  match pid p with
  | 1 => [1,2].getD s 0
  | 2 => [2,0].getD s 0
  | _ => [0,1].getD s 0

def shareIndeces (p : Fin 5) (s : Nat) : Nat :=
  (([[4,5,6,7,8,9],[7,8,1,9,2,3],[9,2,5,3,6,0],[3,6,8,0,1,4],[0,1,2,4,5,7]] :
    List (List Nat)).getD (pid p - 1) []).getD s 0

/-- `splitData(output, input, size, ring_size)` at the party `p`; `size` is `m*n` in
the overload for `long long`. -/
def splitData [AesNi] (o : Overload) (p : Fin 3) (output : Nat → Nat → Lint L)
    (input : Nat → BitVec (o.read L).width) (size ring_size : Nat) : Nat → Nat → Lint L :=
  let shares := splitInput 2 ring_size size (fun i => lastShare (o.read L) ring_size (input i))
  fun s i => if s < 2 ∧ i < size then shares (shareOrder3pc p s) i else output s i

/-- `splitData_mp(output, input, size, ring_size)` at the party `p`. The arrays of
`output` are replaced by arrays of `size` elements. -/
def splitDataMp [AesNi] (o : Overload) (p : Fin 5) (output : Nat → Nat → Lint L)
    (input : Nat → BitVec (o.read L).width) (size ring_size : Nat) : Nat → Nat → Lint L :=
  let shares := splitInput 9 ring_size size (fun i => lastShareMp (o.read L) ring_size (input i))
  fun s i => if s < 6 then shares (shareIndeces p s) i else output s i

variable {k : Nat} (c : IntType)

theorem lastShare_val (hk : k < 8*L) (x : BitVec c.width) (shares : Nat → Lint L) :
    (lastShare c k x shares).setWidth k =
      BitVec.ofInt k (c.toInt x) - ∑ j ∈ Finset.range 2, (shares j).setWidth k := by
  have hw := c.le_common L
  have hkw : k ≤ c.common L := by omega
  have hcut : ∀ y : BitVec (c.common L),
      ((y &&& (shift L k).setWidth (c.common L)).setWidth (8*L)).setWidth k = y.setWidth k := by
    intro y
    apply BitVec.eq_of_getLsbD_eq
    intro j hj
    rw [BitVec.setWidth_setWidth_of_le _ hk.le,BitVec.getLsbD_setWidth,BitVec.getLsbD_setWidth,
      BitVec.getLsbD_and,BitVec.getLsbD_setWidth,getLsbD_shift,decide_eq_true hj,
      decide_eq_true (show j < c.common L by omega),decide_eq_true (show j < 8*L by omega)]
    simp
  have hword : ∀ y : Lint L, (y.setWidth (c.common L)).setWidth k = y.setWidth k :=
    fun y => BitVec.setWidth_setWidth_of_le y hkw
  rw [lastShare,hcut,← lowBits_apply hkw,map_sub,map_sub,lowBits_apply,lowBits_apply,
    lowBits_apply,c.setWidth_maskInput hk,hword,hword,Finset.sum_range_succ,
    Finset.sum_range_one,sub_sub]

theorem setWidth_foldl_sub (hk : k ≤ 8*L) (shares : Nat → Lint L) (m : Nat) (y : Lint L) :
    ((List.range m).foldl (fun share j => share - shares j) y).setWidth k =
      y.setWidth k - ∑ j ∈ Finset.range m, (shares j).setWidth k := by
  induction m with
  | zero => simp
  | succ m ih =>
    rw [List.range_succ,List.foldl_append,List.foldl_cons,List.foldl_nil,
      setWidth_sub_of_le _ _ hk,ih,Finset.sum_range_succ,sub_sub]

theorem setWidth_and_shift (y : Lint L) : (y &&& shift L k).setWidth k = y.setWidth k :=
  setWidth_ext fun _ hj => getLsbD_masked y hj

theorem lastShareMp_val (hk : k < 8*L) (x : BitVec c.width) (shares : Nat → Lint L) :
    (lastShareMp c k x shares).setWidth k =
      BitVec.ofInt k (c.toInt x) - ∑ j ∈ Finset.range 9, (shares j).setWidth k := by
  rw [lastShareMp,setWidth_and_shift,setWidth_foldl_sub hk.le,
    BitVec.setWidth_setWidth_of_le _ hk.le,c.setWidth_maskInput hk]

def place3pc (t : Finset (Fin 3)) : Nat := [{0},{1},{2}].idxOf t

def place5pc (t : Finset (Fin 5)) : Nat :=
  [{0,1},{0,2},{0,3},{0,4},{1,2},{1,3},{1,4},{2,3},{2,4},{3,4}].idxOf t

theorem shareOrder3pc_eq : ∀ p s, s < 2 → shareOrder3pc p s = place3pc (shares3pc.hold p s) := by
  decide

theorem shareIndeces_eq : ∀ p s, s < 6 → shareIndeces p s = place5pc (shares5pc.hold p s) := by
  decide

theorem places3pc : shares3pc.names.val.map place3pc = Multiset.range 3 := by decide

theorem places5pc : shares5pc.names.val.map place5pc = Multiset.range 10 := by decide

theorem splitData_isSharing [AesNi] (o : Overload) (hk : k < 8*L)
    (input : Nat → BitVec (o.read L).width) (size : Nat) (output : Shares 3 (Lint L))
    (outputMp : Shares 5 (Lint L)) {i : Nat} (hi : i < size) :
    let v := BitVec.ofInt k ((o.read L).toInt (input i))
    ArithSharing shares3pc k (fun p => splitData o p (output p) input size k) i v ∧
      ArithSharing shares5pc k (fun p => splitDataMp o p (outputMp p) input size k) i v := by
  constructor
  · let shares : Nat → Nat → Lint L := splitInput 2 k size (fun i => lastShare (o.read L) k (input i))
    have hsharing := Pattern.isSharing_indexed places3pc shareOrder3pc_eq
      (fun j => (shares j i).setWidth k)
    rw [splitInput_sum _ hi fun drawn => by rw [lastShare_val _ hk]] at hsharing
    refine hsharing.congr fun p s hs => ?_
    simp only [splitData]
    rw [if_pos ⟨hs,hi⟩]
  · let shares : Nat → Nat → Lint L := splitInput 9 k size (fun i => lastShareMp (o.read L) k (input i))
    have hsharing := Pattern.isSharing_indexed places5pc shareIndeces_eq
      (fun j => (shares j i).setWidth k)
    rw [splitInput_sum _ hi fun drawn => by rw [lastShareMp_val _ hk]] at hsharing
    refine hsharing.congr fun p s hs => ?_
    simp only [splitDataMp]
    rw [if_pos (show s < 6 from hs)]

theorem splitData_isSharing_negative : ¬ ∃ _ : AesNi, ¬
    (ArithSharing shares3pc 30 (fun p => splitData (L := 4) .longLong p (fun _ _ => 0)
        (fun i => if i = 0 then -5 else 3) 2 30) 0 (-5) ∧
      ArithSharing shares5pc 30 (fun p => splitDataMp (L := 4) .longLong p (fun _ _ => 0)
        (fun i => if i = 0 then -5 else 3) 2 30) 0 (-5)) := by
  rintro ⟨_,h⟩
  exact h (splitData_isSharing (L := 4) .longLong (by decide) (fun i => if i = 0 then -5 else 3) 2
    (fun _ _ _ => 0) (fun _ _ _ => 0) (i := 0) (by decide))

end RssRing
