import RssRing.NodeNetwork.PrgSetup
import RssRing.Library.Readers
set_option autoImplicit false

namespace RssRing
open Readers (Reader feedback)

def memcpyBytes (dest : Nat → Byte) (off : Nat) (src : Nat → Byte) (bytes : Nat) : Nat → Byte :=
  fun j => if off ≤ j ∧ j < off + bytes then src (j - off) else dest j

def loadBlock (src : Nat → Byte) (off : Nat) : Block := memcpyWord (0 : Lint 16) src off 16

def storeBlock (dest : Nat → Byte) (off : Nat) (x : Block) : Nat → Byte :=
  memcpyBytes dest off (byteOf (L := 16) x) 16

namespace NodeNetwork
section
variable [AesNi]

/-- The text that both overloads of `prg_getrandom` share, on the entries of one key. -/
def fillRandom (g : PrgState) (size length : BitVec 32) (dest : Nat → Byte) :
    (Nat → Byte) × PrgState :=
  let total := size*length
  let rounds := (total - 16 + g.P + 15) >>> 4
  let unread := fun j => byteOf (L := 16) g.container (g.P.toNat + j)
  if rounds = 0 then (memcpyBytes dest 0 unread total.toNat,{ g with P := g.P + total })
  else
    let rest := (16 - g.P).toNat
    let dest := memcpyBytes dest 0 unread rest
    if 2 ≤ rounds then
      let dest := storeBlock dest rest (prgAes g.key g.container)
      let dest := (List.range' 1 (rounds.toNat - 2)).foldl (fun dest i =>
        storeBlock dest (rest + i <<< 4)
          (prgAes g.key (loadBlock dest (rest + (i-1) <<< 4)))) dest
      let container := prgAes g.key (loadBlock dest (rest + ((rounds - 2) <<< 4).toNat))
      let last := total - ((rounds - 1) <<< 4) - 16 + g.P
      (memcpyBytes dest (rest + ((rounds - 1) <<< 4).toNat) (byteOf (L := 16) container)
        last.toNat,{ g with container := container, P := last })
    else
      let container := prgAes g.key g.container
      let last := total - 16 + g.P
      (memcpyBytes dest rest (byteOf (L := 16) container) last.toNat,
        { g with container := container, P := last })

def prgGetrandom (st : Nat → PrgState) (keyID : Nat) (size length : BitVec 32)
    (dest : Nat → Byte) : (Nat → Byte) × (Nat → PrgState) :=
  let filled := fillRandom (st keyID) size length dest
  (filled.1,Function.update st keyID filled.2)

def prgGetrandomOwn (numShares : Nat) (st : Nat → PrgState) (size length : BitVec 32)
    (dest : Nat → Byte) : (Nat → Byte) × (Nat → PrgState) :=
  prgGetrandom st numShares size length dest

end

/-- One call of `prg_getrandom`, without `keyID` for the second overload. -/
structure Request where
  keyID : Option Nat
  size : BitVec 32
  length : BitVec 32
  dest : Nat → Byte

namespace Request

def key (numShares : Nat) (r : Request) : Nat := r.keyID.getD numShares

def amount (r : Request) : Nat := (r.size*r.length).toNat

/-- What the arithmetic in `uint` and `int` is for. -/
structure Valid (r : Request) : Prop where
  pos : 0 < r.amount
  small : r.amount < 2^31

instance (r : Request) : Decidable r.Valid :=
  decidable_of_iff (0 < r.amount ∧ r.amount < 2^31) ⟨fun h => ⟨h.1,h.2⟩,fun h => ⟨h.1,h.2⟩⟩

end Request

def requested (numShares keyID : Nat) (requests : List Request) : Nat :=
  Readers.asked (Request.key numShares) Request.amount keyID requests

section
variable [AesNi]

def call (numShares : Nat) (st : Nat → PrgState) (r : Request) :
    List Byte × (Nat → PrgState) :=
  let filled := match r.keyID with
    | some keyID => prgGetrandom st keyID r.size r.length r.dest
    | none => prgGetrandomOwn numShares st r.size r.length r.dest
  ((List.range r.amount).map filled.1,filled.2)

def drawn (numShares : Nat) (st : Nat → PrgState) (keyID : Nat) (requests : List Request) :
    List Byte :=
  Readers.itemsOf (Request.key numShares) keyID (Readers.serve (call numShares) st requests).1

def left (numShares : Nat) (st : Nat → PrgState) (keyID : Nat) (requests : List Request) :
    PrgState :=
  (Readers.serve (call numShares) st requests).2 keyID

end
end NodeNetwork

abbrev aesBlocks [AesNi] (key : List Block) : Reader (Block × Nat) Byte :=
  feedback (prgAes key) (byteOf (L := 16)) (show 0 < 16 by decide)

namespace PrgState

def position (g : PrgState) : Block × Nat := (g.container,g.P.toNat)

def moveTo (g : PrgState) (x : Block × Nat) : PrgState :=
  { g with container := x.1, P := BitVec.ofNat 32 x.2 }

@[simp] theorem key_moveTo (g : PrgState) (x : Block × Nat) : (g.moveTo x).key = g.key := rfl

theorem position_moveTo (g : PrgState) {x : Block × Nat} (hx : x.2 < 2^32) :
    (g.moveTo x).position = x := by
  simp only [position,moveTo,BitVec.toNat_ofNat,Nat.mod_eq_of_lt hx]

theorem moveTo_position (g : PrgState) : g.moveTo g.position = g := by
  simp only [moveTo,position,BitVec.ofNat_toNat,BitVec.setWidth_eq]

theorem position_skip_lt [AesNi] (g : PrgState) (m : Nat) :
    ((aesBlocks g.key).skip g.position m).2 < 2^32 := by
  rcases Nat.eq_zero_or_pos m with rfl | hm
  · rw [Reader.skip_zero]
    exact g.P.isLt
  · have hplace := Nat.mod_lt (g.P.toNat + m - 1) (show 0 < 16 by decide)
    simp only [feedback,position]
    rw [if_neg (by omega)]
    omega

end PrgState

section Filled
variable (stream : Nat → Byte) (n : Nat) (old : Nat → Byte)

def filled : Nat → Byte := fun j => if j < n then stream j else old j

theorem filled_zero : filled stream 0 old = old := by
  funext j
  rw [filled,if_neg (Nat.not_lt_zero j)]

variable {stream n old}

theorem memcpyBytes_filled {src : Nat → Byte} {bytes : Nat}
    (hsrc : ∀ j, j < bytes → src j = stream (n + j)) :
    memcpyBytes (filled stream n old) n src bytes = filled stream (n + bytes) old := by
  funext j
  simp only [memcpyBytes,filled]
  by_cases hn : j < n
  · rw [if_neg (by omega),if_pos hn,if_pos (by omega)]
  · by_cases hend : j < n + bytes
    · rw [if_pos (by omega),if_pos hend,hsrc _ (by omega)]
      congr 1
      omega
    · rw [if_neg (by omega),if_neg hn,if_neg hend]

theorem loadBlock_of_bytes {src : Nat → Byte} {off : Nat} {x : Block}
    (hsrc : ∀ m, m < 16 → src (off + m) = byteOf (L := 16) x m) : loadBlock src off = x := by
  apply BitVec.eq_of_getLsbD_eq
  intro j hj
  rw [loadBlock,getLsbD_memcpyWord,decide_eq_true hj,Bool.true_and,if_pos (by omega),
    hsrc _ (by omega),getLsbD_byteOf,decide_eq_true (Nat.mod_lt j (by decide)),Bool.true_and,
    Nat.div_add_mod]

end Filled

section Bounds
variable {g : PrgState} {total : BitVec 32}

theorem toNat_blocks {x : BitVec 32} (hx : x.toNat < 2^28) : (x <<< 4).toNat = 16*x.toNat := by
  rw [BitVec.toNat_shiftLeft,Nat.shiftLeft_eq,Nat.mul_comm]
  exact Nat.mod_eq_of_lt (by omega)

theorem toNat_rest (hP : g.P.toNat ≤ 16) : (16 - g.P).toNat = 16 - g.P.toNat := by
  bv_omega

theorem toNat_rounds (hP : g.P.toNat ≤ 16) (hpos : 0 < total.toNat) (hsmall : total.toNat < 2^31) :
    ((total - 16 + g.P + 15) >>> 4).toNat = (g.P.toNat + total.toNat - 1)/16 := by
  have hsum : (total - 16 + g.P + 15).toNat = g.P.toNat + total.toNat - 1 := by
    bv_omega
  rw [BitVec.toNat_ushiftRight,hsum,Nat.shiftRight_eq_div_pow]

theorem toNat_last (hP : g.P.toNat ≤ 16) (hsmall : total.toNat < 2^31) {b : Nat}
    (hb : 16*b + 16 ≤ g.P.toNat + total.toNat) {x : BitVec 32} (hx : x.toNat = 16*b) :
    (total - x - 16 + g.P).toNat = g.P.toNat + total.toNat - 16*b - 16 := by
  bv_omega

end Bounds

section Stream
variable [AesNi]

def prgStream : Reader PrgState Byte where
  stream g := (aesBlocks g.key).stream g.position
  skip g m := g.moveTo ((aesBlocks g.key).skip g.position m)
  skip_zero g := by rw [Reader.skip_zero,g.moveTo_position]
  skip_skip g m n := by
    rw [PrgState.key_moveTo,PrgState.position_moveTo g (g.position_skip_lt m),Reader.skip_skip]
    rfl
  stream_skip g m j := by
    rw [PrgState.key_moveTo,PrgState.position_moveTo g (g.position_skip_lt m),
      Reader.stream_skip]

section Fill
variable {g : PrgState}

theorem stream_unread {j : Nat} (hj : g.P.toNat + j < 16) :
    prgStream.stream g j = byteOf (L := 16) g.container (g.P.toNat + j) := by
  simp only [prgStream,feedback,PrgState.position]
  rw [Nat.div_eq_of_lt hj,Nat.mod_eq_of_lt hj,Function.iterate_zero_apply]

theorem stream_block (hP : g.P.toNat ≤ 16) (t : Nat) {m : Nat} (hm : m < 16) :
    prgStream.stream g ((16 - g.P).toNat + 16*t + m) =
      byteOf (L := 16) ((prgAes g.key)^[t+1] g.container) m := by
  have hplace : g.P.toNat + ((16 - g.P).toNat + 16*t + m) = (t+1)*16 + m := by
    rw [toNat_rest hP]
    omega
  simp only [prgStream,feedback,PrgState.position]
  rw [hplace,index_div hm,index_mod hm]

theorem skip_eq {m : Nat} (hm : 0 < m) {rounds : Nat} (hrounds : rounds = (g.P.toNat + m - 1)/16)
    {P : BitVec 32} (hP : P.toNat = g.P.toNat + m - 16*rounds) :
    prgStream.skip g m =
      { g with container := (prgAes g.key)^[rounds] g.container, P := P } := by
  have hplace : (g.P.toNat + m - 1)%16 + 1 = P.toNat := by omega
  simp only [prgStream,feedback,PrgState.position,PrgState.moveTo]
  rw [if_neg (by omega),hplace,hrounds,BitVec.ofNat_toNat,BitVec.setWidth_eq]

variable (dest : Nat → Byte)

theorem fill_unread {n : Nat} (hn : g.P.toNat + n ≤ 16) :
    memcpyBytes dest 0 (fun j => byteOf (L := 16) g.container (g.P.toNat + j)) n =
      filled (prgStream.stream g) n dest := by
  have hfill : memcpyBytes (filled (prgStream.stream g) 0 dest) 0
      (fun j => byteOf (L := 16) g.container (g.P.toNat + j)) n =
      filled (prgStream.stream g) (0 + n) dest :=
    memcpyBytes_filled fun j hj => by rw [Nat.zero_add,stream_unread (by omega)]
  rwa [filled_zero,Nat.zero_add] at hfill

theorem fill_part (hP : g.P.toNat ≤ 16) (t : Nat) {n : Nat} (hn : n ≤ 16) :
    memcpyBytes (filled (prgStream.stream g) ((16 - g.P).toNat + 16*t) dest)
        ((16 - g.P).toNat + 16*t) (byteOf (L := 16) ((prgAes g.key)^[t+1] g.container)) n =
      filled (prgStream.stream g) ((16 - g.P).toNat + 16*t + n) dest :=
  memcpyBytes_filled fun _ hj => (stream_block hP t (by omega)).symm

theorem fill_block (hP : g.P.toNat ≤ 16) (t : Nat) :
    storeBlock (filled (prgStream.stream g) ((16 - g.P).toNat + 16*t) dest)
        ((16 - g.P).toNat + 16*t) ((prgAes g.key)^[t+1] g.container) =
      filled (prgStream.stream g) ((16 - g.P).toNat + 16*(t+1)) dest :=
  fill_part dest hP t (Nat.le_refl 16)

theorem load_block (hP : g.P.toNat ≤ 16) (t : Nat) :
    loadBlock (filled (prgStream.stream g) ((16 - g.P).toNat + 16*(t+1)) dest)
      ((16 - g.P).toNat + 16*t) = (prgAes g.key)^[t+1] g.container := by
  refine loadBlock_of_bytes fun m hm => ?_
  rw [filled,if_pos (by omega),stream_block hP t hm]

theorem fill_loop (hP : g.P.toNat ≤ 16) (n : Nat) :
    (List.range' 1 n).foldl (fun dest i => storeBlock dest ((16 - g.P).toNat + i <<< 4)
      (prgAes g.key (loadBlock dest ((16 - g.P).toNat + (i-1) <<< 4))))
      (storeBlock (filled (prgStream.stream g) (16 - g.P).toNat dest) (16 - g.P).toNat
        (prgAes g.key g.container)) =
    filled (prgStream.stream g) ((16 - g.P).toNat + 16*(n+1)) dest := by
  induction n with
  | zero => exact fill_block dest hP 0
  | succ n ih =>
    have hturn : 1 + n = n + 1 := Nat.add_comm 1 n
    have hshift : ∀ i : Nat, i <<< 4 = 16*i := fun i => by rw [Nat.shiftLeft_eq,Nat.mul_comm]
    rw [List.range'_1_concat,List.foldl_append,ih,List.foldl_cons,List.foldl_nil,hturn,
      Nat.add_sub_cancel,hshift,hshift,load_block dest hP n,
      ← Function.iterate_succ_apply' (prgAes g.key)]
    exact fill_block dest hP (n+1)

/-- A call writes the next bytes of the stream, nothing else, and moves its state past them. -/
theorem fillRandom_eq {size length : BitVec 32} (hP : g.P.toNat ≤ 16)
    (hpos : 0 < (size*length).toNat) (hsmall : (size*length).toNat < 2^31) :
    NodeNetwork.fillRandom g size length dest =
      (filled (prgStream.stream g) (size*length).toNat dest,
        prgStream.skip g (size*length).toNat) := by
  generalize htotal : size*length = total at *
  have hrounds := toNat_rounds hP hpos hsmall
  have hrest := toNat_rest hP
  simp only [NodeNetwork.fillRandom,htotal]
  generalize (total - 16 + g.P + 15) >>> 4 = rounds at *
  by_cases hzero : rounds = 0
  · subst hzero
    have hfits : g.P.toNat + total.toNat ≤ 16 := by
      bv_omega
    rw [if_pos rfl,fill_unread dest hfits,skip_eq hpos hrounds (P := g.P + total) (by bv_omega)]
    rfl
  · have hbegun : 1 ≤ rounds.toNat := by bv_omega
    rw [if_neg hzero,fill_unread dest (by omega)]
    by_cases htwo : 2 ≤ rounds
    · obtain ⟨t,ht⟩ : ∃ t, rounds.toNat = t + 2 :=
        ⟨rounds.toNat - 2,(Nat.sub_add_cancel htwo).symm⟩
      have hbefore : (rounds - 1).toNat = t + 1 := by bv_omega
      have hlast : (rounds - 2).toNat = t := by bv_omega
      have hsource : ((rounds - 2) <<< 4).toNat = 16*t := by rw [toNat_blocks (by omega),hlast]
      have hblocks : ((rounds - 1) <<< 4).toNat = 16*(t+1) := by
        rw [toNat_blocks (by omega),hbefore]
      have hread := toNat_last hP hsmall (by omega) hblocks
      have hend : (16 - g.P).toNat + 16*(t+1) + (total - (rounds - 1) <<< 4 - 16 + g.P).toNat =
          total.toNat := by omega
      rw [if_pos htwo,fill_loop dest hP,ht,Nat.add_sub_cancel,hsource,hblocks,
        load_block dest hP t,← Function.iterate_succ_apply' (prgAes g.key),
        fill_part dest hP (t+1) (by omega),hend,
        skip_eq hpos hrounds (P := total - (rounds - 1) <<< 4 - 16 + g.P) (by omega),ht]
    · have hone : rounds.toNat = 1 := by bv_omega
      have hread : (total - 16 + g.P).toNat = g.P.toNat + total.toNat - 16 := by bv_omega
      have hend : (16 - g.P).toNat + (total - 16 + g.P).toNat = total.toNat := by omega
      have hpart : memcpyBytes (filled (prgStream.stream g) (16 - g.P).toNat dest)
          (16 - g.P).toNat (byteOf (L := 16) (prgAes g.key g.container))
          (total - 16 + g.P).toNat =
          filled (prgStream.stream g) ((16 - g.P).toNat + (total - 16 + g.P).toNat) dest :=
        fill_part dest hP 0 (by omega)
      rw [if_neg htwo,hpart,hend,skip_eq hpos hrounds (P := total - 16 + g.P) (by omega),hone]
      rfl

/-- The generator as the protocols use it reads the same stream. -/
theorem prgGetrandom_eq {m : Nat} (hP : g.P.toNat ≤ 16) (hpos : 0 < m) (hsmall : m < 2^31) :
    (∀ j, j < m → (prgGetrandom g m).1 j = prgStream.stream g j) ∧
      (prgGetrandom g m).2 = prgStream.skip g m := by
  have htotal : (BitVec.ofNat 32 m).toNat = m := by
    rw [BitVec.toNat_ofNat,Nat.mod_eq_of_lt (by omega)]
  have hrounds := @toNat_rounds g (BitVec.ofNat 32 m) hP (by omega) (by omega)
  have hrest := toNat_rest hP
  simp only [prgGetrandom]
  generalize (BitVec.ofNat 32 m - 16 + g.P + 15) >>> 4 = rounds at *
  rw [htotal] at hrounds
  by_cases hzero : rounds = 0
  · subst hzero
    have hfits : g.P.toNat + m ≤ 16 := by bv_omega
    rw [if_pos rfl,skip_eq hpos hrounds (P := g.P + BitVec.ofNat 32 m) (by bv_omega)]
    exact ⟨fun j hj => (stream_unread (by omega)).symm,rfl⟩
  · have hbegun : 1 ≤ rounds.toNat := by bv_omega
    have hblocks : ((rounds - 1) <<< 4).toNat = 16*(rounds.toNat - 1) := by
      rw [toNat_blocks (by bv_omega)]
      bv_omega
    have hread := @toNat_last g (BitVec.ofNat 32 m) hP (by omega) _ (by omega) _ hblocks
    rw [if_neg hzero,skip_eq hpos hrounds
      (P := BitVec.ofNat 32 m - (rounds - 1) <<< 4 - 16 + g.P) (by omega)]
    refine ⟨fun j hj => ?_,rfl⟩
    by_cases hj16 : j < 16 - g.P.toNat
    · exact (if_pos hj16).trans (stream_unread (by omega)).symm
    · have hplace : j = (16 - g.P).toNat + 16*((j - (16 - g.P.toNat))/16) +
          (j - (16 - g.P.toNat))%16 := by omega
      have hblock := stream_block hP ((j - (16 - g.P.toNat))/16)
        (Nat.mod_lt (j - (16 - g.P.toNat)) (show 0 < 16 by decide))
      rw [← hplace] at hblock
      exact (if_neg hj16).trans hblock.symm

end Fill

open NodeNetwork in
theorem call_answers (numShares : Nat) :
    Readers.Answers prgStream (Request.key numShares) Request.amount (fun g => g.P.toNat ≤ 16)
      Request.Valid (call numShares) := by
  have hcall : ∀ st r, call numShares st r =
      ((List.range r.amount).map
        (fillRandom (st (r.key numShares)) r.size r.length r.dest).1,
        Function.update st (r.key numShares)
          (fillRandom (st (r.key numShares)) r.size r.length r.dest).2) := by
    rintro st ⟨_ | keyID,size,length,dest⟩ <;> rfl
  constructor
  · intro g m hP
    have hplace := Readers.feedback_skip_le (prgAes g.key) (byteOf (L := 16))
      (show 0 < 16 by decide) (s := g.position) hP m
    change (BitVec.ofNat 32 _).toNat ≤ 16
    rw [BitVec.toNat_ofNat,Nat.mod_eq_of_lt (g.position_skip_lt m)]
    exact hplace
  · intro st r hst hr
    rw [hcall,fillRandom_eq _ (hst _) hr.pos hr.small]
    exact List.map_congr_left fun j hj => if_pos (List.mem_range.mp hj)
  · intro st r hst hr
    rw [hcall,fillRandom_eq _ (hst _) hr.pos hr.small]
    rfl

open NodeNetwork in
/-- What a key hands out is the front of its stream: neither the split of the bytes into
requests nor the requests for other keys make a difference. -/
theorem getrandom_stream (numShares : Nat) {st : Nat → PrgState}
    (hst : ∀ keyID, (st keyID).P.toNat ≤ 16) {requests : List Request}
    (hvalid : ∀ r ∈ requests, r.Valid) (keyID : Nat) :
    drawn numShares st keyID requests =
        prgStream.take (st keyID) (requested numShares keyID requests) ∧
      left numShares st keyID requests =
        prgStream.skip (st keyID) (requested numShares keyID requests) ∧
      ∀ requests' : List Request, (∀ r ∈ requests', r.Valid) →
        requested numShares keyID requests' = requested numShares keyID requests →
        drawn numShares st keyID requests' = drawn numShares st keyID requests ∧
          left numShares st keyID requests' = left numShares st keyID requests := by
  have hserve : ∀ requests : List Request, (∀ r ∈ requests, r.Valid) →
      drawn numShares st keyID requests =
          prgStream.take (st keyID) (requested numShares keyID requests) ∧
        left numShares st keyID requests =
          prgStream.skip (st keyID) (requested numShares keyID requests) :=
    fun requests hvalid => (call_answers numShares).serve_eq requests st hst hvalid keyID
  obtain ⟨hdrawn,hleft⟩ := hserve requests hvalid
  refine ⟨hdrawn,hleft,fun requests' hvalid' htotal => ?_⟩
  obtain ⟨hdrawn',hleft'⟩ := hserve requests' hvalid'
  rw [hdrawn',hleft',htotal,hdrawn,hleft]
  exact ⟨rfl,rfl⟩

end Stream

open NodeNetwork in
theorem getrandom_stream_twenty : ¬ ∃ _ : AesNi, ¬
    (drawn 2 (fun _ => ⟨[],1,14⟩) 2 [⟨some 2,1,5,fun _ => 0⟩,⟨some 0,4,8,fun _ => 1⟩,
        ⟨none,13,1,fun _ => 2⟩,⟨none,2,1,fun _ => 0⟩] =
      drawn 2 (fun _ => ⟨[],1,14⟩) 2 [⟨none,4,5,fun _ => 3⟩]) := by
  rintro ⟨_,h⟩
  exact h ((getrandom_stream 2 (fun _ => by decide) (by decide) 2).2.2 _ (by decide)
    (by decide)).1

end RssRing
