import RssRing.NodeNetwork.Delivery
import RssRing.NodeNetwork.Framing
set_option autoImplicit false

namespace RssRing

variable {W : Type} {L n : Nat}

/-- Each message is encrypted from the same initial vector, and padded to whole blocks. -/
structure Cipher where
  aesEncrypt : List Byte → List Byte
  aesDecrypt : List Byte → List Byte
  decrypt_encrypt : ∀ message, aesDecrypt (aesEncrypt message) = message
  length_encrypt : ∀ message, (aesEncrypt message).length ≤ message.length + 16

/-- How `amount` elements of an array from `start` on go into a message and out of it.
What is `kept` in the sender's array is what the receiver gets. -/
structure ChunkCodec (W : Type) where
  unit_size : Nat
  kept : W → W
  pack : (Nat → W) → Nat → Nat → Nat → List Byte
  unpack : List Byte → Nat → Nat → Nat → (Nat → W) → Nat → W
  length_pack : ∀ data start amount size,
    (pack data start amount size).length = unit_size*chunkAmount start amount size
  unpack_pack : ∀ data old start amount size i,
    unpack (pack data start amount size) start amount size old i =
      if start ≤ i ∧ i < start + chunkAmount start amount size then kept (data i) else old i

def wordCodec (L flag : Nat) : ChunkCodec (Lint L) where
  unit_size := byteWidth flag
  kept := masked flag
  pack data start amount size := sendDataToPeer data start amount size flag
  unpack message start amount size := getDataFromPeer message start amount size flag
  length_pack data start amount size := by simp [sendDataToPeer]
  unpack_pack data old start amount size i := getDataFromPeer_sendDataToPeer data old start amount
    size flag i

def sendDataToPeerBit (data : Nat → Byte) (start amount size : Nat) : List Byte :=
  (List.range (chunkAmount start amount size)).map fun j => data (start + j)

def getDataFromPeerBit (message : List Byte) (start amount size : Nat) (data : Nat → Byte)
    (i : Nat) : Byte :=
  if start ≤ i ∧ i < start + chunkAmount start amount size then message.getD (i - start) 0
  else data i

def bitCodec : ChunkCodec Byte where
  unit_size := 1
  kept x := x
  pack := sendDataToPeerBit
  unpack := getDataFromPeerBit
  length_pack data start amount size := by simp [sendDataToPeerBit]
  unpack_pack data old start amount size i := by
    rw [getDataFromPeerBit]
    split
    case isTrue h =>
      have hlt : i - start < chunkAmount start amount size := by omega
      have hindex : start + (i - start) = i := by omega
      simp [sendDataToPeerBit,List.getD_eq_getElem?_getD,hlt,hindex]
    case isFalse => rfl

section Chunks
variable (C : Cipher) (c : Cuts) (K : ChunkCodec W) (count size : Nat)

def sendChunk (st : (Nat → W) × List Byte) (k : Nat) : (Nat → W) × List Byte :=
  let start := k*count
  (fun i => if start ≤ i ∧ i < start + chunkAmount start count size then K.kept (st.1 i)
    else st.1 i,st.2 ++ c.sendFrame k (C.aesEncrypt (K.pack st.1 start count size)))

def getChunk (st : (Nat → W) × List Byte) (k : Nat) : Option ((Nat → W) × List Byte) := do
  let (message,stream) ← c.getFrame k st.2
  some (K.unpack (C.aesDecrypt message) (k*count) count size st.1,stream)

def sendChunks (rounds : BitVec 32) (data : Nat → W) : (Nat → W) × List Byte :=
  (List.range (rounds.toNat + 1)).foldl (sendChunk C c K count size) (data,[])

def getChunks (rounds : BitVec 32) (buffer : Nat → W) (stream : List Byte) :
    Option ((Nat → W) × List Byte) :=
  (List.range (rounds.toNat + 1)).foldlM (getChunk C c K count size) (buffer,stream)

def chunkOrder (rounds : BitVec 32) : List Nat :=
  (List.range (rounds.toNat + 1)).flatMap fun k =>
    List.range' (k*count) (chunkAmount (k*count) count size)

end Chunks

/-- `sendDataToPeer(id, size, data, flag)` among `n` parties. -/
def sendData (C : Cipher) (c : Cuts) (n : Nat) (data : Nat → Lint L) (size : BitVec 32)
    (flag : Nat) : (Nat → Lint L) × List Byte :=
  sendChunks C c (wordCodec L flag) (chunkCount n flag) size.toNat (getRounds n flag size) data

def getData (C : Cipher) (c : Cuts) (n : Nat) (buffer : Nat → Lint L) (size : BitVec 32)
    (flag : Nat) (stream : List Byte) : Option ((Nat → Lint L) × List Byte) :=
  getChunks C c (wordCodec L flag) (chunkCount n flag) size.toNat (getRounds n flag size)
    (fun i => if i < size.toNat then 0 else buffer i) stream

def chunkCountBit (n : Nat) : Nat := maxBufferSize/n/1

def getRoundsBit (n : Nat) (size : BitVec 32) : BitVec 32 := getRounds n 8 size

def sendDataBit (C : Cipher) (c : Cuts) (n : Nat) (data : Nat → Byte) (size : BitVec 32) :
    (Nat → Byte) × List Byte :=
  sendChunks C c bitCodec (chunkCountBit n) size.toNat (getRoundsBit n size) data

def getDataBit (C : Cipher) (c : Cuts) (n : Nat) (buffer : Nat → Byte) (size : BitVec 32)
    (stream : List Byte) : Option ((Nat → Byte) × List Byte) :=
  getChunks C c bitCodec (chunkCountBit n) size.toNat (getRoundsBit n size) buffer stream

theorem chunkAmount_le (start amount size : Nat) : chunkAmount start amount size ≤ amount := by
  rw [chunkAmount]
  split <;> omega

theorem in_chunk_iff {k count size i : Nat} :
    (k*count ≤ i ∧ i < k*count + chunkAmount (k*count) count size) ↔
      (k*count ≤ i ∧ i < (k+1)*count ∧ i < size) := by
  rw [chunkAmount,Nat.succ_mul]
  split <;> omega

section Run
variable {c : Cuts} (hc : ∀ f, c.Whole f) {K : ChunkCodec W} {count : Nat}
  (hfit : K.unit_size*count + 16 < 2^31) (C : Cipher) (size : Nat)
include hc hfit

theorem getChunk_sendChunk (data buffer : Nat → W) (sent rest : List Byte) (k : Nat) :
    ∃ frame, (sendChunk C c K count size (data,sent) k).2 = sent ++ frame ∧
      getChunk C c K count size (buffer,frame ++ rest) k = some (fun i =>
        if k*count ≤ i ∧ i < (k+1)*count ∧ i < size then K.kept (data i) else buffer i,rest) := by
  refine ⟨_,rfl,?_⟩
  have hmessage : (C.aesEncrypt (K.pack data (k*count) count size)).length < 2^31 := by
    have hlength := C.length_encrypt (K.pack data (k*count) count size)
    rw [K.length_pack] at hlength
    have hle := Nat.mul_le_mul_left K.unit_size (chunkAmount_le (k*count) count size)
    omega
  rw [getChunk,Cuts.getFrame_sendFrame (hc k) hmessage]
  simp only [Option.bind_eq_bind,Option.bind_some,C.decrypt_encrypt]
  refine congrArg (fun b => some (b,rest)) (funext fun i => ?_)
  rw [K.unpack_pack]
  exact if_congr in_chunk_iff rfl rfl

theorem chunks_run (data buffer : Nat → W) (N : Nat) (rest : List Byte) :
    let sent := (List.range N).foldl (sendChunk C c K count size) (data,[])
    sent.1 = (fun i => if i < N*count ∧ i < size then K.kept (data i) else data i) ∧
    (List.range N).foldlM (getChunk C c K count size) (buffer,sent.2 ++ rest) =
      some (fun i => if i < N*count ∧ i < size then K.kept (data i) else buffer i,rest) := by
  induction N generalizing rest with
  | zero => simp
  | succ N ih =>
    simp only [List.range_succ,List.foldl_append,List.foldl_cons,List.foldl_nil]
    generalize (List.range N).foldl (sendChunk C c K count size) (data,[]) = sent at ih
    obtain ⟨data',stream⟩ := sent
    simp only at ih
    obtain ⟨hdata,_⟩ := ih []
    have hcase : ∀ (x y : Nat → W) i,
        (if N*count ≤ i ∧ i < (N+1)*count ∧ i < size then
          K.kept (if i < N*count ∧ i < size then K.kept (x i) else x i)
          else if i < N*count ∧ i < size then K.kept (x i) else y i) =
        if i < (N+1)*count ∧ i < size then K.kept (x i) else y i := by
      intro x y i
      have hsucc : (N+1)*count = N*count + count := Nat.succ_mul N count
      by_cases hi : N*count ≤ i ∧ i < (N+1)*count ∧ i < size
      · rw [if_pos hi,if_neg (by omega),if_pos ⟨hi.2.1,hi.2.2⟩]
      · rw [if_neg hi]
        exact if_congr (by omega) rfl rfl
    obtain ⟨frame,hframe,hget⟩ := getChunk_sendChunk hc hfit C size data'
      (fun i => if i < N*count ∧ i < size then K.kept (data i) else buffer i) stream rest N
    constructor
    · funext i
      rw [← hcase data data i,sendChunk,hdata]
      exact if_congr in_chunk_iff rfl rfl
    · rw [hframe,List.foldlM_append,List.append_assoc,(ih (frame ++ rest)).2]
      simp only [Option.bind_eq_bind,Option.bind_some,List.foldlM_cons,List.foldlM_nil,hget]
      refine congrArg (fun b => some (b,rest)) (funext fun i => ?_)
      rw [← hcase data buffer i,hdata]

end Run

theorem chunks_order (count size N : Nat) :
    ((List.range N).flatMap fun k => List.range' (k*count) (chunkAmount (k*count) count size)) =
      List.range (min (N*count) size) := by
  induction N with
  | zero => simp
  | succ N ih =>
    rw [List.range_succ,List.flatMap_append,ih,List.flatMap_singleton,chunkAmount,Nat.succ_mul]
    by_cases hstart : size ≤ N*count
    · have hnone : (if size < N*count + count then size - N*count else count) = 0 := by
        split <;> omega
      rw [hnone,Nat.min_eq_right hstart,Nat.min_eq_right (by omega)]
      simp
    · have hend : N*count + (if size < N*count + count then size - N*count else count) =
          min (N*count + count) size := by
        split <;> omega
      rw [Nat.min_eq_left (by omega),← hend,List.range_eq_range',List.range_eq_range',
        ← List.range'_append_1,Nat.zero_add]

section Transfer
variable {c : Cuts} (hc : ∀ f, c.Whole f) {K : ChunkCodec W} {count size : Nat} {rounds : BitVec 32}
  (hrounds : size ≤ (rounds.toNat + 1)*count)

include hrounds in
theorem chunkOrder_eq : chunkOrder count size rounds = List.range size := by
  rw [chunkOrder,chunks_order,Nat.min_eq_right hrounds]

include hc hrounds in
theorem getChunks_sendChunks (hfit : K.unit_size*count + 16 < 2^31) (C : Cipher)
    (data buffer : Nat → W) (rest : List Byte) :
    let sent := sendChunks C c K count size rounds data
    sent.1 = (fun i => if i < size then K.kept (data i) else data i) ∧
    getChunks C c K count size rounds buffer (sent.2 ++ rest) =
      some (fun i => if i < size then K.kept (data i) else buffer i,rest) := by
  have hall : ∀ i, (i < (rounds.toNat + 1)*count ∧ i < size) = (i < size) := by
    intro i
    exact propext ⟨fun h => h.2,fun h => ⟨h.trans_le hrounds,h⟩⟩
  have h := chunks_run hc hfit C size data buffer (rounds.toNat + 1) rest
  simp only [hall] at h
  exact h

end Transfer

theorem toNat_masked (flag : Nat) (x : Lint L) : (masked flag x).toNat = x.toNat % 2^flag := by
  apply Nat.eq_of_testBit_eq
  intro j
  rw [BitVec.testBit_toNat,masked,getLsbD_and_shift,Nat.testBit_mod_two_pow,BitVec.testBit_toNat,
    Bool.and_comm]

theorem unit_count_le (n flag : Nat) : byteWidth flag*chunkCount n flag ≤ maxBufferSize :=
  (Nat.mul_div_le _ _).trans (Nat.div_le_self _ _)

/-- What is sent in chunks is received, each element once and in order, cut to the ring
size, and the sender keeps it cut in the same way. Every chunk begins inside the array, and its
`start` is an `int` of the source as far as `start_add_amount_lt` says. -/
theorem codec_roundtrip (C : Cipher) {c : Cuts} (hc : ∀ f, c.Whole f) (hn : 0 < n) (hn' : n ≤ 7)
    {size : BitVec 32} (hsize : 0 < size.toNat) (rest : List Byte) :
    (∀ flag, 0 < flag → flag ≤ 62 →
      (getRounds n flag size).toNat*chunkCount n flag < size.toNat ∧
      chunkOrder (chunkCount n flag) size.toNat (getRounds n flag size) = List.range size.toNat ∧
      ∀ data buffer : Nat → Lint L,
        let sent := sendData C c n data size flag
        ∃ received, getData C c n buffer size flag (sent.2 ++ rest) = some (received,rest) ∧
          (∀ i, i < size.toNat → (received i).toNat = (data i).toNat % 2^flag ∧
            (sent.1 i).toNat = (data i).toNat % 2^flag) ∧
          ∀ i, size.toNat ≤ i → received i = buffer i ∧ sent.1 i = data i) ∧
    (getRoundsBit n size).toNat*chunkCountBit n < size.toNat ∧
    chunkOrder (chunkCountBit n) size.toNat (getRoundsBit n size) = List.range size.toNat ∧
    ∀ data buffer : Nat → Byte,
      let sent := sendDataBit C c n data size
      ∃ received, getDataBit C c n buffer size (sent.2 ++ rest) = some (received,rest) ∧
        (∀ i, i < size.toNat → received i = data i) ∧
        (∀ i, size.toNat ≤ i → received i = buffer i) ∧ sent.1 = data := by
  have hmax : maxBufferSize + 16 < 2^31 := by decide
  refine ⟨fun flag hflag hflag' => ?_,?_,?_,fun data buffer => ?_⟩
  · have hrounds := le_rounds hn hn' hflag (by omega) size
    have hunit := unit_count_le n flag
    refine ⟨rounds_lt hn hn' hflag (by omega) hsize,chunkOrder_eq hrounds,fun data buffer => ?_⟩
    have hfit : (wordCodec L flag).unit_size*chunkCount n flag + 16 < 2^31 := by
      show byteWidth flag*chunkCount n flag + 16 < 2^31
      omega
    obtain ⟨hsent,hget⟩ := getChunks_sendChunks hc hrounds hfit C data
      (fun i => if i < size.toNat then 0 else buffer i) rest
    refine ⟨_,hget,fun i hi => ?_,fun i hi => ?_⟩
    · rw [sendData,hsent]
      simp only [if_pos hi]
      exact ⟨toNat_masked flag (data i),toNat_masked flag (data i)⟩
    · rw [sendData,hsent]
      simp only [if_neg (show ¬ i < size.toNat by omega),and_self]
  · exact rounds_lt hn hn' (show 0 < 8 by decide) (by decide) hsize
  · exact chunkOrder_eq (le_rounds hn hn' (by decide) (by decide) size)
  · have hrounds := le_rounds hn hn' (show 0 < 8 by decide) (by decide) size
    have hunit := unit_count_le n 8
    have hfit : bitCodec.unit_size*chunkCountBit n + 16 < 2^31 := by
      show byteWidth 8*chunkCount n 8 + 16 < 2^31
      omega
    obtain ⟨hsent,hget⟩ := getChunks_sendChunks hc hrounds hfit C data buffer rest
    refine ⟨_,hget,fun i hi => if_pos hi,fun i hi => if_neg (by omega),?_⟩
    refine hsent.trans (funext fun i => ?_)
    exact ite_self (data i)

def padded : Cipher where
  aesEncrypt message := message ++
    List.replicate (16 - message.length%16) (BitVec.ofNat 8 (16 - message.length%16))
  aesDecrypt message := message.take (message.length - (message.getLastD 0).toNat)
  decrypt_encrypt message := by
    have hmod := Nat.mod_lt message.length (show 0 < 16 by decide)
    obtain ⟨k,hk⟩ : ∃ k, 16 - message.length%16 = k+1 := ⟨15 - message.length%16,by omega⟩
    have hval : (BitVec.ofNat 8 (k+1)).toNat = k+1 := by
      rw [BitVec.toNat_ofNat,Nat.mod_eq_of_lt (by omega)]
    rw [hk,List.replicate_succ',← List.append_assoc,List.getLastD_concat,hval]
    simp
  length_encrypt message := by simp

theorem codec_roundtrip_padded :
    let c : Cuts := ⟨fun _ _ => 4,fun _ _ => 1,fun _ _ => 4,fun _ _ => 3⟩
    let data : Nat → Lint 4 := fun i => BitVec.ofNat 32 (1000*i)
    ∃ received : Nat → Lint 4,
      getData padded c 3 (fun _ => 0) 5 8 ((sendData padded c 3 data 5 8).2 ++ [1]) =
        some (received,[1]) ∧ ∀ i, i < 5 → (received i).toNat = (data i).toNat % 2^8 := by
  intro c data
  have hc : ∀ f, c.Whole f := fun _ => ⟨rfl,rfl⟩
  obtain ⟨received,hget,hval,_⟩ := ((codec_roundtrip padded hc (show 0 < 3 by decide) (by decide)
    (show 0 < (5 : BitVec 32).toNat by decide) [1]).1 8 (by decide) (by decide)).2.2 data fun _ => 0
  exact ⟨received,hget,fun i hi => (hval i hi).1⟩

end RssRing
