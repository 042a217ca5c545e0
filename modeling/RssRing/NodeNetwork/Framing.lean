import RssRing.Lint
import Mathlib.Data.List.GetD
set_option autoImplicit false

namespace RssRing

/-- What a `send` or `recv` returns that is asked for `asked` bytes: the connection
chooses, but at least one byte and no more than asked. -/
def returned (choice asked : Nat) : Nat := max 1 (min choice asked)

theorem returned_pos (choice asked : Nat) : 0 < returned choice asked := by
  rw [returned]; omega

theorem returned_le (choice : Nat) {asked : Nat} (h : 0 < asked) : returned choice asked ≤ asked := by
  rw [returned]; omega

/-- The loop of both writers, over elements of `unit` bytes. `p` counts elements, and
`cut` tells what the calls return. -/
def writeLoop (unit : Nat) (data : Nat → Byte) (cut : Nat → Nat) (bytes_read call p : Nat) :
    List Byte :=
  if 0 < bytes_read then
    let bytes_written := returned (cut call) bytes_read
    (List.range bytes_written).map (fun j => data (unit*p + j)) ++
      writeLoop unit data cut (bytes_read - bytes_written) (call+1) (p + bytes_written/unit)
  else []
termination_by bytes_read
decreasing_by
  have hpos := returned_pos (cut call) bytes_read
  omega

/-- The loop of both readers. `recv` returns no more than has been sent, and there is
no result where it waits for ever. -/
def readLoop (unit size : Nat) (cut : Nat → Nat) (call length : Nat) (buffer : Nat → Byte)
    (stream : List Byte) : Option ((Nat → Byte) × List Byte) :=
  if length < unit*size then
    if stream = [] then none
    else
      let rbytes := min (returned (cut call) (unit*(size - length/unit))) stream.length
      let start := unit*(length/unit)
      readLoop unit size cut (call+1) (length + rbytes)
        (fun i => if start ≤ i ∧ i < start + rbytes then stream.getD (i - start) 0 else buffer i)
        (stream.drop rbytes)
  else some (buffer,stream)
termination_by unit*size - length
decreasing_by
  have hpos := returned_pos (cut call) (unit*(size - length/unit))
  have hstream : 0 < stream.length := List.length_pos_of_ne_nil (by assumption)
  omega

def intOf (x : Nat) : Int := (BitVec.ofNat 32 x).toInt

/-- `sendDataToPeer(id, size, data)` for an array of `uint`. -/
def sendUints (size : Nat) (data : Nat → Byte) (cut : Nat → Nat) : List Byte :=
  writeLoop 4 data cut (intOf (4*size)).toNat 0 0

def sendBytes (size : Nat) (data : Nat → Byte) (cut : Nat → Nat) : List Byte :=
  writeLoop 1 data cut (intOf size).toNat 0 0

/-- `getDataFromPeer(id, size, buffer)` for an array of `uint`. -/
def getUints (size : Nat) (cut : Nat → Nat) (buffer : Nat → Byte) (stream : List Byte) :
    Option ((Nat → Byte) × List Byte) :=
  readLoop 4 size cut 0 0 buffer stream

def getBytes (size : Nat) (cut : Nat → Nat) (buffer : Nat → Byte) (stream : List Byte) :
    Option ((Nat → Byte) × List Byte) :=
  readLoop 1 size cut 0 0 buffer stream

def lengthBytes (length : Nat) : Nat → Byte := byteOf (L := 4) (BitVec.ofNat 32 length)

/-- The choices of the connection, for each frame and each call of a loop. -/
structure Cuts where
  sendPrefix : Nat → Nat → Nat
  sendPayload : Nat → Nat → Nat
  recvPrefix : Nat → Nat → Nat
  recvPayload : Nat → Nat → Nat

namespace Cuts
variable (c : Cuts)

def sendFrame (f : Nat) (payload : List Byte) : List Byte :=
  sendUints 1 (lengthBytes payload.length) (c.sendPrefix f) ++
    sendBytes payload.length (fun j => payload.getD j 0) (c.sendPayload f)

def getFrame (f : Nat) (stream : List Byte) : Option (List Byte × List Byte) := do
  let (word,stream) ← getUints 1 (c.recvPrefix f) (fun _ => 0) stream
  let length := (memcpyWord (0 : Lint 4) word 0 4).toNat
  let (buffer,stream) ← getBytes length (c.recvPayload f) (fun _ => 0) stream
  some ((List.range length).map buffer,stream)

def sendFrames (f : Nat) : List (List Byte) → List Byte
  | [] => []
  | payload::payloads => c.sendFrame f payload ++ sendFrames (f+1) payloads

def getFrames (f : Nat) : Nat → List Byte → Option (List (List Byte) × List Byte)
  | 0, stream => some ([],stream)
  | count+1, stream => do
    let (payload,stream) ← c.getFrame f stream
    let (payloads,stream) ← getFrames (f+1) count stream
    some (payload::payloads,stream)

end Cuts

theorem writeLoop_bytes (data : Nat → Byte) (cut : Nat → Nat) (bytes_read call p : Nat) :
    writeLoop 1 data cut bytes_read call p = (List.range bytes_read).map fun j => data (p + j) := by
  induction bytes_read using Nat.strongRecOn generalizing call p with
  | ind bytes_read ih =>
    rw [writeLoop]
    by_cases h : 0 < bytes_read
    · have hpos := returned_pos (cut call) bytes_read
      have hle := returned_le (cut call) h
      have hsplit : bytes_read = returned (cut call) bytes_read +
          (bytes_read - returned (cut call) bytes_read) := by omega
      simp only [if_pos h,Nat.one_mul,Nat.div_one]
      rw [ih _ (by omega)]
      conv_rhs => rw [hsplit,List.range_add,List.map_append,List.map_map]
      simp only [Function.comp_def,Nat.add_assoc]
    · have hzero : bytes_read = 0 := by omega
      rw [if_neg h,hzero]
      rfl

theorem readLoop_done {unit size length : Nat} (h : unit*size ≤ length) (cut : Nat → Nat)
    (call : Nat) (buffer : Nat → Byte) (stream : List Byte) :
    readLoop unit size cut call length buffer stream = some (buffer,stream) := by
  rw [readLoop,if_neg (by omega)]

theorem readLoop_bytes (size : Nat) (cut : Nat → Nat) (call length : Nat) (buffer : Nat → Byte)
    (s rest : List Byte) (hs : length + s.length = size) :
    readLoop 1 size cut call length buffer (s ++ rest) = some (fun i =>
      if length ≤ i ∧ i < size then s.getD (i - length) 0 else buffer i,rest) := by
  induction h : size - length using Nat.strongRecOn generalizing call length buffer s with
  | ind d ih =>
    rw [readLoop]
    by_cases hlt : length < size
    · have hne : s ++ rest ≠ [] := by
        intro hnil
        have hs₀ := congrArg List.length (List.append_eq_nil_iff.mp hnil).1
        rw [List.length_nil] at hs₀
        omega
      have hasked : size - length = s.length := by omega
      have hpos := returned_pos (cut call) s.length
      have hle := returned_le (cut call) (show 0 < s.length by omega)
      have hmin : min (returned (cut call) s.length) (s ++ rest).length =
          returned (cut call) s.length := by
        rw [List.length_append]
        omega
      simp only [Nat.one_mul,Nat.div_one,if_pos hlt,if_neg hne,hasked,hmin]
      generalize returned (cut call) s.length = r at hpos hle
      rw [List.drop_append_of_le_length hle,
        ih (size - (length + r)) (by omega) _ _ _ (s.drop r) (by rw [List.length_drop]; omega) rfl]
      refine congrArg (fun b => some (b,rest)) (funext fun i => ?_)
      by_cases hi : length + r ≤ i
      · have hindex : r + (i - (length + r)) = i - length := by omega
        by_cases hi' : i < size
        · rw [if_pos ⟨hi,hi'⟩,if_pos ⟨by omega,hi'⟩]
          simp only [List.getD_eq_getElem?_getD,List.getElem?_drop,hindex]
        · rw [if_neg (by omega),if_neg (by omega),if_neg (by omega)]
      · by_cases hi' : length ≤ i
        · rw [if_neg (by omega),if_pos ⟨hi',by omega⟩,if_pos ⟨hi',by omega⟩]
          simp only [List.getD_eq_getElem?_getD]
          rw [List.getElem?_append_left (by omega)]
        · rw [if_neg (by omega),if_neg (by omega),if_neg (by omega)]
    · have hnil : s = [] := List.length_eq_zero_iff.mp (by omega)
      rw [if_neg (by omega),hnil,List.nil_append]
      refine congrArg (fun b => some (b,rest)) (funext fun i => ?_)
      rw [if_neg (by omega)]

theorem intOf_eq {x : Nat} (hx : x < 2^31) : (intOf x).toNat = x := by
  have hval : (BitVec.ofNat 32 x).toNat = x := by
    rw [BitVec.toNat_ofNat,Nat.mod_eq_of_lt (by omega)]
  rw [intOf,BitVec.toInt_eq_toNat_of_lt (by omega),hval,Int.toNat_natCast]

theorem sendBytes_eq {payload : List Byte} (hlength : payload.length < 2^31) (cut : Nat → Nat) :
    sendBytes payload.length (fun j => payload.getD j 0) cut = payload := by
  rw [sendBytes,intOf_eq hlength,writeLoop_bytes]
  refine List.ext_getElem (by simp) fun i hi _ => ?_
  rw [List.length_map,List.length_range] at hi
  simp [List.getD_eq_getElem?_getD,hi]

theorem getBytes_eq (payload rest : List Byte) (cut : Nat → Nat) :
    ∃ buffer, getBytes payload.length cut (fun _ => 0) (payload ++ rest) = some (buffer,rest) ∧
      (List.range payload.length).map buffer = payload := by
  refine ⟨_,readLoop_bytes payload.length cut 0 0 (fun _ => 0) payload rest (Nat.zero_add _),?_⟩
  refine List.ext_getElem (by simp) fun i hi _ => ?_
  rw [List.length_map,List.length_range] at hi
  simp [List.getD_eq_getElem?_getD,hi]

theorem lengthBytes_word {word : Nat → Byte} {length : Nat} (hlength : length < 2^32)
    (hword : ∀ i, i < 4 → word i = lengthBytes length i) :
    (memcpyWord (0 : Lint 4) word 0 4).toNat = length := by
  have hword : memcpyWord (0 : Lint 4) word 0 4 = BitVec.ofNat 32 length := by
    apply BitVec.eq_of_getLsbD_eq
    intro j hj
    have hsplit : 8*(j/8) + j%8 = j := Nat.div_add_mod j 8
    have hmod : j%8 < 8 := Nat.mod_lt j (by decide)
    rw [getLsbD_memcpyWord,decide_eq_true hj,Bool.true_and,if_pos (by omega),Nat.zero_add,
      hword _ (by omega),lengthBytes,getLsbD_byteOf,decide_eq_true hmod,Bool.true_and,hsplit]
  rw [hword,BitVec.toNat_ofNat,Nat.mod_eq_of_lt hlength]

section Prefix
variable {cut : Nat → Nat} (hcut : returned (cut 0) 4 = 4)
include hcut

theorem sendUints_whole (data : Nat → Byte) : sendUints 1 data cut = (List.range 4).map data := by
  have hsize : (intOf (4*1)).toNat = 4 := intOf_eq (by decide)
  have hend : ∀ call p, writeLoop 4 data cut 0 call p = [] := by
    intro call p
    rw [writeLoop]
    rfl
  rw [sendUints,hsize,writeLoop]
  simp only [hcut,hend,List.append_nil,Nat.mul_zero,Nat.zero_add,Nat.sub_self]
  rfl

theorem getUints_whole (data : Nat → Byte) (rest : List Byte) :
    ∃ word, getUints 1 cut (fun _ => 0) ((List.range 4).map data ++ rest) = some (word,rest) ∧
      ∀ i, i < 4 → word i = data i := by
  have hlength : ((List.range 4).map data ++ rest).length = 4 + rest.length := by simp
  have hne : (List.range 4).map data ++ rest ≠ [] := by
    intro h
    rw [h,List.length_nil] at hlength
    omega
  have hasked : 4*(1 - 0/4) = 4 := rfl
  have hdrop : ((List.range 4).map data ++ rest).drop 4 = rest := List.drop_left' (by simp)
  rw [getUints,readLoop]
  simp only [if_neg hne,hcut,hasked,hlength,show 0 < 4*1 by decide,if_true,
    Nat.min_eq_left (Nat.le_add_right 4 rest.length),hdrop]
  refine ⟨_,readLoop_done (by decide) _ _ _ _,fun i hi => ?_⟩
  rw [if_pos (by omega),List.getD_append _ _ _ _ (by simp; omega)]
  simp [List.getD_eq_getElem?_getD,hi]

end Prefix

theorem readLoop_taken (size : Nat) (cut : Nat → Nat) {call length : Nat} {buffer b : Nat → Byte}
    {stream rest : List Byte} (h : readLoop 1 size cut call length buffer stream = some (b,rest)) :
    rest.length + (size - length) = stream.length := by
  induction hd : size - length using Nat.strongRecOn generalizing call length buffer stream with
  | ind d ih =>
    by_cases hlt : length < size
    · rw [readLoop,if_pos (by omega)] at h
      by_cases hnil : stream = []
      · rw [if_pos hnil] at h
        exact absurd h (by simp)
      · have hstream : 0 < stream.length := List.length_pos_of_ne_nil hnil
        have hasked : 1*(size - length/1) = size - length := by omega
        simp only [if_neg hnil,hasked] at h
        have hpos := returned_pos (cut call) (size - length)
        have hle := returned_le (cut call) (show 0 < size - length by omega)
        generalize returned (cut call) (size - length) = r at h hpos hle
        have hrest := ih (size - (length + min r stream.length)) (by omega) h rfl
        rw [List.length_drop] at hrest
        omega
    · rw [readLoop_done (by omega)] at h
      obtain ⟨_,rfl⟩ := Prod.ext_iff.mp (Option.some.inj h)
      simp only at hd ⊢
      omega

theorem map_range_eq_replicate {f : Nat → Byte} {v : Byte} {w : Nat} (hf : ∀ j, j < w → f j = v) :
    (List.range w).map f = List.replicate w v := by
  have h : (List.range w).map f = List.replicate (List.range w).length v :=
    List.map_eq_replicate_iff.mpr fun j hj => hf j (List.mem_range.mp hj)
  rwa [List.length_range] at h

/-- After a short count a writer of one `uint` starts from its first byte again. -/
theorem writeLoop_restarts {data : Nat → Byte} {v : Byte} (hdata : ∀ j, j < 3 → data j = v)
    (cut : Nat → Nat) {bytes_read : Nat} (hread : bytes_read ≤ 3) (call : Nat) :
    writeLoop 4 data cut bytes_read call 0 = List.replicate bytes_read v := by
  induction bytes_read using Nat.strongRecOn generalizing call with
  | ind bytes_read ih =>
    rw [writeLoop]
    by_cases h : 0 < bytes_read
    · have hpos := returned_pos (cut call) bytes_read
      have hle := returned_le (cut call) h
      have hnext : 0 + returned (cut call) bytes_read/4 = 0 := by omega
      simp only [if_pos h,hnext]
      generalize returned (cut call) bytes_read = w at hpos hle
      rw [ih _ (by omega) (by omega)]
      have hmap : (List.range w).map (fun j => data (4*0 + j)) = List.replicate w v := by
        refine map_range_eq_replicate fun j hj => ?_
        rw [Nat.mul_zero,Nat.zero_add,hdata j (by omega)]
      rw [hmap,List.replicate_append_replicate,Nat.add_sub_cancel' hle]
    · have hzero : bytes_read = 0 := by omega
      rw [if_neg h,hzero]
      rfl

/-- A short count makes a reader of one `uint` write from its first byte again, so that
the last byte is none of the first three that come in. -/
theorem readLoop_fourth (cut : Nat → Nat) {call length : Nat} {buffer word : Nat → Byte}
    {stream rest : List Byte} (hbuffer : buffer 3 = 0)
    (hstream : ∀ i, 3 ≤ i → i + length < 7 → stream.getD i 0 = 0)
    (h : readLoop 4 1 cut call length buffer stream = some (word,rest)) : word 3 = 0 := by
  induction hd : 4 - length using Nat.strongRecOn generalizing call length buffer stream with
  | ind d ih =>
    by_cases hlt : length < 4
    · rw [readLoop,if_pos (by omega)] at h
      by_cases hnil : stream = []
      · rw [if_pos hnil] at h
        exact absurd h (by simp)
      · have hlength : 0 < stream.length := List.length_pos_of_ne_nil hnil
        have hstart : 4*(length/4) = 0 := by omega
        have hpos := returned_pos (cut call) (4*(1 - length/4))
        simp only [if_neg hnil,hstart] at h
        generalize returned (cut call) (4*(1 - length/4)) = r at h hpos
        refine ih (4 - (length + min r stream.length)) (by omega) ?_ ?_ h rfl
        · rw [Nat.zero_add,Nat.sub_zero]
          split
          · exact hstream 3 le_rfl (by omega)
          · exact hbuffer
        · intro i hi hi'
          rw [List.getD_eq_getElem?_getD,List.getElem?_drop,← List.getD_eq_getElem?_getD]
          exact hstream _ (by omega) (by omega)
    · rw [readLoop_done (by omega)] at h
      obtain ⟨rfl,_⟩ := Prod.ext_iff.mp (Option.some.inj h)
      exact hbuffer

def longZeros : List Byte := List.replicate (2^24) 0

theorem lengthBytes_longZeros {j : Nat} (hj : j < 3) : lengthBytes (2^24) j = 0 := by
  have hj' : j = 0 ∨ j = 1 ∨ j = 2 := by omega
  rcases hj' with rfl | rfl | rfl <;> decide

theorem longZeros_getD {i : Nat} (hi : i < 2^24) (rest : List Byte) :
    (longZeros ++ rest).getD i 0 = 0 := by
  rw [longZeros,List.getD_append _ _ _ _ (by rwa [List.length_replicate]),
    List.getD_eq_getElem?_getD,List.getElem?_replicate,if_pos hi]
  rfl

theorem fourth_of_long {word : Nat → Byte}
    (h : (memcpyWord (0 : Lint 4) word 0 4).toNat = 2^24) : word 3 ≠ 0 := by
  intro hzero
  have hword : memcpyWord (0 : Lint 4) word 0 4 = BitVec.ofNat 32 (2^24) :=
    BitVec.eq_of_toNat_eq (h.trans (by decide))
  have hbit := congrArg (fun x => x.getLsbD 24) hword
  simp only [getLsbD_memcpyWord,Nat.zero_add] at hbit
  rw [show 24/8 = 3 from rfl,hzero] at hbit
  exact absurd hbit (by decide)

theorem sendUints_restarts {cut : Nat → Nat} (hcut : returned (cut 0) 4 ≠ 4) :
    sendUints 1 (lengthBytes (2^24)) cut = List.replicate 4 0 := by
  have hsize : (intOf (4*1)).toNat = 4 := intOf_eq (by decide)
  have hpos := returned_pos (cut 0) 4
  have hle := returned_le (cut 0) (show 0 < 4 by decide)
  have hnext : 0 + returned (cut 0) 4/4 = 0 := by omega
  rw [sendUints,hsize,writeLoop]
  simp only [show 0 < 4 by decide,if_true,hnext]
  generalize returned (cut 0) 4 = w at hcut hpos hle
  have hmap : (List.range w).map (fun j => lengthBytes (2^24) (4*0 + j)) = List.replicate w 0 := by
    refine map_range_eq_replicate fun j hj => ?_
    rw [Nat.mul_zero,Nat.zero_add,lengthBytes_longZeros (by omega)]
  rw [hmap,writeLoop_restarts (fun _ hj => lengthBytes_longZeros hj) cut (by omega),
    List.replicate_append_replicate,Nat.add_sub_cancel' hle]

theorem getUints_cut {send recv : Nat → Nat} (hcut : ¬ (returned (send 0) 4 = 4 ∧ returned (recv 0) 4 = 4))
    {rest stream : List Byte} {word : Nat → Byte}
    (h : getUints 1 recv (fun _ => 0) (sendUints 1 (lengthBytes (2^24)) send ++ (longZeros ++ rest)) =
      some (word,stream)) : word 3 = 0 := by
  by_cases hsend : returned (send 0) 4 = 4
  · have hrecv : returned (recv 0) 4 ≠ 4 := fun hrecv => hcut ⟨hsend,hrecv⟩
    have hpos := returned_pos (recv 0) 4
    have hle := returned_le (recv 0) (show 0 < 4 by decide)
    rw [sendUints_whole hsend] at h
    have hlength : ((List.range 4).map (lengthBytes (2^24)) ++ (longZeros ++ rest)).length =
        4 + (longZeros ++ rest).length := by simp
    have hne : (List.range 4).map (lengthBytes (2^24)) ++ (longZeros ++ rest) ≠ [] := by
      intro hnil
      rw [hnil,List.length_nil] at hlength
      omega
    have hasked : 4*(1 - 0/4) = 4 := rfl
    have hstart : 4*(0/4) = 0 := rfl
    rw [getUints,readLoop] at h
    simp only [show 0 < 4*1 by decide,if_true,if_neg hne,hasked,hstart,hlength] at h
    generalize returned (recv 0) 4 = r at h hrecv hpos hle
    have hmin : min r (4 + (longZeros ++ rest).length) = r := by omega
    rw [hmin] at h
    refine readLoop_fourth recv (if_neg (by omega)) (fun i hi hi' => ?_) h
    rw [List.getD_eq_getElem?_getD,List.getElem?_drop,← List.getD_eq_getElem?_getD,
      List.getD_append_right _ _ _ _ (by rw [List.length_map,List.length_range]; omega)]
    exact longZeros_getD (by rw [List.length_map,List.length_range]; omega) rest
  · rw [sendUints_restarts hsend] at h
    refine readLoop_fourth recv rfl (fun i hi hi' => ?_) h
    by_cases hi₄ : i < 4
    · rw [List.getD_append _ _ _ _ (by rwa [List.length_replicate]),List.getD_eq_getElem?_getD,
        List.getElem?_replicate,if_pos hi₄]
      rfl
    · rw [List.getD_append_right _ _ _ _ (by rw [List.length_replicate]; omega)]
      exact longZeros_getD (by rw [List.length_replicate]; omega) rest

namespace Cuts
variable (c : Cuts)

def Whole (f : Nat) : Prop :=
  returned (c.sendPrefix f 0) 4 = 4 ∧ returned (c.recvPrefix f 0) 4 = 4

variable {c}

theorem getFrame_sendFrame {f : Nat} (hf : c.Whole f) {payload : List Byte}
    (hlength : payload.length < 2^31) (rest : List Byte) :
    c.getFrame f (c.sendFrame f payload ++ rest) = some (payload,rest) := by
  obtain ⟨word,hword,hbytes⟩ := getUints_whole hf.2 (lengthBytes payload.length) (payload ++ rest)
  obtain ⟨buffer,hbuffer,hpayload⟩ := getBytes_eq payload rest (c.recvPayload f)
  rw [getFrame,sendFrame,sendUints_whole hf.1,sendBytes_eq hlength,List.append_assoc,hword]
  simp only [Option.bind_eq_bind,Option.bind_some,lengthBytes_word (by omega) hbytes,hbuffer,
    hpayload]

theorem getFrames_sendFrames (payloads : List (List Byte)) (f : Nat)
    (hwhole : ∀ g, f ≤ g → g < f + payloads.length → c.Whole g)
    (hlength : ∀ m ∈ payloads, m.length < 2^31) (rest : List Byte) :
    c.getFrames f payloads.length (c.sendFrames f payloads ++ rest) = some (payloads,rest) := by
  induction payloads generalizing f with
  | nil => rfl
  | cons payload payloads ih =>
    have hfirst := getFrame_sendFrame (hwhole f le_rfl (by simp))
      (hlength payload List.mem_cons_self) (c.sendFrames (f+1) payloads ++ rest)
    have hrest := ih (f+1) (fun g hg hg' => hwhole g (by omega) (by simp; omega))
      fun m hm => hlength m (List.mem_cons_of_mem _ hm)
    rw [List.length_cons,getFrames,sendFrames,List.append_assoc,hfirst]
    simp only [Option.bind_eq_bind,Option.bind_some,hrest]

theorem getFrame_long {f : Nat} (hf : c.Whole f) {payload : List Byte}
    (hlong : 2^31 ≤ payload.length) (hlength : payload.length < 2^32) (rest : List Byte) :
    c.getFrame f (c.sendFrame f payload ++ rest) ≠ some (payload,rest) := by
  intro h
  have hnone : (intOf payload.length).toNat = 0 := by
    have hval : (BitVec.ofNat 32 payload.length).toNat = payload.length := by
      rw [BitVec.toNat_ofNat,Nat.mod_eq_of_lt hlength]
    rw [intOf,BitVec.toInt_eq_toNat_cond,hval,if_neg (by omega)]
    omega
  have hsent : sendBytes payload.length (fun j => payload.getD j 0) (c.sendPayload f) = [] := by
    rw [sendBytes,hnone,writeLoop_bytes]
    rfl
  obtain ⟨word,hword,hbytes⟩ := getUints_whole hf.2 (lengthBytes payload.length) rest
  rw [getFrame,sendFrame,sendUints_whole hf.1,hsent,List.append_nil,hword] at h
  simp only [Option.bind_eq_bind,Option.bind_some,lengthBytes_word hlength hbytes,
    Option.bind_eq_some_iff] at h
  obtain ⟨⟨buffer,stream⟩,hbuffer,hrest⟩ := h
  obtain ⟨_,rfl⟩ := Prod.ext_iff.mp (Option.some.inj hrest)
  have htaken := readLoop_taken payload.length (c.recvPayload f) hbuffer
  simp only at htaken
  omega

theorem getFrame_cut {f : Nat} (hf : ¬ c.Whole f) (rest rest' : List Byte) :
    c.getFrame f (c.sendFrame f longZeros ++ rest) ≠ some (longZeros,rest') := by
  intro h
  have hlength : longZeros.length = 2^24 := List.length_replicate
  have hbytes : sendBytes longZeros.length (fun j => longZeros.getD j 0) (c.sendPayload f) =
      longZeros := sendBytes_eq (by rw [hlength]; decide) _
  rw [getFrame,sendFrame,hbytes,hlength,List.append_assoc] at h
  simp only [Option.bind_eq_bind,Option.bind_eq_some_iff] at h
  obtain ⟨⟨word,stream⟩,hword,⟨buffer,stream'⟩,_,hpayload⟩ := h
  have hzero := getUints_cut hf hword
  obtain ⟨hpayload,_⟩ := Prod.ext_iff.mp (Option.some.inj hpayload)
  have hlong := congrArg List.length hpayload
  rw [List.length_map,List.length_range,hlength] at hlong
  exact fourth_of_long hlong hzero

theorem whole_of_getFrames (count : Nat) (f : Nat)
    (h : ∀ payloads : List (List Byte), payloads.length = count →
      (∀ m ∈ payloads, m.length < 2^31) → ∀ rest,
      c.getFrames f count (c.sendFrames f payloads ++ rest) = some (payloads,rest)) :
    ∀ g, f ≤ g → g < f + count → c.Whole g := by
  induction count generalizing f with
  | zero => intro g hg hg'; omega
  | succ count ih =>
    have hempty : ∀ m ∈ List.replicate count ([] : List Byte), m.length < 2^31 := by
      intro m hm
      rw [List.eq_of_mem_replicate hm]
      decide
    have hfirst : c.Whole f := by
      by_contra hf
      have hlong := h (longZeros::List.replicate count []) (by simp) (fun m hm => by
        rcases List.mem_cons.mp hm with rfl | hm
        · rw [longZeros,List.length_replicate]
          decide
        · exact hempty m hm) []
      rw [getFrames,sendFrames,List.append_assoc] at hlong
      simp only [Option.bind_eq_bind,Option.bind_eq_some_iff] at hlong
      obtain ⟨⟨payload,stream⟩,hframe,⟨payloads,stream'⟩,_,hresult⟩ := hlong
      obtain ⟨hresult,_⟩ := Prod.ext_iff.mp (Option.some.inj hresult)
      obtain ⟨rfl,_⟩ := List.cons.inj hresult
      exact getFrame_cut hf _ _ hframe
    have hrest := ih (f+1) fun payloads hcount hlength rest => by
      have hrun := h ([]::payloads) (by rw [List.length_cons,hcount]) (fun m hm => by
        rcases List.mem_cons.mp hm with rfl | hm
        · decide
        · exact hlength m hm) rest
      rw [getFrames,sendFrames,List.append_assoc,getFrame_sendFrame hfirst (by decide)] at hrun
      simp only [Option.bind_eq_bind,Option.bind_some,Option.bind_eq_some_iff] at hrun
      obtain ⟨⟨payloads',stream⟩,hframes,hresult⟩ := hrun
      obtain ⟨hpayloads,hstream⟩ := Prod.ext_iff.mp (Option.some.inj hresult)
      obtain ⟨_,rfl⟩ := List.cons.inj hpayloads
      exact hframes.trans (congrArg (fun s => some (payloads',s)) hstream)
    intro g hg hg'
    rcases Nat.eq_or_lt_of_le hg with rfl | hg
    · exact hfirst
    · exact hrest g hg (by omega)

end Cuts

/-- Which cuts the framing survives: runs of frames are read back for all payloads exactly
if no call on a length is short, and a payload too long for an `int` is not sent. -/
theorem framing (c : Cuts) :
    (∀ count, (∀ payloads : List (List Byte), payloads.length = count →
        (∀ m ∈ payloads, m.length < 2^31) → ∀ rest,
        c.getFrames 0 count (c.sendFrames 0 payloads ++ rest) = some (payloads,rest)) ↔
      ∀ f, f < count → c.Whole f) ∧
    ∀ f (payload rest : List Byte), c.Whole f → 2^31 ≤ payload.length → payload.length < 2^32 →
      c.getFrame f (c.sendFrame f payload ++ rest) ≠ some (payload,rest) := by
  refine ⟨fun count => ⟨fun h f hf => ?_,?_⟩,fun f payload rest hf hlong hlength => ?_⟩
  · exact Cuts.whole_of_getFrames count 0 h f (Nat.zero_le f) (by omega)
  · rintro h payloads rfl hlength rest
    exact Cuts.getFrames_sendFrames payloads 0 (fun g _ hg => h g (by omega)) hlength rest
  · exact Cuts.getFrame_long hf hlong hlength rest

/-- The length 1 arrives as 257 when the first call that sends it takes one byte. -/
theorem framing_repeats :
    let c : Cuts := ⟨fun _ call => if call = 0 then 1 else 4,fun _ _ => 4,fun _ _ => 4,fun _ _ => 4⟩
    c.getFrames 0 1 (c.sendFrames 0 [[7]]) ≠ some ([[7]],[]) := by
  intro c h
  have hcalls : c.sendFrames 0 [[7]] =
      lengthBytes 1 0::((List.range 3).map (fun j => lengthBytes 1 j) ++ [7]) := by
    simp [Cuts.sendFrames,Cuts.sendFrame,sendUints,sendBytes,intOf,writeLoop,returned,c]
  have hsent : c.sendFrames 0 [[7]] = (List.range 4).map (lengthBytes 257) ++ [7] :=
    hcalls.trans (by decide)
  have hwhole : returned (c.recvPrefix 0 0) 4 = 4 := by decide
  obtain ⟨word,hword,hbytes⟩ := getUints_whole hwhole (lengthBytes 257) [7]
  rw [hsent,Cuts.getFrames,Cuts.getFrame,hword] at h
  simp only [Option.bind_eq_bind,Option.bind_some,lengthBytes_word (by decide) hbytes,
    Option.bind_eq_some_iff] at h
  obtain ⟨_,⟨⟨buffer,stream⟩,hbuffer,_⟩,_⟩ := h
  have htaken := readLoop_taken 257 (c.recvPayload 0) hbuffer
  rw [List.length_singleton] at htaken
  omega

end RssRing
