import RssRing.Library.Streams
import RssRing.NodeNetwork.Codec
import RssRing.NodeNetwork.Connect
set_option autoImplicit false

namespace RssRing
open Channels Streams

/-- Where `sendDataToPeer` is between two calls of `send` for one message. -/
inductive Writer where
  | word (message : List Byte)
  | payload (data : Nat → Byte) (bytes_read p : Nat)

/-- Where `getDataFromPeer` is between two calls of `recv` for one message. -/
inductive Reader where
  | word
  | payload (size : Lint 4) (length : Nat) (buffer : Nat → Byte)

namespace Writer

def pending : Writer → List Byte
  | word message => (List.range 4).map (lengthBytes message.length) ++
      (List.range (intOf message.length).toNat).map fun j => message.getD j 0
  | payload data bytes_read p => (List.range bytes_read).map fun j => data (p + j)

inductive Writes : Writer → List Byte → Writer → Prop
  | word (message : List Byte) : Writes (.word message)
      ((List.range 4).map (lengthBytes message.length))
      (.payload (fun j => message.getD j 0) (intOf message.length).toNat 0)
  | payload {data : Nat → Byte} {bytes_read p bytes_written : Nat} (hpos : 0 < bytes_written)
      (hle : bytes_written ≤ bytes_read) : Writes (.payload data bytes_read p)
      ((List.range bytes_written).map fun j => data (p + j))
      (.payload data (bytes_read - bytes_written) (p + bytes_written))

end Writer

namespace Reader

inductive Reads : Reader → List Byte → Reader → Prop
  | word {bs : List Byte} (hlength : bs.length = 4) :
      Reads .word bs (.payload (memcpyWord 0 (fun j => bs.getD j 0) 0 4) 0 fun _ => 0)
  | payload {size : Lint 4} {length : Nat} {buffer : Nat → Byte} {bs : List Byte}
      (hpos : 0 < bs.length) (hle : length + bs.length ≤ size.toNat) :
      Reads (.payload size length buffer) bs (.payload size (length + bs.length) fun i =>
        if length ≤ i ∧ i < length + bs.length then bs.getD (i - length) 0 else buffer i)

def closed : Reader → Option (List Byte)
  | word => none
  | payload size length buffer =>
    if length < size.toNat then none else some ((List.range size.toNat).map buffer)

def held : Reader → List Byte
  | word => []
  | payload size length buffer => (List.range 4).map (byteOf size) ++ (List.range length).map buffer

end Reader

def frame (payload : List Byte) : List Byte :=
  (List.range 4).map (lengthBytes payload.length) ++ payload

def frameWire (encrypt decrypt : List Byte → List Byte) : Wire (List Byte) Byte Writer Reader where
  opened m := .word (encrypt m)
  pending := Writer.pending
  Writes := Writer.Writes
  idle := .word
  Reads := Reader.Reads
  closed r := r.closed.map decrypt

/-- A turn of the loop of a writer is one of its calls. -/
theorem writeLoop_writes (data : Nat → Byte) (cut : Nat → Nat) {bytes_read : Nat}
    (h : 0 < bytes_read) (call p : Nat) : ∃ bs bytes_left p',
      Writer.Writes (.payload data bytes_read p) bs (.payload data bytes_left p') ∧
      writeLoop 1 data cut bytes_read call p = bs ++ writeLoop 1 data cut bytes_left (call+1) p' := by
  refine ⟨_,_,_,.payload (returned_pos (cut call) bytes_read) (returned_le (cut call) h),?_⟩
  rw [writeLoop]
  simp only [if_pos h,Nat.one_mul,Nat.div_one]

/-- A turn of the loop of a reader is one of its calls, and it ends when the payload is there. -/
theorem readLoop_reads {size : Lint 4} {length : Nat} {buffer : Nat → Byte} {bs : List Byte}
    {r : Reader} (h : Reader.Reads (.payload size length buffer) bs r) (rest : List Byte)
    {cut : Nat → Nat} {call : Nat} (hcut : cut call = bs.length) : ∃ length' buffer',
      r = .payload size length' buffer' ∧
      readLoop 1 size.toNat cut call length buffer (bs ++ rest) =
        readLoop 1 size.toNat cut (call+1) length' buffer' rest := by
  cases h with
  | payload hpos hle =>
    have hne : bs ++ rest ≠ [] := by
      intro hnil
      rw [(List.append_eq_nil_iff.mp hnil).1] at hpos
      cases hpos
    have hbytes : min (returned (cut call) (size.toNat - length)) (bs ++ rest).length =
        bs.length := by
      rw [hcut,returned,List.length_append]
      omega
    refine ⟨_,_,rfl,?_⟩
    rw [readLoop]
    simp only [Nat.one_mul,Nat.div_one,if_pos (show length < size.toNat by omega),if_neg hne,hbytes,
      List.drop_left]
    congr 1
    funext i
    split
    case isTrue hi =>
      rw [List.getD_append _ _ _ _ (by omega)]
    case isFalse => rfl

theorem byteOf_memcpyWord (src : Nat → Byte) {i : Nat} (hi : i < 4) :
    byteOf (memcpyWord (0 : Lint 4) src 0 4) i = src i := by
  apply BitVec.eq_of_getLsbD_eq
  intro j hj
  rw [getLsbD_byteOf,getLsbD_memcpyWord]
  have hplace : 8*i + j < 8*4 := by omega
  have hdiv : (8*i + j)/8 = i := by omega
  have hmod : (8*i + j)%8 = j := by omega
  simp only [hj,hplace,decide_true,Bool.true_and,if_true,hdiv,hmod,Nat.zero_add]

theorem eq_of_bytes {x y : Lint 4} (h : ∀ i, i < 4 → byteOf x i = byteOf y i) : x = y := by
  apply BitVec.eq_of_getLsbD_eq
  intro j hj
  have hbyte := congrArg (fun b => b.getLsbD (j%8)) (h (j/8) (by omega))
  have hsplit : 8*(j/8) + j%8 = j := Nat.div_add_mod j 8
  have hmod : j%8 < 8 := Nat.mod_lt j (by decide)
  simpa only [getLsbD_byteOf,decide_eq_true hmod,Bool.true_and,hsplit] using hbyte

theorem length_frame (payload : List Byte) : (frame payload).length = 4 + payload.length := by
  simp [frame]

theorem frameWire_moves (encrypt decrypt : List Byte → List Byte) :
    (frameWire encrypt decrypt).Moves where
  writes h := by
    cases h with
    | word message => exact ⟨by simp,by simp [frameWire,Writer.pending]⟩
    | @payload data bytes_read p bytes_written hpos hle =>
      refine ⟨fun hnil => ?_,?_⟩
      · have hlength := congrArg List.length hnil
        simp only [List.length_map,List.length_range,List.length_nil] at hlength
        omega
      · have hsplit : bytes_read = bytes_written + (bytes_read - bytes_written) := by omega
        simp only [frameWire,Writer.pending]
        conv_lhs => rw [hsplit,List.range_add,List.map_append,List.map_map]
        simp only [Function.comp_def,Nat.add_assoc]
  reads h := by
    cases h with
    | word hlength =>
      rintro rfl
      cases hlength
    | payload hpos hle =>
      rintro rfl
      cases hpos

theorem map_range_byteOf {bs : List Byte} (hlength : bs.length = 4) :
    (List.range 4).map (byteOf (memcpyWord (0 : Lint 4) (fun j => bs.getD j 0) 0 4)) = bs := by
  refine List.ext_getElem (by simp [hlength]) fun i hi hi' => ?_
  rw [List.getElem_map,List.getElem_range,byteOf_memcpyWord _ (by omega)]
  simp [List.getD_eq_getElem?_getD,hi']

theorem held_reads {r r' : Reader} {bs : List Byte} (h : r.Reads bs r') :
    r'.held = r.held ++ bs := by
  cases h with
  | word hlength => simpa [Reader.held] using map_range_byteOf hlength
  | @payload size length buffer bs hpos hle =>
    simp only [Reader.held,List.append_assoc,List.append_cancel_left_eq]
    rw [List.range_add,List.map_append,List.map_map]
    congr 1
    · exact List.map_congr_left fun i hi => if_neg fun h => by
        have := List.mem_range.mp hi
        omega
    · refine List.ext_getElem (by simp) fun i hi hi' => ?_
      simp [List.getD_eq_getElem?_getD,hi']

theorem held_frame {size : Lint 4} {length : Nat} {buffer : Nat → Byte} {payload : List Byte}
    (hpayload : payload.length < 2^31)
    (h : (Reader.payload size length buffer).held <+: frame payload) :
    size.toNat = payload.length ∧ (List.range length).map buffer <+: payload := by
  obtain ⟨rest,hrest⟩ := h
  rw [Reader.held,frame,List.append_assoc] at hrest
  obtain ⟨hword,hbytes⟩ := List.append_inj hrest (by simp)
  have hsize : size = BitVec.ofNat 32 payload.length := by
    refine eq_of_bytes fun i hi => ?_
    exact List.map_inj_left.mp hword i (List.mem_range.mpr hi)
  refine ⟨?_,rest,hbytes⟩
  rw [hsize,BitVec.toNat_ofNat,Nat.mod_eq_of_lt (by omega)]

theorem frameWire_carries {encrypt decrypt : List Byte → List Byte}
    (hdecrypt : ∀ m, decrypt (encrypt m) = m) :
    (frameWire encrypt decrypt).Carries (fun m => (encrypt m).length < 2^31)
      (fun m => frame (encrypt m)) Reader.held where
  opened {m} hm := by
    simp only [frameWire,Writer.pending,frame,intOf_eq hm,List.append_cancel_left_eq]
    refine List.ext_getElem (by simp) fun i hi hi' => ?_
    simp [List.getD_eq_getElem?_getD,hi']
  encode_ne {m} hm hnil := by
    have hlength := length_frame (encrypt m)
    rw [hnil,List.length_nil] at hlength
    omega
  can_write {x} hx := by
    cases x with
    | word message => exact ⟨_,_,.word message⟩
    | payload data bytes_read p =>
      have hpos : 0 < bytes_read := by
        refine Nat.pos_of_ne_zero fun hzero => hx ?_
        rw [hzero]
        rfl
      exact ⟨_,_,.payload hpos (le_refl bytes_read)⟩
  idle := rfl
  reads := held_reads
  stays {m r bs r' rest} hm hcall hpre hne hlong := by
    refine List.prefix_of_prefix_length_le hlong (List.prefix_append _ _) ?_
    rw [length_frame,List.length_append]
    cases hcall with
    | word hlength => simp [Reader.held,hlength]
    | @payload size length buffer bs hpos hle =>
      obtain ⟨hsize,_⟩ := held_frame hm hpre
      simp only [Reader.held,List.length_append,List.length_map,List.length_range]
      omega
  can_read {m r} hm hpre hne := by
    cases r with
    | word =>
      exact ⟨_,_,.word (by simp),List.prefix_append _ _⟩
    | payload size length buffer =>
      obtain ⟨hsize,_⟩ := held_frame hm hpre
      obtain ⟨bs,hbs⟩ := hpre
      have hlength := congrArg List.length hbs
      rw [length_frame,List.length_append] at hlength
      simp only [Reader.held,List.length_append,List.length_map,List.length_range] at hlength
      have hpos : 0 < bs.length := by
        refine List.length_pos_of_ne_nil fun hnil => hne ?_
        rwa [hnil,List.append_nil] at hbs
      exact ⟨bs,_,.payload hpos (by omega),hbs ▸ List.prefix_rfl⟩
  closed {m r} hm hall := by
    cases r with
    | word =>
      have hlength := length_frame (encrypt m)
      rw [← hall,Reader.held,List.length_nil] at hlength
      omega
    | payload size length buffer =>
      obtain ⟨hsize,hbytes⟩ := held_frame hm ⟨[],(List.append_nil _).trans hall⟩
      have hlength := congrArg List.length hall
      rw [length_frame] at hlength
      simp only [Reader.held,List.length_append,List.length_map,List.length_range] at hlength
      have hdone : length = size.toNat := by omega
      rw [hdone] at hbytes
      have hmessage := hbytes.eq_of_length (by simp [hsize])
      simp only [frameWire,Reader.closed,hdone,if_neg (Nat.lt_irrefl _),hmessage,Option.map_some,
        hdecrypt]
  unclosed {m r} hm hpre hne := by
    cases r with
    | word => rfl
    | payload size length buffer =>
      obtain ⟨hsize,_⟩ := held_frame hm hpre
      have hlt : length < size.toNat := by
        by_contra hlt
        refine hne (hpre.eq_of_length_le ?_)
        rw [length_frame]
        simp only [Reader.held,List.length_append,List.length_map,List.length_range]
        omega
      simp only [frameWire,Reader.closed,if_pos hlt,Option.map_none]

section Network
variable {n L : Nat} {Key Message : Type}

def Connect.Conn.otherEnd (sock : Connect.Conn) (id : Nat) : Nat :=
  if sock.client = id then sock.server else sock.client

def encryptFor (cipher : Key → Cipher) (c : Connect.State Key Message) (p q : Fin n) :
    List Byte → List Byte :=
  (c.peer2key (pid p) (pid q)).elim id fun key => (cipher key).aesEncrypt

def decryptFor (cipher : Key → Cipher) (c : Connect.State Key Message) (p q : Fin n) :
    List Byte → List Byte :=
  (c.peer2key (pid p) (pid q)).elim id fun key => (cipher key).aesDecrypt

/-- The sockets and keys that `connectToPeers` has left behind. Each socket has a stream for each
of its two ends. -/
def network (cipher : Key → Cipher) (c : Connect.State Key Message) :
    Links (Fin n) (List Byte) Byte Writer Reader (Connect.Conn × Nat) where
  wire q p := frameWire (encryptFor cipher c q p) (decryptFor cipher c p q)
  out p q := do
    let sock ← c.peer2sock (pid p) (pid q)
    let _ ← c.peer2key (pid p) (pid q)
    some (sock,pid p)
  into p q := do
    let sock ← c.peer2sock (pid p) (pid q)
    let _ ← c.peer2key (pid p) (pid q)
    some (sock,sock.otherEnd (pid p))

def Connected (n : Nat) (c : Connect.State Key Message) : Prop := ∀ p q : Fin n, p ≠ q →
  ∃ key sock, sock = ⟨min (pid p) (pid q),max (pid p) (pid q)⟩ ∧
    c.peer2sock (pid p) (pid q) = some sock ∧ c.peer2sock (pid q) (pid p) = some sock ∧
    c.peer2key (pid p) (pid q) = some key ∧ c.peer2key (pid q) (pid p) = some key

theorem connected_of_done {rsa : Connect.Rsa Key Message} {keyIV : Nat → Nat → Key}
    {schedule : List (Fin n)} {c : Connect.State Key Message}
    (hrun : Connect.run n rsa keyIV schedule = some c)
    (hdone : ∀ p : Fin n, c.phase (pid p) = .done) : Connected n c := by
  obtain ⟨⟨counts,h⟩,_⟩ := Connect.run_invariant hrun
  intro p q hpq
  rcases lt_or_gt_of_ne hpq with hlt | hlt
  · obtain ⟨key,hp,hq,hkp,hkq⟩ := h.connected hlt (hdone p) (hdone q)
    have hpid : pid p < pid q := Nat.succ_lt_succ hlt
    refine ⟨key,_,rfl,?_,?_,hkp,hkq⟩
    · rwa [min_eq_left hpid.le,max_eq_right hpid.le]
    · rwa [min_eq_left hpid.le,max_eq_right hpid.le]
  · obtain ⟨key,hq,hp,hkq,hkp⟩ := h.connected hlt (hdone q) (hdone p)
    have hpid : pid q < pid p := Nat.succ_lt_succ hlt
    refine ⟨key,_,rfl,?_,?_,hkp,hkq⟩
    · rwa [min_eq_right hpid.le,max_eq_left hpid.le]
    · rwa [min_eq_right hpid.le,max_eq_left hpid.le]

variable {cipher : Key → Cipher} {c : Connect.State Key Message} (hc : Connected n c)
include hc

theorem network_joined : (network cipher c : Links (Fin n) _ _ _ _ _).Joined where
  linked {p q} hpq := by
    obtain ⟨key,sock,hsock,hp,hq,hkp,hkq⟩ := hc p q hpq
    have hne : pid p ≠ pid q := fun h => hpq (Fin.ext (Nat.succ_injective h))
    have hother : sock.otherEnd (pid q) = pid p := by
      rw [hsock,Connect.Conn.otherEnd]
      simp only
      split <;> omega
    refine ⟨(sock,pid p),?_,?_⟩
    · simp [network,hp,hkp]
    · simp [network,hq,hkq,hother]
  apart {p q p' q' k} hpq hpq' hout hout' := by
    obtain ⟨key,sock,hsock,hp,_,hkp,_⟩ := hc p q hpq
    obtain ⟨key',sock',hsock',hp',_,hkp',_⟩ := hc p' q' hpq'
    simp only [network,hp,hkp,hp',hkp',Option.bind_eq_bind,Option.bind_some,Option.some.injEq]
      at hout hout'
    obtain ⟨hs,hpid⟩ := Prod.ext_iff.mp (hout'.trans hout.symm)
    have hends := hs
    simp only [hsock,hsock',Connect.Conn.mk.injEq] at hends
    simp only at hpid
    have hpp : p' = p := Fin.ext (Nat.succ_injective hpid)
    refine ⟨hpp,Fin.ext (Nat.succ_injective (show pid q' = pid q from ?_))⟩
    omega

theorem decryptFor_encryptFor (q p : Fin n) (m : List Byte) :
    decryptFor cipher c p q (encryptFor cipher c q p m) = m := by
  by_cases hqp : q = p
  · subst hqp
    rw [encryptFor,decryptFor]
    cases c.peer2key (pid q) (pid q) with
    | none => rfl
    | some key => exact (cipher key).decrypt_encrypt m
  · obtain ⟨key,_,_,_,_,hkq,hkp⟩ := hc q p hqp
    rw [encryptFor,decryptFor,hkq,hkp]
    exact (cipher key).decrypt_encrypt m

end Network

theorem length_encryptFor {n : Nat} {Key Message : Type} (cipher : Key → Cipher)
    (c : Connect.State Key Message) (q p : Fin n) (m : List Byte) :
    (encryptFor cipher c q p m).length ≤ m.length + 16 := by
  rw [encryptFor]
  cases c.peer2key (pid q) (pid p) with
  | none => exact Nat.le_add_right _ _
  | some key => exact (cipher key).length_encrypt m

section Session
variable {n L : Nat}

def Routing.Apart (R : Routing n) : Prop := ∀ p r, r < R.rounds → R.sendTo p r ≠ some p

instance (R : Routing n) : Decidable R.Apart :=
  inferInstanceAs (Decidable (∀ p r, r < R.rounds → R.sendTo p r ≠ some p))

theorem apart3pc : map3pc.Apart := by decide

theorem apart5pc : map5pc.Apart ∧ openMap5pc.Apart ∧ edaMap5pc.Apart := by decide

theorem apart7pc : map7pc.Apart ∧ openMap7pc.Apart ∧ edaMap7pc.Apart := by decide

def Call.Apart (c : Call n L) : Prop := ∀ R, c.routing = some R → R.Apart

theorem Call3pc.apart {c : Call 3 L} (h : Call3pc c) : c.Apart := by
  cases h with
  | sendAndGetDataFromPeer SendData size hflag hflag' =>
    intro R hR
    obtain rfl := Option.some_inj.mp hR
    exact apart3pc
  | multicastToPeers data size hflag hflag' => exact fun R hR => absurd hR (by simp)

theorem CallMp.apart {map openMap edaMap : Routing n}
    (hmap : map.Apart ∧ openMap.Apart ∧ edaMap.Apart) {c : Call n L}
    (h : CallMp map openMap edaMap c) : c.Apart := by
  cases h with
  | sendAndGetDataFromPeerMult SendData size hflag hflag' =>
    intro R hR
    obtain rfl := Option.some_inj.mp hR
    exact hmap.1
  | sendAndGetDataFromPeerOpen SendData size hflag hflag' =>
    intro R hR
    obtain rfl := Option.some_inj.mp hR
    exact hmap.2.1
  | sendAndGetDataFromPeerEda SendData size hflag hflag' =>
    intro R hR
    obtain rfl := Option.some_inj.mp hR
    exact hmap.2.2
  | multicastToPeers data size hflag hflag' => exact fun R hR => absurd hR (by simp)

namespace Call
variable {c : Call n L}

theorem length_chunk_le (q : Fin n) (b k : Nat) : (c.chunk q b k).length ≤ maxBufferSize := by
  have hamount := chunkAmount_le (k*c.count) c.count c.size.toNat
  rw [chunk,sendDataToPeer,List.length_map,List.length_range]
  exact (Nat.mul_le_mul_left _ hamount).trans (unit_count_le n c.flag)

theorem phases_apart (hc : c.Apart) (m : Nat) : ∀ ph ∈ c.phases m, ∀ p, p ∉ ph.targets p := by
  intro ph hph p
  rw [phases] at hph
  cases hR : c.routing with
  | none =>
    simp only [hR] at hph
    obtain ⟨k,_,rfl⟩ := List.mem_map.mp hph
    simp [multicastPhase]
  | some R =>
    simp only [hR] at hph
    obtain ⟨r,hr,hph⟩ := List.mem_flatMap.mp hph
    obtain ⟨k,_,rfl⟩ := List.mem_map.mp hph
    simpa [roundPhase] using hc R hR p r (List.mem_range.mp hr)

theorem phases_message (m : Nat) : ∀ ph ∈ c.phases m, ∀ q p,
    (ph.message q p).length ≤ maxBufferSize := by
  intro ph hph q p
  rw [phases] at hph
  cases hR : c.routing with
  | none =>
    simp only [hR] at hph
    obtain ⟨k,_,rfl⟩ := List.mem_map.mp hph
    exact length_chunk_le q p.val k
  | some R =>
    simp only [hR] at hph
    obtain ⟨r,_,hph⟩ := List.mem_flatMap.mp hph
    obtain ⟨k,_,rfl⟩ := List.mem_map.mp hph
    exact length_chunk_le q r k

end Call

variable {Key Message : Type}

/-- Whatever the calls of `send` and `recv` return and in whichever order the parties make them,
no state is stuck, no run goes on for ever, and once all are done nothing is left in a stream and
every buffer of every call is where it was meant to go. -/
def Transports (cipher : Key → Cipher) (c : Connect.State Key Message) (calls : List (Call n L)) :
    Prop :=
  ∀ mem k s, Runs (network cipher c) (session calls) mem k s →
    k ≤ 2*∑ p, toWrite (network cipher c) p (session calls p) ∧
    (Streams.Finished s ∨ ∃ t, Streams.Step (network cipher c) s t) ∧
    (Streams.Finished s → (∀ (q p : Fin n) link, q ≠ p → (network cipher c).out q p = some link →
        s.stream link = []) ∧
      ∀ (m : Nat) (call : Call n L), calls[m]? = some call →
        call.Delivered (fun p => mem p m) (fun p => s.memory p m))

theorem transports {cipher : Key → Cipher} {c : Connect.State Key Message} (hc : Connected n c)
    {calls : List (Call n L)} (hfits : ∀ call ∈ calls, call.Fits)
    (hmatched : ∀ call ∈ calls, call.Matched) (hapart : ∀ call ∈ calls, call.Apart) :
    Transports cipher c calls := by
  intro mem k s hrun
  have hmem : ∀ ph ∈ calls.zipIdx.flatMap fun call => call.1.phases call.2,
      ∃ call ∈ calls, ∃ m, ph ∈ call.phases m := by
    intro ph hph
    obtain ⟨⟨call,m⟩,hcall,hph⟩ := List.mem_flatMap.mp hph
    exact ⟨call,List.fst_mem_of_mem_zipIdx hcall,m,hph⟩
  have hphases : ∀ ph ∈ calls.zipIdx.flatMap fun call => call.1.phases call.2, ph.Matched := by
    intro ph hph
    obtain ⟨call,hcall,m,hph⟩ := hmem ph hph
    exact Call.phases_matched (hmatched call hcall) m ph hph
  have htargets : ∀ ph ∈ calls.zipIdx.flatMap fun call => call.1.phases call.2,
      ∀ p, p ∉ ph.targets p := by
    intro ph hph
    obtain ⟨call,hcall,m,hph⟩ := hmem ph hph
    exact Call.phases_apart (hapart call hcall) m ph hph
  have hmessages : ∀ ph ∈ calls.zipIdx.flatMap fun call => call.1.phases call.2, ∀ q p,
      q ∈ ph.sources p → (encryptFor cipher c q p (ph.message q p)).length < 2^31 := by
    intro ph hph q p _
    obtain ⟨call,hcall,m,hph⟩ := hmem ph hph
    have hmessage := Call.phases_message m ph hph q p
    have hencrypted := length_encryptFor cipher c q p (ph.message q p)
    have hbuffer : maxBufferSize + 16 < 2^31 := by decide
    omega
  obtain ⟨hlength,hprogress,hfinish⟩ := hrun.exchange (network_joined hc)
    (fun q p => frameWire_moves _ _) (fun q p => frameWire_carries (decryptFor_encryptFor hc q p))
    hphases htargets hmessages
  refine ⟨hlength,hprogress,fun hdone => ?_⟩
  obtain ⟨hempty,hmemory⟩ := hfinish hdone
  refine ⟨hempty,fun m call hcall => ?_⟩
  have hnew : (fun p => s.memory p m) = fun p b => call.buffer p b (mem p m b) := by
    funext p
    rw [hmemory p,session_result hfits 0 p (mem p) m,if_pos (Nat.zero_le m),Nat.sub_zero,hcall,
      Option.elim_some]
  rw [hnew]
  exact Call.delivered (hmatched call (List.mem_of_getElem? hcall)) _

end Session

section
variable {L : Nat} {Key Message : Type}

/-- After `connectToPeers` the exchanges of three, five and seven parties, of any sizes and one
after another, deliver every buffer over streams of bytes. What `exchanges_route` says of size 0
and `start_add_amount_lt` of long arrays goes for these too. -/
theorem exchanges_transport (hL : L ≤ 8) (rsa : Connect.Rsa Key Message)
    (keyIV : Nat → Nat → Key) (cipher : Key → Cipher) :
    (∀ (schedule : List (Fin 3)) c, Connect.run 3 rsa keyIV schedule = some c →
      (∀ p : Fin 3, c.phase (pid p) = .done) →
      ∀ calls : List (Call 3 L), (∀ call ∈ calls, Call3pc call) → Transports cipher c calls) ∧
    (∀ (schedule : List (Fin 5)) c, Connect.run 5 rsa keyIV schedule = some c →
      (∀ p : Fin 5, c.phase (pid p) = .done) → ∀ calls : List (Call 5 L),
      (∀ call ∈ calls, CallMp map5pc openMap5pc edaMap5pc call) → Transports cipher c calls) ∧
    (∀ (schedule : List (Fin 7)) c, Connect.run 7 rsa keyIV schedule = some c →
      (∀ p : Fin 7, c.phase (pid p) = .done) → ∀ calls : List (Call 7 L),
      (∀ call ∈ calls, CallMp map7pc openMap7pc edaMap7pc call) → Transports cipher c calls) := by
  refine ⟨fun schedule c hrun hdone calls h => ?_,fun schedule c hrun hdone calls h => ?_,
    fun schedule c hrun hdone calls h => ?_⟩
  · exact transports (connected_of_done hrun hdone) (fun call hc => ((h call hc).fits hL).1)
      (fun call hc => ((h call hc).fits hL).2) fun call hc => (h call hc).apart
  · exact transports (connected_of_done hrun hdone)
      (fun call hc => ((h call hc).fits (by decide) hL paired5pc).1)
      (fun call hc => ((h call hc).fits (by decide) hL paired5pc).2)
      fun call hc => (h call hc).apart apart5pc
  · exact transports (connected_of_done hrun hdone)
      (fun call hc => ((h call hc).fits (by decide) hL paired7pc).1)
      (fun call hc => ((h call hc).fits (by decide) hL paired7pc).2)
      fun call hc => (h call hc).apart apart7pc

theorem exchanges_transport_three :
    ∃ c, Connect.run 3 Connect.sealedRsa (fun p i => 10*p + i) Connect.lastFirst = some c ∧
      Transports (L := 8) (fun _ => padded) c
        [⟨some map3pc,fun p _ i => BitVec.ofNat 64 (p.val + i),2,45⟩] := by
  have hends : ((Connect.run 3 Connect.sealedRsa (fun p i => 10*p + i) Connect.lastFirst).map
      fun c => [c.phase 1,c.phase 2,c.phase 3]) = some [.done,.done,.done] := by decide
  obtain ⟨c,hrun,hphases⟩ := Option.map_eq_some_iff.mp hends
  simp only [List.cons.injEq] at hphases
  have hdone : ∀ p : Fin 3, c.phase (pid p) = .done := by
    intro p
    match p with
    | 0 => exact hphases.1
    | 1 => exact hphases.2.1
    | 2 => exact hphases.2.2.1
  refine ⟨c,hrun,(exchanges_transport (by decide) Connect.sealedRsa (fun p i => 10*p + i)
    fun _ => padded).1 _ c hrun hdone _ fun call hcall => ?_⟩
  obtain rfl := List.mem_singleton.mp hcall
  exact Call3pc.sendAndGetDataFromPeer (L := 8) (fun p i => BitVec.ofNat 64 (p.val + i)) _
    (by decide) (by decide)

end

end RssRing
