import RssRing.ProtocolsBasic.WireTap
import RssRing.ProtocolsComposite.BitLT
set_option autoImplicit false

namespace RssRing
open Replicated Coupling

variable {L k : Nat}

def rssMultPubWord (v_a c : Fin 3 → Nat → Lint L) (a b : Shares 3 (Lint L)) (size ring_size : Nat)
    (net : Net 3 (Tap L)) (q : Fin 3) (i : Nat) : Lint L :=
  let K := arithKind L ring_size
  let v_a := K.load (v_a q i) (net.random 0 K.bytes size q) i
  let c := K.load (c q i) ((net.advance 0 K.bytes size).random 1 K.bytes size q) i
  let v := product3pc K (fun s => a q s i) (fun s => b q s i)
  v + BitVec.ofInt (8*L) (opb q)*c + BitVec.ofInt (8*L) (opa q)*v_a

def rssMultPubTapped (v_a c : Fin 3 → Nat → Lint L) (a b : Shares 3 (Lint L)) (size ring_size : Nat)
    (net : Net 3 (Tap L)) : (Fin 3 → Nat → Lint L) × Net 3 (Tap L) :=
  let r := rssMultPub v_a c a b size ring_size net
  let sent := fun q => (List.range size).map fun i =>
    received ring_size (rssMultPubWord v_a c a b size ring_size net q i)
  (r.1,Tap.hear (fun p => .words (sent (p + 2) ++ sent (p + 1))) r.2)

/-- The three-party operations with a note of all messages. An opening gives every party
the message along with the result. -/
def tapSuite (scratch : Shares 3 (Lint L)) : Suite 3 L (Tap L) where
  numShares := 2
  ai := ai3pc
  multByte a b size net :=
    mult3pcTapped byteKind .bytes productByte size net (fun _ _ _ => 0) a b
  multBitwise c a b size ring_size net :=
    mult3pcTapped (bitwiseKind L ring_size) .words (product3pc (bitwiseKind L ring_size)) size net c a b
  multPub := rssMultPubTapped (fun p => scratch p 0) (fun p => scratch p 1)
  openShares := rssOpen
  clearsBuffer := false

section Silence
variable (scratch : Shares 3 (Lint L))

theorem multByte_silence (a b : Shares 3 Byte) (size : Nat) (net : Net 3 (Tap L)) :
    (suite3pc scratch).multByte a b size (Tap.silence net) =
      (((tapSuite scratch).multByte a b size net).1,
        Tap.silence ((tapSuite scratch).multByte a b size net).2) :=
  mult3pc_silence byteKind .bytes productByte size net _ a b

theorem multBitwise_silence (c a b : Shares 3 (Lint L)) (size ring_size : Nat)
    (net : Net 3 (Tap L)) :
    (suite3pc scratch).multBitwise c a b size ring_size (Tap.silence net) =
      (((tapSuite scratch).multBitwise c a b size ring_size net).1,
        Tap.silence ((tapSuite scratch).multBitwise c a b size ring_size net).2) :=
  mult3pc_silence (bitwiseKind L ring_size) .words _ size net c a b

theorem multPub_silence (a b : Shares 3 (Lint L)) (size ring_size : Nat) (net : Net 3 (Tap L)) :
    (suite3pc scratch).multPub a b size ring_size (Tap.silence net) =
      (((tapSuite scratch).multPub a b size ring_size net).1,
        Tap.silence ((tapSuite scratch).multPub a b size ring_size net).2) := by
  refine Prod.ext rfl ?_
  show ((Tap.silence net).advance 0 _ size).advance 1 _ size = Tap.silence (Tap.hear _ _)
  rw [Tap.silence_hear,Tap.silence_advance,Tap.silence_advance]
  rfl

def silenceCircle (st : Suite.CircleState 3 L (Tap L)) : Suite.CircleState 3 L (Tap L) :=
  ⟨st.d,st.buffer,Tap.silence st.net⟩

theorem circleRound_silence (r_size size i : Nat) (st : Suite.CircleState 3 L (Tap L)) :
    (suite3pc scratch).circleRound r_size size i (silenceCircle st) =
      silenceCircle ((tapSuite scratch).circleRound r_size size i st) := by
  simp only [Suite.circleRound,silenceCircle,multByte_silence]
  rfl

theorem circleOpL_silence (d : Shares 3 (Lint L)) (r_size size : Nat) (net : Net 3 (Tap L)) :
    (suite3pc scratch).circleOpL d r_size size (Tap.silence net) =
      (((tapSuite scratch).circleOpL d r_size size net).1,
        Tap.silence ((tapSuite scratch).circleOpL d r_size size net).2) := by
  have hrounds : ∀ (rounds : List Nat) (st : Suite.CircleState 3 L (Tap L)),
      rounds.foldl (fun st r => (suite3pc scratch).circleRound r_size size (r+1) st)
        (silenceCircle st) = silenceCircle
          (rounds.foldl (fun st r => (tapSuite scratch).circleRound r_size size (r+1) st) st) := by
    intro rounds
    induction rounds with
    | nil => exact fun _ => rfl
    | cons r rounds ih =>
      intro st
      rw [List.foldl_cons,List.foldl_cons,circleRound_silence,ih]
  by_cases hsize : 1 < r_size
  · have hstart := hrounds (List.range (Nat.clog 2 r_size)) ⟨d,fun _ _ _ => 0,net⟩
    simp only [Suite.circleOpL,if_pos hsize]
    rw [silenceCircle] at hstart
    rw [hstart]
    rfl
  · simp only [Suite.circleOpL,if_neg hsize]

theorem bitAdd_silence (res a b : Shares 3 (Lint L)) (ring_size size : Nat) (net : Net 3 (Tap L)) :
    (suite3pc scratch).bitAdd res a b ring_size size (Tap.silence net) =
      (((tapSuite scratch).bitAdd res a b ring_size size net).1,
        Tap.silence ((tapSuite scratch).bitAdd res a b ring_size size net).2) := by
  simp only [Suite.bitAdd,multBitwise_silence,circleOpL_silence]
  rfl

theorem carryOutStep_silence (r_size size : Nat) (d : Shares 3 (Lint L)) (net : Net 3 (Tap L)) :
    (suite3pc scratch).carryOutStep r_size size d (Tap.silence net) =
      (((tapSuite scratch).carryOutStep r_size size d net).1,
        Tap.silence ((tapSuite scratch).carryOutStep r_size size d net).2) := by
  simp only [Suite.carryOutStep,multByte_silence]
  rfl

theorem carryOutLoop_silence (size r_size : Nat) (d : Shares 3 (Lint L)) (net : Net 3 (Tap L)) :
    (suite3pc scratch).carryOutLoop size r_size d (Tap.silence net) =
      (((tapSuite scratch).carryOutLoop size r_size d net).1,
        Tap.silence ((tapSuite scratch).carryOutLoop size r_size d net).2) := by
  induction r_size, d, net using Suite.carryOutLoop.induct (tapSuite scratch) size with
  | case1 r_size d net hsize st ih =>
    rw [Suite.carryOutLoop.eq_def,if_pos hsize,Suite.carryOutLoop.eq_def (tapSuite scratch),if_pos hsize,
      carryOutStep_silence]
    exact ih
  | case2 r_size d net hsize =>
    rw [Suite.carryOutLoop.eq_def,if_neg hsize,Suite.carryOutLoop.eq_def (tapSuite scratch),if_neg hsize]

theorem bitLT_silence (res b : Shares 3 (Lint L)) (a : Fin 3 → Nat → Lint L) (ring_size size : Nat)
    (net : Net 3 (Tap L)) :
    (suite3pc scratch).bitLT res a b ring_size size (Tap.silence net) =
      (((tapSuite scratch).bitLT res a b ring_size size net).1,
        Tap.silence ((tapSuite scratch).bitLT res a b ring_size size net).2) := by
  simp only [Suite.bitLT,Suite.carryOut,Suite.newCarryOutAux]
  rw [show (suite3pc scratch).carryOutStart a (fun q s i => b q s i ^^^ (suite3pc (G := Tap L)
    scratch).aiMask q s) = (tapSuite scratch).carryOutStart a
      (fun q s i => b q s i ^^^ (tapSuite scratch).aiMask q s) from rfl,carryOutLoop_silence]
  rfl

end Silence

section Circle
variable {p : Fin 3} {scratch : Shares 3 (Lint L)} {size : Nat}

theorem AlikeAt.mono {W : Type} {slots slots' : Nat} {x y : Shares 3 W}
    (h : AlikeAt p slots size x y) (hslots : slots' ≤ slots) : AlikeAt p slots' size x y :=
  fun s hs => h s (Nat.lt_of_lt_of_le hs hslots)

theorem AlikeAt.toBytes {x y : Shares 3 (Lint L)} (h : AlikeAt p 4 size x y) {first : Nat}
    (hfirst : first ≤ 2) (n_uints : Nat) :
    AlikeAt p 2 (n_uints*size) (toBytes n_uints x first) (toBytes n_uints y first) := by
  intro s hs m hm
  have hword : m/n_uints < size := Nat.div_lt_of_lt_mul hm
  rw [RssRing.toBytes,RssRing.toBytes,h (first + s) (by omega) _ hword]

theorem multByte_coupled (p : Fin 3) (scratch : Shares 3 (Lint L)) (size : Nat)
    {a a' b b' : Shares 3 Byte} {net net' : Net 3 (Tap L)} (ha : AlikeAt p 2 size a a')
    (hb : AlikeAt p 2 size b b') (hnet : net p = net' p) :
    Coupled (overlay p) (Tap.ofShare (1*size))
      (fun ω => (tapSuite scratch).multByte a b size (Tap.withHidden p net ω))
      (fun ω => (tapSuite scratch).multByte a' b' size (Tap.withHidden p net' ω))
      (SeenAlike p 2 size) :=
  mult3pcTapped_coupled byteMasking (fun _ _ _ _ => productByte_congr) (fun _ _ _ _ => rfl) ha hb hnet

theorem multBitwise_coupled (p : Fin 3) (scratch : Shares 3 (Lint L)) (hk : k ≤ 8*L) (size : Nat)
    {c c' a a' b b' : Shares 3 (Lint L)} {net net' : Net 3 (Tap L)} (hc : AlikeAt p 2 size c c')
    (ha : AlikeAt p 2 size a a') (hb : AlikeAt p 2 size b b') (hnet : net p = net' p) :
    Coupled (overlay p) (Tap.ofShare (byteWidth k*size))
      (fun ω => (tapSuite scratch).multBitwise c a b size k (Tap.withHidden p net ω))
      (fun ω => (tapSuite scratch).multBitwise c' a' b' size k (Tap.withHidden p net' ω))
      (SeenAlike p 2 size) :=
  mult3pcTapped_coupled (bitwiseMasking hk) (fun _ _ _ _ => product3pc_congr _) hc ha hb hnet

def overlayCircle (p : Fin 3) (st : Suite.CircleState 3 L (Tap L)) (ω : Hidden → Nat → Byte) :
    Suite.CircleState 3 L (Tap L) := ⟨st.d,st.buffer,Tap.withHidden p st.net ω⟩

structure CircleAlike (p : Fin 3) (size : Nat) (st st' : Suite.CircleState 3 L (Tap L)) : Prop where
  d : AlikeAt p 4 size st.d st'.d
  buffer : AlikeAt p 4 size st.buffer st'.buffer
  net : st.net p = st'.net p

@[simp] theorem tapSuite_numShares (scratch : Shares 3 (Lint L)) :
    (tapSuite scratch).numShares = 2 := rfl

theorem AlikeAt.carryBuffer2 {buffer buffer' d d' : Shares 3 (Lint L)}
    (hbuffer : AlikeAt p 4 size buffer buffer') (hd : AlikeAt p 4 size d d')
    (scratch : Shares 3 (Lint L)) (index : List (Nat × Nat)) :
    AlikeAt p 4 size ((tapSuite scratch).carryBuffer2 index buffer d)
      ((tapSuite scratch).carryBuffer2 index buffer' d') := by
  intro s hs i hi
  rw [Suite.carryBuffer2,Suite.carryBuffer2,hbuffer s hs i hi]
  refine List.foldl_ext _ _ _ fun x j _ => ?_
  show (if s < 2 then _ else _) = if s < 2 then _ else _
  by_cases hp : s < 2
  · rw [if_pos hp,if_pos hp]
    simp only [tapSuite_numShares,hd s hs i hi,hd (2 + s) (by omega) i hi]
  · rw [if_neg hp,if_neg hp]
    simp only [tapSuite_numShares,hd (s - 2) (by omega) i hi]

def circleUpdate (index : List (Nat × Nat)) (d : Shares 3 (Lint L)) (u : Shares 3 Byte) :
    Shares 3 (Lint L) := fun q s l => (List.range index.length).foldl (fun x j =>
  let t_index := j/4 + l*byteWidth (2*index.length)
  let mask2 := (index.getD j (0,0)).2
  if s < 2 then setBit x mask2 (getBit ((u q s t_index).setWidth (8*L)) (2*j%8))
  else setBit x mask2 (getBit ((u q (s - 2) t_index).setWidth (8*L)) ((2*j+1)%8) ^^^
    getBit x mask2)) (d q s l)

theorem piece_lt {m j l : Nat} (hj : j < m) (hl : l < size) :
    j/4 + l*byteWidth (2*m) < byteWidth (2*m)*size := by
  have hbytes := le_byteWidth (2*m)
  have hlt : l*byteWidth (2*m) + j/4 < size*byteWidth (2*m) := index_lt hl (by omega)
  rw [Nat.mul_comm (byteWidth (2*m))]
  omega

theorem AlikeAt.circleUpdate {index : List (Nat × Nat)} {d d' : Shares 3 (Lint L)}
    {u u' : Shares 3 Byte} (hd : AlikeAt p 4 size d d')
    (hu : AlikeAt p 2 (byteWidth (2*index.length)*size) u u') :
    AlikeAt p 4 size (circleUpdate index d u) (circleUpdate index d' u') := by
  intro s hs l hl
  rw [RssRing.circleUpdate,RssRing.circleUpdate,hd s hs l hl]
  refine List.foldl_ext _ _ _ fun x j hj => ?_
  have hplace := piece_lt (List.mem_range.mp hj) hl
  by_cases hp : s < 2
  · simp only [if_pos hp,hu s hp _ hplace]
  · simp only [if_neg hp,hu (s - 2) (by omega) _ hplace]

theorem circleRound_coupled (p : Fin 3) (scratch : Shares 3 (Lint L)) (r_size size i : Nat)
    {st st' : Suite.CircleState 3 L (Tap L)} (h : CircleAlike p size st st') :
    Coupled (overlayCircle p)
      (Tap.ofShare (1*(byteWidth (2*(circleIndex r_size i).length)*size)))
      (fun ω => (tapSuite scratch).circleRound r_size size i (overlayCircle p st ω))
      (fun ω => (tapSuite scratch).circleRound r_size size i (overlayCircle p st' ω))
      (CircleAlike p size) := by
  let index := circleIndex r_size i
  let packed := fun st : Suite.CircleState 3 L (Tap L) =>
    (tapSuite scratch).carryBuffer2 index st.buffer st.d
  let after := fun (st : Suite.CircleState 3 L (Tap L)) (x : Shares 3 Byte × Net 3 (Tap L)) =>
    (⟨circleUpdate index st.d x.1,packed st,x.2⟩ : Suite.CircleState 3 L (Tap L))
  have hpacked : AlikeAt p 4 size (packed st) (packed st') := h.buffer.carryBuffer2 h.d scratch index
  have hproducts := multByte_coupled p scratch (byteWidth (2*index.length)*size)
    (hpacked.toBytes (Nat.zero_le 2) _) (hpacked.toBytes (Nat.le_refl 2) _) h.net
  exact hproducts.map (overlayCircle p) (after st) (after st') (after st) (after st')
    (fun _ _ => rfl) (fun _ _ => rfl) fun x x' hx => ⟨h.d.circleUpdate hx.1,hpacked,hx.2⟩

theorem circleOpL_coupled (p : Fin 3) (scratch : Shares 3 (Lint L)) (r_size size : Nat) :
    ∃ N, ∀ (d d' : Shares 3 (Lint L)) (net net' : Net 3 (Tap L)), AlikeAt p 4 size d d' →
      net p = net' p → Coupled (overlay p) N
        (fun ω => (tapSuite scratch).circleOpL d r_size size (Tap.withHidden p net ω))
        (fun ω => (tapSuite scratch).circleOpL d' r_size size (Tap.withHidden p net' ω))
        (SeenAlike p 4 size) := by
  by_cases hsize : 1 < r_size
  · refine ⟨((List.range (Nat.clog 2 r_size)).map fun r =>
      Tap.ofShare (1*(byteWidth (2*(circleIndex r_size (r+1)).length)*size))).sum,
      fun d d' net net' hd hnet => ?_⟩
    have hstart : CircleAlike p size ⟨d,fun _ _ _ => 0,net⟩ ⟨d',fun _ _ _ => 0,net'⟩ :=
      ⟨hd,fun _ _ _ _ => rfl,hnet⟩
    let round := fun (st : Suite.CircleState 3 L (Tap L)) (r : Nat) =>
      (tapSuite scratch).circleRound r_size size (r+1) st
    let result := fun (st : Suite.CircleState 3 L (Tap L)) => (st.d,st.net)
    have hrounds := Coupled.foldl round round (List.range (Nat.clog 2 r_size))
      (fun r _ st st' hst => circleRound_coupled p scratch r_size size (r+1) hst) hstart
    have hend := hrounds.map (Q := SeenAlike p 4 size) (overlay p) result result result result
      (fun _ _ => rfl) (fun _ _ => rfl) fun st st' hst => ⟨hst.d,hst.net⟩
    simp only [Suite.circleOpL,if_pos hsize]
    exact hend
  · refine ⟨0,fun d d' net net' hd hnet => ?_⟩
    simp only [Suite.circleOpL,if_neg hsize]
    exact Coupled.still (overlay p) (d,net) (d',net') ⟨hd,hnet⟩

theorem bitAdd_eq (scratch res a b : Shares 3 (Lint L)) (size : Nat) (net : Net 3 (Tap L)) :
    (tapSuite scratch).bitAdd res a b k size net =
      let m := (tapSuite scratch).multBitwise res a b size k net
      let e := (tapSuite scratch).circleOpL (fun q s i =>
        if s < 2 then a q s i ^^^ b q s i else m.1 q (s - 2) i) k size m.2
      (fun q s i => (a q s i ^^^ b q s i) ^^^ (e.1 q (2 + s) i <<< 1),e.2) := rfl

theorem bitAdd_coupled (p : Fin 3) (scratch : Shares 3 (Lint L)) (hk : k ≤ 8*L) (size : Nat) :
    ∃ N, ∀ (res res' a a' b b' : Shares 3 (Lint L)) (net net' : Net 3 (Tap L)),
      AlikeAt p 2 size res res' → AlikeAt p 2 size a a' → AlikeAt p 2 size b b' → net p = net' p →
      Coupled (overlay p) N
        (fun ω => (tapSuite scratch).bitAdd res a b k size (Tap.withHidden p net ω))
        (fun ω => (tapSuite scratch).bitAdd res' a' b' k size (Tap.withHidden p net' ω))
        (SeenAlike p 2 size) := by
  obtain ⟨N,hcircle⟩ := circleOpL_coupled p scratch k size
  refine ⟨Tap.ofShare (byteWidth k*size) + N,fun res res' a a' b b' net net' hres ha hb hnet => ?_⟩
  let start := fun (a b m : Shares 3 (Lint L)) => (fun q s i =>
    if s < 2 then a q s i ^^^ b q s i else m q (s - 2) i : Shares 3 (Lint L))
  let sum := fun (a b e : Shares 3 (Lint L)) => (fun q s i =>
    (a q s i ^^^ b q s i) ^^^ (e q (2 + s) i <<< 1) : Shares 3 (Lint L))
  have hstart : ∀ {m m' : Shares 3 (Lint L)}, AlikeAt p 2 size m m' →
      AlikeAt p 4 size (start a b m) (start a' b' m') := by
    intro m m' hm s hs i hi
    by_cases hp : s < 2
    · simp only [start,if_pos hp,ha s hp i hi,hb s hp i hi]
    · simp only [start,if_neg hp,hm (s - 2) (by omega) i hi]
  have hproducts := multBitwise_coupled p scratch hk size hres ha hb hnet
  have hprefix := hproducts.bind (overlay p)
    (fun x => (tapSuite scratch).circleOpL (start a b x.1) k size x.2)
    (fun x => (tapSuite scratch).circleOpL (start a' b' x.1) k size x.2)
    fun x x' hx => hcircle _ _ _ _ (hstart hx.1) hx.2
  have hsum : ∀ {e e' : Shares 3 (Lint L)}, AlikeAt p 4 size e e' →
      AlikeAt p 2 size (sum a b e) (sum a' b' e') := by
    intro e e' he s hs i hi
    simp only [sum,ha s hs i hi,hb s hs i hi,he (2 + s) (by omega) i hi]
  have hend := coupled_arrays (Q := SeenAlike p 2 size) (sum a b) (sum a' b') hprefix
    fun x x' hx => ⟨hsum hx.1,hx.2⟩
  simp only [bitAdd_eq]
  exact hend

end Circle

section CarryOut
variable {p : Fin 3} {size : Nat}

theorem AlikeAt.optimalBuffer {d d' : Shares 3 (Lint L)} (hd : AlikeAt p 4 size d d')
    (scratch : Shares 3 (Lint L)) (r_size : Nat) :
    AlikeAt p 4 size ((tapSuite scratch).optimalBuffer d r_size)
      ((tapSuite scratch).optimalBuffer d' r_size) := by
  intro s hs i hi
  show (if s < 2 then _ else _) = if s < 2 then _ else _
  by_cases hp : s < 2
  · rw [if_pos hp,if_pos hp]
    simp only [tapSuite_numShares,hd s hs i hi,hd (2 + s) (by omega) i hi]
  · rw [if_neg hp,if_neg hp]
    simp only [tapSuite_numShares,hd (s - 2) (by omega) i hi]

def carryOutUpdate (r_size : Nat) (d : Shares 3 (Lint L)) (u : Shares 3 Byte) :
    Shares 3 (Lint L) :=
  let buffer : Shares 3 (Lint L) := fun q s i => (List.range (r_size/2)).foldl (fun x j =>
    let t_index := j/4 + i*byteWidth r_size
    if s < 2 then setBit x j (getBit ((u q s t_index).setWidth (8*L)) (2*j%8))
    else setBit x j (getBit ((u q (s - 2) t_index).setWidth (8*L)) ((2*j+1)%8) ^^^
      getBit (d q s i) (2*j+1))) 0
  fun q s i => if r_size%2 = 1 then
    setBit (buffer q s i) (r_size/2) (getBit (d q s i) (r_size-1)) else buffer q s i

theorem AlikeAt.carryOutUpdate {r_size : Nat} {d d' : Shares 3 (Lint L)} {u u' : Shares 3 Byte}
    (hd : AlikeAt p 4 size d d') (hu : AlikeAt p 2 (byteWidth r_size*size) u u') :
    AlikeAt p 4 size (carryOutUpdate r_size d u) (carryOutUpdate r_size d' u') := by
  intro s hs i hi
  have hbuffer : ∀ (x : Lint L) (j : Nat), j ∈ List.range (r_size/2) →
      (if s < 2 then setBit x j (getBit ((u p s (j/4 + i*byteWidth r_size)).setWidth (8*L)) (2*j%8))
        else setBit x j (getBit ((u p (s - 2) (j/4 + i*byteWidth r_size)).setWidth (8*L))
          ((2*j+1)%8) ^^^ getBit (d p s i) (2*j+1))) =
      if s < 2 then setBit x j (getBit ((u' p s (j/4 + i*byteWidth r_size)).setWidth (8*L)) (2*j%8))
        else setBit x j (getBit ((u' p (s - 2) (j/4 + i*byteWidth r_size)).setWidth (8*L))
          ((2*j+1)%8) ^^^ getBit (d' p s i) (2*j+1)) := by
    intro x j hj
    have hj' := List.mem_range.mp hj
    have hbytes := le_byteWidth r_size
    have hplace : j/4 + i*byteWidth r_size < byteWidth r_size*size := by
      have hlt : i*byteWidth r_size + j/4 < size*byteWidth r_size := index_lt hi (by omega)
      rw [Nat.mul_comm (byteWidth r_size)]
      omega
    by_cases hp : s < 2
    · rw [if_pos hp,if_pos hp,hu s hp _ hplace]
    · rw [if_neg hp,if_neg hp,hu (s - 2) (by omega) _ hplace,hd s hs i hi]
  simp only [RssRing.carryOutUpdate,hd s hs i hi]
  rw [hd s hs i hi] at hbuffer
  rw [List.foldl_ext _ _ _ hbuffer]

theorem carryOutStep_eq (scratch d : Shares 3 (Lint L)) (r_size size : Nat) (net : Net 3 (Tap L)) :
    (tapSuite scratch).carryOutStep r_size size d net =
      let buffer := (tapSuite scratch).optimalBuffer d r_size
      let u := (tapSuite scratch).multByte (toBytes (byteWidth r_size) buffer 0)
        (toBytes (byteWidth r_size) buffer 2) (byteWidth r_size*size) net
      (carryOutUpdate r_size d u.1,u.2) := rfl

theorem carryOutStep_coupled (p : Fin 3) (scratch : Shares 3 (Lint L)) (r_size size : Nat)
    {d d' : Shares 3 (Lint L)} {net net' : Net 3 (Tap L)} (hd : AlikeAt p 4 size d d')
    (hnet : net p = net' p) : Coupled (overlay p) (Tap.ofShare (1*(byteWidth r_size*size)))
      (fun ω => (tapSuite scratch).carryOutStep r_size size d (Tap.withHidden p net ω))
      (fun ω => (tapSuite scratch).carryOutStep r_size size d' (Tap.withHidden p net' ω))
      (SeenAlike p 4 size) := by
  have hpacked := hd.optimalBuffer scratch r_size
  have hproducts := multByte_coupled p scratch (byteWidth r_size*size)
    (hpacked.toBytes (Nat.zero_le 2) _) (hpacked.toBytes (Nat.le_refl 2) _) hnet
  have hend := coupled_arrays (Q := SeenAlike p 4 size) (carryOutUpdate r_size d)
    (carryOutUpdate r_size d') hproducts fun x x' hx => ⟨hd.carryOutUpdate hx.1,hx.2⟩
  simp only [carryOutStep_eq]
  exact hend

theorem carryOutLoop_coupled (p : Fin 3) (scratch : Shares 3 (Lint L)) (size r_size : Nat) :
    ∃ N, ∀ (d d' : Shares 3 (Lint L)) (net net' : Net 3 (Tap L)), AlikeAt p 4 size d d' →
      net p = net' p → Coupled (overlay p) N
        (fun ω => (tapSuite scratch).carryOutLoop size r_size d (Tap.withHidden p net ω))
        (fun ω => (tapSuite scratch).carryOutLoop size r_size d' (Tap.withHidden p net' ω))
        (SeenAlike p 4 size) := by
  induction r_size using Nat.strong_induction_on with
  | h r_size ih =>
    by_cases hsize : 1 < r_size
    · obtain ⟨N,hloop⟩ := ih (r_size/2 + r_size%2) (by omega)
      refine ⟨Tap.ofShare (1*(byteWidth r_size*size)) + N,fun d d' net net' hd hnet => ?_⟩
      have hunfold : ∀ d net, (tapSuite scratch).carryOutLoop size r_size d net =
          (tapSuite scratch).carryOutLoop size (r_size/2 + r_size%2)
            ((tapSuite scratch).carryOutStep r_size size d net).1
            ((tapSuite scratch).carryOutStep r_size size d net).2 := by
        intro d net
        rw [Suite.carryOutLoop.eq_def,if_pos hsize]
      simp only [hunfold]
      exact (carryOutStep_coupled p scratch r_size size hd hnet).bind (overlay p)
        (fun x => (tapSuite scratch).carryOutLoop size (r_size/2 + r_size%2) x.1 x.2)
        (fun x => (tapSuite scratch).carryOutLoop size (r_size/2 + r_size%2) x.1 x.2)
        fun x x' hx => hloop _ _ _ _ hx.1 hx.2
    · refine ⟨0,fun d d' net net' hd hnet => ?_⟩
      have hunfold : ∀ d net, (tapSuite scratch).carryOutLoop size r_size d net = (d,net) := by
        intro d net
        rw [Suite.carryOutLoop.eq_def,if_neg hsize]
      simp only [hunfold]
      exact Coupled.still (overlay p) (d,net) (d',net') ⟨hd,hnet⟩

theorem bitLT_coupled (p : Fin 3) (scratch : Shares 3 (Lint L)) (ring_size size : Nat) :
    ∃ N, ∀ (res res' b b' : Shares 3 (Lint L)) (a a' : Fin 3 → Nat → Lint L)
      (net net' : Net 3 (Tap L)), AlikeAt p 2 size res res' → (∀ i, i < size → a p i = a' p i) →
      AlikeAt p 2 size b b' → net p = net' p → Coupled (overlay p) N
        (fun ω => (tapSuite scratch).bitLT res a b ring_size size (Tap.withHidden p net ω))
        (fun ω => (tapSuite scratch).bitLT res' a' b' ring_size size (Tap.withHidden p net' ω))
        (SeenAlike p 2 size) := by
  obtain ⟨N,hloop⟩ := carryOutLoop_coupled p scratch size ring_size
  refine ⟨N,fun res res' b b' a a' net net' hres ha hb hnet => ?_⟩
  let start := fun (a : Fin 3 → Nat → Lint L) (b : Shares 3 (Lint L)) =>
    (tapSuite scratch).carryOutStart a fun q s i => b q s i ^^^ (tapSuite scratch).aiMask q s
  have hstart : AlikeAt p 4 size (start a b) (start a' b') := by
    intro s hs i hi
    show (if s < 2 then _ else _) = if s < 2 then _ else _
    by_cases hp : s < 2
    · rw [if_pos hp,if_pos hp]
      simp only [ha i hi,hb s hp i hi]
    · rw [if_neg hp,if_neg hp]
      simp only [tapSuite_numShares,ha i hi,hb (s - 2) (by omega) i hi]
  let after := fun (res : Shares 3 (Lint L)) (x : Shares 3 (Lint L) × Net 3 (Tap L)) =>
    ((fun q s i => getBit (if s = 0 then setBit (res q s i) 0 (getBit (x.1 q 2 i) 0)
      else if s = 1 then setBit (res q s i) 0 (getBit (x.1 q 3 i) 0) else res q s i) 0 ^^^
        getBit ((tapSuite scratch).aiMask q s) 0,x.2) : Shares 3 (Lint L) × Net 3 (Tap L))
  refine (hloop _ _ net net' hstart hnet).map (overlay p) (after res) (after res') (after res)
    (after res') (fun _ _ => rfl) (fun _ _ => rfl) fun x x' hx => ⟨fun s hs i hi => ?_,hx.2⟩
  simp only [after,hres s hs i hi,hx.1 2 (by decide) i hi,hx.1 3 (by decide) i hi]

end CarryOut

section Views
variable {p : Fin 3} {size : Nat}

theorem views_of_coupled {W : Type} {slots : Nat} {N : Hidden → Nat}
    {m m' : (Hidden → Nat → Byte) → Shares 3 W × Net 3 (Tap L)}
    (h : Coupled (overlay p) N m m' (SeenAlike p slots size)) :
    ∃ φ : (Hidden → Nat → Byte) ≃ (Hidden → Nat → Byte), ∀ ω, SeenAlike p slots size (m ω) (m' (φ ω)) := by
  obtain ⟨φ,hφ⟩ := h.exists_equiv
  refine ⟨φ,fun ω => ?_⟩
  obtain ⟨x,x',ω',hm,hm',hseen⟩ := hφ ω
  rw [hm,hm']
  exact seenAlike_overlay.mpr hseen

/-- A run of `Rss_BitAdd` or `Rss_BitLT` is that of the code with a note of all messages, and
shows a party nothing of the share it does not hold: two runs that are alike to it beforehand
look the same to it, its streams, all messages it takes and its part of the result, for hidden
streams that are permutations of each other. -/
theorem bitOperations_views (hk : k ≤ 8*L) (p : Fin 3) (scratch : Shares 3 (Lint L)) (size : Nat) :
    (∀ (res res' a a' b b' : Shares 3 (Lint L)) (net net' : Net 3 (Tap L)),
      AlikeAt p 2 size res res' → AlikeAt p 2 size a a' → AlikeAt p 2 size b b' → net p = net' p →
      (suite3pc scratch).bitAdd res a b k size (Tap.silence net) =
        (((tapSuite scratch).bitAdd res a b k size net).1,
          Tap.silence ((tapSuite scratch).bitAdd res a b k size net).2) ∧
      ∃ φ : (Hidden → Nat → Byte) ≃ (Hidden → Nat → Byte), ∀ ω, SeenAlike p 2 size
        ((tapSuite scratch).bitAdd res a b k size (Tap.withHidden p net ω))
        ((tapSuite scratch).bitAdd res' a' b' k size (Tap.withHidden p net' (φ ω)))) ∧
    ∀ (res res' b b' : Shares 3 (Lint L)) (a a' : Fin 3 → Nat → Lint L) (net net' : Net 3 (Tap L)),
      AlikeAt p 2 size res res' → (∀ i, i < size → a p i = a' p i) → AlikeAt p 2 size b b' →
      net p = net' p →
      (suite3pc scratch).bitLT res a b k size (Tap.silence net) =
        (((tapSuite scratch).bitLT res a b k size net).1,
          Tap.silence ((tapSuite scratch).bitLT res a b k size net).2) ∧
      ∃ φ : (Hidden → Nat → Byte) ≃ (Hidden → Nat → Byte), ∀ ω, SeenAlike p 2 size
        ((tapSuite scratch).bitLT res a b k size (Tap.withHidden p net ω))
        ((tapSuite scratch).bitLT res' a' b' k size (Tap.withHidden p net' (φ ω))) := by
  constructor
  · intro res res' a a' b b' net net' hres ha hb hnet
    obtain ⟨N,hadd⟩ := bitAdd_coupled p scratch hk size
    exact ⟨bitAdd_silence scratch res a b k size net,
      views_of_coupled (hadd res res' a a' b b' net net' hres ha hb hnet)⟩
  · intro res res' b b' a a' net net' hres ha hb hnet
    obtain ⟨N,hlt⟩ := bitLT_coupled p scratch k size
    exact ⟨bitLT_silence scratch res b a k size net,
      views_of_coupled (hlt res res' b b' a a' net net' hres ha hb hnet)⟩

theorem bitOperations_views_hidden :
    let zero : Shares 3 (Lint 4) := fun _ _ _ => 0
    let one : Shares 3 (Lint 4) := fun q s _ => if shares3pc.hold q s = {0} then 1 else 0
    let net : Net 3 (Tap 4) := fun _ _ => ⟨fun i => BitVec.ofNat 8 (3*i+1),[]⟩
    (∃ φ : (Hidden → Nat → Byte) ≃ (Hidden → Nat → Byte), ∀ ω, SeenAlike 0 2 2
      ((tapSuite zero).bitAdd zero zero zero 6 2 (Tap.withHidden 0 net ω))
      ((tapSuite zero).bitAdd zero one zero 6 2 (Tap.withHidden 0 net (φ ω)))) ∧
    ∃ φ : (Hidden → Nat → Byte) ≃ (Hidden → Nat → Byte), ∀ ω, SeenAlike 0 2 2
      ((tapSuite zero).bitLT zero (fun _ _ => 5) zero 6 2 (Tap.withHidden 0 net ω))
      ((tapSuite zero).bitLT zero (fun _ _ => 5) one 6 2 (Tap.withHidden 0 net (φ ω))) := by
  intro zero one net
  have halike : AlikeAt 0 2 2 zero one := alikeAt_hidden 0 2 1
  have hsame : AlikeAt 0 2 2 zero zero := fun _ _ _ _ => rfl
  obtain ⟨hadd,hlt⟩ := bitOperations_views (L := 4) (k := 6) (by decide) 0 zero 2
  exact ⟨(hadd zero zero zero one zero zero net net hsame halike hsame rfl).2,
    (hlt zero zero zero one (fun _ _ => 5) (fun _ _ => 5) net net hsame (fun _ _ => rfl) halike rfl).2⟩

end Views

end RssRing
