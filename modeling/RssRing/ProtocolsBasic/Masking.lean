import RssRing.ProtocolsBasic.Mult
set_option autoImplicit false

namespace RssRing
open Replicated

variable {W R : Type} {L k : Nat}

namespace Tape

def bit (t : Tape) (m : Nat) : Bool := (t.byte (m/8)).getLsbD (m%8)

theorem ext_bit {t u : Tape} (h : ∀ m, t.bit m = u.bit m) : t = u := by
  obtain ⟨t⟩ := t
  obtain ⟨u⟩ := u
  congr 1
  funext m
  apply BitVec.eq_of_getLsbD_eq
  intro j hj
  have hdiv : (8*m+j)/8 = m := by omega
  have hmod : (8*m+j)%8 = j := by omega
  have hbit := h (8*m+j)
  simpa only [bit,hdiv,hmod] using hbit

def word (k bytes : Nat) (t : Tape) (i : Nat) : BitVec k :=
  ofBits k fun j => t.bit (8*bytes*i + j)

/-- The stream whose first `size` blocks have the low `k` bits changed by `f`. -/
def reword (bytes size : Nat) (f : Nat → BitVec k → BitVec k) (t : Tape) : Tape where
  byte m := ofBits 8 fun j =>
    let n := 8*m+j
    let i := n/(8*bytes)
    if i < size ∧ n%(8*bytes) < k then (f i (word k bytes t i)).getLsbD (n%(8*bytes)) else t.bit n

variable {bytes size : Nat}

theorem bit_reword (f : Nat → BitVec k → BitVec k) (t : Tape) (n : Nat) :
    (reword bytes size f t).bit n = if n/(8*bytes) < size ∧ n%(8*bytes) < k then
      (f (n/(8*bytes)) (word k bytes t (n/(8*bytes)))).getLsbD (n%(8*bytes)) else t.bit n := by
  have hn : 8*(n/8) + n%8 = n := Nat.div_add_mod n 8
  rw [bit,reword,getLsbD_ofBits,decide_eq_true (Nat.mod_lt n (by decide)),Bool.true_and,hn]

theorem word_reword (hk : k ≤ 8*bytes) (f : Nat → BitVec k → BitVec k) (t : Tape) {i : Nat}
    (hi : i < size) : word k bytes (reword bytes size f t) i = f i (word k bytes t i) := by
  apply BitVec.eq_of_getLsbD_eq
  intro j hj
  have hdiv : (8*bytes*i + j)/(8*bytes) = i := by
    rw [Nat.mul_add_div (by omega),Nat.div_eq_of_lt (by omega),Nat.add_zero]
  have hmod : (8*bytes*i + j)%(8*bytes) = j := by
    rw [Nat.mul_add_mod,Nat.mod_eq_of_lt (by omega)]
  rw [word,getLsbD_ofBits,decide_eq_true hj,Bool.true_and,bit_reword,hdiv,hmod,if_pos ⟨hi,hj⟩]

theorem reword_reword (hk : k ≤ 8*bytes) (f g : Nat → BitVec k → BitVec k) (t : Tape) :
    reword bytes size g (reword bytes size f t) = reword bytes size (fun i x => g i (f i x)) t := by
  apply ext_bit
  intro n
  by_cases h : n/(8*bytes) < size ∧ n%(8*bytes) < k
  · rw [bit_reword g,if_pos h,word_reword hk f t h.1,bit_reword _ t,if_pos h]
  · rw [bit_reword g,if_neg h,bit_reword f,if_neg h,bit_reword _ t,if_neg h]

theorem reword_id (t : Tape) :
    reword bytes size (fun (_ : Nat) (x : BitVec k) => x) t = t := by
  apply ext_bit
  intro n
  rw [bit_reword]
  by_cases h : n/(8*bytes) < size ∧ n%(8*bytes) < k
  · rw [if_pos h,word,getLsbD_ofBits,decide_eq_true h.2,Bool.true_and,Nat.div_add_mod]
  · rw [if_neg h]

def rewordEquiv (hk : k ≤ 8*bytes) (size : Nat) (f : Nat → BitVec k ≃ BitVec k) : Tape ≃ Tape where
  toFun := reword bytes size fun i => f i
  invFun := reword bytes size fun i => (f i).symm
  left_inv t := by simp only [reword_reword hk,Equiv.symm_apply_apply,reword_id]
  right_inv t := by simp only [reword_reword hk,Equiv.apply_symm_apply,reword_id]

theorem word_rewordEquiv (hk : k ≤ 8*bytes) (f : Nat → BitVec k ≃ BitVec k) (t : Tape) {i : Nat}
    (hi : i < size) : (rewordEquiv hk size f t).word k bytes i = f i (t.word k bytes i) :=
  word_reword hk (fun i => f i) t hi

end Tape

/-- A reading in which a mask can be any element of the ring, and in which a word
on the wire shows no more than the element it stands for. -/
structure Masking (K : WordKind W) (k : Nat) (R : Type) [CommRing R] extends Reading K R where
  enc : BitVec k ≃ R
  fits : k ≤ 8*K.bytes
  mask : ∀ (t : Tape) pos, val (K.load K.zero t.byte pos) = enc (t.word k K.bytes pos)
  shown : ∀ x y, val x = val y → K.recv x = K.recv y

def bitsEquiv (k : Nat) : BitVec k ≃ (Fin k → Bool) where
  toFun x j := x.getLsbD j
  invFun f := ofBits k fun j => if h : j < k then f ⟨j,h⟩ else false
  left_inv x := by
    apply BitVec.eq_of_getLsbD_eq
    intro j hj
    rw [getLsbD_ofBits,decide_eq_true hj,Bool.true_and,dif_pos hj]
  right_inv f := by
    funext j
    simp only [getLsbD_ofBits,decide_eq_true j.isLt,Bool.true_and,dif_pos j.isLt]

theorem getLsbD_mask (t : Tape) (pos : Nat) {j : Nat} (hj : j < k) (hL : j < 8*L) :
    (memcpyWord (0 : Lint L) t.byte (pos*byteWidth k) (byteWidth k)).getLsbD j =
      (t.word k (byteWidth k) pos).getLsbD j := by
  have hk := le_byteWidth k
  have hsplit : 8*byteWidth k*pos + j = 8*(pos*byteWidth k) + j := by ring
  have hdiv : (8*(pos*byteWidth k) + j)/8 = pos*byteWidth k + j/8 := by omega
  have hmod : (8*(pos*byteWidth k) + j)%8 = j%8 := by omega
  rw [getLsbD_memcpyWord,decide_eq_true hL,Bool.true_and,if_pos (by omega),Tape.word,getLsbD_ofBits,
    decide_eq_true hj,Bool.true_and,hsplit,Tape.bit,hdiv,hmod]

theorem received_congr {x y : Lint L} (h : ∀ j, j < k → x.getLsbD j = y.getLsbD j) :
    received k x = received k y := by
  apply BitVec.eq_of_getLsbD_eq
  intro j hj
  rw [received_eq,received_eq,masked,masked,getLsbD_and_shift,getLsbD_and_shift]
  by_cases hjk : j < k
  · rw [h j hjk]
  · rw [decide_eq_false hjk,Bool.and_false,Bool.and_false]

def arithMasking (hk : k ≤ 8*L) : Masking (arithKind L k) k (BitVec k) where
  toReading := arithReading hk
  enc := Equiv.refl _
  fits := le_byteWidth k
  mask t pos := by
    apply BitVec.eq_of_getLsbD_eq
    intro j hj
    show ((memcpyWord (0 : Lint L) _ _ _).setWidth k).getLsbD j = _
    rw [BitVec.getLsbD_setWidth,decide_eq_true hj,Bool.true_and]
    exact getLsbD_mask t pos hj (by omega)
  shown x y h := received_congr fun j hj => by
    have hbit := congrArg (fun z => z.getLsbD j) h
    simpa only [arithReading,BitVec.getLsbD_setWidth,decide_eq_true hj,Bool.true_and] using hbit

def bitwiseMasking (hk : k ≤ 8*L) : Masking (bitwiseKind L k) k (Fin k → Bool) where
  val x j := (bitReading L j.isLt).val x
  zero := funext fun j => (bitReading L j.isLt).zero
  add x y := funext fun j => (bitReading L j.isLt).add x y
  sub x y := funext fun j => (bitReading L j.isLt).sub x y
  mul x y := funext fun j => (bitReading L j.isLt).mul x y
  load x y buffer pos := funext fun j => (bitReading L j.isLt).load x y buffer pos
  sent x := funext fun j => (bitReading L j.isLt).sent x
  recv x := funext fun j => (bitReading L j.isLt).recv x
  enc := bitsEquiv k
  fits := le_byteWidth k
  mask t pos := funext fun j => getLsbD_mask t pos j.isLt (by omega)
  shown x y h := received_congr fun j hj => congrFun h ⟨j,hj⟩

def byteMasking : Masking byteKind 8 (Fin 8 → Bool) where
  val x j := x.getLsbD j
  zero := funext fun _ => BitVec.getLsbD_zero
  add _ _ := funext fun _ => BitVec.getLsbD_xor
  sub _ _ := funext fun _ => BitVec.getLsbD_xor
  mul _ _ := funext fun _ => BitVec.getLsbD_and
  load _ _ _ _ := rfl
  sent _ := rfl
  recv _ := rfl
  enc := bitsEquiv 8
  fits := by decide
  mask t pos := by
    funext j
    have hdiv : (8*1*pos + j.val)/8 = pos := by omega
    have hmod : (8*1*pos + j.val)%8 = j.val := by omega
    show (t.byte pos).getLsbD j = (t.word 8 1 pos).getLsbD j
    rw [Tape.word,getLsbD_ofBits,decide_eq_true j.isLt,Bool.true_and,Tape.bit,hdiv,hmod]
  shown x y h := (bitsEquiv 8).injective h

def mult3pcMessage (K : WordKind W) (product : (Nat → W) → (Nat → W) → W) (size : Nat)
    (net : Net 3 Tape) (c a b : Shares 3 W) (p : Fin 3) (i : Nat) : W :=
  let c₀ := fun p i => K.load (c p 0 i) (net.random 1 K.bytes size p) i
  sendAndGetDataFromPeer K
    (fun p i => K.sub (product (fun s => a p s i) (fun s => b p s i)) (c₀ p i)) p i

theorem mult3pc_message (K : WordKind W) (product : (Nat → W) → (Nat → W) → W) (size : Nat)
    (net : Net 3 Tape) (c a b : Shares 3 W) (p : Fin 3) (i : Nat) :
    (mult3pc K product size net c a b).1 p 1 i = K.add (mult3pcMessage K product size net c a b p i)
      (K.load (c p 0 i) (net.random 1 K.bytes size p) i) := rfl

/-- All that a party sees of a multiplication: the arrays it was handed, the streams
it knows, the message it takes, and what the call leaves. -/
structure View (W : Type) (size : Nat) where
  before : Fin 3 → Fin 2 → Fin size → W
  streams : Fin 2 → Tape
  message : Fin size → W
  after : Fin 2 → Fin size → W

def mult3pcView (K : WordKind W) (product : (Nat → W) → (Nat → W) → W) (size : Nat)
    (net : Net 3 Tape) (c a b : Shares 3 W) (p : Fin 3) : View W size where
  before := fun
    | 0 => fun s i => c p s i
    | 1 => fun s i => a p s i
    | 2 => fun s i => b p s i
  streams s := net p s
  message i := mult3pcMessage K product size net c a b p i
  after s i := (mult3pc K product size net c a b).1 p s i

def rssMultView (c a b : Shares 3 (Lint L)) (size ring_size : Nat) (net : Net 3 Tape) (p : Fin 3) :=
  mult3pcView (arithKind L ring_size) (product3pc (arithKind L ring_size)) size net c a b p

def rssMultBitwiseView (c a b : Shares 3 (Lint L)) (size ring_size : Nat) (net : Net 3 Tape)
    (p : Fin 3) :=
  mult3pcView (bitwiseKind L ring_size) (product3pc (bitwiseKind L ring_size)) size net c a b p

def rssMultByteView (c a b : Shares 3 Byte) (size : Nat) (net : Net 3 Tape) (p : Fin 3) :=
  mult3pcView byteKind productByte size net c a b p

def withStream (streams : Finset (Fin 3) → Tape) (p : Fin 3) (t : Tape) : Net 3 Tape := fun q s =>
  Function.update streams {p} t (shares3pc.hold q s)

def SameAt (p : Fin 3) (size : Nat) (x y : Shares 3 W) : Prop :=
  ∀ s, s < 2 → ∀ i, i < size → x p s i = y p s i

theorem withStream_own (streams : Finset (Fin 3) → Tape) (p : Fin 3) (t u : Tape) {s : Nat}
    (hs : s < 2) : withStream streams p t p s = withStream streams p u p s := by
  have hne : ∀ p, ∀ s, s < 2 → shares3pc.hold p s ≠ {p} := by decide
  rw [withStream,withStream,Function.update_of_ne (hne p s hs),Function.update_of_ne (hne p s hs)]

theorem withStream_sender (streams : Finset (Fin 3) → Tape) (p : Fin 3) (t : Tape) :
    withStream streams p t (p + 1) 1 = t := by
  have hhold : ∀ p, shares3pc.hold (p + 1) 1 = {p} := by decide
  rw [withStream,hhold,Function.update_self]

section
variable [CommRing R] {K : WordKind W} {product : (Nat → W) → (Nat → W) → W} {size : Nat}
  {c c' a a' b b' : Shares 3 W} {p : Fin 3}

theorem view_congr (hproduct : ∀ x x' y y' : Nat → W, (∀ s, s < 2 → x s = x' s) →
      (∀ s, s < 2 → y s = y' s) → product x y = product x' y')
    (hc : SameAt p size c c') (ha : SameAt p size a a') (hb : SameAt p size b b')
    {net net' : Net 3 Tape} (hnet : ∀ s, s < 2 → net p s = net' p s)
    (hmessage : ∀ i, i < size → mult3pcMessage K product size net c a b p i =
      mult3pcMessage K product size net' c' a' b' p i) :
    mult3pcView K product size net c a b p = mult3pcView K product size net' c' a' b' p := by
  have hbefore : (mult3pcView K product size net c a b p).before =
      (mult3pcView K product size net' c' a' b' p).before := by
    funext j s i
    have hj : j = 0 ∨ j = 1 ∨ j = 2 := by revert j; decide
    rcases hj with rfl | rfl | rfl
    · exact hc s s.isLt i i.isLt
    · exact ha s s.isLt i i.isLt
    · exact hb s s.isLt i i.isLt
  have hrandom : ∀ s, s < 2 → net.random s K.bytes size p = net'.random s K.bytes size p := by
    intro s hs
    rw [Net.random,Net.random,hnet s hs]
  have hsecond : (net.advance 1 K.bytes size).random 0 K.bytes size p =
      (net'.advance 1 K.bytes size).random 0 K.bytes size p := by
    rw [Net.random_advance_of_ne _ (by decide),Net.random_advance_of_ne _ (by decide),
      hrandom 0 (by decide)]
  have hafter : (mult3pcView K product size net c a b p).after =
      (mult3pcView K product size net' c' a' b' p).after := by
    funext s i
    have hi := i.isLt
    have hmask : K.load (c p 0 i) (net.random 1 K.bytes size p) i =
        K.load (c' p 0 i) (net'.random 1 K.bytes size p) i := by
      rw [hrandom 1 (by decide),hc 0 (by decide) i hi]
    have hlocal := hproduct (fun s => a p s i) (fun s => a' p s i) (fun s => b p s i)
      (fun s => b' p s i) (fun s hs => ha s hs i hi) (fun s hs => hb s hs i hi)
    have hs : s = 0 ∨ s = 1 := by revert s; decide
    rcases hs with rfl | rfl
    · simp only [mult3pcView,mult3pc,Fin.val_zero,if_true,hmask,hlocal,hsecond]
    · show (mult3pc K product size net c a b).1 p 1 i = (mult3pc K product size net' c' a' b').1 p 1 i
      rw [mult3pc_message,mult3pc_message,hmessage i hi,hmask]
  have hstreams : (mult3pcView K product size net c a b p).streams =
      (mult3pcView K product size net' c' a' b' p).streams := funext fun s => hnet s s.isLt
  have hmessages : (mult3pcView K product size net c a b p).message =
      (mult3pcView K product size net' c' a' b' p).message := funext fun i => hmessage i i.isLt
  exact View.mk.injEq .. |>.mpr ⟨hbefore,hstreams,hmessages,hafter⟩

/-- The message is the sender's local product under a mask party `p` cannot know.
Shifting the mask by the difference of the products gives the other run. -/
theorem exists_reword (M : Masking K k R) (hproduct : ∀ x x' y y' : Nat → W,
      (∀ s, s < 2 → x s = x' s) → (∀ s, s < 2 → y s = y' s) → product x y = product x' y')
    (streams : Finset (Fin 3) → Tape) (hc : SameAt p size c c') (ha : SameAt p size a a')
    (hb : SameAt p size b b') :
    ∃ φ : Tape ≃ Tape, ∀ t, mult3pcView K product size (withStream streams p t) c a b p =
      mult3pcView K product size (withStream streams p (φ t)) c' a' b' p := by
  let sent : Shares 3 W → Shares 3 W → Nat → R := fun a b i =>
    M.val (product (fun s => a (p + 1) s i) (fun s => b (p + 1) s i))
  let shifted : Nat → BitVec k ≃ BitVec k := fun i =>
    (M.enc.trans (Equiv.addRight (sent a' b' i - sent a b i))).trans M.enc.symm
  refine ⟨Tape.rewordEquiv M.fits size shifted,fun t => ?_⟩
  refine view_congr hproduct hc ha hb (fun s hs => withStream_own streams p _ _ hs) fun i hi => ?_
  have hval : ∀ (c a b : Shares 3 W) t, M.val (K.sub (product (fun s => a (p + 1) s i)
      (fun s => b (p + 1) s i)) (K.load (c (p + 1) 0 i)
        ((withStream streams p t).random 1 K.bytes size (p + 1)) i)) =
      sent a b i - M.enc (t.word k K.bytes i) := by
    intro c a b t
    rw [M.sub,M.load _ K.zero,Net.random,withStream_sender]
    exact congrArg (fun z => sent a b i - z) (M.mask t i)
  rw [mult3pcMessage,mult3pcMessage,sendAndGetDataFromPeer_eq,sendAndGetDataFromPeer_eq]
  refine M.shown _ _ ?_
  rw [hval,hval,Tape.word_rewordEquiv M.fits shifted t hi]
  simp only [shifted,Equiv.trans_apply,Equiv.coe_addRight,Equiv.apply_symm_apply]
  ring

end

theorem product3pc_congr (K : WordKind W) {x x' y y' : Nat → W} (hx : ∀ s, s < 2 → x s = x' s)
    (hy : ∀ s, s < 2 → y s = y' s) : product3pc K x y = product3pc K x' y' := by
  simp only [product3pc,hx 0 (by decide),hx 1 (by decide),hy 0 (by decide),hy 1 (by decide)]

theorem productByte_congr {x x' y y' : Nat → Byte} (hx : ∀ s, s < 2 → x s = x' s)
    (hy : ∀ s, s < 2 → y s = y' s) : productByte x y = productByte x' y' := by
  simp only [productByte,hx 0 (by decide),hx 1 (by decide),hy 0 (by decide),hy 1 (by decide)]

/-- No party learns anything of the share it does not hold: two runs that it cannot
tell apart beforehand look the same to it for streams of that share that are
permutations of each other. -/
theorem mult_views (hk : k ≤ 8*L) (size : Nat) (streams : Finset (Fin 3) → Tape) (p : Fin 3) :
    (∀ c c' a a' b b' : Shares 3 (Lint L), SameAt p size c c' → SameAt p size a a' →
      SameAt p size b b' → ∃ φ : Tape ≃ Tape, ∀ t,
      rssMultView c a b size k (withStream streams p t) p =
        rssMultView c' a' b' size k (withStream streams p (φ t)) p) ∧
    (∀ c c' a a' b b' : Shares 3 (Lint L), SameAt p size c c' → SameAt p size a a' →
      SameAt p size b b' → ∃ φ : Tape ≃ Tape, ∀ t,
      rssMultBitwiseView c a b size k (withStream streams p t) p =
        rssMultBitwiseView c' a' b' size k (withStream streams p (φ t)) p) ∧
    (∀ c c' a a' b b' : Shares 3 Byte, SameAt p size c c' → SameAt p size a a' →
      SameAt p size b b' → ∃ φ : Tape ≃ Tape, ∀ t,
      rssMultByteView c a b size (withStream streams p t) p =
        rssMultByteView c' a' b' size (withStream streams p (φ t)) p) := by
  refine ⟨?_,?_,?_⟩
  · intro c c' a a' b b' hc ha hb
    exact exists_reword (arithMasking hk) (fun _ _ _ _ => product3pc_congr _) streams hc ha hb
  · intro c c' a a' b b' hc ha hb
    exact exists_reword (bitwiseMasking hk) (fun _ _ _ _ => product3pc_congr _) streams hc ha hb
  · intro c c' a a' b b' hc ha hb
    exact exists_reword byteMasking (fun _ _ _ _ => productByte_congr) streams hc ha hb

theorem mult_views_hidden : ∃ φ : Tape ≃ Tape, ∀ t,
    rssMultView (L := 4) (fun _ _ _ => 0) (fun _ _ _ => 0) (fun _ _ _ => 5) 2 6
      (withStream (fun _ => ⟨fun i => BitVec.ofNat 8 (3*i+1)⟩) 0 t) 0 =
    rssMultView (fun _ _ _ => 0) (fun q s _ => if shares3pc.hold q s = {0} then 1 else 0)
      (fun _ _ _ => 5) 2 6 (withStream (fun _ => ⟨fun i => BitVec.ofNat 8 (3*i+1)⟩) 0 (φ t)) 0 := by
  refine (mult_views (by decide) 2 _ 0).1 _ _ _ _ _ _ ?_ ?_ ?_
  · exact fun _ _ _ _ => rfl
  · have hne : ∀ s, s < 2 → shares3pc.hold 0 s ≠ {0} := by decide
    exact fun s hs _ _ => (if_neg (hne s hs)).symm
  · exact fun _ _ _ _ => rfl

end RssRing
