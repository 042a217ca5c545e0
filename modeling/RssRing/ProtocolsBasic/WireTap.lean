import RssRing.Library.Coupling
import RssRing.ProtocolsBasic.Masking
set_option autoImplicit false

namespace RssRing
open Replicated Coupling

inductive Message (L : Nat) where
  | words (data : List (Lint L))
  | bytes (data : List Byte)

/-- A stream of which a request shows no more than it asks for. The stream that a party
keeps for itself also carries all the messages the party has taken. -/
structure Tap (L : Nat) where
  byte : Nat → Byte
  heard : List (Message L)

instance (L : Nat) : Generator (Tap L) where
  getrandom g m := (fun i => if i < m then g.byte i else 0,⟨fun i => g.byte (m+i),g.heard⟩)

/-- The streams that one party does not know: that of the share it does not hold, and
those the two others keep for themselves. -/
inductive Hidden where
  | share
  | next
  | last
  deriving DecidableEq

variable {L k : Nat}

namespace Tap

def hear (message : Fin 3 → Message L) (net : Net 3 (Tap L)) : Net 3 (Tap L) := fun q s =>
  if s = 2 then ⟨(net q s).byte,(net q s).heard ++ [message q]⟩ else net q s

def silence (net : Net 3 (Tap L)) : Net 3 (Tap L) := fun q s => ⟨(net q s).byte,[]⟩

theorem silence_hear (message : Fin 3 → Message L) (net : Net 3 (Tap L)) :
    silence (hear message net) = silence net := by
  funext q s
  rw [silence,silence,hear]
  split <;> rfl

theorem silence_advance (net : Net 3 (Tap L)) (keyID size length : Nat) :
    (silence net).advance keyID size length = silence (net.advance keyID size length) := by
  funext q s
  by_cases hs : s = keyID
  · subst hs
    simp only [Net.advance,silence,Function.update_self]
    rfl
  · simp only [Net.advance,silence,Function.update_of_ne hs]

def hiddenAt (p q : Fin 3) (s : Nat) : Option Hidden :=
  if q = p + 1 ∧ s = 1 ∨ q = p + 2 ∧ s = 0 then some .share
  else if q = p + 1 ∧ s = 2 then some .next
  else if q = p + 2 ∧ s = 2 then some .last
  else none

def withHidden (p : Fin 3) (net : Net 3 (Tap L)) (ω : Hidden → Nat → Byte) : Net 3 (Tap L) :=
  fun q s => match hiddenAt p q s with
    | some j => ⟨ω j,(net q s).heard⟩
    | none => net q s

def ofShare (m : Nat) : Hidden → Nat
  | .share => m
  | _ => 0

section
variable {p q : Fin 3} {s : Nat} (net : Net 3 (Tap L)) (ω : Hidden → Nat → Byte)

theorem hiddenAt_self (p : Fin 3) (s : Nat) : hiddenAt p p s = none := by
  have hnext : p ≠ p + 1 ∧ p ≠ p + 2 := by revert p; decide
  simp [hiddenAt,hnext]

@[simp] theorem withHidden_self (p : Fin 3) : withHidden p net ω p = net p := by
  funext s
  rw [withHidden,hiddenAt_self]

@[simp] theorem heard_withHidden (p q : Fin 3) (s : Nat) :
    (withHidden p net ω q s).heard = (net q s).heard := by
  rw [withHidden]
  split <;> rfl

theorem byte_withHidden {j : Hidden} (h : hiddenAt p q s = some j) :
    (withHidden p net ω q s).byte = ω j := by
  rw [withHidden,h]

theorem hear_withHidden (message : Fin 3 → Message L) :
    hear message (withHidden p net ω) = withHidden p (hear message net) ω := by
  funext q s
  rw [hear,withHidden,withHidden,hear]
  by_cases hs : s = 2
  · simp only [if_pos hs]
    cases hiddenAt p q s <;> rfl
  · simp only [if_neg hs]

theorem random_withHidden {j : Hidden} (h : hiddenAt p q s = some j) (size length : Nat) :
    (withHidden p net ω).random s size length q =
      fun i => if i < size*length then ω j i else 0 := by
  rw [Net.random,Generator.getrandom]
  show (fun i => if i < size*length then (withHidden p net ω q s).byte i else 0) = _
  rw [byte_withHidden net ω h]

theorem random_known (h : hiddenAt p q s = none) (size length : Nat) :
    (withHidden p net ω).random s size length q = net.random s size length q := by
  rw [Net.random,withHidden,h,Net.random]

theorem random_join {N : Hidden → Nat} (b : Blocks N Byte) (size length : Nat)
    (hN : ∀ j, hiddenAt p q s = some j → size*length ≤ N j) (ω ω' : Hidden → Nat → Byte) :
    (withHidden p net (join b ω)).random s size length q =
      (withHidden p net (join b ω')).random s size length q := by
  cases hj : hiddenAt p q s with
  | none => rw [random_known _ _ hj,random_known _ _ hj]
  | some j =>
    rw [random_withHidden _ _ hj,random_withHidden _ _ hj]
    funext i
    by_cases hi : i < size*length
    · have hiN : i < N j := Nat.lt_of_lt_of_le hi (hN j hj)
      simp only [if_pos hi,join_of_lt _ _ hiN]
    · rw [if_neg hi,if_neg hi]

theorem hiddenAt_share {j : Hidden} (h : hiddenAt p q s = some j) : j = .share ↔ s < 2 := by
  unfold hiddenAt at h
  split at h
  case isTrue hshare =>
    have hs : s < 2 := by omega
    simpa [hs] using (Option.some.inj h).symm
  case isFalse =>
    split at h
    case isTrue hown =>
      obtain rfl := Option.some.inj h
      simp [hown.2]
    case isFalse =>
      split at h
      case isTrue hown =>
        obtain rfl := Option.some.inj h
        simp [hown.2]
      case isFalse => cases h

theorem advanceShared_apply (size length : Nat) (q : Fin 3) (s : Nat) :
    ((net.advance 1 size length).advance 0 size length) q s =
      if s < 2 then ⟨fun i => (net q s).byte (size*length + i),(net q s).heard⟩ else net q s := by
  rcases s with _ | _ | s
  · rfl
  · rfl
  · rw [if_neg (by omega)]
    rfl

theorem advanceShared_withHidden (p : Fin 3) (size length : Nat) :
    ((withHidden p net ω).advance 1 size length).advance 0 size length =
      withHidden p ((net.advance 1 size length).advance 0 size length)
        (drop (ofShare (size*length)) ω) := by
  funext q s
  rw [advanceShared_apply,withHidden,withHidden,advanceShared_apply]
  cases hj : hiddenAt p q s with
  | none => rfl
  | some j =>
    by_cases hs : s < 2
    · obtain rfl := (hiddenAt_share hj).mpr hs
      simp only [if_pos hs]
      rfl
    · have hown : ofShare (size*length) j = 0 := by
        cases j with
        | share => exact absurd ((hiddenAt_share hj).mp rfl) hs
        | next => rfl
        | last => rfl
      have hdrop : drop (ofShare (size*length)) ω j = ω j := by
        funext i
        rw [drop,hown,Nat.zero_add]
      simp only [if_neg hs,hdrop]

end

def onStream (j : Hidden) (e : Tape ≃ Tape) : (Hidden → Nat → Byte) ≃ (Hidden → Nat → Byte) where
  toFun ω := Function.update ω j (e ⟨ω j⟩).byte
  invFun ω := Function.update ω j (e.symm ⟨ω j⟩).byte
  left_inv ω := by
    simp only [Function.update_self,Function.update_idem]
    show Function.update ω j (e.symm (e ⟨ω j⟩)).byte = ω
    rw [e.symm_apply_apply,Function.update_eq_self]
  right_inv ω := by
    simp only [Function.update_self,Function.update_idem]
    show Function.update ω j (e (e.symm ⟨ω j⟩)).byte = ω
    rw [e.apply_symm_apply,Function.update_eq_self]

end Tap

section Words
variable {bytes size i : Nat} {t u : Tape}

theorem Tape.word_congr (hk : k ≤ 8*bytes) (h : ∀ m, m < bytes*size → t.byte m = u.byte m)
    (hi : i < size) : t.word k bytes i = u.word k bytes i := by
  apply BitVec.eq_of_getLsbD_eq
  intro j hj
  have hle : bytes*(i+1) ≤ bytes*size := Nat.mul_le_mul_left bytes hi
  have hplace : (8*bytes*i + j)/8 < bytes*size := by
    rw [Nat.mul_add,Nat.mul_one] at hle
    have hsplit : 8*bytes*i = 8*(bytes*i) := Nat.mul_assoc 8 bytes i
    omega
  rw [word,word,getLsbD_ofBits,getLsbD_ofBits,bit,bit,h _ hplace]

theorem Tape.reword_congr (hk : k ≤ 8*bytes) (f : Nat → BitVec k → BitVec k) {n : Nat}
    (hn : bytes*size ≤ n) (h : ∀ m, m < n → t.byte m = u.byte m) :
    ∀ m, m < n → (reword bytes size f t).byte m = (reword bytes size f u).byte m := by
  intro m hm
  apply BitVec.eq_of_getLsbD_eq
  intro j hj
  have hdiv : (8*m + j)/8 = m := by omega
  simp only [reword,getLsbD_ofBits,bit,hdiv,h m hm]
  by_cases hword : (8*m + j)/(8*bytes) < size
  · rw [word_congr hk (fun m hm => h m (Nat.lt_of_lt_of_le hm hn)) hword]
  · simp only [hword,false_and,if_false]

namespace Tap
variable {N : Hidden → Nat} {j : Hidden}

theorem take_onStream {e : Tape ≃ Tape}
    (he : ∀ t u : Tape, (∀ m, m < N j → t.byte m = u.byte m) →
      ∀ m, m < N j → (e t).byte m = (e u).byte m) (ω ω' : Hidden → Nat → Byte)
    (h : take N ω = take N ω') : take N (onStream j e ω) = take N (onStream j e ω') := by
  have hbyte : ∀ i m, m < N i → ω i m = ω' i m := fun i m hm =>
    congrFun (congrFun h i) ⟨m,hm⟩
  funext i m
  show Function.update ω j (e ⟨ω j⟩).byte i m = Function.update ω' j (e ⟨ω' j⟩).byte i m
  by_cases hi : i = j
  · subst hi
    rw [Function.update_self,Function.update_self]
    exact he _ _ (hbyte i) m m.isLt
  · rw [Function.update_of_ne hi,Function.update_of_ne hi]
    exact hbyte i m m.isLt

/-- The words at the start of what is taken from a stream, changed by permutations. -/
def rewordBlocks (hk : k ≤ 8*bytes) (hN : bytes*size ≤ N j) (f : Nat → BitVec k ≃ BitVec k) :
    Blocks N Byte ≃ Blocks N Byte :=
  restrict (onStream j (Tape.rewordEquiv hk size f))
    (take_onStream fun _ _ => Tape.reword_congr hk (fun i => f i) hN)
    (take_onStream fun _ _ => Tape.reword_congr hk (fun i => (f i).symm) hN)

def blockWord (k bytes : Nat) (b : Blocks N Byte) (j : Hidden) (i : Nat) : BitVec k :=
  Tape.word k bytes ⟨join b default j⟩ i

theorem blockWord_rewordBlocks (hk : k ≤ 8*bytes) (hN : bytes*size ≤ N j)
    (f : Nat → BitVec k ≃ BitVec k) (b : Blocks N Byte) (hi : i < size) :
    blockWord k bytes (rewordBlocks hk hN f b) j i = f i (blockWord k bytes b j i) := by
  have htake : take N (onStream j (Tape.rewordEquiv hk size f) (join b default)) =
      rewordBlocks hk hN f b := rfl
  have hword := Tape.word_rewordEquiv hk f ⟨join b default j⟩ hi
  rw [blockWord,blockWord,← hword]
  refine Tape.word_congr hk (fun m hm => ?_) hi
  have hmN : m < N j := Nat.lt_of_lt_of_le hm hN
  show join (rewordBlocks hk hN f b) default j m = _
  rw [join_of_lt _ _ hmN,← htake]
  show Function.update (join b default) j (Tape.rewordEquiv hk size f ⟨join b default j⟩).byte j m = _
  rw [Function.update_self]

theorem join_rewordBlocks_of_ne {i : Hidden} (hij : i ≠ j) (hk : k ≤ 8*bytes)
    (hN : bytes*size ≤ N j) (f : Nat → BitVec k ≃ BitVec k) (b : Blocks N Byte)
    (ω : Hidden → Nat → Byte) : join (rewordBlocks hk hN f b) ω i = join b ω i := by
  have htake : take N (onStream j (Tape.rewordEquiv hk size f) (join b default)) =
      rewordBlocks hk hN f b := rfl
  funext m
  by_cases hm : m < N i
  · rw [join_of_lt _ _ hm,join_of_lt _ _ hm,← htake]
    show Function.update (join b default) j (Tape.rewordEquiv hk size f ⟨join b default j⟩).byte i m = _
    rw [Function.update_of_ne hij,join_of_lt _ _ hm]
  · rw [join,join,dif_neg hm,dif_neg hm]

end Tap

end Words

def AlikeAt {W : Type} (p : Fin 3) (slots size : Nat) (x y : Shares 3 W) : Prop :=
  ∀ s, s < slots → ∀ i, i < size → x p s i = y p s i

theorem alikeAt_hidden (p : Fin 3) (size : Nat) (w : Lint L) : AlikeAt p 2 size (fun _ _ _ => 0)
    fun q s _ => if shares3pc.hold q s = {p} then w else 0 := by
  have hne : ∀ p : Fin 3, ∀ s, s < 2 → shares3pc.hold p s ≠ {p} := by decide
  exact fun s hs _ _ => (if_neg (hne p s hs)).symm

theorem exists_hidden (k : Nat) (p : Fin 3) (w : Lint L) (i : Nat) : ∃ v, ArithSharing shares3pc k
    (fun q s _ => if shares3pc.hold q s = {p} then w else 0) i v :=
  ⟨_,fun t => (if t = {p} then w else 0 : Lint L).setWidth k,fun _ _ _ => rfl,rfl⟩

section Mult
variable {W R : Type}

def mult3pcTaken (K : WordKind W) (product : (Nat → W) → (Nat → W) → W) (size : Nat)
    (net : Net 3 (Tap L)) (c a b : Shares 3 W) (p : Fin 3) (i : Nat) : W :=
  sendAndGetDataFromPeer K (fun p i => K.sub (product (fun s => a p s i) (fun s => b p s i))
    (K.load (c p 0 i) (net.random 1 K.bytes size p) i)) p i

/-- The three-party multiplications, with a note of the messages. -/
def mult3pcTapped (K : WordKind W) (note : List W → Message L)
    (product : (Nat → W) → (Nat → W) → W) (size : Nat) (net : Net 3 (Tap L)) (c a b : Shares 3 W) :
    Shares 3 W × Net 3 (Tap L) :=
  let r := mult3pc K product size net c a b
  (r.1,Tap.hear (fun p => note ((List.range size).map (mult3pcTaken K product size net c a b p))) r.2)

theorem mult3pc_silence (K : WordKind W) (note : List W → Message L)
    (product : (Nat → W) → (Nat → W) → W) (size : Nat) (net : Net 3 (Tap L)) (c a b : Shares 3 W) :
    mult3pc K product size (Tap.silence net) c a b =
      ((mult3pcTapped K note product size net c a b).1,
        Tap.silence (mult3pcTapped K note product size net c a b).2) := by
  refine Prod.ext rfl ?_
  rw [mult3pcTapped,Tap.silence_hear]
  show ((Tap.silence net).advance 1 K.bytes size).advance 0 K.bytes size = _
  rw [Tap.silence_advance,Tap.silence_advance]
  rfl

def overlay {A : Type} (p : Fin 3) (x : A × Net 3 (Tap L)) (ω : Hidden → Nat → Byte) :
    A × Net 3 (Tap L) := (x.1,Tap.withHidden p x.2 ω)

theorem coupled_arrays {A B : Type} {p : Fin 3} {N : Hidden → Nat}
    {m m' : (Hidden → Nat → Byte) → A × Net 3 (Tap L)} {R : A × Net 3 (Tap L) → A × Net 3 (Tap L) → Prop}
    {Q : B × Net 3 (Tap L) → B × Net 3 (Tap L) → Prop} (g g' : A → B)
    (h : Coupled (overlay p) N m m' R) (hQ : ∀ x x', R x x' → Q (g x.1,x.2) (g' x'.1,x'.2)) :
    Coupled (overlay p) N (fun ω => (g (m ω).1,(m ω).2)) (fun ω => (g' (m' ω).1,(m' ω).2)) Q :=
  h.map (overlay p) (fun x => (g x.1,x.2)) (fun x => (g' x.1,x.2)) (fun x => (g x.1,x.2))
    (fun x => (g' x.1,x.2)) (fun _ _ => rfl) (fun _ _ => rfl) hQ

def SeenAlike (p : Fin 3) (slots size : Nat) (x y : Shares 3 W × Net 3 (Tap L)) : Prop :=
  AlikeAt p slots size x.1 y.1 ∧ x.2 p = y.2 p

theorem seenAlike_overlay {p : Fin 3} {slots size : Nat} {x y : Shares 3 W × Net 3 (Tap L)}
    {ω ω' : Hidden → Nat → Byte} :
    SeenAlike p slots size (overlay p x ω) (overlay p y ω') ↔ SeenAlike p slots size x y := by
  simp only [SeenAlike,overlay,Tap.withHidden_self]

variable {K : WordKind W} {note : List W → Message L} {product : (Nat → W) → (Nat → W) → W}
  {size : Nat} {c c' a a' b b' : Shares 3 W} {p : Fin 3} {net net' : Net 3 (Tap L)}

theorem random_advance_first (net : Net 3 (Tap L)) (bytes size : Nat) (q : Fin 3) :
    (net.advance 1 bytes size).random 0 bytes size q = net.random 0 bytes size q :=
  Net.random_advance_of_ne net (by decide) bytes size bytes size q

theorem mult3pc_congr (h₀ : ∀ q, net.random 0 K.bytes size q = net'.random 0 K.bytes size q)
    (h₁ : ∀ q, net.random 1 K.bytes size q = net'.random 1 K.bytes size q) :
    (mult3pc K product size net c a b).1 = (mult3pc K product size net' c a b).1 ∧
      mult3pcTaken K product size net c a b = mult3pcTaken K product size net' c a b := by
  constructor
  · simp only [mult3pc,random_advance_first,h₀,h₁]
  · funext q i
    simp only [mult3pcTaken,h₁]

theorem shared_local {A : Type} (p : Fin 3) (net : Net 3 (Tap L)) {bytes size : Nat}
    (F : Net 3 (Tap L) → A) (hF : ∀ net net' : Net 3 (Tap L),
      (∀ s, s < 2 → ∀ q, net.random s bytes size q = net'.random s bytes size q) → F net = F net')
    (d : Blocks (Tap.ofShare (bytes*size)) Byte) : ∃ x, ∀ ω,
      (F (Tap.withHidden p net (join d ω)),
        ((Tap.withHidden p net (join d ω)).advance 1 bytes size).advance 0 bytes size) =
          overlay p x ω := by
  let start := Tap.withHidden p net (join d default)
  refine ⟨(F start,(net.advance 1 bytes size).advance 0 bytes size),fun ω => ?_⟩
  have hrandom : ∀ s, s < 2 → ∀ q, (Tap.withHidden p net (join d ω)).random s bytes size q =
      start.random s bytes size q := by
    intro s hs q
    refine Tap.random_join net d bytes size (fun j hj => ?_) ω default
    obtain rfl := (Tap.hiddenAt_share hj).mpr hs
    exact Nat.le_refl _
  rw [hF _ start hrandom,Tap.advanceShared_withHidden,drop_join]
  rfl

theorem heard_local {A : Type} (p : Fin 3) (net : Net 3 (Tap L)) {bytes size : Nat}
    (F : Net 3 (Tap L) → A) (message : Net 3 (Tap L) → Fin 3 → Message L)
    (hF : ∀ net net' : Net 3 (Tap L),
      (∀ s, s < 2 → ∀ q, net.random s bytes size q = net'.random s bytes size q) →
      F net = F net' ∧ message net = message net')
    (d : Blocks (Tap.ofShare (bytes*size)) Byte) : ∃ x, ∀ ω,
      (F (Tap.withHidden p net (join d ω)),Tap.hear (message (Tap.withHidden p net (join d ω)))
        (((Tap.withHidden p net (join d ω)).advance 1 bytes size).advance 0 bytes size)) =
          overlay p x ω := by
  obtain ⟨x,hx⟩ := shared_local p net (fun net => (F net,message net))
    (fun net net' h => Prod.ext (hF net net' h).1 (hF net net' h).2) d
  refine ⟨(x.1.1,Tap.hear x.1.2 x.2),fun ω => ?_⟩
  have hstate := hx ω
  simp only [overlay,Prod.ext_iff] at hstate ⊢
  rw [hstate.1.1,hstate.1.2,hstate.2,Tap.hear_withHidden]
  exact ⟨rfl,rfl⟩

theorem mult3pcTapped_local (p : Fin 3) (net : Net 3 (Tap L)) (c a b : Shares 3 W)
    (d : Blocks (Tap.ofShare (K.bytes*size)) Byte) : ∃ x, ∀ ω,
      mult3pcTapped K note product size (Tap.withHidden p net (join d ω)) c a b =
        overlay p x ω :=
  heard_local p net (fun net => (mult3pc K product size net c a b).1)
    (fun net p => note ((List.range size).map (mult3pcTaken K product size net c a b p)))
    (fun net net' h => by
      obtain ⟨harrays,htaken⟩ := mult3pc_congr (c := c) (a := a) (b := b)
        (h 0 (by decide)) (h 1 (by decide))
      exact ⟨harrays,by rw [htaken]⟩) d

theorem Tap.hear_congr {message message' : Fin 3 → Message L} (hmessage : message p = message' p)
    (hnet : net p = net' p) : Tap.hear message net p = Tap.hear message' net' p := by
  funext s
  rw [Tap.hear,Tap.hear,hmessage,hnet]

theorem Net.advance_congr (hnet : net p = net' p) (keyID size length : Nat) :
    net.advance keyID size length p = net'.advance keyID size length p := by
  rw [Net.advance,Net.advance,hnet]

theorem random_self (hnet : net p = net' p) (keyID size length : Nat) (ω ω' : Hidden → Nat → Byte) :
    (Tap.withHidden p net ω).random keyID size length p =
      (Tap.withHidden p net' ω').random keyID size length p := by
  rw [Net.random,Net.random,Tap.withHidden_self,Tap.withHidden_self,hnet]

theorem mult3pcTapped_alike (note : List W → Message L) (hproduct : ∀ x x' y y' : Nat → W,
      (∀ s, s < 2 → x s = x' s) → (∀ s, s < 2 → y s = y' s) → product x y = product x' y')
    (hc : AlikeAt p 2 size c c') (ha : AlikeAt p 2 size a a') (hb : AlikeAt p 2 size b b')
    (hrandom : ∀ s, net.random s K.bytes size p = net'.random s K.bytes size p)
    (hnet : net p = net' p)
    (htaken : ∀ i, i < size → mult3pcTaken K product size net c a b p i =
      mult3pcTaken K product size net' c' a' b' p i) :
    SeenAlike p 2 size (mult3pcTapped K note product size net c a b)
      (mult3pcTapped K note product size net' c' a' b') := by
  have hheard : note ((List.range size).map (mult3pcTaken K product size net c a b p)) =
      note ((List.range size).map (mult3pcTaken K product size net' c' a' b' p)) :=
    congrArg note (List.map_congr_left fun i hi => htaken i (List.mem_range.mp hi))
  refine ⟨fun s hs i hi => ?_,?_⟩
  · have hmask : K.load (c p 0 i) (net.random 1 K.bytes size p) i =
        K.load (c' p 0 i) (net'.random 1 K.bytes size p) i := by
      rw [hrandom,hc 0 (by decide) i hi]
    have hlocal := hproduct (fun s => a p s i) (fun s => a' p s i) (fun s => b p s i)
      (fun s => b' p s i) (fun s hs => ha s hs i hi) (fun s hs => hb s hs i hi)
    rcases (by omega : s = 0 ∨ s = 1) with rfl | rfl
    · simp only [mult3pcTapped,mult3pc,if_true,random_advance_first,hmask,hlocal,hrandom 0]
    · show K.add (mult3pcTaken K product size net c a b p i)
        (K.load (c p 0 i) (net.random 1 K.bytes size p) i) =
          K.add (mult3pcTaken K product size net' c' a' b' p i)
            (K.load (c' p 0 i) (net'.random 1 K.bytes size p) i)
      rw [htaken i hi,hmask]
  · show Tap.hear (fun q => note ((List.range size).map (mult3pcTaken K product size net c a b q))) _ p =
      Tap.hear (fun q => note ((List.range size).map (mult3pcTaken K product size net' c' a' b' q))) _ p
    exact Tap.hear_congr hheard (Net.advance_congr (Net.advance_congr hnet _ _ _) _ _ _)

theorem load_hidden [CommRing R] (M : Masking K k R) {N : Hidden → Nat} {p q : Fin 3} {s : Nat}
    {j : Hidden} (hplace : Tap.hiddenAt p q s = some j)
    (net : Net 3 (Tap L)) (d : Blocks N Byte) (z : W) {i : Nat} (hi : i < size) :
    M.val (K.load z ((Tap.withHidden p net (join d default)).random s K.bytes size q) i) =
      M.enc (Tap.blockWord k K.bytes d j i) := by
  rw [M.load z K.zero,Tap.random_withHidden _ _ hplace]
  have hmask := M.mask ⟨fun m => if m < K.bytes*size then join d default j m else 0⟩ i
  have hword : Tape.word k K.bytes
      ⟨fun m => if m < K.bytes*size then join d default j m else 0⟩ i =
        Tap.blockWord k K.bytes d j i :=
    Tape.word_congr M.fits (fun m hm => if_pos hm) hi
  rw [← hword]
  exact hmask

/-- Under the mask the message stands for the local product of its sender less a word of
the stream that party `p` does not know. -/
theorem mult3pcTaken_val [CommRing R] (M : Masking K k R)
    (product : (Nat → W) → (Nat → W) → W) (p : Fin 3) (net : Net 3 (Tap L))
    (c a b : Shares 3 W) (d : Blocks (Tap.ofShare (K.bytes*size)) Byte) {i : Nat} (hi : i < size) :
    ∃ x, mult3pcTaken K product size (Tap.withHidden p net (join d default)) c a b p i = K.recv x ∧
      M.val x = M.val (product (fun s => a (p + 1) s i) (fun s => b (p + 1) s i)) -
        M.enc (Tap.blockWord k K.bytes d .share i) := by
  have hplace : Tap.hiddenAt p (p + 1) 1 = some .share := if_pos (.inl ⟨rfl,rfl⟩)
  refine ⟨_,sendAndGetDataFromPeer_eq K _ p i,?_⟩
  rw [M.sub,load_hidden M hplace net d _ hi]

/-- What a party sees of a multiplication is the same in two runs that are alike to it, if
the masks of the one are those of the other shifted by the difference of the products. -/
theorem mult3pcTapped_coupled [CommRing R] (M : Masking K k R)
    (hproduct : ∀ x x' y y' : Nat → W, (∀ s, s < 2 → x s = x' s) → (∀ s, s < 2 → y s = y' s) →
      product x y = product x' y')
    (hc : AlikeAt p 2 size c c') (ha : AlikeAt p 2 size a a') (hb : AlikeAt p 2 size b b')
    (hnet : net p = net' p) :
    Coupled (overlay p) (Tap.ofShare (K.bytes*size))
      (fun ω => mult3pcTapped K note product size (Tap.withHidden p net ω) c a b)
      (fun ω => mult3pcTapped K note product size (Tap.withHidden p net' ω) c' a' b')
      (SeenAlike p 2 size) := by
  let sent : Shares 3 W → Shares 3 W → Nat → R := fun a b i =>
    M.val (product (fun s => a (p + 1) s i) (fun s => b (p + 1) s i))
  let shifted : Nat → BitVec k ≃ BitVec k := fun i =>
    (M.enc.trans (Equiv.addRight (sent a' b' i - sent a b i))).trans M.enc.symm
  refine Coupled.of_local (mult3pcTapped_local p net c a b) (mult3pcTapped_local p net' c' a' b')
    (Tap.rewordBlocks (j := .share) M.fits (Nat.le_refl _) shifted) fun d x x' hx hx' => ?_
  let d' := Tap.rewordBlocks M.fits (Nat.le_refl (Tap.ofShare (K.bytes*size) .share)) shifted d
  have hstart := hx default
  have hstart' : _ = overlay p x' default := hx' default
  have htaken : ∀ i, i < size →
      mult3pcTaken K product size (Tap.withHidden p net (join d default)) c a b p i =
        mult3pcTaken K product size (Tap.withHidden p net' (join d' default)) c' a' b' p i := by
    intro i hi
    obtain ⟨x,hleft,hval⟩ := mult3pcTaken_val M product p net c a b d hi
    obtain ⟨x',hright,hval'⟩ := mult3pcTaken_val M product p net' c' a' b' d' hi
    rw [hleft,hright]
    refine M.shown _ _ ?_
    rw [hval,hval',Tap.blockWord_rewordBlocks M.fits (Nat.le_refl _) shifted d hi]
    simp only [shifted,sent,Equiv.trans_apply,Equiv.coe_addRight,Equiv.apply_symm_apply]
    ring
  have halike := mult3pcTapped_alike note hproduct hc ha hb
    (fun s => random_self hnet s K.bytes size (join d default) (join d' default))
    (by rw [Tap.withHidden_self,Tap.withHidden_self,hnet]) htaken
  rw [hstart,hstart'] at halike
  exact seenAlike_overlay.mp halike

end Mult

end RssRing
