import RssRing.ProtocolsComposite.BitAdd
set_option autoImplicit false

namespace RssRing
open Replicated

variable {L k : Nat} {G : Type} [Generator G]

def packedHalves (buffer : Nat → Byte) (bytes size i : Nat) : Lint L :=
  if i < size then memcpyArray (fun _ => 0) buffer 0 (size*bytes) i
  else memcpyArray (fun _ => 0) buffer (size*bytes) (size*bytes) (i - size)

/-- What each party draws for itself. Its own stream is the third. -/
def edaBitsOwn (ring_size size : Nat) (net : Net 3 G) (p : Fin 3) (i : Nat) : Lint L :=
  memcpyArray (fun _ => 0) (net.random 2 (byteWidth ring_size) size p) 0 (size*byteWidth ring_size) i

/-- `r_values[s][j]` of party `p` after the exchange: slot `s` of the random word
that party `j` has drawn, as a number in the first half and bit by bit in the second. -/
def rValues (ring_size size : Nat) (net : Net 3 G) (p : Fin 3) (s : Nat) (j : Fin 3) (i : Nat) :
    Lint L :=
  let bytes := byteWidth ring_size
  let r_bits : Fin 3 → Nat → Lint L := edaBitsOwn ring_size size net
  let net₁ := net.advance 2 bytes size
  let second := fun p i => packedHalves (net₁.random 1 bytes (2*size) p) bytes size i
  let first := fun p i =>
    if i < size then r_bits p i - second p i else r_bits p (i - size) ^^^ second p i
  let net₂ := net₁.advance 1 bytes (2*size)
  let other := fun p i => packedHalves (net₂.random 0 bytes (2*size) p) bytes size i
  let recv := sendAndGetDataFromPeer (arithKind L ring_size) first
  match s with
  | 0 => if j = p then masked ring_size (first p i) else if j = p + 2 then other p i else 0
  | 1 => if j = p then second p i else if j = p + 1 then recv p i else 0
  | _ => 0

structure RandomShares (n L : Nat) (G : Type) where
  res : Shares n (Lint L)
  res_bitwise : Shares n (Lint L)
  net : Net n G

/-- `Rss_GenerateRandomShares`. Only the first two parties' words are used. -/
def generateRandomShares (ring_size size : Nat) (net : Net 3 G) : RandomShares 3 L G where
  res p s i := rValues ring_size size net p s 0 i + rValues ring_size size net p s 1 i
  res_bitwise p s m :=
    if m < size then rValues ring_size size net p s 0 (size + m)
    else if m < 2*size then rValues ring_size size net p s 1 (size + (m - size)) else 0
  net :=
    let bytes := byteWidth ring_size
    ((net.advance 2 bytes size).advance 1 bytes (2*size)).advance 0 bytes (2*size)

/-- `r_values[s][j]` of party `p` in the routine with a `bit_length`: the two forms of an
element stand next to each other, and every element is copied for itself. -/
def rValuesLength (ring_size bit_length size : Nat) (net : Net 3 G) (p : Fin 3) (s : Nat)
    (j : Fin 3) (m : Nat) : Lint L :=
  let bytes := byteWidth ring_size
  let r_bits : Fin 3 → Nat → Lint L := fun p i =>
    memcpyWord 0 (net.random 2 bytes size p) (i*bytes) bytes &&& shift L bit_length
  let net₁ := net.advance 2 bytes size
  let second := fun p m => memcpyWord 0 (net₁.random 1 bytes (2*size) p) (m*bytes) bytes
  let first := fun p m =>
    if m%2 = 0 then r_bits p (m/2) - second p m else r_bits p (m/2) ^^^ second p m
  let net₂ := net₁.advance 1 bytes (2*size)
  let other := fun p m => memcpyWord 0 (net₂.random 0 bytes (2*size) p) (m*bytes) bytes
  let recv := sendAndGetDataFromPeer (arithKind L ring_size) first
  match s with
  | 0 => if j = p then masked ring_size (first p m) else if j = p + 2 then other p m else 0
  | 1 => if j = p then second p m else if j = p + 1 then recv p m else 0
  | _ => 0

/-- `Rss_GenerateRandomShares` with a `bit_length`. Here all three words are added. -/
def generateRandomSharesLength (ring_size bit_length size : Nat) (net : Net 3 G) :
    RandomShares 3 L G where
  res p s i := rValuesLength ring_size bit_length size net p s 0 (2*i) +
    rValuesLength ring_size bit_length size net p s 1 (2*i) +
    rValuesLength ring_size bit_length size net p s 2 (2*i)
  res_bitwise p s m := rValuesLength ring_size bit_length size net p s (Fin.ofNat 3 m) (2*(m/3) + 1)
  net :=
    let bytes := byteWidth ring_size
    ((net.advance 2 bytes size).advance 1 bytes (2*size)).advance 0 bytes (2*size)

structure EdaBits (n L : Nat) (G : Type) where
  r : Shares n (Lint L)
  b_2 : Shares n (Lint L)
  net : Net n G

namespace Suite

/-- `Rss_nBitAdd` for a threshold of one: a single round. -/
def nBitAdd (S : Suite 3 L G) (res r_bitwise : Shares 3 (Lint L)) (ring_size size : Nat)
    (net : Net 3 G) : Shares 3 (Lint L) × Net 3 G :=
  S.bitAdd res r_bitwise (fun p s i => r_bitwise p s (size + i)) ring_size size net

def edaBit (S : Suite 3 L G) (size ring_size : Nat) (net : Net 3 G) : EdaBits 3 L G :=
  let g := generateRandomShares ring_size size net
  let b := S.nBitAdd (fun _ _ _ => 0) g.res_bitwise ring_size size g.net
  ⟨g.res,b.1,b.2⟩

def edaBitLength (S : Suite 3 L G) (size ring_size bit_length : Nat) (net : Net 3 G) :
    EdaBits 3 L G :=
  let g := generateRandomSharesLength ring_size bit_length size net
  let b := S.nBitAdd (fun _ _ _ => 0) g.res_bitwise ring_size size g.net
  ⟨g.res,b.1,b.2⟩

end Suite

def dealtSum (L ring_size size : Nat) (net : Net 3 G) (i : Nat) : BitVec ring_size :=
  let r_bits : Fin 3 → Nat → Lint L := edaBitsOwn ring_size size net
  (r_bits 0 i).setWidth ring_size + (r_bits 1 i).setWidth ring_size

theorem isSharing_split {R : Type} [AddCommMonoid R] {x : Fin 3 → Nat → R} (j : Fin 3) {y z : R}
    (h₀ : x j 0 = y ∧ x j 1 = z) (h₁ : x (j + 1) 0 = z ∧ x (j + 1) 1 = 0)
    (h₂ : x (j + 2) 0 = 0 ∧ x (j + 2) 1 = y) : shares3pc.IsSharing x (y + z) := by
  have hcases : ∀ p j : Fin 3, p = j ∨ p = j + 1 ∨ p = j + 2 := by decide
  have h12 : j + 1 + 1 = j + 2 := by rw [add_assoc]; rfl
  have h23 : j + 2 + 1 = j := by rw [add_assoc]; exact add_zero j
  refine isSharing3pc_iff.mpr ⟨fun p => ?_,?_⟩
  · rcases hcases p j with rfl | rfl | rfl
    · rw [h₀.2,h₁.1]
    · rw [h12,h₁.2,h₂.1]
    · rw [h23,h₂.2,h₀.1]
  · rw [← sum_next _ j,h₀.1,h₁.1,h₂.1,add_zero]

omit [Generator G] in
theorem isSharing_exchange {R : Type} [CommRing R] (val : Lint L → R) (h0 : val 0 = 0)
    (hmasked : ∀ x, val (masked k x) = val x) {x : Fin 3 → Nat → Lint L}
    {first second other : Fin 3 → Nat → Lint L} {j : Fin 3} {i : Nat} {v : R}
    (hx₀ : ∀ p, x p 0 = if j = p then masked k (first p i) else if j = p + 2 then other p i else 0)
    (hx₁ : ∀ p, x p 1 = if j = p then second p i
      else if j = p + 1 then sendAndGetDataFromPeer (arithKind L k) first p i else 0)
    (hother : other (j + 1) i = second j i) (hsplit : val (first j i) = v - val (second j i)) :
    shares3pc.IsSharing (fun p s => val (x p s)) v := by
  have hne₁ : ∀ j : Fin 3, j ≠ j + 1 ∧ j = j + 1 + 2 ∧ j ≠ j + 1 + 1 := by decide
  have hne₂ : ∀ j : Fin 3, j ≠ j + 2 ∧ j ≠ j + 2 + 2 ∧ j = j + 2 + 1 := by decide
  have hsum := isSharing_split (x := fun p s => val (x p s)) j
    (y := v - val (second j i)) (z := val (second j i)) ⟨?_,?_⟩ ⟨?_,?_⟩ ⟨?_,?_⟩
  · rwa [sub_add_cancel] at hsum
  · simp only [hx₀,if_true,hmasked]
    exact hsplit
  · simp only [hx₁,if_true]
  · simp only [hx₀,(hne₁ j).1,if_false,if_pos (hne₁ j).2.1,hother]
  · simp only [hx₁,(hne₁ j).1,(hne₁ j).2.2,if_false,h0]
  · simp only [hx₀,(hne₂ j).1,(hne₂ j).2.1,if_false,h0]
  · simp only [hx₁,(hne₂ j).1,if_false,if_pos (hne₂ j).2.2,sendAndGetDataFromPeer_eq,arithKind,
      received_eq,hmasked]
    rw [← (hne₂ j).2.2]
    exact hsplit

section
variable {net : Net 3 G} {size : Nat}

theorem random_agree (hnet : shares3pc.Consistent net) (bytes size' : Nat) (j : Fin 3) :
    (net.advance 2 bytes size).random 1 bytes size' j =
      ((net.advance 2 bytes size).advance 1 bytes size').random 0 bytes size' (j + 1) := by
  have hhold : shares3pc.hold j 1 = shares3pc.hold (j + 1) 0 := by revert j; decide
  rw [Net.random_advance_of_ne _ (by decide),Net.random_advance_of_ne _ (by decide),
    Net.random_advance_of_ne _ (by decide),Net.random_eq hnet (by decide) (by decide) hhold]

theorem rValues_isSharing {R : Type} [CommRing R] (val : Lint L → R) (h0 : val 0 = 0)
    (hmasked : ∀ x, val (masked k x) = val x) (hnet : shares3pc.Consistent net) (j : Fin 3)
    {i : Nat} {v : R}
    (hsplit : ∀ z : Lint L, val (if i < size then edaBitsOwn k size net j i - z
      else edaBitsOwn k size net j (i - size) ^^^ z) = v - val z) :
    shares3pc.IsSharing (fun p s => val (rValues k size net p s j i)) v := by
  refine isSharing_exchange val h0 hmasked (fun _ => rfl) (fun _ => rfl) ?_ (hsplit _)
  rw [random_agree hnet]

theorem generateRandomShares_isSharing (hk : k ≤ 8*L) (hnet : shares3pc.Consistent net) {i : Nat}
    (hi : i < size) :
    let g : RandomShares 3 L G := generateRandomShares k size net
    let x := fun j => (edaBitsOwn k size net j i : Lint L).setWidth k
    ArithSharing shares3pc k g.res i (x 0 + x 1) ∧ BitSharing shares3pc k g.res_bitwise i (x 0) ∧
      BitSharing shares3pc k g.res_bitwise (size + i) (x 1) := by
  intro g x
  have harith : ∀ j, shares3pc.IsSharing
      (fun p s => (rValues k size net p s j i : Lint L).setWidth k) (x j) := by
    intro j
    refine rValues_isSharing _ (map_zero (lowBits hk)) (arithReading hk).sent hnet j fun z => ?_
    rw [if_pos hi]
    exact setWidth_sub_of_le _ _ hk
  have hbits : ∀ j m, m < k → shares3pc.IsSharing
      (fun p s => (rValues k size net p s j (size + i) : Lint L).getLsbD m) ((x j).getLsbD m) := by
    intro j m hm
    refine rValues_isSharing (fun y => y.getLsbD m) BitVec.getLsbD_zero
      (fun y => getLsbD_masked y hm) hnet j fun z => ?_
    rw [if_neg (by omega : ¬ size + i < size),Nat.add_sub_cancel_left,BitVec.getLsbD_xor,
      BitVec.getLsbD_setWidth,decide_eq_true hm,Bool.true_and]
    rfl
  refine ⟨?_,fun m hm => ?_,fun m hm => ?_⟩
  · refine ((harith 0).add (harith 1)).congr fun p s _ => ?_
    exact BitVec.setWidth_add _ _ hk
  · refine (hbits 0 m hm).congr fun p s _ => ?_
    simp only [g,generateRandomShares,if_pos hi]
  · refine (hbits 1 m hm).congr fun p s _ => ?_
    simp only [g,generateRandomShares,if_neg (by omega : ¬ size + i < size),
      if_pos (by omega : size + i < 2*size),Nat.add_sub_cancel_left]

theorem generateRandomShares_net (hnet : shares3pc.Consistent net) (k size : Nat) :
    shares3pc.Consistent (generateRandomShares (L := L) k size net).net :=
  advance_consistent3pc (Net.consistent_advance_own hnet (by decide) _ _) (byteWidth k) (2*size)

theorem edaBit_element (scratch : Shares 3 (Lint L)) (hk : k ≤ 8*L)
    (hnet : shares3pc.Consistent net) (size : Nat) :
    let out := (suite3pc scratch).edaBit size k net
    shares3pc.Consistent out.net ∧ ∀ i, i < size →
      ArithSharing shares3pc k out.r i (dealtSum L k size net i) ∧
        BitSharing shares3pc k out.b_2 i (dealtSum L k size net i) := by
  intro out
  obtain ⟨hok,hadd⟩ := (replicated3pc scratch).bitAdd_shared size hk (fun _ _ _ => 0)
    (a := (generateRandomShares k size net).res_bitwise)
    (b := fun p s i => (generateRandomShares k size net).res_bitwise p s (size + i))
    (generateRandomShares_net (L := L) hnet k size)
  refine ⟨hok,fun i hi => ?_⟩
  obtain ⟨hr,h₀,h₁⟩ := generateRandomShares_isSharing (L := L) hk hnet hi
  exact ⟨hr,hadd i hi _ _ h₀ h₁⟩

/-- The two sharings that `Rss_edaBit` gives are consistent between the parties and
stand for the same number, the sum modulo `2^k` of the two dealers' random words. -/
theorem edaBit_isSharing (hk : k ≤ 8*L) (size : Nat) (hnet : shares3pc.Consistent net)
    (scratch : Shares 3 (Lint L)) : ∀ i, i < size →
    let out := (suite3pc scratch).edaBit size k net
    ArithSharing shares3pc k out.r i (dealtSum L k size net i) ∧
      BitSharing shares3pc k out.b_2 i (dealtSum L k size net i) := by
  intro i hi
  exact (edaBit_element scratch hk hnet size).2 i hi

theorem edaBit_isSharing_bytes :
    let net : Net 3 Tape := fun _ _ => ⟨fun i => BitVec.ofNat 8 (3*i+1)⟩
    let out := (suite3pc (L := 4) fun _ _ _ => 0).edaBit 2 30 net
    (ArithSharing shares3pc 30 out.r 0 (2*168231937) ∧
      BitSharing shares3pc 30 out.b_2 0 (2*168231937)) ∧
      ArithSharing shares3pc 30 out.r 1 (2*370348045) ∧
        BitSharing shares3pc 30 out.b_2 1 (2*370348045) := by
  intro net out
  have hnet : shares3pc.Consistent net := fun _ _ _ _ _ _ _ => rfl
  have hsum : dealtSum 4 30 2 net 0 = 2*168231937 ∧ dealtSum 4 30 2 net 1 = 2*370348045 := by
    decide
  rw [← hsum.1,← hsum.2]
  have hout := edaBit_isSharing (L := 4) (k := 30) (by decide) 2 hnet (fun _ _ _ => 0)
  exact ⟨hout 0 (by decide),hout 1 (by decide)⟩

end
end RssRing
