import RssRing.ProtocolsRand.EdaBit
set_option autoImplicit false

namespace RssRing
open Replicated

variable {G : Type} [Generator G] {L k : Nat}

def packedThirds (buffer : Nat → Byte) (bytes size i : Nat) : Lint L :=
  if i < size then memcpyArray (fun _ => 0) buffer 0 (size*bytes) i
  else if i < 2*size then memcpyArray (fun _ => 0) buffer (size*bytes) (size*bytes) (i - size)
  else memcpyArray (fun _ => 0) buffer (2*(size*bytes)) (size*bytes) (i - 2*size)

def truncBitsOwn (ring_size size : Nat) (net : Net 3 G) (p : Fin 3) (i : Nat) : Lint L :=
  edaBitsOwn ring_size size net p i &&& shift L ring_size

/-- `r_values[s][j]` of `Rss_GenerateRandomShares_trunc` at party `p` after the exchange.
The last third shares the dealer's word without its `m` low bits. -/
def rValuesTrunc (ring_size m size : Nat) (net : Net 3 G) (p : Fin 3) (s : Nat) (j : Fin 3)
    (i : Nat) : Lint L :=
  let bytes := byteWidth ring_size
  let r_bits : Fin 3 → Nat → Lint L := truncBitsOwn ring_size size net
  let r_prime := fun p i => r_bits p i >>> m
  let net₁ := net.advance 2 bytes size
  let second := fun p i => packedThirds (net₁.random 1 bytes (3*size) p) bytes size i
  let first := fun p i =>
    if i < size then r_bits p i - second p i
    else if i < 2*size then r_bits p (i - size) ^^^ second p i
    else r_prime p (i - 2*size) - second p i
  let net₂ := net₁.advance 1 bytes (3*size)
  let other := fun p i => packedThirds (net₂.random 0 bytes (3*size) p) bytes size i
  let recv := sendAndGetDataFromPeer (arithKind L ring_size) first
  match s with
  | 0 => if j = p then masked ring_size (first p i) else if j = p + 2 then other p i else 0
  | 1 => if j = p then second p i else if j = p + 1 then recv p i else 0
  | _ => 0

structure RandomSharesTrunc (L : Nat) (G : Type) where
  res : Shares 3 (Lint L)
  res_prime : Shares 3 (Lint L)
  res_bitwise : Shares 3 (Lint L)
  net : Net 3 G

def generateRandomSharesTrunc (ring_size m size : Nat) (net : Net 3 G) : RandomSharesTrunc L G where
  res p s i :=
    rValuesTrunc ring_size m size net p s 0 i + rValuesTrunc ring_size m size net p s 1 i
  res_prime p s i := rValuesTrunc ring_size m size net p s 0 (2*size + i) +
    rValuesTrunc ring_size m size net p s 1 (2*size + i)
  res_bitwise p s i :=
    if i < size then rValuesTrunc ring_size m size net p s 0 (size + i)
    else if i < 2*size then rValuesTrunc ring_size m size net p s 1 (size + (i - size)) else 0
  net :=
    let bytes := byteWidth ring_size
    ((net.advance 2 bytes size).advance 1 bytes (3*size)).advance 0 bytes (3*size)

/-- Packed bytes and words are the same thing, or there is one element. -/
def Packed (L k size : Nat) : Prop := byteWidth k = L ∨ size ≤ 1

def packWords (bytes : Nat) (z : Nat → Lint L) (n : Nat) : Byte := byteOf (z (n/bytes)) (n%bytes)

section
variable {size i : Nat}

theorem memcpyArray_packWords (hk : k ≤ 8*L) (hpacked : Packed L k size) (z : Nat → Lint L)
    (c : Nat) (hi : i < size) : (memcpyArray (fun _ => 0) (packWords (byteWidth k) z)
      (c*(size*byteWidth k)) (size*byteWidth k) i : Lint L).setWidth k =
    (z (c*size + i)).setWidth k := by
  refine setWidth_ext fun j hj => ?_
  have hbytes := le_byteWidth k
  have hmod : j%8 < 8 := Nat.mod_lt j (by decide)
  have hdiv : j/8 < byteWidth k := by omega
  have hstride : i*L = i*byteWidth k := by
    rcases hpacked with h | h
    · rw [h]
    · rw [show i = 0 by omega,Nat.zero_mul,Nat.zero_mul]
  have hlt := index_lt hi hdiv
  have hpos : c*(size*byteWidth k) + (i*byteWidth k + j/8) = (c*size + i)*byteWidth k + j/8 := by ring
  have hword := index_div hdiv (c*size + i)
  have hbyte := index_mod hdiv (c*size + i)
  rw [getLsbD_memcpyArray,decide_eq_true (by omega),Bool.true_and,hstride,if_pos hlt,hpos,packWords,
    hword,hbyte,getLsbD_byteOf,decide_eq_true hmod,Bool.true_and,Nat.div_add_mod]

theorem memcpyArray_last (hk₀ : 0 < k) (hk : k ≤ 8*L) (hpacked : ¬ Packed L k size)
    (src : Nat → Byte) (off : Nat) : (memcpyArray (fun _ => 0) src off (size*byteWidth k)
      (size-1) : Lint L).getLsbD (8*(byteWidth k - 1)) = false := by
  obtain ⟨hwidth,hsize⟩ := not_or.mp hpacked
  have hout : ¬ (size-1)*L + 8*(byteWidth k - 1)/8 < size*byteWidth k := by
    rw [Nat.mul_div_cancel_left _ (by decide),Nat.mul_comm size]
    exact last_byte_outside hk₀ hk hwidth hsize
  have hzero : (0 : Lint L).getLsbD (8*(byteWidth k - 1)) = false := BitVec.getLsbD_zero
  rw [getLsbD_memcpyArray,if_neg hout,hzero,Bool.and_false]

end

/-- Whatever the vectors `x` and `y` are, some streams make them the random words of
party `p` and the shares that mask these. -/
def DrawsOnto (L k size masks : Nat) (bits : Net 3 Tape → Fin 3 → Nat → Lint L)
    (share : Net 3 Tape → Fin 3 → Nat → Lint L) : Prop :=
  ∀ p, ∀ x y : Nat → BitVec k, ∃ net, shares3pc.Consistent net ∧
    (∀ i, i < size → (bits net p i).setWidth k = x i) ∧
    ∀ i, i < masks → (share net p i).setWidth k = y i

def packedNet (L : Nat) (x y : Nat → BitVec k) : Net 3 Tape := fun _ s =>
  let words : Nat → Lint L := fun i => if s = 2 then (x i).setWidth (8*L) else (y i).setWidth (8*L)
  ⟨packWords (byteWidth k) words⟩

theorem packedNet_consistent (x y : Nat → BitVec k) :
    shares3pc.Consistent (packedNet L x y) := by
  intro p s q t hs ht _
  have hs₂ : s ≠ 2 := Nat.ne_of_lt hs
  have ht₂ : t ≠ 2 := Nat.ne_of_lt ht
  simp only [packedNet,hs₂,ht₂,if_false]

section
variable {size masks : Nat} {bits share : Net 3 Tape → Fin 3 → Nat → Lint L}

theorem not_drawsOnto (hk₀ : 0 < k) (hk : k ≤ 8*L) (hpacked : ¬ Packed L k size)
    (hbits : ∀ net p i j, (edaBitsOwn k size net p i : Lint L).getLsbD j = false →
      (bits net p i).getLsbD j = false) : ¬ DrawsOnto L k size masks bits share := by
  intro honto
  obtain ⟨net,_,hx,_⟩ := honto 0 (fun _ => BitVec.allOnes k) (fun _ => 0)
  have hlast : size - 1 < size := by
    have hsize := (not_or.mp hpacked).2
    omega
  have htop : 8*(byteWidth k - 1) < k := by
    rw [byteWidth_eq]; omega
  have hset := congrArg (fun w => w.getLsbD (8*(byteWidth k - 1))) (hx (size-1) hlast)
  have hclear : (bits net 0 (size-1)).getLsbD (8*(byteWidth k - 1)) = false := by
    refine hbits net 0 (size-1) _ ?_
    rw [edaBitsOwn]
    exact memcpyArray_last hk₀ hk hpacked _ 0
  simp only [BitVec.getLsbD_setWidth,hclear,Bool.and_false,BitVec.getLsbD_allOnes,
    decide_eq_true htop,Bool.false_eq_true] at hset

theorem drawsOnto {parts : Nat} (hk : k ≤ 8*L) (hpacked : k = 0 ∨ Packed L k size)
    (hbits : ∀ net p i, (bits net p i).setWidth k =
      (edaBitsOwn k size net p i : Lint L).setWidth k)
    (hshare : ∀ net p c i, c < parts → i < size → share net p (c*size + i) =
      memcpyArray (fun _ => 0) (net.random 1 (byteWidth k) (parts*size) p)
        (c*(size*byteWidth k)) (size*byteWidth k) i) :
    DrawsOnto L k size (parts*size) bits share := by
  intro p x y
  refine ⟨packedNet L x y,packedNet_consistent x y,?_⟩
  rcases hpacked with rfl | hpacked
  · exact ⟨fun i _ => Subsingleton.elim _ _,fun i _ => Subsingleton.elim _ _⟩
  refine ⟨fun i hi => ?_,fun m hm => ?_⟩
  · have hword := memcpyArray_packWords hk hpacked (fun i => (x i).setWidth (8*L)) 0 hi
    simp only [Nat.zero_mul,Nat.zero_add,BitVec.setWidth_setWidth_of_le _ hk,
      BitVec.setWidth_eq] at hword
    rw [hbits]
    exact hword
  · have hpos : 0 < size := Nat.pos_of_mul_pos_left (Nat.zero_lt_of_lt hm)
    have hc : m/size < parts := Nat.div_lt_of_lt_mul (by rwa [Nat.mul_comm])
    have hword := memcpyArray_packWords hk hpacked (fun i => (y i).setWidth (8*L)) (m/size)
      (Nat.mod_lt m hpos)
    have hm' : m/size*size + m%size = m := by rw [Nat.mul_comm,Nat.div_add_mod]
    simp only [BitVec.setWidth_setWidth_of_le _ hk,BitVec.setWidth_eq] at hword
    rw [← hm',hshare _ _ _ _ hc (Nat.mod_lt m hpos)]
    exact hword

end

theorem setWidth_truncBitsOwn (size : Nat) (net : Net 3 G) (p : Fin 3) (i : Nat) :
    (truncBitsOwn k size net p i : Lint L).setWidth k =
      (edaBitsOwn k size net p i : Lint L).setWidth k :=
  setWidth_ext fun j hj => by
    rw [truncBitsOwn,getLsbD_and_shift,decide_eq_true hj,Bool.and_true]

theorem rValues_share (size : Nat) (net : Net 3 G) (p : Fin 3) {c i : Nat} (hc : c < 2)
    (hi : i < size) : (rValues k size net p 1 p (c*size + i) : Lint L) =
      memcpyArray (fun _ => 0) (net.random 1 (byteWidth k) (2*size) p)
        (c*(size*byteWidth k)) (size*byteWidth k) i := by
  simp only [rValues,if_true,packedHalves]
  rw [Net.random_advance_of_ne _ (by decide)]
  rcases (by omega : c = 0 ∨ c = 1) with rfl | rfl
  · simp only [Nat.zero_mul,Nat.zero_add,hi,if_true]
  · simp only [Nat.one_mul,show ¬ size + i < size by omega,if_false,Nat.add_sub_cancel_left]

theorem rValuesTrunc_share (m size : Nat) (net : Net 3 G) (p : Fin 3) {c i : Nat} (hc : c < 3)
    (hi : i < size) : (rValuesTrunc k m size net p 1 p (c*size + i) : Lint L) =
      memcpyArray (fun _ => 0) (net.random 1 (byteWidth k) (3*size) p)
        (c*(size*byteWidth k)) (size*byteWidth k) i := by
  simp only [rValuesTrunc,if_true,packedThirds]
  rw [Net.random_advance_of_ne _ (by decide)]
  rcases (by omega : c = 0 ∨ c = 1 ∨ c = 2) with rfl | rfl | rfl
  · simp only [Nat.zero_mul,Nat.zero_add,hi,if_true]
  · simp only [Nat.one_mul,show ¬ size + i < size by omega,show size + i < 2*size by omega,
      if_false,if_true,Nat.add_sub_cancel_left]
  · simp only [show ¬ 2*size + i < size by omega,show ¬ 2*size + i < 2*size by omega,
      if_false,Nat.add_sub_cancel_left]

/-- What a dealer draws in either routine reaches all vectors of words and of shares
that mask these exactly where the words are as wide as the ring, or there is one. -/
theorem dealing_onto_iff (hk : k ≤ 8*L) (size m : Nat) :
    (DrawsOnto L k size (2*size) (edaBitsOwn k size) (fun net p => rValues k size net p 1 p) ↔
      k = 0 ∨ Packed L k size) ∧
    (DrawsOnto L k size (3*size) (truncBitsOwn k size)
      (fun net p => rValuesTrunc k m size net p 1 p) ↔ k = 0 ∨ Packed L k size) := by
  have hcase : ¬ (k = 0 ∨ Packed L k size) → 0 < k ∧ ¬ Packed L k size := by
    intro h
    exact ⟨Nat.pos_of_ne_zero fun h₀ => h (Or.inl h₀),fun hp => h (Or.inr hp)⟩
  refine ⟨⟨fun honto => ?_,fun hpacked => ?_⟩,⟨fun honto => ?_,fun hpacked => ?_⟩⟩
  · by_contra h
    exact not_drawsOnto (hcase h).1 hk (hcase h).2 (fun _ _ _ _ hj => hj) honto
  · exact drawsOnto hk hpacked (fun _ _ _ => rfl)
      fun net p c i hc hi => rValues_share size net p hc hi
  · by_contra h
    refine not_drawsOnto (hcase h).1 hk (hcase h).2 (fun _ _ _ j hj => ?_) honto
    rw [truncBitsOwn,BitVec.getLsbD_and,hj,Bool.false_and]
  · exact drawsOnto hk hpacked (fun net p i => setWidth_truncBitsOwn size net p i)
      fun net p c i hc hi => rValuesTrunc_share m size net p hc hi

theorem dealing_onto_word :
    (DrawsOnto 4 30 5 10 (edaBitsOwn 30 5) (fun net p => rValues 30 5 net p 1 p) ↔
      30 = 0 ∨ Packed 4 30 5) ∧
    (DrawsOnto 4 30 5 15 (truncBitsOwn 30 5) (fun net p => rValuesTrunc 30 3 5 net p 1 p) ↔
      30 = 0 ∨ Packed 4 30 5) :=
  dealing_onto_iff (by decide) 5 3

/-- Two words of eight bits: both bytes go into the first word. -/
theorem dealing_not_onto :
    ¬ DrawsOnto 4 8 2 4 (edaBitsOwn 8 2) (fun net p => rValues 8 2 net p 1 p) ∧
    ¬ DrawsOnto 4 8 2 6 (truncBitsOwn 8 2) (fun net p => rValuesTrunc 8 1 2 net p 1 p) := by
  have hpacked : ¬ Packed 4 8 2 := by simp [Packed,byteWidth_eq]
  refine ⟨not_drawsOnto (by decide) (by decide) hpacked fun _ _ _ _ hj => hj,
    not_drawsOnto (by decide) (by decide) hpacked fun _ _ _ j hj => ?_⟩
  rw [truncBitsOwn,BitVec.getLsbD_and,hj,Bool.false_and]

end RssRing
