import RssRing.ProtocolsComposite.MSB
set_option autoImplicit false

namespace RssRing
open Replicated

variable {L k n : Nat} {G : Type}

/-- A copy of `count` elements into slot `s`, from `off` on, at all parties. What leaves an array
of `length` elements has no result. -/
def writeSlot {W : Type} (length off count s : Nat) (x : Fin n → Nat → W) (old : Shares n W) :
    Option (Shares n W) :=
  if off + count ≤ length then some fun p t i =>
    if t = s ∧ off ≤ i ∧ i < off + count then x p (i - off) else old p t i
  else none

def turns (size : Nat) : List (Nat × Nat) :=
  (List.range size).flatMap fun i => (List.range 2).map fun s => (i,s)

def storeSlots (length size : Nat) (x old : Shares 3 (Lint L)) : Option (Shares 3 (Lint L)) :=
  (turns size).foldlM
    (fun old t => writeSlot length t.1 1 t.2 (fun p _ => x p t.2 t.1) old) old

/-- A turn of the copies of the lower and the upper half of `r` into `a` and `b`. -/
def orTurn (r : Shares 3 (Lint L)) (ring_size : Nat) (ab : Shares 3 Byte × Shares 3 Byte)
    (t : Nat × Nat) : Option (Shares 3 Byte × Shares 3 Byte) := do
  let r_size := ring_size >>> 1
  let n_uints := (ring_size + 7) >>> 3
  let originial_num := (r_size + 7) >>> 3
  let msk := ((1 : Lint L) <<< r_size) - 1
  let temp1 := fun p => r p t.2 t.1 &&& msk
  let temp2 := fun p => r p t.2 t.1 &&& (msk <<< r_size)
  let a ← writeSlot originial_num (t.1*n_uints) n_uints t.2 (fun p => byteOf (temp1 p)) ab.1
  let b ← writeSlot originial_num (t.1*n_uints) n_uints t.2 (fun p => byteOf (temp2 p)) ab.2
  some (a,b)

def rssKOrL (res r : Shares 3 (Lint L)) (size ring_size : Nat) : Option (Shares 3 (Lint L)) := do
  let r ← storeSlots size size (fun p s i => r p s i &&& shift L ring_size) r
  let _ ← (turns size).foldlM (orTurn r ring_size) (fun _ _ _ => 0,fun _ _ _ => 0)
  some res

/-- What `Rss_EQZ` leaves in `res`. The arrays `rprime` and `sum` are not cleared, and one loop
of the source fills both. -/
def rssEqz (edaBit : Nat → Nat → Net 3 G → EdaBits 3 L G) (rprime sum res a : Shares 3 (Lint L))
    (size ring_size : Nat) (net : Net 3 G) : Option (Shares 3 (Lint L) × Net 3 G) := do
  let eda := edaBit size ring_size net
  let rprime ← storeSlots size size (fun p s i =>
    eda.r p s i - (getBit (eda.b_2 p s i) (ring_size-1) <<< ring_size)) rprime
  let sum ← storeSlots size size (fun p s i => a p s i + rprime p s i) sum
  let c := rssOpen sum ring_size
  let rprime ← storeSlots size size (fun p s i =>
    (c p i &&& if a12 p s then -1 else 0) ^^^ eda.b_2 p s i) rprime
  let res ← rssKOrL res rprime size ring_size
  some (res,eda.net)

theorem writeSlot_isSome {W : Type} {length off count s : Nat} {x : Fin n → Nat → W}
    {old : Shares n W} : (writeSlot length off count s x old).isSome ↔ off + count ≤ length := by
  rw [writeSlot]
  split
  · simp [*]
  · simp [*]

theorem mem_turns {size i s : Nat} : (i,s) ∈ turns size ↔ i < size ∧ s < 2 := by
  simp [turns]

theorem exists_storeSlots {length size : Nat} (h : size ≤ length) (x old : Shares 3 (Lint L)) :
    ∃ out, storeSlots length size x old = some out := by
  refine Option.isSome_iff_exists.mp ?_
  refine (Loops.foldlM_isSome_iff (P := fun t : Nat × Nat => t.1 + 1 ≤ length)
    (fun _ _ => writeSlot_isSome) _ _).mpr fun t ht => ?_
  exact Nat.le_trans (mem_turns.mp ht).1 h

/-- The copies take `n_uints` bytes for an element, from arrays that have room for one half of
an element. -/
theorem orTurns_isSome_iff (hk : 2 ≤ k) (size : Nat) (r : Shares 3 (Lint L))
    (ab : Shares 3 Byte × Shares 3 Byte) :
    ((turns size).foldlM (orTurn r k) ab).isSome ↔ size = 0 ∨ size = 1 ∧ k ≤ 8 := by
  have hn : (k + 7) >>> 3 = (k + 7)/8 := Nat.shiftRight_eq_div_pow _ 3
  have ho : (k >>> 1 + 7) >>> 3 = (k/2 + 7)/8 := by
    rw [Nat.shiftRight_eq_div_pow,Nat.shiftRight_eq_div_pow]
  have hturn : ∀ (ab : Shares 3 Byte × Shares 3 Byte) (t : Nat × Nat),
      (orTurn r k ab t).isSome ↔ t.1*((k + 7)/8) + (k + 7)/8 ≤ (k/2 + 7)/8 := by
    intro ab t
    by_cases hfit : t.1*((k + 7)/8) + (k + 7)/8 ≤ (k/2 + 7)/8
    · simp [orTurn,writeSlot,hn,ho,hfit]
    · simp [orTurn,writeSlot,hn,ho,hfit]
  rw [Loops.foldlM_isSome_iff hturn]
  constructor
  · intro h
    by_cases hsize : size = 0
    · exact Or.inl hsize
    have hfirst := h (0,0) (mem_turns.mpr ⟨by omega,by omega⟩)
    rw [Nat.zero_mul] at hfirst
    refine Or.inr ⟨?_,by omega⟩
    by_contra hmany
    have hsecond := h (1,0) (mem_turns.mpr ⟨by omega,by omega⟩)
    omega
  · rintro hsize ⟨i,s⟩ ht
    have hi := (mem_turns.mp ht).1
    have hzero : i = 0 := by omega
    rw [hzero,Nat.zero_mul]
    omega

theorem rssKOrL_eq (hk : 2 ≤ k) (res r : Shares 3 (Lint L)) (size : Nat) :
    rssKOrL res r size k = if size = 0 ∨ size = 1 ∧ k ≤ 8 then some res else none := by
  obtain ⟨r',hr⟩ := exists_storeSlots (Nat.le_refl size) (fun p s i => r p s i &&& shift L k) r
  have hloop := orTurns_isSome_iff hk size r' (fun _ _ _ => 0,fun _ _ _ => 0)
  rw [rssKOrL,hr]
  by_cases hsize : size = 0 ∨ size = 1 ∧ k ≤ 8
  · obtain ⟨ab,hab⟩ := Option.isSome_iff_exists.mp (hloop.mpr hsize)
    rw [if_pos hsize]
    simp only [Option.bind_eq_bind,Option.bind_some,hab]
  · have hab := Option.not_isSome_iff_eq_none.mp fun h => hsize (hloop.mp h)
    rw [if_neg hsize]
    simp only [Option.bind_eq_bind,Option.bind_some,hab,Option.bind_none]

section Eqz
variable (edaBit : Nat → Nat → Net 3 G → EdaBits 3 L G) (rprime sum : Shares 3 (Lint L))
  {size : Nat} (net : Net 3 G)

theorem rssEqz_eq (hk : 2 ≤ k) (res a : Shares 3 (Lint L)) :
    rssEqz edaBit rprime sum res a size k net =
      if size = 0 ∨ size = 1 ∧ k ≤ 8 then some (res,(edaBit size k net).net) else none := by
  let eda := edaBit size k net
  obtain ⟨first,hfirst⟩ := exists_storeSlots (Nat.le_refl size) (fun p s i =>
    eda.r p s i - (getBit (eda.b_2 p s i) (k-1) <<< k)) rprime
  obtain ⟨masked,hmasked⟩ := exists_storeSlots (Nat.le_refl size)
    (fun p s i => a p s i + first p s i) sum
  obtain ⟨second,hsecond⟩ := exists_storeSlots (Nat.le_refl size) (fun p s i =>
    (rssOpen masked k p i &&& if a12 p s then -1 else 0) ^^^ eda.b_2 p s i) first
  simp only [rssEqz,Option.bind_eq_bind]
  rw [hfirst,Option.bind_some,hmasked,Option.bind_some,hsecond,Option.bind_some,rssKOrL_eq hk]
  by_cases hsize : size = 0 ∨ size = 1 ∧ k ≤ 8
  · rw [if_pos hsize,if_pos hsize]
    rfl
  · rw [if_neg hsize,if_neg hsize]
    rfl

/-- All writes are in their arrays, and opening the result tells at every party which elements
are zero. -/
def EqzRight (edaBit : Nat → Nat → Net 3 G → EdaBits 3 L G) (rprime sum res a : Shares 3 (Lint L))
    (size k : Nat) (net : Net 3 G) (A : Nat → BitVec k) : Prop :=
  ∃ out, rssEqz edaBit rprime sum res a size k net = some out ∧
    ∀ p i, i < size → rssOpen out.1 k p i = if A i = 0 then 1 else 0

theorem eqzRight_iff (hk : 2 ≤ k) (res a : Shares 3 (Lint L)) (A : Nat → BitVec k) :
    EqzRight edaBit rprime sum res a size k net A ↔ size = 0 ∨
      size = 1 ∧ k ≤ 8 ∧ ∀ p, rssOpen res k p 0 = if A 0 = 0 then 1 else 0 := by
  rw [EqzRight,rssEqz_eq edaBit rprime sum net hk]
  constructor
  · rintro ⟨out,hout,hopen⟩
    by_cases hsize : size = 0 ∨ size = 1 ∧ k ≤ 8
    · rw [if_pos hsize] at hout
      obtain rfl := Option.some.inj hout
      exact hsize.imp_right fun ⟨hone,hle⟩ => ⟨hone,hle,fun p => hopen p 0 (by omega)⟩
    · rw [if_neg hsize] at hout
      cases hout
  · rintro (hsize | ⟨hsize,hle,hopen⟩)
    · exact ⟨_,if_pos (Or.inl hsize),fun p i hi => by omega⟩
    · refine ⟨_,if_pos (Or.inr ⟨hsize,hle⟩),fun p i hi => ?_⟩
      have hi : i = 0 := by omega
      rw [hi]
      exact hopen p

end Eqz

/-- The test for zero is right for vectors of no elements; else only for a single element of at
most eight bits, and where the result arrays held the answer before. -/
theorem rssEqz_iff (hk : 2 ≤ k) (hkL : k ≤ 8*L)
    (edaBit : Nat → Nat → Net 3 G → EdaBits 3 L G) (rprime sum : Shares 3 (Lint L)) (size : Nat)
    (net : Net 3 G) :
    ((∀ (A : Nat → BitVec k) (res a : Shares 3 (Lint L)),
      (∀ i, i < size → ArithSharing shares3pc k a i (A i)) →
        EqzRight edaBit rprime sum res a size k net A) ↔ size = 0) ∧
    ∀ (A : Nat → BitVec k) (res a : Shares 3 (Lint L)),
      (EqzRight edaBit rprime sum res a size k net A ↔ size = 0 ∨
        size = 1 ∧ k ≤ 8 ∧ ∀ p, rssOpen res k p 0 = if A 0 = 0 then 1 else 0) := by
  refine ⟨⟨fun h => ?_,fun hsize A res a _ => ?_⟩,
    fun A res a => eqzRight_iff edaBit rprime sum net hk res a A⟩
  · have hzero : ∀ i, ArithSharing (L := L) shares3pc k (fun _ _ _ => 0) i 0 :=
      fun _ => Pattern.isSharing_zero.congr fun _ _ _ => map_zero (lowBits hkL)
    have hright := h (fun _ => 0) (fun _ _ _ => 0) (fun _ _ _ => 0) fun i _ => hzero i
    rcases (eqzRight_iff edaBit rprime sum net hk _ _ _).mp hright with hsize | ⟨-,-,hopen⟩
    · exact hsize
    · have hopened := (hopen 0).symm.trans (rssOpen_eq hkL (hzero 0) 0)
      rw [if_pos rfl] at hopened
      exact absurd (hopened.trans (BitVec.setWidth_zero (8*L) k)) (one_ne_zero_of_pos (by omega))
  · exact (eqzRight_iff edaBit rprime sum net hk res a A).mpr (Or.inl hsize)

theorem rssEqz_iff_held :
    let net : Net 3 Tape := fun _ _ => ⟨fun i => BitVec.ofNat 8 (3*i+1)⟩
    let old : Shares 3 (Lint 4) := fun _ _ _ => 7
    let res : Shares 3 (Lint 4) := fun p s _ => bitWord 4 (a12 p s)
    EqzRight (suite3pc old).edaBit old old res (fun _ _ _ => 0) 1 8 net fun _ => 0 := by
  intro net old res
  refine ((rssEqz_iff (k := 8) (by decide) (by decide) _ old old 1 net).2 (fun _ => 0) res
    (fun _ _ _ => 0)).mpr (Or.inr ⟨rfl,by decide,?_⟩)
  decide

/-- For cleared result arrays the test says that zero is not zero, and with two elements it
writes outside of its arrays. -/
theorem rssEqz_zero :
    let net : Net 3 Tape := fun _ _ => ⟨fun i => BitVec.ofNat 8 (3*i+1)⟩
    let old : Shares 3 (Lint 4) := fun _ _ _ => 7
    let zero : Shares 3 (Lint 4) := fun _ _ _ => 0
    (∀ i, ArithSharing shares3pc 8 zero i 0) ∧
      ¬ EqzRight (suite3pc old).edaBit old old zero zero 1 8 net (fun _ => 0) ∧
      rssEqz (suite3pc old).edaBit old old zero zero 2 8 net = none := by
  intro net old zero
  refine ⟨fun _ => ⟨fun _ => 0,fun _ _ _ => rfl,by simp⟩,fun h => ?_,?_⟩
  · rcases (eqzRight_iff _ old old net (by decide) zero zero _).mp h with hsize | ⟨-,-,hopen⟩
    · cases hsize
    · exact absurd (hopen 0) (by decide)
  · rw [rssEqz_eq _ old old net (by decide)]
    exact if_neg (by decide)

end RssRing
