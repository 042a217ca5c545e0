import RssRing.ProtocolsBasic.Open
set_option autoImplicit false
set_option maxRecDepth 8000

namespace RssRing
open Replicated Tally Finset

variable {G : Type} [Generator G] {L n k : Nat}

structure MultPubTable (n : Nat) where
  numShares : Nat
  gamma : Nat → List Nat
  prgCtrs : Fin n → List Nat
  ops : Fin n → List Int

namespace MultPubTable
variable (tab : MultPubTable n)

/-- The loop with `sign_index`: slot `j` comes `prg_ctrs[j]` times, and each time
takes the next entry of `ops`. -/
def signed (p : Fin n) : List (Nat × Int) :=
  ((List.range tab.numShares).flatMap fun j =>
    List.replicate ((tab.prgCtrs p).getD j 0) j).zip (tab.ops p)

/-- `v_a[j]`: the bytes of all elements copied in one piece over a fresh array
that held `old`. -/
def scratch (ring_size size : Nat) (net : Net n G) (old : Shares n (Lint L)) : Shares n (Lint L) :=
  fun p j => memcpyArray (old p j) (net.random j (byteWidth ring_size) size p) 0
    (byteWidth ring_size*size)

def partySum (v_a a b : Shares n (Lint L)) (ring_size : Nat) (p : Fin n) (i : Nat) : Lint L :=
  (tab.signed p).foldl (fun acc q => acc + BitVec.ofInt (8*L) q.2 * v_a p q.1 i)
    (productMp (arithKind L ring_size) tab.numShares tab.gamma (fun s => a p s i)
      (fun s => b p s i))

/-- The common body of the public multiplications among five and seven parties. -/
def multPub (old a b : Shares n (Lint L)) (size ring_size : Nat) (net : Net n G) :
    (Fin n → Nat → Lint L) × Net n G :=
  let c := tab.partySum (scratch ring_size size net old) a b ring_size
  let recvBuf := fun p q i => if q = p then 0 else received ring_size (c q i)
  (fun p i => masked ring_size ((List.finRange n).foldl (fun acc q => acc + recvBuf p q i) (c p i)),
    net.advanceAll tab.numShares (byteWidth ring_size) fun _ => size)

theorem foldl_add_setWidth (hk : k ≤ 8*L) {A : Type} (l : List A) (f : A → Lint L) (x : Lint L) :
    (l.foldl (fun acc q => acc + f q) x).setWidth k =
      x.setWidth k + (l.map fun q => (f q).setWidth k).sum := by
  induction l generalizing x with
  | nil => simp
  | cons q l ih =>
    rw [List.foldl_cons,ih,BitVec.setWidth_add _ _ hk,List.map_cons,List.sum_cons,add_assoc]

theorem sign_mul_setWidth (hk : k ≤ 8*L) {z : Int} (hz : z = 1 ∨ z = -1) (x : Lint L) :
    (BitVec.ofInt (8*L) z * x).setWidth k = z • x.setWidth k := by
  rcases hz with rfl | rfl
  · have hone : BitVec.ofInt (8*L) 1 * x = x := one_mul x
    rw [hone,one_smul]
  · have hneg : BitVec.ofInt (8*L) (-1) * x = -x := by
      rw [BitVec.ofInt_neg]
      exact neg_one_mul x
    rw [hneg,BitVec.setWidth_neg_of_le hk,neg_one_smul]

/-- What the tables have to say for the masks of a public multiplication to cancel. -/
structure Cancels (H : Pattern (Fin n) (Finset (Fin n))) : Prop where
  slots : tab.numShares = H.slots
  lt : ∀ p, ∀ q ∈ tab.signed p, q.1 < H.slots
  sign : ∀ p, ∀ q ∈ tab.signed p, q.2 = 1 ∨ q.2 = -1
  signs : ∀ T ∈ H.names,
    ∑ p, ((tab.signed p).map fun q => if H.hold p q.1 = T then q.2 else 0).sum = 0

def entries (H : Pattern (Fin n) (Finset (Fin n))) (ε : Int) : List (Finset (Fin n)) :=
  (List.finRange n).flatMap fun p =>
    ((tab.signed p).filter fun q => q.2 = ε).map fun q => H.hold p q.1

section
variable {tab : MultPubTable n}

theorem sum_list_signed {T : Type} [DecidableEq T] (f : Nat → T) (t : T) (l : List (Nat × Int))
    (hsign : ∀ q ∈ l, q.2 = 1 ∨ q.2 = -1) :
    (l.map fun q => if f q.1 = t then q.2 else 0).sum =
      (((l.filter fun q => q.2 = 1).map fun q => f q.1).count t : Int) -
        ((l.filter fun q => q.2 = -1).map fun q => f q.1).count t := by
  induction l with
  | nil => rfl
  | cons q l ih =>
    have hl := ih fun q' hq' => hsign q' (List.mem_cons_of_mem q hq')
    rw [List.map_cons,List.sum_cons,hl]
    rcases hsign q List.mem_cons_self with hq | hq
    · by_cases ht : f q.1 = t <;> simp [hq,ht]
      ring
    · by_cases ht : f q.1 = t <;> simp [hq,ht]
      ring

theorem sum_signed_eq {H : Pattern (Fin n) (Finset (Fin n))}
    (hsign : ∀ p, ∀ q ∈ tab.signed p, q.2 = 1 ∨ q.2 = -1) (T : Finset (Fin n)) :
    ∑ p, ((tab.signed p).map fun q => if H.hold p q.1 = T then q.2 else 0).sum =
      ((tab.entries H 1).count T : Int) - (tab.entries H (-1)).count T := by
  simp only [sum_list_signed (H.hold _) T _ (hsign _),Finset.sum_sub_distrib,Fin.sum_univ_def,
    entries,List.count_flatMap,Nat.cast_list_sum,List.map_map,Function.comp_def]

theorem partySum_val (hk : k ≤ 8*L) (hsign : ∀ p, ∀ q ∈ tab.signed p, q.2 = 1 ∨ q.2 = -1)
    (v_a a b : Shares n (Lint L)) (p : Fin n) (i : Nat) :
    (tab.partySum v_a a b k p i).setWidth k =
      ((slotPairs tab.numShares tab.gamma).map fun q =>
        (a p q.1 i).setWidth k * (b p q.2 i).setWidth k).sum +
      ((tab.signed p).map fun q => q.2 • (v_a p q.1 i).setWidth k).sum := by
  have hsigned : (tab.signed p).map (fun q => (BitVec.ofInt (8*L) q.2 * v_a p q.1 i).setWidth k) =
      (tab.signed p).map (fun q => q.2 • (v_a p q.1 i).setWidth k) := by
    apply List.map_congr_left
    intro q hq
    exact sign_mul_setWidth hk (hsign p q hq) _
  rw [partySum,foldl_add_setWidth hk,hsigned]
  congr 1
  exact productMp_val (arithReading hk) _ _ _ _

theorem multPub_eq_iff (hk : k ≤ 8*L) (old a b : Shares n (Lint L)) (size : Nat) (net : Net n G)
    (p : Fin n) (i : Nat) (v : BitVec k) :
    (tab.multPub old a b size k net).1 p i = v.setWidth (8*L) ↔
      ∑ q, (tab.partySum (scratch k size net old) a b k q i).setWidth k = v := by
  have hrecv : ∀ x : Lint L, (received k x).setWidth k = x.setWidth k := (arithReading hk).recv
  refine (masked_eq_iff hk _ v).trans ?_
  rw [foldl_add_setWidth hk,← Fin.sum_univ_def]
  have hother : ∀ q, (if q = p then (0 : Lint L)
      else received k (tab.partySum (scratch k size net old) a b k q i)).setWidth k =
      if q = p then 0 else (tab.partySum (scratch k size net old) a b k q i).setWidth k := by
    intro q
    by_cases hq : q = p <;> simp [hq,hrecv]
  simp only [hother]
  have hall : ∀ f : Fin n → BitVec k,
      f p + ∑ q, (if q = p then 0 else f q) = ∑ q, f q := by
    intro f
    rw [← Finset.add_sum_erase univ f (Finset.mem_univ p),
      ← Finset.add_sum_erase univ (fun q => if q = p then 0 else f q) (Finset.mem_univ p),
      if_pos rfl,zero_add]
    congr 1
    refine Finset.sum_congr rfl (fun q hq => ?_)
    rw [if_neg (Finset.ne_of_mem_erase hq)]
  rw [hall fun q => (tab.partySum (scratch k size net old) a b k q i).setWidth k]

variable {H : Pattern (Fin n) (Finset (Fin n))}

theorem getLsbD_scratch (size : Nat) (net : Net n G) (old : Shares n (Lint L)) (p : Fin n)
    (j i m : Nat) (hm : m < 8*L) : (scratch k size net old p j i).getLsbD m =
      if i*L + m/8 < byteWidth k*size then
        (net.random j (byteWidth k) size p (i*L + m/8)).getLsbD (m%8)
      else (old p j i).getLsbD m := by
  rw [scratch,getLsbD_memcpyArray,decide_eq_true hm,Bool.true_and,Nat.zero_add]

/-- An element lies inside the copied bytes of the scratch array. -/
def InRange (L k size i : Nat) : Prop := i*L + byteWidth k ≤ byteWidth k*size

theorem inRange_of {size i : Nat} (hi : i < size) (h : byteWidth k = L ∨ size ≤ 1) :
    InRange L k size i := by
  rw [InRange]
  rcases h with h | h
  · rw [h,← Nat.succ_mul,Nat.mul_comm L]
    exact Nat.mul_le_mul_right L hi
  · have hi0 : i = 0 := by omega
    have hs1 : size = 1 := by omega
    rw [hi0,hs1]; omega

theorem scratch_eq {size : Nat} {net : Net n G} (hnet : H.Consistent net) (hk : k ≤ 8*L)
    (old : Shares n (Lint L)) {i : Nat} (hi : InRange L k size i) {p q : Fin n} {s t : Nat}
    (hs : s < H.slots) (ht : t < H.slots) (hst : H.hold p s = H.hold q t) :
    (scratch k size net old p s i).setWidth k = (scratch k size net old q t i).setWidth k := by
  apply setWidth_ext
  intro m hm
  have hbyte := le_byteWidth k
  have hlt : i*L + m/8 < byteWidth k*size := by
    have hdiv : m/8 < byteWidth k := by rw [Nat.div_lt_iff_lt_mul (by decide)]; omega
    rw [InRange] at hi
    omega
  rw [getLsbD_scratch _ _ _ _ _ _ _ (by omega),getLsbD_scratch _ _ _ _ _ _ _ (by omega),
    if_pos hlt,if_pos hlt,Net.random_eq hnet hs ht hst]

theorem multPub_eq_of_inRange (hC : tab.Cancels H) [NeZero n] {m : Nat} (ω : Rotation H m)
    (hpairs : ∀ q ∈ slotPairs tab.numShares tab.gamma, q.1 < H.slots ∧ q.2 < H.slots)
    (hcount : ∀ x, (slotPairs tab.numShares tab.gamma).countP (fun q => ω.key q = x) = 1)
    (hk : k ≤ 8*L) {size : Nat} {net : Net n G} (hnet : H.Consistent net)
    (old a b : Shares n (Lint L)) {i : Nat} (hi : InRange L k size i) {x y : BitVec k}
    (ha : ArithSharing H k a i x) (hb : ArithSharing H k b i y) (p : Fin n) :
    (tab.multPub old a b size k net).1 p i = (x*y).setWidth (8*L) := by
  obtain ⟨α,hα,rfl⟩ := ha
  obtain ⟨β,hβ,rfl⟩ := hb
  have hscratch : H.Consistent (fun p s => (scratch k size net old p s i).setWidth k) := by
    intro p s q t hs ht hst
    exact scratch_eq hnet hk old hi hs ht hst
  obtain ⟨μ,hμ⟩ := hscratch.exists_holds
  rw [multPub_eq_iff hk,← ω.sum_cross (slotPairs tab.numShares tab.gamma) hpairs hcount α β]
  simp only [partySum_val hk hC.sign,Finset.sum_add_distrib]
  have hzero := Pattern.sum_signed tab.signed hC.lt hC.signs μ
  have hmask : ∀ p, ((tab.signed p).map fun q =>
      q.2 • (scratch k size net old p q.1 i).setWidth k) =
      (tab.signed p).map fun q => q.2 • μ (H.hold p q.1) := by
    intro p
    apply List.map_congr_left
    intro q hq
    exact congrArg (fun z => q.2 • z) (hμ p q.1 (hC.lt p q hq))
  have hprod : ∀ p, ((slotPairs tab.numShares tab.gamma).map fun q =>
      (a p q.1 i).setWidth k * (b p q.2 i).setWidth k) =
      (slotPairs tab.numShares tab.gamma).map fun q => α (H.hold p q.1) * β (H.hold p q.2) := by
    intro p
    apply List.map_congr_left
    intro q hq
    obtain ⟨h₁,h₂⟩ := hpairs q hq
    exact congrArg₂ (fun u v => u * v) (hα p q.1 h₁) (hβ p q.2 h₂)
  simp only [hmask,hprod,hzero,add_zero]

theorem eq_of_sum_eq {f g : Fin n → BitVec k} (h : ∑ q, f q = ∑ q, g q) {p : Fin n}
    (hne : ∀ q, q ≠ p → f q = g q) : f p = g p := by
  rw [← Finset.add_sum_erase univ f (Finset.mem_univ p),
    ← Finset.add_sum_erase univ g (Finset.mem_univ p),
    Finset.sum_congr rfl fun q hq => hne q (Finset.ne_of_mem_erase hq)] at h
  exact add_right_cancel h

theorem partySum_congr (hk : k ≤ 8*L) (hsign : ∀ p, ∀ q ∈ tab.signed p, q.2 = 1 ∨ q.2 = -1)
    {v_a v_a' : Shares n (Lint L)} {p : Fin n} {i : Nat}
    (h : ∀ q ∈ tab.signed p, v_a p q.1 i = v_a' p q.1 i) (a b : Shares n (Lint L)) :
    (tab.partySum v_a a b k p i).setWidth k = (tab.partySum v_a' a b k p i).setWidth k := by
  rw [partySum_val hk hsign,partySum_val hk hsign]
  congr 2
  refine List.map_congr_left fun q hq => ?_
  rw [h q hq]

/-- Past the copied bytes the top byte of the last element is what the fresh
array held, and one party of a stream used once does not cancel it. -/
theorem inRange_of_multPub (hsign : ∀ p, ∀ q ∈ tab.signed p, q.2 = 1 ∨ q.2 = -1) (p₀ : Fin n)
    {rest : List (Nat × Int)} (hrest : tab.signed p₀ = (0,1)::rest) (hne : ∀ q ∈ rest, q.1 ≠ 0)
    (hk₀ : 0 < k) (hk : k ≤ 8*L) {size : Nat} (net : Net n G) (a b : Shares n (Lint L))
    {v : Nat → BitVec k} (h : ∀ old : Shares n (Lint L), ∀ p i, i < size →
      (tab.multPub old a b size k net).1 p i = (v i).setWidth (8*L)) :
    byteWidth k = L ∨ size ≤ 1 := by
  by_contra hcon
  obtain ⟨hbytes,hsize⟩ := not_or.mp hcon
  have hle := byteWidth_le hk
  have hw := byteWidth_eq k
  let d := 8*(byteWidth k - 1)
  have hd : d < k := by simp only [d]; omega
  have hout : ¬ (size-1)*L + d/8 < byteWidth k*size := by
    simp only [d,Nat.mul_div_cancel_left _ (show 0 < 8 by decide)]
    exact last_byte_outside hk₀ hk hbytes hsize
  let old : Bool → Shares n (Lint L) := fun c p j i =>
    if p = p₀ ∧ j = 0 then bitWord L c <<< d else 0
  have hlast : size - 1 < size := by omega
  have hsum := fun c => (multPub_eq_iff hk (old c) a b size net p₀ (size-1) (v (size-1))).mp
    (h (old c) p₀ (size-1) hlast)
  have hother : ∀ q, ∀ r ∈ tab.signed q, ¬ (q = p₀ ∧ r.1 = 0) →
      scratch k size net (old true) q r.1 (size-1) = scratch k size net (old false) q r.1 (size-1) := by
    intro q r _ hr
    apply BitVec.eq_of_getLsbD_eq
    intro m hm
    rw [getLsbD_scratch _ _ _ _ _ _ _ hm,getLsbD_scratch _ _ _ _ _ _ _ hm]
    simp only [old,if_neg hr]
  have hsame : (tab.partySum (scratch k size net (old true)) a b k p₀ (size-1)).setWidth k =
      (tab.partySum (scratch k size net (old false)) a b k p₀ (size-1)).setWidth k :=
    eq_of_sum_eq ((hsum true).trans (hsum false).symm) fun q hq =>
      partySum_congr hk hsign (fun r hr => hother q r hr fun hc => hq hc.1) a b
  rw [partySum_val hk hsign,partySum_val hk hsign,hrest] at hsame
  have htail : rest.map (fun q =>
      q.2 • (scratch k size net (old true) p₀ q.1 (size-1)).setWidth k) =
      rest.map (fun q => q.2 • (scratch k size net (old false) p₀ q.1 (size-1)).setWidth k) := by
    apply List.map_congr_left
    intro r hr
    rw [hother p₀ r (hrest ▸ List.mem_cons_of_mem _ hr) (fun hc => hne r hr hc.2)]
  simp only [List.map_cons,List.sum_cons,htail,one_smul] at hsame
  have hword := add_right_cancel (add_left_cancel hsame)
  have hbit := congrArg (fun x => x.getLsbD d) hword
  have hd8 : d < 8*L := by omega
  simp only [BitVec.getLsbD_setWidth,hd,decide_true,Bool.true_and] at hbit
  rw [getLsbD_scratch _ _ _ _ _ _ _ hd8,getLsbD_scratch _ _ _ _ _ _ _ hd8,if_neg hout,
    if_neg hout] at hbit
  have hL : 0 < L := by omega
  simp [old,hd8,hL,-BitVec.getLsbD_eq_getElem] at hbit

end

end MultPubTable

def multPubTable5pc : MultPubTable 5 where
  numShares := 6
  gamma := gamma5pc
  prgCtrs := fun
    | 0 | 1 => [1,1,1,1,1,1]
    | 2 => [2,1,1,1,1,1]
    | 3 => [2,2,2,1,1,1]
    | 4 => [2,2,2,2,2,2]
  ops := fun
    | 0 | 1 => [1,1,1,1,1,1]
    | 2 => [-1,-1,1,1,1,1,1]
    | 3 => [-1,-1,-1,-1,-1,-1,1,1,1]
    | 4 => [-1,-1,-1,-1,-1,-1,-1,-1,-1,-1,-1,-1]

def multPubTable7pc : MultPubTable 7 where
  numShares := 20
  gamma := gamma7pc
  prgCtrs := fun
    | 0 | 1 | 2 => List.replicate 20 1
    | 3 => [3] ++ List.replicate 19 1
    | 4 => List.replicate 4 3 ++ List.replicate 16 1
    | 5 => List.replicate 10 3 ++ List.replicate 10 1
    | 6 => List.replicate 20 3
  ops := fun
    | 0 | 1 | 2 => List.replicate 20 1
    | 3 => List.replicate 3 (-1) ++ List.replicate 19 1
    | 4 => List.replicate 12 (-1) ++ List.replicate 16 1
    | 5 => List.replicate 30 (-1) ++ List.replicate 10 1
    | 6 => List.replicate 60 (-1)

theorem multPubTable5pc_cancels : multPubTable5pc.Cancels shares5pc where
  slots := rfl
  lt := by decide
  sign := by decide
  signs := by decide

theorem entries7pc_eq : (multPubTable7pc.entries shares7pc 1 : Multiset (Finset (Fin 7))) =
    (multPubTable7pc.entries shares7pc (-1) : Multiset (Finset (Fin 7))) :=
  eq_of_tally maskOf_injective (b := 1024) (by decide) (by decide)
    (by decide)

theorem multPubTable7pc_cancels : multPubTable7pc.Cancels shares7pc where
  slots := rfl
  lt := by decide
  sign := by decide
  signs T _ := by
    rw [MultPubTable.sum_signed_eq (by decide),← Multiset.coe_count,← Multiset.coe_count,entries7pc_eq,
      sub_self]

def rssMultPubMp (old a b : Shares 5 (Lint L)) (size ring_size : Nat) (net : Net 5 G) :=
  multPubTable5pc.multPub old a b size ring_size net

def rssMultPub7pc (old a b : Shares 7 (Lint L)) (size ring_size : Nat) (net : Net 7 G) :=
  multPubTable7pc.multPub old a b size ring_size net

/-- On whatever the scratch arrays hold, the public multiplications are right
exactly where packed bytes and words are the same thing or there is one element. -/
theorem multPub_eq_iff_packed (hk₀ : 0 < k) (hk : k ≤ 8*L) (size : Nat) {net₅ : Net 5 G}
    (hnet₅ : shares5pc.Consistent net₅) {a₅ b₅ : Shares 5 (Lint L)} {net₇ : Net 7 G}
    (hnet₇ : shares7pc.Consistent net₇) {a₇ b₇ : Shares 7 (Lint L)} {x y : Nat → BitVec k}
    (ha₅ : ∀ i, i < size → ArithSharing shares5pc k a₅ i (x i))
    (hb₅ : ∀ i, i < size → ArithSharing shares5pc k b₅ i (y i))
    (ha₇ : ∀ i, i < size → ArithSharing shares7pc k a₇ i (x i))
    (hb₇ : ∀ i, i < size → ArithSharing shares7pc k b₇ i (y i)) :
    ((∀ old p i, i < size →
      (rssMultPubMp old a₅ b₅ size k net₅).1 p i = (x i*y i).setWidth (8*L)) ↔
      byteWidth k = L ∨ size ≤ 1) ∧
    ((∀ old p i, i < size →
      (rssMultPub7pc old a₇ b₇ size k net₇).1 p i = (x i*y i).setWidth (8*L)) ↔
      byteWidth k = L ∨ size ≤ 1) := by
  constructor
  · constructor
    · exact MultPubTable.inRange_of_multPub multPubTable5pc_cancels.sign 0 rfl
        (by decide) hk₀ hk net₅ a₅ b₅
    · intro h old p i hi
      exact MultPubTable.multPub_eq_of_inRange multPubTable5pc_cancels rotation5pc pairs5pc_lt
        pairs5pc_once hk hnet₅ old a₅ b₅ (MultPubTable.inRange_of hi h) (ha₅ i hi) (hb₅ i hi) p
  · constructor
    · exact MultPubTable.inRange_of_multPub multPubTable7pc_cancels.sign 0 rfl
        (by decide) hk₀ hk net₇ a₇ b₇
    · intro h old p i hi
      exact MultPubTable.multPub_eq_of_inRange multPubTable7pc_cancels rotation7pc pairs7pc_lt
        pairs7pc_once hk hnet₇ old a₇ b₇ (MultPubTable.inRange_of hi h) (ha₇ i hi) (hb₇ i hi) p

theorem multPub_packed_word :
    (rssMultPubMp (L := 4) (fun _ _ _ => 9) (fun _ _ _ => 1) (fun _ _ _ => 2) 2 32
      (fun _ _ => (⟨fun i => BitVec.ofNat 8 (3*i+1)⟩ : Tape))).1 3 1 =
    ((10 : BitVec 32)*20).setWidth 32 := by
  have hnet₇ : shares7pc.Consistent (fun _ _ => (⟨fun _ => 0⟩ : Tape)) :=
    fun _ _ _ _ _ _ _ => rfl
  have ha₇ : ∀ i, i < 2 → ArithSharing shares7pc 32 (fun _ _ _ => (1840700270 : Lint 4)) i 10 :=
    fun _ _ => ⟨fun _ => 1840700270,fun _ _ _ => rfl,by simp⟩
  have hb₇ : ∀ i, i < 2 → ArithSharing shares7pc 32 (fun _ _ _ => (3681400540 : Lint 4)) i 20 :=
    fun _ _ => ⟨fun _ => 3681400540,fun _ _ _ => rfl,by simp⟩
  refine (multPub_eq_iff_packed (by decide) (by decide) 2 ?_ hnet₇ ?_ ?_ ha₇ hb₇).1.mpr (.inl rfl)
    _ 3 1 (by decide)
  · exact fun _ _ _ _ _ _ _ => rfl
  · exact fun _ _ => ⟨fun _ => 1,fun _ _ _ => rfl,by simp⟩
  · exact fun _ _ => ⟨fun _ => 2,fun _ _ _ => rfl,by simp⟩

/-- All shares and streams zero, two elements modulo `2^8`, and a scratch word
of party 1 that happened to hold 1: the second product comes out as 1. -/
theorem rssMultPubMp_uninitialised :
    (rssMultPubMp (L := 4) (fun p j _ => if p = 0 ∧ j = 0 then 1 else 0) (fun _ _ _ => 0)
      (fun _ _ _ => 0) 2 8 (fun _ _ => (⟨fun _ => 0⟩ : Tape))).1 0 1 = 1 ∧
    ((0 : BitVec 8)*0).setWidth 32 ≠ (1 : Lint 4) := by
  decide

end RssRing
