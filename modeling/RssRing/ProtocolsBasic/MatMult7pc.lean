import RssRing.ProtocolsBasic.MatProduct
set_option autoImplicit false

namespace RssRing
open Replicated Finset

variable {G : Type} [Generator G] {L k : Nat}

/-- The array `b_transpose[ss]` of the seven-party product. -/
def bTranspose7pc (n s : Nat) (b : Nat → Lint L) : Nat → Lint L :=
  let entries := (List.range n).flatMap fun i => (List.range s).map fun j => (i + j*s,b (i*n + j))
  entries.foldl (fun b_transpose e => Function.update b_transpose e.1 e.2) fun _ => 0

def batchTerms7pc (m n s batch_size weight_flag_a weight_flag_b : Nat) : Terms :=
  (List.range batch_size).flatMap fun l => (List.range m).flatMap fun i =>
    (List.range s).map fun j => (List.range n).map fun k =>
      (weight_flag_a*l*m*n + i*m + k,weight_flag_b*l*n*s + j*s + k)

/-- Where `b_transpose` is written and read. It has `batch_size * n * s` elements. -/
def bTransposeAccesses7pc (m n s batch_size weight_flag_b : Nat) : List Nat :=
  ((List.range n).flatMap fun i => (List.range s).map fun j => i + j*s) ++
    (batchTerms7pc m n s batch_size 0 weight_flag_b).flatten.map Prod.snd

/-- Each product is assigned to the element, so that the last one stays. -/
def lastProduct (product : (Nat → Lint L) → (Nat → Lint L) → Lint L) (terms : Terms)
    (a b : Nat → Nat → Lint L) (i : Nat) : Lint L :=
  (terms.getD i []).foldl (fun _ t => product (fun s => a s t.1) (fun s => b s t.2)) 0

/-- What is in the result arrays at the end. The masks and the messages are added to
what they held before. -/
def matMultShares7pc (c a b : Shares 7 (Lint L))
    (m n s ring_size batch_size weight_flag_a weight_flag_b : Nat) (net : Net 7 G) :
    Shares 7 (Lint L) :=
  let K := arithKind L ring_size
  let total_size := batch_size*m*s
  let v := fun p => lastProduct (productMp K table7pc.numShares table7pc.gamma)
    (batchTerms7pc m n s batch_size weight_flag_a weight_flag_b) (a p)
    fun t => bTranspose7pc n s (b p t)
  let c' := table7pc.reshare K (fun p => table7pc.maskUses .running p total_size) total_size net c v
  fun p t i => if total_size ≤ i then c p t i else c' p t i

/-- There is no result where an access of `b_transpose` is out of its bounds. -/
def rssMatMultArrayBatch7pc (c a b : Shares 7 (Lint L))
    (m n s ring_size batch_size weight_flag_a weight_flag_b : Nat) (net : Net 7 G) :
    Option (Shares 7 (Lint L) × Net 7 G) :=
  if (bTransposeAccesses7pc m n s batch_size weight_flag_b).all (· < batch_size*n*s) then
    some (matMultShares7pc c a b m n s ring_size batch_size weight_flag_a weight_flag_b net,
      net.advanceAll table7pc.numShares (byteWidth ring_size)
        fun t => table7pc.prgCtrs t*(batch_size*m*s))
  else none

section
variable {m n s batch_size weight_flag_a weight_flag_b : Nat}

theorem getD_batchTerms7pc {l i j : Nat} (hl : l < batch_size) (hi : i < m) (hj : j < s) :
    (batchTerms7pc m n s batch_size weight_flag_a weight_flag_b).getD (l*m*s + i*s + j) [] =
      (List.range n).map fun k =>
        (weight_flag_a*l*m*n + i*m + k,weight_flag_b*l*n*s + j*s + k) :=
  getD_batchLoops _ hl hi hj

theorem lastProduct_empty {product : (Nat → Lint L) → (Nat → Lint L) → Lint L} {terms : Terms}
    (a b : Nat → Nat → Lint L) {i : Nat} {f : Nat → Nat × Nat}
    (hterms : terms.getD i [] = (List.range 0).map f) : lastProduct product terms a b i = 0 := by
  rw [lastProduct,hterms]
  rfl

theorem lastProduct_succ {product : (Nat → Lint L) → (Nat → Lint L) → Lint L} {terms : Terms}
    (a b : Nat → Nat → Lint L) {i x : Nat} {f : Nat → Nat × Nat}
    (hterms : terms.getD i [] = (List.range (x+1)).map f) :
    lastProduct product terms a b i = product (fun s => a s (f x).1) (fun s => b s (f x).2) := by
  rw [lastProduct,hterms,List.range_succ,List.map_append,List.foldl_append]
  rfl

theorem mem_bTransposeAccesses7pc {x : Nat} :
    x ∈ bTransposeAccesses7pc m n s batch_size weight_flag_b ↔
      (∃ i < n, ∃ j < s, x = i + j*s) ∨
      ∃ l < batch_size, 0 < m ∧ ∃ j < s, ∃ k < n, x = weight_flag_b*l*n*s + j*s + k := by
  simp only [bTransposeAccesses7pc,batchTerms7pc,List.mem_append,List.mem_flatMap,List.mem_map,
    List.mem_flatten,List.mem_range]
  constructor
  · rintro (⟨i,hi,j,hj,rfl⟩ | ⟨t,⟨r,⟨l,hl,i,hi,j,hj,rfl⟩,ht⟩,rfl⟩)
    · exact Or.inl ⟨i,hi,j,hj,rfl⟩
    · simp only [List.mem_map,List.mem_range] at ht
      obtain ⟨k,hk,rfl⟩ := ht
      exact Or.inr ⟨l,hl,by omega,j,hj,k,hk,rfl⟩
  · rintro (⟨i,hi,j,hj,rfl⟩ | ⟨l,hl,hm,j,hj,k,hk,rfl⟩)
    · exact Or.inl ⟨i,hi,j,hj,rfl⟩
    · refine Or.inr ⟨_,⟨_,⟨l,hl,0,hm,j,hj,rfl⟩,List.mem_map.mpr ⟨k,List.mem_range.mpr hk,rfl⟩⟩,rfl⟩

def InBounds7pc (m n s batch_size weight_flag_b : Nat) : Prop :=
  ∀ x ∈ bTransposeAccesses7pc m n s batch_size weight_flag_b, x < batch_size*n*s

theorem exists_result_iff {c a b : Shares 7 (Lint L)} {net : Net 7 G}
    (P : Shares 7 (Lint L) → Prop) :
    (∃ out, rssMatMultArrayBatch7pc c a b m n s k batch_size weight_flag_a weight_flag_b net =
      some out ∧ P out.1) ↔ InBounds7pc m n s batch_size weight_flag_b ∧
      P (matMultShares7pc c a b m n s k batch_size weight_flag_a weight_flag_b net) := by
  rw [rssMatMultArrayBatch7pc,InBounds7pc]
  by_cases h : ∀ x ∈ bTransposeAccesses7pc m n s batch_size weight_flag_b, x < batch_size*n*s
  · have hall : (bTransposeAccesses7pc m n s batch_size weight_flag_b).all
        (· < batch_size*n*s) = true := by simpa using h
    simp only [hall,if_true,Option.some.injEq,exists_eq_left',and_iff_right h]
  · have hall : ¬ (bTransposeAccesses7pc m n s batch_size weight_flag_b).all
        (· < batch_size*n*s) = true := by simpa using h
    simp [hall,h]

section Entry
variable {net : Net 7 G} (hnet : shares7pc.Consistent net) (hk : k ≤ 8*L)
  (c a b : Shares 7 (Lint L)) {i : Nat} (hi : i < batch_size*m*s)
include hnet hk hi

theorem matMultShares7pc_iff {v : BitVec k}
    (hv : ∑ p, (lastProduct (productMp (arithKind L k) table7pc.numShares table7pc.gamma)
      (batchTerms7pc m n s batch_size weight_flag_a weight_flag_b) (a p)
      (fun t => bTranspose7pc n s (b p t)) i).setWidth k = v) :
    ArithSharing shares7pc k
      (matMultShares7pc c a b m n s k batch_size weight_flag_a weight_flag_b net) i v ↔
    ArithSharing shares7pc k c i 0 := by
  have h := table7pc_agrees.reshare_iff .running (arithKind L k) (batch_size*m*s) net
    (arithReading hk) hnet c (fun p => lastProduct
      (productMp (arithKind L k) table7pc.numShares table7pc.gamma)
      (batchTerms7pc m n s batch_size weight_flag_a weight_flag_b) (a p)
      fun t => bTranspose7pc n s (b p t)) hi hv
  simp only [ArithSharing,matMultShares7pc,if_neg (show ¬ batch_size*m*s ≤ i by omega)]
  exact h

end Entry

theorem sum_lastProduct {a b : Fin 7 → Nat → Nat → Lint L} (hk : k ≤ 8*L) {terms : Terms}
    {i x : Nat} {f : Nat → Nat × Nat} (hterms : terms.getD i [] = (List.range (x+1)).map f)
    {y z : BitVec k} (ha : ArithSharing shares7pc k a (f x).1 y)
    (hb : ArithSharing shares7pc k b (f x).2 z) :
    ∑ p, (lastProduct (productMp (arithKind L k) table7pc.numShares table7pc.gamma) terms (a p) (b p)
      i).setWidth k = y*z := by
  simp only [lastProduct_succ _ _ hterms]
  exact MultTable.sum_productMp (arithKind L k) (arithReading hk) rotation7pc pairs7pc_lt
    pairs7pc_once ha hb

theorem bTranspose7pc_row {s j : Nat} (b : Nat → Lint L) (hj : j < s) :
    bTranspose7pc 1 s b (j*s) = b j := by
  refine foldl_update _ ?_ _ (Or.inr ?_)
  · simp only [List.mem_flatMap,List.mem_range,List.mem_map]
    rintro _ ⟨i,hi,j',_,rfl⟩ hx
    obtain rfl : i = 0 := by omega
    rw [Nat.zero_add] at hx
    have hj' : j' = j := Nat.eq_of_mul_eq_mul_right (by omega) hx
    show b (0*1 + j') = b j
    rw [hj',Nat.zero_mul,Nat.zero_add]
  · simp only [List.mem_flatMap,List.mem_range,List.mem_map]
    exact ⟨_,⟨0,by decide,j,hj,rfl⟩,Nat.zero_add _⟩

theorem bTranspose7pc_zero (n s x : Nat) : bTranspose7pc n s (fun _ => (0 : Lint L)) x = 0 := by
  refine foldl_update _ ?_ _ (Or.inl rfl)
  simp only [List.mem_flatMap,List.mem_range,List.mem_map]
  rintro _ ⟨i,_,j,_,rfl⟩ _
  rfl

theorem bTranspose7pc_single (b : Nat → Lint L) {x : Nat} (hx : x ≠ 0) :
    bTranspose7pc 1 1 b x = 0 := by
  simp [bTranspose7pc,hx]

theorem lowBits_zero : (0 : Lint L).setWidth k = 0 := BitVec.setWidth_zero ..

theorem zero_ne_one_of_pos (hk₀ : 0 < k) : (0 : BitVec k) ≠ 1 := by
  intro h
  have hbit := congrArg (fun x => x.getLsbD 0) h
  simp [hk₀] at hbit

def publicWords (v : Nat → Lint L) : Shares 7 (Lint L) := fun p t =>
  if shares7pc.hold p t = {0,1,2} then v else fun _ => 0

theorem publicWords_isSharing (v : Nat → Lint L) (x : Nat) :
    ArithSharing shares7pc k (publicWords v) x ((v x).setWidth k) := by
  have hmem : ({0,1,2} : Finset (Fin 7)) ∈ shares7pc.names :=
    Finset.mem_powersetCard_univ.mpr (by decide)
  refine Pattern.isSharing_public hmem _ fun p t _ => ?_
  rw [publicWords]
  split
  · rfl
  · exact lowBits_zero

theorem bTranspose7pc_publicWords (n s : Nat) (v : Nat → Lint L) (p : Fin 7) (t : Nat) :
    bTranspose7pc n s (publicWords v p t) = publicWords (bTranspose7pc n s v) p t := by
  rw [publicWords,publicWords]
  split
  · rfl
  · exact funext fun x => bTranspose7pc_zero n s x

theorem inBounds7pc_write {m n s batch_size weight_flag_b : Nat}
    (h : InBounds7pc m n s batch_size weight_flag_b) (hn : 0 < n) (hs : 0 < s) :
    n - 1 + (s - 1)*s < batch_size*n*s :=
  h _ (mem_bTransposeAccesses7pc.mpr (Or.inl ⟨n-1,by omega,s-1,by omega,rfl⟩))

theorem inBounds7pc_of_empty {m n s batch_size weight_flag_b : Nat} (h : n = 0 ∨ s = 0) :
    InBounds7pc m n s batch_size weight_flag_b := by
  intro x hx
  rcases mem_bTransposeAccesses7pc.mp hx with ⟨i,hi,j,hj,_⟩ | ⟨_,_,_,j,hj,i,hi,_⟩
  · omega
  · omega

theorem inBounds7pc_of_noRows {n s batch_size weight_flag_b : Nat}
    (h : n - 1 + (s - 1)*s < batch_size*n*s) : InBounds7pc 0 n s batch_size weight_flag_b := by
  intro x hx
  rcases mem_bTransposeAccesses7pc.mp hx with ⟨i,hi,j,hj,rfl⟩ | ⟨_,_,hm,_⟩
  · have hmul := Nat.mul_le_mul_right s (show j ≤ s - 1 by omega)
    omega
  · omega

theorem readRow_eq_zero {l batch_size weight_flag_b : Nat} (hl : l < batch_size)
    (hflag : weight_flag_b = 0 ∨ batch_size = 1) : weight_flag_b*l = 0 := by
  rcases hflag with rfl | rfl
  · exact Nat.zero_mul l
  · rw [Nat.lt_one_iff.mp hl,Nat.mul_zero]

theorem inBounds7pc_of_single {s batch_size weight_flag_b : Nat} (hs : s ≤ batch_size)
    (hflag : weight_flag_b = 0 ∨ batch_size = 1) : InBounds7pc 1 1 s batch_size weight_flag_b := by
  intro x hx
  have hlt : ∀ j, j < s → j*s < batch_size*1*s := by
    intro j hj
    rw [Nat.mul_one]
    exact Nat.mul_lt_mul_of_pos_right (by omega) (by omega)
  rcases mem_bTransposeAccesses7pc.mp hx with ⟨i,hi,j,hj,rfl⟩ | ⟨l,hl,_,j,hj,i,hi,rfl⟩
  · obtain rfl : i = 0 := by omega
    rw [Nat.zero_add]
    exact hlt j hj
  · obtain rfl : i = 0 := by omega
    rw [readRow_eq_zero hl hflag,Nat.zero_mul,Nat.zero_add,Nat.add_zero]
    exact hlt j hj

end

def ComputesProducts7pc (net : Net 7 G) (c : Shares 7 (Lint L))
    (m n s k batch_size weight_flag_a weight_flag_b : Nat) : Prop :=
  ∀ (A : Nat → Matrix (Fin m) (Fin n) (BitVec k)) (B : Nat → Matrix (Fin n) (Fin s) (BitVec k))
    (a b : Shares 7 (Lint L)),
    (∀ l, l < batch_size →
      MatSharing shares7pc k a (weight_flag_a*l*m*n) (A (weight_flag_a*l))) →
    (∀ l, l < batch_size →
      MatSharing shares7pc k b (weight_flag_b*l*n*s) (B (weight_flag_b*l))) →
    ∃ out, rssMatMultArrayBatch7pc c a b m n s k batch_size weight_flag_a weight_flag_b net =
      some out ∧ ∀ l, l < batch_size →
        MatSharing shares7pc k out.1 (l*m*s) (A (weight_flag_a*l) * B (weight_flag_b*l))

section Shape
variable {m n s batch_size weight_flag_a weight_flag_b : Nat} {net : Net 7 G}
  (hnet : shares7pc.Consistent net) (hk : k ≤ 8*L) {c : Shares 7 (Lint L)}

theorem ComputesProducts7pc.publicWords
    (h : ComputesProducts7pc net c m n s k batch_size weight_flag_a weight_flag_b)
    (va vb : Nat → Lint L) : InBounds7pc m n s batch_size weight_flag_b ∧
    ∀ l, l < batch_size → ∀ (i : Fin m) (j : Fin s), ArithSharing shares7pc k
      (matMultShares7pc c (publicWords va) (publicWords vb) m n s k batch_size weight_flag_a
        weight_flag_b net) (l*m*s + i*s + j)
      (∑ x : Fin n, (va (weight_flag_a*l*m*n + i*n + x)).setWidth k *
        (vb (weight_flag_b*l*n*s + x*s + j)).setWidth k) := by
  let A : Nat → Matrix (Fin m) (Fin n) (BitVec k) := fun e =>
    Matrix.of fun i x => (va (e*m*n + i*n + x)).setWidth k
  let B : Nat → Matrix (Fin n) (Fin s) (BitVec k) := fun e =>
    Matrix.of fun x j => (vb (e*n*s + x*s + j)).setWidth k
  have hpublic := h A B (RssRing.publicWords va) (RssRing.publicWords vb)
    (fun _ _ _ _ => publicWords_isSharing va _) fun _ _ _ _ => publicWords_isSharing vb _
  obtain ⟨hin,hout⟩ := (exists_result_iff (fun out => ∀ l, l < batch_size →
    MatSharing shares7pc k out (l*m*s) (A (weight_flag_a*l) * B (weight_flag_b*l)))).mp hpublic
  refine ⟨hin,fun l hl i j => ?_⟩
  have hentry := hout l hl i j
  rwa [Matrix.mul_apply] at hentry

include hk

theorem sum_lastProduct_publicWords (va vb : Nat → Lint L) {x l : Nat} (hl : l < batch_size)
    (i : Fin m) (j : Fin s) :
    ∑ p, (lastProduct (productMp (arithKind L k) table7pc.numShares table7pc.gamma)
      (batchTerms7pc m (x+1) s batch_size weight_flag_a weight_flag_b) (publicWords va p)
      (fun t => bTranspose7pc (x+1) s (publicWords vb p t)) (l*m*s + i*s + j)).setWidth k =
    (va (weight_flag_a*l*m*(x+1) + i*m + x)).setWidth k *
      (bTranspose7pc (x+1) s vb (weight_flag_b*l*(x+1)*s + j*s + x)).setWidth k := by
  simp only [bTranspose7pc_publicWords]
  exact sum_lastProduct hk (getD_batchTerms7pc hl i.isLt j.isLt) (publicWords_isSharing va _)
    (publicWords_isSharing _ _)

include hnet

theorem ComputesProducts7pc.held
    (h : ComputesProducts7pc net c m n s k batch_size weight_flag_a weight_flag_b) :
    ∀ i, i < batch_size*m*s → ArithSharing shares7pc k c i 0 := by
  intro e he
  obtain ⟨l,i,j,hl,rfl⟩ := exists_batch_index he
  have hout := (h.publicWords (fun _ => 0) (fun _ => 0)).2 l hl i j
  simp only [lowBits_zero,mul_zero,Finset.sum_const_zero] at hout
  refine (matMultShares7pc_iff hnet hk c _ _ he ?_).mp hout
  cases n with
  | zero =>
    refine Finset.sum_eq_zero fun p _ => ?_
    rw [lastProduct_empty _ _ (getD_batchTerms7pc hl i.isLt j.isLt),lowBits_zero]
  | succ x =>
    rw [sum_lastProduct_publicWords hk _ _ hl,lowBits_zero,zero_mul]

theorem ComputesProducts7pc.last {x : Nat}
    (h : ComputesProducts7pc net c m (x+1) s k batch_size weight_flag_a weight_flag_b)
    (va vb : Nat → Lint L) {l : Nat} (hl : l < batch_size) (i : Fin m) (j : Fin s) :
    (va (weight_flag_a*l*m*(x+1) + i*m + x)).setWidth k *
      (bTranspose7pc (x+1) s vb (weight_flag_b*l*(x+1)*s + j*s + x)).setWidth k =
    ∑ y : Fin (x+1), (va (weight_flag_a*l*m*(x+1) + i*(x+1) + y)).setWidth k *
      (vb (weight_flag_b*l*(x+1)*s + y*s + j)).setWidth k := by
  have he := batch_index_lt hl i.isLt j.isLt
  have hout := (h.publicWords va vb).2 l hl i j
  refine Pattern.IsSharing.unique ?_ hout
  exact (matMultShares7pc_iff hnet hk c _ _ he
    (sum_lastProduct_publicWords hk va vb hl i j)).mpr (h.held hnet hk _ he)

theorem ComputesProducts7pc.ones {x : Nat}
    (h : ComputesProducts7pc net c m (x+1) s k batch_size weight_flag_a weight_flag_b)
    (hbatch : 0 < batch_size) (hs : 0 < s) (i : Fin m) (hi : i*m + x ≠ i*(x+1)) : k = 0 := by
  have hone : (1 : Lint L).setWidth k = 1 := (lowBits hk).map_one
  have hlast := h.last hnet hk (Pi.single (i*(x+1)) 1) (Pi.single 0 1) hbatch i ⟨0,hs⟩
  simp only [Nat.mul_zero,Nat.zero_mul,Nat.zero_add] at hlast
  rw [Pi.single_eq_of_ne hi,lowBits_zero,zero_mul,Finset.sum_eq_single 0] at hlast
  · simp only [Fin.val_zero,Nat.zero_mul,Nat.add_zero,Pi.single_eq_same,hone,mul_one] at hlast
    by_contra hk₀
    exact zero_ne_one_of_pos (by omega) hlast
  · intro y _ hy
    have hne : i*(x+1) + y.val ≠ i*(x+1) := by
      have hval : y.val ≠ 0 := fun h => hy (Fin.ext h)
      omega
    rw [Pi.single_eq_of_ne hne,lowBits_zero,zero_mul]
  · simp

/-- Beyond a single row, a single product and one entry of `b`, an index goes astray. -/
theorem ComputesProducts7pc.shape (hk₀ : 0 < k)
    (h : ComputesProducts7pc net c m n s k batch_size weight_flag_a weight_flag_b)
    (hm : 0 < m) (hn : 0 < n) (hs : 0 < s) (hbatch : 0 < batch_size) :
    m = 1 ∧ n = 1 ∧ s ≤ batch_size ∧ (weight_flag_b = 0 ∨ batch_size = 1) := by
  obtain ⟨x,rfl⟩ : ∃ x, n = x+1 := ⟨n-1,by omega⟩
  have hin := (h.publicWords (fun _ => 0) (fun _ => 0)).1
  have hx : x = 0 := by
    by_contra hx
    have hzero := h.ones hnet hk hbatch hs ⟨0,hm⟩ (by simpa using hx)
    omega
  subst hx
  have hrows : m = 1 := by
    by_contra hrows
    have hzero := h.ones hnet hk hbatch hs ⟨1,by omega⟩ (by simpa using hrows)
    omega
  subst hrows
  have hfit : s ≤ batch_size := by
    have hwrite := inBounds7pc_write hin (by decide) hs
    rw [Nat.sub_self,Nat.zero_add,Nat.mul_one] at hwrite
    have hlt := Nat.lt_of_mul_lt_mul_right hwrite
    omega
  refine ⟨rfl,rfl,hfit,?_⟩
  by_contra hflag
  obtain ⟨hflag,hentries⟩ := not_or.mp hflag
  have hread : weight_flag_b*(batch_size-1)*1*s + (s-1)*s + 0 < batch_size*1*s :=
    hin _ (mem_bTransposeAccesses7pc.mpr
      (Or.inr ⟨batch_size-1,by omega,by decide,s-1,by omega,0,by decide,rfl⟩))
  have hplace : weight_flag_b*(batch_size-1) + (s-1) < batch_size := by
    rw [Nat.mul_one,Nat.mul_one,Nat.add_zero,← Nat.add_mul] at hread
    exact Nat.lt_of_mul_lt_mul_right hread
  have hmul := Nat.mul_le_mul_right (batch_size-1) (show 1 ≤ weight_flag_b by omega)
  obtain rfl : s = 1 := by omega
  have hone : (1 : Lint L).setWidth k = 1 := (lowBits hk).map_one
  have hlast := h.last hnet hk (fun _ => 1) (fun _ => 1) (show 1 < batch_size by omega) 0 0
  rw [bTranspose7pc_single _ (by simpa using hflag),lowBits_zero] at hlast
  simp only [hone] at hlast
  refine zero_ne_one_of_pos hk₀ ?_
  simpa using hlast

theorem computesProducts7pc_of_entries (hin : InBounds7pc m n s batch_size weight_flag_b)
    (hheld : ∀ i, i < batch_size*m*s → ArithSharing shares7pc k c i 0)
    (hsum : ∀ (A : Nat → Matrix (Fin m) (Fin n) (BitVec k))
      (B : Nat → Matrix (Fin n) (Fin s) (BitVec k)) (a b : Shares 7 (Lint L)) (l : Nat),
      l < batch_size → MatSharing shares7pc k a (weight_flag_a*l*m*n) (A (weight_flag_a*l)) →
      MatSharing shares7pc k b (weight_flag_b*l*n*s) (B (weight_flag_b*l)) →
      ∀ (i : Fin m) (j : Fin s),
        ∑ p, (lastProduct (productMp (arithKind L k) table7pc.numShares table7pc.gamma)
          (batchTerms7pc m n s batch_size weight_flag_a weight_flag_b) (a p)
          (fun t => bTranspose7pc n s (b p t)) (l*m*s + i*s + j)).setWidth k =
        (A (weight_flag_a*l) * B (weight_flag_b*l)) i j) :
    ComputesProducts7pc net c m n s k batch_size weight_flag_a weight_flag_b := by
  intro A B a b ha hb
  refine (exists_result_iff (fun out => ∀ l, l < batch_size → MatSharing shares7pc k out (l*m*s)
    (A (weight_flag_a*l) * B (weight_flag_b*l)))).mpr ⟨hin,fun l hl i j => ?_⟩
  have he := batch_index_lt hl i.isLt j.isLt
  exact (matMultShares7pc_iff hnet hk c a b he (hsum A B a b l hl (ha l hl) (hb l hl) i j)).mpr
    (hheld _ he)

/-- For which shapes and old contents of the result arrays the products come out. With `m = 0` or
`s = 0` nothing is multiplied, and the exchange does not return (`getRounds_zero`). -/
theorem rssMatMultArrayBatch7pc_isSharing (hk₀ : 0 < k) :
    ComputesProducts7pc net c m n s k batch_size weight_flag_a weight_flag_b ↔
    (∀ i, i < batch_size*m*s → ArithSharing shares7pc k c i 0) ∧
      (n = 0 ∨ s = 0 ∨ (m = 0 ∧ n - 1 + (s - 1)*s < batch_size*n*s) ∨
        (m = 1 ∧ n = 1 ∧ s ≤ batch_size ∧ (weight_flag_b = 0 ∨ batch_size = 1))) := by
  constructor
  · intro h
    refine ⟨h.held hnet hk,?_⟩
    rcases Nat.eq_zero_or_pos n with hn | hn
    · exact Or.inl hn
    rcases Nat.eq_zero_or_pos s with hs | hs
    · exact Or.inr (Or.inl hs)
    have hwrite := inBounds7pc_write (h.publicWords (fun _ => 0) (fun _ => 0)).1 hn hs
    rcases Nat.eq_zero_or_pos m with hm | hm
    · exact Or.inr (Or.inr (Or.inl ⟨hm,hwrite⟩))
    have hbatch : 0 < batch_size := by
      refine Nat.pos_of_ne_zero fun hbatch => ?_
      rw [hbatch,Nat.zero_mul,Nat.zero_mul] at hwrite
      omega
    exact Or.inr (Or.inr (Or.inr (h.shape hnet hk hk₀ hm hn hs hbatch)))
  · rintro ⟨hheld,hn | hs | ⟨hm,hwrite⟩ | ⟨hm,hn,hfit,hflag⟩⟩
    · subst hn
      refine computesProducts7pc_of_entries hnet hk (inBounds7pc_of_empty (Or.inl rfl)) hheld ?_
      intro A B a b l hl _ _ i j
      rw [Matrix.mul_apply,Finset.univ_eq_empty (α := Fin 0),Finset.sum_empty]
      refine Finset.sum_eq_zero fun p _ => ?_
      rw [lastProduct_empty _ _ (getD_batchTerms7pc hl i.isLt j.isLt),lowBits_zero]
    · subst hs
      exact computesProducts7pc_of_entries hnet hk (inBounds7pc_of_empty (Or.inr rfl)) hheld
        fun _ _ _ _ _ _ _ _ _ j => j.elim0
    · subst hm
      exact computesProducts7pc_of_entries hnet hk (inBounds7pc_of_noRows hwrite) hheld
        fun _ _ _ _ _ _ _ _ i => i.elim0
    · subst hm hn
      refine computesProducts7pc_of_entries hnet hk (inBounds7pc_of_single hfit hflag) hheld ?_
      intro A B a b l hl ha hb i j
      have hzero := readRow_eq_zero hl hflag
      rw [Matrix.mul_apply,Fin.sum_univ_one]
      refine sum_lastProduct hk (getD_batchTerms7pc hl i.isLt j.isLt) (ha i 0) ?_
      refine (hb 0 j).congr fun p t _ => ?_
      have hread : weight_flag_b*l*(0+1)*s + j.val*s + 0 = j.val*s := by simp [hzero]
      have hindex : weight_flag_b*l*1*s + (0 : Fin 1).val*s + j.val = j.val := by simp [hzero]
      simp only [hread,hindex,bTranspose7pc_row _ j.isLt]

end Shape

theorem rssMatMultArrayBatch7pc_isSharing_column :
    let net : Net 7 Tape := fun _ _ => ⟨fun i => BitVec.ofNat 8 (3*i+1)⟩
    ComputesProducts7pc (L := 4) net (fun _ _ _ => 0) 1 1 2 8 2 1 0 := by
  intro net
  have hnet : shares7pc.Consistent net := fun _ _ _ _ _ _ _ => rfl
  refine (rssMatMultArrayBatch7pc_isSharing hnet (by decide) (by decide)).mpr
    ⟨fun i _ => ?_,Or.inr (Or.inr (Or.inr ⟨rfl,rfl,by decide,Or.inl rfl⟩))⟩
  exact ⟨fun _ => 0,fun _ _ _ => rfl,by simp⟩

/-- Two rows of ones squared, in arrays set to zero, come out as ones and not as twos. -/
theorem rssMatMultArrayBatch7pc_ones :
    let net : Net 7 Tape := fun _ _ => ⟨fun i => BitVec.ofNat 8 (3*i+1)⟩
    let E : Matrix (Fin 2) (Fin 2) (BitVec 8) := Matrix.of fun _ _ => 1
    let e : Shares 7 (Lint 4) := publicWords fun _ => 1
    shares7pc.Consistent net ∧ MatSharing shares7pc 8 e 0 E ∧
      ¬ ∃ out, rssMatMultArrayBatch7pc (fun _ _ _ => 0) e e 2 2 2 8 1 1 1 net = some out ∧
        MatSharing shares7pc 8 out.1 0 (E*E) := by
  intro net E e
  have hnet : shares7pc.Consistent net := fun _ _ _ _ _ _ _ => rfl
  have hone : (1 : Lint 4).setWidth 8 = 1 := by decide
  have hzero : ArithSharing (L := 4) shares7pc 8 (fun _ _ _ => 0) 0 0 :=
    ⟨fun _ => 0,fun _ _ _ => rfl,by simp⟩
  refine ⟨hnet,fun _ _ => (publicWords_isSharing _ _),fun h => ?_⟩
  have hout := ((exists_result_iff fun out => MatSharing shares7pc 8 out 0 (E*E)).mp h).2 0 0
  have hlast : ArithSharing shares7pc 8 (matMultShares7pc (fun _ _ _ => 0) e e 2 2 2 8 1 1 1 net) 0
      ((1 : Lint 4).setWidth 8 * (bTranspose7pc 2 2 (fun _ => (1 : Lint 4)) 1).setWidth 8) :=
    (matMultShares7pc_iff hnet (by decide) _ e e (by decide)
      (sum_lastProduct_publicWords (by decide) (fun _ => 1) (fun _ => 1) Nat.one_pos 0 0)).mpr hzero
  have htwo : (E*E) 0 0 = 2 := by
    rw [Matrix.mul_apply,Fin.sum_univ_two]
    rfl
  rw [htwo] at hout
  exact absurd (hlast.unique hout) (by decide)

end RssRing
