import RssRing.ProtocolsBasic.MatMult
import Mathlib.Data.Matrix.Mul
set_option autoImplicit false

namespace RssRing
open Replicated Finset

variable {G : Type} [Generator G] {L k n : Nat}

theorem length_matTerms (m n s : Nat) : (matTerms m n s).length = m*s :=
  length_blocks _ s m fun _ _ => by simp

theorem getD_matTerms {m n s i j : Nat} (hi : i < m) (hj : j < s) :
    (matTerms m n s).getD (i*s + j) [] = (List.range n).map fun k => (i*n + k,k*s + j) := by
  rw [matTerms,getD_blocks _ _ s m (fun _ _ => by simp) hi hj,getD_map_range _ _ hj]

theorem batch_index_lt {l i j m s batch_size : Nat} (hl : l < batch_size) (hi : i < m) (hj : j < s) :
    l*m*s + i*s + j < batch_size*m*s := by
  rw [Nat.mul_assoc,Nat.mul_assoc,Nat.add_assoc]
  exact index_lt hl (index_lt hi hj)

theorem exists_batch_index {x m s batch_size : Nat} (hx : x < batch_size*m*s) :
    ∃ (l : Nat) (i : Fin m) (j : Fin s), l < batch_size ∧ x = l*m*s + i.val*s + j.val := by
  obtain ⟨y,j,hy,hj,rfl⟩ := exists_index hx
  obtain ⟨l,i,hl,hi,rfl⟩ := exists_index hy
  exact ⟨l,⟨i,hi⟩,⟨j,hj⟩,hl,by rw [Nat.add_mul]⟩

section Batch
variable {A : Type} {m n s batch_size : Nat} (f : Nat → Nat → Nat → Nat → A)

theorem length_batchLoops :
    ((List.range batch_size).flatMap fun l => (List.range m).flatMap fun i =>
      (List.range s).map fun j => (List.range n).map (f l i j)).length = batch_size*m*s := by
  rw [length_blocks _ (m*s) batch_size fun _ _ => length_blocks _ s m fun _ _ => by simp,Nat.mul_assoc]

theorem getD_batchLoops {l i j : Nat} (hl : l < batch_size) (hi : i < m) (hj : j < s) :
    ((List.range batch_size).flatMap fun l => (List.range m).flatMap fun i =>
      (List.range s).map fun j => (List.range n).map (f l i j)).getD (l*m*s + i*s + j) [] =
      (List.range n).map (f l i j) := by
  have hindex : l*m*s + i*s + j = l*(m*s) + (i*s + j) := by ring
  rw [hindex,getD_blocks _ _ (m*s) batch_size (fun _ _ => length_blocks _ s m fun _ _ => by simp) hl
    (index_lt hi hj),getD_blocks _ _ s m (fun _ _ => by simp) hi hj,getD_map_range _ _ hj]

variable {weight_flag_a weight_flag_b : Nat}

theorem length_batchTerms :
    (batchTerms m n s batch_size weight_flag_a weight_flag_b).length = batch_size*m*s :=
  length_batchLoops _

theorem getD_batchTerms {l i j : Nat} (hl : l < batch_size) (hi : i < m) (hj : j < s) :
    (batchTerms m n s batch_size weight_flag_a weight_flag_b).getD (l*m*s + i*s + j) [] =
      (List.range n).map fun k =>
        (weight_flag_a*l*m*n + i*n + k,weight_flag_b*l*n*s + j*n + k) :=
  getD_batchLoops _ hl hi hj

end Batch

theorem bTranspose_eq {s batch_size weight_flag_b l i j : Nat} (b : Nat → Lint L)
    (hl : l < batch_size) (hi : i < n) (hj : j < s) :
    bTranspose n s batch_size weight_flag_b b (weight_flag_b*l*n*s + j*n + i) =
      b (weight_flag_b*l*n*s + i*s + j) := by
  have hread : ∀ l j i, weight_flag_b*l*n*s + j*n + i = (weight_flag_b*l*s + j)*n + i := by
    intros; ring
  refine foldl_update _ ?_ _ (Or.inr ?_)
  · simp only [List.mem_flatMap,List.mem_range,List.mem_map]
    rintro _ ⟨l',_,i',hi',j',hj',rfl⟩ hx
    simp only [hread] at hx
    obtain ⟨hrow,rfl⟩ := eq_of_blocks hi' hi hx
    obtain ⟨hl,rfl⟩ := eq_of_blocks hj' hj hrow
    have hindex : weight_flag_b*l'*n*s = weight_flag_b*l*n*s := by rw [hl]
    exact congrArg (fun x => b (x + i'*s + j')) hindex
  · simp only [List.mem_flatMap,List.mem_range,List.mem_map]
    exact ⟨_,⟨l,hl,i,hi,j,hj,rfl⟩,rfl⟩

section DotProduct
variable {product : (Nat → Lint L) → (Nat → Lint L) → Lint L}

theorem dotProduct_val (hk : k ≤ 8*L) (terms : Terms) (a b : Nat → Nat → Lint L) (i : Nat) :
    (dotProduct product terms a b i).setWidth k =
      ((terms.getD i []).map fun t =>
        (product (fun s => a s t.1) (fun s => b s t.2)).setWidth k).sum := by
  have hfold : ∀ (l : List (Nat × Nat)) (v : Lint L),
      (l.foldl (fun v t => v + product (fun s => a s t.1) (fun s => b s t.2)) v).setWidth k =
        v.setWidth k +
          (l.map fun t => (product (fun s => a s t.1) (fun s => b s t.2)).setWidth k).sum := by
    intro l
    induction l with
    | nil => intro v; simp
    | cons t l ih =>
      intro v
      rw [List.foldl_cons,ih,BitVec.setWidth_add _ _ hk,List.map_cons,List.sum_cons,add_assoc]
  rw [dotProduct,hfold]
  simp

theorem sum_dotProduct_terms (hk : k ≤ 8*L) {terms : Terms} {a b : Shares n (Lint L)} {i : Nat}
    {z : Nat × Nat → BitVec k} (hz : ∀ t ∈ terms.getD i [],
      ∑ p, (product (fun s => a p s t.1) (fun s => b p s t.2)).setWidth k = z t) :
    ∑ p, (dotProduct product terms (a p) (b p) i).setWidth k = ((terms.getD i []).map z).sum := by
  simp only [dotProduct_val hk]
  generalize terms.getD i [] = l at hz
  induction l with
  | nil => simp
  | cons t l ih =>
    simp only [List.map_cons,List.sum_cons]
    rw [Finset.sum_add_distrib,hz t List.mem_cons_self,
      ih fun t ht => hz t (List.mem_cons_of_mem _ ht)]

theorem sum_dotProduct (hk : k ≤ 8*L) {terms : Terms} {a b : Shares n (Lint L)} {i m : Nat}
    {f : Nat → Nat × Nat} (hterms : terms.getD i [] = (List.range m).map f) {z : Fin m → BitVec k}
    (hz : ∀ x : Fin m,
      ∑ p, (product (fun s => a p s (f x).1) (fun s => b p s (f x).2)).setWidth k = z x) :
    ∑ p, (dotProduct product terms (a p) (b p) i).setWidth k = ∑ x, z x := by
  simp only [dotProduct_val hk,hterms,List.map_map,sum_map_range]
  rw [Finset.sum_comm,Finset.sum_range]
  exact Finset.sum_congr rfl fun x _ => hz x

end DotProduct

def MatSharing {m s : Nat} (H : Pattern (Fin n) (Finset (Fin n))) (k : Nat)
    (a : Shares n (Lint L)) (start : Nat) (A : Matrix (Fin m) (Fin s) (BitVec k)) : Prop :=
  ∀ i j, ArithSharing H k a (start + i.val*s + j.val) (A i j)

def termSum (X V : Nat → BitVec k) (terms : List (Nat × Nat)) : BitVec k :=
  (terms.map fun t => X t.1*V t.2).sum

theorem termSum_range {X V : Nat → BitVec k} (m : Nat) (f : Nat → Nat × Nat) :
    termSum X V ((List.range m).map f) = ∑ t ∈ Finset.range m, X (f t).1*V (f t).2 := by
  rw [termSum,List.map_map,sum_map_range]
  rfl

section ThreeParties
variable {net : Net 3 G} (hnet : shares3pc.Consistent net)
include hnet

theorem matMult3pc_isSharing (hk : k ≤ 8*L) (terms : Terms) {size i : Nat} (hi : i < size)
    (hterms : i < terms.length) (c a b : Shares 3 (Lint L)) :
    ArithSharing shares3pc k (matMult3pc terms size k net c a b).1 i
      (∑ p, (dotProduct (product3pc (arithKind L k)) terms (a p) (b p) i).setWidth k) := by
  have hne : ¬ size ≤ i := by omega
  have hload : ∀ (x : Lint L) buffer, ((arithKind L k).load x buffer i).setWidth k =
      ((arithKind L k).load 0 buffer i).setWidth k :=
    fun x buffer => (arithReading hk).load x 0 buffer i
  have hrecv : ∀ x : Lint L, ((arithKind L k).recv x).setWidth k = x.setWidth k :=
    (arithReading hk).recv
  refine isSharing_reshared3pc (arithReading hk) hnet size i (fun p => ?_) fun p => ?_
  · have hfirst : (net.advance 1 (arithKind L k).bytes size).random 0 (arithKind L k).bytes size p =
        net.random 0 (arithKind L k).bytes size p :=
      net.random_advance_of_ne (by decide) _ _ _ _ p
    simp only [matMult3pc,if_neg hne,if_pos hterms,if_true,hfirst]
    rw [BitVec.setWidth_add _ _ hk,setWidth_sub_of_le _ _ hk,hload,hload (c p 0 i)]
    rfl
  · simp only [matMult3pc,if_neg hne,if_pos hterms,if_true,Nat.one_ne_zero,if_false,
      sendAndGetDataFromPeer_eq]
    rw [BitVec.setWidth_add _ _ hk,hrecv,setWidth_sub_of_le _ _ hk,hload,hload (c p 0 i)]
    rfl

/-- Whatever the loops of a product look like: element `i` shares the products of the places
that they put together there. -/
theorem matMult3pc_terms (hk : k ≤ 8*L) (terms : Terms) {size i : Nat} (hi : i < size)
    (hterms : i < terms.length) (c : Shares 3 (Lint L)) {a b : Shares 3 (Lint L)}
    {X V : Nat → BitVec k} (ha : ∀ t ∈ terms.getD i [], ArithSharing shares3pc k a t.1 (X t.1))
    (hb : ∀ t ∈ terms.getD i [], ArithSharing shares3pc k b t.2 (V t.2)) :
    ArithSharing shares3pc k (matMult3pc terms size k net c a b).1 i
      (termSum X V (terms.getD i [])) := by
  have h := matMult3pc_isSharing hnet hk terms hi hterms c a b
  rwa [sum_dotProduct_terms hk fun t ht =>
    sum_product3pc (arithReading hk) (product3pc_val _) (ha t ht) (hb t ht)] at h

variable {m n s : Nat}

theorem rssMatMultArray_isSharing (hk : k ≤ 8*L) {A : Matrix (Fin m) (Fin n) (BitVec k)}
    {B : Matrix (Fin n) (Fin s) (BitVec k)} (c : Shares 3 (Lint L)) {a b : Shares 3 (Lint L)}
    (ha : MatSharing shares3pc k a 0 A) (hb : MatSharing shares3pc k b 0 B) :
    MatSharing shares3pc k (rssMatMultArray c a b m n s k net).1 0 (A*B) := by
  intro i j
  have hin := index_lt i.isLt j.isLt
  have hterms : i.val*s + j.val < (matTerms m n s).length := by rwa [length_matTerms]
  have h := matMult3pc_isSharing hnet hk (matTerms m n s) hin hterms c a b
  rw [sum_dotProduct hk (getD_matTerms i.isLt j.isLt) (z := fun x => A i x * B x j) fun x => ?_] at h
  · rw [Nat.zero_add,Matrix.mul_apply]
    exact h
  · have hax := ha i x
    have hbx := hb x j
    rw [Nat.zero_add] at hax hbx
    exact sum_product3pc (arithReading hk) (product3pc_val _) hax hbx

theorem rssMatMultArrayBatch_isSharing (hk : k ≤ 8*L) {batch_size weight_flag_a weight_flag_b : Nat}
    {A : Nat → Matrix (Fin m) (Fin n) (BitVec k)} {B : Nat → Matrix (Fin n) (Fin s) (BitVec k)}
    (c : Shares 3 (Lint L)) {a b : Shares 3 (Lint L)}
    (ha : ∀ l, l < batch_size → MatSharing shares3pc k a (weight_flag_a*l*m*n) (A (weight_flag_a*l)))
    (hb : ∀ l, l < batch_size → MatSharing shares3pc k b (weight_flag_b*l*n*s) (B (weight_flag_b*l)))
    {l : Nat} (hl : l < batch_size) :
    MatSharing shares3pc k
      (rssMatMultArrayBatch c a b m n s k batch_size weight_flag_a weight_flag_b net).1 (l*m*s)
      (A (weight_flag_a*l) * B (weight_flag_b*l)) := by
  intro i j
  have hin := batch_index_lt hl i.isLt j.isLt
  have h := matMult3pc_isSharing hnet hk
    (batchTerms m n s batch_size weight_flag_a weight_flag_b) hin (by rwa [length_batchTerms]) c a
    fun p t => bTranspose n s batch_size weight_flag_b (b p t)
  rw [sum_dotProduct hk (getD_batchTerms hl i.isLt j.isLt)
    (z := fun x => A (weight_flag_a*l) i x * B (weight_flag_b*l) x j) fun x => ?_] at h
  · rw [Matrix.mul_apply]
    exact h
  · refine sum_product3pc (arithReading hk) (product3pc_val _) (ha l hl i x) ?_
    exact (hb l hl x j).congr fun p t _ => by
      simp only [bTranspose_eq (b p t) hl x.isLt j.isLt]
      rfl

end ThreeParties

def RowSharing {m s : Nat} (H : Pattern (Fin n) (Finset (Fin n))) (k : Nat)
    (a : Matrices n (Lint L)) (A : Matrix (Fin m) (Fin s) (BitVec k)) : Prop :=
  ∀ i j, H.IsSharing (fun p t => (a p t i.val j.val).setWidth k) (A i j)

theorem flatten_index {W : Type} {s i j : Nat} (hj : j < s) (a : Matrices n W) (p : Fin n)
    (t : Nat) : flatten s a p t (i*s + j) = a p t i j := by
  rw [flatten,index_div hj,index_mod hj]

theorem RowSharing.flatten {m s : Nat} {H : Pattern (Fin n) (Finset (Fin n))}
    {a : Matrices n (Lint L)} {A : Matrix (Fin m) (Fin s) (BitVec k)} (h : RowSharing H k a A) :
    MatSharing H k (flatten s a) 0 A := by
  intro i j
  refine (h i j).congr fun p t _ => ?_
  rw [Nat.zero_add,flatten_index j.isLt]

section Family
variable {net : Net 3 G} (hnet : shares3pc.Consistent net)
include hnet

theorem rssMatMult_isSharing (hk : k ≤ 8*L) {m n s : Nat} {A : Matrix (Fin m) (Fin n) (BitVec k)}
    {B : Matrix (Fin n) (Fin s) (BitVec k)} (c : Matrices 3 (Lint L)) {a b : Matrices 3 (Lint L)}
    (ha : RowSharing shares3pc k a A) (hb : RowSharing shares3pc k b B) :
    RowSharing shares3pc k (rssMatMult c a b m n s k net).1 (A*B) := by
  intro i j
  have h := rssMatMultArray_isSharing hnet hk (flatten s c) ha.flatten hb.flatten i j
  rw [Nat.zero_add] at h
  refine h.congr fun p t _ => ?_
  simp only [rssMatMult,if_pos j.isLt]
  rfl

/-- The products of matrices among three parties, whatever the result arrays held. -/
theorem matMult_family (hk : k ≤ 8*L) (m n s : Nat) :
    (∀ (batch_size weight_flag_a weight_flag_b : Nat)
      (A : Nat → Matrix (Fin m) (Fin n) (BitVec k)) (B : Nat → Matrix (Fin n) (Fin s) (BitVec k))
      (c a b : Shares 3 (Lint L)),
      (∀ l, l < batch_size →
        MatSharing shares3pc k a (weight_flag_a*l*m*n) (A (weight_flag_a*l))) →
      (∀ l, l < batch_size →
        MatSharing shares3pc k b (weight_flag_b*l*n*s) (B (weight_flag_b*l))) →
      ∀ l, l < batch_size → MatSharing shares3pc k
        (rssMatMultArrayBatch c a b m n s k batch_size weight_flag_a weight_flag_b net).1 (l*m*s)
        (A (weight_flag_a*l) * B (weight_flag_b*l))) ∧
    ∀ (weight_flag_a weight_flag_b : Nat) (A : Matrix (Fin m) (Fin n) (BitVec k))
      (B : Matrix (Fin n) (Fin s) (BitVec k)) (c₁ c₂ a b : Shares 3 (Lint L))
      (c₃ a' b' : Matrices 3 (Lint L)),
      MatSharing shares3pc k a 0 A → MatSharing shares3pc k b 0 B →
      RowSharing shares3pc k a' A → RowSharing shares3pc k b' B →
      MatSharing shares3pc k
        (rssMatMultArrayBatch c₁ a b m n s k 1 weight_flag_a weight_flag_b net).1 0 (A*B) ∧
      MatSharing shares3pc k (rssMatMultArray c₂ a b m n s k net).1 0 (A*B) ∧
      RowSharing shares3pc k (rssMatMult c₃ a' b' m n s k net).1 (A*B) := by
  constructor
  · intro batch_size weight_flag_a weight_flag_b A B c a b ha hb l hl
    exact rssMatMultArrayBatch_isSharing hnet hk c ha hb hl
  · intro weight_flag_a weight_flag_b A B c₁ c₂ a b c₃ a' b' ha hb ha' hb'
    refine ⟨?_,rssMatMultArray_isSharing hnet hk c₂ ha hb,rssMatMult_isSharing hnet hk c₃ ha' hb'⟩
    have hstart : ∀ flag l m n, l < 1 → flag*l*m*n = 0 := by
      intro flag l m n hl
      rw [Nat.lt_one_iff.mp hl,Nat.mul_zero,Nat.zero_mul,Nat.zero_mul]
    have h : ∀ l, l < 1 → MatSharing shares3pc k
        (rssMatMultArrayBatch c₁ a b m n s k 1 weight_flag_a weight_flag_b net).1 (l*m*s) (A*B) :=
      fun l hl => rssMatMultArrayBatch_isSharing hnet hk (A := fun _ => A) (B := fun _ => B) c₁
        (fun l hl => by rwa [hstart _ _ _ _ hl]) (fun l hl => by rwa [hstart _ _ _ _ hl]) hl
    simpa only [Nat.zero_mul] using h 0 Nat.one_pos

end Family

theorem matMult_family_pair :
    let net : Net 3 Tape := fun _ _ => ⟨fun i => BitVec.ofNat 8 (3*i+1)⟩
    ∀ l, l < 2 → MatSharing shares3pc 8 (rssMatMultArrayBatch (L := 4) (fun _ _ _ => 7)
      (fun _ _ _ => 1) (fun _ _ _ => 2) 1 2 1 8 2 0 1 net).1 (l*1*1)
      ((Matrix.of fun _ _ => 3 : Matrix (Fin 1) (Fin 2) (BitVec 8)) *
        (Matrix.of fun _ _ => 6 : Matrix (Fin 2) (Fin 1) (BitVec 8))) := by
  intro net
  have hnet : shares3pc.Consistent net := fun _ _ _ _ _ _ _ => rfl
  refine (matMult_family (L := 4) (k := 8) hnet (by decide) 1 2 1).1 2 0 1
    (fun _ => Matrix.of fun _ _ => 3) (fun _ => Matrix.of fun _ _ => 6) _ _ _
    (fun _ _ _ _ => ?_) (fun _ _ _ _ => ?_)
  · exact ⟨fun _ => 1,fun _ _ _ => rfl,by simp⟩
  · exact ⟨fun _ => 2,fun _ _ _ => rfl,by simp⟩

namespace MultTable
variable {tab : MultTable n} {H : Pattern (Fin n) (Finset (Fin n))}

theorem matMult_eq (terms : Terms) {size i : Nat} (hi : i < size) (ring_size : Nat) (net : Net n G)
    (c a b : Shares n (Lint L)) (p : Fin n) (t : Nat) :
    (tab.matMult terms size ring_size net c a b).1 p t i =
      tab.reshare (arithKind L ring_size) (fun p => tab.maskUses .running p terms.length) size net c
        (fun p => dotProduct (productMp (arithKind L ring_size) tab.numShares tab.gamma) terms
          (a p) (b p)) p t i := by
  have hne : ¬ size ≤ i := by omega
  simp only [matMult,if_neg hne]
  rfl

theorem Agrees.matMult_add_iff (hA : tab.Agrees H) {net : Net n G} (hnet : H.Consistent net)
    (hk : k ≤ 8*L) {terms : Terms} {size i : Nat} (hi : i < size) (hterms : terms.length = size)
    (c a b : Shares n (Lint L)) {v : BitVec k}
    (hv : ∑ p, (dotProduct (productMp (arithKind L k) tab.numShares tab.gamma) terms (a p) (b p)
      i).setWidth k = v) (w : BitVec k) :
    ArithSharing H k (tab.matMult terms size k net c a b).1 i (w + v) ↔ ArithSharing H k c i w := by
  have h := hA.reshare_add_iff .running (arithKind L k) size net (arithReading hk) hnet c
    (fun p => dotProduct (productMp (arithKind L k) tab.numShares tab.gamma) terms (a p) (b p)) hi hv
    w
  simp only [ArithSharing,matMult_eq _ hi,hterms]
  exact h

theorem Agrees.matMult_iff (hA : tab.Agrees H) {net : Net n G} (hnet : H.Consistent net)
    (hk : k ≤ 8*L) {terms : Terms} {size i : Nat} (hi : i < size) (hterms : terms.length = size)
    (c a b : Shares n (Lint L)) {v : BitVec k}
    (hv : ∑ p, (dotProduct (productMp (arithKind L k) tab.numShares tab.gamma) terms (a p) (b p)
      i).setWidth k = v) :
    ArithSharing H k (tab.matMult terms size k net c a b).1 i v ↔ ArithSharing H k c i 0 := by
  rw [← hA.matMult_add_iff hnet hk hi hterms c a b hv,zero_add]

end MultTable

section FiveParties
variable {net : Net 5 G} (hnet : shares5pc.Consistent net)
include hnet

theorem matMult5pc_terms (hk : k ≤ 8*L) {terms : Terms} {size i : Nat} (hi : i < size)
    (hterms : terms.length = size) (c : Shares 5 (Lint L)) {a b : Shares 5 (Lint L)}
    {X V : Nat → BitVec k} (ha : ∀ t ∈ terms.getD i [], ArithSharing shares5pc k a t.1 (X t.1))
    (hb : ∀ t ∈ terms.getD i [], ArithSharing shares5pc k b t.2 (V t.2)) (w : BitVec k) :
    ArithSharing shares5pc k (table5pc.matMult terms size k net c a b).1 i
      (w + termSum X V (terms.getD i [])) ↔ ArithSharing shares5pc k c i w :=
  table5pc_agrees.matMult_add_iff hnet hk hi hterms c a b (sum_dotProduct_terms hk fun t ht =>
    MultTable.sum_productMp (arithKind L k) (arithReading hk) rotation5pc pairs5pc_lt pairs5pc_once
      (ha t ht) (hb t ht)) w

theorem rssMatMultArrayBatchMp_entry (hk : k ≤ 8*L) {m n s batch_size weight_flag_a weight_flag_b : Nat}
    {A : Nat → Matrix (Fin m) (Fin n) (BitVec k)} {B : Nat → Matrix (Fin n) (Fin s) (BitVec k)}
    (c : Shares 5 (Lint L)) {a b : Shares 5 (Lint L)} {l : Nat} (hl : l < batch_size)
    (ha : MatSharing shares5pc k a (weight_flag_a*l*m*n) (A (weight_flag_a*l)))
    (hb : MatSharing shares5pc k b (weight_flag_b*l*n*s) (B (weight_flag_b*l)))
    (i : Fin m) (j : Fin s) :
    ArithSharing shares5pc k
      (rssMatMultArrayBatchMp c a b m n s k batch_size weight_flag_a weight_flag_b net).1
      (l*m*s + i*s + j) ((A (weight_flag_a*l) * B (weight_flag_b*l)) i j) ↔
    ArithSharing shares5pc k c (l*m*s + i*s + j) 0 := by
  refine table5pc_agrees.matMult_iff hnet hk (batch_index_lt hl i.isLt j.isLt) length_batchTerms c a
    (fun p t => bTranspose n s batch_size weight_flag_b (b p t)) ?_
  rw [Matrix.mul_apply]
  refine sum_dotProduct hk (getD_batchTerms hl i.isLt j.isLt) fun x => ?_
  refine MultTable.sum_productMp (arithKind L k) (arithReading hk) rotation5pc pairs5pc_lt
    pairs5pc_once (ha i x) ?_
  exact (hb x j).congr fun p t _ => by
    simp only [bTranspose_eq (b p t) hl x.isLt j.isLt]
    rfl

/-- The five-party product is right for every batch entry exactly if the result
arrays shared zero in every element. -/
theorem rssMatMultArrayBatchMp_isSharing (hk : k ≤ 8*L)
    {m n s batch_size weight_flag_a weight_flag_b : Nat}
    {A : Nat → Matrix (Fin m) (Fin n) (BitVec k)} {B : Nat → Matrix (Fin n) (Fin s) (BitVec k)}
    (c : Shares 5 (Lint L)) {a b : Shares 5 (Lint L)}
    (ha : ∀ l, l < batch_size → MatSharing shares5pc k a (weight_flag_a*l*m*n) (A (weight_flag_a*l)))
    (hb : ∀ l, l < batch_size →
      MatSharing shares5pc k b (weight_flag_b*l*n*s) (B (weight_flag_b*l))) :
    (∀ l, l < batch_size → MatSharing shares5pc k
      (rssMatMultArrayBatchMp c a b m n s k batch_size weight_flag_a weight_flag_b net).1 (l*m*s)
      (A (weight_flag_a*l) * B (weight_flag_b*l))) ↔
    ∀ i, i < batch_size*m*s → ArithSharing shares5pc k c i 0 := by
  constructor
  · intro h x hx
    obtain ⟨l,i,j,hl,rfl⟩ := exists_batch_index hx
    exact (rssMatMultArrayBatchMp_entry hnet hk c hl (ha l hl) (hb l hl) i j).mp (h l hl i j)
  · intro h l hl i j
    exact (rssMatMultArrayBatchMp_entry hnet hk c hl (ha l hl) (hb l hl) i j).mpr
      (h _ (batch_index_lt hl i.isLt j.isLt))

end FiveParties

theorem rssMatMultArrayBatchMp_isSharing_zeroed :
    let net : Net 5 Tape := fun _ _ => ⟨fun i => BitVec.ofNat 8 (3*i+1)⟩
    ∀ l, l < 2 → MatSharing shares5pc 8 (rssMatMultArrayBatchMp (L := 4) (fun _ _ _ => 0)
      (fun _ _ _ => 1) (fun _ _ _ => 2) 1 2 1 8 2 0 1 net).1 (l*1*1)
      ((Matrix.of fun _ _ => 10 : Matrix (Fin 1) (Fin 2) (BitVec 8)) *
        (Matrix.of fun _ _ => 20 : Matrix (Fin 2) (Fin 1) (BitVec 8))) := by
  intro net
  have hnet : shares5pc.Consistent net := fun _ _ _ _ _ _ _ => rfl
  refine (rssMatMultArrayBatchMp_isSharing (L := 4) (k := 8) hnet (by decide)
    (A := fun _ => Matrix.of fun _ _ => 10) (B := fun _ => Matrix.of fun _ _ => 20) _
    (fun _ _ _ _ => ?_) (fun _ _ _ _ => ?_)).mpr fun i _ => ?_
  · exact ⟨fun _ => 1,fun _ _ _ => rfl,by simp⟩
  · exact ⟨fun _ => 2,fun _ _ _ => rfl,by simp⟩
  · exact ⟨fun _ => 0,fun _ _ _ => rfl,by simp⟩

/-- Over a shared 10 that an earlier evaluation left, zero times zero comes out as 10. -/
theorem rssMatMultArrayBatchMp_reused :
    let net : Net 5 Tape := fun _ _ => ⟨fun i => BitVec.ofNat 8 (3*i+1)⟩
    let O : Matrix (Fin 1) (Fin 1) (BitVec 8) := 0
    shares5pc.Consistent net ∧
      MatSharing (L := 4) shares5pc 8 (fun _ _ _ => 0) 0 O ∧
      ¬ MatSharing shares5pc 8 (rssMatMultArrayBatchMp (L := 4) (fun _ _ _ => 1)
        (fun _ _ _ => 0) (fun _ _ _ => 0) 1 1 1 8 1 0 1 net).1 0 (O*O) := by
  intro net O
  have hnet : shares5pc.Consistent net := fun _ _ _ _ _ _ _ => rfl
  have hzero : MatSharing (L := 4) shares5pc 8 (fun _ _ _ => 0) 0 O :=
    fun _ _ => ⟨fun _ => 0,fun _ _ _ => rfl,by simp [O]⟩
  refine ⟨hnet,hzero,fun h => ?_⟩
  have hentry : ∀ v, ArithSharing shares5pc 8 (rssMatMultArrayBatchMp (L := 4) (fun _ _ _ => 1)
      (fun _ _ _ => 0) (fun _ _ _ => 0) 1 1 1 8 1 0 1 net).1 0 v → v = (O*O) 0 0 →
      ArithSharing (L := 4) shares5pc 8 (fun _ _ _ => 1) 0 0 := by
    rintro _ hv rfl
    exact (rssMatMultArrayBatchMp_entry hnet (by decide) (A := fun _ => O) (B := fun _ => O) _
      Nat.one_pos hzero hzero 0 0).mp hv
  have hheld := hentry _ (h 0 0) rfl
  have hten : ArithSharing (L := 4) shares5pc 8 (fun _ _ _ => 1) 0 10 :=
    ⟨fun _ => 1,fun _ _ _ => rfl,by simp⟩
  exact absurd (hten.unique hheld) (by decide)

end RssRing
