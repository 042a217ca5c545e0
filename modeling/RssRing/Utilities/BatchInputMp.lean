import RssRing.Utilities.BatchInput
set_option autoImplicit false

namespace RssRing
open Replicated

variable {L k : Nat}

section
variable [AesNi]

/-- `splitData_X_mp` with a `tracker` at the party `p`. -/
def splitDataXMpTracker (p : Fin 5) (output : Nat → Nat → Lint L)
    (input : Nat → BitVec (Overload.longLong.read L).width)
    (size batch_size tracker ring_size : Nat) : Nat → Nat → Lint L :=
  let shares := splitInput 9 ring_size (size*batch_size) fun i =>
    lastShareMp (Overload.longLong.read L) ring_size (input (tracker*size*batch_size + i))
  fun s i => if s < 6 then shares (shareIndeces p s) i else output s i

/-- The loop body of `splitData_X_mp` for element `i` of image `j`. The input goes to share 9
of element `i`, the drawn shares are taken from share 9 of element `j*size + i`. -/
def splitStepMp (ring_size size : Nat) (input : Nat → BitVec (Overload.lint.read L).width)
    (j i : Nat) (st : (Nat → Nat → Lint L) × Block) : (Nat → Nat → Lint L) × Block :=
  let (shares,seed) := drawShares 9 ring_size st.2
  let drawn := fun t => if t < 9 then Function.update (st.1 t) (j*size + i) (shares t) else st.1 t
  let last := Function.update (drawn 9) i
    (((Overload.lint.read L).maskInput L ring_size (input i)).setWidth (8*L))
  let last := (List.range 9).foldl (fun last t => Function.update last (j*size + i)
    (last (j*size + i) - drawn t (j*size + i))) last
  let last := Function.update last (j*size + i) (last (j*size + i) &&& shift L ring_size)
  (Function.update drawn 9 last,seed)

/-- `splitData_X_mp` for a `vector<Lint>` at the party `p`. -/
def splitDataXMp (p : Fin 5) (output : Nat → Nat → Lint L)
    (input : Nat → BitVec (Overload.lint.read L).width) (size batch_size ring_size : Nat) :
    Nat → Nat → Lint L :=
  let shares := ((List.range batch_size).foldl (fun st j => (List.range size).foldl
    (fun st i => splitStepMp ring_size size input j i st) st) ((fun _ _ => 0),key1)).1
  fun s i => if s < 6 then shares (shareIndeces p s) i else output s i

end

theorem foldl_update_sub (a : Nat) (f : Nat → Lint L) (m : Nat) (last : Nat → Lint L) :
    (List.range m).foldl (fun last t => Function.update last a (last a - f t)) last =
      Function.update last a ((List.range m).foldl (fun share t => share - f t) (last a)) := by
  induction m with
  | zero => exact (Function.update_eq_self a last).symm
  | succ m ih =>
    rw [List.range_succ,List.foldl_append,List.foldl_append,ih]
    simp only [List.foldl_cons,List.foldl_nil,Function.update_self,Function.update_idem]

section
variable [AesNi] {size : Nat} {input : Nat → BitVec (Overload.lint.read L).width}

theorem splitStepMp_drawn (j i : Nat) (st : (Nat → Nat → Lint L) × Block) {t : Nat} (ht : t < 9) :
    (splitStepMp k size input j i st).1 t =
      Function.update (st.1 t) (j*size + i) ((drawShares 9 k st.2).1 t) := by
  simp only [splitStepMp]
  rw [Function.update_of_ne ht.ne,if_pos ht]

theorem splitStepMp_nine (size : Nat) (input : Nat → BitVec (Overload.lint.read L).width)
    (j i : Nat) (st : (Nat → Nat → Lint L) × Block) :
    (splitStepMp k size input j i st).1 9 =
      let last := Function.update (st.1 9) i
        (((Overload.lint.read L).maskInput L k (input i)).setWidth (8*L))
      Function.update last (j*size + i) ((List.range 9).foldl
        (fun share t => share - (drawShares 9 k st.2).1 t) (last (j*size + i)) &&& shift L k) := by
  have hdrawn : ∀ last : Nat → Lint L, (List.range 9).foldl (fun last t => Function.update last
      (j*size + i) (last (j*size + i) - (if t < 9 then Function.update (st.1 t) (j*size + i)
        ((drawShares 9 k st.2).1 t) else st.1 t) (j*size + i))) last =
      (List.range 9).foldl (fun last t => Function.update last (j*size + i)
        (last (j*size + i) - (drawShares (L := L) 9 k st.2).1 t)) last := by
    intro last
    refine List.foldl_ext _ _ _ fun last t ht => ?_
    rw [if_pos (List.mem_range.mp ht),Function.update_self]
  simp only [splitStepMp,Function.update_self]
  rw [hdrawn,foldl_update_sub,Function.update_self,Function.update_idem,if_neg (lt_irrefl 9)]

section Turn
variable {j i m e t : Nat} (hm : j*size + i = m) (st : (Nat → Nat → Lint L) × Block)
include hm

theorem splitStepMp_at (ht : t < 9) :
    (splitStepMp k size input j i st).1 t m = (drawShares 9 k st.2).1 t := by
  rw [splitStepMp_drawn _ _ _ ht,hm,Function.update_self]

theorem splitStepMp_of_ne (he : e ≠ m) (ht : t < 9) :
    (splitStepMp k size input j i st).1 t e = st.1 t e := by
  rw [splitStepMp_drawn _ _ _ ht,hm,Function.update_of_ne he]

theorem foldl_splitStepMp_of_ne (he : e ≠ m) (x : Lint L) :
    (List.range 9).foldl (fun share t => share - (splitStepMp k size input j i st).1 t e) x =
      (List.range 9).foldl (fun share t => share - st.1 t e) x := by
  refine List.foldl_ext _ _ _ fun share t ht => ?_
  rw [splitStepMp_of_ne hm st he (List.mem_range.mp ht)]

theorem splitStepMp_nine_of_ne (he : e ≠ m) (hi : e ≠ i) :
    (splitStepMp k size input j i st).1 9 e = st.1 9 e := by
  rw [splitStepMp_nine,hm]
  dsimp only
  rw [Function.update_of_ne he,Function.update_of_ne hi]

theorem splitStepMp_nine_input (hi : i ≠ m) : (splitStepMp k size input j i st).1 9 i =
    ((Overload.lint.read L).maskInput L k (input i)).setWidth (8*L) := by
  rw [splitStepMp_nine,hm]
  dsimp only
  rw [Function.update_of_ne hi,Function.update_self]

theorem splitStepMp_nine_at : (splitStepMp k size input j i st).1 9 m =
    (List.range 9).foldl (fun share t => share - (splitStepMp k size input j i st).1 t m)
      (if m = i then ((Overload.lint.read L).maskInput L k (input i)).setWidth (8*L) else st.1 9 m)
      &&& shift L k := by
  rw [splitStepMp_nine,hm]
  dsimp only
  rw [Function.update_self,Function.update_apply]
  congr 1
  refine List.foldl_ext _ _ _ fun share t ht => ?_
  rw [splitStepMp_at hm st (List.mem_range.mp ht)]

end Turn

/-- The share arrays in the middle of the loops: the elements below `m` have been visited. -/
structure SplitInvariant (k size : Nat) (input : Nat → BitVec (Overload.lint.read L).width) (m : Nat)
    (st : Nat → Nat → Lint L) : Prop where
  ahead : ∀ e, m ≤ e → st 9 e = 0
  drawn : ∀ e, e < m → ∃ seed, ∀ t, t < 9 → st t e = (drawShares 9 k seed).1 t
  first : ∀ e, e < m → e < size → m ≤ e + size →
    st 9 e = lastShareMp (Overload.lint.read L) k (input e) fun t => st t e
  overwritten : ∀ e, e < size → e + size < m →
    st 9 e = ((Overload.lint.read L).maskInput L k (input e)).setWidth (8*L)
  further : ∀ e, e < m → size ≤ e → st 9 e =
    (List.range 9).foldl (fun share t => share - st t e) 0 &&& shift L k

theorem splitInvariant_step (hsize : 0 < size) {m : Nat} {st : (Nat → Nat → Lint L) × Block}
    (h : SplitInvariant k size input m st.1) :
    SplitInvariant k size input (m+1) (splitStepMp k size input (m/size) (m%size) st).1 := by
  have hm : m/size*size + m%size = m := Nat.div_add_mod' m size
  have hlt : m%size < size := Nat.mod_lt m hsize
  have hle : m%size ≤ m := Nat.mod_le m size
  have hround : m%size ≠ m → m%size + size ≤ m := by
    intro hne
    have hpos : 1 ≤ m/size := Nat.div_pos (Nat.le_of_not_lt fun hm => hne (Nat.mod_eq_of_lt hm)) hsize
    have hmul := Nat.mul_le_mul_right size hpos
    omega
  constructor
  case ahead =>
    intro e he
    rw [splitStepMp_nine_of_ne hm st (by omega) (by omega),h.ahead e (by omega)]
  case drawn =>
    intro e he
    rcases Nat.lt_succ_iff_lt_or_eq.mp he with hem | rfl
    · obtain ⟨seed,hseed⟩ := h.drawn e hem
      exact ⟨seed,fun t ht => (splitStepMp_of_ne hm st (by omega) ht).trans (hseed t ht)⟩
    · exact ⟨st.2,fun t ht => splitStepMp_at hm st ht⟩
  case first =>
    intro e he hes hme
    rcases Nat.lt_succ_iff_lt_or_eq.mp he with hem | rfl
    · have hi : e ≠ m%size := by
        rintro rfl
        have := hround (by omega)
        omega
      rw [splitStepMp_nine_of_ne hm st (by omega) hi,h.first e hem hes (by omega),lastShareMp,
        lastShareMp,foldl_splitStepMp_of_ne hm st (by omega)]
    · have hi : e%size = e := Nat.mod_eq_of_lt hes
      rw [splitStepMp_nine_at hm st,if_pos hi.symm,lastShareMp,hi]
  case overwritten =>
    intro e hes hem
    by_cases hi : e = m%size
    · rw [hi,splitStepMp_nine_input hm st (by omega)]
    · have hne : e + size ≠ m := by
        rintro rfl
        rw [Nat.add_mod_right,Nat.mod_eq_of_lt hes] at hi
        exact hi rfl
      rw [splitStepMp_nine_of_ne hm st (by omega) hi,h.overwritten e hes (by omega)]
  case further =>
    intro e he hes
    rcases Nat.lt_succ_iff_lt_or_eq.mp he with hem | rfl
    · rw [splitStepMp_nine_of_ne hm st (by omega) (by omega),h.further e hem hes,
        foldl_splitStepMp_of_ne hm st (by omega)]
    · rw [splitStepMp_nine_at hm st,if_neg (by omega),h.ahead e le_rfl]

theorem splitInvariant_loops (k : Nat) (input : Nat → BitVec (Overload.lint.read L).width)
    (size batch_size : Nat) : SplitInvariant k size input (batch_size*size)
      ((List.range batch_size).foldl (fun st j => (List.range size).foldl
        (fun st i => splitStepMp k size input j i st) st) ((fun _ _ => (0 : Lint L)),key1)).1 := by
  have hloops : (List.range batch_size).foldl (fun st j => (List.range size).foldl
      (fun st i => splitStepMp k size input j i st) st) ((fun _ _ => (0 : Lint L)),key1) =
      (List.range (batch_size*size)).foldl
        (fun st m => splitStepMp k size input (m/size) (m%size) st) ((fun _ _ => 0),key1) := by
    rw [← foldl_images]
    refine List.foldl_ext _ _ _ fun st j _ => List.foldl_ext _ _ _ fun st i hi => ?_
    rw [index_div (List.mem_range.mp hi),index_mod (List.mem_range.mp hi)]
  rw [hloops]
  have hstart : SplitInvariant k size input 0 fun _ _ => (0 : Lint L) :=
    ⟨fun _ _ => rfl,fun e he => absurd he (Nat.not_lt_zero e),
      fun e he => absurd he (Nat.not_lt_zero e),fun e _ he => absurd he (Nat.not_lt_zero _),
      fun e he => absurd he (Nat.not_lt_zero e)⟩
  rcases Nat.eq_zero_or_pos size with rfl | hsize
  · rw [Nat.mul_zero]
    exact hstart
  · induction batch_size*size with
    | zero => exact hstart
    | succ m ih =>
      rw [List.range_succ,List.foldl_append]
      exact splitInvariant_step hsize ih

end

@[reducible] def constantAes (c : Block) : AesNi where
  aesenc x _ := x
  aesenclast x _ := x ^^^ rawKey ^^^ c
  aeskeygenassist x _ := x

theorem offlinePrg_constant (c seed : Block) :
    @offlinePrg (constantAes c) seed (@offlinePrgKeyschedule (constantAes c) rawKey) = c := by
  have hkey : (@offlinePrgKeyschedule (constantAes c) rawKey).getD 0 0 = rawKey := by
    unfold offlinePrgKeyschedule prgKeyschedule
    rw [List.scanl_cons,List.getD_cons_zero]
  have hrounds : ∀ (l : List Block) x, l.foldl (@AesNi.aesenc (constantAes c)) x = x :=
    fun l x => List.foldl_fixed l
  have hlast : ∀ x y, @AesNi.aesenclast (constantAes c) x y = x ^^^ rawKey ^^^ c :=
    fun _ _ => rfl
  unfold offlinePrg prgAes
  simp only [hkey,hrounds,hlast]
  generalize rawKey = key
  rw [BitVec.xor_assoc seed,BitVec.xor_self,BitVec.xor_zero,BitVec.xor_comm seed,BitVec.xor_assoc,
    BitVec.xor_self,BitVec.xor_zero]

theorem drawShares_constant (c : Block) (draws : Nat) (seed : Block) {t : Nat} (ht : t < draws) :
    (@drawShares L (constantAes c) draws k seed).1 t = c.setWidth (8*L) &&& shift L k := by
  induction draws with
  | zero => exact absurd ht (Nat.not_lt_zero t)
  | succ draws ih =>
    unfold drawShares
    rw [List.range_succ,List.foldl_append,List.foldl_cons,List.foldl_nil]
    dsimp only
    rcases Nat.lt_succ_iff_lt_or_eq.mp ht with hlt | rfl
    · rw [Function.update_of_ne hlt.ne]
      exact ih hlt
    · rw [Function.update_self]
      unfold prgAesNi
      rw [offlinePrg_constant]

structure SplitColumn [AesNi] (k : Nat) (shares : Nat → Lint L) (v : BitVec k) : Prop where
  drawn : ∃ seed, ∀ t, t < 9 → shares t = (drawShares 9 k seed).1 t
  sum : ∑ t ∈ Finset.range 10, (shares t).setWidth k = v

/-- No share is the plain input by construction: with some generator it is another number. -/
theorem splitColumn_masked (hk₀ : 0 < k) (hk : k < 8*L) {shares : AesNi → Nat → Lint L}
    {v : BitVec k} (h : ∀ g, @SplitColumn L g k (shares g) v) {t : Nat} (ht : t < 10) :
    ∃ g, (shares g t).setWidth k ≠ v := by
  have hconstant : ∀ (c : Block) t, t < 9 →
      (shares (constantAes c) t).setWidth k = (c.setWidth (8*L)).setWidth k := by
    intro c t ht
    obtain ⟨seed,hdrawn⟩ := @SplitColumn.drawn L (constantAes c) k _ _ (h _)
    rw [hdrawn t ht,drawShares_constant c 9 seed ht,setWidth_and_shift]
  rcases Nat.lt_succ_iff_lt_or_eq.mp ht with hlt | rfl
  · refine ⟨constantAes (bitVal 128 !v.getLsbD 0),fun heq => ?_⟩
    rw [hconstant _ _ hlt] at heq
    have hbit := congrArg (fun v => v.getLsbD 0) heq
    simp only [BitVec.getLsbD_setWidth,decide_eq_true hk₀,decide_eq_true (by omega : 0 < 8*L),
      lsb_bitVal (by decide : 0 < 128),Bool.true_and] at hbit
    exact Bool.not_ne_self _ hbit
  · refine ⟨constantAes 1,fun heq => ?_⟩
    have hsum := @SplitColumn.sum L (constantAes 1) k _ _ (h _)
    have hone : ((1 : Block).setWidth (8*L)).setWidth k = 1 := by
      have hword : 1 < 2^(8*L) := Nat.one_lt_two_pow (by omega)
      apply BitVec.eq_of_toNat_eq
      simp [Nat.mod_eq_of_lt hword]
    rw [Finset.sum_range_succ,heq,Finset.sum_congr rfl fun j hj =>
      hconstant 1 j (Finset.mem_range.mp hj),hone,Finset.sum_const,Finset.card_range,
      nsmul_one,add_eq_right] at hsum
    have hbit := congrArg (fun v => v.getLsbD 0) hsum
    have hodd : Nat.testBit 9 0 = true := by decide
    simp only [BitVec.natCast_eq_ofNat,BitVec.getLsbD_ofNat,decide_eq_true hk₀,Bool.true_and,hodd,
      BitVec.ofNat_eq_ofNat] at hbit
    exact Bool.noConfusion hbit

theorem chosenShares_isSharing (shares : Nat → Nat → Lint L) (output : Shares 5 (Lint L)) (e : Nat) :
    ArithSharing shares5pc k
      (fun p s i => if s < 6 then shares (shareIndeces p s) i else output p s i) e
      (∑ t ∈ Finset.range 10, (shares t e).setWidth k) := by
  refine (Pattern.isSharing_indexed places5pc shareIndeces_eq
    (fun t => (shares t e).setWidth k)).congr fun p s hs => ?_
  simp only [if_pos (show s < 6 from hs)]

theorem shareIndeces_lt : ∀ p s, s < 6 → shareIndeces p s < 10 := by decide

/-- What a batch of `total` elements has to be shared as, with the generator as a parameter. -/
structure SplitRight (k total : Nat) (value : Nat → BitVec k) (out : AesNi → Shares 5 (Lint L)) :
    Prop where
  shared : ∀ g e, e < total → ArithSharing shares5pc k (out g) e (value e)
  masked : ∀ p s e, s < 6 → e < total → ∃ g, (out g p s e).setWidth k ≠ value e

theorem splitRight_of_columns (hk₀ : 0 < k) (hk : k < 8*L) {total : Nat} {value : Nat → BitVec k}
    {shares : AesNi → Nat → Nat → Lint L} (output : Shares 5 (Lint L))
    (h : ∀ e, e < total → ∀ g, @SplitColumn L g k (fun t => shares g t e) (value e)) :
    SplitRight k total value
      (fun g p s i => if s < 6 then shares g (shareIndeces p s) i else output p s i) where
  shared g e he := @SplitColumn.sum L g k _ _ (h e he g) ▸ chosenShares_isSharing (shares g) output e
  masked p s e hs he := by
    obtain ⟨g,hg⟩ := splitColumn_masked hk₀ hk (h e he) (shareIndeces_lt p s hs)
    refine ⟨g,?_⟩
    simp only [if_pos hs]
    exact hg

section
variable [AesNi]

theorem splitInput_splitColumn {c : IntType} (hk : k < 8*L) (input : Nat → BitVec c.width)
    {total e : Nat} (he : e < total) :
    SplitColumn (L := L) k (fun t => splitInput 9 k total (fun i => lastShareMp c k (input i)) t e)
      (BitVec.ofInt k (c.toInt (input e))) where
  drawn := by
    obtain ⟨seed,hcolumn⟩ := @splitInput_column L _ 9 k total (fun i => lastShareMp c k (input i)) e he
    refine ⟨seed,fun t ht => ?_⟩
    rw [hcolumn,Function.update_of_ne ht.ne]
  sum := splitInput_sum _ he fun drawn => by rw [lastShareMp_val _ hk]

variable {size m : Nat} {input : Nat → BitVec (Overload.lint.read L).width} {st : Nat → Nat → Lint L}

theorem SplitInvariant.splitColumn (h : SplitInvariant k size input size st) (hk : k < 8*L) {e : Nat}
    (he : e < size) :
    SplitColumn k (fun t => st t e) (BitVec.ofInt k ((Overload.lint.read L).toInt (input e))) where
  drawn := h.drawn e he
  sum := by
    rw [Finset.sum_range_succ,h.first e he he (by omega),lastShareMp_val _ hk]
    abel

theorem SplitInvariant.further_sum (h : SplitInvariant k size input m st) (hk : k < 8*L) {e : Nat}
    (he : e < m) (hes : size ≤ e) : ∑ t ∈ Finset.range 10, (st t e).setWidth k = 0 := by
  rw [Finset.sum_range_succ,h.further e he hes,setWidth_and_shift,setWidth_foldl_sub hk.le]
  simp

end
def imageValue (k size : Nat) (input : Nat → BitVec (Overload.lint.read L).width) (e : Nat) :
    BitVec k :=
  BitVec.ofInt k ((Overload.lint.read L).toInt (input (e%size)))

theorem splitDataXMp_plain [AesNi] (hk : k < 8*L) (input : Nat → BitVec (Overload.lint.read L).width)
    (output : Nat → Nat → Lint L) {size batch_size e : Nat} (he : e < size)
    (hb : 2 ≤ batch_size) :
    (splitDataXMp 0 output input size batch_size k 5 e).setWidth k =
      BitVec.ofInt k ((Overload.lint.read L).toInt (input e)) := by
  have hmul := Nat.mul_le_mul_right size hb
  have hnine : shareIndeces 0 5 = 9 := by decide
  have hplain := (splitInvariant_loops k input size batch_size).overwritten e he (by omega)
  simp only [splitDataXMp,hnine,if_pos (by decide : 5 < 6),hplain]
  rw [BitVec.setWidth_setWidth_of_le _ hk.le,(Overload.lint.read L).setWidth_maskInput hk]

theorem splitDataXMp_further [AesNi] (hk : k < 8*L)
    (input : Nat → BitVec (Overload.lint.read L).width) (output : Shares 5 (Lint L))
    (size batch_size : Nat) {e : Nat} (he : e < batch_size*size) (hes : size ≤ e) :
    ArithSharing shares5pc k (fun p => splitDataXMp p (output p) input size batch_size k) e 0 := by
  rw [← (splitInvariant_loops k input size batch_size).further_sum hk he hes]
  exact chosenShares_isSharing _ output e

theorem splitDataXMp_single (hk₀ : 0 < k) (hk : k < 8*L)
    (input : Nat → BitVec (Overload.lint.read L).width) (output : Shares 5 (Lint L)) (size : Nat) :
    SplitRight k size (imageValue k size input)
      fun _ p => splitDataXMp p (output p) input size 1 k := by
  refine splitRight_of_columns hk₀ hk output fun e he g => ?_
  have hloops := @splitInvariant_loops L g k input size 1
  rw [Nat.one_mul] at hloops
  rw [imageValue,Nat.mod_eq_of_lt he]
  exact hloops.splitColumn hk he

/-- The overload with a `tracker` shares every batch right. The other one does so for a single
image only, be it in what is shared or in what a single share shows. -/
theorem splitDataXMp_iff (hk₀ : 0 < k) (hk : k < 8*L) (size tracker : Nat) {batch_size : Nat}
    (hb : 1 ≤ batch_size) :
    (∀ input (output : Shares 5 (Lint L)), SplitRight k (size*batch_size)
      (fun e => BitVec.ofInt k ((Overload.longLong.read L).toInt
        (input (tracker*size*batch_size + e))))
      fun _ p => splitDataXMpTracker p (output p) input size batch_size tracker k) ∧
    (∀ input (output : Shares 5 (Lint L)), SplitRight k (size*batch_size) (imageValue k size input)
      (fun _ p => splitDataXMp p (output p) input size batch_size k) ↔
        batch_size = 1 ∨ size = 0) ∧
    ∀ (_ : AesNi) (output : Shares 5 (Lint L)), (∀ input e, e < size*batch_size →
      ArithSharing shares5pc k (fun p => splitDataXMp p (output p) input size batch_size k) e
        (imageValue k size input e)) ↔ batch_size = 1 ∨ size = 0 := by
  have hright : ∀ input (output : Shares 5 (Lint L)), batch_size = 1 ∨ size = 0 →
      SplitRight k (size*batch_size) (imageValue k size input)
        fun _ p => splitDataXMp p (output p) input size batch_size k := by
    rintro input output (rfl | rfl)
    · rw [Nat.mul_one]
      exact splitDataXMp_single hk₀ hk input output size
    · rw [Nat.zero_mul]
      exact ⟨fun _ e he => absurd he (Nat.not_lt_zero e),fun _ _ e _ he => absurd he (Nat.not_lt_zero e)⟩
  refine ⟨fun input output => ?_,fun input output => ⟨fun h => ?_,hright input output⟩,
    fun g output => ⟨fun h => ?_,fun h input => (hright input output h).shared g⟩⟩
  · refine splitRight_of_columns hk₀ hk output fun e he g => ?_
    exact @splitInput_splitColumn L k g _ hk (fun i => input (tracker*size*batch_size + i)) _ e he
  · by_contra hmany
    obtain ⟨hb₁,hsize⟩ := not_or.mp hmany
    have hpos : 0 < size := Nat.pos_of_ne_zero hsize
    obtain ⟨g,hg⟩ := h.masked 0 5 0 (by decide) (Nat.mul_pos hpos hb)
    refine hg ?_
    rw [imageValue,Nat.zero_mod]
    exact splitDataXMp_plain hk input (output 0) hpos (by omega)
  · by_contra hmany
    obtain ⟨hb₁,hsize⟩ := not_or.mp hmany
    have hpos : 0 < size := Nat.pos_of_ne_zero hsize
    have hmul := Nat.mul_le_mul_right size (show 2 ≤ batch_size by omega)
    have hzero := splitDataXMp_further hk (fun _ => (1 : Lint L)) output size batch_size
      (show size < batch_size*size by omega) le_rfl
    have hone : BitVec.ofInt k ((Overload.lint.read L).toInt (1 : Lint L)) = 0 :=
      (h (fun _ => (1 : Lint L)) size (by rw [Nat.mul_comm]; omega)).unique hzero
    have hword : (Overload.lint.read L).toInt (1 : Lint L) = 1 := by
      show (((1 : Lint L).toNat : Nat) : Int) = 1
      have hlt : 1 < 2^(8*L) := Nat.one_lt_two_pow (by omega)
      simp [Nat.mod_eq_of_lt hlt]
    rw [hword] at hone
    have hbit := congrArg (fun v => v.getLsbD 0) hone
    simp [hk₀] at hbit

theorem splitDataXMp_iff_images :
    SplitRight 20 (3*2) (fun e => BitVec.ofInt 20 ((Overload.longLong.read 4).toInt
        (BitVec.ofNat 64 (2*3*2 + e))))
      (fun _ p => splitDataXMpTracker (L := 4) p (fun _ _ => 0) (fun i => BitVec.ofNat 64 i) 3 2 2 20) ∧
    ¬ SplitRight 20 (3*2) (fun e => BitVec.ofInt 20 ((Overload.lint.read 4).toInt
        (BitVec.ofNat 32 (e%3))))
      fun _ p => splitDataXMp (L := 4) p (fun _ _ => 0) (fun i => BitVec.ofNat 32 i) 3 2 20 := by
  obtain ⟨htracker,himage,-⟩ := splitDataXMp_iff (L := 4) (k := 20) (by decide) (by decide) 3 2
    (by decide : 1 ≤ 2)
  exact ⟨htracker (fun i => BitVec.ofNat 64 i) fun _ _ _ => 0,fun h =>
    absurd ((himage (fun i => BitVec.ofNat 32 i) fun _ _ _ => 0).mp h) (by decide)⟩

/-- The image 1 of one element, twice: party 1 is given the 1 itself, whatever is drawn, and
the second copy is shared as 0. -/
theorem splitDataXMp_one_twice : ¬ ∃ _ : AesNi, ¬
    ((splitDataXMp (L := 4) 0 (fun _ _ => 0) (fun _ => 1) 1 2 20 5 0).setWidth 20 = (1 : BitVec 20) ∧
    ArithSharing shares5pc 20 (fun p => splitDataXMp (L := 4) p (fun _ _ => 0) (fun _ => 1) 1 2 20)
      1 0 ∧
    ¬ ArithSharing shares5pc 20 (fun p => splitDataXMp (L := 4) p (fun _ _ => 0) (fun _ => 1) 1 2 20)
      1 1) := by
  rintro ⟨_,h⟩
  have hplain := splitDataXMp_plain (L := 4) (k := 20) (by decide) (fun _ => 1) (fun _ _ => 0)
    (show 0 < 1 by decide) (le_refl 2)
  have hzero := splitDataXMp_further (L := 4) (k := 20) (by decide) (fun _ => 1) (fun _ _ _ => 0)
    1 2 (e := 1) (by decide) le_rfl
  exact h ⟨hplain,hzero,fun hone => absurd (hone.unique hzero) (by decide)⟩

end RssRing
