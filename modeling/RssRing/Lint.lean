import Mathlib.Data.BitVec
import Mathlib.Algebra.Ring.BooleanRing
import RssRing.Library.Loops
set_option autoImplicit false

namespace RssRing

abbrev Byte := BitVec 8

/-- The unsigned machine word of `sizeof(Lint) = L` bytes: `L = 4` for ring
sizes up to 30, `L = 8` for ring sizes up to 62. -/
abbrev Lint (L : Nat) := BitVec (8*L)

variable {L : Nat}

def getBit (X : Lint L) (N : Nat) : Lint L := (X >>> N) &&& 1

def setBit (X : Lint L) (N : Nat) (B : Lint L) : Lint L :=
  (X &&& ~~~((1 : Lint L) <<< N)) ||| (B <<< N)

/-- `NodeNetwork::SHIFT[i]`, the mask of the `i` low bits. -/
def shift (L i : Nat) : Lint L :=
  if i = 8*L then BitVec.allOnes (8*L) else ((1 : Lint L) <<< i) - 1

def evenOddTemp (L : Nat) : Nat → Lint L
  | 0 => 0
  | i+1 => (evenOddTemp L i ||| (BitVec.ofBool (i % 2 = 0)).setWidth (8*L)) <<< 1

def even (L i : Nat) : Lint L := (evenOddTemp L (8*L+1) >>> 1) &&& shift L i
def odd (L i : Nat) : Lint L := evenOddTemp L (8*L+1) &&& shift L i

def ofBits (w : Nat) (f : Nat → Bool) : BitVec w :=
  (BitVec.ofBoolListLE ((List.range w).map f)).setWidth w

/-- `memcpy` of `bytes` bytes from `src + off` over the low end of a word. -/
def memcpyWord (old : Lint L) (src : Nat → Byte) (off bytes : Nat) : Lint L :=
  ofBits (8*L) fun j =>
    if j < 8*bytes then (src (off + j/8)).getLsbD (j%8) else old.getLsbD j

def memcpyArray (old : Nat → Lint L) (src : Nat → Byte) (off bytes : Nat) (i : Nat) : Lint L :=
  ofBits (8*L) fun j =>
    if i*L + j/8 < bytes then (src (off + (i*L + j/8))).getLsbD (j%8)
    else (old i).getLsbD j

def byteOf (x : Lint L) (m : Nat) : Byte := (x >>> (8*m)).setWidth 8

def byteWidth (ring_size : Nat) : Nat := (ring_size + 7) >>> 3

theorem byteWidth_eq (k : Nat) : byteWidth k = (k+7)/8 := by
  simp [byteWidth,Nat.shiftRight_eq_div_pow]

theorem byteWidth_pos {k : Nat} (hk : 0 < k) : 0 < byteWidth k := by
  rw [byteWidth_eq]; omega

theorem le_byteWidth (k : Nat) : k ≤ 8*byteWidth k := by
  rw [byteWidth_eq]; omega

theorem byteWidth_le {k : Nat} (hk : k ≤ 8*L) : byteWidth k ≤ L := by
  rw [byteWidth_eq]; omega

theorem last_byte_outside {k : Nat} (hk₀ : 0 < k) (hk : k ≤ 8*L) (hbytes : byteWidth k ≠ L) {size : Nat}
    (hsize : ¬ size ≤ 1) : ¬ (size-1)*L + (byteWidth k - 1) < byteWidth k*size := by
  have hle := byteWidth_le hk
  have hw := byteWidth_eq k
  have hmul := Nat.mul_le_mul_left (size-1) (show byteWidth k + 1 ≤ L by omega)
  have hsz : byteWidth k*size = (size-1)*byteWidth k + byteWidth k := by
    rw [← Nat.succ_mul,Nat.mul_comm]; congr 1; omega
  rw [Nat.mul_succ] at hmul
  rw [hsz]
  omega

@[simp] theorem getLsbD_ofBits (w : Nat) (f : Nat → Bool) (j : Nat) :
    (ofBits w f).getLsbD j = (decide (j < w) && f j) := by
  rw [ofBits,BitVec.getLsbD_setWidth,BitVec.getLsbD_ofBoolListLE]
  by_cases hj : j < w <;> simp [hj,List.getD_eq_getElem?_getD]

@[simp] theorem getLsbD_memcpyWord (old : Lint L) (src : Nat → Byte) (off bytes j : Nat) :
    (memcpyWord old src off bytes).getLsbD j =
      (decide (j < 8*L) && if j < 8*bytes then (src (off + j/8)).getLsbD (j%8)
        else old.getLsbD j) := by
  rw [memcpyWord,getLsbD_ofBits]

theorem setWidth_memcpyWord_fill {k : Nat} (hk : k ≤ 8*L) (old : Lint L) {src : Nat → Byte}
    {off : Nat} (c : Bool) (hsrc : ∀ m, m < byteWidth k → src (off + m) = if c then 255 else 0) :
    (memcpyWord old src off (byteWidth k)).setWidth k = if c then BitVec.allOnes k else 0 := by
  have hwidth := le_byteWidth k
  apply BitVec.eq_of_getLsbD_eq
  intro j hj
  have hj8 : j < 8*byteWidth k := by omega
  rw [BitVec.getLsbD_setWidth,decide_eq_true hj,Bool.true_and,getLsbD_memcpyWord,
    decide_eq_true (by omega),Bool.true_and,if_pos hj8,hsrc _ (by omega)]
  cases c with
  | false => simp [-BitVec.getLsbD_eq_getElem]
  | true =>
    have hones : ∀ t, t < 8 → (255 : Byte).getLsbD t = true := by decide
    rw [if_pos rfl,if_pos rfl,hones _ (Nat.mod_lt j (by decide))]
    simp [hj,-BitVec.getLsbD_eq_getElem]

@[simp] theorem getLsbD_memcpyArray (old : Nat → Lint L) (src : Nat → Byte)
    (off bytes i j : Nat) :
    (memcpyArray old src off bytes i).getLsbD j =
      (decide (j < 8*L) && if i*L + j/8 < bytes then (src (off + (i*L + j/8))).getLsbD (j%8)
        else (old i).getLsbD j) := by
  rw [memcpyArray,getLsbD_ofBits]

@[simp] theorem getLsbD_byteOf (x : Lint L) (m j : Nat) :
    (byteOf x m).getLsbD j = (decide (j < 8) && x.getLsbD (8*m+j)) := by
  simp [byteOf]

theorem one_shiftLeft_sub_one {w i : Nat} (hi : i < w) :
    ((1 : BitVec w) <<< i - 1).toNat = 2^i - 1 := by
  have hpow : 2^i < 2^w := Nat.pow_lt_pow_right (by decide) hi
  have hpos : 0 < 2^i := Nat.two_pow_pos i
  have hone : 1 % 2^w = 1 := Nat.mod_eq_of_lt (by omega)
  have hmul : 1 <<< i % 2^w = 2^i := by rw [Nat.one_shiftLeft,Nat.mod_eq_of_lt hpow]
  simp only [BitVec.toNat_sub,BitVec.toNat_shiftLeft,BitVec.toNat_ofNat,BitVec.ofNat_eq_ofNat,
    hone,hmul]
  rw [show 2^w - 1 + 2^i = 2^i - 1 + 2^w by omega,Nat.add_mod_right,
    Nat.mod_eq_of_lt (by omega)]

@[simp] theorem getLsbD_shift (i j : Nat) :
    (shift L i).getLsbD j = (decide (j < i) && decide (j < 8*L)) := by
  rcases Nat.lt_trichotomy i (8*L) with h | h | h
  · have hne : i ≠ 8*L := by omega
    rw [shift,if_neg hne,BitVec.getLsbD,one_shiftLeft_sub_one h,Nat.testBit_two_pow_sub_one]
    by_cases hj : j < i
    · simp [hj,show j < 8*L by omega]
    · simp [hj]
  · simp [shift,h]
  · have hne : i ≠ 8*L := by omega
    have hzero : (1 : Lint L) <<< i = 0 := by
      apply BitVec.eq_of_getLsbD_eq
      intro m hm
      simp [show m < i by omega]
    have hones : (0 : Lint L) - 1 = BitVec.allOnes (8*L) := by
      rw [← BitVec.neg_one_eq_allOnes]; simp
    rw [shift,if_neg hne,hzero,hones,BitVec.getLsbD_allOnes]
    by_cases hj : j < 8*L
    · simp [hj,show j < i by omega]
    · simp [hj]

theorem getLsbD_and_shift (x : Lint L) (i j : Nat) :
    (x &&& shift L i).getLsbD j = (x.getLsbD j && decide (j < i)) := by
  rw [BitVec.getLsbD_and,getLsbD_shift]
  rcases Nat.lt_or_ge j (8*L) with hj | hj
  · rw [decide_eq_true hj,Bool.and_true]
  · rw [BitVec.getLsbD_of_ge x j hj,Bool.false_and,Bool.false_and]

def bitWord (L : Nat) (c : Bool) : Lint L := (BitVec.ofBool c).setWidth (8*L)

@[simp] theorem getLsbD_bitWord (c : Bool) (j : Nat) :
    (bitWord L c).getLsbD j = (decide (j < 8*L) && decide (j = 0) && c) := by
  by_cases h : j = 0
  · subst h; simp [bitWord]
  · simp [bitWord,h]

theorem getBit_eq (X : Lint L) (N : Nat) : getBit X N = bitWord L (X.getLsbD N) := by
  apply BitVec.eq_of_getLsbD_eq
  intro j hj
  by_cases h : j = 0
  · subst h
    simp [getBit,hj,-BitVec.getLsbD_eq_getElem]
  · simp [getBit,h,-BitVec.getLsbD_eq_getElem]

theorem bitWord_xor (a b : Bool) : bitWord L a ^^^ bitWord L b = bitWord L (a ^^ b) := by
  apply BitVec.eq_of_getLsbD_eq
  intro j hj
  have hpos : 0 < L := by omega
  by_cases h : j = 0 <;> simp [h,hpos,-BitVec.getLsbD_eq_getElem]

theorem getLsbD_setBit (X : Lint L) (N j : Nat) (c : Bool) (hj : j < 8*L) :
    (setBit X N (bitWord L c)).getLsbD j = if j = N then c else X.getLsbD j := by
  have hpos : 0 < 8*L := by omega
  rcases Nat.lt_trichotomy j N with h | h | h
  · simp [setBit,hj,h,show j ≠ N by omega,-BitVec.getLsbD_eq_getElem]
  · subst h; simp [setBit,hj,hpos,-BitVec.getLsbD_eq_getElem]
  · have hsub : j - N ≠ 0 := by omega
    simp [setBit,hj,show ¬ j < N by omega,show j ≠ N by omega,hsub,-BitVec.getLsbD_eq_getElem]

theorem getBit_byte (x : Byte) (N : Nat) :
    getBit (x.setWidth (8*L)) (N%8) = bitWord L (x.getLsbD (N%8)) := by
  have hN : N%8 < 8 := Nat.mod_lt N (by decide)
  rcases Nat.eq_zero_or_pos L with rfl | hL
  · exact BitVec.eq_of_getLsbD_eq fun j hj => absurd hj (Nat.not_lt_zero j)
  · rw [getBit_eq,BitVec.getLsbD_setWidth,decide_eq_true (show N%8 < 8*L by omega),Bool.true_and]

theorem getLsbD_foldl_setBit {A : Type} (l : List A) (pos : A → Nat) (f : A → Bool → Bool)
    (hl : (l.map pos).Nodup) (X : Lint L) (j : Nat) (hj : j < 8*L) :
    let Y := l.foldl (fun Y a => setBit Y (pos a) (bitWord L (f a (Y.getLsbD (pos a))))) X
    (∀ a ∈ l, pos a = j → Y.getLsbD j = f a (X.getLsbD j)) ∧
      ((∀ a ∈ l, pos a ≠ j) → Y.getLsbD j = X.getLsbD j) := by
  induction l generalizing X with
  | nil => simp
  | cons b l ih =>
    simp only [List.map_cons,List.nodup_cons] at hl
    obtain ⟨hb,hl⟩ := hl
    obtain ⟨ih₁,ih₂⟩ := ih hl (setBit X (pos b) (bitWord L (f b (X.getLsbD (pos b)))))
    simp only [List.foldl_cons]
    constructor
    · intro a ha hpos
      rcases List.mem_cons.mp ha with rfl | ha
      · have hrest : ∀ d ∈ l, pos d ≠ j := by
          intro d hd heq
          exact hb (List.mem_map.mpr ⟨d,hd,heq.trans hpos.symm⟩)
        rw [ih₂ hrest,getLsbD_setBit _ _ _ _ hj,if_pos hpos.symm,hpos]
      · have hne : j ≠ pos b := fun h => hb (List.mem_map.mpr ⟨a,ha,hpos.trans h⟩)
        rw [ih₁ a ha hpos,getLsbD_setBit _ _ _ _ hj,if_neg hne]
    · intro hne
      have hbj := hne b List.mem_cons_self
      rw [ih₂ (fun a ha => hne a (List.mem_cons_of_mem b ha)),getLsbD_setBit _ _ _ _ hj,
        if_neg (fun h => hbj h.symm)]

theorem getLsbD_foldl_range (c : Nat → Bool) (m : Nat) (X : Lint L) (j : Nat) (hj : j < 8*L) :
    ((List.range m).foldl (fun Y t => setBit Y t (bitWord L (c t))) X).getLsbD j =
      if j < m then c j else X.getLsbD j := by
  induction m with
  | zero => simp
  | succ m ih =>
    rw [List.range_succ,List.foldl_append,List.foldl_cons,List.foldl_nil,getLsbD_setBit _ _ _ _ hj,
      ih]
    by_cases h : j = m
    · subst h; simp
    · have hiff : j < m+1 ↔ j < m := by omega
      simp only [h,if_false,hiff]

theorem getLsbD_foldl_pairs (c c' : Nat → Bool) (m : Nat) (X : Lint L) (j : Nat) (hj : j < 8*L) :
    ((List.range m).foldl (fun Y t =>
      setBit (setBit Y (2*t) (bitWord L (c t))) (2*t+1) (bitWord L (c' t))) X).getLsbD j =
      if j < 2*m then (if j%2 = 0 then c (j/2) else c' (j/2)) else X.getLsbD j := by
  induction m with
  | zero => simp
  | succ m ih =>
    rw [List.range_succ,List.foldl_append,List.foldl_cons,List.foldl_nil,getLsbD_setBit _ _ _ _ hj,
      getLsbD_setBit _ _ _ _ hj,ih]
    by_cases h₁ : j = 2*m+1
    · subst h₁
      have hhalf : (2*m+1)/2 = m := by omega
      have hodd : ¬ (2*m+1)%2 = 0 := by omega
      simp only [if_true,hodd,if_false,hhalf,show 2*m+1 < 2*(m+1) by omega]
    · by_cases h₀ : j = 2*m
      · subst h₀
        simp
      · have hiff : j < 2*(m+1) ↔ j < 2*m := by omega
        simp only [h₁,h₀,if_false,hiff]

theorem getLsbD_foldl_pair (c c' : Nat → Bool) {m j : Nat} (X : Lint L) (hm : 2*m ≤ 8*L) (hj : j < m) :
    ((List.range m).foldl (fun Y t =>
      setBit (setBit Y (2*t) (bitWord L (c t))) (2*t+1) (bitWord L (c' t))) X).getLsbD (2*j) = c j ∧
    ((List.range m).foldl (fun Y t =>
      setBit (setBit Y (2*t) (bitWord L (c t))) (2*t+1) (bitWord L (c' t))) X).getLsbD (2*j+1) =
        c' j := by
  have heven : 2*j/2 = j := by omega
  have hodd : (2*j+1)/2 = j := by omega
  have hodd' : ¬ (2*j+1)%2 = 0 := by omega
  rw [getLsbD_foldl_pairs _ _ _ _ _ (by omega),getLsbD_foldl_pairs _ _ _ _ _ (by omega),
    if_pos (by omega),if_pos (Nat.mul_mod_right 2 j),if_pos (by omega),if_neg hodd',heven,hodd]
  exact ⟨rfl,rfl⟩

theorem getLsbD_evenOddTemp (i j : Nat) (hj : j < 8*L) :
    (evenOddTemp L i).getLsbD j = (decide (1 ≤ j ∧ j ≤ i) && decide ((i-j) % 2 = 0)) := by
  induction i generalizing j with
  | zero => simp [evenOddTemp]; omega
  | succ i ih =>
    by_cases h : j = 0
    · subst h; simp [evenOddTemp]
    · have hpred : j - 1 < 8*L := by omega
      have hone : ¬ j < 1 := by omega
      simp only [evenOddTemp,BitVec.getLsbD_shiftLeft,hj,hone,BitVec.getLsbD_or,ih (j-1) hpred,
        BitVec.getLsbD_setWidth,BitVec.getLsbD_ofBool,hpred]
      by_cases h₁ : j = 1
      · subst h₁
        simp
      · have hj₁ : j - 1 ≠ 0 := by omega
        simp only [hj₁]
        grind

theorem getLsbD_even (i j : Nat) (hi : i ≤ 8*L) :
    (even L i).getLsbD j = (decide (j < i) && decide (j % 2 = 0)) := by
  rw [even,getLsbD_and_shift,BitVec.getLsbD_ushiftRight]
  by_cases hj : j < i
  · by_cases htop : 1 + j < 8*L
    · rw [getLsbD_evenOddTemp _ _ htop]
      grind
    · have hodd : ¬ j % 2 = 0 := by omega
      rw [BitVec.getLsbD_of_ge _ _ (by omega),Bool.false_and,decide_eq_false hodd,Bool.and_false]
  · simp [hj]

theorem getLsbD_odd (i j : Nat) (hi : i ≤ 8*L) :
    (odd L i).getLsbD j = (decide (j < i) && decide (j % 2 = 1)) := by
  rw [odd,getLsbD_and_shift]
  by_cases hj : j < i
  · rw [getLsbD_evenOddTemp _ _ (by omega)]
    grind
  · simp [hj]

end RssRing
