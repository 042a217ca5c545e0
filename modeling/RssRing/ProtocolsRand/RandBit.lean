import RssRing.Library.Lifting
import RssRing.ProtocolsComposite.Suite
set_option autoImplicit false

namespace RssRing
open Replicated Lifting

variable {n L k : Nat} {G : Type}

structure SqrtInv (L : Nat) where
  c1 : Lint L
  c2 : Lint L
  d_ : Lint L

namespace SqrtInv

def step (e : Lint L) (st : SqrtInv L) : SqrtInv L :=
  let temp := e - st.c1*st.c1
  let c1 := if temp ≠ 0 then st.c1 + ((temp &&& (st.d_ <<< 1)) >>> 1) else st.c1
  let temp := 1 - c1*st.c2
  ⟨c1,st.c2 + (temp &&& st.d_),st.d_ <<< 1⟩

/-- After `m` steps `c1` is a root of `e` to `m+3` bits, and `c2` inverts it to
`m+2` bits. -/
structure Approx (e : Lint L) (m : Nat) (st : SqrtInv L) : Prop where
  digit : st.d_ = 2^(m+2)
  root : 2^(m+3) ∣ e - st.c1*st.c1
  one : 2^2 ∣ st.c1 - 1
  inverse : 2^(m+2) ∣ 1 - st.c1*st.c2

theorem approx_step {e : Lint L} {m : Nat} {st : SqrtInv L} (h : Approx e m st) :
    Approx e (m+1) (step e st) := by
  obtain ⟨c1,c2,d_⟩ := st
  obtain ⟨hd,hroot,hone,hinv⟩ := h
  simp only at hd hroot hone hinv
  subst hd
  have hnext : (2 : Lint L)^(m+2) <<< 1 = 2^(m+3) := by rw [← two_mul_eq,← pow_succ']
  let temp := e - c1*c1
  let δ := (temp &&& 2^(m+3)) >>> 1
  obtain ⟨hδ,hδm⟩ := half_and temp (m+2)
  have hc1 : (if temp ≠ 0 then c1 + ((temp &&& ((2 : Lint L)^(m+2) <<< 1)) >>> 1) else c1) =
      c1 + δ := by
    by_cases hzero : temp = 0
    · simp [δ,hzero]
    · rw [if_pos hzero,hnext]
  have hodd : (2 : Lint L) ∣ c1 - 1 := (Dvd.intro_left (2 : Lint L) (by ring)).trans hone
  have hroot' : 2^(m+4) ∣ e - (c1+δ)*(c1+δ) :=
    sq_step (j := m+2) (by omega) hodd (dvd_sub_and hroot) hδ hδm
  have hone' : 2^2 ∣ c1 + δ - 1 := by
    have hsplit : c1 + δ - 1 = (c1 - 1) + δ := by ring
    rw [hsplit]
    exact dvd_add hone ((pow_dvd_pow 2 (by omega)).trans hδm)
  have hinv' : 2^(m+2) ∣ 1 - (c1+δ)*c2 := by
    have hsplit : 1 - (c1+δ)*c2 = (1 - c1*c2) - δ*c2 := by ring
    rw [hsplit]
    exact dvd_sub hinv (Dvd.dvd.mul_right hδm _)
  have hm := dvd_sub_and hinv'
  have hmlow : 2^(m+2) ∣ (1 - (c1+δ)*c2) &&& 2^(m+2) := by
    have hdvd := dvd_sub hinv' ((pow_dvd_pow 2 (by omega)).trans hm)
    rwa [sub_sub_cancel] at hdvd
  have hodd' : (2 : Lint L) ∣ c1 + δ - 1 := (Dvd.intro_left (2 : Lint L) (by ring)).trans hone'
  simp only [step,temp] at hc1 ⊢
  rw [hc1]
  exact ⟨hnext,hroot',hone',inv_step hodd' hm hmlow⟩

end SqrtInv

def rssSqrtInv (ring_size : Nat) (e : Lint L) : Lint L :=
  let st := (List.range (ring_size-3)).foldl (fun st _ => SqrtInv.step e st) ⟨1,1,4⟩
  st.c2 + ((1 - st.c1*st.c2) &&& st.d_)

def rssSqrtInvs (c e : Nat → Lint L) (size ring_size : Nat) : Nat → Lint L :=
  (List.range size).foldl (fun c i => Function.update c i (rssSqrtInv ring_size (e i))) c

theorem rssSqrtInv_spec (hk : 3 ≤ k) {e : Lint L} (he : 2^3 ∣ e - 1) :
    ∃ r, 2^k ∣ e - r*r ∧ 2^2 ∣ r - 1 ∧ 2^k ∣ 1 - r*rssSqrtInv k e := by
  have hrun : ∀ m, SqrtInv.Approx e m
      ((List.range m).foldl (fun st _ => SqrtInv.step e st) ⟨1,1,4⟩) := by
    intro m
    induction m with
    | zero =>
      refine ⟨?_,?_,?_,?_⟩
      · show (4 : Lint L) = 2^2
        norm_num
      · simpa using he
      · show (2 : Lint L)^2 ∣ 1 - 1
        rw [sub_self]
        exact dvd_zero _
      · show (2 : Lint L)^2 ∣ 1 - 1*1
        rw [mul_one,sub_self]
        exact dvd_zero _
    | succ m ih =>
      rw [List.range_succ,List.foldl_append]
      exact SqrtInv.approx_step ih
  obtain ⟨hd,hroot,hone,hinv⟩ := hrun (k-3)
  rw [show k-3+3 = k by omega] at hroot
  refine ⟨_,hroot,hone,?_⟩
  rw [rssSqrtInv]
  have hodd := (Dvd.intro_left (2 : Lint L) (by ring : (2 : Lint L)*2 = 2^2)).trans hone
  have hlow := dvd_sub_and hinv
  have hmlow := dvd_sub hinv ((pow_dvd_pow (2 : Lint L) (Nat.le_succ _)).trans hlow)
  rw [sub_sub_cancel] at hmlow
  have hend := inv_step hodd hlow hmlow
  rw [hd]
  rwa [show k-3+2+1 = k by omega] at hend

section Bits

def lsbHom (hk : 0 < k) : BitVec k →+ Bool where
  toFun x := x.getLsbD 0
  map_zero' := BitVec.getLsbD_zero
  map_add' x y := by
    rw [BitVec.getLsbD_add hk,BitVec.carry_zero,Bool.xor_false]
    rfl

theorem ofBits_succ (f : Nat → Bool) (m : Nat) :
    ofBits k (fun j => decide (j < m+1) && f j) =
      ofBits k (fun j => decide (j < m) && f j) + 2^m*bitVal k (f m) := by
  have hbit : ∀ j, j < k → ((2 : BitVec k)^m*bitVal k (f m)).getLsbD j =
      (decide (j = m) && f m) := by
    intro j hj
    rw [Lifting.two_pow_mul,BitVec.getLsbD_shiftLeft,decide_eq_true hj,Bool.true_and]
    rcases Nat.lt_trichotomy j m with h | h | h
    · simp [h,show j ≠ m by omega]
    · subst h
      rw [Nat.sub_self,lsb_bitVal (by omega)]
      simp
    · have hsub : j - m ≠ 0 := by omega
      simp [bitVal,hsub,show j ≠ m by omega]
  rw [BitVec.add_eq_or_of_and_eq_zero]
  · apply BitVec.eq_of_getLsbD_eq
    intro j hj
    rw [BitVec.getLsbD_or,getLsbD_ofBits,getLsbD_ofBits,hbit j hj]
    grind
  · apply BitVec.eq_of_getLsbD_eq
    intro j hj
    rw [BitVec.getLsbD_and,getLsbD_ofBits,hbit j hj]
    grind

theorem setWidth_shiftLeft (hk : k ≤ 8*L) (x : Lint L) (j : Nat) :
    (x <<< j).setWidth k = 2^j*x.setWidth k := by
  rw [← Lifting.two_pow_mul,← lowBits_apply hk,map_mul,map_pow,map_ofNat,lowBits_apply]

theorem setWidth_bitWord_mul (hk : k ≤ 8*L) (c : Bool) (x : Lint L) :
    (bitWord L c*x).setWidth k = if c then x.setWidth k else 0 := by
  rw [← lowBits_apply hk,map_mul,lowBits_apply,lowBits_apply,setWidth_bitWord hk,bitVal_eq]
  cases c <;> simp

theorem bitVal_flip (k : Nat) (e β : Bool) :
    (if e then 1 - bitVal k β else bitVal k β) = bitVal k (e ^^ β) := by
  cases e <;> cases β <;> simp [bitVal_eq]

variable {H : Pattern (Fin n) (Finset (Fin n))} {x : Shares n (Lint L)}

theorem lsb_isSharing (hk : 0 < k) {i : Nat} {c : Bool}
    (h : ArithSharing H k x i (bitVal k c)) :
    H.IsSharing (fun p s => (x p s i).getLsbD 0) c := by
  have hbit := h.map (lsbHom hk)
  rw [show lsbHom hk (bitVal k c) = c from lsb_bitVal hk c] at hbit
  refine hbit.congr fun p s _ => ?_
  show (x p s i).getLsbD 0 = ((x p s i).setWidth k).getLsbD 0
  rw [BitVec.getLsbD_setWidth,decide_eq_true hk,Bool.true_and]

theorem weighted_isSharing (hk : k ≤ 8*L) {f : Nat → Bool} {start : Nat} (m : Nat)
    (h : ∀ t, t < m → ArithSharing H k x (start + t) (bitVal k (f t))) :
    H.IsSharing (fun p s => ((List.range m).foldl
      (fun y t => y + (x p s (start + t) <<< t)) (0 : Lint L)).setWidth k)
      (ofBits k fun t => decide (t < m) && f t) := by
  induction m with
  | zero =>
    have hzero : ofBits k (fun t => decide (t < 0) && f t) = 0 := by
      apply BitVec.eq_of_getLsbD_eq
      intro t ht
      simp [-BitVec.getLsbD_eq_getElem]
    rw [hzero]
    exact Pattern.isSharing_zero.congr fun p s _ => by simp
  | succ m ih =>
    rw [ofBits_succ]
    have hrest := ih fun t ht => h t (by omega)
    refine (hrest.add ((h m (by omega)).const_mul (2^m))).congr fun p s _ => ?_
    rw [List.range_succ,List.foldl_append,List.foldl_cons,List.foldl_nil,
      BitVec.setWidth_add _ _ hk,setWidth_shiftLeft hk]

theorem packed_isSharing (hk : 0 < k) (old : Shares n (Lint L)) {f : Nat → Bool} {start m : Nat}
    (h : ∀ t, t < m → ArithSharing H k x (start + t) (bitVal k (f t))) {i t : Nat} (ht : t < m)
    (htL : t < 8*L) :
    H.IsSharing (fun p s => ((List.range m).foldl
      (fun y t => setBit y t (getBit (x p s (start + t)) 0)) (old p s i)).getLsbD t) (f t) := by
  refine (lsb_isSharing hk (h t ht)).congr fun p s _ => ?_
  simp only [getBit_eq]
  rw [getLsbD_foldl_range (L := L) _ _ _ _ htL,if_pos ht]

/-- What undoes a random bit `b` once the masked bit `c` is known: one line in several
routines. -/
def Suite.unmask (S : Suite n L G) (c : Fin n → Nat → Lint L) (b : Shares n (Lint L)) :
    Shares n (Lint L) := fun p s i =>
  bitWord L (S.ai p s)*c p i + b p s i - 2*c p i*b p s i

theorem Suite.unmask_isSharing {S : Suite n L G} {T₀ : Finset (Fin n)} (hS : S.Marks H T₀)
    (hk : k ≤ 8*L) {c : Fin n → Nat → Lint L} {b : Shares n (Lint L)} {i : Nat} {e β : Bool}
    (hc : ∀ p, c p i = bitWord L e) (hb : ArithSharing H k b i (bitVal k β)) :
    ArithSharing H k (S.unmask c b) i (bitVal k (e ^^ β)) := by
  have hone : H.IsSharing (fun p s => bitVal k (S.ai p s)) 1 :=
    (hS.isSharing 1).congr fun p s _ => bitVal_eq k _
  have hslot : ∀ p s, (S.unmask c b p s i).setWidth k =
      if e then bitVal k (S.ai p s) - (b p s i).setWidth k else (b p s i).setWidth k := by
    intro p s
    have hsplit : S.unmask c b p s i = bitWord L e*bitWord L (S.ai p s) + b p s i -
        2*(bitWord L e*b p s i) := by
      rw [Suite.unmask,hc]; ring
    rw [hsplit,← lowBits_apply hk,map_sub,map_add,map_mul _ 2,map_ofNat,lowBits_apply,
      lowBits_apply,lowBits_apply,setWidth_bitWord_mul hk,setWidth_bitWord_mul hk,
      setWidth_bitWord hk]
    cases e with
    | false => simp
    | true => simp only [if_true]; ring
  rw [← bitVal_flip]
  cases e with
  | false => exact hb.congr fun p s _ => hslot p s
  | true => exact (hone.sub hb).congr fun p s _ => hslot p s

end Bits

def randWords [Generator G] (u : Shares n (Lint L)) (bytes size : Nat) (net : Net n G) :
    Shares n (Lint L) := fun p s i =>
  memcpyWord (u p s i) (net.random s bytes size p) (i*bytes) bytes

def Suite.randBit [Generator G] (S : Suite n L G) (u : Shares n (Lint L)) (size ring_size : Nat)
    (net : Net n G) : Shares n (Lint L) × Net n G :=
  let bytes := (ring_size + 9) >>> 3
  let u := randWords u bytes size net
  let a := fun p s i => (u p s i <<< 1) + bitWord L (S.ai p s)
  let e := S.multPub a a size (ring_size+2) (net.advanceAll S.numShares bytes fun _ => size)
  let c := fun p i => rssSqrtInv (ring_size+2) (e.1 p i)
  (fun p s i => (c p i*a p s i + bitWord L (S.ai p s)) >>> 1,e.2)

def Suite.randBitOdd [Generator G] (S : Suite n L G) (u : Shares n (Lint L))
    (size ring_size : Nat) (net : Net n G) : Shares n (Lint L) := fun p s i =>
  (randWords u ((ring_size + 9) >>> 3) size net p s i <<< 1) + bitWord L (S.ai p s)

structure Suite.PubCorrect (S : Suite n L G) (H : Pattern (Fin n) (Finset (Fin n))) (k : Nat) :
    Prop where
  value : ∀ a b size net, H.Consistent net → ∀ i, i < size → ∀ x y : BitVec k,
    ArithSharing H k a i x → ArithSharing H k b i y →
    ∀ p, (S.multPub a b size k net).1 p i = (x*y).setWidth (8*L)
  net : ∀ a b size net, H.Consistent net → H.Consistent (S.multPub a b size k net).2

theorem dvd_sub_iff (hk : k ≤ 8*L) {x y : Lint L} :
    2^k ∣ x - y ↔ lowBits hk x = lowBits hk y := by
  rw [two_pow_dvd_iff_setWidth,← lowBits_apply hk,map_sub,sub_eq_zero]

theorem odd_square_low (hk : 3 ≤ k) {e U : Lint L} (hsq : 2^k ∣ e - (2*U+1)*(2*U+1)) :
    2^3 ∣ e - 1 := by
  have hsplit : e - 1 = (e - (2*U+1)*(2*U+1)) + ((2*U+1)*(2*U+1) - 1) := by ring
  rw [hsplit]
  exact dvd_add ((pow_dvd_pow 2 hk).trans hsq) (odd_square U)

theorem rssSqrtInv_dvd (hk : 3 ≤ k) (hkL : k ≤ 8*L) {a e : Lint L} (ha : 2 ∣ a - 1)
    (hsq : 2^k ∣ e - a*a) :
    2^k ∣ rssSqrtInv k e*rssSqrtInv k e*e - 1 ∧
      (2^(k-1) ∣ rssSqrtInv k e*a - 1 ∨ 2^(k-1) ∣ rssSqrtInv k e*a - -1) := by
  obtain ⟨k,rfl⟩ : ∃ k', k = k'+2 := ⟨k-2,by omega⟩
  obtain ⟨U,hU⟩ := ha
  have haU : a = 2*U + 1 := by rw [← hU]; ring
  obtain ⟨r,hr,hr4,hinv⟩ := rssSqrtInv_spec hk (odd_square_low hk (haU ▸ hsq))
  generalize rssSqrtInv (k+2) e = c at *
  constructor
  · have hsplit : c*c*e - 1 = c*c*(e - r*r) - (1 - r*c)*(1 + r*c) := by ring
    rw [hsplit]
    exact dvd_sub (Dvd.dvd.mul_left hr _) (Dvd.dvd.mul_right hinv _)
  · have heven : 2 ∣ c*a + 1 := by
      have hsplit : c*a + 1 = (c+1)*a - 2*U := by rw [← hU]; ring
      rw [hsplit]
      exact dvd_sub (Dvd.dvd.mul_right (odd_inverse (by omega) hr4 hinv) _) (Dvd.intro _ rfl)
    obtain ⟨X,hX⟩ := heven
    have hbits := half_bit (fun j y hj => cancel_two (by omega)) hsq hr hr4 hinv haU hX.symm
    have hdouble : ∀ Y : Lint L, 2^k ∣ Y → 2^(k+1) ∣ 2*Y := fun Y hY => by
      rw [pow_succ']
      exact mul_dvd_mul_left 2 hY
    cases hbit : U.getLsbD 0 with
    | false =>
      left
      have hsplit : c*a - 1 = 2*(X - 1) := by rw [mul_sub,← hX]; ring
      rw [hsplit]
      exact hdouble _ (hbits.1 (even_or_odd.1 hbit))
    | true =>
      right
      have hsplit : c*a - -1 = 2*X := by rw [← hX]; ring
      rw [hsplit]
      exact hdouble _ (hbits.2 (even_or_odd.2 hbit))

/-- Wherever an array `e` has the square of an odd number modulo `2^k`, `c` gets an inverse of
one of its roots there. -/
theorem rssSqrtInv_root (hk : 3 ≤ k) (hkL : k ≤ 8*L) (c e : Nat → Lint L) {size i : Nat}
    (hi : i < size) {a : Lint L} (ha : a.getLsbD 0 = true)
    (he : (e i).setWidth k = (a*a).setWidth k) :
    (rssSqrtInvs c e size k i*rssSqrtInvs c e size k i*e i).setWidth k = 1 ∧
      ((rssSqrtInvs c e size k i*a).setWidth (k-1) = 1 ∨
        (rssSqrtInvs c e size k i*a).setWidth (k-1) = -1) := by
  have hkL' : k - 1 ≤ 8*L := by omega
  have hstore : rssSqrtInvs c e size k i = rssSqrtInv k (e i) := by
    rw [rssSqrtInvs,Loops.foldl_update_range,if_pos hi]
  obtain ⟨hinv,hroot⟩ := rssSqrtInv_dvd hk hkL (even_or_odd.2 ha) ((dvd_sub_iff hkL).mpr he)
  rw [dvd_sub_iff hkL,map_one] at hinv
  rw [dvd_sub_iff hkL',dvd_sub_iff hkL',map_neg,map_one] at hroot
  rw [hstore]
  exact ⟨hinv,hroot⟩

theorem rssSqrtInv_root_five :
    let c := rssSqrtInvs (L := 4) (fun _ => 0) (fun i => if i = 0 then 25 else 9) 2 30
    (c 0*c 0*25).setWidth 30 = 1 ∧ ((c 0*5).setWidth 29 = 1 ∨ (c 0*5).setWidth 29 = -1) :=
  rssSqrtInv_root (L := 4) (k := 30) (by decide) (by decide) (fun _ => 0)
    (fun i => if i = 0 then 25 else 9) (show 0 < 2 by decide) (a := 5) (by decide) (by decide)

/-- Half of `c*a + 1` for an odd `a = 2*U + 1` and the inverse `c` of the root of
`a*a` is a bit: whether `U` is even. -/
theorem randBit_value (hk : 0 < k) (hkL : k + 2 ≤ 8*L) (U : BitVec (k+2)) :
    let c : Lint L := rssSqrtInv (k+2) (((2*U+1)*(2*U+1)).setWidth (8*L))
    (2 : Lint L)*((c+1) >>> 1) = c + 1 ∧
      c.setWidth k*U.setWidth k + ((c+1) >>> 1).setWidth k = bitVal k (!U.getLsbD 0) := by
  intro c
  have hkL' : k ≤ 8*L := by omega
  let V : Lint L := U.setWidth (8*L)
  let a : Lint L := 2*V + 1
  let e : Lint L := ((2*U+1)*(2*U+1)).setWidth (8*L)
  have hV : lowBits hkL V = U := by
    rw [lowBits_apply,BitVec.setWidth_setWidth_of_le _ hkL,BitVec.setWidth_eq]
  have hsq : 2^(k+2) ∣ e - a*a := by
    rw [dvd_sub_iff hkL,map_mul,map_add,map_mul,hV,map_one,map_ofNat,lowBits_apply,
      BitVec.setWidth_setWidth_of_le _ hkL,BitVec.setWidth_eq]
  obtain ⟨r,hr,hr4,hinv⟩ := rssSqrtInv_spec (k := k+2) (by omega)
    (odd_square_low (by omega) hsq)
  have hhalf : (2 : Lint L)*((c+1) >>> 1) = c + 1 :=
    two_mul_half (odd_inverse (by omega) hr4 hinv)
  refine ⟨hhalf,?_⟩
  let X : Lint L := c*V + (c+1) >>> 1
  have hX : 2*X = c*a + 1 := by
    have hsplit : (2 : Lint L)*X = c*((2 : Lint L)*V) + (2 : Lint L)*((c+1) >>> 1) := by
      simp only [X]; ring
    rw [hsplit,hhalf]
    simp only [a]
    ring
  have hbits := half_bit (fun j y hj => cancel_two (by omega)) hsq hr hr4 hinv rfl hX
  have hU : U.setWidth k = lowBits hkL' V := by
    rw [lowBits_apply,BitVec.setWidth_setWidth_of_le _ hkL']
  have hlow : U.getLsbD 0 = V.getLsbD 0 := by
    have hpos : 0 < 8*L := by omega
    simp [V,hpos,-BitVec.getLsbD_eq_getElem]
  rw [hU,← lowBits_apply hkL',← lowBits_apply hkL',← map_mul,← map_add,bitVal_eq,hlow]
  show lowBits hkL' X = _
  cases hbit : V.getLsbD 0 with
  | false =>
    have := (dvd_sub_iff hkL').mp (hbits.1 (even_or_odd.1 hbit))
    rw [this,map_one]
    rfl
  | true =>
    have h0 := hbits.2 (even_or_odd.2 hbit)
    rw [← sub_zero X,dvd_sub_iff hkL',map_zero] at h0
    rw [h0]
    rfl

theorem randBit_twice {c : Lint L} (hc : (2 : Lint L)*((c+1) >>> 1) = c + 1) (u : Lint L)
    (b : Bool) : c*((u <<< 1) + bitWord L b) + bitWord L b =
      (c*u + if b then (c+1) >>> 1 else 0) <<< 1 := by
  have hb : bitWord L b = if b then 1 else 0 := bitVal_eq (8*L) b
  rw [← two_mul_eq,← two_mul_eq,hb]
  cases b with
  | false => simp only [Bool.false_eq_true,if_false]; ring
  | true =>
    have hsplit : c*((2 : Lint L)*u + 1) + 1 = c*((2 : Lint L)*u) + (c + 1) := by ring
    simp only [if_true]
    rw [hsplit,mul_add (2 : Lint L),hc]
    ring

theorem setWidth_shiftLeft_ushiftRight (hkL : k + 1 ≤ 8*L) (X : Lint L) :
    ((X <<< 1) >>> 1).setWidth k = X.setWidth k := by
  refine setWidth_ext fun j hj => ?_
  have hj8 : 1 + j < 8*L := by omega
  simp [hj8,-BitVec.getLsbD_eq_getElem]

theorem randBit_word (hkL : k + 1 ≤ 8*L) {c : Lint L} (hc : (2 : Lint L)*((c+1) >>> 1) = c + 1)
    (u : Lint L) (b : Bool) :
    ((c*((u <<< 1) + bitWord L b) + bitWord L b) >>> 1).setWidth k =
      c.setWidth k*u.setWidth k + if b then ((c+1) >>> 1).setWidth k else 0 := by
  have hkL' : k ≤ 8*L := by omega
  rw [randBit_twice hc,setWidth_shiftLeft_ushiftRight hkL,← lowBits_apply hkL',map_add,map_mul]
  cases b <;> simp [lowBits_apply]

section
variable [Generator G] {S : Suite n L G} {H : Pattern (Fin n) (Finset (Fin n))} {net : Net n G}

theorem randWords_consistent (hnet : H.Consistent net) (u : Shares n (Lint L)) (size i : Nat) :
    H.Consistent fun p s => (randWords u (byteWidth k) size net p s i).setWidth k := by
  intro p s q t hs ht hst
  refine setWidth_ext fun j hj => ?_
  simp only [randWords]
  rw [getLsbD_load _ (u q t i) _ _ hj,Net.random_eq hnet hs ht hst]

theorem randBitOdd_isSharing {T₀ : Finset (Fin n)} (hS : S.Marks H T₀) (hkL : k + 2 ≤ 8*L)
    (u : Shares n (Lint L)) {size i : Nat} {U : BitVec (k+2)}
    (hU : ArithSharing H (k+2) (randWords u (byteWidth (k+2)) size net) i U) :
    ArithSharing H (k+2) (S.randBitOdd u size k net) i (2*U+1) := by
  refine ((hU.const_mul 2).add (hS.isSharing 1)).congr fun p s _ => ?_
  rw [Suite.randBitOdd,← lowBits_apply hkL,map_add,← two_mul_eq,map_mul,map_ofNat,lowBits_apply,
    lowBits_apply,setWidth_bitWord hkL,bitVal_eq]
  rfl

theorem randBit_net {T₀ : Finset (Fin n)} (hS : S.Marks H T₀) (hnet : H.Consistent net)
    (size : Nat) : H.Consistent
      (net.advanceAll S.numShares (byteWidth (k+2)) fun _ => size) := by
  rw [hS.slots]
  exact Net.consistent_advanceAll hnet _ _ fun _ _ _ _ _ _ _ => rfl

theorem randBit_eq {T₀ : Finset (Fin n)} (hS : S.Marks H T₀) (hP : S.PubCorrect H (k+2))
    (hnet : H.Consistent net) (u : Shares n (Lint L)) {size i : Nat} (hi : i < size)
    {A : BitVec (k+2)} (hA : ArithSharing H (k+2) (S.randBitOdd u size k net) i A) (p : Fin n)
    (s : Nat) : (S.randBit u size k net).1 p s i = (rssSqrtInv (k+2) ((A*A).setWidth (8*L))*
      S.randBitOdd u size k net p s i + bitWord L (S.ai p s)) >>> 1 := by
  have he := hP.value _ _ size _ (randBit_net (k := k) hS hnet size) i hi _ _ hA hA p
  exact congrArg (fun e => (rssSqrtInv (k+2) e*S.randBitOdd u size k net p s i +
    bitWord L (S.ai p s)) >>> 1) he

/-- One slot of a random bit: the root's inverse, which is public, times the word
fetched for the slot, and the constant where it belongs. -/
theorem randBit_slot {T₀ : Finset (Fin n)} (hS : S.Marks H T₀) (hP : S.PubCorrect H (k+2))
    (hk : 0 < k) (hkL : k + 2 ≤ 8*L) (hnet : H.Consistent net) (u : Shares n (Lint L))
    {size i : Nat} (hi : i < size) {U : BitVec (k+2)}
    (hU : ArithSharing H (k+2) (randWords u (byteWidth (k+2)) size net) i U) (p : Fin n) (s : Nat) :
    let c : Lint L := rssSqrtInv (k+2) (((2*U+1)*(2*U+1)).setWidth (8*L))
    ((S.randBit u size k net).1 p s i).setWidth k =
      c.setWidth k*(randWords u (byteWidth (k+2)) size net p s i).setWidth k +
        if S.ai p s then ((c+1) >>> 1).setWidth k else 0 := by
  intro c
  rw [randBit_eq hS hP hnet u hi (randBitOdd_isSharing hS hkL u hU),
    ← randBit_word (by omega) (randBit_value (L := L) hk hkL U).1]
  rfl

/-- `Rss_RandBit` shares bits that only the streams decide: whether the words
fetched for an element add up to an even number. -/
theorem randBit_isSharing {T₀ : Finset (Fin n)} (hS : S.Marks H T₀) (hP : S.PubCorrect H (k+2))
    (hk : 0 < k) (hkL : k + 2 ≤ 8*L) (hnet : H.Consistent net) (u : Shares n (Lint L))
    (size : Nat) :
    H.Consistent (S.randBit u size k net).2 ∧ ∀ i, i < size → ∃ U : BitVec (k+2),
      ArithSharing H (k+2) (randWords u (byteWidth (k+2)) size net) i U ∧
      ArithSharing H k (S.randBit u size k net).1 i (bitVal k (!U.getLsbD 0)) := by
  refine ⟨hP.net _ _ _ _ (randBit_net hS hnet size),fun i hi => ?_⟩
  let w := randWords u (byteWidth (k+2)) size net
  obtain ⟨U,hU⟩ := (randWords_consistent (k := k+2) hnet u size i).exists_sharing
  refine ⟨U,hU,?_⟩
  let c : Lint L := rssSqrtInv (k+2) (((2*U+1)*(2*U+1)).setWidth (8*L))
  have hlow : ArithSharing H k w i (U.setWidth k) := by
    refine (hU.map (lowBits (show k ≤ k+2 by omega)).toAddMonoidHom).congr fun p s _ => ?_
    exact (BitVec.setWidth_setWidth_of_le _ (by omega)).symm
  have hsum := (hlow.const_mul (c.setWidth k)).add (hS.isSharing (((c+1) >>> 1).setWidth k))
  rw [(randBit_value (L := L) hk hkL U).2] at hsum
  exact hsum.congr fun p s _ => randBit_slot hS hP hk hkL hnet u hi hU p s

theorem randBit_zero {T₀ : Finset (Fin n)} (hS : S.Marks H T₀) (hP : S.PubCorrect H (k+2))
    (hk : 0 < k) (hkL : k + 2 ≤ 8*L) (hnet : H.Consistent net) (u : Shares n (Lint L))
    {size i : Nat} (hi : i < size) {v : BitVec (k+2)} (hv : v.getLsbD 0 = true)
    (hw : ∀ p s, s < H.slots → (randWords u (byteWidth (k+2)) size net p s i).setWidth (k+2) =
      if H.hold p s = T₀ then v else 0) {p : Fin n} {s : Nat} (hs : s < H.slots) :
    ((S.randBit u size k net).1 p s i).setWidth k = 0 := by
  have hU : ArithSharing H (k+2) (randWords u (byteWidth (k+2)) size net) i v :=
    Pattern.isSharing_public hS.mem v hw
  have hlow : (randWords u (byteWidth (k+2)) size net p s i).setWidth k =
      (if H.hold p s = T₀ then v else 0).setWidth k := by
    rw [← hw p s hs,BitVec.setWidth_setWidth_of_le _ (by omega)]
  rw [randBit_slot hS hP hk hkL hnet u hi hU,hlow,hS.ai p s hs]
  have hval := (randBit_value (L := L) hk hkL v).2
  rw [hv,bitVal_eq,Bool.not_true,if_neg (by decide)] at hval
  by_cases hT : H.hold p s = T₀
  · simpa only [hT,decide_true,if_true] using hval
  · simp [hT]

end

theorem pubCorrect3pc [Generator G] (scratch : Shares 3 (Lint L)) (hk : k ≤ 8*L) :
    (suite3pc (G := G) scratch).PubCorrect shares3pc k where
  value _ _ size _ hnet _ _ _ _ hx hy p := rssMultPub_eq hk hnet _ _ size hx hy p
  net a b size _ hnet := rssMultPub_net hnet _ _ a b size

theorem pubCorrect5pc [Generator G] (hk : k ≤ 8*L) (hL : byteWidth k = L) (old : Shares 5 (Lint L)) :
    (suite5pc (G := G) fun a b size ring_size net =>
      (rssMultPubMp old a b size ring_size net).1).PubCorrect shares5pc k where
  value a b _ _ hnet _ hi _ _ hx hy :=
    MultPubTable.multPub_eq_of_inRange multPubTable5pc_cancels rotation5pc pairs5pc_lt pairs5pc_once
      hk hnet old a b (MultPubTable.inRange_of hi (.inl hL)) hx hy
  net _ _ _ _ hnet := Net.consistent_advanceAll hnet _ _ fun _ _ _ _ _ _ _ => rfl

theorem pubCorrect7pc [Generator G] (hk : k ≤ 8*L) (hL : byteWidth k = L) (old : Shares 7 (Lint L))
    (openShares : Shares 7 (Lint L) → Nat → Fin 7 → Nat → Lint L) :
    (suite7pc (G := G) (fun a b size ring_size net =>
      (rssMultPub7pc old a b size ring_size net).1) openShares).PubCorrect shares7pc k where
  value a b _ _ hnet _ hi _ _ hx hy :=
    MultPubTable.multPub_eq_of_inRange multPubTable7pc_cancels rotation7pc pairs7pc_lt pairs7pc_once
      hk hnet old a b (MultPubTable.inRange_of hi (.inl hL)) hx hy
  net _ _ _ _ hnet := Net.consistent_advanceAll hnet _ _ fun _ _ _ _ _ _ _ => rfl

end RssRing
