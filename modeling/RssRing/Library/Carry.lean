import Mathlib.Data.BitVec
set_option autoImplicit false

namespace RssRing.Carry

/-- What an addition does to a carry over a block of positions: whether it runs
through (`p`), and whether one comes out when none goes in (`g`). -/
structure Block where
  p : Bool
  g : Bool
  deriving DecidableEq

namespace Block

def empty : Block := ⟨true,false⟩

def circle (lo hi : Block) : Block := ⟨lo.p && hi.p,(lo.g && hi.p) ^^ hi.g⟩

@[simp] theorem circle_empty (b : Block) : circle b empty = b := by
  simp [circle,empty]

@[simp] theorem empty_circle (b : Block) : circle empty b = b := by
  simp [circle,empty]

theorem circle_assoc (a b c : Block) : circle (circle a b) c = circle a (circle b c) := by
  obtain ⟨p,g⟩ := a
  obtain ⟨p',g'⟩ := b
  obtain ⟨p'',g''⟩ := c
  cases p' <;> cases p'' <;> cases g <;> simp [circle]

end Block

open Block

def blocks (f : Nat → Block) (lo : Nat) : Nat → Block
  | 0 => empty
  | m+1 => circle (blocks f lo m) (f (lo+m))

variable {f f' : Nat → Block}

theorem blocks_one (f : Nat → Block) (lo : Nat) : blocks f lo 1 = f lo := by
  simp [blocks]

theorem blocks_append (f : Nat → Block) (lo m m' : Nat) :
    blocks f lo (m+m') = circle (blocks f lo m) (blocks f (lo+m) m') := by
  induction m' with
  | zero => simp [blocks]
  | succ m' ih => rw [← Nat.add_assoc,blocks,ih,blocks,circle_assoc,Nat.add_assoc]

theorem blocks_pairs (m : Nat) (h : ∀ j, j < m → f' j = circle (f (2*j)) (f (2*j+1))) :
    blocks f' 0 m = blocks f 0 (2*m) := by
  induction m with
  | zero => rfl
  | succ m ih =>
    have hm := ih fun j hj => h j (by omega)
    rw [Nat.mul_succ,blocks,hm,Nat.zero_add,h m (by omega),blocks,blocks,Nat.zero_add,circle_assoc,
      Nat.zero_add]

/-- One round of a reduction tree over `r` positions: neighbours are combined,
and a last one without a partner moves up. -/
theorem blocks_halve (r : Nat) (h : ∀ j, j < r/2 → f' j = circle (f (2*j)) (f (2*j+1)))
    (hlast : r%2 = 1 → f' (r/2) = f (r-1)) : blocks f' 0 (r/2 + r%2) = blocks f 0 r := by
  have hpairs := blocks_pairs (r/2) h
  rcases Nat.mod_two_eq_zero_or_one r with hr | hr
  · rw [hr,Nat.add_zero,hpairs]
    congr 1
    omega
  · have hlen : 2*(r/2)+1 = r := by omega
    rw [hr,blocks,hpairs,Nat.zero_add,hlast hr]
    nth_rewrite 3 [← hlen]
    rw [blocks,Nat.zero_add]
    congr 2
    omega

def ripple (f : Nat → Block) : Nat → Bool
  | 0 => false
  | m+1 => (ripple f m && (f m).p) ^^ (f m).g

theorem blocks_ripple (f : Nat → Block) (m : Nat) : (blocks f 0 m).g = ripple f m := by
  induction m with
  | zero => rfl
  | succ m ih => rw [blocks,Nat.zero_add,circle,ih,ripple]

/-- The block that a prefix network holds at position `x` after `i` rounds: it
reaches down to the last multiple of `2^i`. -/
def prefixBlock (f : Nat → Block) (i x : Nat) : Block := blocks f (x/2^i*2^i) (x%2^i+1)

theorem prefixBlock_zero (f : Nat → Block) (x : Nat) : prefixBlock f 0 x = f x := by
  simp [prefixBlock,blocks_one,Nat.mod_one]

theorem prefixBlock_all (f : Nat → Block) {i x : Nat} (hx : x < 2^i) :
    prefixBlock f i x = blocks f 0 (x+1) := by
  rw [prefixBlock,Nat.div_eq_of_lt hx,Nat.zero_mul,Nat.mod_eq_of_lt hx]

theorem prefixBlock_odd (f : Nat → Block) {i x : Nat} (hx : x/2^i % 2 = 1) :
    circle (prefixBlock f i (x/2^i*2^i - 1)) (prefixBlock f i x) = prefixBlock f (i+1) x := by
  have hpos : 0 < 2^i := Nat.two_pow_pos i
  obtain ⟨q,hq⟩ : ∃ q, x/2^i = 2*q+1 := ⟨x/2^i/2,by omega⟩
  have hdiv : x/2^(i+1) = q := by rw [Nat.pow_succ,← Nat.div_div_eq_div_mul,hq]; omega
  have hmod : x%2^(i+1) = 2^i + x%2^i := by
    rw [Nat.pow_succ,Nat.mod_mul,hq]
    have : (2*q+1)%2 = 1 := by omega
    rw [this,Nat.mul_one,Nat.add_comm]
  have hsource : (2*q+1)*2^i - 1 = 2^i*(2*q) + (2^i-1) := by
    rw [Nat.add_mul,Nat.one_mul,Nat.mul_comm (2*q)]; omega
  have hsdiv : ((2*q+1)*2^i - 1)/2^i = 2*q := by
    rw [hsource,Nat.mul_add_div hpos,Nat.div_eq_of_lt (by omega),Nat.add_zero]
  have hsmod : ((2*q+1)*2^i - 1)%2^i + 1 = 2^i := by
    rw [hsource,Nat.mul_add_mod,Nat.mod_eq_of_lt (by omega)]; omega
  have hlo : 2*q*2^i + 2^i = (2*q+1)*2^i := by rw [Nat.add_mul,Nat.one_mul]
  have hlow : q*2^(i+1) = 2*q*2^i := by rw [Nat.pow_succ,Nat.mul_comm 2 q,Nat.mul_assoc,Nat.mul_comm 2]
  have happend := blocks_append f (2*q*2^i) (2^i) (x%2^i+1)
  rw [hlo] at happend
  rw [hq]
  simp only [prefixBlock]
  rw [hsdiv,hsmod,hdiv,hmod,hlow,hq,Nat.add_assoc,happend]

theorem prefixBlock_even (f : Nat → Block) {i x : Nat} (hx : x/2^i % 2 = 0) :
    prefixBlock f (i+1) x = prefixBlock f i x := by
  obtain ⟨q,hq⟩ : ∃ q, x/2^i = 2*q := ⟨x/2^i/2,by omega⟩
  have hdiv : x/2^(i+1) = q := by rw [Nat.pow_succ,← Nat.div_div_eq_div_mul,hq]; omega
  have hmod : x%2^(i+1) = x%2^i := by
    rw [Nat.pow_succ,Nat.mod_mul,hq]; simp
  have hlow : q*2^(i+1) = 2*q*2^i := by rw [Nat.pow_succ,Nat.mul_comm 2 q,Nat.mul_assoc,Nat.mul_comm 2]
  rw [prefixBlock,prefixBlock,hdiv,hmod,hlow,hq]

section
variable {w : Nat} (x y : BitVec w) (c : Bool)

def adder (j : Nat) : Block :=
  ⟨x.getLsbD j ^^ y.getLsbD j,
    (x.getLsbD j && y.getLsbD j) ^^ (decide (j = 0) && c && (x.getLsbD j ^^ y.getLsbD j))⟩

theorem blocks_adder (i : Nat) : (blocks (adder x y c) 0 (i+1)).g = BitVec.carry (i+1) x y c := by
  induction i with
  | zero =>
    rw [BitVec.carry_succ,BitVec.carry_zero,blocks_one]
    cases hx : x.getLsbD 0 <;> cases hy : y.getLsbD 0 <;> cases c <;>
      simp [adder,hx,hy,Bool.atLeastTwo]
  | succ i ih =>
    rw [BitVec.carry_succ,blocks,Nat.zero_add,circle,ih]
    cases hx : x.getLsbD (i+1) <;> cases hy : y.getLsbD (i+1) <;>
      cases BitVec.carry (i+1) x y c <;> simp [adder,hx,hy,Bool.atLeastTwo]

theorem getLsbD_add_blocks {j : Nat} (hj : j < w) : (x + y).getLsbD j =
    ((x.getLsbD j ^^ y.getLsbD j) ^^
      (decide (0 < j) && (blocks (adder x y false) 0 j).g)) := by
  rw [BitVec.getLsbD_add hj]
  cases j with
  | zero => simp
  | succ j => rw [blocks_adder]; simp

theorem ult_blocks (hw : 0 < w) :
    x.ult y = !(blocks (adder x (~~~y) true) 0 w).g := by
  cases w with
  | zero => omega
  | succ i => rw [blocks_adder,BitVec.ult_eq_not_carry]

end

section Shift
variable {w m : Nat} (x y : BitVec w)

theorem ushiftRight_eq_natCast (m : Nat) : x >>> m = ((x.toNat/2^m : Nat) : BitVec w) := by
  have hsmall : x.toNat/2^m < 2^w := Nat.lt_of_le_of_lt (Nat.div_le_self _ _) x.isLt
  apply BitVec.eq_of_toNat_eq
  rw [BitVec.toNat_ushiftRight,Nat.shiftRight_eq_div_pow,BitVec.natCast_eq_ofNat,BitVec.toNat_ofNat,
    Nat.mod_eq_of_lt hsmall]

theorem carry_toNat (m : Nat) : (BitVec.carry m x y false).toNat =
    (x.toNat + y.toNat)/2^m - x.toNat/2^m - y.toNat/2^m := by
  rw [BitVec.carry,Nat.add_div (Nat.two_pow_pos m),Bool.toNat_false,Nat.add_zero]
  by_cases h : 2^m ≤ x.toNat%2^m + y.toNat%2^m
  · rw [decide_eq_true h,if_pos h,Bool.toNat_true]; omega
  · rw [decide_eq_false h,if_neg h,Bool.toNat_false]; omega

theorem toNat_add_div (hm : m ≤ w) :
    x.toNat/2^m + y.toNat/2^m + (BitVec.carry m x y false).toNat =
      (x + y).toNat/2^m + 2^(w-m)*(BitVec.carry w x y false).toNat := by
  have hpow : 2^w = 2^m*2^(w-m) := by rw [← Nat.pow_add]; congr 1; omega
  have hle : x.toNat/2^m + y.toNat/2^m ≤ (x.toNat + y.toNat)/2^m := Nat.div_add_div_le_add_div
  have hlow : (x.toNat + y.toNat)/2^m =
      x.toNat/2^m + y.toNat/2^m + (BitVec.carry m x y false).toNat := by
    rw [carry_toNat]; omega
  have htop : (x.toNat + y.toNat)/2^w = (BitVec.carry w x y false).toNat := by
    rw [carry_toNat,Nat.div_eq_of_lt x.isLt,Nat.div_eq_of_lt y.isLt]
    rfl
  rw [← hlow,← htop,BitVec.toNat_add]
  nth_rewrite 1 [← Nat.mod_add_div (x.toNat + y.toNat) (2^w)]
  nth_rewrite 2 [hpow]
  rw [Nat.mul_assoc,Nat.add_mul_div_left _ _ (Nat.two_pow_pos m)]

/-- A sum without its low bits: the carry into them counts, the one out of the word
does not. -/
theorem ushiftRight_add (hm : m ≤ w) : (x + y) >>> m =
    x >>> m + y >>> m + ((BitVec.carry m x y false).toNat : BitVec w) -
      2^(w-m)*((BitVec.carry w x y false).toNat : BitVec w) := by
  have hcast := congrArg (Nat.cast : Nat → BitVec w) (toNat_add_div x y hm)
  push_cast at hcast
  rw [eq_sub_iff_add_eq,ushiftRight_eq_natCast,ushiftRight_eq_natCast,ushiftRight_eq_natCast]
  exact hcast.symm

/-- Three summands, added one after the other, without their low bits: the carries of the
second addition are all of it exactly when the first has none. -/
theorem toNat_add_three_div (z : BitVec w) (hm : m < w) :
    x.toNat/2^m + y.toNat/2^m + z.toNat/2^m + (BitVec.carry m (x + y) z false).toNat =
        (x + y + z).toNat/2^m + 2^(w-m)*(BitVec.carry w (x + y) z false).toNat ↔
      BitVec.carry m x y false = false ∧ BitVec.carry w x y false = false := by
  have hfirst := toNat_add_div x y (Nat.le_of_lt hm)
  have hsecond := toNat_add_div (x + y) z (Nat.le_of_lt hm)
  have htwo : 2 ≤ 2^(w-m) := Nat.le_self_pow (by omega) 2
  generalize BitVec.carry m x y false = c at hfirst ⊢
  generalize BitVec.carry w x y false = d at hfirst ⊢
  have hrest : x.toNat/2^m + y.toNat/2^m + z.toNat/2^m + (BitVec.carry m (x + y) z false).toNat =
      (x + y + z).toNat/2^m + 2^(w-m)*(BitVec.carry w (x + y) z false).toNat ↔
      c.toNat = 2^(w-m)*d.toNat := by omega
  rw [hrest]
  cases c with
  | false =>
    cases d with
    | false => simp
    | true =>
      simp only [Bool.toNat_true,Bool.toNat_false,Nat.mul_one,Bool.true_eq_false,and_false,iff_false]
      omega
  | true =>
    cases d with
    | false => simp
    | true =>
      simp only [Bool.toNat_true,Nat.mul_one,Bool.true_eq_false,and_self,iff_false]
      omega

end Shift
end RssRing.Carry
