import RssRing.ProtocolsComposite.LT
set_option autoImplicit false

namespace RssRing
open Replicated

variable {n L k : Nat} {G : Type}

namespace Comparisons

section Routines
variable (C : Comparisons n L G)

/-- The common text of `old_ReLU`, `eda_ReLU` and their five-party forms. -/
def reLU (mem : Memory n L) (res a size ring_size : Nat) (net : Net n G) :
    Memory n L × Net n G :=
  let zeros := res + a + 1
  C.newRssLT (Function.update mem zeros fun _ _ _ => 0) res a zeros size ring_size net

/-- The common text of `ReLU_6_alpha` and `ReLU_6_alpha_mp`. `new` gives `zero` an address
that no parameter has. -/
def relu6Alpha (mem : Memory n L) (res x upper size ring_size layer : Nat) (net : Net n G) :
    Memory n L × Net n G :=
  let zeros := res + x + upper + 1
  let mem := Function.update mem zeros fun _ _ _ => 0
  let low := C.fixedRssLT mem res x zeros size ring_size 0 net
  C.fixedRssGT low.1 res res upper size ring_size layer low.2

/-- The common text of `ReLU_6_alpha_timer` and `ReLU_6_alpha_timer_mp`, which do not look
at their argument `x`. -/
def relu6AlphaTimer (mem : Memory n L) (res _x upper size ring_size layer : Nat) (net : Net n G) :
    Memory n L × Net n G :=
  C.fixedRssGTLTTime mem res res upper size ring_size layer net

end Routines

variable {C : Comparisons n L G} {H : Pattern (Fin n) (Finset (Fin n))} {net : Net n G}
  {mem : Memory n L} {res x upper size layer i : Nat} {α υ η : BitVec k}

theorem reLU_net (hC : C.Correct H k) (hnet : H.Consistent net) (mem : Memory n L)
    (res a size : Nat) : H.Consistent (C.reLU mem res a size k net).2 :=
  select_net hC hnet

theorem reLU_element (mem : Memory n L) (res a : Nat) (hC : C.Correct H k) (hk : k ≤ 8*L)
    (hnet : H.Consistent net) (hi : i < size) (ha : ArithSharing H k (mem a) i α) :
    ArithSharing H k ((C.reLU mem res a size k net).1 res) i (BitVec.ofInt k (max α.toInt 0)) := by
  let zeros := res + a + 1
  let mem₁ := Function.update mem zeros fun _ _ _ => (0 : Lint L)
  have hold : mem₁ a = mem a := Function.update_of_ne (by omega) _ _
  have hzero : ArithSharing H k (mem₁ zeros) i 0 := by
    refine Pattern.isSharing_zero.congr fun p s _ => ?_
    simp [mem₁]
  have ha₁ : ArithSharing H k (mem₁ a) i α := by rwa [hold]
  have hzero_toInt : (0 : BitVec k).toInt = 0 := BitVec.toInt_zero
  have hmax := newRssLT_element res hC hk hnet hi ha₁ hzero
    (by rw [hzero_toInt,sub_zero]; exact BitVec.le_toInt α)
    (by rw [hzero_toInt,sub_zero]; exact BitVec.toInt_lt)
  rwa [hzero_toInt] at hmax

theorem relu6Alpha_element (res : Nat) (hC : C.Correct H k) (hk : k ≤ 8*L)
    (hnet : H.Consistent net) (hi : i < size) (hres : upper ≠ res) (hx : ArithSharing H k (mem x) i α)
    (hupper : ArithSharing H k (mem upper) layer υ) (hhi : max α.toInt 0 - υ.toInt < 2^(k-1)) :
    ArithSharing H k ((C.relu6Alpha mem res x upper size k layer net).1 res) i
      (BitVec.ofInt k (min (max α.toInt 0) υ.toInt)) := by
  let zeros := res + x + upper + 1
  let mem₁ := Function.update mem zeros fun _ _ _ => (0 : Lint L)
  have hold : ∀ y, y < zeros → mem₁ y = mem y := fun y hy => Function.update_of_ne (by omega) _ _
  have hzero : ArithSharing H k (mem₁ zeros) 0 0 := by
    refine Pattern.isSharing_zero.congr fun p s _ => ?_
    simp [mem₁]
  have hx₁ : ArithSharing H k (mem₁ x) i α := by
    rw [hold x (by omega)]
    exact hx
  have hzero_toInt : (0 : BitVec k).toInt = 0 := BitVec.toInt_zero
  have hlow := BitVec.le_toInt α
  have hhigh := BitVec.toInt_lt (x := α)
  have hmax := fixedRssLT_element res hC hk hnet hi hx₁ hzero
    (by rwa [hzero_toInt,sub_zero]) (by rwa [hzero_toInt,sub_zero])
  let low := C.fixedRssLT mem₁ res x zeros size k 0 net
  have hupper₁ : ArithSharing H k (low.1 upper) layer υ := by
    have hsame : low.1 upper = mem₁ upper := select_other hres
    rw [hsame,hold upper (by omega)]
    exact hupper
  have hmax_toInt := Signed.toInt_ofInt_max α 0
  rw [hzero_toInt] at hmax hmax_toInt
  have hnet₁ : H.Consistent low.2 := select_net hC hnet
  have hυ := BitVec.toInt_lt (x := υ)
  have hpos : 0 ≤ max α.toInt 0 := le_max_right _ _
  have hmin := fixedRssGT_element res hC hk hnet₁ hi hres hmax hupper₁
    (by rw [hmax_toInt]; linarith) (by rwa [hmax_toInt])
  rw [hmax_toInt] at hmin
  exact hmin

end Comparisons

open Comparisons

/-- The three-party comparisons, also where the result is stored in the array of `a`. -/
theorem lt_family {C : Comparisons 3 L G} (hC : C.Correct shares3pc k) (hk : k ≤ 8*L) (size : Nat)
    {net : Net 3 G} (hnet : shares3pc.Consistent net) (mem : Memory 3 L) (res a b layer : Nat) :
    (∀ i, i < size → ∀ α β : BitVec k, ArithSharing shares3pc k (mem a) i α →
      ArithSharing shares3pc k (mem b) i β → |α.toInt - β.toInt| < 2^(k-1) →
      ArithSharing shares3pc k ((C.newRssLT mem res a b size k net).1 res) i
        (BitVec.ofInt k (max α.toInt β.toInt))) ∧
    (∀ β : BitVec k, ArithSharing shares3pc k (mem b) layer β →
      ∀ i, i < size → ∀ α : BitVec k, ArithSharing shares3pc k (mem a) i α →
      |α.toInt - β.toInt| < 2^(k-1) →
      ArithSharing shares3pc k ((C.fixedRssLT mem res a b size k layer net).1 res) i
        (BitVec.ofInt k (max α.toInt β.toInt)) ∧
      (b ≠ res → ArithSharing shares3pc k ((C.fixedRssGT mem res a b size k layer net).1 res) i
        (BitVec.ofInt k (min α.toInt β.toInt)))) ∧
    (b ≠ res → ∀ υ : BitVec k, ArithSharing shares3pc k (mem b) layer υ →
      ∀ i, i < size → ∀ α : BitVec k, ArithSharing shares3pc k (mem a) i α →
      (|max α.toInt 0 - υ.toInt| < 2^(k-1) →
        ArithSharing shares3pc k ((C.relu6Alpha mem res a b size k layer net).1 res) i
          (BitVec.ofInt k (min (max α.toInt 0) υ.toInt))) ∧
      (0 ≤ υ.toInt →
        ArithSharing shares3pc k ((C.relu6Alpha mem res a b size k layer net).1 res) i
          (BitVec.ofInt k (max 0 (min α.toInt υ.toInt))))) := by
  refine ⟨?_,?_,?_⟩
  · intro i hi α β ha hb hlt
    obtain ⟨hlo,hhi⟩ := abs_lt.mp hlt
    exact newRssLT_element res hC hk hnet hi ha hb (le_of_lt hlo) hhi
  · intro β hb i hi α ha hlt
    obtain ⟨hlo,hhi⟩ := abs_lt.mp hlt
    exact ⟨fixedRssLT_element res hC hk hnet hi ha hb (le_of_lt hlo) hhi,
      fun hres => fixedRssGT_element res hC hk hnet hi hres ha hb (le_of_lt hlo) hhi⟩
  · intro hres υ hb i hi α ha
    refine ⟨fun hlt => relu6Alpha_element res hC hk hnet hi hres ha hb (abs_lt.mp hlt).2,?_⟩
    intro hυ
    have hα := BitVec.toInt_lt (x := α)
    have hpos : (0 : Int) < 2^(k-1) := by positivity
    have hclamp : max 0 (min α.toInt υ.toInt) = min (max α.toInt 0) υ.toInt := by omega
    rw [hclamp]
    exact relu6Alpha_element res hC hk hnet hi hres ha hb (by omega)

theorem lt_family_six :
    let C := comparisons3pc (L := 4) (G := Tape) ⟨fun _ _ _ => 7,fun _ _ _ => 9,fun _ _ _ => 5⟩
      fun _ _ _ => 3
    let net : Net 3 Tape := fun _ _ => ⟨fun i => BitVec.ofNat 8 (3*i+1)⟩
    let mem : Memory 3 4 := fun a _ _ _ => if a = 0 then 20 else 2
    ArithSharing shares3pc 6 ((C.newRssLT mem 0 0 1 1 6 net).1 0) 0 (BitVec.ofInt 6 6) ∧
    ArithSharing shares3pc 6 ((C.fixedRssLT mem 0 0 1 1 6 0 net).1 0) 0 (BitVec.ofInt 6 6) ∧
    ArithSharing shares3pc 6 ((C.fixedRssGT mem 0 0 1 1 6 0 net).1 0) 0 (BitVec.ofInt 6 (-4)) ∧
    ArithSharing shares3pc 6 ((C.relu6Alpha mem 0 0 1 1 6 0 net).1 0) 0 (BitVec.ofInt 6 0) := by
  intro C net mem
  have hC : C.Correct shares3pc 6 := comparisons3pc_correct (by decide) (by decide) _ _
  have ha : ArithSharing shares3pc 6 (mem 0) 0 60 := ⟨fun _ => 20,fun _ _ _ => rfl,by simp⟩
  have hb : ArithSharing shares3pc 6 (mem 1) 0 6 := ⟨fun _ => 2,fun _ _ _ => rfl,by simp⟩
  have hnet : shares3pc.Consistent net := fun _ _ _ _ _ _ _ => rfl
  obtain ⟨hnew,hfixed,hrelu⟩ := lt_family hC (by decide) 1 hnet mem 0 0 1 0
  obtain ⟨hmax,hmin⟩ := hfixed 6 hb 0 Nat.one_pos 60 ha (by decide)
  exact ⟨hnew 0 Nat.one_pos 60 6 ha hb (by decide),hmax,hmin (by decide),
    (hrelu (by decide) 6 hb 0 Nat.one_pos 60 ha).2 (by decide)⟩

section Fused
variable {n : Nat} {C : Comparisons n L G} {H : Pattern (Fin n) (Finset (Fin n))} {net : Net n G}
  {mem : Memory n L} {res x upper size layer i : Nat} {α υ η : BitVec k}

theorem sharing_iff {y : Shares n (Lint L)} {v : BitVec k} (h : ArithSharing H k y i v)
    (w : BitVec k) : ArithSharing H k y i w ↔ v = w :=
  ⟨fun hw => h.unique hw,fun hvw => hvw ▸ h⟩

theorem two_mul_pow (hk : 0 < k) : (2 : Int)^k = 2*2^(k-1) := by
  rw [← pow_succ',Nat.sub_add_cancel hk]

theorem fused_eq_clamp_iff (hk : 0 < k) (hα : |α.toInt| < 2^(k-1)) (hυ : |υ.toInt| < 2^(k-1)) :
    let μ := BitVec.ofInt k (min α.toInt υ.toInt)
    (if α.toInt < 0 then μ else 0) + μ = BitVec.ofInt k (max 0 (min α.toInt υ.toInt)) ↔
      0 ≤ υ.toInt ∧ 0 ≤ α.toInt := by
  intro μ
  have hpow := two_mul_pow hk
  rw [abs_lt] at hα hυ
  generalize (2 : Int)^(k-1) = P at hα hυ hpow
  by_cases hneg : α.toInt < 0
  · rw [if_pos hneg,← BitVec.ofInt_add,Signed.ofInt_inj_of_lt (by rw [hpow,abs_lt]; omega)]
    omega
  · rw [if_neg hneg,zero_add,Signed.ofInt_inj_of_lt (by rw [hpow,abs_lt]; omega)]
    omega

theorem relu_eq_clamp_iff (hk : 0 < k) (hα : |α.toInt| < 2^(k-1)) (hυ : |υ.toInt| < 2^(k-1)) :
    BitVec.ofInt k (min (max α.toInt 0) υ.toInt) =
      BitVec.ofInt k (max 0 (min α.toInt υ.toInt)) ↔ 0 ≤ υ.toInt := by
  have hpow := two_mul_pow hk
  rw [abs_lt] at hα hυ
  generalize (2 : Int)^(k-1) = P at hα hυ hpow
  rw [Signed.ofInt_inj_of_lt (by rw [hpow,abs_lt]; omega)]
  omega

/-- Where the timer is not given `x` as the array for its result, it clamps what that one
holds. -/
theorem timer_eq_clamp_iff (hk : 0 < k) (hα : |α.toInt| < 2^(k-1)) (hη : |η.toInt| < 2^(k-1))
    (hυ₀ : 0 ≤ υ.toInt) (hα₀ : 0 ≤ α.toInt) :
    let μ := BitVec.ofInt k (min η.toInt υ.toInt)
    (if η.toInt < 0 then μ else 0) + μ = BitVec.ofInt k (max 0 (min α.toInt υ.toInt)) ↔
      if 0 ≤ η.toInt then min η.toInt υ.toInt = min α.toInt υ.toInt
      else (2^k : Int) ∣ 2*η.toInt - min α.toInt υ.toInt := by
  intro μ
  have hclamp : max 0 (min α.toInt υ.toInt) = min α.toInt υ.toInt := by omega
  rw [hclamp]
  by_cases hneg : η.toInt < 0
  · have hmin : min η.toInt υ.toInt + min η.toInt υ.toInt = 2*η.toInt := by omega
    rw [if_pos hneg,← BitVec.ofInt_add,Signed.ofInt_eq_ofInt_iff,if_neg (not_le.mpr hneg),hmin]
  · have hpow := two_mul_pow hk
    have hlt : |min η.toInt υ.toInt - min α.toInt υ.toInt| < 2^k := by
      rw [abs_lt] at hα hη ⊢
      omega
    rw [if_neg hneg,zero_add,Signed.ofInt_inj_of_lt hlt,if_pos (not_lt.mp hneg)]

theorem relu6_element_iff (hC : C.Correct H k) (hk₀ : 0 < k) (hk : k ≤ 8*L)
    (hnet : H.Consistent net) (hi : i < size) (hres : upper ≠ res)
    (hx : ArithSharing H k (mem x) i α) (hold : ArithSharing H k (mem res) i η)
    (hupper : ArithSharing H k (mem upper) layer υ) (hα : |α.toInt| < 2^(k-1))
    (hη : |η.toInt| < 2^(k-1)) (hυ : |υ.toInt| < 2^(k-1)) (hαυ : |α.toInt - υ.toInt| < 2^(k-1))
    (hηυ : |η.toInt - υ.toInt| < 2^(k-1)) :
    let clamped := BitVec.ofInt k (max 0 (min α.toInt υ.toInt))
    (ArithSharing H k ((C.relu6Alpha mem res x upper size k layer net).1 res) i clamped ∧
      ArithSharing H k ((C.fixedRssGTLTTime mem res x upper size k layer net).1 res) i clamped ∧
      ArithSharing H k ((C.relu6AlphaTimer mem res x upper size k layer net).1 res) i clamped) ↔
    0 ≤ υ.toInt ∧ 0 ≤ α.toInt ∧
      if 0 ≤ η.toInt then min η.toInt υ.toInt = min α.toInt υ.toInt
      else (2^k : Int) ∣ 2*η.toInt - min α.toInt υ.toInt := by
  intro clamped
  obtain ⟨hlo,hhi⟩ := abs_lt.mp hαυ
  obtain ⟨hlo',hhi'⟩ := abs_lt.mp hηυ
  have hmax : max α.toInt 0 - υ.toInt < 2^(k-1) := by
    have hneg := (abs_lt.mp hυ).1
    omega
  have hrelu := relu6Alpha_element res hC hk hnet hi hres hx hupper hmax
  have hfused := fixedRssGTLTTime_element res hC hk hnet hi hres hx hupper
    (le_of_lt hlo) hhi
  have htimer := fixedRssGTLTTime_element res hC hk hnet hi hres hold hupper
    (le_of_lt hlo') hhi'
  rw [sharing_iff hrelu,relu_eq_clamp_iff hk₀ hα hυ,
    (sharing_iff hfused clamped).trans (fused_eq_clamp_iff hk₀ hα hυ)]
  constructor
  · rintro ⟨hυ₀,⟨-,hα₀⟩,ht⟩
    exact ⟨hυ₀,hα₀,(timer_eq_clamp_iff hk₀ hα hη hυ₀ hα₀).mp ((sharing_iff htimer _).mp ht)⟩
  · rintro ⟨hυ₀,hα₀,hfits⟩
    exact ⟨hυ₀,⟨hυ₀,hα₀⟩,
      (sharing_iff htimer _).mpr ((timer_eq_clamp_iff hk₀ hα hη hυ₀ hα₀).mpr hfits)⟩

end Fused

/-- `ReLU_6_alpha` and the fused routine clamp every element in exactly those runs in which
neither the bound nor an element is negative and the array that the timer gets for its
result, which is what it reads, fits. That array holds `η`; where it is the one of `x`, as in
all calls, it fits. -/
theorem relu6_agree_iff {C₃ : Comparisons 3 L G} {C₅ : Comparisons 5 L G}
    (hC₃ : C₃.Correct shares3pc k) (hC₅ : C₅.Correct shares5pc k) (hk₀ : 0 < k) (hk : k ≤ 8*L)
    (size layer : Nat) {net₃ : Net 3 G} {net₅ : Net 5 G} (hnet₃ : shares3pc.Consistent net₃)
    (hnet₅ : shares5pc.Consistent net₅) (mem₃ : Memory 3 L) (mem₅ : Memory 5 L) {res x upper : Nat}
    (hres : upper ≠ res) {α η : Nat → BitVec k} {υ : BitVec k}
    (hx₃ : ∀ i, i < size → ArithSharing shares3pc k (mem₃ x) i (α i))
    (hold₃ : ∀ i, i < size → ArithSharing shares3pc k (mem₃ res) i (η i))
    (hupper₃ : ArithSharing shares3pc k (mem₃ upper) layer υ)
    (hx₅ : ∀ i, i < size → ArithSharing shares5pc k (mem₅ x) i (α i))
    (hold₅ : ∀ i, i < size → ArithSharing shares5pc k (mem₅ res) i (η i))
    (hupper₅ : ArithSharing shares5pc k (mem₅ upper) layer υ)
    (hυ : |υ.toInt| < 2^(k-1))
    (hα : ∀ i, i < size → |(α i).toInt| < 2^(k-1) ∧ |(α i).toInt - υ.toInt| < 2^(k-1))
    (hη : ∀ i, i < size → |(η i).toInt| < 2^(k-1) ∧ |(η i).toInt - υ.toInt| < 2^(k-1)) :
    ((∀ i, i < size →
      let clamped := BitVec.ofInt k (max 0 (min (α i).toInt υ.toInt))
      ArithSharing shares3pc k
        ((C₃.relu6Alpha mem₃ res x upper size k layer net₃).1 res) i clamped ∧
      ArithSharing shares3pc k
        ((C₃.fixedRssGTLTTime mem₃ res x upper size k layer net₃).1 res) i clamped ∧
      ArithSharing shares3pc k
        ((C₃.relu6AlphaTimer mem₃ res x upper size k layer net₃).1 res) i clamped) ↔
      ∀ i, i < size → 0 ≤ υ.toInt ∧ 0 ≤ (α i).toInt ∧
        if 0 ≤ (η i).toInt then min (η i).toInt υ.toInt = min (α i).toInt υ.toInt
        else (2^k : Int) ∣ 2*(η i).toInt - min (α i).toInt υ.toInt) ∧
    ((∀ i, i < size →
      let clamped := BitVec.ofInt k (max 0 (min (α i).toInt υ.toInt))
      ArithSharing shares5pc k
        ((C₅.relu6Alpha mem₅ res x upper size k layer net₅).1 res) i clamped ∧
      ArithSharing shares5pc k
        ((C₅.fixedRssGTLTTime mem₅ res x upper size k layer net₅).1 res) i clamped ∧
      ArithSharing shares5pc k
        ((C₅.relu6AlphaTimer mem₅ res x upper size k layer net₅).1 res) i clamped) ↔
      ∀ i, i < size → 0 ≤ υ.toInt ∧ 0 ≤ (α i).toInt ∧
        if 0 ≤ (η i).toInt then min (η i).toInt υ.toInt = min (α i).toInt υ.toInt
        else (2^k : Int) ∣ 2*(η i).toInt - min (α i).toInt υ.toInt) := by
  constructor
  · refine forall_congr' fun i => forall_congr' fun hi => ?_
    exact relu6_element_iff hC₃ hk₀ hk hnet₃ hi hres (hx₃ i hi) (hold₃ i hi) hupper₃ (hα i hi).1
      (hη i hi).1 hυ (hα i hi).2 (hη i hi).2
  · refine forall_congr' fun i => forall_congr' fun hi => ?_
    exact relu6_element_iff hC₅ hk₀ hk hnet₅ hi hres (hx₅ i hi) (hold₅ i hi) hupper₅ (hα i hi).1
      (hη i hi).1 hυ (hα i hi).2 (hη i hi).2

theorem relu6_agree_iff_six :
    let C₃ := comparisons3pc (L := 4) (G := Tape) ⟨fun _ _ _ => 7,fun _ _ _ => 9,fun _ _ _ => 5⟩
      fun _ _ _ => 3
    let C₅ := comparisons5pc (L := 4) (G := Tape) openedMsb5pc
    let tape : Tape := ⟨fun i => BitVec.ofNat 8 (3*i+1)⟩
    let mem₃ : Memory 3 4 := fun a _ _ _ => if a = 0 then 2 else 4
    let mem₅ : Memory 5 4 := fun a p s _ => if ai5pc p s then (if a = 0 then 6 else 12) else 0
    ArithSharing shares3pc 6 ((C₃.relu6AlphaTimer mem₃ 0 0 1 1 6 0 fun _ _ => tape).1 0) 0
      (BitVec.ofInt 6 6) ∧
    ArithSharing shares5pc 6 ((C₅.relu6AlphaTimer mem₅ 0 0 1 1 6 0 fun _ _ => tape).1 0) 0
      (BitVec.ofInt 6 6) := by
  intro C₃ C₅ tape mem₃ mem₅
  have hC₃ : C₃.Correct shares3pc 6 := comparisons3pc_correct (by decide) (by decide) _ _
  have hC₅ : C₅.Correct shares5pc 6 := comparisons5pc_correct (by decide) (by decide)
  have hnet₃ : shares3pc.Consistent fun _ _ => tape := fun _ _ _ _ _ _ _ => rfl
  have hnet₅ : shares5pc.Consistent fun _ _ => tape := fun _ _ _ _ _ _ _ => rfl
  have hx₃ : ∀ i, i < 1 → ArithSharing shares3pc 6 (mem₃ 0) i 6 :=
    fun _ _ => ⟨fun _ => 2,fun _ _ _ => rfl,by simp⟩
  have hupper₃ : ArithSharing shares3pc 6 (mem₃ 1) 0 12 := ⟨fun _ => 4,fun _ _ _ => rfl,by simp⟩
  have hshared : ∀ a i, ArithSharing shares5pc 6 (mem₅ a) i (if a = 0 then 6 else 12) := by
    intro a i
    refine ((suite5pc_marks (L := 4) (G := Tape) fun _ _ _ _ _ _ _ => 0).isSharing _).congr
      fun p s _ => ?_
    change (if ai5pc p s then (if a = 0 then 6 else 12) else 0 : Lint 4).setWidth 6 =
      if ai5pc p s then (if a = 0 then 6 else 12) else 0
    by_cases ha : a = 0 <;> cases ai5pc p s <;> simp [ha]
  have hx₅ : ∀ i, i < 1 → ArithSharing shares5pc 6 (mem₅ 0) i 6 := fun i _ => hshared 0 i
  have hres : (1 : Nat) ≠ 0 := by decide
  obtain ⟨h₃,h₅⟩ := relu6_agree_iff hC₃ hC₅ (by decide) (by decide) 1 0 hnet₃ hnet₅ mem₃ mem₅ hres
    (α := fun _ => 6) (η := fun _ => 6) (υ := 12) hx₃ hx₃ hupper₃ hx₅ hx₅ (hshared 1 0)
    (by decide) (fun _ _ => by decide) (fun _ _ => by decide)
  exact ⟨(h₃.mpr (fun _ _ => by decide) 0 Nat.one_pos).2.2,
    (h₅.mpr (fun _ _ => by decide) 0 Nat.one_pos).2.2⟩

/-- Minus four under the bound six, modulo `2^6` and in place: `ReLU_6_alpha` leaves 0 and the
fused routine twice minus four. -/
theorem relu6_doubles :
    let C := comparisons3pc (L := 4) (G := Tape) ⟨fun _ _ _ => 0,fun _ _ _ => 0,fun _ _ _ => 0⟩
      fun _ _ _ => 0
    let net : Net 3 Tape := fun _ _ => ⟨fun i => BitVec.ofNat 8 (3*i+1)⟩
    let mem : Memory 3 4 := fun a _ _ _ => if a = 0 then 20 else 2
    ArithSharing shares3pc 6 (mem 0) 0 (BitVec.ofInt 6 (-4)) ∧
    ArithSharing shares3pc 6 (mem 1) 0 (BitVec.ofInt 6 6) ∧
    ArithSharing shares3pc 6 ((C.relu6Alpha mem 0 0 1 1 6 0 net).1 0) 0 0 ∧
    ArithSharing shares3pc 6 ((C.relu6AlphaTimer mem 0 0 1 1 6 0 net).1 0) 0
      (BitVec.ofInt 6 (-8)) ∧
    ¬ ArithSharing shares3pc 6 ((C.relu6AlphaTimer mem 0 0 1 1 6 0 net).1 0) 0
      (BitVec.ofInt 6 (max 0 (min (-4) 6))) := by
  intro C net mem
  have hC : C.Correct shares3pc 6 := comparisons3pc_correct (by decide) (by decide) _ _
  have hnet : shares3pc.Consistent net := fun _ _ _ _ _ _ _ => rfl
  have hx : ArithSharing shares3pc 6 (mem 0) 0 60 := ⟨fun _ => 20,fun _ _ _ => rfl,by simp⟩
  have hupper : ArithSharing shares3pc 6 (mem 1) 0 6 := ⟨fun _ => 2,fun _ _ _ => rfl,by simp⟩
  have hrelu := relu6Alpha_element 0 hC (by decide) hnet Nat.one_pos (by decide) hx hupper
    (by decide)
  have htimer := fixedRssGTLTTime_element 0 hC (by decide) hnet Nat.one_pos (by decide) hx
    hupper (by decide) (by decide)
  refine ⟨hx,hupper,hrelu,htimer,fun h => ?_⟩
  exact absurd (h.unique htimer) (by decide)

end RssRing
