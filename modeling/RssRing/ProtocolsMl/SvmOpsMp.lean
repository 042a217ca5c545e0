import RssRing.ProtocolsComposite.TwoSlots
import RssRing.ProtocolsMl.SvmOps
set_option autoImplicit false

namespace RssRing
open Replicated

variable {L k : Nat} {G : Type}

namespace Comparisons

/-- The three-party text, with `Rss_MSB_mp` and `Rss_Mult_mp`. -/
def argMaxMp (C : Comparisons 5 L G) (w : Nat → CallArrays 5 L)
    (res res_index a : Shares 5 (Lint L)) (ring_size size batch_size : Nat) (net : Net 5 G) :
    ArgMax 5 L G :=
  C.argMaxWith 2 a12 w res res_index a ring_size size batch_size net

/-- Here the loops run over all slots. -/
def edaArgMaxMp (C : Comparisons 5 L G) (w : Nat → CallArrays 5 L)
    (res res_index a : Shares 5 (Lint L)) (ring_size size batch_size : Nat) (net : Net 5 G) :
    ArgMax 5 L G :=
  C.argMaxWith 6 bi w res res_index a ring_size size batch_size net

/-- `Rss_LT_mp` treats all slots, but two of each operand are filled in. -/
def maximumMp (C : Comparisons 5 L G) (w : Nat → CallArrays 5 L) (res a : Shares 5 (Lint L))
    (ring_size size batch_size : Nat) (net : Net 5 G) : Shares 5 (Lint L) × Net 5 G :=
  C.maximumWith 2 w res ring_size batch_size size a net

section Kept
variable {n m : Nat} (C : Comparisons n L G) (w : Nat → CallArrays n L)
  (res res_index : Shares n (Lint L)) (batch_size : Nat) (p : Fin n) {s : Nat}

theorem argMaxHelper_kept (hs : m ≤ s) (i : Nat) : ∀ (size : Nat) (a a_index : Shares n (Lint L))
    (net : Net n G), let r := C.argMaxHelper m w res res_index k batch_size size a a_index net
    r.res p s i = res p s i ∧ r.res_index p s i = res_index p s i := by
  intro size
  induction size using Nat.strong_induction_on with
  | _ size ih =>
    intro a a_index net
    rw [argMaxHelper]
    by_cases hmany : 1 < size
    · simp only [if_pos hmany]
      exact ih ((size + 1)/2) (by omega) _ _ _
    · simp only [if_neg hmany]
      exact ⟨fill_of_ge hs i,fill_of_ge hs i⟩

theorem argMaxWith_kept (b : Fin n → Nat → Bool) (hs : m ≤ s) (i size : Nat)
    (a : Shares n (Lint L)) (net : Net n G) :
    let r := C.argMaxWith m b w res res_index a k size batch_size net
    r.res p s i = res p s i ∧ r.res_index p s i = res_index p s i := by
  rw [argMaxWith]
  by_cases hmany : 1 < size
  · simp only [if_pos hmany]
    exact C.argMaxHelper_kept w res res_index batch_size p hs i _ _ _ _
  · simp only [if_neg hmany]
    exact ⟨fill_of_ge hs i,fill_of_ge hs i⟩

theorem maximumWith_kept (hs : m ≤ s) (i : Nat) : ∀ (size : Nat) (a : Shares n (Lint L))
    (net : Net n G), (C.maximumWith m w res k batch_size size a net).1 p s i = res p s i := by
  intro size
  induction size using Nat.strong_induction_on with
  | _ size ih =>
    intro a net
    rw [maximumWith]
    by_cases hmany : 1 < size
    · simp only [if_pos hmany]
      exact ih ((size + 1)/2) (by omega) _ _
    · simp only [if_neg hmany]
      exact fill_of_ge hs i

end Kept

end Comparisons

def SameArgMax {n : Nat} (H : Pattern (Fin n) (Finset (Fin n))) (k batch_size : Nat)
    (x y : Comparisons.ArgMax n L G) : Prop :=
  SameShared H k batch_size x.res y.res ∧ SameShared H k batch_size x.res_index y.res_index

section Agreement
variable {size : Nat}

theorem bi_marked5pc : Marked shares5pc bi {1,2} where
  mem := by decide
  mark := by decide

theorem Candidates.public {n : Nat} {H : Pattern (Fin n) (Finset (Fin n))} {S : Suite n L G}
    {T₀ : Finset (Fin n)} (hS : S.Marks H T₀) (hk : k ≤ 8*L) (size batch_size : Nat) (c : Bool) :
    Candidates H k size batch_size
      (fun p s _ => if S.ai p s then (bitVal k c).setWidth (8*L) else (0 : Lint L))
      fun _ _ => bitVal k c where
  shared _ _ _ _ := hS.publicArith hk (fun _ => bitVal k c) _
  range _ _ _ _ _ _ := by
    rw [sub_self,abs_zero]
    exact pow_pos (by decide) _

/-- `arg_max_mp` and `maximum_mp` write two slots of six. For no fixed contents of the result
arrays do they agree with `eda_arg_max_mp` on all inputs, and on no input for all contents,
unless the batch is empty, where the exchanges do not return (`getRounds_zero`). -/
theorem argMaxMp_agrees_iff {C D : Comparisons 5 L G} (hD : D.Correct shares5pc k) (hk₀ : 0 < k)
    (hk : k ≤ 8*L) (hsize : 0 < size) (batch_size : Nat) {net net' : Net 5 G}
    (hnet' : shares5pc.Consistent net') (w w' : Nat → CallArrays 5 L)
    (res' res_index' : Shares 5 (Lint L)) :
    (∀ res res_index, (∀ a A, Candidates shares5pc k size batch_size a A →
      SameArgMax shares5pc k batch_size (C.argMaxMp w res res_index a k size batch_size net)
        (D.edaArgMaxMp w' res' res_index' a k size batch_size net')) ↔ batch_size = 0) ∧
    (∀ res, (∀ a A, Candidates shares5pc k size batch_size a A →
      SameShared shares5pc k batch_size (C.maximumMp w res a k size batch_size net).1
        (D.edaArgMaxMp w' res' res_index' a k size batch_size net').res) ↔ batch_size = 0) ∧
    ∀ a A, Candidates shares5pc k size batch_size a A →
      ((∀ res res_index,
        SameArgMax shares5pc k batch_size (C.argMaxMp w res res_index a k size batch_size net)
          (D.edaArgMaxMp w' res' res_index' a k size batch_size net')) ↔ batch_size = 0) ∧
      ((∀ res, SameShared shares5pc k batch_size (C.maximumMp w res a k size batch_size net).1
        (D.edaArgMaxMp w' res' res_index' a k size batch_size net').res) ↔ batch_size = 0) := by
  let S : Suite 5 L Tape := suite5pc fun _ _ _ _ _ _ _ => 0
  have hS : S.Marks shares5pc {1,2} := suite5pc_marks _
  let old := fun res res_index a => C.argMaxMp w res res_index a k size batch_size net
  let oldMax := fun res a => (C.maximumMp w res a k size batch_size net).1
  let new := fun a => (D.edaArgMaxMp w' res' res_index' a k size batch_size net').res
  let good : Shares 5 (Lint L) → Prop := fun a => ∃ A, Candidates shares5pc k size batch_size a A
  have hnew : 0 < batch_size → ∀ c, ∃ a, good a ∧
      ArithSharing shares5pc k (new a) 0 (bitVal k c) := by
    intro hj c
    have ha := Candidates.public hS hk size batch_size c
    exact ⟨_,⟨_,ha⟩,(Comparisons.argMaxWith_isSharing (A := fun _ => bitVal k c) res' res_index' hD
      hk (Nat.le_refl 6) bi_marked5pc hnet' hsize hj (ha.range 0 hj) (ha.shared 0 hj)).1⟩
  have hold : ∀ res res_index a p s, 2 ≤ s → ∀ i, (old res res_index a).res p s i = res p s i :=
    fun res res_index a p s hs i =>
      (C.argMaxWith_kept w res res_index batch_size p a12 hs i size a net).1
  have holdMax : ∀ res a p s, 2 ≤ s → ∀ i, oldMax res a p s i = res p s i :=
    fun res a p s hs i => C.maximumWith_kept w res batch_size p hs i size a net
  have hempty : batch_size = 0 → ∀ x y : Shares 5 (Lint L), SameShared shares5pc k batch_size x y := by
    rintro rfl x y i hi
    exact absurd hi (Nat.not_lt_zero i)
  refine ⟨fun res res_index => ⟨fun h => ?_,fun h _ _ _ => ⟨hempty h _ _,hempty h _ _⟩⟩,
    fun res => ⟨fun h => ?_,fun h _ _ _ => hempty h _ _⟩,fun a A _ =>
      ⟨⟨fun h => ?_,fun h _ _ => ⟨hempty h _ _,hempty h _ _⟩⟩,?_⟩⟩
  · exact (kept_fixed_res visible5pc hk₀ (fun a => (old res res_index a).res) new good
      (hold res res_index) hnew).mp fun a ⟨A,ha⟩ => (h a A ha).1
  · exact (kept_fixed_res visible5pc hk₀ (oldMax res) new good (holdMax res) hnew).mp
      fun a ⟨A,ha⟩ => h a A ha
  · exact (kept_fixed_input hS visible5pc hk₀ hk (fun res => (old res res' a).res)
      (fun res => hold res res' a) (new a)).mp fun res => (h res res').1
  · exact kept_fixed_input hS visible5pc hk₀ hk (fun res => oldMax res a)
      (fun res => holdMax res a) (new a)

theorem argMaxMp_agrees_iff_two :
    let C := comparisons5pc (L := 4) (G := Tape) openedMsb5pc
    let net : Net 5 Tape := fun _ _ => ⟨fun i => BitVec.ofNat 8 (3*i+1)⟩
    let x : Shares 5 (Lint 4) := fun _ _ _ => 8
    let w : Nat → CallArrays 5 4 := fun _ => ⟨x,x,x,x,x,x,x⟩
    ¬ ∀ a A, Candidates shares5pc 6 2 1 a A →
      SameArgMax shares5pc 6 1 (C.argMaxMp w x x a 6 2 1 net) (C.edaArgMaxMp w x x a 6 2 1 net) := by
  intro C net x w h
  have hC : C.Correct shares5pc 6 := comparisons5pc_correct (by decide) (by decide)
  have hnet : shares5pc.Consistent net := fun _ _ _ _ _ _ _ => rfl
  exact absurd (((argMaxMp_agrees_iff (C := C) hC (by decide) (by decide) (by decide) 1 hnet w w x
    x).1 x x).mp h) (by decide)

/-- Of ten and twenty, modulo `2^6` and with cleared results, `eda_arg_max_mp` finds twenty, with
the index 1. What the old routines leave shares zero, if anything. -/
theorem argMaxMp_ten_twenty :
    let C := comparisons5pc (L := 4) (G := Tape) openedMsb5pc
    let net : Net 5 Tape := fun _ _ => ⟨fun i => BitVec.ofNat 8 (3*i+1)⟩
    let x : Shares 5 (Lint 4) := fun _ _ _ => 0
    let w : Nat → CallArrays 5 4 := fun _ => ⟨x,x,x,x,x,x,x⟩
    let a : Shares 5 (Lint 4) := fun _ _ i => if i = 0 then 1 else 2
    let new := C.edaArgMaxMp w x x a 6 2 1 net
    Candidates shares5pc 6 2 1 a (fun _ i => if i = 0 then 10 else 20) ∧
    ArithSharing shares5pc 6 new.res 0 20 ∧ ArithSharing shares5pc 6 new.res_index 0 1 ∧
    ¬ SameArgMax shares5pc 6 1 (C.argMaxMp w x x a 6 2 1 net) new ∧
    ¬ SameShared shares5pc 6 1 (C.maximumMp w x a 6 2 1 net).1 new.res := by
  intro C net x w a new
  let A : Nat → BitVec 6 := fun i => if i = 0 then 10 else 20
  have hC : C.Correct shares5pc 6 := comparisons5pc_correct (by decide) (by decide)
  have hnet : shares5pc.Consistent net := fun _ _ _ _ _ _ _ => rfl
  have ha : Candidates shares5pc 6 2 1 a fun _ => A := by
    refine ⟨fun j hj i hi => ⟨fun _ => (a 0 0 (j*2 + i)).setWidth 6,fun _ _ _ => rfl,?_⟩,by decide⟩
    revert i hi j hj
    decide
  have hwinner : Tournament.winner (fun i => (A i).toInt) 2 id = 1 := by
    rw [Tournament.winner,Tournament.winner]
    decide
  have hnew := Comparisons.argMaxWith_isSharing (A := A) (w := w) x x hC (by decide) (Nat.le_refl 6)
    bi_marked5pc hnet (by decide : 0 < 2) Nat.one_pos (ha.range 0 Nat.one_pos)
    (ha.shared 0 Nat.one_pos)
  rw [hwinner] at hnew
  have hzero : ∀ y : Shares 5 (Lint 4), (∀ p s, 2 ≤ s → ∀ i, y p s i = 0) →
      ¬ SameShared shares5pc 6 1 y new.res := by
    intro y hy h
    obtain ⟨v,hold,hv⟩ := h 0 Nat.one_pos
    have hv₀ : v = 0 := visible5pc.eq hold Pattern.isSharing_zero fun p s hs _ => by
      rw [hy p s hs]
      rfl
    rw [hv₀] at hv
    exact absurd (hnew.1.unique hv) (by decide)
  refine ⟨ha,hnew.1,hnew.2,fun h => hzero _ (fun p s hs i => ?_) h.1,hzero _ fun p s hs i => ?_⟩
  · exact (C.argMaxWith_kept w x x 1 p a12 hs i 2 a net).1
  · exact C.maximumWith_kept w x 1 p hs i 2 a net

end Agreement

end RssRing
