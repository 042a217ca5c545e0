import RssRing.Memory
import RssRing.Library.Signed
import RssRing.ProtocolsComposite.MSB
set_option autoImplicit false

namespace RssRing
open Replicated

variable {n L k : Nat} {G : Type}

/-- The two protocols that comparisons are made of. -/
structure Comparisons (n L : Nat) (G : Type) where
  msb : Shares n (Lint L) → Nat → Nat → Net n G → Shares n (Lint L) × Net n G
  mult : Shares n (Lint L) → Shares n (Lint L) → Nat → Nat → Net n G → Shares n (Lint L) × Net n G

/-- The protocols do what they are for, on elements modulo `2^k`. -/
structure Comparisons.Correct (C : Comparisons n L G) (H : Pattern (Fin n) (Finset (Fin n)))
    (k : Nat) : Prop where
  msb : ∀ a size {net i} {α : BitVec k}, H.Consistent net → i < size → ArithSharing H k a i α →
    ArithSharing H k (C.msb a size k net).1 i (bitVal k (α.getLsbD (k-1)))
  msbNet : ∀ a size {net}, H.Consistent net → H.Consistent (C.msb a size k net).2
  mult : ∀ a b size {net i} {α β : BitVec k}, H.Consistent net → i < size → ArithSharing H k a i α →
    ArithSharing H k b i β → ArithSharing H k (C.mult a b size k net).1 i (α*β)
  multNet : ∀ a b size {net}, H.Consistent net → H.Consistent (C.mult a b size k net).2

structure Comparisons.KeepsNet (C : Comparisons n L G) (H : Pattern (Fin n) (Finset (Fin n)))
    (k : Nat) : Prop where
  msb : ∀ a size {net}, H.Consistent net → H.Consistent (C.msb a size k net).2
  mult : ∀ a b size {net}, H.Consistent net → H.Consistent (C.mult a b size k net).2

/-- What is left of `Correct` where only some of the comparisons are right. -/
structure Comparisons.Multiplies (C : Comparisons n L G) (H : Pattern (Fin n) (Finset (Fin n)))
    (k : Nat) : Prop where
  keepsNet : C.KeepsNet H k
  mult : ∀ a b size {net i} {α β : BitVec k}, H.Consistent net → i < size → ArithSharing H k a i α →
    ArithSharing H k b i β → ArithSharing H k (C.mult a b size k net).1 i (α*β)

theorem Comparisons.Correct.multiplies {C : Comparisons n L G}
    {H : Pattern (Fin n) (Finset (Fin n))} (hC : C.Correct H k) : C.Multiplies H k :=
  ⟨⟨hC.msbNet,hC.multNet⟩,hC.mult⟩

namespace Comparisons
variable (C : Comparisons n L G)

/-- The common body: `c` is the sign of `left`, and the result `c*right + back`. -/
def select (left right : Shares n (Lint L)) (back : Memory n L → Fin n → Nat → Nat → Lint L)
    (mem : Memory n L) (res size ring_size : Nat) (net : Net n G) : Memory n L × Net n G :=
  let c := C.msb left size ring_size net
  let d := C.mult c.1 right size ring_size c.2
  (storeLoop (fun mem p s i => d.1 p s i + back mem p s i) res size mem,d.2)

/-- The common text of `Rss_LT`, `new_Rss_LT` and their five-party forms. -/
def newRssLT (mem : Memory n L) (res a b size ring_size : Nat) (net : Net n G) :
    Memory n L × Net n G :=
  C.select (fun p s i => mem a p s i - mem b p s i) (fun p s i => mem b p s i - mem a p s i)
    (fun mem p s i => mem a p s i) mem res size ring_size net

def fixedRssLT (mem : Memory n L) (res a b size ring_size layer : Nat) (net : Net n G) :
    Memory n L × Net n G :=
  C.select (fun p s i => mem a p s i - mem b p s layer) (fun p s i => mem b p s layer - mem a p s i)
    (fun mem p s i => mem a p s i) mem res size ring_size net

def fixedRssGT (mem : Memory n L) (res a b size ring_size layer : Nat) (net : Net n G) :
    Memory n L × Net n G :=
  C.select (fun p s i => mem a p s i - mem b p s layer) (fun p s i => mem a p s i - mem b p s layer)
    (fun mem p s _ => mem b p s layer) mem res size ring_size net

/-- `fixed_Rss_GT_LT_time` and `fixed_Rss_GT_LT_time_mp`, without the time they take: the
signs of all differences and of all elements of `a` come from one call. The lower half of `diff`
is computed again before the multiplication, to what it holds. -/
def fixedRssGTLTTime (mem : Memory n L) (res a b size ring_size layer : Nat) (net : Net n G) :
    Memory n L × Net n G :=
  let diff := fun p s i =>
    if i < size then mem a p s i - mem b p s layer else mem a p s (i - size)
  let c := C.msb diff (2*size) ring_size net
  let d := C.mult c.1 diff size ring_size c.2
  let mem := storeLoop (fun mem p s i => d.1 p s i + mem b p s layer) res size mem
  let c := fun p s i => if i < size then c.1 p s (size + i) else c.1 p s i
  let d := C.mult c (mem res) size ring_size d.2
  (storeLoop (fun mem p s i => d.1 p s i + mem res p s i) res size mem,d.2)

section Correct
variable {C} {H : Pattern (Fin n) (Finset (Fin n))} {net : Net n G} {mem : Memory n L}
  {res a b size layer i : Nat} {α β : BitVec k}

theorem sign_mul (α δ : BitVec k) :
    bitVal k (α.getLsbD (k-1))*δ = if α.toInt < 0 then δ else 0 := by
  rw [Signed.getLsbD_top,bitVal_eq]
  by_cases h : α.toInt < 0
  · rw [if_pos (decide_eq_true h),if_pos h,one_mul]
  · rw [if_neg (by simpa using h),if_neg h,zero_mul]

theorem select_net (hC : C.Correct H k) (hnet : H.Consistent net)
    {left right : Shares n (Lint L)} {back : Memory n L → Fin n → Nat → Nat → Lint L} :
    H.Consistent (C.select left right back mem res size k net).2 :=
  hC.multNet _ _ _ (hC.msbNet _ _ hnet)

theorem select_other {left right : Shares n (Lint L)}
    {back : Memory n L → Fin n → Nat → Nat → Lint L} {x : Nat} (hx : x ≠ res) :
    (C.select left right back mem res size k net).1 x = mem x :=
  (storeLoop_untouched _ res size mem).other x hx

theorem storeLoop_isSharing (hk : k ≤ 8*L) (hi : i < size) {d : Shares n (Lint L)}
    {back : Memory n L → Fin n → Nat → Nat → Lint L} {δ ε : BitVec k}
    (hd : ArithSharing H k d i δ) (hback : ArithSharing H k (back mem) i ε)
    (hstable : ∀ mem', Untouched res i mem mem' → ∀ p s, back mem' p s i = back mem p s i) :
    ArithSharing H k (storeLoop (fun mem p s i => d p s i + back mem p s i) res size mem res) i
      (δ + ε) := by
  refine (hd.add hback).congr fun p s _ => ?_
  have hturn : storeLoop (fun mem p s i => d p s i + back mem p s i) res size mem res p s i =
      d p s i + back mem p s i :=
    storeLoop_eq hi fun mem' h => congrArg (fun w => d p s i + w) (hstable mem' h p s)
  rw [hturn,BitVec.setWidth_add _ _ hk]

theorem select_isSharing (hC : C.Correct H k) (hk : k ≤ 8*L) (hnet : H.Consistent net)
    (hi : i < size) {left right : Shares n (Lint L)}
    {back : Memory n L → Fin n → Nat → Nat → Lint L} {δ ε : BitVec k}
    (hleft : ArithSharing H k left i α) (hright : ArithSharing H k right i δ)
    (hback : ArithSharing H k (back mem) i ε)
    (hstable : ∀ mem', Untouched res i mem mem' → ∀ p s, back mem' p s i = back mem p s i) :
    ArithSharing H k ((C.select left right back mem res size k net).1 res) i
      ((if α.toInt < 0 then δ else 0) + ε) := by
  have hc := hC.msb left size hnet hi hleft
  have hd := hC.mult _ right size (hC.msbNet left size hnet) hi hc hright
  rw [sign_mul] at hd
  exact storeLoop_isSharing hk hi hd hback hstable

theorem sub_isSharing (hk : k ≤ 8*L) {x y : Shares n (Lint L)} {j : Nat}
    (hx : ArithSharing H k x i α) (hy : ArithSharing H k y j β) :
    H.IsSharing (fun p s => (x p s i - y p s j).setWidth k) (α - β) :=
  (hx.sub hy).congr fun _ _ _ => setWidth_sub_of_le _ _ hk

theorem newRssLT_element (res : Nat) (hC : C.Correct H k) (hk : k ≤ 8*L)
    (hnet : H.Consistent net) (hi : i < size) (ha : ArithSharing H k (mem a) i α)
    (hb : ArithSharing H k (mem b) i β) (hlo : -2^(k-1) ≤ α.toInt - β.toInt)
    (hhi : α.toInt - β.toInt < 2^(k-1)) :
    ArithSharing H k ((C.newRssLT mem res a b size k net).1 res) i
      (BitVec.ofInt k (max α.toInt β.toInt)) := by
  rw [← Signed.select_max hlo hhi]
  exact select_isSharing hC hk hnet hi (sub_isSharing hk ha hb) (sub_isSharing hk hb ha) ha
    fun _ h p s => h.read a p s

theorem fixedRssLT_element (res : Nat) (hC : C.Correct H k) (hk : k ≤ 8*L)
    (hnet : H.Consistent net) (hi : i < size) (ha : ArithSharing H k (mem a) i α)
    (hb : ArithSharing H k (mem b) layer β) (hlo : -2^(k-1) ≤ α.toInt - β.toInt)
    (hhi : α.toInt - β.toInt < 2^(k-1)) :
    ArithSharing H k ((C.fixedRssLT mem res a b size k layer net).1 res) i
      (BitVec.ofInt k (max α.toInt β.toInt)) := by
  rw [← Signed.select_max hlo hhi]
  exact select_isSharing hC hk hnet hi (sub_isSharing hk ha hb) (sub_isSharing hk hb ha) ha
    fun _ h p s => h.read a p s

theorem fixedRssGT_element (res : Nat) (hC : C.Correct H k) (hk : k ≤ 8*L)
    (hnet : H.Consistent net) (hi : i < size) (hres : b ≠ res) (ha : ArithSharing H k (mem a) i α)
    (hb : ArithSharing H k (mem b) layer β) (hlo : -2^(k-1) ≤ α.toInt - β.toInt)
    (hhi : α.toInt - β.toInt < 2^(k-1)) :
    ArithSharing H k ((C.fixedRssGT mem res a b size k layer net).1 res) i
      (BitVec.ofInt k (min α.toInt β.toInt)) := by
  rw [← Signed.select_min hlo hhi]
  exact select_isSharing hC hk hnet hi (sub_isSharing hk ha hb) (sub_isSharing hk ha hb) hb
    fun _ h _ _ => by rw [h.other b hres]

/-- What the fused routine leaves: the smaller value, and that twice over where `a` is
negative. -/
theorem fixedRssGTLTTime_element (res : Nat) (hC : C.Correct H k) (hk : k ≤ 8*L)
    (hnet : H.Consistent net) (hi : i < size) (hres : b ≠ res) (ha : ArithSharing H k (mem a) i α)
    (hb : ArithSharing H k (mem b) layer β) (hlo : -2^(k-1) ≤ α.toInt - β.toInt)
    (hhi : α.toInt - β.toInt < 2^(k-1)) :
    let μ := BitVec.ofInt k (min α.toInt β.toInt)
    ArithSharing H k ((C.fixedRssGTLTTime mem res a b size k layer net).1 res) i
      ((if α.toInt < 0 then μ else 0) + μ) := by
  intro μ
  let diff : Shares n (Lint L) := fun p s i =>
    if i < size then mem a p s i - mem b p s layer else mem a p s (i - size)
  have hdiff : ArithSharing H k diff i (α - β) :=
    (sub_isSharing hk ha hb).congr fun _ _ _ => by simp only [diff,if_pos hi]
  have hupper : ArithSharing H k diff (size + i) α := ha.congr fun _ _ _ => by
    simp only [diff]
    rw [if_neg (by omega),Nat.add_sub_cancel_left]
  let c := C.msb diff (2*size) k net
  have hnet₁ : H.Consistent c.2 := hC.msbNet _ _ hnet
  have hc := hC.msb diff (2*size) hnet (by omega : i < 2*size) hdiff
  have hc₁ := hC.msb diff (2*size) hnet (by omega : size + i < 2*size) hupper
  have hd := hC.mult c.1 diff size hnet₁ hi hc hdiff
  rw [sign_mul] at hd
  let d := C.mult c.1 diff size k c.2
  have hmin : ArithSharing H k
      (storeLoop (fun mem p s i => d.1 p s i + mem b p s layer) res size mem res) i μ := by
    simp only [μ]
    rw [← Signed.select_min hlo hhi]
    exact storeLoop_isSharing hk hi hd hb fun _ h _ _ => by rw [h.other b hres]
  have hlower : ArithSharing H k (fun p s i => if i < size then c.1 p s (size + i) else c.1 p s i) i
      (bitVal k (α.getLsbD (k-1))) := hc₁.congr fun _ _ _ => by simp only [if_pos hi,c]
  have hd₁ := hC.mult _ _ size (hC.multNet c.1 diff size hnet₁) hi hlower hmin
  rw [sign_mul] at hd₁
  exact storeLoop_isSharing hk hi hd₁ hmin fun _ h p s => h.read res p s

end Correct

end Comparisons

section ThreeParties
variable [Generator G]

def comparisons3pc (mem : Uncleared 3 L) (c : Shares 3 (Lint L)) : Comparisons 3 L G where
  msb := newRssMsb mem
  mult := rssMult c

theorem comparisons3pc_correct (hk : 2 ≤ k) (hkL : k + 2 ≤ 8*L) (mem : Uncleared 3 L)
    (c : Shares 3 (Lint L)) : (comparisons3pc (G := G) mem c).Correct shares3pc k where
  msb _ _ _ _ _ hnet hi ha := newRssMsb_element hk hkL hi hnet mem ha
  msbNet a size _ hnet := newRssMsb_net hk hkL hnet mem a size
  mult a b _ _ _ _ _ hnet _ ha hb := rssMult_isSharing (by omega) hnet c a b ha hb
  multNet a b size _ hnet := mult3pc_net hnet (arithKind L k) (product3pc _) size c a b

end ThreeParties

section FiveParties
variable [Generator G]

def comparisons5pc
    (msb : Shares 5 (Lint L) → Nat → Nat → Net 5 G → Shares 5 (Lint L) × Net 5 G) :
    Comparisons 5 L G where
  msb := msb
  mult := rssMultMp

/-- A top-bit protocol of one line: open the elements, and share their top bits as public
constants. -/
def openedMsb5pc (a : Shares 5 (Lint L)) (_size ring_size : Nat) (net : Net 5 G) :
    Shares 5 (Lint L) × Net 5 G :=
  (fun p s i =>
    if ai5pc p s then bitWord L ((rssOpenMp a ring_size p i).getLsbD (ring_size-1)) else 0,net)

theorem comparisons5pc_correct (hk₀ : 0 < k) (hk : k ≤ 8*L) :
    (comparisons5pc (L := L) (G := G) openedMsb5pc).Correct shares5pc k where
  msb a size net i α _ _ ha := by
    have hpublic := (suite5pc_marks (L := L) (G := G) fun _ _ _ _ _ _ _ => 0).isSharing
      (bitVal k (α.getLsbD (k-1)))
    refine hpublic.congr fun p s _ => ?_
    have hopen : (rssOpenMp a k p i).getLsbD (k-1) = α.getLsbD (k-1) := by
      rw [rssOpenMp_eq hk ha p,BitVec.getLsbD_setWidth,decide_eq_true (by omega),Bool.true_and]
    change (if ai5pc p s then bitWord L ((rssOpenMp a k p i).getLsbD (k-1)) else 0).setWidth k =
      if ai5pc p s then bitVal k (α.getLsbD (k-1)) else 0
    rw [hopen]
    cases ai5pc p s with
    | false => exact BitVec.setWidth_zero _ _
    | true => exact setWidth_bitWord hk _
  msbNet _ _ _ hnet := hnet
  mult a b _ _ _ _ _ hnet hi ha hb := rssMultMp_isSharing hk hnet a b hi ha hb
  multNet a b size _ hnet := table5pc_agrees.net_consistent (arithKind L k) size _ hnet _ a b

end FiveParties

end RssRing
