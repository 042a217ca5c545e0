import RssRing.Memory
import RssRing.ProtocolsBasic.Mult
import RssRing.ProtocolsBasic.MultMp
set_option autoImplicit false

namespace RssRing
open Replicated

variable {G : Type} [Generator G] {L k : Nat}

/-- `Rss_Mult_fixed_b` on arrays given by their addresses. All of `a` and `b` is read before
the first write to the result. -/
def rssMultFixedBAt (mem : Memory 3 L) (res a b b_index size ring_size : Nat) (net : Net 3 G) :
    Memory 3 L × Net 3 G :=
  let out := rssMultFixedB (mem a) (mem b) b_index size ring_size net
  (mem.store res size out.1,out.2)

/-- `Rss_Mult_fixed_b_mp` on arrays given by their addresses. The result is cleared first, and
turn `i` reads `a` and `b` after the masks of the turns before were added to it. -/
def rssMultFixedBMpAt (mem : Memory 5 L) (res a b b_index size ring_size : Nat) (net : Net 5 G) :
    Memory 5 L × Net 5 G :=
  let K := arithKind L ring_size
  let masks := rssMultFixedBMpMasks size
  let buffer := fun p t => net.random t K.bytes (prgCtrs5pc t*size) p
  let cleared := mem.store res size fun _ _ _ => 0
  let turn := fun i => storeLoop (fun mem p t i => (masks p).foldl (fun acc u =>
    if u.tIndex = t ∧ u.i = i then acc + K.load 0 (buffer p u.tIndex) u.pos else acc)
    (mem res p t i)) res i cleared
  let products := fun p i => productMp K 6 gamma5pc (fun s => turn i a p s i)
    (fun s => turn i b p s b_index)
  (mem.store res size (table5pc.reshare K masks size net (cleared res) products),
    net.advanceAll 6 K.bytes fun t => prgCtrs5pc t*size)

theorem MultTable.reshare_congr {n : Nat} {W : Type} (tab : MultTable n) (K : WordKind W)
    (masks : Fin n → List (MaskUse n)) (size : Nat) (net : Net n G) {held held' : Shares n W}
    {products products' : Fin n → Nat → W} {i : Nat} (hheld : ∀ p t, held p t i = held' p t i)
    (hproducts : ∀ p, products p i = products' p i) (p : Fin n) (t : Nat) :
    tab.reshare K masks size net held products p t i =
      tab.reshare K masks size net held' products' p t i := by
  simp only [MultTable.reshare,hheld,hproducts]

section
variable {size b_index i res a b : Nat}

theorem rssMultFixedBAt_element (hk : k ≤ 8*L) {net : Net 3 G} (hnet : shares3pc.Consistent net)
    (mem : Memory 3 L) (res : Nat) (hi : i < size) {α β : BitVec k}
    (ha : ArithSharing shares3pc k (mem a) i α) (hb : ArithSharing shares3pc k (mem b) b_index β) :
    ArithSharing shares3pc k ((rssMultFixedBAt mem res a b b_index size k net).1 res) i (α*β) := by
  have hout : ArithSharing shares3pc k (rssMultFixedB (mem a) (mem b) b_index size k net).1 i
      (α*β) := rssMultFixedB_isSharing hk hnet (mem a) (mem b) ha hb
  exact hout.congr fun p s _ => by simp only [rssMultFixedBAt,Memory.store_same hi]

theorem rssMultFixedBMpAt_eq (mem : Memory 5 L) (hres : b ≠ res) (hi : i < size) (ring_size : Nat)
    (net : Net 5 G) (p : Fin 5) (t : Nat) :
    (rssMultFixedBMpAt mem res a b b_index size ring_size net).1 res p t i =
      (rssMultFixedBMp (mem.store res size (fun _ _ _ => 0) a) (mem b) b_index size ring_size
        net).1 p t i := by
  simp only [rssMultFixedBMpAt,Memory.store_same hi]
  rw [rssMultFixedBMp,MultTable.mult_eq]
  refine table5pc.reshare_congr _ _ _ _ (fun p t => ?_) (fun p => ?_) p t
  · exact Memory.store_same hi p t
  · have hturn := fun f : Memory 5 L → Fin 5 → Nat → Nat → Lint L =>
      storeLoop_untouched f res i (mem.store res size fun _ _ _ => 0)
    simp only [(hturn _).read a,(hturn _).other b hres,Memory.store_other hres]
    rfl

theorem rssMultFixedBMpAt_element (hk : k ≤ 8*L) {net : Net 5 G} (hnet : shares5pc.Consistent net)
    (mem : Memory 5 L) (hres : b ≠ res) (hi : i < size) {α β : BitVec k}
    (ha : ArithSharing shares5pc k (mem a) i α) (hb : ArithSharing shares5pc k (mem b) b_index β) :
    ArithSharing shares5pc k ((rssMultFixedBMpAt mem res a b b_index size k net).1 res) i
      (if a = res then 0 else α*β) := by
  have hread : ArithSharing shares5pc k (mem.store res size (fun _ _ _ => 0) a) i
      (if a = res then 0 else α) := by
    by_cases h : a = res
    · rw [if_pos h,h]
      exact Pattern.isSharing_zero.congr fun p s _ => by
        rw [Memory.store_same hi]
        exact BitVec.setWidth_zero _ _
    · rw [if_neg h,Memory.store_other h]
      exact ha
  have hout := rssMultFixedBMp_isSharing hk hnet _ (mem b) hi hread hb
  rw [ite_mul,zero_mul] at hout
  exact hout.congr fun p s _ => by rw [rssMultFixedBMpAt_eq mem hres hi]

end

/-- The products by one element of `b`, whether or not the result is stored in `a`: always
right among three parties, and among five where `a` is another array or all products are
zero. -/
theorem multFixedBAt_isSharing_iff (hk : k ≤ 8*L) (size b_index : Nat) {net₃ : Net 3 G}
    {net₅ : Net 5 G} (hnet₃ : shares3pc.Consistent net₃) (hnet₅ : shares5pc.Consistent net₅)
    (mem₃ : Memory 3 L) (mem₅ : Memory 5 L) (res a b : Nat) {α : Nat → BitVec k} {β : BitVec k}
    (ha₃ : ∀ i, i < size → ArithSharing shares3pc k (mem₃ a) i (α i))
    (hb₃ : ArithSharing shares3pc k (mem₃ b) b_index β)
    (ha₅ : ∀ i, i < size → ArithSharing shares5pc k (mem₅ a) i (α i))
    (hb₅ : ArithSharing shares5pc k (mem₅ b) b_index β) :
    (∀ i, i < size → ArithSharing shares3pc k
      ((rssMultFixedBAt mem₃ res a b b_index size k net₃).1 res) i (α i*β)) ∧
    (b ≠ res → ((∀ i, i < size → ArithSharing shares5pc k
      ((rssMultFixedBMpAt mem₅ res a b b_index size k net₅).1 res) i (α i*β)) ↔
      a ≠ res ∨ ∀ i, i < size → α i*β = 0)) := by
  refine ⟨fun i hi => rssMultFixedBAt_element hk hnet₃ mem₃ res hi (ha₃ i hi) hb₃,fun hres => ?_⟩
  have hout := fun i hi => rssMultFixedBMpAt_element hk hnet₅ mem₅ hres hi (ha₅ i hi) hb₅
  by_cases hplace : a = res
  · simp only [if_pos hplace] at hout
    constructor
    · intro h
      exact Or.inr fun i hi => (h i hi).unique (hout i hi)
    · intro h i hi
      rw [(h.resolve_left (not_not.mpr hplace)) i hi]
      exact hout i hi
  · simp only [if_neg hplace] at hout
    exact ⟨fun _ => Or.inl hplace,fun _ => hout⟩

theorem multFixedBAt_isSharing_iff_ten :
    let tape : Tape := ⟨fun i => BitVec.ofNat 8 (3*i+1)⟩
    let mem₃ : Memory 3 4 := fun x _ _ _ => if x = 0 then 14 else 12
    let mem₅ : Memory 5 4 := fun x _ _ _ => if x = 0 then 1 else 2
    ArithSharing shares3pc 4 ((rssMultFixedBAt mem₃ 0 0 1 0 1 4 fun _ _ => tape).1 0) 0 (10*4) ∧
    ArithSharing shares5pc 4 ((rssMultFixedBMpAt mem₅ 2 0 1 0 1 4 fun _ _ => tape).1 2) 0
      (10*4) := by
  intro tape mem₃ mem₅
  have hnet₃ : shares3pc.Consistent fun _ _ => tape := fun _ _ _ _ _ _ _ => rfl
  have hnet₅ : shares5pc.Consistent fun _ _ => tape := fun _ _ _ _ _ _ _ => rfl
  have ha₃ : ∀ i, i < 1 → ArithSharing shares3pc 4 (mem₃ 0) i 10 :=
    fun _ _ => ⟨fun _ => 14,fun _ _ _ => rfl,by simp⟩
  have hb₃ : ArithSharing shares3pc 4 (mem₃ 1) 0 4 := ⟨fun _ => 12,fun _ _ _ => rfl,by simp⟩
  have ha₅ : ∀ i, i < 1 → ArithSharing shares5pc 4 (mem₅ 0) i 10 :=
    fun _ _ => ⟨fun _ => 1,fun _ _ _ => rfl,by simp⟩
  have hb₅ : ArithSharing shares5pc 4 (mem₅ 1) 0 4 := ⟨fun _ => 2,fun _ _ _ => rfl,by simp⟩
  have h₃ := (multFixedBAt_isSharing_iff (by decide) 1 0 hnet₃ hnet₅ mem₃ mem₅ 0 0 1 ha₃ hb₃ ha₅
    hb₅).1
  have h₅ := (multFixedBAt_isSharing_iff (by decide) 1 0 hnet₃ hnet₅ mem₃ mem₅ 2 0 1 ha₃ hb₃ ha₅
    hb₅).2
  exact ⟨h₃ 0 Nat.one_pos,(h₅ (by decide)).mpr (Or.inl (by decide)) 0 Nat.one_pos⟩

/-- Ten times four modulo `2^4` among five parties and in place: the result is a sharing of zero. -/
theorem multFixedBMpAt_cleared :
    let tape : Tape := ⟨fun i => BitVec.ofNat 8 (3*i+1)⟩
    let mem : Memory 5 4 := fun x _ _ _ => if x = 0 then 1 else 2
    let out := (rssMultFixedBMpAt mem 0 0 1 0 1 4 fun _ _ => tape).1 0
    ArithSharing shares5pc 4 (mem 0) 0 10 ∧ ArithSharing shares5pc 4 (mem 1) 0 4 ∧
      ArithSharing shares5pc 4 out 0 0 ∧ ¬ ArithSharing shares5pc 4 out 0 (10*4) := by
  intro tape mem out
  have hnet : shares5pc.Consistent fun _ _ => tape := fun _ _ _ _ _ _ _ => rfl
  have ha : ArithSharing shares5pc 4 (mem 0) 0 10 := ⟨fun _ => 1,fun _ _ _ => rfl,by simp⟩
  have hb : ArithSharing shares5pc 4 (mem 1) 0 4 := ⟨fun _ => 2,fun _ _ _ => rfl,by simp⟩
  have hout : ArithSharing shares5pc 4 out 0 0 :=
    rssMultFixedBMpAt_element (by decide) hnet mem (by decide) Nat.one_pos ha hb
  exact ⟨ha,hb,hout,fun h => absurd (h.unique hout) (by decide)⟩

end RssRing
