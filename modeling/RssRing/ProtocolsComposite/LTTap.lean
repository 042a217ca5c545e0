import RssRing.ProtocolsComposite.LT
import RssRing.ProtocolsComposite.MSBTap
set_option autoImplicit false

namespace RssRing
open Replicated Coupling

variable {L k : Nat}

def comparisonsTapped (mem : Uncleared 3 L) (c : Shares 3 (Lint L)) : Comparisons 3 L (Tap L) where
  msb := newRssMsbTapped mem
  mult a b size ring_size net :=
    mult3pcTapped (arithKind L ring_size) .words (product3pc (arithKind L ring_size)) size net c a b

theorem select_silence (u : Uncleared 3 L) (c left right : Shares 3 (Lint L))
    (back : Memory 3 L → Fin 3 → Nat → Nat → Lint L) (mem : Memory 3 L) (res size : Nat)
    (net : Net 3 (Tap L)) :
    (comparisons3pc u c).select left right back mem res size k (Tap.silence net) =
      (((comparisonsTapped u c).select left right back mem res size k net).1,
        Tap.silence ((comparisonsTapped u c).select left right back mem res size k net).2) := by
  let t := newRssMsbTapped u left size k net
  have hmult := mult3pc_silence (arithKind L k) .words (product3pc (arithKind L k)) size t.2 c t.1 right
  have hmsb := newRssMsb_silence (k := k) u left size net
  simp only [Comparisons.select,comparisons3pc,comparisonsTapped,rssMult,hmsb]
  rw [hmult]

section Views
variable {p : Fin 3} {size i : Nat} {net net' : Net 3 (Tap L)}

theorem mult3pcTapped_congr (K : WordKind (Lint L)) {a a' : Shares 3 (Lint L)}
    (h : ∀ q s, s < 2 → ∀ i, a q s i = a' q s i) (c b : Shares 3 (Lint L)) (net : Net 3 (Tap L)) :
    mult3pcTapped K .words (product3pc K) size net c a b =
      mult3pcTapped K .words (product3pc K) size net c a' b := by
  have hproduct : ∀ q i, product3pc K (fun s => a q s i) (fun s => b q s i) =
      product3pc K (fun s => a' q s i) fun s => b q s i :=
    fun q i => product3pc_congr K (fun s hs => h q s hs i) fun _ _ => rfl
  have htaken : mult3pcTaken K (product3pc K) size net c a b =
      mult3pcTaken K (product3pc K) size net c a' b := by
    funext q i
    simp only [mult3pcTaken,hproduct]
  simp only [mult3pcTapped,htaken,mult3pc,hproduct]

/-- The sign of `left` times `right`, with the steps of `new_Rss_MSB` one after another. -/
def selectSteps (scratch u u_2 c left right : Shares 3 (Lint L)) (ring_size size : Nat)
    (net : Net 3 (Tap L)) : Shares 3 (Lint L) × Net 3 (Tap L) :=
  let sign := msbSteps scratch u u_2 left ring_size size net
  mult3pcTapped (arithKind L ring_size) .words (product3pc (arithKind L ring_size)) size sign.2 c sign.1
    right

theorem selectSteps_eq (scratch u u_2 c left right : Shares 3 (Lint L)) (net : Net 3 (Tap L)) :
    selectSteps scratch u u_2 c left right k size net =
      let sign := newRssMsbTapped ⟨scratch,u,u_2⟩ left size k net
      (comparisonsTapped ⟨scratch,u,u_2⟩ c).mult sign.1 right size k sign.2 := by
  obtain ⟨harrays,hnet⟩ := msbSteps_eq (k := k) scratch u u_2 left size net
  have hslots : ∀ q s, s < 2 → ∀ i, (msbSteps scratch u u_2 left k size net).1 q s i =
      (newRssMsbTapped ⟨scratch,u,u_2⟩ left size k net).1 q s i := by
    intro q s hs i
    have hslot := congrFun (congrFun (congrFun harrays q) s) i
    rwa [twoSlots_of_lt _ q hs,twoSlots_of_lt _ q hs] at hslot
  simp only [selectSteps,comparisonsTapped,hnet]
  exact mult3pcTapped_congr _ hslots _ _ _

theorem selectSteps_coupled (hk : 2 ≤ k) (hkL : k + 2 ≤ 8*L) (hpacked : Packed L k size) (p : Fin 3)
    (scratch : Shares 3 (Lint L)) : ∃ N, ∀ (u u' u_2 u_2' c c' left left' right right' : Shares 3 (Lint L))
      (α α' : Nat → BitVec k) (net net' : Net 3 (Tap L)), AlikeAt p 2 size u u' →
      AlikeAt p 2 size u_2 u_2' → AlikeAt p 2 size c c' → AlikeAt p 2 size left left' →
      AlikeAt p 2 size right right' → (∀ i, i < size → ArithSharing shares3pc k left i (α i)) →
      (∀ i, i < size → ArithSharing shares3pc k left' i (α' i)) →
      net p = net' p → Tap.Sound p net → Tap.Sound p net' → Coupled (overlay p) N
        (fun ω => selectSteps scratch u u_2 c left right k size (Tap.withHidden p net ω))
        (fun ω => selectSteps scratch u' u_2' c' left' right' k size (Tap.withHidden p net' ω))
        (SeenAlike p 2 size) := by
  obtain ⟨N,hsteps⟩ := msbSteps_coupled hk hkL hpacked p scratch
  refine ⟨N + Tap.ofShare ((arithKind L k).bytes*size),fun u u' u_2 u_2' c c' left left' right right' α α'
    net net' hu hu_2 hc hl hr hα hα' hnet hs hs' => ?_⟩
  let product := fun (c right : Shares 3 (Lint L)) (sign : Shares 3 (Lint L) × Net 3 (Tap L)) =>
    mult3pcTapped (arithKind L k) .words (product3pc (arithKind L k)) size sign.2 c sign.1 right
  have hmasking := arithMasking (show k ≤ 8*L by omega)
  exact (hsteps u u' u_2 u_2' left left' α α' net net' hu hu_2 hl hα hα' hnet hs hs').bind (overlay p)
    (product c right) (product c' right') fun x x' hx =>
      mult3pcTapped_coupled hmasking (fun _ _ _ _ => product3pc_congr (arithKind L k)) hc hx.1 hr hx.2

theorem newRssLT_sound (hk : 2 ≤ k) (hkL : k + 2 ≤ 8*L) (u : Uncleared 3 L) (c : Shares 3 (Lint L))
    {mem : Memory 3 L} (res : Nat) {a b : Nat} (hshares : ∀ x, x = a ∨ x = b → ∀ i, i < size → ∃ v,
      ArithSharing shares3pc k (mem x) i v) (hnet : shares3pc.Consistent (Tap.silence net)) :
    let x := (comparisonsTapped u c).newRssLT mem res a b size k net
    (∀ i, i < size → ∃ v, ArithSharing shares3pc k (x.1 res) i v) ∧
      shares3pc.Consistent (Tap.silence x.2) := by
  have hC := comparisons3pc_correct (G := Tap L) hk hkL u c
  have hrun : (comparisons3pc u c).newRssLT mem res a b size k (Tap.silence net) = _ :=
    select_silence _ _ _ _ _ _ _ _ _
  constructor
  · intro i hi
    obtain ⟨v,hv⟩ := hshares a (.inl rfl) i hi
    obtain ⟨w,hw⟩ := hshares b (.inr rfl) i hi
    have hkL' : k ≤ 8*L := by omega
    have hshared : ArithSharing shares3pc k
        (((comparisons3pc u c).newRssLT mem res a b size k (Tap.silence net)).1 res) i
        ((if (v - w).toInt < 0 then w - v else 0) + v) :=
      Comparisons.select_isSharing hC hkL' hnet hi (Comparisons.sub_isSharing hkL' hv hw)
        (Comparisons.sub_isSharing hkL' hw hv) hv fun _ h p s => h.read a p s
    rw [hrun] at hshared
    exact ⟨_,hshared⟩
  · have hconsistent : shares3pc.Consistent
        ((comparisons3pc u c).newRssLT mem res a b size k (Tap.silence net)).2 :=
      Comparisons.select_net hC hnet
    rw [hrun] at hconsistent
    exact hconsistent

theorem newRssLT_coupled (hk : 2 ≤ k) (hkL : k + 2 ≤ 8*L) (hpacked : Packed L k size) (p : Fin 3)
    (scratch : Shares 3 (Lint L)) (res a b : Nat) : ∃ N, ∀ (u u' u_2 u_2' c c' : Shares 3 (Lint L))
      (mem mem' : Memory 3 L) (net net' : Net 3 (Tap L)), AlikeAt p 2 size u u' →
      AlikeAt p 2 size u_2 u_2' → AlikeAt p 2 size c c' →
      (∀ x, x = a ∨ x = b → AlikeAt p 2 size (mem x) (mem' x)) →
      (∀ x, x = a ∨ x = b → ∀ i, i < size → ∃ v, ArithSharing shares3pc k (mem x) i v) →
      (∀ x, x = a ∨ x = b → ∀ i, i < size → ∃ v, ArithSharing shares3pc k (mem' x) i v) →
      net p = net' p → Tap.Sound p net → Tap.Sound p net' → Coupled (overlay p) N
        (fun ω => (comparisonsTapped ⟨scratch,u,u_2⟩ c).newRssLT mem res a b size k
          (Tap.withHidden p net ω))
        (fun ω => (comparisonsTapped ⟨scratch,u',u_2'⟩ c').newRssLT mem' res a b size k
          (Tap.withHidden p net' ω))
        (Matched p fun x y => AlikeAt p 2 size (x res) (y res) ∧
          (∀ i, i < size → ∃ v, ArithSharing shares3pc k (x res) i v) ∧
          ∀ i, i < size → ∃ v, ArithSharing shares3pc k (y res) i v) := by
  obtain ⟨N,hsteps⟩ := selectSteps_coupled hk hkL hpacked p scratch
  refine ⟨N,fun u u' u_2 u_2' c c' mem mem' net net' hu hu_2 hc hmem hshares hshares' hnet hs hs' => ?_⟩
  have hdiff : ∀ x y, (x = a ∨ x = b) → (y = a ∨ y = b) → AlikeAt p 2 size
      (fun p s i => mem x p s i - mem y p s i) fun p s i => mem' x p s i - mem' y p s i := by
    intro x y hx hy s hs i hi
    show mem x p s i - mem y p s i = mem' x p s i - mem' y p s i
    rw [hmem x hx s hs i hi,hmem y hy s hs i hi]
  have hleft : ∀ mem : Memory 3 L, (∀ x, x = a ∨ x = b → ∀ i, i < size → ∃ v,
      ArithSharing shares3pc k (mem x) i v) → ∀ i, i < size → ∃ v, ArithSharing shares3pc k
        (fun p s i => mem a p s i - mem b p s i) i v := by
    intro mem h i hi
    obtain ⟨v,hv⟩ := h a (.inl rfl) i hi
    obtain ⟨w,hw⟩ := h b (.inr rfl) i hi
    exact ⟨v - w,Comparisons.sub_isSharing (by omega) hv hw⟩
  choose! α hα using hleft mem hshares
  choose! α' hα' using hleft mem' hshares'
  have hselect := hsteps u u' u_2 u_2' c c' _ _ _ _ α α' net net' hu hu_2 hc
    (hdiff a b (.inl rfl) (.inr rfl)) (hdiff b a (.inr rfl) (.inl rfl)) hα hα' hnet hs hs'
  let stored := fun (mem : Memory 3 L) (d : Shares 3 (Lint L)) =>
    storeLoop (fun mem p s i => d p s i + mem a p s i) res size mem
  have hstored : ∀ (mem : Memory 3 L) (d : Shares 3 (Lint L)) i, i < size → ∀ p s,
      stored mem d res p s i = d p s i + mem a p s i := fun mem d i hi p s =>
    storeLoop_eq hi fun _ h => congrArg (fun w => d p s i + w) (h.read a p s)
  have hsame : ∀ d d' : Shares 3 (Lint L), AlikeAt p 2 size d d' →
      AlikeAt p 2 size (stored mem d res) (stored mem' d' res) := by
    intro d d' hd s hs i hi
    rw [hstored mem d i hi,hstored mem' d' i hi,hd s hs i hi,hmem a (.inl rfl) s hs i hi]
  have hpair := coupled_arrays (Q := fun x y : Memory 3 L × Net 3 (Tap L) =>
      AlikeAt p 2 size (x.1 res) (y.1 res) ∧ x.2 p = y.2 p) (stored mem) (stored mem') hselect
    fun x y hxy => ⟨hsame x.1 y.1 hxy.1,hxy.2⟩
  simp only [selectSteps_eq] at hpair
  exact coupled_matched (Q := fun x y : Memory 3 L => AlikeAt p 2 size (x res) (y res))
    (V := fun x => ∀ i, i < size → ∃ v, ArithSharing shares3pc k (x res) i v)
    (W := fun x => ∀ i, i < size → ∃ v, ArithSharing shares3pc k (x res) i v) hpair
    (fun ω => newRssLT_sound hk hkL _ _ res hshares (hs ω))
    (fun ω => newRssLT_sound hk hkL _ _ res hshares' (hs' ω)) fun x y h hx hy => ⟨h,hx,hy⟩

/-- A run of `new_Rss_LT` is that of the code with a note of all messages, and shows a party
neither the numbers it compares nor which of them is the larger one: for any memories that hold
sharings and are alike to the party, hidden streams that are permutations of each other give runs
that look the same to it. -/
theorem newRssLT_views (hk : 2 ≤ k) (hkL : k + 2 ≤ 8*L) (hpacked : Packed L k size) (p : Fin 3)
    (scratch u u' u_2 u_2' c c' : Shares 3 (Lint L)) (hu : AlikeAt p 2 size u u')
    (hu_2 : AlikeAt p 2 size u_2 u_2') (hc : AlikeAt p 2 size c c') (mem mem' : Memory 3 L)
    (res a b : Nat) (hmem : ∀ x, x = a ∨ x = b → AlikeAt p 2 size (mem x) (mem' x))
    (hshares : ∀ x, x = a ∨ x = b → ∀ i, i < size → ∃ v, ArithSharing shares3pc k (mem x) i v)
    (hshares' : ∀ x, x = a ∨ x = b → ∀ i, i < size → ∃ v, ArithSharing shares3pc k (mem' x) i v)
    (net net' : Net 3 (Tap L)) (hnet : net p = net' p) (hs : Tap.Sound p net)
    (hs' : Tap.Sound p net') :
    (comparisons3pc ⟨scratch,u,u_2⟩ c).newRssLT mem res a b size k (Tap.silence net) =
      (((comparisonsTapped ⟨scratch,u,u_2⟩ c).newRssLT mem res a b size k net).1,
        Tap.silence ((comparisonsTapped ⟨scratch,u,u_2⟩ c).newRssLT mem res a b size k net).2) ∧
    ∃ φ : (Hidden → Nat → Byte) ≃ (Hidden → Nat → Byte), ∀ ω,
      let x := (comparisonsTapped ⟨scratch,u,u_2⟩ c).newRssLT mem res a b size k (Tap.withHidden p net ω)
      let y := (comparisonsTapped ⟨scratch,u',u_2'⟩ c').newRssLT mem' res a b size k
        (Tap.withHidden p net' (φ ω))
      SeenAlike p 2 size (x.1 res,x.2) (y.1 res,y.2) := by
  refine ⟨select_silence _ _ _ _ _ _ _ _ _,?_⟩
  obtain ⟨N,hcoupled⟩ := newRssLT_coupled hk hkL hpacked p scratch res a b
  have hrun := hcoupled u u' u_2 u_2' c c' mem mem' net net' hu hu_2 hc hmem hshares hshares' hnet hs hs'
  exact views_of_coupled (coupled_arrays (Q := SeenAlike p 2 size) (fun x => x res) (fun x => x res) hrun
    fun x y hxy => ⟨hxy.arrays.1,hxy.own⟩)

theorem newRssLT_views_five :
    let net : Net 3 (Tap 4) := fun _ _ => ⟨fun i => BitVec.ofNat 8 (3*i+1),[]⟩
    let blank : Shares 3 (Lint 4) := fun _ _ _ => 0
    let five : Shares 3 (Lint 4) := fun q s _ => if shares3pc.hold q s = {0} then 5 else 0
    let mem : Memory 3 4 := fun x => if x = 0 then five else blank
    ∃ φ : (Hidden → Nat → Byte) ≃ (Hidden → Nat → Byte), ∀ ω,
      let x := (comparisonsTapped ⟨blank,blank,blank⟩ blank).newRssLT (fun _ => blank) 2 0 1 1 6
        (Tap.withHidden 0 net ω)
      let y := (comparisonsTapped ⟨blank,blank,blank⟩ blank).newRssLT mem 2 0 1 1 6
        (Tap.withHidden 0 net (φ ω))
      SeenAlike 0 2 1 (x.1 2,x.2) (y.1 2,y.2) := by
  intro net blank five mem
  have hsame : AlikeAt 0 2 1 blank blank := fun _ _ _ _ => rfl
  have halike : AlikeAt 0 2 1 blank five := alikeAt_hidden 0 1 5
  have hblank : ∀ i, i < 1 → ∃ v, ArithSharing shares3pc 6 blank i v :=
    fun _ _ => ⟨0,Pattern.isSharing_zero⟩
  have hfive : ∀ i, i < 1 → ∃ v, ArithSharing shares3pc 6 five i v := fun i _ => exists_hidden 6 0 5 i
  have hmem : ∀ x, x = 0 ∨ x = 1 → AlikeAt 0 2 1 blank (mem x) := by
    rintro x (rfl | rfl)
    · exact halike
    · exact hsame
  have hshares : ∀ x, x = 0 ∨ x = 1 → ∀ i, i < 1 → ∃ v, ArithSharing shares3pc 6 (mem x) i v := by
    rintro x (rfl | rfl)
    · exact hfive
    · exact hblank
  have hsound := Tap.Sound.of_same (L := 4) 0 fun i => BitVec.ofNat 8 (3*i+1)
  exact (newRssLT_views (L := 4) (k := 6) (by decide) (by decide) (.inr le_rfl) 0 blank blank blank
    blank blank blank blank hsame hsame hsame (fun _ => blank) mem 2 0 1 hmem (fun _ _ => hblank)
    hshares net net rfl hsound hsound).2

end Views

end RssRing
