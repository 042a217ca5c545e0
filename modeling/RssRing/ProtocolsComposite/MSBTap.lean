import RssRing.ProtocolsRand.EdaBitTap
import RssRing.ProtocolsComposite.MSB
set_option autoImplicit false

namespace RssRing
open Replicated Coupling

variable {L k : Nat}

section Open
variable {p : Fin 3} {size i : Nat} {a a' : Shares 3 (Lint L)}

def openTaken (ring_size : Nat) (a : Shares 3 (Lint L)) (p : Fin 3) (i : Nat) : Lint L :=
  sendAndGetDataFromPeer (arithKind L ring_size) (fun q => a q 1) p i

def openMessage (ring_size size : Nat) (a : Shares 3 (Lint L)) (p : Fin 3) : Message L :=
  .words ((List.range size).map (openTaken ring_size a p))

theorem openTaken_eq (hk : k ≤ 8*L) (hown : ∀ s, s < 2 → a p s i = a' p s i)
    (hopen : rssOpen a k p i = rssOpen a' k p i) : openTaken k a p i = openTaken k a' p i := by
  have hleft := (rssOpen_val hk a p i _).mpr rfl
  rw [hopen,rssOpen_val hk,hown 0 (by decide),hown 1 (by decide)] at hleft
  have htaken := add_left_cancel hleft
  rw [openTaken,openTaken,sendAndGetDataFromPeer_eq,sendAndGetDataFromPeer_eq]
  exact (arithMasking hk).shown _ _ htaken.symm

theorem openMessage_congr (hk : k ≤ 8*L) (hown : AlikeAt p 2 size a a')
    (hopen : ∀ i, i < size → rssOpen a k p i = rssOpen a' k p i) :
    openMessage k size a p = openMessage k size a' p :=
  congrArg Message.words (List.map_congr_left fun i hi => openTaken_eq hk
    (fun s hs => hown s hs i (List.mem_range.mp hi)) (hopen i (List.mem_range.mp hi)))

theorem rssOpen_congr (h : ∀ q s, s < 2 → ∀ i, a q s i = a' q s i) (ring_size : Nat) :
    rssOpen a ring_size = rssOpen a' ring_size ∧
      openMessage ring_size size a = openMessage ring_size size a' := by
  have hsecond : (fun q => a q 1) = fun q => a' q 1 := by
    funext q i
    exact h q 1 (by decide) i
  constructor
  · funext p i
    rw [rssOpen,rssOpen,h p 0 (by decide),h p 1 (by decide),hsecond]
  · funext p
    have htaken : openTaken ring_size a p = openTaken ring_size a' p := by
      funext i
      rw [openTaken,openTaken,hsecond]
    rw [openMessage,openMessage,htaken]

theorem rssOpen_sum (hk : k ≤ 8*L) {x y : Shares 3 (Lint L)} {v w : BitVec k}
    (hx : ArithSharing shares3pc k x i v) (hy : ArithSharing shares3pc k y i w) (p : Fin 3) :
    rssOpen (fun p s i => x p s i + y p s i) k p i = (v + w).setWidth (8*L) :=
  rssOpen_eq hk ((hx.add hy).congr fun _ _ _ => BitVec.setWidth_add _ _ hk) p

end Open

def msbEnd (a b rprime : Shares 3 (Lint L)) (c : Fin 3 → Nat → Lint L) (ring_size size : Nat)
    (u : Shares 3 (Lint L) × Net 3 (Tap L)) : Shares 3 (Lint L) × Net 3 (Tap L) :=
  let sum := msbSum ai3pc c u.1 a b rprime ring_size
  let e_bit := fun p i => getBit (rssOpen sum ring_size p i) (ring_size-1)
  (fun p s i => e_bit p i*bitWord L (ai3pc p s) + b p s i - ((e_bit p i*b p s i) <<< 1),
    Tap.hear (openMessage ring_size size sum) u.2)

def msbFromTapped (scratch u_2 a b r rprime r_2 : Shares 3 (Lint L)) (ring_size size : Nat)
    (net : Net 3 (Tap L)) : Shares 3 (Lint L) × Net 3 (Tap L) :=
  let S := tapSuite scratch
  let c := S.msbC a r ring_size
  msbEnd a b rprime c ring_size size (S.bitLT u_2 c r_2 ring_size size
    (Tap.hear (openMessage ring_size size fun p s i => a p s i + r p s i) net))

def newRssMsbTapped (mem : Uncleared 3 L) (a : Shares 3 (Lint L)) (size ring_size : Nat)
    (net : Net 3 (Tap L)) : Shares 3 (Lint L) × Net 3 (Tap L) :=
  let b := (tapSuite mem.scratch).randBit mem.u size ring_size net
  let eda := edaBitTapped mem.scratch size ring_size b.2
  let rprime := fun p s i =>
    eda.r p s i - (getBit (eda.b_2 p s i) (ring_size-1) <<< (ring_size-1))
  let r_2 := fun p s i => eda.b_2 p s i &&& shift L (ring_size-1)
  msbFromTapped mem.scratch mem.u_2 a b.1 eda.r rprime r_2 ring_size size eda.net

theorem msbFrom_silence (scratch u_2 a b r rprime r_2 : Shares 3 (Lint L)) (size : Nat)
    (net : Net 3 (Tap L)) :
    (suite3pc scratch).msbFrom ai3pc u_2 a b r rprime r_2 k size (Tap.silence net) =
      ((msbFromTapped scratch u_2 a b r rprime r_2 k size net).1,
        Tap.silence (msbFromTapped scratch u_2 a b r rprime r_2 k size net).2) := by
  let message : Fin 3 → Message L := openMessage k size fun p s i => a p s i + r p s i
  have hlt := bitLT_silence scratch u_2 r_2 ((tapSuite scratch).msbC a r k) k size
    (Tap.hear message net)
  rw [Tap.silence_hear] at hlt
  have hrun : (suite3pc scratch).msbFrom ai3pc u_2 a b r rprime r_2 k size (Tap.silence net) =
      let c := (tapSuite scratch).msbC a r k
      let u := (suite3pc scratch).bitLT u_2 c r_2 k size (Tap.silence net)
      let e_bit := fun p i => getBit (rssOpen (msbSum ai3pc c u.1 a b rprime k) k p i) (k-1)
      (fun p s i => e_bit p i*bitWord L (ai3pc p s) + b p s i - ((e_bit p i*b p s i) <<< 1),u.2) := rfl
  rw [hrun]
  simp only [hlt,msbFromTapped,msbEnd,Tap.silence_hear]
  rfl

theorem newRssMsb_silence (mem : Uncleared 3 L) (a : Shares 3 (Lint L)) (size : Nat)
    (net : Net 3 (Tap L)) : newRssMsb mem a size k (Tap.silence net) =
      ((newRssMsbTapped mem a size k net).1,Tap.silence (newRssMsbTapped mem a size k net).2) := by
  have hai : (suite3pc (G := Tap L) mem.scratch).ai = ai3pc := rfl
  simp only [newRssMsb,Suite.newMsb,randBit_silence,edaBit_silence,hai,msbFrom_silence]
  rfl

section Views
variable {p : Fin 3} {size i : Nat} {net net' : Net 3 (Tap L)} {a a' : Shares 3 (Lint L)}

theorem AlikeAt.msbSum {c c' : Fin 3 → Nat → Lint L} {u u' b b' r r' : Shares 3 (Lint L)}
    (hc : ∀ i, i < size → c p i = c' p i) (hu : AlikeAt p 2 size u u') (ha : AlikeAt p 2 size a a')
    (hb : AlikeAt p 2 size b b') (hr : AlikeAt p 2 size r r') :
    AlikeAt p 2 size (msbSum ai3pc c u a b r k) (msbSum ai3pc c' u' a' b' r' k) := by
  intro s hs i hi
  simp only [RssRing.msbSum,hc i hi,hu s hs i hi,ha s hs i hi,hb s hs i hi,hr s hs i hi]

theorem msbEnd_overlay (a b rprime : Shares 3 (Lint L)) (c : Fin 3 → Nat → Lint L)
    (u : Shares 3 (Lint L) × Net 3 (Tap L)) (ω : Hidden → Nat → Byte) :
    msbEnd a b rprime c k size (overlay p u ω) = overlay p (msbEnd a b rprime c k size u) ω := by
  simp only [msbEnd,overlay,Tap.hear_withHidden]

theorem msbEnd_alike (hk : k ≤ 8*L) {c c' : Fin 3 → Nat → Lint L} {b b' r r' : Shares 3 (Lint L)}
    {u u' : Shares 3 (Lint L) × Net 3 (Tap L)} (hc : ∀ i, i < size → c p i = c' p i)
    (ha : AlikeAt p 2 size a a') (hb : AlikeAt p 2 size b b') (hr : AlikeAt p 2 size r r')
    (hu : SeenAlike p 2 size u u') (hopen : ∀ i, i < size → rssOpen (msbSum ai3pc c u.1 a b r k) k p i =
      rssOpen (msbSum ai3pc c' u'.1 a' b' r' k) k p i) :
    SeenAlike p 2 size (msbEnd a b r c k size u) (msbEnd a' b' r' c' k size u') := by
  refine ⟨fun s hs i hi => ?_,?_⟩
  · simp only [msbEnd,hopen i hi,hb s hs i hi]
  · exact Tap.hear_congr (openMessage_congr hk (AlikeAt.msbSum hc hu.1 ha hb hr) hopen) hu.2

theorem msbPrepared_of_edaBit (hk : 2 ≤ k) (hkL : k ≤ 8*L) {b r b_2 : Shares 3 (Lint L)} {β : Bool}
    {ρ : BitVec k} (hb : ArithSharing shares3pc k b i (bitVal k β))
    (hr : ArithSharing shares3pc k r i ρ) (hr_2 : BitSharing shares3pc k b_2 i ρ) :
    MsbPrepared k b r (fun p s i => r p s i - (getBit (b_2 p s i) (k-1) <<< (k-1)))
      (fun p s i => b_2 p s i &&& shift L (k-1)) i β ρ := by
  refine ⟨hb,hr,?_,fun j hj => ?_⟩
  · have hlow : lowPart ρ = ρ - topBit k (ρ.getLsbD (k-1)) :=
      eq_sub_of_add_eq (lowPart_add_topBit (by omega) ρ)
    rw [hlow]
    refine (hr.sub ((hr_2 (k-1) (by omega)).map (topBitHom (by omega)))).congr fun p s _ => ?_
    rw [setWidth_sub_of_le _ _ hkL,setWidth_shiftLeft hkL,getBit_eq,setWidth_bitWord hkL,
      ← topBit_eq_mul]
    rfl
  · rw [getLsbD_lowPart ρ hj]
    by_cases hlt : j < k-1
    · rw [decide_eq_true hlt,Bool.and_true]
      refine (hr_2 j hj).congr fun p s _ => ?_
      rw [getLsbD_and_shift,decide_eq_true hlt,Bool.and_true]
    · rw [decide_eq_false hlt,Bool.and_false]
      refine Pattern.isSharing_zero.congr fun p s _ => ?_
      rw [getLsbD_and_shift,decide_eq_false hlt,Bool.and_false]
      rfl

theorem coupled_known {A : Type} {N : Hidden → Nat} {m m' : (Hidden → Nat → Byte) → A × Net 3 (Tap L)}
    {Q : A × Net 3 (Tap L) → A × Net 3 (Tap L) → Prop} (V W : A → Prop)
    (h : Coupled (overlay p) N m m' Q) (hm : ∀ ω, V (m ω).1) (hm' : ∀ ω, W (m' ω).1) :
    Coupled (overlay p) N m m' fun x y => Q x y ∧ V x.1 ∧ W y.1 :=
  h.strengthen (fun x => V x.1) (fun y => W y.1) (fun x => V x.1) (fun y => W y.1) hm hm'
    (fun _ _ hx => hx) (fun _ _ hy => hy)

def MsbOpened (p : Fin 3) (k size : Nat) (a b rprime : Shares 3 (Lint L)) (c : Fin 3 → Nat → Lint L)
    (v : Nat → Bool) (u : Shares 3 (Lint L)) : Prop := ∀ i, i < size →
  rssOpen (msbSum ai3pc c u a b rprime k) k p i = (topBit k (v i)).setWidth (8*L)

theorem msbOpened_top (hk : 0 < k) (hkL : k < 8*L) (scratch u_2 : Shares 3 (Lint L))
    (hnet : shares3pc.Consistent (Tap.silence net)) (hi : i < size) {b r rprime r_2 : Shares 3 (Lint L)}
    {α ρ : BitVec k} {β : Bool} (h : MsbPrepared k b r rprime r_2 i β ρ)
    (ha : ArithSharing shares3pc k a i α) (p : Fin 3) :
    let S := tapSuite scratch
    let c := S.msbC a r k
    rssOpen (msbSum ai3pc c (S.bitLT u_2 c r_2 k size net).1 a b rprime k) k p i =
      (topBit k (α.getLsbD (k-1) ^^ β)).setWidth (8*L) := by
  intro S c
  have hmarks : ∀ p, marks ai3pc p = 1 := by decide
  have hopen := msbOpened hk hkL scratch u_2 ai3pc hnet hi h ha p
  simp only [hmarks,one_smul,add_sub_cancel_right] at hopen
  have hlt := congrArg Prod.fst (bitLT_silence scratch u_2 r_2 c k size net)
  rw [← hopen]
  have hsame : (S.bitLT u_2 c r_2 k size net).1 =
      ((suite3pc scratch).bitLT u_2 c r_2 k size (Tap.silence net)).1 := hlt.symm
  rw [hsame]
  rfl

theorem msbOpened_heard (hk : 0 < k) (hkL : k < 8*L) (scratch u_2 : Shares 3 (Lint L))
    (hnet : Tap.Sound p net) (message : Fin 3 → Message L) {b r rprime r_2 : Shares 3 (Lint L)}
    {α ρ : Nat → BitVec k} {β : Nat → Bool}
    (h : ∀ i, i < size → MsbPrepared k b r rprime r_2 i (β i) (ρ i))
    (ha : ∀ i, i < size → ArithSharing shares3pc k a i (α i)) (ω : Hidden → Nat → Byte) :
    let S := tapSuite scratch
    let c := S.msbC a r k
    MsbOpened p k size a b rprime c (fun i => (α i).getLsbD (k-1) ^^ β i)
      (S.bitLT u_2 c r_2 k size (Tap.withHidden p (Tap.hear message net) ω)).1 := by
  intro S c i hi
  have hsound : shares3pc.Consistent (Tap.silence (Tap.withHidden p (Tap.hear message net) ω)) := by
    rw [← Tap.hear_withHidden,Tap.silence_hear]
    exact hnet ω
  exact msbOpened_top hk hkL scratch u_2 hsound hi (h i hi) (ha i hi) p

def msbTail (scratch u_2 a : Shares 3 (Lint L)) (ring_size size : Nat)
    (x : (Shares 3 (Lint L) × (Shares 3 (Lint L) × Shares 3 (Lint L))) × Net 3 (Tap L)) :
    Shares 3 (Lint L) × Net 3 (Tap L) :=
  msbFromTapped scratch u_2 a x.1.1 x.1.2.1
    (fun p s i => x.1.2.1 p s i - (getBit (x.1.2.2 p s i) (ring_size-1) <<< (ring_size-1)))
    (fun p s i => x.1.2.2 p s i &&& shift L (ring_size-1)) ring_size size x.2

/-- Two runs whose random numbers make up for the difference of the inputs: the bits for that
of the top bits, the numbers `r` for the rest. -/
structure MsbApart (p : Fin 3) (k size : Nat) (α α' : Nat → BitVec k)
    (y y' : Shares 3 (Lint L) × (Shares 3 (Lint L) × Shares 3 (Lint L))) : Prop where
  b : AlikeAt p 2 size y.1 y'.1
  bits : ∀ i, i < size → ∃ β, ArithSharing shares3pc k y.1 i (bitVal k β) ∧ ArithSharing shares3pc k
    y'.1 i (bitVal k (β ^^ ((α i).getLsbD (k-1) ^^ (α' i).getLsbD (k-1))))
  numbers : EdaApart p k size (fun i => α i - α' i) y.2 y'.2

theorem msbTail_coupled (hk : 2 ≤ k) (hkL : k < 8*L) (p : Fin 3) (scratch : Shares 3 (Lint L))
    (size : Nat) : ∃ N, ∀ (u_2 u_2' a a' : Shares 3 (Lint L)) (α α' : Nat → BitVec k) x x',
      AlikeAt p 2 size u_2 u_2' → AlikeAt p 2 size a a' →
      (∀ i, i < size → ArithSharing shares3pc k a i (α i)) →
      (∀ i, i < size → ArithSharing shares3pc k a' i (α' i)) →
      Matched p (MsbApart p k size α α') x x' → Coupled (overlay p) N
        (fun ω => msbTail scratch u_2 a k size (overlay p x ω))
        (fun ω => msbTail scratch u_2' a' k size (overlay p x' ω)) (SeenAlike p 2 size) := by
  obtain ⟨N,hlt⟩ := bitLT_coupled p scratch k size
  refine ⟨N,fun u_2 u_2' a a' α α' x x' hu_2 ha hα hα' hx => ?_⟩
  obtain ⟨⟨b,r,b_2⟩,net⟩ := x
  obtain ⟨⟨b',r',b_2'⟩,net'⟩ := x'
  obtain ⟨⟨hb,hbits,hnumbers⟩,hown,hleft,hright⟩ := hx
  have hkL' : k ≤ 8*L := Nat.le_of_lt hkL
  have hb : AlikeAt p 2 size b b' := hb
  have hr : AlikeAt p 2 size r r' := hnumbers.r
  have hb_2 : AlikeAt p 2 size b_2 b_2' := hnumbers.b_2
  have hown : net p = net' p := hown
  choose! β hβ hβ' using hbits
  choose! ρ hρ hρ' using hnumbers.values
  let S := tapSuite scratch
  let rprime := fun (r b_2 : Shares 3 (Lint L)) =>
    (fun p s i => r p s i - (getBit (b_2 p s i) (k-1) <<< (k-1)) : Shares 3 (Lint L))
  let r_2 := fun (b_2 : Shares 3 (Lint L)) => (fun p s i => b_2 p s i &&& shift L (k-1) : Shares 3 (Lint L))
  let sum := fun (a r : Shares 3 (Lint L)) => (fun p s i => a p s i + r p s i : Shares 3 (Lint L))
  have hrprime : AlikeAt p 2 size (rprime r b_2) (rprime r' b_2') := fun s hs i hi => by
    simp only [rprime,hr s hs i hi,hb_2 s hs i hi]
  have hr_2 : AlikeAt p 2 size (r_2 b_2) (r_2 b_2') := fun s hs i hi => by
    simp only [r_2,hb_2 s hs i hi]
  have hsum : AlikeAt p 2 size (sum a r) (sum a' r') := fun s hs i hi => by
    simp only [sum,ha s hs i hi,hr s hs i hi]
  have hsums : ∀ i, i < size → rssOpen (sum a r) k p i = rssOpen (sum a' r') k p i := by
    intro i hi
    have hsame : α' i + (ρ i + (α i - α' i)) = α i + ρ i := by ring
    have hopen := rssOpen_sum hkL' (hα' i hi) (hρ' i hi).1 p
    rw [hsame] at hopen
    exact (rssOpen_sum hkL' (hα i hi) (hρ i hi).1 p).trans hopen.symm
  have hc : ∀ i, i < size → S.msbC a r k p i = S.msbC a' r' k p i := fun i hi =>
    congrArg (fun w => w &&& shift L (k-1)) (hsums i hi)
  have hprepared := fun i hi => msbPrepared_of_edaBit hk hkL' (hβ i hi) (hρ i hi).1 (hρ i hi).2
  have hprepared' := fun i hi => msbPrepared_of_edaBit hk hkL' (hβ' i hi) (hρ' i hi).1 (hρ' i hi).2
  let message : Shares 3 (Lint L) → Shares 3 (Lint L) → Fin 3 → Message L := fun a r =>
    openMessage k size (sum a r)
  have hheard : Tap.hear (message a r) net p = Tap.hear (message a' r') net' p :=
    Tap.hear_congr (openMessage_congr hkL' hsum hsums) hown
  have hstep := hlt u_2 u_2' (r_2 b_2) (r_2 b_2') (S.msbC a r k) (S.msbC a' r' k)
    (Tap.hear (message a r) net) (Tap.hear (message a' r') net') hu_2 hc hr_2 hheard
  let β' := fun i => β i ^^ ((α i).getLsbD (k-1) ^^ (α' i).getLsbD (k-1))
  let shown := fun (a b r b_2 : Shares 3 (Lint L)) (α : Nat → BitVec k) (β : Nat → Bool) =>
    MsbOpened p k size a b (rprime r b_2) (S.msbC a r k) fun i => (α i).getLsbD (k-1) ^^ β i
  have hshown := fun ω => msbOpened_heard (by omega) hkL scratch u_2 hleft (message a r) hprepared hα ω
  have hshown' := fun ω => msbOpened_heard (by omega) hkL scratch u_2' hright (message a' r') hprepared'
    hα' ω
  have hstrong := coupled_known (shown a b r b_2 α β) (shown a' b' r' b_2' α' β') hstep hshown hshown'
  let last := msbEnd a b (rprime r b_2) (S.msbC a r k) k size
  let last' := msbEnd a' b' (rprime r' b_2') (S.msbC a' r' k) k size
  have hend := hstrong.map (Q := SeenAlike p 2 size) (overlay p) last last' last last'
    (fun u ω => msbEnd_overlay _ _ _ _ u ω) (fun u ω => msbEnd_overlay _ _ _ _ u ω)
    fun u u' hu => msbEnd_alike hkL' hc ha hb hrprime hu.1 fun i hi => by
      have htop : ((α i).getLsbD (k-1) ^^ β i) = ((α' i).getLsbD (k-1) ^^ β' i) := by
        simp only [β']
        cases (α i).getLsbD (k-1) <;> cases (α' i).getLsbD (k-1) <;> cases β i <;> rfl
      exact (hu.2.1 i hi).trans ((congrArg (fun v => (topBit k v).setWidth (8*L)) htop).trans
        (hu.2.2 i hi).symm)
  have hrun : ∀ (u_2 a b r b_2 : Shares 3 (Lint L)) (net : Net 3 (Tap L)) ω,
      msbTail scratch u_2 a k size (overlay p ((b,r,b_2),net) ω) =
        msbEnd a b (rprime r b_2) (S.msbC a r k) k size (S.bitLT u_2 (S.msbC a r k) (r_2 b_2) k size
          (Tap.withHidden p (Tap.hear (message a r) net) ω)) := by
    intro u_2 a b r b_2 net ω
    rw [← Tap.hear_withHidden]
    rfl
  simp only [hrun]
  exact hend

theorem msbEnd_twoSlots (a b rprime : Shares 3 (Lint L)) (c : Fin 3 → Nat → Lint L)
    (u : Shares 3 (Lint L) × Net 3 (Tap L)) :
    twoSlots (msbEnd a (twoSlots b) rprime c k size u).1 = twoSlots (msbEnd a b rprime c k size u).1 ∧
      (msbEnd a (twoSlots b) rprime c k size u).2 = (msbEnd a b rprime c k size u).2 := by
  let sum := fun b => msbSum ai3pc c u.1 a b rprime k
  have hsum : ∀ q s, s < 2 → ∀ i, sum (twoSlots b) q s i = sum b q s i := fun q s hs i => by
    simp only [sum,msbSum,twoSlots_of_lt b q hs]
  obtain ⟨hopen,hmessage⟩ : rssOpen (sum (twoSlots b)) k = rssOpen (sum b) k ∧
      openMessage k size (sum (twoSlots b)) = openMessage k size (sum b) := rssOpen_congr hsum k
  constructor
  · funext q s i
    by_cases hs : s < 2
    · rw [twoSlots_of_lt _ q hs,twoSlots_of_lt _ q hs]
      simp only [msbEnd]
      rw [show rssOpen (msbSum ai3pc c u.1 a (twoSlots b) rprime k) k =
        rssOpen (msbSum ai3pc c u.1 a b rprime k) k from hopen,twoSlots_of_lt b q hs]
    · rw [twoSlots,twoSlots,if_neg hs,if_neg hs]
  · exact congrArg (fun message => Tap.hear message u.2) hmessage

def msbSteps (scratch u u_2 a : Shares 3 (Lint L)) (ring_size size : Nat) (net : Net 3 (Tap L)) :
    Shares 3 (Lint L) × Net 3 (Tap L) :=
  let b := randBitFrom scratch ring_size size (fetched u (ring_size+2) size net)
  let e := edaBitFrom scratch ring_size size (dealtFrom ring_size size (drawn ring_size size b.2))
  msbTail scratch u_2 a ring_size size ((b.1,e.1),e.2)

theorem msbSteps_eq (scratch u u_2 a : Shares 3 (Lint L)) (size : Nat) (net : Net 3 (Tap L)) :
    twoSlots (msbSteps scratch u u_2 a k size net).1 =
        twoSlots (newRssMsbTapped ⟨scratch,u,u_2⟩ a size k net).1 ∧
      (msbSteps scratch u u_2 a k size net).2 = (newRssMsbTapped ⟨scratch,u,u_2⟩ a size k net).2 := by
  let b := (tapSuite scratch).randBit u size k net
  let e := edaBitFrom scratch k size (dealtFrom k size (drawn k size b.2))
  have hsteps : msbSteps scratch u u_2 a k size net =
      msbTail scratch u_2 a k size ((twoSlots b.1,e.1),e.2) := by
    simp only [msbSteps,← randBit_twoSlots]
    rfl
  have htapped : newRssMsbTapped ⟨scratch,u,u_2⟩ a size k net =
      msbTail scratch u_2 a k size ((b.1,e.1),e.2) := by
    simp only [newRssMsbTapped,edaBitTapped_eq]
    rfl
  rw [hsteps,htapped]
  exact msbEnd_twoSlots _ _ _ _ _

theorem msbSteps_coupled (hk : 2 ≤ k) (hkL : k + 2 ≤ 8*L) (hpacked : Packed L k size) (p : Fin 3)
    (scratch : Shares 3 (Lint L)) : ∃ N, ∀ (u u' u_2 u_2' a a' : Shares 3 (Lint L))
      (α α' : Nat → BitVec k) (net net' : Net 3 (Tap L)), AlikeAt p 2 size u u' →
      AlikeAt p 2 size u_2 u_2' → AlikeAt p 2 size a a' →
      (∀ i, i < size → ArithSharing shares3pc k a i (α i)) →
      (∀ i, i < size → ArithSharing shares3pc k a' i (α' i)) →
      net p = net' p → Tap.Sound p net → Tap.Sound p net' → Coupled (overlay p) N
        (fun ω => msbSteps scratch u u_2 a k size (Tap.withHidden p net ω))
        (fun ω => msbSteps scratch u' u_2' a' k size (Tap.withHidden p net' ω)) (SeenAlike p 2 size) := by
  obtain ⟨N,heda⟩ := edaBit_coupled (show k ≤ 8*L by omega) hpacked p scratch
  obtain ⟨M,htail⟩ := msbTail_coupled hk (show k < 8*L by omega) p scratch size
  refine ⟨Tap.ofShare (byteWidth (k+2)*size) + Tap.ofShare (byteWidth (k+2)*size) + N + M,
    fun u u' u_2 u_2' a a' α α' net net' hu hu_2 ha hα hα' hnet hs hs' => ?_⟩
  let numbers := fun b : Shares 3 (Lint L) × Net 3 (Tap L) =>
    let e := edaBitFrom scratch k size (dealtFrom k size (drawn k size b.2))
    (((b.1,e.1),e.2) : (Shares 3 (Lint L) × (Shares 3 (Lint L) × Shares 3 (Lint L))) × Net 3 (Tap L))
  have hnumbers := (randBit_coupled (by omega) hkL p
    (fun i => (α i).getLsbD (k-1) ^^ (α' i).getLsbD (k-1)) scratch scratch hu hnet hs hs').bind
    (overlay p) numbers numbers (Q := Matched p (MsbApart p k size α α')) fun x x' hx =>
      coupled_arrays (fun e => (x.1,e)) (fun e => (x'.1,e))
        (heda (fun i => α i - α' i) x.2 x'.2 hx.own hx.left hx.right) fun y y' hy =>
          ⟨⟨hx.arrays.1,hx.arrays.2,hy.arrays⟩,hy.own,hy.left,hy.right⟩
  exact hnumbers.bind (overlay p) (msbTail scratch u_2 a k size) (msbTail scratch u_2' a' k size)
    fun x x' hx => htail u_2 u_2' a a' α α' x x' hu_2 ha hα hα' hx

/-- A run of `new_Rss_MSB` is that of the code with a note of all messages, and shows a party
nothing of the numbers whose top bits it takes: for any two sharings that a party holds the same
words of, hidden streams that are permutations of each other give runs that look the same to it,
its streams, all messages it takes and its part of the result. -/
theorem newRssMsb_views (hk : 2 ≤ k) (hkL : k + 2 ≤ 8*L) (hpacked : Packed L k size) (p : Fin 3)
    (scratch u u' u_2 u_2' a a' : Shares 3 (Lint L)) (hu : AlikeAt p 2 size u u')
    (hu_2 : AlikeAt p 2 size u_2 u_2') (ha : AlikeAt p 2 size a a')
    (hshares : ∀ i, i < size → ∃ v, ArithSharing shares3pc k a i v)
    (hshares' : ∀ i, i < size → ∃ v, ArithSharing shares3pc k a' i v)
    (net net' : Net 3 (Tap L)) (hnet : net p = net' p) (hs : Tap.Sound p net)
    (hs' : Tap.Sound p net') :
    newRssMsb ⟨scratch,u,u_2⟩ a size k (Tap.silence net) =
      ((newRssMsbTapped ⟨scratch,u,u_2⟩ a size k net).1,
        Tap.silence (newRssMsbTapped ⟨scratch,u,u_2⟩ a size k net).2) ∧
    ∃ φ : (Hidden → Nat → Byte) ≃ (Hidden → Nat → Byte), ∀ ω, SeenAlike p 2 size
      (newRssMsbTapped ⟨scratch,u,u_2⟩ a size k (Tap.withHidden p net ω))
      (newRssMsbTapped ⟨scratch,u',u_2'⟩ a' size k (Tap.withHidden p net' (φ ω))) := by
  refine ⟨newRssMsb_silence ⟨scratch,u,u_2⟩ a size net,?_⟩
  choose! α hα using hshares
  choose! α' hα' using hshares'
  obtain ⟨N,hsteps⟩ := msbSteps_coupled hk hkL hpacked p scratch
  obtain ⟨φ,hφ⟩ := views_of_coupled (hsteps u u' u_2 u_2' a a' α α' net net' hu hu_2 ha hα hα' hnet
    hs hs')
  refine ⟨φ,fun ω => ?_⟩
  obtain ⟨harrays,hown⟩ := hφ ω
  have hrun := msbSteps_eq (k := k) scratch u u_2 a size (Tap.withHidden p net ω)
  have hrun' := msbSteps_eq (k := k) scratch u' u_2' a' size (Tap.withHidden p net' (φ ω))
  refine ⟨fun s hs i hi => ?_,?_⟩
  · have htwo := harrays.twoSlots s hs i hi
    rw [hrun.1,hrun'.1,twoSlots_of_lt _ p hs,twoSlots_of_lt _ p hs] at htwo
    exact htwo
  · rw [← hrun.2,← hrun'.2]
    exact hown

theorem newRssMsb_views_top :
    let net : Net 3 (Tap 4) := fun _ _ => ⟨fun i => BitVec.ofNat 8 (3*i+1),[]⟩
    let blank : Shares 3 (Lint 4) := fun _ _ _ => 0
    let top : Shares 3 (Lint 4) := fun q s _ => if shares3pc.hold q s = {0} then 32 else 0
    ∃ φ : (Hidden → Nat → Byte) ≃ (Hidden → Nat → Byte), ∀ ω, SeenAlike 0 2 1
      (newRssMsbTapped ⟨blank,blank,blank⟩ blank 1 6 (Tap.withHidden 0 net ω))
      (newRssMsbTapped ⟨blank,blank,blank⟩ top 1 6 (Tap.withHidden 0 net (φ ω))) := by
  intro net blank top
  have halike : AlikeAt 0 2 1 blank top := alikeAt_hidden 0 1 32
  have hsame : AlikeAt 0 2 1 blank blank := fun _ _ _ _ => rfl
  have hsound := Tap.Sound.of_same (L := 4) 0 fun i => BitVec.ofNat 8 (3*i+1)
  have htop : ∀ i, i < 1 → ∃ v, ArithSharing shares3pc 6 top i v := fun i _ => exists_hidden 6 0 32 i
  exact (newRssMsb_views (L := 4) (k := 6) (by decide) (by decide) (.inr le_rfl) 0 blank blank blank
    blank blank blank top hsame hsame halike (fun _ _ => ⟨0,Pattern.isSharing_zero⟩) htop net net rfl
    hsound hsound).2

end Views

end RssRing
