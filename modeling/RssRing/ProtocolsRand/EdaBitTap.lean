import RssRing.ProtocolsRand.RandBitTap
import RssRing.ProtocolsRand.PackedDealing
set_option autoImplicit false

namespace RssRing
open Replicated Coupling

variable {L k : Nat}

namespace Tap
variable {p q : Fin 3}

def ofOwn (m : Nat) : Hidden → Nat
  | .share => 0
  | _ => m

theorem advanceOwn_apply (net : Net 3 (Tap L)) (size length : Nat) (q : Fin 3) (s : Nat) :
    net.advance 2 size length q s = if s = 2 then
      ⟨fun i => (net q s).byte (size*length + i),(net q s).heard⟩ else net q s := by
  by_cases hs : s = 2
  · subst hs
    rw [if_pos rfl,Net.advance,Function.update_self]
    rfl
  · rw [if_neg hs,Net.advance,Function.update_of_ne hs]

theorem advanceOwn_withHidden (p : Fin 3) (net : Net 3 (Tap L)) (ω : Hidden → Nat → Byte)
    (size length : Nat) : (withHidden p net ω).advance 2 size length =
      withHidden p (net.advance 2 size length) (drop (ofOwn (size*length)) ω) := by
  funext q s
  rw [advanceOwn_apply,withHidden,withHidden,advanceOwn_apply]
  cases hj : hiddenAt p q s with
  | none => rfl
  | some j =>
    by_cases hs : s = 2
    · have hown : ofOwn (size*length) j = size*length := by
        cases j with
        | share =>
          have hlt := (hiddenAt_share hj).mp rfl
          omega
        | next => rfl
        | last => rfl
      have hdrop : drop (ofOwn (size*length)) ω j = fun i => ω j (size*length + i) := by
        funext i
        rw [drop,hown]
      simp only [if_pos hs,hdrop]
    · have hshare : j = .share := by
        by_contra hne
        unfold hiddenAt at hj
        split at hj
        case isTrue => exact hne (Option.some.inj hj).symm
        case isFalse => simp [hs] at hj
      subst hshare
      have hdrop : drop (ofOwn (size*length)) ω .share = ω .share := by
        funext i
        exact congrArg (ω .share) (Nat.zero_add i)
      simp only [if_neg hs,hdrop]

theorem hiddenAt_own {j : Hidden} (h : hiddenAt p q 2 = some j) (m : Nat) : ofOwn m j = m := by
  cases j with
  | share =>
    have hlt := (hiddenAt_share h).mp rfl
    omega
  | next => rfl
  | last => rfl

end Tap

def dealer (p : Fin 3) : Fin 3 := if p = 0 then 1 else 0

theorem exists_dealt (p : Fin 3) : ∃ j, Tap.hiddenAt p (dealer p) 2 = some j ∧
    ∀ q, q ≠ dealer p → Tap.hiddenAt p q 2 ≠ some j := by
  have hcases : p = 0 ∨ p = 1 ∨ p = 2 := by revert p; decide
  rcases hcases with rfl | rfl | rfl
  · exact ⟨.next,rfl,by decide⟩
  · exact ⟨.last,rfl,by decide⟩
  · exact ⟨.next,rfl,by decide⟩

section Drawn
variable {p q : Fin 3} {size i : Nat} {net net' : Net 3 (Tap L)}

theorem memcpyArray_word (hk : k ≤ 8*L) (hpacked : Packed L k size) (src : Nat → Byte) (c : Nat)
    (hi : i < size) : (memcpyArray (fun _ => 0) src (c*(size*byteWidth k)) (size*byteWidth k) i :
      Lint L).setWidth k = Tape.word k (byteWidth k) ⟨src⟩ (c*size + i) := by
  apply BitVec.eq_of_getLsbD_eq
  intro j hj
  have hbytes := le_byteWidth k
  have hdiv : j/8 < byteWidth k := by omega
  have hstride : i*L = i*byteWidth k := by
    rcases hpacked with h | h
    · rw [h]
    · rw [show i = 0 by omega,Nat.zero_mul,Nat.zero_mul]
  have hlt := index_lt hi hdiv
  have hplace : 8*byteWidth k*(c*size + i) + j =
      8*(c*(size*byteWidth k) + i*byteWidth k) + j := by ring
  have hbyte : (8*(c*(size*byteWidth k) + i*byteWidth k) + j)/8 =
      c*(size*byteWidth k) + i*byteWidth k + j/8 := by omega
  have hbit : (8*(c*(size*byteWidth k) + i*byteWidth k) + j)%8 = j%8 := by omega
  rw [BitVec.getLsbD_setWidth,decide_eq_true hj,Bool.true_and,getLsbD_memcpyArray,
    decide_eq_true (by omega),Bool.true_and,hstride,if_pos hlt,Tape.word,getLsbD_ofBits,
    decide_eq_true hj,Bool.true_and,Tape.bit,hplace,hbyte,hbit,Nat.add_assoc]

def drawn (ring_size size : Nat) (net : Net 3 (Tap L)) :
    (Fin 3 → Nat → Lint L) × Net 3 (Tap L) :=
  (edaBitsOwn ring_size size net,net.advance 2 (byteWidth ring_size) size)

theorem drawn_local (p : Fin 3) (net : Net 3 (Tap L))
    (d : Blocks (Tap.ofOwn (byteWidth k*size)) Byte) : ∃ x, ∀ ω,
      drawn k size (Tap.withHidden p net (join d ω)) = overlay p x ω := by
  refine ⟨(edaBitsOwn k size (Tap.withHidden p net (join d default)),
    net.advance 2 (byteWidth k) size),fun ω => ?_⟩
  have hrandom : ∀ q, (Tap.withHidden p net (join d ω)).random 2 (byteWidth k) size q =
      (Tap.withHidden p net (join d default)).random 2 (byteWidth k) size q := fun q =>
    Tap.random_join net d _ size (fun j hj => Nat.le_of_eq (Tap.hiddenAt_own hj _).symm) ω default
  rw [drawn,Tap.advanceOwn_withHidden,drop_join,overlay]
  refine Prod.ext (funext fun q => funext fun i => ?_) rfl
  simp only [edaBitsOwn,hrandom]

theorem edaBitsOwn_hidden (hk : k ≤ 8*L) (hpacked : Packed L k size) {N : Hidden → Nat}
    {j : Hidden} (hplace : Tap.hiddenAt p q 2 = some j) (net : Net 3 (Tap L)) (d : Blocks N Byte)
    (hi : i < size) :
    (edaBitsOwn k size (Tap.withHidden p net (join d default)) q i : Lint L).setWidth k =
      Tap.blockWord k (byteWidth k) d j i := by
  have hword := memcpyArray_word hk hpacked
    ((Tap.withHidden p net (join d default)).random 2 (byteWidth k) size q) 0 hi
  simp only [Nat.zero_mul,Nat.zero_add] at hword
  rw [edaBitsOwn,hword,Tap.random_withHidden _ _ hplace]
  exact Tape.word_congr (le_byteWidth k) (fun m hm => if_pos hm) hi

/-- The words that two runs draw differ by `δ`, all at one dealer, and at no other party. -/
def DrawnApart (p : Fin 3) (k size : Nat) (δ : Nat → BitVec k) (r r' : Fin 3 → Nat → Lint L) :
    Prop :=
  r p = r' p ∧ ∀ i, i < size → ∀ q, (r' q i).setWidth k =
    (r q i).setWidth k + if q = dealer p then δ i else 0

theorem hiddenAt_of_ne (h : q ≠ p) : ∃ j, Tap.hiddenAt p q 2 = some j := by
  have htable : ∀ p q : Fin 3, q ≠ p → (Tap.hiddenAt p q 2).isSome := by decide
  exact Option.isSome_iff_exists.mp (htable p q h)

theorem dealer_ne (p : Fin 3) : dealer p ≠ p := by
  revert p
  decide

theorem drawn_coupled (hk : k ≤ 8*L) (hpacked : Packed L k size) (p : Fin 3) (δ : Nat → BitVec k)
    (hnet : net p = net' p) (hs : Tap.Sound p net) (hs' : Tap.Sound p net') :
    Coupled (overlay p) (Tap.ofOwn (byteWidth k*size))
      (fun ω => drawn k size (Tap.withHidden p net ω))
      (fun ω => drawn k size (Tap.withHidden p net' ω)) (Matched p (DrawnApart p k size δ)) := by
  obtain ⟨j,hj,hother⟩ := exists_dealt p
  have hN : byteWidth k*size ≤ Tap.ofOwn (byteWidth k*size) j :=
    Nat.le_of_eq (Tap.hiddenAt_own hj _).symm
  let shifted : Nat → BitVec k ≃ BitVec k := fun i => Equiv.addRight (δ i)
  have hpair : Coupled (overlay p) (Tap.ofOwn (byteWidth k*size))
      (fun ω => drawn k size (Tap.withHidden p net ω))
      (fun ω => drawn k size (Tap.withHidden p net' ω))
      fun x y => DrawnApart p k size δ x.1 y.1 ∧ x.2 p = y.2 p := by
    refine Coupled.of_local (drawn_local p net) (drawn_local p net')
      (Tap.rewordBlocks (le_byteWidth k) hN shifted) fun d z z' hz hz' => ?_
    let d' := Tap.rewordBlocks (le_byteWidth k) hN shifted d
    have hend : drawn k size (Tap.withHidden p net (join d default)) = overlay p z default := hz default
    have hend' : drawn k size (Tap.withHidden p net' (join d' default)) = overlay p z' default :=
      hz' default
    have hwords : z.1 = edaBitsOwn k size (Tap.withHidden p net (join d default)) :=
      (congrArg Prod.fst hend).symm
    have hwords' : z'.1 = edaBitsOwn k size (Tap.withHidden p net' (join d' default)) :=
      (congrArg Prod.fst hend').symm
    have hself : z.1 p = z'.1 p := by
      funext i
      rw [hwords,hwords',edaBitsOwn,edaBitsOwn,random_self hnet]
    refine ⟨⟨hself,fun i hi q => ?_⟩,?_⟩
    · by_cases hq : q = p
      · subst hq
        rw [hself,if_neg (dealer_ne q).symm,add_zero]
      · obtain ⟨m,hm⟩ := hiddenAt_of_ne hq
        rw [hwords,hwords',edaBitsOwn_hidden hk hpacked hm net d hi,
          edaBitsOwn_hidden hk hpacked hm net' d' hi]
        by_cases hdealer : q = dealer p
        · rw [hdealer,hj] at hm
          obtain rfl := Option.some.inj hm
          rw [if_pos hdealer,Tap.blockWord_rewordBlocks (le_byteWidth k) hN shifted d hi]
          rfl
        · have hne : m ≠ j := fun h => hother q hdealer (h ▸ hm)
          rw [if_neg hdealer,add_zero,Tap.blockWord,Tap.blockWord,
            Tap.join_rewordBlocks_of_ne hne (le_byteWidth k) hN shifted d]
    · have hown : (overlay p z default).2 p = (overlay p z' default).2 p := by
        rw [← hend,← hend']
        refine Net.advance_congr ?_ _ _ _
        rw [Tap.withHidden_self,Tap.withHidden_self,hnet]
      simpa only [overlay,Tap.withHidden_self] using hown
  refine coupled_matched (V := fun _ => True) (W := fun _ => True) hpair (fun ω => ⟨trivial,?_⟩)
    (fun ω => ⟨trivial,?_⟩) fun _ _ h _ _ => h
  · rw [drawn,← Tap.silence_advance]
    exact Net.consistent_advance_own (hs ω) (by decide) _ _
  · rw [drawn,← Tap.silence_advance]
    exact Net.consistent_advance_own (hs' ω) (by decide) _ _

end Drawn

section Dealt
variable {p : Fin 3} {size i m : Nat} {net net' : Net 3 (Tap L)} {r r' : Fin 3 → Nat → Lint L}

def secondPart (ring_size size : Nat) (net : Net 3 (Tap L)) (p : Fin 3) (m : Nat) : Lint L :=
  packedHalves (net.random 1 (byteWidth ring_size) (2*size) p) (byteWidth ring_size) size m

def otherPart (ring_size size : Nat) (net : Net 3 (Tap L)) (p : Fin 3) (m : Nat) : Lint L :=
  packedHalves ((net.advance 1 (byteWidth ring_size) (2*size)).random 0 (byteWidth ring_size)
    (2*size) p) (byteWidth ring_size) size m

/-- What is left of a dealer's word, as a number in the first half and bit by bit in the
second. -/
def firstPart (r_bits : Fin 3 → Nat → Lint L) (ring_size size : Nat) (net : Net 3 (Tap L))
    (p : Fin 3) (m : Nat) : Lint L :=
  if m < size then r_bits p m - secondPart ring_size size net p m
  else r_bits p (m - size) ^^^ secondPart ring_size size net p m

/-- `r_values[s][j]` of party `p` once the words are drawn. -/
def rValuesFrom (r_bits : Fin 3 → Nat → Lint L) (ring_size size : Nat) (net : Net 3 (Tap L))
    (p : Fin 3) (s : Nat) (j : Fin 3) (m : Nat) : Lint L :=
  match s with
  | 0 => if j = p then masked ring_size (firstPart r_bits ring_size size net p m)
    else if j = p + 2 then otherPart ring_size size net p m else 0
  | 1 => if j = p then secondPart ring_size size net p m
    else if j = p + 1 then sendAndGetDataFromPeer (arithKind L ring_size)
      (firstPart r_bits ring_size size net) p m else 0
  | _ => 0

structure Dealt (L : Nat) where
  r_bits : Fin 3 → Nat → Lint L
  res : Shares 3 (Lint L)
  res_bitwise : Shares 3 (Lint L)

def dealtShares (r : Fin 3 → Nat → Lint L) (size : Nat)
    (v : Fin 3 → Nat → Fin 3 → Nat → Lint L) : Dealt L :=
  ⟨r,fun p s i => v p s 0 i + v p s 1 i,fun p s m => if m < size then v p s 0 (size + m)
    else if m < 2*size then v p s 1 (size + (m - size)) else 0⟩

def dealtMessage (size : Nat) (v : Fin 3 → Nat → Fin 3 → Nat → Lint L) (p : Fin 3) : Message L :=
  .words ((List.range (2*size)).map (v p 1 (p + 1)))

def dealtFrom (ring_size size : Nat) (x : (Fin 3 → Nat → Lint L) × Net 3 (Tap L)) :
    Dealt L × Net 3 (Tap L) :=
  let v := rValuesFrom x.1 ring_size size x.2
  (dealtShares x.1 size v,Tap.hear (dealtMessage size v)
    ((x.2.advance 1 (byteWidth ring_size) (2*size)).advance 0 (byteWidth ring_size) (2*size)))

def generateRandomSharesTapped (ring_size size : Nat) (net : Net 3 (Tap L)) :
    RandomShares 3 L (Tap L) :=
  let g := generateRandomShares ring_size size net
  ⟨g.res,g.res_bitwise,Tap.hear (dealtMessage size (rValues ring_size size net)) g.net⟩

theorem generateRandomSharesTapped_eq (size : Nat) (net : Net 3 (Tap L)) :
    generateRandomSharesTapped k size net =
      let x := dealtFrom k size (drawn k size net)
      ⟨x.1.res,x.1.res_bitwise,x.2⟩ := by
  have hvalues : rValues k size net =
      rValuesFrom (edaBitsOwn k size net) k size (net.advance 2 (byteWidth k) size) := by
    funext p s j m
    rcases s with _ | _ | s <;> rfl
  simp only [generateRandomSharesTapped,generateRandomShares,hvalues]
  rfl

theorem rValuesFrom_alike (hr : r p = r' p)
    (hrandom : ∀ s, net.random s (byteWidth k) (2*size) p = net'.random s (byteWidth k) (2*size) p)
    (htaken : rValuesFrom r k size net p 1 (p + 1) m = rValuesFrom r' k size net' p 1 (p + 1) m)
    (s : Nat) (j : Fin 3) : rValuesFrom r k size net p s j m = rValuesFrom r' k size net' p s j m := by
  have hsecond : secondPart k size net p m = secondPart k size net' p m := by
    rw [secondPart,secondPart,hrandom]
  rcases s with _ | _ | s
  · have hother : otherPart k size net p m = otherPart k size net' p m := by
      rw [otherPart,otherPart,random_advance_first,random_advance_first,hrandom]
    have hfirst : firstPart r k size net p m = firstPart r' k size net' p m := by
      rw [firstPart,firstPart,hr,hsecond]
    simp only [rValuesFrom,hfirst,hother]
  · by_cases hj : j = p + 1
    · rw [hj]
      exact htaken
    · simp only [rValuesFrom,hsecond,if_neg hj]
  · simp only [rValuesFrom]

theorem dealtShares_alike {v v' : Fin 3 → Nat → Fin 3 → Nat → Lint L}
    (h : ∀ m, m < 2*size → ∀ s j, v p s j m = v' p s j m) :
    AlikeAt p 2 size (dealtShares r size v).res (dealtShares r' size v').res ∧
      AlikeAt p 2 (2*size) (dealtShares r size v).res_bitwise (dealtShares r' size v').res_bitwise := by
  constructor
  · intro s _ i hi
    simp only [dealtShares,h i (by omega)]
  · intro s _ m hm
    by_cases hlow : m < size
    · simp only [dealtShares,if_pos hlow,h (size + m) (by omega)]
    · simp only [dealtShares,if_neg hlow,if_pos hm,h (size + (m - size)) (by omega)]

theorem dealtMessage_congr {v v' : Fin 3 → Nat → Fin 3 → Nat → Lint L}
    (h : ∀ m, m < 2*size → ∀ s j, v p s j m = v' p s j m) :
    dealtMessage size v p = dealtMessage size v' p :=
  congrArg Message.words (List.map_congr_left fun m hm => h m (List.mem_range.mp hm) 1 (p + 1))

theorem packedHalves_word (hk : k ≤ 8*L) (hpacked : Packed L k size) (src : Nat → Byte)
    (hm : m < 2*size) : (packedHalves src (byteWidth k) size m : Lint L).setWidth k =
      Tape.word k (byteWidth k) ⟨src⟩ m := by
  by_cases hlow : m < size
  · have hword := memcpyArray_word hk hpacked src 0 hlow
    rw [Nat.zero_mul,Nat.zero_mul,Nat.zero_add] at hword
    rw [packedHalves,if_pos hlow,hword]
  · have hword := memcpyArray_word hk hpacked src 1 (show m - size < size by omega)
    rw [Nat.one_mul,Nat.one_mul,Nat.add_sub_cancel' (by omega)] at hword
    rw [packedHalves,if_neg hlow,hword]

theorem secondPart_hidden (hk : k ≤ 8*L) (hpacked : Packed L k size) {N : Hidden → Nat}
    (p : Fin 3) (net : Net 3 (Tap L)) (d : Blocks N Byte) (hm : m < 2*size) :
    (secondPart k size (Tap.withHidden p net (join d default)) (p + 1) m).setWidth k =
      Tap.blockWord k (byteWidth k) d .share m := by
  have hplace : Tap.hiddenAt p (p + 1) 1 = some .share := if_pos (.inl ⟨rfl,rfl⟩)
  rw [secondPart,packedHalves_word hk hpacked _ hm,Tap.random_withHidden _ _ hplace]
  exact Tape.word_congr (le_byteWidth k) (fun m hm => if_pos hm) hm

theorem rValuesFrom_taken (r : Fin 3 → Nat → Lint L) (net : Net 3 (Tap L)) (p : Fin 3) (m : Nat) :
    rValuesFrom r k size net p 1 (p + 1) m = received k (firstPart r k size net (p + 1) m) := by
  have hne : p + 1 ≠ p := by revert p; decide
  rw [rValuesFrom,if_neg hne,if_pos rfl,sendAndGetDataFromPeer_eq]
  rfl

def xorWord (c : BitVec k) : BitVec k ≃ BitVec k :=
  Function.Involutive.toPerm (fun x => x ^^^ c) fun x => by
    show (x ^^^ c) ^^^ c = x
    rw [BitVec.xor_assoc,BitVec.xor_self,BitVec.xor_zero]

/-- How the hidden words make up for other words of the next party. -/
def dealtShift (k size : Nat) (R R' : Nat → BitVec k) (m : Nat) : BitVec k ≃ BitVec k :=
  if m < size then Equiv.addRight (R' m - R m) else xorWord (R (m - size) ^^^ R' (m - size))

theorem firstPart_setWidth (hk : k ≤ 8*L) (r : Fin 3 → Nat → Lint L) (net : Net 3 (Tap L))
    (q : Fin 3) (m : Nat) : (firstPart r k size net q m).setWidth k =
      if m < size then (r q m).setWidth k - (secondPart k size net q m).setWidth k
      else (r q (m - size)).setWidth k ^^^ (secondPart k size net q m).setWidth k := by
  by_cases hlow : m < size
  · rw [firstPart,if_pos hlow,if_pos hlow,setWidth_sub_of_le _ _ hk]
  · rw [firstPart,if_neg hlow,if_neg hlow,BitVec.setWidth_xor]

theorem dealt_taken (hk : k ≤ 8*L) (hpacked : Packed L k size) (p : Fin 3)
    (r r' : Fin 3 → Nat → Lint L) (net net' : Net 3 (Tap L))
    (d d' : Blocks (Tap.ofShare (byteWidth k*(2*size))) Byte) (hm : m < 2*size)
    (hshift : Tap.blockWord k (byteWidth k) d' .share m =
      dealtShift k size (fun i => (r (p + 1) i).setWidth k) (fun i => (r' (p + 1) i).setWidth k) m
        (Tap.blockWord k (byteWidth k) d .share m)) :
    rValuesFrom r k size (Tap.withHidden p net (join d default)) p 1 (p + 1) m =
      rValuesFrom r' k size (Tap.withHidden p net' (join d' default)) p 1 (p + 1) m := by
  rw [rValuesFrom_taken,rValuesFrom_taken]
  refine (arithMasking hk).shown _ _ ?_
  show (firstPart r k size _ (p + 1) m).setWidth k = (firstPart r' k size _ (p + 1) m).setWidth k
  rw [firstPart_setWidth hk,firstPart_setWidth hk,secondPart_hidden hk hpacked p net d hm,
    secondPart_hidden hk hpacked p net' d' hm,hshift,dealtShift]
  by_cases hlow : m < size
  · simp only [if_pos hlow,Equiv.coe_addRight]
    ring
  · simp only [if_neg hlow]
    generalize (r (p + 1) (m - size)).setWidth k = x
    generalize (r' (p + 1) (m - size)).setWidth k = y
    generalize Tap.blockWord k (byteWidth k) d .share m = h
    show x ^^^ h = y ^^^ (h ^^^ (x ^^^ y))
    rw [BitVec.xor_comm x y,← BitVec.xor_assoc h,← BitVec.xor_assoc y,← BitVec.xor_assoc y,
      BitVec.xor_comm y h,BitVec.xor_assoc h,BitVec.xor_self,BitVec.xor_zero,BitVec.xor_comm]

theorem rValuesFrom_congr (r : Fin 3 → Nat → Lint L)
    (h : ∀ s, s < 2 → ∀ q, net.random s (byteWidth k) (2*size) q =
      net'.random s (byteWidth k) (2*size) q) :
    rValuesFrom r k size net = rValuesFrom r k size net' := by
  have hsecond : secondPart (L := L) k size net = secondPart k size net' := by
    funext q m
    rw [secondPart,secondPart,h 1 (by decide)]
  have hother : otherPart (L := L) k size net = otherPart k size net' := by
    funext q m
    rw [otherPart,otherPart,random_advance_first,random_advance_first,h 0 (by decide)]
  have hfirst : firstPart r k size net = firstPart r k size net' := by
    funext q m
    rw [firstPart,firstPart,hsecond]
  funext q s j m
  rcases s with _ | _ | s
  · rw [rValuesFrom,rValuesFrom,hfirst,hother]
  · rw [rValuesFrom,rValuesFrom,hfirst,hsecond]
  · simp only [rValuesFrom]

theorem dealtFrom_local (p : Fin 3) (x : (Fin 3 → Nat → Lint L) × Net 3 (Tap L))
    (d : Blocks (Tap.ofShare (byteWidth k*(2*size))) Byte) : ∃ z, ∀ ω,
      dealtFrom k size (overlay p x (join d ω)) = overlay p z ω :=
  heard_local p x.2 (fun net => dealtShares x.1 size (rValuesFrom x.1 k size net))
    (fun net => dealtMessage size (rValuesFrom x.1 k size net)) (fun net net' h => by
      rw [rValuesFrom_congr x.1 h]
      exact ⟨rfl,rfl⟩) d

theorem dealtFrom_coupled (hk : k ≤ 8*L) (hpacked : Packed L k size)
    {x x' : (Fin 3 → Nat → Lint L) × Net 3 (Tap L)} (hr : x.1 p = x'.1 p) (hnet : x.2 p = x'.2 p) :
    Coupled (overlay p) (Tap.ofShare (byteWidth k*(2*size)))
      (fun ω => dealtFrom k size (overlay p x ω)) (fun ω => dealtFrom k size (overlay p x' ω))
      fun y y' => (y.1.r_bits = x.1 ∧ y'.1.r_bits = x'.1 ∧ AlikeAt p 2 size y.1.res y'.1.res ∧
        AlikeAt p 2 (2*size) y.1.res_bitwise y'.1.res_bitwise) ∧ y.2 p = y'.2 p := by
  obtain ⟨r,net⟩ := x
  obtain ⟨r',net'⟩ := x'
  let shifted := dealtShift k size (fun i => (r (p + 1) i).setWidth k)
    (fun i => (r' (p + 1) i).setWidth k)
  refine Coupled.of_local (dealtFrom_local p (r,net)) (dealtFrom_local p (r',net'))
    (Tap.rewordBlocks (j := .share) (le_byteWidth k) (Nat.le_refl _) shifted) fun d z z' hz hz' => ?_
  let d' := Tap.rewordBlocks (N := Tap.ofShare (byteWidth k*(2*size))) (j := .share) (le_byteWidth k)
    (Nat.le_refl _) shifted d
  let start := Tap.withHidden p net (join d default)
  let start' := Tap.withHidden p net' (join d' default)
  have hend : dealtFrom k size (r,start) = overlay p z default := hz default
  have hend' : dealtFrom k size (r',start') = overlay p z' default := hz' default
  have hvalues : ∀ m, m < 2*size → ∀ s j,
      rValuesFrom r k size start p s j m = rValuesFrom r' k size start' p s j m := fun m hm s j =>
    rValuesFrom_alike hr (fun s => random_self hnet s _ _ _ _) (dealt_taken hk hpacked p r r' net net'
      d d' hm (Tap.blockWord_rewordBlocks (le_byteWidth k) (Nat.le_refl _) shifted d hm)) s j
  have hstart : start p = start' p := by
    simp only [start,start',Tap.withHidden_self]
    exact hnet
  have hown := Tap.hear_congr (dealtMessage_congr hvalues) (Net.advance_congr
    (Net.advance_congr hstart 1 (byteWidth k) (2*size)) 0 (byteWidth k) (2*size))
  have harrays : dealtShares r size (rValuesFrom r k size start) = z.1 := congrArg Prod.fst hend
  have harrays' : dealtShares r' size (rValuesFrom r' k size start') = z'.1 := congrArg Prod.fst hend'
  have hleft := congrFun (congrArg Prod.snd hend) p
  have hright := congrFun (congrArg Prod.snd hend') p
  refine ⟨⟨?_,?_,?_,?_⟩,?_⟩
  · rw [← harrays]
    rfl
  · rw [← harrays']
    rfl
  · rw [← harrays,← harrays']
    exact (dealtShares_alike hvalues).1
  · rw [← harrays,← harrays']
    exact (dealtShares_alike hvalues).2
  · have hsame := hleft.symm.trans (hown.trans hright)
    simpa only [overlay,Tap.withHidden_self] using hsame

end Dealt

section EdaBit
variable {p : Fin 3} {size i : Nat} {net net' : Net 3 (Tap L)} {δ : Nat → BitVec k}

def Dealt.Shared (k size : Nat) (x : Dealt L) : Prop := ∀ i, i < size →
  ArithSharing shares3pc k x.res i ((x.r_bits 0 i).setWidth k + (x.r_bits 1 i).setWidth k) ∧
    BitSharing shares3pc k x.res_bitwise i ((x.r_bits 0 i).setWidth k) ∧
    BitSharing shares3pc k x.res_bitwise (size + i) ((x.r_bits 1 i).setWidth k)

theorem generateRandomShares_silence (size : Nat) (net : Net 3 (Tap L)) :
    generateRandomShares k size (Tap.silence net) =
      let t := generateRandomSharesTapped k size net
      ⟨t.res,t.res_bitwise,Tap.silence t.net⟩ := by
  simp only [generateRandomSharesTapped,generateRandomShares,Tap.silence_hear,← Tap.silence_advance]
  rfl

theorem dealtFrom_shared (hk : k ≤ 8*L) (hnet : shares3pc.Consistent (Tap.silence net)) :
    (dealtFrom k size (drawn k size net)).1.Shared k size ∧
      shares3pc.Consistent (Tap.silence (dealtFrom k size (drawn k size net)).2) := by
  have hsilent := generateRandomShares_silence (k := k) size net
  rw [generateRandomSharesTapped_eq] at hsilent
  constructor
  · intro i hi
    have hshared := generateRandomShares_isSharing hk hnet hi
    rw [hsilent] at hshared
    exact hshared
  · have hok := generateRandomShares_net (L := L) hnet k size
    rw [hsilent] at hok
    exact hok

structure DealtApart (p : Fin 3) (k size : Nat) (δ : Nat → BitVec k) (x x' : Dealt L) : Prop where
  drawn : DrawnApart p k size δ x.r_bits x'.r_bits
  res : AlikeAt p 2 size x.res x'.res
  res_bitwise : AlikeAt p 2 (2*size) x.res_bitwise x'.res_bitwise
  left : x.Shared k size
  right : x'.Shared k size

theorem dealer_cases (p : Fin 3) : dealer p = 0 ∨ dealer p = 1 := by
  revert p
  decide

theorem DrawnApart.sum {r r' : Fin 3 → Nat → Lint L} (h : DrawnApart p k size δ r r')
    (hi : i < size) : (r' 0 i).setWidth k + (r' 1 i).setWidth k =
      (r 0 i).setWidth k + (r 1 i).setWidth k + δ i := by
  rw [h.2 i hi 0,h.2 i hi 1]
  have hne : (0 : Fin 3) ≠ 1 ∧ (1 : Fin 3) ≠ 0 := by decide
  rcases dealer_cases p with hd | hd
  · rw [hd,if_pos rfl,if_neg hne.2,add_zero]
    exact add_right_comm _ _ _
  · rw [hd,if_pos rfl,if_neg hne.1,add_zero,add_assoc]

theorem dealt_coupled (hk : k ≤ 8*L) (hpacked : Packed L k size) (p : Fin 3) (δ : Nat → BitVec k)
    (hnet : net p = net' p) (hs : Tap.Sound p net) (hs' : Tap.Sound p net') :
    Coupled (overlay p) (Tap.ofOwn (byteWidth k*size) + Tap.ofShare (byteWidth k*(2*size)))
      (fun ω => dealtFrom k size (drawn k size (Tap.withHidden p net ω)))
      (fun ω => dealtFrom k size (drawn k size (Tap.withHidden p net' ω)))
      (Matched p (DealtApart p k size δ)) := by
  let alike := fun x x' : Dealt L => DrawnApart p k size δ x.r_bits x'.r_bits ∧
    AlikeAt p 2 size x.res x'.res ∧ AlikeAt p 2 (2*size) x.res_bitwise x'.res_bitwise
  have hpair := (drawn_coupled hk hpacked p δ hnet hs hs').bind (overlay p) (dealtFrom k size)
    (dealtFrom k size) (Q := fun y y' => alike y.1 y'.1 ∧ y.2 p = y'.2 p) fun x x' hx =>
      (dealtFrom_coupled hk hpacked hx.arrays.1 hx.own).mono fun y y' hy => by
        obtain ⟨⟨hr,hr',hres,hbitwise⟩,hown⟩ := hy
        refine ⟨⟨?_,hres,hbitwise⟩,hown⟩
        rw [hr,hr']
        exact hx.arrays
  exact coupled_matched (V := Dealt.Shared k size) (W := Dealt.Shared k size) hpair
    (fun ω => dealtFrom_shared hk (hs ω)) (fun ω => dealtFrom_shared hk (hs' ω))
    fun x x' h hx hx' => ⟨h.1,h.2.1,h.2.2,hx,hx'⟩

def edaBitTapped (scratch : Shares 3 (Lint L)) (size ring_size : Nat) (net : Net 3 (Tap L)) :
    EdaBits 3 L (Tap L) :=
  let g := generateRandomSharesTapped ring_size size net
  let b := (tapSuite scratch).nBitAdd (fun _ _ _ => 0) g.res_bitwise ring_size size g.net
  ⟨g.res,b.1,b.2⟩

theorem edaBit_silence (scratch : Shares 3 (Lint L)) (size : Nat) (net : Net 3 (Tap L)) :
    (suite3pc scratch).edaBit size k (Tap.silence net) =
      let t := edaBitTapped scratch size k net
      ⟨t.r,t.b_2,Tap.silence t.net⟩ := by
  simp only [Suite.edaBit,Suite.nBitAdd,generateRandomShares_silence,bitAdd_silence]
  rfl

def edaBitFrom (scratch : Shares 3 (Lint L)) (ring_size size : Nat) (x : Dealt L × Net 3 (Tap L)) :
    (Shares 3 (Lint L) × Shares 3 (Lint L)) × Net 3 (Tap L) :=
  let b := (tapSuite scratch).bitAdd (fun _ _ _ => 0) x.1.res_bitwise
    (fun p s i => x.1.res_bitwise p s (size + i)) ring_size size x.2
  ((x.1.res,b.1),b.2)

theorem edaBitTapped_eq (scratch : Shares 3 (Lint L)) (size : Nat) (net : Net 3 (Tap L)) :
    edaBitTapped scratch size k net =
      let y := edaBitFrom scratch k size (dealtFrom k size (drawn k size net))
      ⟨y.1.1,y.1.2,y.2⟩ := by
  simp only [edaBitTapped,generateRandomSharesTapped_eq]
  rfl

/-- Two random numbers that differ by `δ`, with their bits. -/
structure EdaApart (p : Fin 3) (k size : Nat) (δ : Nat → BitVec k)
    (x x' : Shares 3 (Lint L) × Shares 3 (Lint L)) : Prop where
  r : AlikeAt p 2 size x.1 x'.1
  b_2 : AlikeAt p 2 size x.2 x'.2
  values : ∀ i, i < size → ∃ ρ, (ArithSharing shares3pc k x.1 i ρ ∧ BitSharing shares3pc k x.2 i ρ) ∧
    ArithSharing shares3pc k x'.1 i (ρ + δ i) ∧ BitSharing shares3pc k x'.2 i (ρ + δ i)

theorem edaBitFrom_shared (hk : k ≤ 8*L) (scratch : Shares 3 (Lint L)) {x : Dealt L × Net 3 (Tap L)}
    (hx : x.1.Shared k size) (hnet : shares3pc.Consistent (Tap.silence x.2)) :
    (∀ i, i < size → ArithSharing shares3pc k (edaBitFrom scratch k size x).1.1 i
        ((x.1.r_bits 0 i).setWidth k + (x.1.r_bits 1 i).setWidth k) ∧
      BitSharing shares3pc k (edaBitFrom scratch k size x).1.2 i
        ((x.1.r_bits 0 i).setWidth k + (x.1.r_bits 1 i).setWidth k)) ∧
      shares3pc.Consistent (Tap.silence (edaBitFrom scratch k size x).2) := by
  obtain ⟨hok,hadd⟩ := (replicated3pc scratch).bitAdd_shared size hk (fun _ _ _ => 0)
    (a := x.1.res_bitwise) (b := fun p s i => x.1.res_bitwise p s (size + i)) hnet
  rw [bitAdd_silence] at hok hadd
  exact ⟨fun i hi => ⟨(hx i hi).1,hadd i hi _ _ (hx i hi).2.1 (hx i hi).2.2⟩,hok⟩

theorem edaBit_coupled (hk : k ≤ 8*L) (hpacked : Packed L k size) (p : Fin 3)
    (scratch : Shares 3 (Lint L)) : ∃ N, ∀ (δ : Nat → BitVec k) (net net' : Net 3 (Tap L)),
      net p = net' p → Tap.Sound p net → Tap.Sound p net' → Coupled (overlay p) N
        (fun ω => edaBitFrom scratch k size (dealtFrom k size (drawn k size (Tap.withHidden p net ω))))
        (fun ω => edaBitFrom scratch k size (dealtFrom k size (drawn k size (Tap.withHidden p net' ω))))
        (Matched p (EdaApart p k size δ)) := by
  obtain ⟨N,hadd⟩ := bitAdd_coupled p scratch hk size
  refine ⟨Tap.ofOwn (byteWidth k*size) + Tap.ofShare (byteWidth k*(2*size)) + N,
    fun δ net net' hnet hs hs' => ?_⟩
  refine (dealt_coupled hk hpacked p δ hnet hs hs').bind (overlay p) (edaBitFrom scratch k size)
    (edaBitFrom scratch k size) fun x x' hx => ?_
  obtain ⟨hdealt,hown,hleft,hright⟩ := hx
  have hfirst : AlikeAt p 2 size x.1.res_bitwise x'.1.res_bitwise := fun s hs i hi =>
    hdealt.res_bitwise s hs i (by omega)
  have hsecond : AlikeAt p 2 size (fun p s i => x.1.res_bitwise p s (size + i))
      fun p s i => x'.1.res_bitwise p s (size + i) := fun s hs i hi =>
    hdealt.res_bitwise s hs (size + i) (by omega)
  have hsum := hadd (fun _ _ _ => 0) (fun _ _ _ => 0) _ _ _ _ x.2 x'.2 (fun _ _ _ _ => rfl) hfirst
    hsecond hown
  have hpair := coupled_arrays (Q := fun y y' => (AlikeAt p 2 size y.1.1 y'.1.1 ∧
    AlikeAt p 2 size y.1.2 y'.1.2) ∧ y.2 p = y'.2 p) (fun b => (x.1.res,b)) (fun b => (x'.1.res,b))
    hsum fun y y' hy => ⟨⟨hdealt.res,hy.1⟩,hy.2⟩
  let ρ := fun (x : Dealt L) (i : Nat) => (x.r_bits 0 i).setWidth k + (x.r_bits 1 i).setWidth k
  let alike := fun y y' : Shares 3 (Lint L) × Shares 3 (Lint L) =>
    AlikeAt p 2 size y.1 y'.1 ∧ AlikeAt p 2 size y.2 y'.2
  refine coupled_matched (Q := alike)
    (V := fun y => ∀ i, i < size → ArithSharing shares3pc k y.1 i (ρ x.1 i) ∧
      BitSharing shares3pc k y.2 i (ρ x.1 i))
    (W := fun y => ∀ i, i < size → ArithSharing shares3pc k y.1 i (ρ x'.1 i) ∧
      BitSharing shares3pc k y.2 i (ρ x'.1 i)) hpair
    (fun ω => edaBitFrom_shared hk scratch (x := overlay p x ω) hdealt.left (hleft ω))
    (fun ω => edaBitFrom_shared hk scratch (x := overlay p x' ω) hdealt.right (hright ω))
    fun y y' h hy hy' => ⟨h.1,h.2,fun i hi => ⟨ρ x.1 i,hy i hi,?_⟩⟩
  have hvalue : ρ x'.1 i = ρ x.1 i + δ i := hdealt.drawn.sum hi
  rw [← hvalue]
  exact hy' i hi

end EdaBit

end RssRing
