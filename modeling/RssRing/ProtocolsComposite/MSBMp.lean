import RssRing.ProtocolsComposite.MSB
import RssRing.ProtocolsComposite.RandBitMSB
import RssRing.ProtocolsComposite.Support
import RssRing.ProtocolsRand.EdaBitMp
set_option autoImplicit false

namespace RssRing
open Replicated

variable {n L k : Nat}

section
variable {G : Type} [Generator G]

def newRssMsbMp
    (multPub : Shares 5 (Lint L) → Shares 5 (Lint L) → Nat → Nat → Net 5 G → Fin 5 → Nat → Lint L)
    (mem : Uncleared 5 L) (a : Shares 5 (Lint L)) (size ring_size : Nat) (net : Net 5 G) :
    Shares 5 (Lint L) × Net 5 G :=
  (suite5pc multPub).newMsb (suite5pc multPub).edaBitMp mem.u mem.u_2 a size ring_size net

def rssMsbMp
    (multPub : Shares 5 (Lint L) → Shares 5 (Lint L) → Nat → Nat → Net 5 G → Fin 5 → Nat → Lint L)
    (mem : Uncleared 5 L) (a : Shares 5 (Lint L)) (size ring_size : Nat) (net : Net 5 G) :
    Shares 5 (Lint L) × Net 5 G :=
  (suite5pc multPub).msb ai5pc mem.u a size ring_size net

section
variable (multPub : Shares 7 (Lint L) → Shares 7 (Lint L) → Nat → Nat → Net 7 G → Fin 7 → Nat →
  Lint L) (openShares : Shares 7 (Lint L) → Nat → Fin 7 → Nat → Lint L)

def newRssMsb7pc (mem : Uncleared 7 L) (a : Shares 7 (Lint L)) (size ring_size : Nat)
    (net : Net 7 G) : Shares 7 (Lint L) × Net 7 G :=
  let S := suite7pc multPub openShares
  S.newMsb S.edaBit7pc mem.u mem.u_2 a size ring_size net

def rssMsb7pc (mem : Uncleared 7 L) (a : Shares 7 (Lint L)) (size ring_size : Nat)
    (net : Net 7 G) : Shares 7 (Lint L) × Net 7 G :=
  (suite7pc multPub openShares).msb ai7pc mem.u a size ring_size net

end
end

def burst (H : Pattern (Fin n) (Finset (Fin n))) (T₀ : Finset (Fin n)) (length : Nat) :
    Net n Tape := fun p s =>
  if s < H.slots ∧ H.hold p s = T₀ then ⟨fun i => if i < length then 255 else 0⟩ else ⟨fun _ => 0⟩

section Burst
variable {H : Pattern (Fin n) (Finset (Fin n))} {T₀ : Finset (Fin n)} {length : Nat}

theorem burst_consistent : H.Consistent (burst H T₀ length) := by
  intro p s q t hs ht hst
  simp only [burst,hs,ht,hst,true_and]

theorem burst_silent {bytes size : Nat} :
    Silent ((burst H T₀ (bytes*size)).advanceAll H.slots bytes fun _ => size) := by
  intro p s i
  by_cases hs : s < H.slots
  · by_cases hT : H.hold p s = T₀
    · simp [Net.advanceAll,burst,hs,hT,Generator.getrandom]
    · simp [Net.advanceAll,burst,hs,hT,Generator.getrandom]
  · simp [Net.advanceAll,burst,hs]

theorem randWords_burst (hk : k ≤ 8*L) (u : Shares n (Lint L)) {size i : Nat} (hi : i < size)
    (p : Fin n) {s : Nat} (hs : s < H.slots) :
    (randWords u (byteWidth k) size (burst H T₀ (byteWidth k*size)) p s i).setWidth k =
      if H.hold p s = T₀ then BitVec.allOnes k else 0 := by
  have hmul := Nat.mul_le_mul_left (byteWidth k) (show i+1 ≤ size from hi)
  rw [Nat.mul_add,Nat.mul_one,Nat.mul_comm _ i] at hmul
  rw [randWords,setWidth_memcpyWord_fill hk _ (decide (H.hold p s = T₀))]
  · simp only [decide_eq_true_eq]
  · intro m hm
    have hin : i*byteWidth k + m < byteWidth k*size := by omega
    by_cases hT : H.hold p s = T₀
    · simp only [Net.random,Generator.getrandom,burst,hs,hT,hin,and_self,if_true,decide_true]
    · simp only [Net.random,Generator.getrandom,burst,hs,hT,and_false,if_false,decide_false,
        Bool.false_eq_true]

variable {S : Suite n L Tape}

theorem randBit_burst (hS : S.Marks H T₀) (hP : S.PubCorrect H (k+2)) (hk : 0 < k)
    (hkL : k + 2 ≤ 8*L) (u : Shares n (Lint L)) {size i : Nat} (hi : i < size) {p : Fin n}
    {s : Nat} (hs : s < H.slots) :
    ((S.randBit u size k (burst H T₀ (byteWidth (k+2)*size))).1 p s i).setWidth k = 0 := by
  refine randBit_zero hS hP hk hkL burst_consistent u hi (v := BitVec.allOnes (k+2)) ?_ ?_ hs
  · simp [-BitVec.getLsbD_eq_getElem]
  · intro q t ht
    exact randWords_burst hkL u hi q ht

end Burst

namespace EdaTable
variable {tab : EdaTable n} {net : Net n Tape}

theorem rValues_silent (hnet : Silent net) (size : Nat) (p : Fin n) (s t m : Nat) :
    (tab.rValues k size net p s t m : Lint L) = 0 := by
  have hword : ∀ off bytes, memcpyWord (0 : Lint L) (fun _ => 0) off bytes = 0 := by
    intro off bytes
    apply BitVec.eq_of_getLsbD_eq
    intro j hj
    simp [-BitVec.getLsbD_eq_getElem]
  have hdrawn : ∀ q s, (tab.drawn k size net q s m : Lint L) = 0 := by
    intro q s
    rw [drawn,hnet.random_eq]
    exact hword _ _
  have hdealt : ∀ q, (tab.dealt k size net q m : Lint L) = 0 := by
    intro q
    have hbits : (tab.rBits k size net q (m/2) : Lint L) = 0 := by
      rw [rBits,hnet.random_eq]
      exact hword _ _
    rw [dealt,hbits]
    induction List.range (tab.numShares-1) with
    | nil => rfl
    | cons j l ih =>
      rw [List.foldl_cons,hdrawn]
      simpa using ih
  have hmasked : masked k (0 : Lint L) = 0 := BitVec.zero_and
  have hdeliver : ∀ r, tab.routing.deliver (fun _ _ => received k (0 : Lint L)) 0 p r = 0 := by
    intro r
    rw [received_eq,hmasked,Routing.deliver]
    cases tab.routing.source p r with
    | none => rfl
    | some q => rfl
  rw [EdaTable.rValues]
  simp only [hdealt,hdeliver,hdrawn,hmasked,ite_self]

theorem generateRandomShares_silent (tab : EdaTable n) (hnet : Silent net) (size : Nat) :
    let g : RandomShares n L Tape := tab.generateRandomShares k size net
    Silent g.net ∧ (∀ p s i, g.res p s i = 0) ∧
      ∀ p s i j, (g.res_bitwise p s i).getLsbD j = false := by
  intro g
  refine ⟨?_,?_,?_⟩
  · have hall := hnet.advanceAll tab.numShares (byteWidth k)
      (fun _ => (tab.threshold+1)*(2*size))
    intro q t j
    simp only [g,generateRandomShares]
    by_cases hq : q.val ≤ tab.threshold
    · rw [if_pos hq]
      exact hall.advance _ _ _ q t j
    · rw [if_neg hq]
      exact hall q t j
  · intro p s i
    simp only [g,generateRandomShares,rValues_silent hnet]
    induction List.range (tab.threshold+1) with
    | nil => rfl
    | cons t l ih => simp
  · intro p s i j
    simp only [g,generateRandomShares,rValues_silent hnet,ite_self]
    exact BitVec.getLsbD_zero

end EdaTable

def ZeroBits (H : Pattern (Fin n) (Finset (Fin n))) (k : Nat) (x : Shares n (Lint L)) (i : Nat) :
    Prop := ∀ q s j, s < H.slots → j < k → (x q s i).getLsbD j = false

theorem Discipline.bitAdd_zero {S : Suite n L Tape} (D : Discipline S) (hk : k ≤ 8*L)
    {H : Pattern (Fin n) (Finset (Fin n))} (hD : ∀ x v, D.Shared x v ↔ Supported H ∅ x)
    (size : Nat) (res : Shares n (Lint L)) {a b : Shares n (Lint L)} {net : Net n Tape}
    (hnet : D.NetOk net) :
    D.NetOk (S.bitAdd res a b k size net).2 ∧ ∀ i, i < size → ZeroBits H k a i →
      ZeroBits H k b i → ZeroBits H k (S.bitAdd res a b k size net).1 i := by
  obtain ⟨hok,hsum⟩ := D.bitAdd_shared size hk res (a := a) (b := b) hnet
  refine ⟨hok,fun i hi ha hb q s j hs hj => ?_⟩
  have hbits := hsum i hi 0 0 (fun j hj => (hD _ _).mpr fun q s hs _ => ha q s j hs hj)
    (fun j hj => (hD _ _).mpr fun q s hs _ => hb q s j hs hj) j hj
  exact (hD _ _).mp hbits q s hs (Finset.notMem_empty _)

section EdaBits

theorem edaBitMp_silent (hk : k ≤ 8*L) {net : Net 5 Tape} (hnet : Silent net)
    (multPub : Shares 5 (Lint L) → Shares 5 (Lint L) → Nat → Nat → Net 5 Tape → Fin 5 → Nat → Lint L)
    (size : Nat) :
    let out := (suite5pc multPub).edaBitMp size k net
    Silent out.net ∧ ∀ i, i < size → (∀ p s, out.r p s i = 0) ∧ ZeroBits shares5pc k out.b_2 i := by
  intro out
  let D := supported5pc (L := L) ∅ (fun _ _ _ h => absurd h (Finset.notMem_empty _)) multPub
  let g : RandomShares 5 L Tape := edaTable5pc.generateRandomShares k size net
  obtain ⟨hg,hres,hzero⟩ : Silent g.net ∧ (∀ p s i, g.res p s i = 0) ∧
      ∀ p s i j, (g.res_bitwise p s i).getLsbD j = false :=
    EdaTable.generateRandomShares_silent edaTable5pc hnet size
  obtain ⟨hok₁,hsum₁⟩ := D.bitAdd_zero hk (H := shares5pc) (fun _ _ => Iff.rfl) size
    (fun _ _ _ => 0) (a := g.res_bitwise) (b := fun p s i => g.res_bitwise p s (size + i)) hg
  obtain ⟨hok₂,hsum₂⟩ := D.bitAdd_zero hk (H := shares5pc) (fun _ _ => Iff.rfl) size _
    (a := ((suite5pc multPub).bitAdd (fun _ _ _ => 0) g.res_bitwise
      (fun p s i => g.res_bitwise p s (size + i)) k size g.net).1)
    (b := fun p s i => g.res_bitwise p s (2*size + i)) hok₁
  refine ⟨hok₂,fun i hi => ⟨fun p s => hres p s i,?_⟩⟩
  exact hsum₂ i hi (hsum₁ i hi (fun q s j _ _ => hzero q s i j) fun q s j _ _ => hzero q s _ j)
    fun q s j _ _ => hzero q s _ j

theorem edaBit7pc_silent (hk : k ≤ 8*L) {net : Net 7 Tape} (hnet : Silent net)
    (multPub : Shares 7 (Lint L) → Shares 7 (Lint L) → Nat → Nat → Net 7 Tape → Fin 7 → Nat → Lint L)
    (openShares : Shares 7 (Lint L) → Nat → Fin 7 → Nat → Lint L) (size : Nat) :
    let out := (suite7pc multPub openShares).edaBit7pc size k net
    Silent out.net ∧ ∀ i, i < size → (∀ p s, out.r p s i = 0) ∧ ZeroBits shares7pc k out.b_2 i := by
  intro out
  let D := supported7pc (L := L) ∅ (fun _ _ _ h => absurd h (Finset.notMem_empty _)) multPub
    openShares
  let g : RandomShares 7 L Tape := edaTable7pc.generateRandomShares k size net
  obtain ⟨hg,hres,hzero⟩ : Silent g.net ∧ (∀ p s i, g.res p s i = 0) ∧
      ∀ p s i j, (g.res_bitwise p s i).getLsbD j = false :=
    EdaTable.generateRandomShares_silent edaTable7pc hnet size
  obtain ⟨hok₁,hsum₁⟩ := D.bitAdd_zero hk (H := shares7pc) (fun _ _ => Iff.rfl) (2*size)
    (fun _ _ _ => 0) (a := g.res_bitwise) (b := fun p s i => g.res_bitwise p s (2*size + i)) hg
  let c := ((suite7pc multPub openShares).bitAdd (fun _ _ _ => 0) g.res_bitwise
    (fun p s i => g.res_bitwise p s (2*size + i)) k (2*size) g.net).1
  have hpair : ∀ i, i < 2*size → ZeroBits shares7pc k c i := fun i hi =>
    hsum₁ i hi (fun q s j _ _ => hzero q s i j) fun q s j _ _ => hzero q s _ j
  obtain ⟨hok₂,hsum₂⟩ := D.bitAdd_zero hk (H := shares7pc) (fun _ _ => Iff.rfl) size
    (fun _ _ _ => 0) (a := c) (b := fun p s i => c p s (size + i)) hok₁
  refine ⟨hok₂,fun i hi => ⟨fun p s => hres p s i,?_⟩⟩
  exact hsum₂ i hi (hpair i (by omega)) (hpair (size + i) (by omega))

end EdaBits

/-- The first two slots of the comparison are read from `d[2]` and `d[3]`, so a copy of
`T₀` in slot 2 or 3 shows up in the wrong share. -/
def Misplaced (H : Pattern (Fin n) (Finset (Fin n))) (T₀ : Finset (Fin n)) (q : Fin n) (s : Nat) :
    Prop := (s = 0 ∧ H.hold q 2 = T₀) ∨ (s = 1 ∧ H.hold q 3 = T₀)

/-- A suite whose openings are right, the one of party `p₀` even with misplaced slots, and
in which shares that are zero but for `T₀` stay so while the streams are silent. -/
structure Suite.Inverting (S : Suite n L Tape) (H : Pattern (Fin n) (Finset (Fin n)))
    (T₀ : Finset (Fin n)) (k : Nat) (p₀ : Fin n) (D : Discipline S) : Prop where
  marks : S.Marks H T₀
  slots : 3 < H.slots
  shared : ∀ x v, D.Shared x v ↔ Supported H {T₀} x
  netOk : ∀ net, Silent net → D.NetOk net
  pub : S.PubCorrect H (k+2)
  pubNet : ∀ a b size net, Silent net → Silent (S.multPub a b size (k+2) net).2
  opened : ∀ x i (v : BitVec k), ArithSharing H k x i v → ∀ p, S.openShares x k p i = v.setWidth (8*L)
  holds : ∃ s, s < H.slots ∧ H.hold p₀ s = T₀
  opened₀ : ∀ (x : Shares n (Lint L)) i (z : Fin n → Nat → BitVec k) v, H.IsSharing z v →
    (∀ q s, s < H.slots → ¬ Misplaced H T₀ q s → (x q s i).setWidth k = z q s) →
    S.openShares x k p₀ i = v.setWidth (8*L)

section Unfinished
variable {S : Suite n L Tape} {H : Pattern (Fin n) (Finset (Fin n))} {T₀ : Finset (Fin n)}
  {p₀ : Fin n} {D : Discipline S} {net : Net n Tape} {size i : Nat} {r_2 : Shares n (Lint L)}
  {x : BitVec k}

theorem bitLT_unfinished (hS : S.Inverting H T₀ k p₀ D) (hk : 0 < k) (hkL : k < 8*L)
    (hnet : Silent net) {c : Fin n → Nat → Lint L}
    (hc : ∀ q, c q i = x.setWidth (8*L)) (hr_2 : ZeroBits H k r_2 i) (hi : i < size)
    {q : Fin n} {s : Nat} (hs : ¬ Misplaced H T₀ q s) :
    (S.bitLT (fun _ _ _ => 0) c r_2 k size net).1 q s i = bitWord L (S.ai q s) := by
  have hpub : ∀ v, D.Shared (fun q s => v && S.ai q s) v := by
    intro v
    refine (hS.shared _ _).mpr fun q s hs hT => ?_
    rw [hS.marks.ai q s hs,decide_eq_false (fun h => hT (Finset.mem_singleton.mpr h)),Bool.and_false]
  have hcbits : ∀ q j, j < k → (c q i).getLsbD j = x.getLsbD j := by
    intro q j hj
    rw [hc,BitVec.getLsbD_setWidth,decide_eq_true (by omega),Bool.true_and]
  have hzero : ∀ j, j < k → D.Shared (fun q s => (r_2 q s i).getLsbD j)
      ((0 : BitVec k).getLsbD j) :=
    fun j hj => (hS.shared _ _).mpr fun q s hs _ => hr_2 q s j hs hj
  have hstart := D.carryOutStart_cells (Nat.le_of_lt hkL) hpub hcbits hzero
  have hend := (D.carryOutLoop_cells size (Nat.le_of_lt hkL) hk (hS.netOk _ hnet)).2 i hi _
    hstart 0 Nat.one_pos
  have hout : ∀ t, t < H.slots → H.hold q t ≠ T₀ → ((S.carryOutLoop size k
      (S.carryOutStart c fun q s i => r_2 q s i ^^^ S.aiMask q s) net).1 q t i).getLsbD 0 = false :=
    fun t ht hT => (hS.shared _ _).mp hend.1 q t ht (fun h => hT (Finset.mem_singleton.mp h))
  have hslots := hS.slots
  rw [S.bitLT_eq (by omega)]
  by_cases h₀ : s = 0
  · rw [if_pos h₀,hout 2 (by omega) (fun h => hs (.inl ⟨h₀,h⟩)),Bool.false_xor]
  · rw [if_neg h₀]
    by_cases h₁ : s = 1
    · rw [if_pos h₁,hout 3 (by omega) (fun h => hs (.inr ⟨h₁,h⟩)),Bool.false_xor]
    · simp [h₁,-BitVec.getLsbD_eq_getElem]

variable {a b r rprime : Shares n (Lint L)} {α : BitVec k}

/-- Slots that are 1 where the public constant goes, at parties with `top`, and 0 elsewhere:
what they share is decided by party `p₀`. -/
theorem marked_value (hS : S.Inverting H T₀ k p₀ D) {x : Shares n (Lint L)} {top : Fin n → Bool}
    {v : BitVec k} (hslot : ∀ q s, s < H.slots →
      (x q s i).setWidth k = if top q then bitVal k (S.ai q s) else 0)
    (h : ArithSharing H k x i v) : v = bitVal k (top p₀) := by
  obtain ⟨σ,hσ,hsum⟩ := h
  obtain ⟨s₀,hs₀,hT₀⟩ := hS.holds
  have hvalue : ∀ q s, s < H.slots →
      σ (H.hold q s) = if top q then bitVal k (S.ai q s) else 0 :=
    fun q s hs => (hσ q s hs).symm.trans (hslot q s hs)
  have hother : ∀ T ∈ H.names, T ≠ T₀ → σ T = 0 := by
    intro T hT hne
    obtain ⟨q,s,hs,rfl⟩ := H.held T hT
    simp [hvalue q s hs,hS.marks.ai q s hs,hne,bitVal_eq]
  rw [Finset.sum_eq_single T₀ hother (fun h => absurd hS.marks.mem h),← hT₀,hvalue p₀ s₀ hs₀,
    hS.marks.ai p₀ s₀ hs₀,decide_eq_true hT₀] at hsum
  rw [← hsum]
  cases top p₀ <;> simp [bitVal_eq]

/-- A run with all random bits zero and silent streams after them: the comparison comes
out true instead of false and the top bit inverted. Only what party `p₀` opens last is
needed for it. -/
theorem msbFrom_unfinished (hS : S.Inverting H T₀ k p₀ D) (hk : 0 < k) (hkL : k < 8*L)
    (hnet : Silent net) (hi : i < size)
    (hb : ∀ q s, s < H.slots → (b q s i).setWidth k = 0)
    (hr : ∀ q s, s < H.slots → (r q s i).setWidth k = 0)
    (hrprime : ∀ q s, s < H.slots → (rprime q s i).setWidth k = 0) (hr_2 : ZeroBits H k r_2 i)
    (ha : ArithSharing H k a i α) :
    ¬ ArithSharing H k (S.msbFrom S.ai (fun _ _ _ => 0) a b r rprime r_2 k size net).1 i
      (bitVal k (α.getLsbD (k-1))) := by
  have hkL' : k ≤ 8*L := Nat.le_of_lt hkL
  have hc : ∀ q, S.msbC a r k q i = (lowPart α).setWidth (8*L) := by
    intro q
    refine Suite.msbC_eq (hS.opened _ _ _ (ha.congr fun p s hs => ?_) q)
    rw [BitVec.setWidth_add _ _ hkL',hr p s hs,add_zero]
  let u := (S.bitLT (fun _ _ _ => 0) (S.msbC a r k) r_2 k size net).1
  have hu : ∀ q s, ¬ Misplaced H T₀ q s → u q s i = bitWord L (S.ai q s) :=
    fun q s hs => bitLT_unfinished hS hk hkL hnet hc hr_2 hi hs
  let z : Fin n → Nat → BitVec k := fun q s =>
    (a q s i).setWidth k - if S.ai q s then lowPart α + topBit k true else 0
  have hz : H.IsSharing z (topBit k (!α.getLsbD (k-1))) := by
    rw [← sub_lowPart_topBit hk α]
    exact ha.sub (hS.marks.isSharing _)
  have he := hS.opened₀ (msbSum S.ai (S.msbC a r k) u a b rprime k) i z _ hz (by
    intro q s hs hmis
    rw [msbSum_setWidth hkL',hu q s hmis,hrprime q s hs,hb q s hs,hc,
      BitVec.setWidth_setWidth_of_le _ hkL',BitVec.setWidth_eq,setWidth_bitWord hkL',
      ← topBit_eq_mul]
    have hzero : topBit k false = 0 := (topBitHom hk).map_zero
    show _ = (a q s i).setWidth k - if S.ai q s then lowPart α + topBit k true else 0
    cases S.ai q s with
    | false => simp [hzero]
    | true => simp only [if_true]; ring)
  intro hres
  have hvalue := marked_value hS (fun q s hs => by
    rw [Suite.msbFrom_setWidth hkL' rfl,hb q s hs,sub_zero]) hres
  have hbit := congrArg (fun x => x.getLsbD 0) hvalue
  rw [he,BitVec.getLsbD_setWidth,decide_eq_true (by omega),Bool.true_and,
    getLsbD_topBit hk] at hbit
  simp only [lsb_bitVal hk] at hbit
  exact Bool.not_ne_self _ hbit.symm

theorem randBit_burst_silent (hS : S.Inverting H T₀ k p₀ D) (u : Shares n (Lint L)) (size : Nat) :
    Silent (S.randBit u size k (burst H T₀ (byteWidth (k+2)*size))).2 := by
  have hrest : Silent ((burst H T₀ (byteWidth (k+2)*size)).advanceAll S.numShares
      (byteWidth (k+2)) fun _ => size) := by
    rw [hS.marks.slots]
    exact burst_silent
  exact hS.pubNet _ _ size _ hrest

theorem ZeroBits.of_setWidth {y : Shares n (Lint L)}
    (h : ∀ q s, s < H.slots → (y q s i).setWidth k = 0) : ZeroBits H k y i := by
  intro q s j hs hj
  have hbit := congrArg (fun x => x.getLsbD j) (h q s hs)
  simpa [hj,-BitVec.getLsbD_eq_getElem] using hbit

theorem newMsb_unfinished (hS : S.Inverting H T₀ k p₀ D) (hk : 2 ≤ k) (hkL : k + 2 ≤ 8*L)
    {edaBit : Nat → Nat → Net n Tape → EdaBits n L Tape}
    (heda : ∀ net, Silent net → Silent (edaBit size k net).net ∧ ∀ i, i < size →
      (∀ p s, (edaBit size k net).r p s i = 0) ∧ ZeroBits H k (edaBit size k net).b_2 i)
    (u : Shares n (Lint L)) (hi : i < size) (ha : ArithSharing H k a i α) :
    ¬ ArithSharing H k (S.newMsb edaBit u (fun _ _ _ => 0) a size k
      (burst H T₀ (byteWidth (k+2)*size))).1 i (bitVal k (α.getLsbD (k-1))) := by
  obtain ⟨hnet,hbits⟩ := heda _ (randBit_burst_silent hS u size)
  obtain ⟨hr,hb_2⟩ := hbits i hi
  have hzero : (0 : Lint L).setWidth k = 0 := map_zero (lowBits (by omega))
  refine msbFrom_unfinished hS (by omega) (by omega) hnet hi ?_ ?_ ?_ ?_ ha
  · intro q s hs
    exact randBit_burst hS.marks hS.pub (by omega) hkL u hi hs
  · intro q s _
    rw [hr,hzero]
  · intro q s hs
    rw [hr,setWidth_sub_of_le _ _ (by omega),setWidth_shiftLeft (by omega),getBit_eq,
      hb_2 q s (k-1) hs (by omega),setWidth_bitWord (by omega),bitVal_eq,if_neg (by decide),hzero,
      mul_zero,sub_zero]
  · intro q s j hs hj
    rw [getLsbD_and_shift,hb_2 q s j hs hj,Bool.false_and]

theorem composed_zero (hkL : k ≤ 8*L) {r_shares : Shares n (Lint L)} {q : Fin n} {s : Nat}
    (h : ∀ m, m < k → (r_shares q s (i*k + m)).setWidth k = 0) :
    (Suite.composed r_shares k q s i).setWidth k = 0 := by
  have hrun : ∀ m, m ≤ k → ((List.range m).foldl
      (fun x t => x + (r_shares q s (i*k + t) <<< t)) (0 : Lint L)).setWidth k = 0 := by
    intro m
    induction m with
    | zero =>
      intro _
      exact map_zero (lowBits hkL)
    | succ m ih =>
      intro hm
      rw [List.range_succ,List.foldl_append,List.foldl_cons,List.foldl_nil,
        BitVec.setWidth_add _ _ hkL,setWidth_shiftLeft hkL,ih (by omega),h m (by omega),mul_zero,
        add_zero]
  exact hrun (k-1) (by omega)

theorem msb_unfinished (hS : S.Inverting H T₀ k p₀ D) (hk : 2 ≤ k) (hkL : k + 2 ≤ 8*L)
    (u : Shares n (Lint L)) (hi : i < size) (ha : ArithSharing H k a i α) :
    ¬ ArithSharing H k (S.msb S.ai u a size k
      (burst H T₀ (byteWidth (k+2)*(size*(k+1))))).1 i (bitVal k (α.getLsbD (k-1))) := by
  have hkL' : k ≤ 8*L := by omega
  have hsize : size*(k+1) = size*k + size := Nat.mul_succ size k
  have hslot : ∀ q s, s < H.slots → ∀ m, m < size*(k+1) → ((S.randBit u (size*(k+1)) k
      (burst H T₀ (byteWidth (k+2)*(size*(k+1))))).1 q s m).setWidth k = 0 :=
    fun q s hs m hm => randBit_burst hS.marks hS.pub (by omega) hkL u hm hs
  have hrow : ∀ q s, s < H.slots → ∀ m, m < k → ((S.randBit u (size*(k+1)) k
      (burst H T₀ (byteWidth (k+2)*(size*(k+1))))).1 q s (i*k + m)).setWidth k = 0 :=
    fun q s hs m hm => hslot q s hs _ (by have hlt := index_lt hi hm; omega)
  refine msbFrom_unfinished hS (by omega) (by omega) (randBit_burst_silent hS u _) hi ?_ ?_ ?_ ?_ ha
  · intro q s hs
    exact hslot q s hs _ (by omega)
  · intro q s hs
    rw [BitVec.setWidth_add _ _ hkL',composed_zero hkL' (hrow q s hs),setWidth_shiftLeft hkL',
      hrow q s hs (k-1) (by omega),mul_zero,add_zero]
  · intro q s hs
    exact composed_zero hkL' (hrow q s hs)
  · intro q s j hs hj
    simp only [getBit_eq]
    rw [getLsbD_foldl_range (L := L) _ _ _ _ (by omega)]
    by_cases hlt : j < k-1
    · rw [if_pos hlt]
      have hlow : ZeroBits H k (fun q s _ => (S.randBit u (size*(k+1)) k
          (burst H T₀ (byteWidth (k+2)*(size*(k+1))))).1 q s (i*k + j)) i :=
        ZeroBits.of_setWidth fun q s hs => hrow q s hs j hj
      exact hlow q s 0 hs (by omega)
    · rw [if_neg hlt]
      exact BitVec.getLsbD_zero

end Unfinished

theorem misplaced5pc : ∀ q s, s < 6 → Misplaced shares5pc {1,2} q s → q = 4 ∧ s = 1 := by
  unfold Misplaced
  decide

theorem misplaced7pc : ∀ q s, s < 20 → ¬ Misplaced shares7pc {1,2,3} q s := by
  unfold Misplaced
  decide

theorem rssOpenMp_fourth (hkL : k ≤ 8*L) {x : Shares 5 (Lint L)} {i : Nat}
    {z : Fin 5 → Nat → BitVec k} {v : BitVec k} (hz : shares5pc.IsSharing z v)
    (h : ∀ q s, s < 6 → ¬ Misplaced shares5pc {1,2} q s → (x q s i).setWidth k = z q s) :
    rssOpenMp x k 3 i = v.setWidth (8*L) := by
  let y : Shares 5 (Lint L) := fun q s j =>
    if q = 4 ∧ s = 1 then (z q s).setWidth (8*L) else x q s j
  have hy : ArithSharing shares5pc k y i v := by
    refine hz.congr fun q s hs => ?_
    by_cases hmis : q = 4 ∧ s = 1
    · simp only [y,hmis,and_self,if_true,BitVec.setWidth_setWidth_of_le _ hkL,BitVec.setWidth_eq]
    · simp only [y,hmis,if_false]
      exact h q s hs fun hm => hmis (misplaced5pc q s hs hm)
  have hread : ∀ r, r < 2 → ∀ s ∈ openTable5pc.sendSlots r,
      ¬ ((3 : Fin 5) + [4,1].getD r 0 = 4 ∧ s = 1) := by decide
  rw [← rssOpenMp_eq hkL hy 3]
  apply OpenTable.openShares_congr
  · intro s _
    rfl
  · intro r hr q r' hq s hs
    obtain ⟨hq',hr'⟩ := Prod.mk.inj (Option.some.inj ((source_openMap5pc 3 r hr).symm.trans hq))
    subst hr'
    have hne : ¬ (q = 4 ∧ s = 1) := hq' ▸ hread r hr s hs
    simp only [y,hne,if_false]

theorem inverting5pc (hkL : k ≤ 8*L)
    {multPub : Shares 5 (Lint L) → Shares 5 (Lint L) → Nat → Nat → Net 5 Tape → Fin 5 → Nat → Lint L}
    (hpub : (suite5pc multPub).PubCorrect shares5pc (k+2)) :
    (suite5pc multPub).Inverting shares5pc {1,2} k 3 (supported5pc _ closed5pc multPub) where
  marks := suite5pc_marks multPub
  slots := by decide
  shared _ _ := Iff.rfl
  netOk _ hnet := hnet
  pub := hpub
  pubNet _ _ _ _ hnet := hnet.advanceAll _ _ _
  opened _ _ _ hx p := rssOpenMp_eq hkL hx p
  holds := ⟨5,by decide,by decide⟩
  opened₀ _ _ _ _ hz h := rssOpenMp_fourth hkL hz h

theorem inverting7pc
    {multPub : Shares 7 (Lint L) → Shares 7 (Lint L) → Nat → Nat → Net 7 Tape → Fin 7 → Nat → Lint L}
    {openShares : Shares 7 (Lint L) → Nat → Fin 7 → Nat → Lint L}
    (hpub : (suite7pc multPub openShares).PubCorrect shares7pc (k+2))
    (hopen : ∀ x i (v : BitVec k), ArithSharing shares7pc k x i v →
      ∀ p, openShares x k p i = v.setWidth (8*L)) :
    (suite7pc multPub openShares).Inverting shares7pc {1,2,3} k 0
      (supported7pc _ closed7pc multPub openShares) where
  marks := suite7pc_marks multPub openShares
  slots := by decide
  shared _ _ := Iff.rfl
  netOk _ hnet := hnet
  pub := hpub
  pubNet _ _ _ _ hnet := hnet.advanceAll _ _ _
  opened := hopen
  holds := ⟨0,by decide,by decide⟩
  opened₀ x i _ _ hz h :=
    hopen x i _ (hz.congr fun q s hs => h q s hs (misplaced7pc q s hs)) 0

section
variable
  {multPub₅ : Shares 5 (Lint L) → Shares 5 (Lint L) → Nat → Nat → Net 5 Tape → Fin 5 → Nat → Lint L}
  {multPub₇ : Shares 7 (Lint L) → Shares 7 (Lint L) → Nat → Nat → Net 7 Tape → Fin 7 → Nat → Lint L}
  {openShares₇ : Shares 7 (Lint L) → Nat → Fin 7 → Nat → Lint L}

/-- On no vector but the empty one do the five- and seven-party routines share the top
bits whatever the streams are: the comparison among them leaves all slots but the first
two as they were. On the empty vector their exchanges do not return (`getRounds_zero`). -/
theorem msbMp_isSharing_iff (hk : 2 ≤ k) (hkL : k + 2 ≤ 8*L) (size : Nat)
    (hpub₅ : (suite5pc multPub₅).PubCorrect shares5pc (k+2))
    (hpub₇ : (suite7pc multPub₇ openShares₇).PubCorrect shares7pc (k+2))
    (hopen₇ : ∀ x i (v : BitVec k), ArithSharing shares7pc k x i v →
      ∀ p, openShares₇ x k p i = v.setWidth (8*L))
    {a₅ : Shares 5 (Lint L)} {a₇ : Shares 7 (Lint L)} {α : Nat → BitVec k}
    (ha₅ : ∀ i, i < size → ArithSharing shares5pc k a₅ i (α i))
    (ha₇ : ∀ i, i < size → ArithSharing shares7pc k a₇ i (α i)) :
    ((∀ mem net, shares5pc.Consistent net → ∀ i, i < size → ArithSharing shares5pc k
      (newRssMsbMp multPub₅ mem a₅ size k net).1 i (bitVal k ((α i).getLsbD (k-1)))) ↔ size = 0) ∧
    ((∀ mem net, shares5pc.Consistent net → ∀ i, i < size → ArithSharing shares5pc k
      (rssMsbMp multPub₅ mem a₅ size k net).1 i (bitVal k ((α i).getLsbD (k-1)))) ↔ size = 0) ∧
    ((∀ mem net, shares7pc.Consistent net → ∀ i, i < size → ArithSharing shares7pc k
      (newRssMsb7pc multPub₇ openShares₇ mem a₇ size k net).1 i
      (bitVal k ((α i).getLsbD (k-1)))) ↔ size = 0) ∧
    ((∀ mem net, shares7pc.Consistent net → ∀ i, i < size → ArithSharing shares7pc k
      (rssMsb7pc multPub₇ openShares₇ mem a₇ size k net).1 i
      (bitVal k ((α i).getLsbD (k-1)))) ↔ size = 0) := by
  have hempty : ∀ P : Nat → Prop, size = 0 → ∀ i, i < size → P i := by
    rintro P rfl i hi
    exact absurd hi (Nat.not_lt_zero i)
  let mem₅ : Uncleared 5 L := ⟨fun _ _ _ => 0,fun _ _ _ => 0,fun _ _ _ => 0⟩
  let mem₇ : Uncleared 7 L := ⟨fun _ _ _ => 0,fun _ _ _ => 0,fun _ _ _ => 0⟩
  have hinv₅ := inverting5pc (by omega) hpub₅
  have hinv₇ := inverting7pc hpub₇ hopen₇
  refine ⟨⟨fun h => ?_,fun hsize _ _ _ => hempty _ hsize⟩,
    ⟨fun h => ?_,fun hsize _ _ _ => hempty _ hsize⟩,
    ⟨fun h => ?_,fun hsize _ _ _ => hempty _ hsize⟩,
    ⟨fun h => ?_,fun hsize _ _ _ => hempty _ hsize⟩⟩
  · by_contra hsize
    have hi : 0 < size := Nat.pos_of_ne_zero hsize
    exact newMsb_unfinished hinv₅ hk hkL
      (fun net hnet => edaBitMp_silent (by omega) hnet multPub₅ size) mem₅.u hi (ha₅ 0 hi)
      (h mem₅ _ burst_consistent 0 hi)
  · by_contra hsize
    have hi : 0 < size := Nat.pos_of_ne_zero hsize
    exact msb_unfinished hinv₅ hk hkL mem₅.u hi (ha₅ 0 hi) (h mem₅ _ burst_consistent 0 hi)
  · by_contra hsize
    have hi : 0 < size := Nat.pos_of_ne_zero hsize
    exact newMsb_unfinished hinv₇ hk hkL
      (fun net hnet => edaBit7pc_silent (by omega) hnet multPub₇ openShares₇ size) mem₇.u hi
      (ha₇ 0 hi) (h mem₇ _ burst_consistent 0 hi)
  · by_contra hsize
    have hi : 0 < size := Nat.pos_of_ne_zero hsize
    exact msb_unfinished hinv₇ hk hkL mem₇.u hi (ha₇ 0 hi) (h mem₇ _ burst_consistent 0 hi)

end

def openOnce7pc (x : Shares 7 (Lint L)) (ring_size : Nat) (_p : Fin 7) (i : Nat) : Lint L :=
  masked ring_size (∑ q : Fin 7, ∑ c : Fin 5, x q ([0,1,2,3,5].getD c 0) i)

theorem openOnce7pc_eq (hk : k ≤ 8*L) {x : Shares 7 (Lint L)} {i : Nat} {v : BitVec k}
    (hx : ArithSharing shares7pc k x i v) (p : Fin 7) :
    openOnce7pc x k p i = v.setWidth (8*L) := by
  obtain ⟨σ,hσ,rfl⟩ := hx
  have hslot : ∀ q (c : Fin 5), (x q ([0,1,2,3,5].getD c 0) i).setWidth k =
      σ (rotation7pc.base (q,c)) := fun q c => hσ q _ (class7pc_lt c)
  rw [openOnce7pc,masked_eq_iff hk,← lowBits_apply hk,rotation7pc.sum_names,Fintype.sum_prod_type]
  simp only [map_sum,lowBits_apply,hslot]

theorem msbMp_isSharing_iff_one :
    (∀ mem (net : Net 5 Tape), shares5pc.Consistent net → ∀ i, i < 1 → ArithSharing shares5pc 30
      (rssMsbMp (L := 4) (fun a b size ring_size net =>
        (rssMultPubMp (fun _ _ _ => 0) a b size ring_size net).1) mem (fun _ _ _ => 0) 1 30 net).1 i
      (bitVal 30 ((0 : BitVec 30).getLsbD 29))) ↔ 1 = 0 := by
  have hzero₅ : ArithSharing shares5pc 30 (fun _ _ _ => (0 : Lint 4)) 0 0 :=
    ⟨fun _ => 0,fun _ _ _ => rfl,by simp⟩
  have hzero₇ : ArithSharing shares7pc 30 (fun _ _ _ => (0 : Lint 4)) 0 0 :=
    ⟨fun _ => 0,fun _ _ _ => rfl,by simp⟩
  exact (msbMp_isSharing_iff (by decide) (by decide) 1
    (pubCorrect5pc (by decide) (by decide) _)
    (pubCorrect7pc (by decide) (by decide) (fun _ _ _ => 0) openOnce7pc)
    (fun _ _ _ hx => openOnce7pc_eq (by decide) hx) (α := fun _ => 0)
    (fun _ _ => hzero₅) (fun _ _ => hzero₇)).2.1

/-- A shared zero modulo `2^30` comes out as 1 when all streams but that of `{2,3}` are
zero and that one starts with ones. -/
theorem rssMsbMp_inverts : ArithSharing shares5pc 30 (fun _ _ _ => (0 : Lint 4)) 0 0 ∧
    ¬ ArithSharing shares5pc 30 (rssMsbMp (L := 4) (fun a b size ring_size net =>
      (rssMultPubMp (fun _ _ _ => 0) a b size ring_size net).1)
      ⟨fun _ _ _ => 0,fun _ _ _ => 0,fun _ _ _ => 0⟩ (fun _ _ _ => 0) 1 30
      (burst shares5pc {1,2} 124)).1 0 (bitVal 30 ((0 : BitVec 30).getLsbD 29)) := by
  have hzero : ArithSharing shares5pc 30 (fun _ _ _ => (0 : Lint 4)) 0 0 :=
    ⟨fun _ => 0,fun _ _ _ => rfl,by simp⟩
  exact ⟨hzero,msb_unfinished (inverting5pc (by decide) (pubCorrect5pc (by decide) (by decide) _))
    (by decide) (by decide) _ (by decide) hzero⟩

end RssRing
