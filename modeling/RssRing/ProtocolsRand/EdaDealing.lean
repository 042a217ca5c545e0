import RssRing.ProtocolsRand.EdaBitMp
set_option autoImplicit false
set_option maxRecDepth 8000

namespace RssRing
open Replicated Finset

variable {n L k : Nat}

/-- The copy of one share from a stream: the dealer it belongs to, the element, whether
it is the arithmetic or the bitwise share, the slot, and its place in the buffer. -/
structure ShareUse where
  dealer : Nat
  i : Nat
  bitwise : Bool
  slot : Nat
  pos : Nat
  deriving DecidableEq

def ShareUse.covers (u : ShareUse) (bytes m : Nat) : Prop :=
  u.pos*bytes ≤ m ∧ m < u.pos*bytes + bytes

namespace EdaTable
variable (tab : EdaTable n)

def kept (p : Fin n) (t s : Nat) : Bool := tab.fetched p t s && !tab.filled p t s

def shareUses (size : Nat) (p : Fin n) : List ShareUse :=
  (List.range size).flatMap fun i => (List.range (tab.threshold+1)).flatMap fun t =>
    ((List.range tab.numShares).filter (tab.kept p t)).flatMap fun s =>
      [⟨t,i,false,s,2*i⟩,⟨t,i,true,s,2*i+1⟩]

theorem mem_shareUses {size : Nat} {p : Fin n} {u : ShareUse} : u ∈ tab.shareUses size p ↔
    u.i < size ∧ u.dealer ≤ tab.threshold ∧ u.slot < tab.numShares ∧
      tab.kept p u.dealer u.slot = true ∧ u.pos = 2*u.i + u.bitwise.toNat := by
  obtain ⟨t,i,b,s,pos⟩ := u
  simp only [shareUses,List.mem_flatMap,List.mem_range,List.mem_filter,List.mem_cons,
    ShareUse.mk.injEq,List.not_mem_nil,or_false]
  constructor
  · rintro ⟨i',hi,t',ht,s',⟨hs,hkept⟩,⟨rfl,rfl,rfl,rfl,rfl⟩ | ⟨rfl,rfl,rfl,rfl,rfl⟩⟩
    · exact ⟨hi,by omega,hs,hkept,rfl⟩
    · exact ⟨hi,by omega,hs,hkept,rfl⟩
  · rintro ⟨hi,ht,hs,hkept,rfl⟩
    refine ⟨i,hi,t,by omega,s,⟨hs,hkept⟩,?_⟩
    cases b <;> simp

/-- The bytes that a use stands for are the ones that the routine copies. -/
theorem rValues_of_mem {G : Type} [Generator G] {size : Nat} {p : Fin n} {u : ShareUse}
    (hu : u ∈ tab.shareUses size p) (net : Net n G) :
    (tab.rValues k size net p u.slot u.dealer (2*u.i + u.bitwise.toNat) : Lint L) =
      memcpyWord 0 (net.random u.slot (byteWidth k) ((tab.threshold+1)*(2*size)) p)
        (u.pos*byteWidth k) (byteWidth k) := by
  obtain ⟨-,-,-,hkept,hpos⟩ := (tab.mem_shareUses).mp hu
  rw [kept,Bool.and_eq_true,Bool.not_eq_true'] at hkept
  rw [EdaTable.rValues,if_neg (by rw [hkept.2]; decide),if_pos hkept.1,drawn,← hpos]

/-- No byte of the stream of `T` is in two of the shares over `T`. -/
def Apart (H : Pattern (Fin n) (Finset (Fin n))) (T : Finset (Fin n)) (size bytes : Nat) : Prop :=
  ∀ p q, ∀ u ∈ tab.shareUses size p, ∀ w ∈ tab.shareUses size q,
    H.hold p u.slot = T → H.hold q w.slot = T →
    (u.dealer,u.i,u.bitwise) ≠ (w.dealer,w.i,w.bitwise) →
    ∀ m, ¬ (u.covers bytes m ∧ w.covers bytes m)

/-- The dealers whose share over `T` some holder takes from the stream of `T`. -/
def users (H : Pattern (Fin n) (Finset (Fin n))) (T : Finset (Fin n)) : List Nat :=
  (List.range (tab.threshold+1)).filter fun t => (List.finRange n).any fun p =>
    (List.range tab.numShares).any fun s => H.hold p s = T && tab.kept p t s

theorem mem_users {H : Pattern (Fin n) (Finset (Fin n))} {T : Finset (Fin n)} {t : Nat} :
    t ∈ tab.users H T ↔ t ≤ tab.threshold ∧
      ∃ p s, s < tab.numShares ∧ H.hold p s = T ∧ tab.kept p t s = true := by
  simp only [users,List.mem_filter,List.mem_range,List.any_eq_true,List.mem_finRange,true_and,
    Bool.and_eq_true,decide_eq_true_eq,Nat.lt_succ_iff]

/-- The place of a share does not depend on the dealer, so one dealer for each share
is all that keeps them apart. -/
theorem apart_iff (H : Pattern (Fin n) (Finset (Fin n))) (T : Finset (Fin n)) (size : Nat)
    {bytes : Nat} (hbytes : 0 < bytes) : tab.Apart H T size bytes ↔
      size = 0 ∨ ∀ t ∈ tab.users H T, ∀ t' ∈ tab.users H T, t = t' := by
  constructor
  · intro h
    by_contra hcon
    obtain ⟨hsize,husers⟩ := not_or.mp hcon
    refine husers fun t ht t' ht' => ?_
    by_contra hne
    obtain ⟨hle,p,s,hs,hT,hkept⟩ := (tab.mem_users).mp ht
    obtain ⟨hle',q,s',hs',hT',hkept'⟩ := (tab.mem_users).mp ht'
    have hpos : 0 < size := Nat.pos_of_ne_zero hsize
    refine h p q ⟨t,0,false,s,0⟩ ((tab.mem_shareUses).mpr ⟨hpos,hle,hs,hkept,rfl⟩)
      ⟨t',0,false,s',0⟩ ((tab.mem_shareUses).mpr ⟨hpos,hle',hs',hkept',rfl⟩) hT hT' ?_ 0 ?_
    · exact fun heq => hne (congrArg Prod.fst heq)
    · simp [ShareUse.covers,hbytes]
  · rintro (rfl | husers) p q u hu w hw hT hT' hne m ⟨⟨hul,huh⟩,hwl,hwh⟩
    · exact absurd ((tab.mem_shareUses).mp hu).1 (Nat.not_lt_zero _)
    · obtain ⟨-,hud,hus,huk,hup⟩ := (tab.mem_shareUses).mp hu
      obtain ⟨-,hwd,hws,hwk,hwp⟩ := (tab.mem_shareUses).mp hw
      have hdealer : u.dealer = w.dealer := husers _ ((tab.mem_users).mpr ⟨hud,p,_,hus,hT,huk⟩) _
        ((tab.mem_users).mpr ⟨hwd,q,_,hws,hT',hwk⟩)
      have hpos : u.pos = w.pos := index_unique ⟨hul,huh⟩ ⟨hwl,hwh⟩
      have hkind : u.i = w.i ∧ u.bitwise = w.bitwise := by
        cases hu' : u.bitwise <;> cases hw' : w.bitwise <;>
          simp only [hup,hwp,hu',hw',Bool.toNat_false,Bool.toNat_true] at hpos <;>
          simp only [and_true,Bool.false_eq_true,Bool.true_eq_false,and_false] <;> omega
      exact hne (by rw [hdealer,hkind.1,hkind.2])

end EdaTable

/-- With five parties one dealer at most uses the streams of `{1,2}`, `{1,3}`, `{2,3}` and
`{3,4}`; the dealers outside a share use its stream, save the one that holds it first. -/
theorem users5pc : ∀ T ∈ shares5pc.names, (∀ t ∈ edaTable5pc.users shares5pc T,
    ∀ t' ∈ edaTable5pc.users shares5pc T, t = t') ↔
    T ∈ ({{0,1},{0,2},{1,2},{2,3}} : Finset (Finset (Fin 5))) := by decide

theorem users7pc : ∀ T ∈ shares7pc.names, ¬ ∀ t ∈ edaTable7pc.users shares7pc T,
    ∀ t' ∈ edaTable7pc.users shares7pc T, t = t' := by decide +kernel

/-- The dealers' shares over `T` lie apart in the stream of `T` only where at most one
dealer takes its share from there: with five parties for four of the ten shares,
with seven for none. -/
theorem dealing_apart_iff (hk : 0 < k) (size : Nat) :
    (∀ T ∈ shares5pc.names, edaTable5pc.Apart shares5pc T size (byteWidth k) ↔
      size = 0 ∨ T ∈ ({{0,1},{0,2},{1,2},{2,3}} : Finset (Finset (Fin 5)))) ∧
    ∀ T ∈ shares7pc.names, edaTable7pc.Apart shares7pc T size (byteWidth k) ↔ size = 0 := by
  have hbytes := byteWidth_pos hk
  constructor
  · intro T hT
    rw [EdaTable.apart_iff _ _ _ _ hbytes,users5pc T hT]
  · intro T hT
    rw [EdaTable.apart_iff _ _ _ _ hbytes]
    exact or_iff_left (users7pc T hT)

theorem dealing_apart_byte : edaTable5pc.users shares5pc {0,2} = [1] ∧
    edaTable5pc.Apart shares5pc {0,2} 3 (byteWidth 8) :=
  ⟨by decide,((dealing_apart_iff (by decide) 3).1 {0,2} (by decide)).mpr (.inr (by decide))⟩

/-- One element modulo `2^8`: the first and the second dealer have the same bytes as
their shares over `{4,5}`. -/
theorem dealing_not_apart : ¬ edaTable5pc.Apart shares5pc {3,4} 1 (byteWidth 8) := by
  intro h
  have hmem : ∀ p t, edaTable5pc.kept p t 5 = true → t ≤ 2 →
      ⟨t,0,false,5,0⟩ ∈ edaTable5pc.shareUses 1 p := by
    intro p t hkept ht
    exact (edaTable5pc.mem_shareUses).mpr ⟨Nat.one_pos,ht,(by decide : 5 < 6),hkept,rfl⟩
  refine h 0 0 ⟨0,0,false,5,0⟩ (hmem 0 0 (by decide) (by decide)) ⟨1,0,false,5,0⟩
    (hmem 0 1 (by decide) (by decide)) (by decide) (by decide) (by decide)
    0 ?_
  simp [ShareUse.covers,byteWidth]

def pulse (T : Finset (Fin 7)) : Net 7 Tape := fun p s =>
  if shares7pc.hold p s = T then ⟨fun m => if m = 0 then 1 else 0⟩ else ⟨fun _ => 0⟩

theorem pulse_consistent (T : Finset (Fin 7)) : shares7pc.Consistent (pulse T) := by
  intro p s q t _ _ hst
  rw [pulse,pulse,hst]

theorem drawn_pulse (hk : 0 < k) (hL : 0 < L) (size : Nat) {p : Fin 7} {s : Nat}
    {T : Finset (Fin 7)} (hT : shares7pc.hold p s = T) :
    (edaTable7pc.drawn k size (pulse T) p s 0 : Lint L).setWidth 1 = 1 := by
  have hbytes := byteWidth_pos hk
  apply BitVec.eq_of_getLsbD_eq
  intro j hj
  have hj0 : j = 0 := by omega
  subst hj0
  simp [EdaTable.drawn,Net.random,Generator.getrandom,pulse,hT,hbytes,hL,-BitVec.getLsbD_eq_getElem]

theorem res_pulse (hk : 0 < k) (hL : 0 < L) (size : Nat) {p : Fin 7} {s : Nat} {T : Finset (Fin 7)}
    (hT : shares7pc.hold p s = T) (hkept : ∀ t, t < 4 → edaTable7pc.filled p t s = false ∧
      (t = p.val → edaTable7pc.fetched p t s = true)) :
    ((edaTable7pc.generateRandomShares k size (pulse T) : RandomShares 7 L Tape).res p s 0).setWidth 1 =
      ((List.range 4).map fun t => if edaTable7pc.fetched p t s then (1 : BitVec 1) else 0).sum := by
  have hzero : (0 : Lint L).setWidth 1 = 0 := map_zero (lowBits (by omega))
  rw [EdaTable.generateRandomShares,MultPubTable.foldl_add_setWidth (by omega),hzero,zero_add]
  congr 1
  apply List.map_congr_left
  intro t ht
  obtain ⟨hfill,hown⟩ := hkept t (List.mem_range.mp ht)
  rw [EdaTable.rValues,if_neg (by rw [hfill]; decide)]
  by_cases hfetch : edaTable7pc.fetched p t s = true
  · rw [if_pos hfetch,if_pos hfetch]
    exact drawn_pulse hk hL size hT
  · rw [if_neg hfetch,if_neg hfetch,if_neg fun h => hfetch (hown h)]
    exact hzero

/-- The rows of `prg_bools` come in the wrong order for the parties' starting index:
party 2 takes the share over `{1,3,5}` for two dealers and party 4 for three. -/
theorem edaBit7pc_disagree (hk : 0 < k) (hkL : k ≤ 8*L) (size : Nat) {v : BitVec k} :
    ¬ ArithSharing shares7pc k
      (edaTable7pc.generateRandomShares k size (pulse {0,2,4}) : RandomShares 7 L Tape).res 0 v := by
  intro h
  have hsame := h.consistent 1 6 3 8 (by decide) (by decide) (by decide)
  have hlow := congrArg (fun x => x.setWidth 1) hsame
  simp only [BitVec.setWidth_setWidth_of_le _ hk] at hlow
  rw [res_pulse hk (by omega) size (by decide) (by decide),
    res_pulse hk (by omega) size (by decide) (by decide)] at hlow
  exact absurd hlow (by decide)

/-- For no vector but the empty one does `Rss_edaBit_7pc` share the sum of the dealers' words
twice whatever the streams are; on the empty one its exchanges do not return (`getRounds_zero`). -/
theorem edaBit7pc_isSharing_iff (hk : 0 < k) (hkL : k ≤ 8*L) (size : Nat)
    (multPub : Shares 7 (Lint L) → Shares 7 (Lint L) → Nat → Nat → Net 7 Tape → Fin 7 → Nat → Lint L)
    (openShares : Shares 7 (Lint L) → Nat → Fin 7 → Nat → Lint L) :
    (∀ net, shares7pc.Consistent net → ∀ i, i < size →
      let out := (suite7pc multPub openShares).edaBit7pc size k net
      ArithSharing shares7pc k out.r i (edaTable7pc.dealtSum L k size net i) ∧
        BitSharing shares7pc k out.b_2 i (edaTable7pc.dealtSum L k size net i)) ↔ size = 0 := by
  constructor
  · intro h
    by_contra hsize
    exact edaBit7pc_disagree hk hkL size
      (h _ (pulse_consistent {0,2,4}) 0 (Nat.pos_of_ne_zero hsize)).1
  · rintro rfl net _ i hi
    exact absurd hi (Nat.not_lt_zero i)

theorem edaBit7pc_isSharing_one :
    ¬ ∀ net : Net 7 Tape, shares7pc.Consistent net → ∀ i, i < 1 →
      let out := (suite7pc (L := 4) (fun _ _ _ _ _ _ _ => 0) fun _ _ _ _ => 0).edaBit7pc 1 6 net
      ArithSharing shares7pc 6 out.r i (edaTable7pc.dealtSum 4 6 1 net i) ∧
        BitSharing shares7pc 6 out.b_2 i (edaTable7pc.dealtSum 4 6 1 net i) :=
  fun h => Nat.one_ne_zero ((edaBit7pc_isSharing_iff (by decide) (by decide) 1 _ _).mp h)

/-- One element modulo `2^8`, all streams zero but for one byte of that of `{1,3,5}`. -/
theorem edaBit7pc_disagrees : shares7pc.Consistent (pulse {0,2,4}) ∧
    ¬ ∃ v, ArithSharing shares7pc 8 ((suite7pc (L := 4) (fun _ _ _ _ _ _ _ => 0)
      fun _ _ _ _ => 0).edaBit7pc 1 8 (pulse {0,2,4})).r 0 v := by
  refine ⟨pulse_consistent _,?_⟩
  rintro ⟨v,h⟩
  exact edaBit7pc_disagree (by decide) (by decide) 1 h

end RssRing
