import RssRing.ProtocolsRand.EdaBit
set_option autoImplicit false

namespace RssRing
open Replicated Finset

variable {G : Type} [Generator G] {n L k : Nat}

structure EdaTable (n : Nat) where
  numShares : Nat
  threshold : Nat
  prgBools : List (List Bool)
  indexMap : List (List Int)
  resetValue : Fin n → Nat
  routing : Routing n

/-- `x % (numParties - 1)`, brought back above zero, with `x` turned into a `uint`. -/
def wrapIndex (n x : Nat) : Nat := (x % 2^32 % (n-1) + (n-1)) % (n-1)

namespace EdaTable
variable (tab : EdaTable n)

def index (p : Fin n) : Nat → Nat
  | 0 => wrapIndex n (pid p + 2^32 - 2)
  | t+1 => if p.val ≠ t then wrapIndex n (index p t + 2^32 - 1) else index p t

/-- Whether party `p` takes slot `s` of dealer `t` from its own streams. -/
def prgBool (p : Fin n) (t s : Nat) : Bool := (tab.prgBools.getD (index p t) []).getD s false

/-- The parties up to number `threshold` deal; dealer `t` takes all but the first of
its slots from its streams. -/
def fetched (p : Fin n) (t s : Nat) : Bool := if t = p.val then s != 0 else tab.prgBool p t s

def filled (p : Fin n) (t s : Nat) : Bool := entry tab.indexMap p t = s && s != 0

def bufferOf (p : Fin n) (t : Nat) : Nat :=
  tab.resetValue p + (List.range t).countP (fun t' => 0 < entry tab.indexMap p t')

def rBits (ring_size size : Nat) (net : Net n G) (p : Fin n) (i : Nat) : Lint L :=
  let bytes := byteWidth ring_size
  memcpyWord 0 (net.random tab.numShares bytes size p) (i*bytes) bytes

def drawn (ring_size size : Nat) (net : Net n G) (p : Fin n) (s m : Nat) : Lint L :=
  let bytes := byteWidth ring_size
  memcpyWord 0 (net.random s bytes ((tab.threshold+1)*(2*size)) p) (m*bytes) bytes

/-- `r_values[0][p_index][m]`: a dealer's word less all its other slots, as a number at
even and bit by bit at odd places. -/
def dealt (ring_size size : Nat) (net : Net n G) (p : Fin n) (m : Nat) : Lint L :=
  (List.range (tab.numShares-1)).foldl (fun x j => if m%2 = 0
      then x - tab.drawn ring_size size net p (j+1) m
      else x ^^^ tab.drawn ring_size size net p (j+1) m)
    (tab.rBits ring_size size net p (m/2))

/-- A dealt place of party `p` after the exchange: `drawn` are the words the parties
have for it in their streams, `dealt` what each would send. -/
def place (ring_size : Nat) (drawn : Fin n → Nat → Lint L) (dealt : Fin n → Lint L) (p : Fin n)
    (s t : Nat) : Lint L :=
  if tab.filled p t s then
    tab.routing.deliver (fun q _ => received ring_size (dealt q)) 0 p (tab.bufferOf p t)
  else if tab.fetched p t s then drawn p s
  else if t = p.val then masked ring_size (dealt p)
  else 0

def rValues (ring_size size : Nat) (net : Net n G) (p : Fin n) (s t m : Nat) : Lint L :=
  let recvbuf := tab.routing.deliver
    (fun q _ => received ring_size (tab.dealt ring_size size net q m)) 0 p
  if tab.filled p t s then recvbuf (tab.bufferOf p t)
  else if tab.fetched p t s then tab.drawn ring_size size net p s m
  else if t = p.val then masked ring_size (tab.dealt ring_size size net p m)
  else 0

/-- `Rss_GenerateRandomShares_mp` and `Rss_GenerateRandomShares_7pc`. -/
def generateRandomShares (ring_size size : Nat) (net : Net n G) : RandomShares n L G where
  res p s i := (List.range (tab.threshold+1)).foldl
    (fun x t => x + tab.rValues ring_size size net p s t (2*i)) 0
  res_bitwise p s m := if m/size ≤ tab.threshold then
    tab.rValues ring_size size net p s (m/size) (2*(m%size)+1) else 0
  net :=
    let bytes := byteWidth ring_size
    let net₁ := net.advanceAll tab.numShares bytes fun _ => (tab.threshold+1)*(2*size)
    fun p => if p.val ≤ tab.threshold then net₁.advance tab.numShares bytes size p else net₁ p

end EdaTable

def edaTable5pc : EdaTable 5 where
  numShares := 6
  threshold := 2
  prgBools := [[true,true,false,true,false,false],[true,false,true,false,true,false],
    [false,true,true,false,false,false],[false,false,false,false,true,true]]
  indexMap := [[-1,3,5],[-1,-1,3],[-1,-1,-1],[5,-1,-1],[3,5,-1]]
  resetValue p := if pid p = 4 then 1 else 0
  routing := edaMap5pc

def boolRow (row : List Nat) : List Bool := row.map (fun x => x == 1)

def edaTable7pc : EdaTable 7 where
  numShares := 20
  threshold := 3
  prgBools := [[0,0,0,0,0,0,0,0,0,0,0,1,1,1,1,1,1,1,1,1],
    [0,0,0,0,1,1,1,1,1,1,0,0,0,0,0,0,0,1,1,1],
    [0,1,1,1,0,0,0,1,1,1,0,0,0,1,1,1,0,0,0,0],
    [1,0,1,1,0,1,1,0,0,1,0,1,1,0,0,1,0,0,1,0],
    [1,1,0,1,1,0,1,0,1,0,1,0,1,0,1,0,0,1,0,0],
    [1,1,1,0,1,1,0,1,0,0,1,1,0,1,0,0,1,0,0,0]].map boolRow
  indexMap := [[-1,10,16,19],[-1,-1,10,16],[-1,-1,-1,10],[-1,-1,-1,-1],[19,-1,-1,-1],
    [16,19,-1,-1],[10,16,19,-1]]
  resetValue p := if pid p = 5 then 2 else if pid p = 6 then 1 else 0
  routing := edaMap7pc

namespace Suite

/-- `Rss_nBitAdd_mp`: the third dealer's bits are added to the sum of the first two. -/
def nBitAddMp (S : Suite 5 L G) (res r_bitwise : Shares 5 (Lint L)) (ring_size size : Nat)
    (net : Net 5 G) : Shares 5 (Lint L) × Net 5 G :=
  let first := S.bitAdd res r_bitwise (fun p s i => r_bitwise p s (size + i)) ring_size size net
  S.bitAdd first.1 first.1 (fun p s i => r_bitwise p s (2*size + i)) ring_size size first.2

/-- `Rss_nBitAdd_7pc`: two sums at once, then the sum of the two. -/
def nBitAdd7pc (S : Suite 7 L G) (res r_bitwise : Shares 7 (Lint L)) (ring_size size : Nat)
    (net : Net 7 G) : Shares 7 (Lint L) × Net 7 G :=
  let c := S.bitAdd (fun _ _ _ => 0) r_bitwise (fun p s i => r_bitwise p s (2*size + i)) ring_size
    (2*size) net
  S.bitAdd res c.1 (fun p s i => c.1 p s (size + i)) ring_size size c.2

def edaBitMp (S : Suite 5 L G) (size ring_size : Nat) (net : Net 5 G) : EdaBits 5 L G :=
  let g := edaTable5pc.generateRandomShares ring_size size net
  let b := S.nBitAddMp (fun _ _ _ => 0) g.res_bitwise ring_size size g.net
  ⟨g.res,b.1,b.2⟩

def edaBit7pc (S : Suite 7 L G) (size ring_size : Nat) (net : Net 7 G) : EdaBits 7 L G :=
  let g := edaTable7pc.generateRandomShares ring_size size net
  let b := S.nBitAdd7pc (fun _ _ _ => 0) g.res_bitwise ring_size size g.net
  ⟨g.res,b.1,b.2⟩

end Suite

namespace EdaTable
variable {tab : EdaTable n} {H : Pattern (Fin n) (Finset (Fin n))}

/-- What the tables have to say for the word of dealer `d` to be shared: the first of
its shares goes to the holders as a message, the other shares it holds come from
their streams, and the shares it does not hold are zero. -/
structure Deals (tab : EdaTable n) (H : Pattern (Fin n) (Finset (Fin n))) : Prop where
  slots : tab.numShares = H.slots
  threshold : tab.threshold < n
  filled_iff : ∀ p d : Fin n, d.val ≤ tab.threshold → ∀ s, s < H.slots →
    (tab.filled p d s = true ↔ p ≠ d ∧ H.hold p s = H.hold d 0)
  message : ∀ p d : Fin n, d.val ≤ tab.threshold → ∀ s, s < H.slots → tab.filled p d s = true →
    (tab.routing.source p (tab.bufferOf p d)).map Prod.fst = some d
  fetched_iff : ∀ p d : Fin n, d.val ≤ tab.threshold → ∀ s, s < H.slots →
    (tab.fetched p d s = true ↔ d ∉ H.hold p s ∧ H.hold d 0 ≠ H.hold p s)

theorem drawn_consistent {net : Net n G} (hnet : H.Consistent net) (tab : EdaTable n)
    (size m : Nat) : H.Consistent fun p s => (tab.drawn k size net p s m : Lint L) := by
  intro p s q t hs ht hst
  simp only [drawn,Net.random_eq hnet hs ht hst]

section
variable {R : Type} [CommRing R] (val : Lint L → R) {size m : Nat}

theorem dealt_val (hsub : ∀ x y : Lint L, val (if m%2 = 0 then x - y else x ^^^ y) = val x - val y)
    (net : Net n G) (p : Fin n) : val (tab.dealt k size net p m) =
      val (tab.rBits k size net p (m/2)) -
        ∑ j ∈ range (tab.numShares-1), val (tab.drawn k size net p (j+1) m) := by
  have hstep : ∀ x : Lint L, ∀ j, val (if m%2 = 0 then x - tab.drawn k size net p (j+1) m
      else x ^^^ tab.drawn k size net p (j+1) m) = val x - val (tab.drawn k size net p (j+1) m) :=
    fun x j => hsub x _
  rw [dealt]
  induction tab.numShares-1 with
  | zero => simp
  | succ c ih =>
    rw [List.range_succ,List.foldl_append,List.foldl_cons,List.foldl_nil,hstep,ih,
      Finset.sum_range_succ,sub_sub]

section
omit [Generator G]
variable {drawn : Fin n → Nat → Lint L} {dealt : Fin n → Lint L} {μ : Finset (Fin n) → Lint L}

theorem place_val (h0 : val 0 = 0) (hmasked : ∀ x, val (masked k x) = val x)
    {mult : MultTable n} (hA : mult.Agrees H) (hD : tab.Deals H) (hμ : H.Holds drawn μ) {d : Fin n}
    (hd : d.val ≤ tab.threshold) {p : Fin n} {s : Nat} (hs : s < H.slots) :
    val (tab.place k drawn dealt p s d) =
      (if H.hold p s = H.hold d 0 then val (dealt d) else 0) +
        if d ∉ H.hold p s ∧ H.hold d 0 ≠ H.hold p s then val (μ (H.hold p s)) else 0 := by
  have : Inhabited (Lint L) := ⟨0⟩
  by_cases hfill : tab.filled p d s = true
  · have hhold := ((hD.filled_iff p d hd s hs).mp hfill).2
    obtain ⟨⟨q,r⟩,hq,hqd⟩ := Option.map_eq_some_iff.mp (hD.message p d hd s hs hfill)
    have hqd : q = d := hqd
    subst hqd
    rw [place,if_pos hfill,Routing.deliver_of_source hq,received_eq,hmasked,if_pos hhold,
      if_neg (fun h => h.2 hhold.symm),add_zero]
  · by_cases hfetch : tab.fetched p d s = true
    · have hheld := (hD.fetched_iff p d hd s hs).mp hfetch
      rw [place,if_neg hfill,if_pos hfetch,if_neg (fun h => hheld.2 h.symm),if_pos hheld,
        zero_add,hμ p s hs]
    · have hheld := fun h => hfetch ((hD.fetched_iff p d hd s hs).mpr h)
      rw [place,if_neg hfill,if_neg hfetch,if_neg hheld,add_zero]
      by_cases hp : d.val = p.val
      · have hpd : p = d := Fin.ext hp.symm
        subst hpd
        have hown : H.hold p s = H.hold p 0 := by
          by_contra hne
          exact hheld ⟨hA.notMem_hold p hs,fun h => hne h.symm⟩
        rw [if_pos rfl,hmasked,if_pos hown]
      · have hne : p ≠ d := fun h => hp (congrArg Fin.val h).symm
        have hother : H.hold p s ≠ H.hold d 0 :=
          fun h => hfill ((hD.filled_iff p d hd s hs).mpr ⟨hne,h⟩)
        rw [if_neg hp,if_neg hother,h0]

theorem sum_drawn {mult : MultTable n} (hA : mult.Agrees H) (hD : tab.Deals H)
    (hμ : H.Holds drawn μ) (d : Fin n) :
    (∑ j ∈ range (tab.numShares-1), val (drawn d (j+1))) =
      ∑ T ∈ H.names, if d ∉ T ∧ H.hold d 0 ≠ T then val (μ T) else 0 := by
  have hslots := hA.sum_slots d fun T => val (μ T)
  have hpos := hA.slots_pos
  have hsplit : H.slots = (H.slots-1) + 1 := by omega
  rw [hsplit,Finset.sum_range_succ',if_neg (fun h =>
    ((hA.used_iff d d 0 hA.slots_pos).mp h).2 rfl),add_zero] at hslots
  rw [← hslots,hD.slots]
  refine Finset.sum_congr rfl fun j hj => ?_
  have hj : j + 1 < H.slots := by have := Finset.mem_range.mp hj; omega
  have hne : H.hold d 0 ≠ H.hold d (j+1) :=
    fun h => absurd (hA.hold_inj d 0 hpos (j+1) hj h) (by omega)
  rw [if_pos ((hA.used_iff d d (j+1) hj).mpr ⟨hA.notMem_hold d hj,hne⟩),hμ d (j+1) hj]

theorem place_isSharing (h0 : val 0 = 0) (hmasked : ∀ x, val (masked k x) = val x)
    {mult : MultTable n} (hA : mult.Agrees H) (hD : tab.Deals H) (hdrawn : H.Consistent drawn)
    {d : Fin n} (hd : d.val ≤ tab.threshold) {v : R} (hdealt : val (dealt d) =
      v - ∑ j ∈ range (tab.numShares-1), val (drawn d (j+1))) :
    H.IsSharing (fun p s => val (tab.place k drawn dealt p s d)) v := by
  have : Inhabited (Lint L) := ⟨0⟩
  obtain ⟨μ,hμ⟩ := hdrawn.exists_holds
  have hfirst : H.hold d 0 ∈ H.names := H.hold_mem d 0 hA.slots_pos
  refine ⟨fun T => (if T = H.hold d 0 then val (dealt d) else 0) +
    if d ∉ T ∧ H.hold d 0 ≠ T then val (μ T) else 0,
    fun p s hs => place_val val h0 hmasked hA hD hμ hd hs,?_⟩
  rw [Finset.sum_add_distrib,Finset.sum_ite_eq' H.names (H.hold d 0),if_pos hfirst,hdealt,
    sum_drawn val hA hD hμ d,sub_add_cancel]

end

theorem rValues_isSharing (h0 : val 0 = 0) (hmasked : ∀ x, val (masked k x) = val x)
    (hsub : ∀ x y : Lint L, val (if m%2 = 0 then x - y else x ^^^ y) = val x - val y)
    {mult : MultTable n} (hA : mult.Agrees H) (hD : tab.Deals H) {net : Net n G}
    (hnet : H.Consistent net) {d : Fin n} (hd : d.val ≤ tab.threshold) :
    H.IsSharing (fun p s => val (tab.rValues k size net p s d m))
      (val (tab.rBits k size net d (m/2))) :=
  place_isSharing val h0 hmasked hA hD (drawn_consistent hnet tab size m) hd
    (dealt_val val hsub net d)

end

theorem sum_dealers {R : Type} [AddCommMonoid R] {c : Nat} (hc : c < n) (f : Nat → R) :
    ∑ t ∈ range (c+1), f t = ∑ d : Fin n with d.val ≤ c, f d := by
  symm
  refine Finset.sum_bij (fun d _ => d.val) ?_ ?_ ?_ ?_
  · intro d hd
    exact Finset.mem_range.mpr (Nat.lt_succ_of_le (Finset.mem_filter.mp hd).2)
  · intro d _ e _ h
    exact Fin.ext h
  · intro t ht
    have ht : t < c+1 := Finset.mem_range.mp ht
    exact ⟨⟨t,by omega⟩,Finset.mem_filter.mpr ⟨Finset.mem_univ _,by simp only; omega⟩,rfl⟩
  · intro d _
    rfl

def dealtSum (tab : EdaTable n) (L ring_size size : Nat) (net : Net n G) (i : Nat) :
    BitVec ring_size :=
  ∑ d : Fin n with d.val ≤ tab.threshold,
    (tab.rBits ring_size size net d i : Lint L).setWidth ring_size

section
variable {mult : MultTable n} (hA : mult.Agrees H) (hD : tab.Deals H) {net : Net n G} {size i : Nat}
include hD

theorem generateRandomShares_drew (net : Net n G) (k size : Nat) :
    Net.Drew H (fun _ => [byteWidth k*((tab.threshold+1)*(2*size))]) net
      (tab.generateRandomShares k size net : RandomShares n L G).net := by
  intro p s hs
  have hne : s ≠ tab.numShares := by rw [hD.slots]; omega
  have hslot : s < tab.numShares := by rwa [hD.slots]
  by_cases hp : p.val ≤ tab.threshold
  · simp [generateRandomShares,hp,Net.advance,hne,Net.advanceAll,hslot]
  · simp [generateRandomShares,hp,Net.advanceAll,hslot]

theorem generateRandomShares_net (hnet : H.Consistent net) (k size : Nat) :
    H.Consistent (tab.generateRandomShares k size net : RandomShares n L G).net :=
  (generateRandomShares_drew hD net k size).consistent hnet

include hA

theorem res_isSharing (hk : k ≤ 8*L) (hnet : H.Consistent net) (i : Nat) :
    ArithSharing H k (tab.generateRandomShares k size net : RandomShares n L G).res i
      (tab.dealtSum L k size net i) := by
  have hparts : ∀ d : Fin n, d.val ≤ tab.threshold →
      H.IsSharing (fun p s => (tab.rValues k size net p s d (2*i) : Lint L).setWidth k)
        ((tab.rBits k size net d i : Lint L).setWidth k) := by
    intro d hd
    have heven : 2*i%2 = 0 := by omega
    have hhalf : 2*i/2 = i := by omega
    have hpart : H.IsSharing
        (fun p s => (tab.rValues k size net p s d (2*i) : Lint L).setWidth k)
        ((tab.rBits k size net d (2*i/2) : Lint L).setWidth k) :=
      rValues_isSharing (fun x : Lint L => x.setWidth k) (map_zero (lowBits hk))
        (arithReading hk).sent
        (fun x y => by rw [if_pos heven]; exact setWidth_sub_of_le x y hk) hA hD hnet hd
    rwa [hhalf] at hpart
  have hsum := Pattern.IsSharing.sum {d : Fin n | d.val ≤ tab.threshold} fun d hd =>
    hparts d (Finset.mem_filter.mp hd).2
  refine hsum.congr fun p s _ => ?_
  rw [generateRandomShares,MultPubTable.foldl_add_setWidth hk,sum_map_range,
    sum_dealers hD.threshold fun t => (tab.rValues k size net p s t (2*i) : Lint L).setWidth k]
  simp

theorem res_bitwise_isSharing (hnet : H.Consistent net) (hi : i < size) {d : Fin n}
    (hd : d.val ≤ tab.threshold) : BitSharing H k
      (tab.generateRandomShares k size net : RandomShares n L G).res_bitwise (d.val*size + i)
      ((tab.rBits k size net d i : Lint L).setWidth k) := by
  intro j hj
  have hodd : ¬ (2*i+1)%2 = 0 := by omega
  have hhalf : (2*i+1)/2 = i := by omega
  have hdiv := index_div hi d.val
  have hmod := index_mod hi d.val
  have hpart : H.IsSharing
      (fun p s => (tab.rValues k size net p s d (2*i+1) : Lint L).getLsbD j)
      ((tab.rBits k size net d ((2*i+1)/2) : Lint L).getLsbD j) :=
    rValues_isSharing (fun x : Lint L => x.getLsbD j) BitVec.getLsbD_zero
      (fun x => getLsbD_masked x hj)
      (fun x y => by rw [if_neg hodd]; exact BitVec.getLsbD_xor) hA hD hnet hd
  rw [hhalf] at hpart
  rw [BitVec.getLsbD_setWidth,decide_eq_true hj,Bool.true_and]
  refine hpart.congr fun p s _ => ?_
  simp only [generateRandomShares,hdiv,hmod,hd,if_true]

end

end EdaTable

theorem edaTable5pc_deals : edaTable5pc.Deals shares5pc where
  slots := rfl
  threshold := by decide
  filled_iff := by decide
  message := by decide
  fetched_iff := by decide

theorem dealtSum5pc (L k size : Nat) (net : Net 5 G) (i : Nat) :
    edaTable5pc.dealtSum L k size net i =
      (edaTable5pc.rBits k size net 0 i : Lint L).setWidth k +
        (edaTable5pc.rBits k size net 1 i : Lint L).setWidth k +
        (edaTable5pc.rBits k size net 2 i : Lint L).setWidth k := by
  have hfilter : ({d : Fin 5 | d.val ≤ edaTable5pc.threshold} : Finset (Fin 5)) = {0,1,2} := by
    decide
  rw [EdaTable.dealtSum,hfilter,Finset.sum_insert (by decide),Finset.sum_insert (by decide),
    Finset.sum_singleton,add_assoc]

theorem edaBitMp_element (hk : k ≤ 8*L) {net : Net 5 G} (hnet : shares5pc.Consistent net)
    (multPub : Shares 5 (Lint L) → Shares 5 (Lint L) → Nat → Nat → Net 5 G → Fin 5 → Nat → Lint L)
    (size : Nat) :
    let out := (suite5pc multPub).edaBitMp size k net
    shares5pc.Consistent out.net ∧ ∀ i, i < size →
      ArithSharing shares5pc k out.r i (edaTable5pc.dealtSum L k size net i) ∧
        BitSharing shares5pc k out.b_2 i (edaTable5pc.dealtSum L k size net i) := by
  intro out
  let g : RandomShares 5 L G := edaTable5pc.generateRandomShares k size net
  obtain ⟨hok₁,hadd₁⟩ := (replicated5pc multPub).bitAdd_shared size hk (fun _ _ _ => 0)
    (a := g.res_bitwise) (b := fun p s i => g.res_bitwise p s (size + i))
    (EdaTable.generateRandomShares_net (L := L) edaTable5pc_deals hnet k size)
  let first := (suite5pc multPub).bitAdd (fun _ _ _ => 0) g.res_bitwise
    (fun p s i => g.res_bitwise p s (size + i)) k size g.net
  obtain ⟨hok₂,hadd₂⟩ := (replicated5pc multPub).bitAdd_shared size hk first.1 (a := first.1)
    (b := fun p s i => g.res_bitwise p s (2*size + i)) hok₁
  refine ⟨hok₂,fun i hi => ?_⟩
  have hbits : ∀ d : Fin 5, d.val ≤ 2 → BitSharing shares5pc k g.res_bitwise (d.val*size + i)
      ((edaTable5pc.rBits k size net d i : Lint L).setWidth k) :=
    fun d hd => EdaTable.res_bitwise_isSharing table5pc_agrees edaTable5pc_deals hnet hi hd
  have h₀ := hbits 0 (by decide)
  have h₁ := hbits 1 (by decide)
  have h₂ := hbits 2 (by decide)
  rw [Fin.val_zero,Nat.zero_mul,Nat.zero_add] at h₀
  rw [Fin.val_one,Nat.one_mul] at h₁
  refine ⟨EdaTable.res_isSharing table5pc_agrees edaTable5pc_deals hk hnet i,?_⟩
  rw [dealtSum5pc]
  exact hadd₂ i hi _ _ (hadd₁ i hi _ _ h₀ h₁) h₂

/-- The two sharings that `Rss_edaBit_mp` gives agree at the holders of each share and
stand for the same number, the sum modulo `2^k` of the dealers' random words. -/
theorem edaBitMp_isSharing (hk : k ≤ 8*L) (size : Nat) {net : Net 5 G}
    (hnet : shares5pc.Consistent net)
    (multPub : Shares 5 (Lint L) → Shares 5 (Lint L) → Nat → Nat → Net 5 G → Fin 5 → Nat → Lint L) :
    ∀ i, i < size →
    let out := (suite5pc multPub).edaBitMp size k net
    ArithSharing shares5pc k out.r i (edaTable5pc.dealtSum L k size net i) ∧
      BitSharing shares5pc k out.b_2 i (edaTable5pc.dealtSum L k size net i) := by
  intro i hi
  exact (edaBitMp_element hk hnet multPub size).2 i hi

theorem edaBitMp_isSharing_bytes :
    let net : Net 5 Tape := fun _ _ => ⟨fun i => BitVec.ofNat 8 (3*i+1)⟩
    let out := (suite5pc (L := 4) fun _ _ _ _ _ _ _ => 0).edaBitMp 2 30 net
    (ArithSharing shares5pc 30 out.r 0 (3*168231937) ∧
      BitSharing shares5pc 30 out.b_2 0 (3*168231937)) ∧
      ArithSharing shares5pc 30 out.r 1 (3*370348045) ∧
        BitSharing shares5pc 30 out.b_2 1 (3*370348045) := by
  intro net out
  have hnet : shares5pc.Consistent net := fun _ _ _ _ _ _ _ => rfl
  have hsum : edaTable5pc.dealtSum 4 30 2 net 0 = 3*168231937 ∧
      edaTable5pc.dealtSum 4 30 2 net 1 = 3*370348045 := by decide
  rw [← hsum.1,← hsum.2]
  have hout := edaBitMp_isSharing (L := 4) (k := 30) (by decide) 2 hnet fun _ _ _ _ _ _ _ => 0
  exact ⟨hout 0 (by decide),hout 1 (by decide)⟩

end RssRing
