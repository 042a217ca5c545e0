import Mathlib.Data.List.GetD
import Mathlib.Data.Nat.Log
import Mathlib.Data.Nat.ModEq
import RssRing.Library.Carry
import RssRing.ProtocolsComposite.Suite
set_option autoImplicit false

namespace RssRing
open Replicated Carry

/-- The columns of `index_array` in round `i`: for each operation the position it
reads from below and the one it updates. -/
def circleIndex (r_size i : Nat) : List (Nat × Nat) :=
  let r_size_2 := 2^Nat.clog 2 r_size
  (List.range (r_size_2/2^i)).flatMap fun j =>
    let y := (2^(i-1) + (j+1)*2^i) % r_size_2
    (List.range (2^(i-1))).filterMap fun z =>
      if y % r_size_2 ≤ r_size ∧ (y + (z+1)) % (r_size_2+1) ≤ r_size then
        some (y % r_size_2 - 1,(y + (z+1)) % (r_size_2+1) - 1)
      else none

namespace Suite
variable {n L : Nat} {G : Type} (S : Suite n L G)

/-- `CarryBuffer2`: bits `2j` and `2j+1` of the first factors are `p` and `g` at the
lower position, those of the second factors both `p` at the upper one. -/
def carryBuffer2 (index : List (Nat × Nat)) (buffer d : Shares n (Lint L)) : Shares n (Lint L) :=
  fun q s i => (List.range index.length).foldl (fun x j =>
    let mask1p := (index.getD j (0,0)).1
    let mask2p := (index.getD j (0,0)).2
    if s < S.numShares then
      setBit (setBit x (2*j) (getBit (d q s i) mask1p)) (2*j+1)
        (getBit (d q (S.numShares + s) i) mask1p)
    else
      setBit (setBit x (2*j) (getBit (d q (s - S.numShares) i) mask2p)) (2*j+1)
        (getBit (d q (s - S.numShares) i) mask2p)) (buffer q s i)

/-- What the rounds of `CircleOpL` pass on. `d` holds the `p` words in the slots
from 0 on and the `g` words in those from `numShares` on. -/
structure CircleState (n L : Nat) (G : Type) where
  d : Shares n (Lint L)
  buffer : Shares n (Lint L)
  net : Net n G

def circleRound (r_size size i : Nat) (st : CircleState n L G) : CircleState n L G :=
  let index := circleIndex r_size i
  let op_r := index.length
  let n_uints := byteWidth (2*op_r)
  let buffer := S.carryBuffer2 index (if S.clearsBuffer then fun _ _ _ => 0 else st.buffer) st.d
  let u := S.multByte (toBytes n_uints buffer 0) (toBytes n_uints buffer S.numShares)
    (n_uints*size) st.net
  let d := fun q s l => (List.range op_r).foldl (fun x j =>
    let t_index := j/4 + l*n_uints
    let mask2 := (index.getD j (0,0)).2
    if s < S.numShares then
      setBit x mask2 (getBit ((u.1 q s t_index).setWidth (8*L)) (2*j%8))
    else
      setBit x mask2 (getBit ((u.1 q (s - S.numShares) t_index).setWidth (8*L)) ((2*j+1)%8) ^^^
        getBit x mask2)) (st.d q s l)
  ⟨d,buffer,u.2⟩

def circleOpL (d : Shares n (Lint L)) (r_size size : Nat) (net : Net n G) :
    Shares n (Lint L) × Net n G :=
  if 1 < r_size then
    let st := (List.range (Nat.clog 2 r_size)).foldl (fun st r => S.circleRound r_size size (r+1) st)
      ⟨d,fun _ _ _ => 0,net⟩
    (st.d,st.net)
  else (d,net)

def aiMask (p : Fin n) (s : Nat) : Lint L := if S.ai p s then BitVec.allOnes (8*L) else 0

def bitAdd (res a b : Shares n (Lint L)) (ring_size size : Nat) (net : Net n G) :
    Shares n (Lint L) × Net n G :=
  let m := S.multBitwise res a b size ring_size net
  let d := fun q s i =>
    if s < S.numShares then a q s i ^^^ b q s i else m.1 q (s - S.numShares) i
  let e := S.circleOpL d ring_size size m.2
  (fun q s i => (a q s i ^^^ b q s i) ^^^ (e.1 q (S.numShares + s) i <<< 1),e.2)

/-- `Rss_BitAdd` of a public word, of which every party has a copy, and a shared word. -/
def bitAddPublic (a : Fin n → Nat → Lint L) (b : Shares n (Lint L)) (ring_size size : Nat)
    (net : Net n G) : Shares n (Lint L) × Net n G :=
  let d := fun q s i =>
    if s < S.numShares then (a q i &&& S.aiMask q s) ^^^ b q s i
    else a q i &&& b q (s - S.numShares) i
  let e := S.circleOpL d ring_size size net
  (fun q s i => ((a q i &&& S.aiMask q s) ^^^ b q s i) ^^^ (e.1 q (S.numShares + s) i <<< 1),e.2)

end Suite

section Index
variable {r_size r : Nat}

theorem clog_split (hr : r < Nat.clog 2 r_size) :
    2^Nat.clog 2 r_size = 2^r*(2*2^(Nat.clog 2 r_size - (r+1))) := by
  rw [← Nat.pow_succ',← Nat.pow_add]
  congr 1
  omega

theorem circleStart_eq (hr : r < Nat.clog 2 r_size) (j : Nat) :
    (2^(r+1-1) + j*2^(r+1)) % 2^Nat.clog 2 r_size =
      2^r*(2*(j % 2^(Nat.clog 2 r_size - (r+1))) + 1) := by
  have hM := clog_split hr
  have hbpos : 0 < 2^(Nat.clog 2 r_size - (r+1)) := Nat.two_pow_pos _
  generalize 2^(Nat.clog 2 r_size - (r+1)) = b at *
  have hlt := Nat.mod_lt j hbpos
  have hsplit : 2^(r+1-1) + j*2^(r+1) = 2^r*(2*j+1) := by
    rw [Nat.add_sub_cancel,Nat.pow_succ]; ring
  have hwhole : 2*j + 1 = 2*(j%b) + 1 + 2*b*(j/b) := by
    nth_rewrite 1 [← Nat.div_add_mod j b]
    ring
  have hodd : (2*j+1)%(2*b) = 2*(j%b)+1 := by
    rw [hwhole,Nat.add_mul_mod_self_left,Nat.mod_eq_of_lt (by omega)]
  rw [hsplit,hM,Nat.mul_mod_mul_left,hodd]

theorem circleStart_le (hr : r < Nat.clog 2 r_size) (j : Nat) :
    2^r*(2*(j % 2^(Nat.clog 2 r_size - (r+1))) + 1) + 2^r ≤ 2^Nat.clog 2 r_size := by
  have hlt := Nat.mod_lt j (Nat.two_pow_pos (Nat.clog 2 r_size - (r+1)))
  rw [clog_split hr,← Nat.mul_succ]
  exact Nat.mul_le_mul_left _ (by omega)

theorem circleIndex_eq (hr : r < Nat.clog 2 r_size) :
    circleIndex r_size (r+1) =
      (List.range (2^(Nat.clog 2 r_size - (r+1)))).flatMap fun j =>
        (List.range (2^r)).filterMap fun z =>
          let m := 2*((j+1) % 2^(Nat.clog 2 r_size - (r+1))) + 1
          if 2^r*m + z < r_size then some (2^r*m - 1,2^r*m + z) else none := by
  have hpos : 0 < 2^r := Nat.two_pow_pos r
  have hcount : 2^Nat.clog 2 r_size/2^(r+1) = 2^(Nat.clog 2 r_size - (r+1)) := by
    rw [clog_split hr,Nat.pow_succ,← Nat.mul_assoc]
    exact Nat.mul_div_cancel_left _ (by omega)
  rw [circleIndex,hcount]
  apply List.flatMap_congr
  intro j _
  have htop := circleStart_le hr (j+1)
  rw [circleStart_eq hr (j+1)]
  generalize 2*((j+1) % 2^(Nat.clog 2 r_size - (r+1))) + 1 = m at *
  apply List.filterMap_congr
  intro z hz
  have hz : z < 2^r := by simpa using hz
  have hself : 2^r*m % 2^Nat.clog 2 r_size = 2^r*m := Nat.mod_eq_of_lt (by omega)
  have hnext : (2^r*m + (z+1)) % (2^Nat.clog 2 r_size + 1) = 2^r*m + (z+1) :=
    Nat.mod_eq_of_lt (by omega)
  simp only [hself,hnext]
  have hiff : (2^r*m ≤ r_size ∧ 2^r*m + (z+1) ≤ r_size) ↔ 2^r*m + z < r_size := by
    omega
  simp only [hiff]
  rfl

theorem offset_div {h m z : Nat} (hz : z < h) : (h*m + z)/h = m := by
  rw [Nat.mul_add_div (by omega),Nat.div_eq_of_lt hz,Nat.add_zero]

theorem mem_circleIndex (hr : r < Nat.clog 2 r_size) (e : Nat × Nat) :
    e ∈ circleIndex r_size (r+1) ↔
      e.2 < r_size ∧ e.2/2^r % 2 = 1 ∧ e.1 = e.2/2^r*2^r - 1 := by
  have hpos : 0 < 2^r := Nat.two_pow_pos r
  obtain ⟨s,x⟩ := e
  rw [circleIndex_eq hr]
  simp only [List.mem_flatMap,List.mem_range,List.mem_filterMap]
  constructor
  · rintro ⟨j,_,z,hz,h⟩
    split at h
    · rename_i hlt
      obtain ⟨rfl,rfl⟩ := Prod.mk.inj (Option.some.inj h)
      rw [offset_div hz]
      exact ⟨hlt,by omega,by rw [Nat.mul_comm]⟩
    · cases h
  · rintro ⟨hx,hodd,hs⟩
    have hle := Nat.le_pow_clog (b := 2) (by decide) r_size
    rw [clog_split hr] at hle
    generalize hb : 2^(Nat.clog 2 r_size - (r+1)) = b at *
    have hbpos : 0 < b := by rw [← hb]; exact Nat.two_pow_pos _
    have hblock : x/2^r/2 < b := by
      have : x/2^r < 2*b := Nat.div_lt_of_lt_mul (by omega)
      omega
    have hturn : (x/2^r/2 + (b-1))%b + 1 ≡ x/2^r/2 [MOD b] := by
      have hstep : (x/2^r/2 + (b-1))%b + 1 ≡ x/2^r/2 + (b-1) + 1 [MOD b] :=
        (Nat.mod_modEq _ _).add_right 1
      have hfull : x/2^r/2 + (b-1) + 1 = x/2^r/2 + b := by omega
      rw [hfull] at hstep
      exact hstep.trans (Nat.add_modEq_right)
    have hm : ((x/2^r/2 + (b-1))%b + 1)%b = x/2^r/2 := by
      rw [hturn,Nat.mod_eq_of_lt hblock]
    refine ⟨(x/2^r/2 + (b-1))%b,Nat.mod_lt _ hbpos,x%2^r,Nat.mod_lt _ hpos,?_⟩
    have hhalf : 2*(x/2^r/2) + 1 = x/2^r := by omega
    have hback : 2^r*(x/2^r) + x%2^r = x := Nat.div_add_mod x (2^r)
    simp only [hm,hhalf,hback,if_pos hx,hs,Nat.mul_comm]

theorem nodup_circleIndex (hr : r < Nat.clog 2 r_size) :
    ((circleIndex r_size (r+1)).map Prod.snd).Nodup := by
  rw [circleIndex_eq hr,List.map_flatMap,List.nodup_flatMap]
  generalize hb : 2^(Nat.clog 2 r_size - (r+1)) = b
  constructor
  · intro j _
    rw [List.map_filterMap]
    refine List.nodup_range.filterMap ?_
    intro z z' x hz hz'
    simp only [Option.mem_def,Option.map_eq_some_iff] at hz hz'
    obtain ⟨e,he,rfl⟩ := hz
    obtain ⟨e',he',heq⟩ := hz'
    split at he <;> split at he'
    · cases he; cases he'
      simp only at heq
      omega
    all_goals simp_all
  · refine List.nodup_range.pairwise_of_forall_ne ?_
    intro j hj j' hj' hne x hx hx'
    simp only [List.mem_map,List.mem_filterMap,List.mem_range] at hx hx' hj hj'
    obtain ⟨e,⟨z,hz,he⟩,rfl⟩ := hx
    obtain ⟨e',⟨z',hz',he'⟩,heq⟩ := hx'
    split at he <;> split at he'
    · cases he; cases he'
      simp only at heq
      have hblock := congrArg (fun x => x/2^r) heq
      simp only [offset_div hz,offset_div hz'] at hblock
      have hmod : (j'+1)%b = (j+1)%b := by omega
      have hsame : j' ≡ j [MOD b] := Nat.ModEq.add_right_cancel' 1 hmod
      rw [Nat.ModEq,Nat.mod_eq_of_lt hj',Nat.mod_eq_of_lt hj] at hsame
      exact hne hsame.symm
    all_goals simp_all

theorem length_circleIndex (hr : r < Nat.clog 2 r_size) :
    2*(circleIndex r_size (r+1)).length ≤ r_size := by
  have hpos : 0 < 2^r := Nat.two_pow_pos r
  let upper := (Finset.range r_size).filter fun x => x/2^r % 2 = 1
  let lower := (Finset.range r_size).filter fun x => ¬ x/2^r % 2 = 1
  have hlen : (circleIndex r_size (r+1)).length ≤ upper.card := by
    rw [← List.length_map Prod.snd,← List.toFinset_card_of_nodup (nodup_circleIndex hr)]
    apply Finset.card_le_card
    intro x hx
    obtain ⟨e,he,rfl⟩ := List.mem_map.mp (List.mem_toFinset.mp hx)
    obtain ⟨hlt,hodd,_⟩ := (mem_circleIndex hr e).mp he
    exact Finset.mem_filter.mpr ⟨Finset.mem_range.mpr hlt,hodd⟩
  have hge : ∀ x ∈ upper, 2^r ≤ x := by
    intro x hx
    by_contra hlt
    have hzero : x/2^r = 0 := Nat.div_eq_of_lt (by omega)
    have := (Finset.mem_filter.mp hx).2
    omega
  have hdown : upper.card ≤ lower.card := by
    refine Finset.card_le_card_of_injOn (fun x => x - 2^r) ?_ ?_
    · intro x hx
      have hle := hge x hx
      obtain ⟨hlt,hodd⟩ := Finset.mem_filter.mp hx
      have hlt := Finset.mem_range.mp hlt
      have hstep : x/2^r = (x - 2^r)/2^r + 1 := by
        rw [← Nat.add_div_right _ hpos,Nat.sub_add_cancel hle]
      have heven : ¬ (x - 2^r)/2^r % 2 = 1 := by omega
      exact Finset.mem_filter.mpr ⟨Finset.mem_range.mpr (Nat.lt_of_le_of_lt (Nat.sub_le x _) hlt),heven⟩
    · intro x hx x' hx' heq
      have hle := hge x hx
      have hle' := hge x' hx'
      simp only at heq
      omega
  have hall : upper.card + lower.card = r_size := by
    rw [Finset.card_filter_add_card_filter_not,Finset.card_range]
  omega

end Index

namespace Discipline
variable {n L : Nat} {G : Type} {S : Suite n L G} (D : Discipline S)

/-- The words of element `i` hold the blocks `f` in their `r` low positions. -/
def Cells (r : Nat) (d : Shares n (Lint L)) (i : Nat) (f : Nat → Carry.Block) : Prop :=
  ∀ x, x < r → D.Shared (fun q s => (d q s i).getLsbD x) (f x).p ∧
    D.Shared (fun q s => (d q (S.numShares + s) i).getLsbD x) (f x).g

end Discipline

namespace Suite
variable {n L : Nat} {G : Type} (S : Suite n L G)

theorem getLsbD_aiMask (p : Fin n) (s : Nat) {j : Nat} (hj : j < 8*L) :
    (S.aiMask p s : Lint L).getLsbD j = S.ai p s := by
  cases h : S.ai p s with
  | false => simp [aiMask,h]
  | true => simp [aiMask,h,hj,-BitVec.getLsbD_eq_getElem]

structure Gathered (index : List (Nat × Nat)) (d a b : Shares n (Lint L)) (l : Nat) : Prop where
  lower : ∀ q s j, s < S.numShares → j < index.length →
    (a q s l).getLsbD (2*j) = (d q s l).getLsbD (index.getD j (0,0)).1 ∧
      (a q s l).getLsbD (2*j+1) = (d q (S.numShares + s) l).getLsbD (index.getD j (0,0)).1
  upper : ∀ q s j, s < S.numShares → j < index.length →
    (b q s l).getLsbD (2*j) = (d q s l).getLsbD (index.getD j (0,0)).2 ∧
      (b q s l).getLsbD (2*j+1) = (d q s l).getLsbD (index.getD j (0,0)).2

theorem carryBuffer2_gathered (index : List (Nat × Nat)) (buffer d : Shares n (Lint L)) (l : Nat)
    (hL : 2*index.length ≤ 8*L) :
    S.Gathered index d (S.carryBuffer2 index buffer d)
      (fun q s => S.carryBuffer2 index buffer d q (S.numShares + s)) l := by
  constructor <;> intro q s j hs hj
  · simp only [carryBuffer2,hs,if_true,getBit_eq]
    exact getLsbD_foldl_pair _ _ _ hL hj
  · have hge : ¬ S.numShares + s < S.numShares := by omega
    simp only [carryBuffer2,hge,Nat.add_sub_cancel_left,if_false,getBit_eq]
    exact getLsbD_foldl_pair _ _ _ hL hj

/-- What a round makes of the words `d` of element `l` with the bits `c` that come back from
its multiplication. -/
structure Placed (index : List (Nat × Nat)) (c : Fin n → Nat → Nat → Bool)
    (d d' : Shares n (Lint L)) (l : Nat) : Prop where
  set : ∀ q s j, s < S.numShares → j < index.length →
    (d' q s l).getLsbD (index.getD j (0,0)).2 = c q s (2*j) ∧
      (d' q (S.numShares + s) l).getLsbD (index.getD j (0,0)).2 =
        (c q s (2*j+1) ^^ (d q (S.numShares + s) l).getLsbD (index.getD j (0,0)).2)
  keep : ∀ q s x, s < S.numShares → x < 8*L →
    (∀ j, j < index.length → (index.getD j (0,0)).2 ≠ x) →
    (d' q s l).getLsbD x = (d q s l).getLsbD x ∧
      (d' q (S.numShares + s) l).getLsbD x = (d q (S.numShares + s) l).getLsbD x

section
variable (r_size size i : Nat) (st : CircleState n L G)

def circleProducts : Shares n Byte :=
  let index := circleIndex r_size i
  let n_uints := byteWidth (2*index.length)
  let buffer := S.carryBuffer2 index (if S.clearsBuffer then fun _ _ _ => 0 else st.buffer) st.d
  (S.multByte (toBytes n_uints buffer 0) (toBytes n_uints buffer S.numShares)
    (n_uints*size) st.net).1

def circleProduct (q : Fin n) (s l t : Nat) : Bool :=
  (S.circleProducts r_size size i st q s (t/8 + l*byteWidth (2*(circleIndex r_size i).length))).getLsbD
    (t%8)

end

variable {r_size r : Nat}

theorem map_index (hr : r < Nat.clog 2 r_size) :
    ((List.range (circleIndex r_size (r+1)).length).map fun j =>
      ((circleIndex r_size (r+1)).getD j (0,0)).2).Nodup := by
  have hmap : (List.range (circleIndex r_size (r+1)).length).map (fun j =>
      ((circleIndex r_size (r+1)).getD j (0,0)).2) = (circleIndex r_size (r+1)).map Prod.snd := by
    apply List.ext_getElem
    · simp
    · intro j hj _
      simp at hj
      simp [hj]
  rw [hmap]
  exact nodup_circleIndex hr

theorem getD_index_lt (hr : r < Nat.clog 2 r_size) {j : Nat}
    (hj : j < (circleIndex r_size (r+1)).length) :
    ((circleIndex r_size (r+1)).getD j (0,0)).2 < r_size := by
  have hmem : (circleIndex r_size (r+1)).getD j (0,0) ∈ circleIndex r_size (r+1) := by
    rw [List.getD_eq_getElem _ _ hj]
    exact List.getElem_mem hj
  exact ((mem_circleIndex hr _).mp hmem).1

theorem placed_foldl (hL : r_size ≤ 8*L) (hr : r < Nat.clog 2 r_size)
    (c : Fin n → Nat → Nat → Bool) {d d' : Shares n (Lint L)} {l : Nat}
    (hp : ∀ q s, s < S.numShares → d' q s l =
      (List.range (circleIndex r_size (r+1)).length).foldl (fun Y j =>
        setBit Y ((circleIndex r_size (r+1)).getD j (0,0)).2 (bitWord L (c q s (2*j)))) (d q s l))
    (hg : ∀ q s, s < S.numShares → d' q (S.numShares + s) l =
      (List.range (circleIndex r_size (r+1)).length).foldl (fun Y j =>
        setBit Y ((circleIndex r_size (r+1)).getD j (0,0)).2 (bitWord L (c q s (2*j+1) ^^
          Y.getLsbD ((circleIndex r_size (r+1)).getD j (0,0)).2))) (d q (S.numShares + s) l)) :
    S.Placed (circleIndex r_size (r+1)) c d d' l := by
  have hfold : ∀ (f : Nat → Bool → Bool) X x, x < 8*L → _ := fun f X x hx =>
    getLsbD_foldl_setBit (L := L) (List.range (circleIndex r_size (r+1)).length)
      (fun j => ((circleIndex r_size (r+1)).getD j (0,0)).2) f (map_index hr) X x hx
  simp only [List.mem_range] at hfold
  constructor
  · intro q s j hs hj
    have hlt := getD_index_lt hr hj
    rw [hp q s hs,hg q s hs]
    exact ⟨(hfold (fun j _ => c q s (2*j)) _ _ (by omega)).1 j hj rfl,
      (hfold (fun j b => c q s (2*j+1) ^^ b) _ _ (by omega)).1 j hj rfl⟩
  · intro q s x hs hx hne
    rw [hp q s hs,hg q s hs]
    exact ⟨(hfold (fun j _ => c q s (2*j)) _ _ hx).2 hne,
      (hfold (fun j b => c q s (2*j+1) ^^ b) _ _ hx).2 hne⟩

theorem circleRound_placed (hL : r_size ≤ 8*L) (hr : r < Nat.clog 2 r_size) (size : Nat)
    (st : CircleState n L G) (l : Nat) :
    S.Placed (circleIndex r_size (r+1))
      (fun q s t => S.circleProduct r_size size (r+1) st q s l t) st.d
      (S.circleRound r_size size (r+1) st).d l := by
  refine S.placed_foldl hL hr _ (fun q s hs => ?_) fun q s hs => ?_
  · have hfour : ∀ j, 2*j/8 = j/4 := fun j => by omega
    simp only [circleRound,hs,if_true,getBit_byte,circleProduct,hfour]
    rfl
  · have hge : ¬ S.numShares + s < S.numShares := by omega
    have hfour : ∀ j, (2*j+1)/8 = j/4 := fun j => by omega
    simp only [circleRound,hge,Nat.add_sub_cancel_left,if_false,getBit_byte,circleProduct,hfour]
    simp only [getBit_eq,bitWord_xor]
    rfl

end Suite

namespace Discipline
variable {n L : Nat} {G : Type} {S : Suite n L G} (D : Discipline S) {r_size r size : Nat}

theorem cells_round (hL : r_size ≤ 8*L) (hr : r < Nat.clog 2 r_size) {l : Nat}
    {d d' a b : Shares n (Lint L)} {c : Fin n → Nat → Nat → Bool}
    (hgather : S.Gathered (circleIndex r_size (r+1)) d a b l)
    (hplaced : S.Placed (circleIndex r_size (r+1)) c d d' l)
    (hmult : ∀ t v w, t < 2*(circleIndex r_size (r+1)).length →
      D.Shared (fun q s => (a q s l).getLsbD t) v → D.Shared (fun q s => (b q s l).getLsbD t) w →
      D.Shared (fun q s => c q s t) (v && w))
    {f : Nat → Carry.Block} (hd : D.Cells r_size d l (prefixBlock f r)) :
    D.Cells r_size d' l (prefixBlock f (r+1)) := by
  intro x hx
  have hx8 : x < 8*L := by omega
  rcases Nat.mod_two_eq_zero_or_one (x/2^r) with hhalf | hhalf
  · have hne : ∀ j, j < (circleIndex r_size (r+1)).length →
        ((circleIndex r_size (r+1)).getD j (0,0)).2 ≠ x := by
      intro j hj heq
      have hmem : (circleIndex r_size (r+1)).getD j (0,0) ∈ circleIndex r_size (r+1) := by
        rw [List.getD_eq_getElem _ _ hj]; exact List.getElem_mem hj
      have := ((mem_circleIndex hr _).mp hmem).2.1
      rw [heq] at this
      omega
    rw [prefixBlock_even f hhalf]
    obtain ⟨hp,hg⟩ := hd x hx
    exact ⟨D.congr hp fun q s hs => (hplaced.keep q s x hs hx8 hne).1,
      D.congr hg fun q s hs => (hplaced.keep q s x hs hx8 hne).2⟩
  · have hmem : (x/2^r*2^r - 1,x) ∈ circleIndex r_size (r+1) :=
      (mem_circleIndex hr _).mpr ⟨hx,hhalf,rfl⟩
    obtain ⟨j,hj,hget⟩ := List.getElem_of_mem hmem
    have hget : (circleIndex r_size (r+1)).getD j (0,0) = (x/2^r*2^r - 1,x) := by
      rw [List.getD_eq_getElem _ _ hj,hget]
    have hle : x/2^r*2^r ≤ x := Nat.div_mul_le_self x (2^r)
    obtain ⟨hp,hg⟩ := hd x hx
    obtain ⟨hpl,hgl⟩ := hd (x/2^r*2^r - 1) (by omega)
    have hset := fun q s hs => hplaced.set q s j hs hj
    have hlower := fun q s hs => hgather.lower q s j hs hj
    have hupper := fun q s hs => hgather.upper q s j hs hj
    simp only [hget] at hset hlower hupper
    have hpp := hmult (2*j) _ _ (by omega) (D.congr hpl fun q s hs => (hlower q s hs).1)
      (D.congr hp fun q s hs => (hupper q s hs).1)
    have hgp := hmult (2*j+1) _ _ (by omega) (D.congr hgl fun q s hs => (hlower q s hs).2)
      (D.congr hp fun q s hs => (hupper q s hs).2)
    rw [← prefixBlock_odd f hhalf]
    exact ⟨D.congr hpp fun q s hs => (hset q s hs).1,
      D.congr (D.xor hgp hg) fun q s hs => (hset q s hs).2⟩

theorem circleRound_cells (hL : r_size ≤ 8*L) (hr : r < Nat.clog 2 r_size)
    {st : Suite.CircleState n L G} (hnet : D.NetOk st.net) {l : Nat} (hl : l < size)
    {f : Nat → Carry.Block} (hd : D.Cells r_size st.d l (prefixBlock f r)) :
    D.Cells r_size (S.circleRound r_size size (r+1) st).d l (prefixBlock f (r+1)) := by
  have hlen : 2*(circleIndex r_size (r+1)).length ≤ r_size := length_circleIndex hr
  have hbytes : 2*(circleIndex r_size (r+1)).length ≤
      8*byteWidth (2*(circleIndex r_size (r+1)).length) := le_byteWidth _
  refine D.cells_round hL hr (S.carryBuffer2_gathered _
    (if S.clearsBuffer then fun _ _ _ => 0 else st.buffer) st.d l (by omega))
    (S.circleRound_placed hL hr size st l) (fun t v w ht hv hw => ?_) hd
  refine D.byteWords _ 0 S.numShares hnet hl (by omega) ?_ hw
  simpa only [Nat.zero_add] using hv

theorem circleRound_net (size i : Nat) {st : Suite.CircleState n L G} (hnet : D.NetOk st.net) :
    D.NetOk (S.circleRound r_size size i st).net :=
  D.byteNet _ _ _ hnet

theorem cells_rounds {St : Type} (d : St → Shares n (Lint L)) (net : St → Net n G)
    (round : Nat → St → St) (hok : ∀ r st, D.NetOk (net st) → D.NetOk (net (round r st)))
    (hcells : ∀ r st, r < Nat.clog 2 r_size → D.NetOk (net st) → ∀ l, l < size → ∀ f,
      D.Cells r_size (d st) l (prefixBlock f r) →
      D.Cells r_size (d (round r st)) l (prefixBlock f (r+1)))
    (st : St) (hst : D.NetOk (net st)) :
    let st' := (List.range (Nat.clog 2 r_size)).foldl (fun st r => round r st) st
    D.NetOk (net st') ∧ ∀ l, l < size → ∀ f, D.Cells r_size (d st) l f →
      D.Cells r_size (d st') l fun x => blocks f 0 (x+1) := by
  have hrun : ∀ m, m ≤ Nat.clog 2 r_size →
      let st' := (List.range m).foldl (fun st r => round r st) st
      D.NetOk (net st') ∧ ∀ l, l < size → ∀ f, D.Cells r_size (d st) l f →
        D.Cells r_size (d st') l (prefixBlock f m) := by
    intro m
    induction m with
    | zero =>
      intro _
      refine ⟨hst,fun l _ f hd => ?_⟩
      have hzero : prefixBlock f 0 = f := funext fun x => prefixBlock_zero f x
      rw [hzero]
      exact hd
    | succ m ih =>
      intro hm
      obtain ⟨hnet,hd⟩ := ih (by omega)
      simp only [List.range_succ,List.foldl_append,List.foldl_cons,List.foldl_nil]
      exact ⟨hok m _ hnet,fun l hl f h => hcells m _ (by omega) hnet l hl f (hd l hl f h)⟩
  obtain ⟨hnet,hd⟩ := hrun _ (Nat.le_refl _)
  refine ⟨hnet,fun l hl f h x hx => ?_⟩
  have hpow : x < 2^Nat.clog 2 r_size :=
    Nat.lt_of_lt_of_le hx (Nat.le_pow_clog (by decide) r_size)
  have hcell := hd l hl f h x hx
  rwa [prefixBlock_all f hpow] at hcell

theorem cells_single (hone : ¬ 1 < r_size) {d : Shares n (Lint L)} {l : Nat}
    {f : Nat → Carry.Block} (hd : D.Cells r_size d l f) :
    D.Cells r_size d l fun x => blocks f 0 (x+1) := by
  intro x hx
  have hx0 : x = 0 := by omega
  subst hx0
  simpa only [Nat.zero_add,blocks_one] using hd 0 hx

/-- All rounds: position `x` ends up with the block of the positions up to `x`. -/
theorem circleOpL_cells (size : Nat) (hL : r_size ≤ 8*L) {d : Shares n (Lint L)} {net : Net n G}
    (hnet : D.NetOk net) : D.NetOk (S.circleOpL d r_size size net).2 ∧
      ∀ l, l < size → ∀ f, D.Cells r_size d l f →
        D.Cells r_size (S.circleOpL d r_size size net).1 l fun x => blocks f 0 (x+1) := by
  by_cases hone : 1 < r_size
  · rw [Suite.circleOpL,if_pos hone]
    exact D.cells_rounds Suite.CircleState.d Suite.CircleState.net
      (fun r st => S.circleRound r_size size (r+1) st) (fun r st h => D.circleRound_net size (r+1) h)
      (fun r st hr h l hl f hd => D.circleRound_cells hL hr h hl hd) ⟨d,fun _ _ _ => 0,net⟩ hnet
  · rw [Suite.circleOpL,if_neg hone]
    exact ⟨hnet,fun l _ f hd => D.cells_single hone hd⟩

/-- From the propagate and generate words of an addition the rounds make its carries, and
with the propagate words `t` these give the sum. -/
theorem sum_shared {k : Nat} (size : Nat) (hL : k ≤ 8*L) {d : Shares n (Lint L)} {net : Net n G}
    (hnet : D.NetOk net) {i : Nat} (hi : i < size) {x y : BitVec k}
    (hd : D.Cells k d i (adder x y false)) {j : Nat} (hj : j < k) :
    D.Shared (fun q s => ((S.circleOpL d k size net).1 q (S.numShares + s) i).getLsbD j)
        (BitVec.carry (j+1) x y false) ∧
      ∀ t : Fin n → Nat → Lint L,
        (∀ q s, s < S.numShares → (t q s).getLsbD j = (d q s i).getLsbD j) →
        D.Shared (fun q s =>
          (t q s ^^^ ((S.circleOpL d k size net).1 q (S.numShares + s) i <<< 1)).getLsbD j)
          ((x + y).getLsbD j) := by
  have hcells := (D.circleOpL_cells size hL hnet).2 i hi _ hd
  refine ⟨?_,fun t ht => ?_⟩
  · rw [← blocks_adder]
    exact (hcells j hj).2
  · have hxor : D.Shared (fun q s => (t q s).getLsbD j) (x.getLsbD j ^^ y.getLsbD j) :=
      D.congr (hd j hj).1 ht
    have hj8 : j < 8*L := by omega
    rw [getLsbD_add_blocks x y hj]
    cases j with
    | zero =>
      rw [decide_eq_false (Nat.lt_irrefl 0),Bool.false_and,Bool.xor_false]
      exact D.congr hxor fun q s _ => by simp [-BitVec.getLsbD_eq_getElem]
    | succ j =>
      have hcarry := (hcells j (by omega)).2
      rw [decide_eq_true (Nat.succ_pos j),Bool.true_and]
      refine D.congr (D.xor hxor hcarry) fun q s _ => ?_
      simp only [BitVec.getLsbD_xor,BitVec.getLsbD_shiftLeft,hj8]
      simp only [decide_true,Bool.true_and,Nat.add_sub_cancel]
      rw [decide_eq_false (by omega : ¬ j+1 < 1)]
      rfl

theorem bitAdd_cells {k : Nat} (size : Nat) (res : Shares n (Lint L)) {a b : Shares n (Lint L)}
    {net : Net n G} (hnet : D.NetOk net) {i : Nat} (hi : i < size) {x y : BitVec k}
    (ha : ∀ j, j < k → D.Shared (fun q s => (a q s i).getLsbD j) (x.getLsbD j))
    (hb : ∀ j, j < k → D.Shared (fun q s => (b q s i).getLsbD j) (y.getLsbD j)) :
    D.Cells k (fun q s i => if s < S.numShares then a q s i ^^^ b q s i
      else (S.multBitwise res a b size k net).1 q (s - S.numShares) i) i (adder x y false) := by
  intro j hj
  constructor
  · exact D.congr (D.xor (ha j hj) (hb j hj)) fun q s hs => by
      simp only [hs,if_true,BitVec.getLsbD_xor]
  · have hge : ∀ s, ¬ S.numShares + s < S.numShares := fun s => by omega
    have hg : (adder x y false j).g = (x.getLsbD j && y.getLsbD j) := by simp [adder]
    rw [hg]
    refine D.congr (D.bitwiseBit res a b hnet hi hj (ha j hj) (hb j hj)) fun q s _ => ?_
    simp only [hge,if_false,Nat.add_sub_cancel_left]

theorem bitAdd_shared {k : Nat} (size : Nat) (hL : k ≤ 8*L) (res : Shares n (Lint L))
    {a b : Shares n (Lint L)} {net : Net n G} (hnet : D.NetOk net) :
    D.NetOk (S.bitAdd res a b k size net).2 ∧ ∀ i, i < size → ∀ x y : BitVec k,
      (∀ j, j < k → D.Shared (fun q s => (a q s i).getLsbD j) (x.getLsbD j)) →
      (∀ j, j < k → D.Shared (fun q s => (b q s i).getLsbD j) (y.getLsbD j)) →
      ∀ j, j < k → D.Shared (fun q s => ((S.bitAdd res a b k size net).1 q s i).getLsbD j)
        ((x + y).getLsbD j) := by
  have hmult := D.bitwiseNet res a b size k hnet
  refine ⟨(D.circleOpL_cells size hL hmult).1,fun i hi x y ha hb j hj => ?_⟩
  refine (D.sum_shared size hL hmult hi (D.bitAdd_cells size res hnet hi ha hb) hj).2
    (fun q s => a q s i ^^^ b q s i) fun q s hs => ?_
  rw [if_pos hs]

theorem bitAddPublic_shared {k : Nat} (size : Nat) (hL : k ≤ 8*L)
    (hpub : ∀ c, D.Shared (fun q s => c && S.ai q s) c) {a : Fin n → Nat → Lint L}
    {b : Shares n (Lint L)} {net : Net n G} (hnet : D.NetOk net) :
    D.NetOk (S.bitAddPublic a b k size net).2 ∧ ∀ i, i < size → ∀ x y : BitVec k,
      (∀ q j, j < k → (a q i).getLsbD j = x.getLsbD j) →
      (∀ j, j < k → D.Shared (fun q s => (b q s i).getLsbD j) (y.getLsbD j)) →
      ∀ j, j < k → D.Shared (fun q s => ((S.bitAddPublic a b k size net).1 q s i).getLsbD j)
        ((x + y).getLsbD j) := by
  refine ⟨(D.circleOpL_cells size hL hnet).1,fun i hi x y ha hb j hj => ?_⟩
  have hcells : D.Cells k (fun q s i => if s < S.numShares then (a q i &&& S.aiMask q s) ^^^ b q s i
      else a q i &&& b q (s - S.numShares) i) i (adder x y false) := by
    intro j hj
    have hj8 : j < 8*L := by omega
    constructor
    · refine D.congr (D.xor (hpub (x.getLsbD j)) (hb j hj)) fun q s hs => ?_
      simp only [hs,if_true,BitVec.getLsbD_xor,BitVec.getLsbD_and,ha q j hj,S.getLsbD_aiMask q s hj8]
    · have hge : ∀ s, ¬ S.numShares + s < S.numShares := fun s => by omega
      have hg : (adder x y false j).g = (x.getLsbD j && y.getLsbD j) := by simp [adder]
      rw [hg]
      refine D.congr (D.and_public (hb j hj) (x.getLsbD j)) fun q s _ => ?_
      simp only [hge,if_false,Nat.add_sub_cancel_left,BitVec.getLsbD_and,ha q j hj]
  refine (D.sum_shared size hL hnet hi hcells hj).2
    (fun q s => (a q i &&& S.aiMask q s) ^^^ b q s i) fun q s hs => ?_
  rw [if_pos hs]

end Discipline
end RssRing
