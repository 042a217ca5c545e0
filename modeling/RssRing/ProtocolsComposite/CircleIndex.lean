import RssRing.ProtocolsComposite.CircleLint
set_option autoImplicit false

namespace RssRing
open Replicated Carry

structure IndexArray where
  source : Nat → Nat
  target : Nat → Nat
  op_r : Nat

namespace IndexArray

/-- Turn `z` of the inner loop. There is no result where `op_r` is past the end of the rows or
where a subtraction of 1 would wrap around in `uint`. -/
def turn (r_size r_size_2 y : Nat) (index : IndexArray) (z : Nat) : Option IndexArray :=
  let below := y % r_size_2
  let next := (y + z) % (r_size_2 + 1)
  if below ≤ r_size ∧ next ≤ r_size then
    if index.op_r < r_size_2 ∧ 0 < below ∧ 0 < next then
      some {
        source := Function.update index.source index.op_r (below - 1)
        target := Function.update index.target index.op_r (next - 1)
        op_r := index.op_r + 1 }
    else none
  else some index

def round (r_size i : Nat) (old : IndexArray) : Option IndexArray :=
  let r_size_2 := 2^Nat.clog 2 r_size
  (List.range' 1 ((r_size_2 + 2^i - 1)/2^i)).foldlM (fun index j =>
    let y := (2^(i-1) + j*2^i) % r_size_2
    (List.range' 1 (2^(i-1))).foldlM (turn r_size r_size_2 y) index) { old with op_r := 0 }

/-- A round on bits in the clear: all products are taken from `d`, then put in place pair by
pair. -/
def apply (index : IndexArray) (d : Nat → Carry.Block) : Nat → Carry.Block :=
  (List.range index.op_r).foldl (fun d' j => Function.update d' (index.target j)
    ⟨(d (index.source j)).p && (d (index.target j)).p,
      ((d (index.source j)).g && (d (index.target j)).p) ^^ (d' (index.target j)).g⟩) d

def rounds (r_size : Nat) (old : IndexArray) (d : Nat → Carry.Block) :
    Option (IndexArray × (Nat → Carry.Block)) :=
  (List.range' 1 (Nat.clog 2 r_size)).foldlM (fun st i =>
    (round r_size i st.1).map fun index => (index,index.apply st.2)) (old,d)

structure Lists (index : IndexArray) (pairs : List (Nat × Nat)) : Prop where
  length : index.op_r = pairs.length
  get : ∀ j, j < pairs.length → (index.source j,index.target j) = pairs.getD j (0,0)

def pair (r_size r_size_2 y z : Nat) : Option (Nat × Nat) :=
  if y % r_size_2 ≤ r_size ∧ (y + z) % (r_size_2 + 1) ≤ r_size then
    some (y % r_size_2 - 1,(y + z) % (r_size_2 + 1) - 1)
  else none

theorem lists_push {index : IndexArray} {pairs : List (Nat × Nat)} (h : index.Lists pairs)
    (s t : Nat) :
    Lists {
      source := Function.update index.source index.op_r s
      target := Function.update index.target index.op_r t
      op_r := index.op_r + 1 } (pairs ++ [(s,t)]) := by
  constructor
  · rw [List.length_append,h.length]
    rfl
  · intro j hj
    rw [List.length_append,List.length_singleton] at hj
    rcases Nat.lt_succ_iff_lt_or_eq.mp hj with hj | rfl
    · have hne : j ≠ index.op_r := by rw [h.length]; omega
      rw [List.getD_append _ _ _ _ hj,← h.get j hj]
      simp only [Function.update_of_ne hne]
    · simp [h.length]

theorem turn_lists {r_size r_size_2 y z : Nat} {index : IndexArray} {pairs : List (Nat × Nat)}
    (h : index.Lists pairs) (hy : 0 < y) (hz : y + z ≤ r_size_2) (hbelow : y < r_size_2)
    (hroom : (pairs ++ (pair r_size r_size_2 y z).toList).length ≤ r_size_2) :
    ∃ index', turn r_size r_size_2 y index z = some index' ∧
      index'.Lists (pairs ++ (pair r_size r_size_2 y z).toList) := by
  have hself : y % r_size_2 = y := Nat.mod_eq_of_lt hbelow
  have hnext : (y + z) % (r_size_2 + 1) = y + z := Nat.mod_eq_of_lt (by omega)
  simp only [turn,pair,hself,hnext] at hroom ⊢
  by_cases hin : y ≤ r_size ∧ y + z ≤ r_size
  · rw [if_pos hin] at hroom ⊢
    have hplace : index.op_r < r_size_2 := by
      rw [h.length]
      simpa using hroom
    rw [if_pos hin,if_pos ⟨hplace,hy,by omega⟩]
    exact ⟨_,rfl,lists_push h _ _⟩
  · rw [if_neg hin,if_neg hin]
    exact ⟨index,rfl,by simpa using h⟩

section
variable {k r : Nat}

theorem circleIndex_turns (hr : r < Nat.clog 2 k) : circleIndex k (r+1) =
    (List.range' 1 ((2^Nat.clog 2 k + 2^(r+1) - 1)/2^(r+1))).flatMap fun j =>
      (List.range' 1 (2^r)).flatMap fun z =>
        (pair k (2^Nat.clog 2 k) ((2^r + j*2^(r+1)) % 2^Nat.clog 2 k) z).toList := by
  have hcount : (2^Nat.clog 2 k + 2^(r+1) - 1)/2^(r+1) = 2^Nat.clog 2 k/2^(r+1) := by
    have hpos : 0 < 2^(r+1) := Nat.two_pow_pos _
    have hwhole : 2^Nat.clog 2 k = 2^(r+1)*2^(Nat.clog 2 k - (r+1)) := by
      rw [clog_split hr,Nat.pow_succ,Nat.mul_assoc]
    rw [hwhole,Nat.add_sub_assoc hpos,Nat.mul_add_div hpos,Nat.div_eq_of_lt (by omega),
      Nat.mul_div_cancel_left _ hpos,Nat.add_zero]
  rw [hcount,List.range'_eq_map_range (n := 2^Nat.clog 2 k/2^(r+1)),List.flatMap_map,circleIndex]
  refine List.flatMap_congr fun j _ => ?_
  rw [List.filterMap_eq_flatMap_toList,List.range'_eq_map_range,List.flatMap_map]
  refine List.flatMap_congr fun z _ => ?_
  rw [Nat.add_comm 1 j,Nat.add_comm 1 z]
  rfl

theorem round_lists (hr : r < Nat.clog 2 k) (old : IndexArray) :
    ∃ index, round k (r+1) old = some index ∧ index.Lists (circleIndex k (r+1)) := by
  have hroom : (circleIndex k (r+1)).length ≤ 2^Nat.clog 2 k := by
    have hlen := length_circleIndex hr
    have hle := Nat.le_pow_clog (b := 2) (by decide) k
    omega
  have hempty : Lists { old with op_r := 0 } [] := ⟨rfl,fun j hj => absurd hj (Nat.not_lt_zero j)⟩
  rw [circleIndex_turns hr] at hroom ⊢
  refine Loops.foldlM_collects _ (fun index pairs j _ hpairs hroom => ?_) hempty hroom
  refine Loops.foldlM_collects _ (fun index pairs z hz hpairs hroom => ?_) hpairs hroom
  have hy := circleStart_eq hr j
  have htop := circleStart_le hr j
  have hpos : 0 < 2^r := Nat.two_pow_pos r
  have hz : z < 1 + 2^r := (List.mem_range'_1.mp hz).2
  have hstart : 0 < 2^r*(2*(j % 2^(Nat.clog 2 k - (r+1))) + 1) :=
    Nat.mul_pos hpos (Nat.succ_pos _)
  exact turn_lists hpairs (by omega) (by omega) (by omega) hroom

variable {index : IndexArray} (h : index.Lists (circleIndex k (r+1)))
include h

theorem mem_of_lists (s t : Nat) :
    (∃ j, j < index.op_r ∧ index.source j = s ∧ index.target j = t) ↔
      (s,t) ∈ circleIndex k (r+1) := by
  rw [h.length]
  constructor
  · rintro ⟨j,hj,rfl,rfl⟩
    rw [h.get j hj,List.getD_eq_getElem _ _ hj]
    exact List.getElem_mem hj
  · intro hmem
    obtain ⟨j,hj,hget⟩ := List.getElem_of_mem hmem
    have hpair := h.get j hj
    rw [List.getD_eq_getElem _ _ hj,hget] at hpair
    exact ⟨j,hj,congrArg Prod.fst hpair,congrArg Prod.snd hpair⟩

theorem mem_entry {j : Nat} (hj : j < index.op_r) :
    (index.source j,index.target j) ∈ circleIndex k (r+1) :=
  (mem_of_lists h _ _).mp ⟨j,hj,rfl,rfl⟩

theorem target_inj (hr : r < Nat.clog 2 k) {j j' : Nat} (hj : j < index.op_r)
    (hj' : j' < index.op_r) (heq : index.target j = index.target j') : j = j' := by
  rw [h.length] at hj hj'
  have hget := congrArg Prod.snd (h.get j hj)
  have hget' := congrArg Prod.snd (h.get j' hj')
  exact List.inj_on_of_nodup_map (Suite.map_index hr) (List.mem_range.mpr hj)
    (List.mem_range.mpr hj') (hget.symm.trans (heq.trans hget'))

/-- The round takes every position from blocks of length `2^r` to blocks of length `2^(r+1)`. -/
theorem apply_prefix (hr : r < Nat.clog 2 k) {f d : Nat → Carry.Block}
    (hd : ∀ x, x < k → d x = prefixBlock f r x) {x : Nat} (hx : x < k) :
    index.apply d x = prefixBlock f (r+1) x := by
  obtain ⟨hset,hkeep⟩ := Loops.foldl_modify index.target (fun j b =>
    (⟨(d (index.source j)).p && (d (index.target j)).p,
      ((d (index.source j)).g && (d (index.target j)).p) ^^ b.g⟩ : Carry.Block)) d index.op_r
    fun i j hi hj => target_inj h hr hi hj
  rcases Nat.mod_two_eq_zero_or_one (x/2^r) with hhalf | hhalf
  · have hne : ∀ j, j < index.op_r → index.target j ≠ x := by
      intro j hj heq
      have hodd : index.target j/2^r % 2 = 1 :=
        ((mem_circleIndex hr _).mp (mem_entry h hj)).2.1
      rw [heq] at hodd
      omega
    rw [prefixBlock_even f hhalf,← hd x hx]
    exact hkeep x hne
  · have hmem : (x/2^r*2^r - 1,x) ∈ circleIndex k (r+1) :=
      (mem_circleIndex hr _).mpr ⟨hx,hhalf,rfl⟩
    obtain ⟨j,hj,hsource,htarget⟩ := (mem_of_lists h _ _).mpr hmem
    have hle : x/2^r*2^r ≤ x := Nat.div_mul_le_self x (2^r)
    have hnew := hset j hj
    rw [hsource,htarget,hd x hx,hd _ (by omega)] at hnew
    rw [← prefixBlock_odd f hhalf]
    exact hnew

end

/-- What the rows of a round should hold: the pairs of a Sklansky network of `k` positions,
each target once, in rows and buffers that are long enough. -/
structure Sklansky (k i : Nat) (index : IndexArray) : Prop where
  /-- The targets have bit `i-1` set; each is paired with the last position of the block of
  length `2^(i-1)` before its own. -/
  pairs : ∀ s t, (∃ j, j < index.op_r ∧ index.source j = s ∧ index.target j = t) ↔
    t < k ∧ t.testBit (i-1) = true ∧ s + 1 = t/2^(i-1)*2^(i-1)
  once : ∀ j j', j < index.op_r → j' < index.op_r → index.target j = index.target j' → j = j'
  apart : ∀ j j', j < index.op_r → j' < index.op_r → index.source j ≠ index.target j'
  rows : index.op_r ≤ 2^Nat.clog 2 k
  bits : 2*index.op_r ≤ k
  bytes : byteWidth (2*index.op_r) ≤ byteWidth k

theorem last_div {q h : Nat} (hh : 0 < h) (hq : 0 < q) : (q*h - 1)/h = q - 1 := by
  obtain ⟨q,rfl⟩ := Nat.exists_eq_succ_of_ne_zero (Nat.ne_of_gt hq)
  have hlast : (q+1)*h - 1 = q*h + (h-1) := by
    rw [Nat.succ_mul]
    omega
  rw [Nat.succ_eq_add_one,hlast,index_div (by omega),Nat.add_sub_cancel]

theorem Lists.sklansky {k r : Nat} (hr : r < Nat.clog 2 k) {index : IndexArray}
    (h : index.Lists (circleIndex k (r+1))) : Sklansky k (r+1) index := by
  have hbits : 2*index.op_r ≤ k := h.length ▸ length_circleIndex hr
  have hpairs : ∀ s t, (∃ j, j < index.op_r ∧ index.source j = s ∧ index.target j = t) ↔
      t < k ∧ t/2^r % 2 = 1 ∧ s = t/2^r*2^r - 1 :=
    fun s t => (mem_of_lists h s t).trans (mem_circleIndex hr (s,t))
  have hentry := fun j hj => (hpairs (index.source j) (index.target j)).mp ⟨j,hj,rfl,rfl⟩
  have hfirst : ∀ t, t/2^r % 2 = 1 → 0 < t/2^r := fun t ht => by
    have hle := Nat.mod_le (t/2^r) 2
    omega
  constructor
  · intro s t
    rw [hpairs,Nat.add_sub_cancel,Nat.testBit_eq_decide_div_mod_eq,decide_eq_true_eq]
    constructor
    · rintro ⟨ht,hodd,hs⟩
      have hpos := Nat.mul_pos (hfirst t hodd) (Nat.two_pow_pos r)
      exact ⟨ht,hodd,by omega⟩
    · rintro ⟨ht,hodd,hs⟩
      exact ⟨ht,hodd,by omega⟩
  · exact fun j j' hj hj' heq => target_inj h hr hj hj' heq
  · intro j j' hj hj' heq
    obtain ⟨_,hodd,hsource⟩ := hentry j hj
    obtain ⟨_,hodd',_⟩ := hentry j' hj'
    have hdiv := last_div (Nat.two_pow_pos r) (hfirst _ hodd)
    rw [← hsource,heq] at hdiv
    omega
  · have hle := Nat.le_pow_clog (b := 2) (by decide) k
    omega
  · exact hbits
  · rw [byteWidth_eq,byteWidth_eq]
    omega

theorem rounds_blocks (k : Nat) (old : IndexArray) (f : Nat → Carry.Block) :
    ∃ st, rounds k old f = some st ∧ ∀ x, x < k → st.2 x = blocks f 0 (x+1) := by
  have hrun : ∀ m, m ≤ Nat.clog 2 k → ∃ st, (List.range' 1 m).foldlM (fun st i =>
      (round k i st.1).map fun index => (index,index.apply st.2)) (old,f) = some st ∧
      ∀ x, x < k → st.2 x = prefixBlock f m x := by
    intro m
    induction m with
    | zero => exact fun _ => ⟨(old,f),rfl,fun x _ => (prefixBlock_zero f x).symm⟩
    | succ m ih =>
      intro hm
      obtain ⟨st,hst,hd⟩ := ih (by omega)
      obtain ⟨index,hindex,hlists⟩ := round_lists (show m < Nat.clog 2 k by omega) st.1
      refine ⟨(index,index.apply st.2),?_,fun x hx => apply_prefix hlists (by omega) hd hx⟩
      rw [List.range'_1_concat,List.foldlM_append,hst,Nat.add_comm 1 m]
      simp only [Option.bind_eq_bind,Option.bind_some,List.foldlM_cons,List.foldlM_nil,hindex,
        Option.map_some]
      rfl
  obtain ⟨st,hst,hd⟩ := hrun _ (Nat.le_refl _)
  refine ⟨st,hst,fun x hx => ?_⟩
  have hpow : x < 2^Nat.clog 2 k := Nat.lt_of_lt_of_le hx (Nat.le_pow_clog (by decide) k)
  rw [hd x hx,prefixBlock_all f hpow]

end IndexArray

open IndexArray in
/-- The plan of every round is the one of a Sklansky network, and the rounds in order combine
every position with all below it: in the clear, and on the shares of `Rss_CircleOpL`. -/
theorem circleOpL_plan {L : Nat} {G : Type} [Generator G] (k : Nat) :
    (∀ i old, 1 ≤ i → i ≤ Nat.clog 2 k → ∃ index, round k i old = some index ∧
      index.Lists (circleIndex k i) ∧ Sklansky k i index) ∧
    (∀ old f, ∃ st, rounds k old f = some st ∧ ∀ x, x < k → st.2 x = blocks f 0 (x+1)) ∧
    ∀ (d : Shares 3 (Lint L)) (size l : Nat) (p g : BitVec k) (net : Net 3 G), k ≤ 8*L →
      l < size → shares3pc.Consistent net → PairSharing shares3pc k d l (p,g) →
      PairSharing shares3pc k (rssCircleOpL d k size net).1 l (prefixWords p g) := by
  refine ⟨fun i old hi hlast => ?_,rounds_blocks k,fun d size l p g net hL hl hnet hd =>
    (circleOpL3pc_words hL size hl hd).1 net hnet⟩
  obtain ⟨r,rfl⟩ : ∃ r, i = r+1 := ⟨i-1,(Nat.sub_add_cancel hi).symm⟩
  obtain ⟨index,hround,hlists⟩ := round_lists (show r < Nat.clog 2 k by omega) old
  exact ⟨index,hround,hlists,hlists.sklansky (by omega)⟩

open IndexArray in
theorem circleOpL_plan_five : ∃ index, round 5 3 ⟨fun _ => 9,fun _ => 9,4⟩ = some index ∧
    index.op_r = 1 ∧ (index.source 0,index.target 0) = (3,4) := by
  obtain ⟨index,hround,hlists,_⟩ := (circleOpL_plan (L := 4) (G := Tape) 5).1 3
    ⟨fun _ => 9,fun _ => 9,4⟩ (by decide) (by decide)
  have hpairs : circleIndex 5 3 = [(3,4)] := by decide
  rw [hpairs] at hlists
  exact ⟨index,hround,hlists.length,hlists.get 0 (by decide)⟩

end RssRing
