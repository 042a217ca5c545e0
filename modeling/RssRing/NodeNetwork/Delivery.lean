import RssRing.Library.Channels
import RssRing.NodeNetwork.Exchange
import Mathlib.Data.List.FinRange
set_option autoImplicit false

namespace RssRing
open Channels

variable {n L : Nat}

def maxBufferSize : Nat := 229376

/-- `count` of `getRounds`: how many words of `flag` bits go into one message. -/
def chunkCount (n flag : Nat) : Nat := maxBufferSize/n/byteWidth flag

/-- `rounds` of `getRounds`, in the arithmetic of `uint`. -/
def getRounds (n flag : Nat) (size : BitVec 32) : BitVec 32 :=
  let count := BitVec.ofNat 32 (chunkCount n flag)
  if size % count ≠ 0 then size/count else size/count - 1

/-- `read_amount` and `write_amount`. -/
def chunkAmount (start amount size : Nat) : Nat :=
  if size < start + amount then size - start else amount

def sendDataToPeer (data : Nat → Lint L) (start amount size flag : Nat) : List Byte :=
  let unit_size := byteWidth flag
  (List.range (unit_size*chunkAmount start amount size)).map fun j =>
    byteOf (masked flag (data (start + j/unit_size))) (j%unit_size)

def getDataFromPeer (message : List Byte) (start amount size flag : Nat) (data : Nat → Lint L)
    (i : Nat) : Lint L :=
  let unit_size := byteWidth flag
  if start ≤ i ∧ i < start + chunkAmount start amount size then
    memcpyWord 0 (fun j => message.getD j 0) ((i - start)*unit_size) unit_size
  else data i

/-- One call of an exchange by all parties: over a table, or with `none` the multicast
of one buffer to each party. -/
structure Call (n L : Nat) where
  routing : Option (Routing n)
  SendData : Fin n → Nat → Nat → Lint L
  size : BitVec 32
  flag : Nat

abbrev Buffers (L : Nat) := Nat → Nat → Nat → Lint L

namespace Call
variable (c : Call n L)

def count : Nat := chunkCount n c.flag

def loop : List Nat := List.range ((getRounds n c.flag c.size).toNat + 1)

def chunk (q : Fin n) (b k : Nat) : List Byte :=
  sendDataToPeer (c.SendData q b) (k*c.count) c.count c.size.toNat c.flag

def place (m b k : Nat) (message : List Byte) (mem : Buffers L) : Buffers L :=
  Function.update mem m (Function.update (mem m) b
    (getDataFromPeer message (k*c.count) c.count c.size.toNat c.flag (mem m b)))

def roundPhase (R : Routing n) (m r k : Nat) : Phase (Fin n) (List Byte) (Buffers L) where
  targets p := (R.sendTo p r).toList
  message p _ := c.chunk p r k
  sources p := (R.recvFrom p r).toList
  store _ _ := c.place m r k

def multicastPhase (m k : Nat) : Phase (Fin n) (List Byte) (Buffers L) where
  targets p := (List.finRange n).filter (fun q => p ≠ q)
  message p q := c.chunk p q.val k
  sources p := (List.finRange n).filter (fun q => p ≠ q)
  store _ q := c.place m q.val k

def phases (m : Nat) : List (Phase (Fin n) (List Byte) (Buffers L)) :=
  match c.routing with
  | some R => (List.range R.rounds).flatMap fun r => c.loop.map fun k => c.roundPhase R m r k
  | none => c.loop.map fun k => c.multicastPhase m k

def takesFrom (p : Fin n) (b : Nat) : Option (Fin n) :=
  match c.routing with
  | some R => if b < R.rounds then R.recvFrom p b else none
  | none => if h : b < n ∧ p.val ≠ b then some ⟨b,h.1⟩ else none

def sendsTo (q : Fin n) (b : Nat) : Option (Fin n) :=
  match c.routing with
  | some R => if b < R.rounds then R.sendTo q b else none
  | none => if h : b < n ∧ q.val ≠ b then some ⟨b,h.1⟩ else none

/-- The number that the contents of receive buffer `b` of party `p` have at their sender. -/
def number (p : Fin n) (b : Nat) : Nat :=
  match c.routing with
  | some _ => b
  | none => p.val

def arrived (q : Fin n) (b : Nat) (old : Nat → Lint L) (i : Nat) : Lint L :=
  if i < c.size.toNat then masked c.flag (c.SendData q b i) else old i

def buffer (p : Fin n) (b : Nat) (old : Nat → Lint L) : Nat → Lint L :=
  (c.takesFrom p b).elim old fun q => c.arrived q (c.number p b) old

end Call

def Routing.Paired (R : Routing n) : Prop := ∀ p q r, r < R.rounds →
  (R.recvFrom p r = some q ↔ R.sendTo q r = some p)

instance (R : Routing n) : Decidable R.Paired :=
  inferInstanceAs (Decidable (∀ p q r, r < R.rounds →
    (R.recvFrom p r = some q ↔ R.sendTo q r = some p)))

def session (calls : List (Call n L)) : Fin n → Program (Fin n) (List Byte) (Buffers L) :=
  program 0 (calls.zipIdx.flatMap fun c => c.1.phases c.2)

theorem getDataFromPeer_sendDataToPeer (data old : Nat → Lint L) (start amount size flag i : Nat) :
    getDataFromPeer (sendDataToPeer data start amount size flag) start amount size flag old i =
      if start ≤ i ∧ i < start + chunkAmount start amount size then masked flag (data i)
      else old i := by
  by_cases hi : start ≤ i ∧ i < start + chunkAmount start amount size
  · rw [getDataFromPeer,if_pos hi,if_pos hi,← received_eq flag (data i),received]
    apply BitVec.eq_of_getLsbD_eq
    intro j hj
    rw [getLsbD_memcpyWord,getLsbD_memcpyWord]
    by_cases hflag : j < 8*byteWidth flag
    · have hdiv : j/8 < byteWidth flag := by omega
      have hpos : (i - start)*byteWidth flag + j/8 <
          byteWidth flag*chunkAmount start amount size := by
        rw [Nat.mul_comm (byteWidth flag)]
        exact index_lt (by omega) hdiv
      have hword : start + ((i - start)*byteWidth flag + j/8)/byteWidth flag = i := by
        rw [index_div hdiv]
        omega
      have hbyte := index_mod hdiv (i - start)
      simp only [hflag,if_true,sendDataToPeer,List.getD_eq_getElem?_getD,List.getElem?_map,
        List.getElem?_range hpos,Option.map_some,Option.getD_some,hword,hbyte,Nat.zero_add]
    · simp only [hflag,if_false]
  · rw [getDataFromPeer,if_neg hi,if_neg hi]

theorem chunks_arrived (data old : Nat → Lint L) (count size flag K i : Nat) :
    (List.range K).foldl (fun old k => getDataFromPeer
      (sendDataToPeer data (k*count) count size flag) (k*count) count size flag old) old i =
      if i < K*count ∧ i < size then masked flag (data i) else old i := by
  induction K with
  | zero => simp
  | succ K ih =>
    rw [List.range_succ,List.foldl_append,List.foldl_cons,List.foldl_nil,
      getDataFromPeer_sendDataToPeer,ih,chunkAmount,Nat.succ_mul]
    by_cases hsize : size < K*count + count
    · rw [if_pos hsize]
      by_cases hi : K*count ≤ i <;> by_cases hi' : i < size
      · rw [if_pos ⟨hi,by omega⟩,if_pos ⟨by omega,hi'⟩]
      · rw [if_neg (by omega),if_neg (by omega),if_neg (by omega)]
      · rw [if_neg (by omega),if_pos ⟨by omega,hi'⟩,if_pos ⟨by omega,hi'⟩]
      · rw [if_neg (by omega),if_neg (by omega),if_neg (by omega)]
    · rw [if_neg hsize]
      by_cases hi : K*count ≤ i <;> by_cases hi' : i < K*count + count
      · rw [if_pos ⟨hi,hi'⟩,if_pos ⟨hi',by omega⟩]
      · rw [if_neg (by omega),if_neg (by omega),if_neg (by omega)]
      · rw [if_neg (by omega),if_pos ⟨by omega,by omega⟩,if_pos ⟨hi',by omega⟩]
      · omega

theorem chunkCount_pos (hn : 0 < n) (hn' : n ≤ 7) {flag : Nat} (hflag : 0 < flag)
    (hflag' : flag ≤ 64) : 0 < chunkCount n flag := by
  have hwidth := byteWidth_pos hflag
  have hwidth' : byteWidth flag ≤ 8 := byteWidth_le (L := 8) hflag'
  have hparties : 8 ≤ maxBufferSize/n := by
    rw [Nat.le_div_iff_mul_le hn,maxBufferSize]
    omega
  exact Nat.div_pos (hwidth'.trans hparties) hwidth

theorem chunkCount_lt (n flag : Nat) : chunkCount n flag < 2^32 := by
  have hle : chunkCount n flag ≤ maxBufferSize := (Nat.div_le_self _ _).trans (Nat.div_le_self _ _)
  exact Nat.lt_of_le_of_lt hle (by decide)

theorem getRounds_toNat (hn : 0 < n) (hn' : n ≤ 7) {flag : Nat} (hflag : 0 < flag)
    (hflag' : flag ≤ 64) {size : BitVec 32} (hsize : 0 < size.toNat) :
    (getRounds n flag size).toNat = (size.toNat - 1)/chunkCount n flag := by
  have hpos := chunkCount_pos hn hn' hflag hflag'
  have hcount : (BitVec.ofNat 32 (chunkCount n flag)).toNat = chunkCount n flag := by
    rw [BitVec.toNat_ofNat,Nat.mod_eq_of_lt (chunkCount_lt n flag)]
  have hmod := Nat.div_add_mod size.toNat (chunkCount n flag)
  have hlt := Nat.mod_lt size.toNat hpos
  rw [getRounds]
  generalize chunkCount n flag = count at hpos hcount hmod hlt
  by_cases h : size % BitVec.ofNat 32 count ≠ 0
  · have hrest : size.toNat % count ≠ 0 := by
      intro hzero
      refine h (BitVec.eq_of_toNat_eq ?_)
      rw [BitVec.toNat_umod,hcount,hzero]
      rfl
    have hlast : size.toNat - 1 = count*(size.toNat/count) + (size.toNat % count - 1) := by omega
    rw [if_pos h,BitVec.toNat_udiv,hcount,hlast,Nat.mul_add_div hpos,
      Nat.div_eq_of_lt (show size.toNat % count - 1 < count by omega),Nat.add_zero]
  · have hzero : size.toNat % count = 0 := by
      have hmod₀ := congrArg BitVec.toNat (not_not.mp h)
      rwa [BitVec.toNat_umod,hcount] at hmod₀
    have hq : 0 < size.toNat/count := by
      refine Nat.pos_of_ne_zero fun hq => ?_
      rw [hq,hzero] at hmod
      omega
    have hle : size.toNat/count < 2^32 := (Nat.div_le_self _ _).trans_lt size.isLt
    have hone : (1 : BitVec 32).toNat = 1 := rfl
    have hlast : size.toNat - 1 = count*(size.toNat/count - 1) + (count - 1) := by
      rw [Nat.mul_sub_one]
      have hcount_le := Nat.mul_le_mul_left count hq
      omega
    rw [if_neg h,BitVec.toNat_sub,BitVec.toNat_udiv,hcount,hone,
      show 2^32 - 1 + size.toNat/count = size.toNat/count - 1 + 2^32 by omega,
      Nat.add_mod_right,Nat.mod_eq_of_lt (by omega),hlast,Nat.mul_add_div hpos,
      Nat.div_eq_of_lt (show count - 1 < count by omega),Nat.add_zero]

theorem le_rounds (hn : 0 < n) (hn' : n ≤ 7) {flag : Nat} (hflag : 0 < flag) (hflag' : flag ≤ 64)
    (size : BitVec 32) :
    size.toNat ≤ ((getRounds n flag size).toNat + 1)*chunkCount n flag := by
  rcases Nat.eq_zero_or_pos size.toNat with hsize | hsize
  · rw [hsize]
    exact Nat.zero_le _
  · have hpos := chunkCount_pos hn hn' hflag hflag'
    have hdiv := Nat.div_add_mod (size.toNat - 1) (chunkCount n flag)
    have hmod := Nat.mod_lt (size.toNat - 1) hpos
    rw [getRounds_toNat hn hn' hflag hflag' hsize,Nat.add_mul,Nat.mul_comm]
    omega

theorem rounds_lt (hn : 0 < n) (hn' : n ≤ 7) {flag : Nat} (hflag : 0 < flag) (hflag' : flag ≤ 64)
    {size : BitVec 32} (hsize : 0 < size.toNat) :
    (getRounds n flag size).toNat*chunkCount n flag < size.toNat := by
  have hdiv := Nat.div_mul_le_self (size.toNat - 1) (chunkCount n flag)
  rw [getRounds_toNat hn hn' hflag hflag' hsize]
  omega

/-- `start` and `amount` are of type `int`. Up to this size no sum of the two leaves the type;
beyond it the model goes on as if the type were wider. -/
theorem start_add_amount_lt (hn : 0 < n) (hn' : n ≤ 7) {flag : Nat} (hflag : 0 < flag)
    (hflag' : flag ≤ 64) {size : BitVec 32} (hsize : 0 < size.toNat)
    (hint : size.toNat + maxBufferSize ≤ 2^31) {k : Nat} (hk : k ≤ (getRounds n flag size).toNat) :
    k*chunkCount n flag + chunkCount n flag < 2^31 := by
  have hlast := rounds_lt hn hn' hflag hflag' hsize
  have hstart := Nat.mul_le_mul_right (chunkCount n flag) hk
  have hamount : chunkCount n flag ≤ maxBufferSize :=
    (Nat.div_le_self _ _).trans (Nat.div_le_self _ _)
  omega

/-- Without elements `rounds` is the greatest `uint`, and the loop `k <= rounds` of the source does
not come to an end. -/
theorem getRounds_zero (n flag : Nat) : getRounds n flag 0 = BitVec.allOnes 32 := by
  simp [getRounds]

namespace Call
variable {c : Call n L}

structure Fits (c : Call n L) : Prop where
  parties : 0 < n ∧ n ≤ 7
  flag_pos : 0 < c.flag
  flag_le : c.flag ≤ 64

theorem loop_arrived (hc : c.Fits) (q : Fin n) (b : Nat) (old : Nat → Lint L) :
    c.loop.foldl (fun old k => getDataFromPeer (c.chunk q b k) (k*c.count) c.count c.size.toNat
      c.flag old) old = c.arrived q b old := by
  funext i
  have hrounds := le_rounds hc.parties.1 hc.parties.2 hc.flag_pos hc.flag_le c.size
  have hchunks := chunks_arrived (c.SendData q b) old c.count c.size.toNat c.flag
    ((getRounds n c.flag c.size).toNat + 1) i
  refine hchunks.trans (if_congr ⟨fun h => h.2,fun h => ⟨h.trans_le hrounds,h⟩⟩ rfl rfl)

theorem place_apply (m b k : Nat) (message : List Byte) (mem : Buffers L) (m' b' : Nat) :
    c.place m b k message mem m' b' = if m' = m ∧ b' = b then
      getDataFromPeer message (k*c.count) c.count c.size.toNat c.flag (mem m' b') else mem m' b' := by
  by_cases hm : m' = m
  · subst hm
    by_cases hb : b' = b
    · subst hb
      simp [place]
    · simp [place,hb]
  · simp [place,hm]

theorem roundPhase_result (R : Routing n) (m r k : Nat) (p : Fin n) (mem : Buffers L) (b : Nat) :
    (c.roundPhase R m r k).result p mem m b = if b = r then
      (R.recvFrom p r).elim (mem m b) fun q =>
        getDataFromPeer (c.chunk q r k) (k*c.count) c.count c.size.toNat c.flag (mem m b)
      else mem m b := by
  cases h : R.recvFrom p r with
  | none => simp [Phase.result,roundPhase,h]
  | some q => simp [Phase.result,roundPhase,h,place_apply]

theorem round_buffer (hc : c.Fits) (R : Routing n) (m r : Nat) (p : Fin n) (mem : Buffers L)
    (b : Nat) : c.loop.foldl (fun x k => (c.roundPhase R m r k).result p x) mem m b =
      if b = r then (R.recvFrom p r).elim (mem m b) fun q => c.arrived q r (mem m b)
      else mem m b := by
  let fill : (Nat → Lint L) → Nat → Nat → Lint L := fun y k =>
    if b = r then (R.recvFrom p r).elim y fun q =>
      getDataFromPeer (c.chunk q r k) (k*c.count) c.count c.size.toNat c.flag y
    else y
  have hfill : c.loop.foldl (fun x k => (c.roundPhase R m r k).result p x) mem m b =
      c.loop.foldl fill (mem m b) :=
    (List.foldl_hom (fun x : Buffers L => x m b)
      fun x k => (roundPhase_result R m r k p x b).symm).symm
  rw [hfill]
  by_cases hb : b = r
  · simp only [fill,if_pos hb]
    cases R.recvFrom p r with
    | none => exact List.foldl_fixed _
    | some q => exact loop_arrived hc q r (mem m b)
  · simp only [fill,if_neg hb]
    exact List.foldl_fixed _

theorem foldl_range_single {A : Type} (g : A → A) (b N : Nat) (x : A) :
    (List.range N).foldl (fun x r => if b = r then g x else x) x = if b < N then g x else x := by
  induction N with
  | zero => rfl
  | succ N ih =>
    rw [List.range_succ,List.foldl_append,ih,List.foldl_cons,List.foldl_nil]
    rcases Nat.lt_trichotomy b N with h | h | h
    · rw [if_neg (by omega),if_pos h,if_pos (by omega)]
    · subst h
      rw [if_pos rfl,if_neg (by omega),if_pos (by omega)]
    · rw [if_neg (by omega),if_neg (by omega),if_neg (by omega)]

theorem routed_buffer (hc : c.Fits) {R : Routing n} (hR : c.routing = some R) (m : Nat) (p : Fin n)
    (mem : Buffers L) (b : Nat) :
    (c.phases m).foldl (fun x ph => ph.result p x) mem m b = c.buffer p b (mem m b) := by
  let fill : (Nat → Lint L) → Nat → Nat → Lint L := fun y r =>
    if b = r then (R.recvFrom p b).elim y fun q => c.arrived q b y else y
  have hfill : (c.phases m).foldl (fun x ph => ph.result p x) mem m b =
      (List.range R.rounds).foldl fill (mem m b) := by
    simp only [phases,hR,List.foldl_flatMap,List.foldl_map]
    refine (List.foldl_hom (fun x : Buffers L => x m b) fun x r => ?_).symm
    rw [round_buffer hc]
    by_cases hb : b = r
    · subst hb; rfl
    · simp only [fill,if_neg hb]
  rw [hfill,foldl_range_single,buffer,takesFrom,number,hR]
  by_cases hb : b < R.rounds
  · simp only [if_pos hb]
  · simp only [if_neg hb,Option.elim_none]

theorem foldl_place (m k : Nat) (message : Fin n → List Byte) (l : List (Fin n)) (hl : l.Nodup)
    (mem : Buffers L) (b : Nat) :
    let mem' := l.foldl (fun x q => c.place m q.val k (message q) x) mem
    (∀ q ∈ l, q.val = b → mem' m b =
      getDataFromPeer (message q) (k*c.count) c.count c.size.toNat c.flag (mem m b)) ∧
    ((∀ q ∈ l, q.val ≠ b) → mem' m b = mem m b) := by
  induction l generalizing mem with
  | nil => simp
  | cons q l ih =>
    obtain ⟨hq,hl⟩ := List.nodup_cons.mp hl
    obtain ⟨hin,hout⟩ := ih hl (c.place m q.val k (message q) mem)
    simp only [List.foldl_cons]
    refine ⟨fun q' hq' hb => ?_,fun hne => ?_⟩
    · rcases List.mem_cons.mp hq' with rfl | hq'
      · have hrest : ∀ d ∈ l, d.val ≠ b := by
          intro d hd hdb
          exact hq (Fin.ext (hdb.trans hb.symm) ▸ hd)
        rw [hout hrest,place_apply,if_pos ⟨rfl,hb.symm⟩]
      · have hqb : ¬ (m = m ∧ b = q.val) := by
          rintro ⟨-,rfl⟩
          exact hq (Fin.ext hb ▸ hq')
        rw [hin q' hq' hb,place_apply,if_neg hqb]
    · have hqb : ¬ (m = m ∧ b = q.val) := fun h => hne q List.mem_cons_self h.2.symm
      rw [hout fun d hd => hne d (List.mem_cons_of_mem q hd),place_apply,if_neg hqb]

theorem multicastPhase_result (m k : Nat) (p : Fin n) (mem : Buffers L) (b : Nat) :
    (c.multicastPhase m k).result p mem m b =
      (if h : b < n ∧ p.val ≠ b then some ⟨b,h.1⟩ else none : Option (Fin n)).elim (mem m b)
        fun q => getDataFromPeer (c.chunk q p.val k) (k*c.count) c.count c.size.toNat c.flag
          (mem m b) := by
  have hnodup : ((List.finRange n).filter (fun q => p ≠ q)).Nodup := (List.nodup_finRange n).filter _
  obtain ⟨hin,hout⟩ := foldl_place (c := c) m k (fun q => c.chunk q p.val k) _ hnodup mem b
  by_cases h : b < n ∧ p.val ≠ b
  · rw [dif_pos h,Option.elim_some]
    refine hin ⟨b,h.1⟩ (List.mem_filter.mpr ⟨List.mem_finRange _,?_⟩) rfl
    simpa [Fin.ext_iff] using h.2
  · rw [dif_neg h,Option.elim_none]
    refine hout fun q hq hb => h ⟨hb ▸ q.isLt,fun hp => ?_⟩
    have hne := (List.mem_filter.mp hq).2
    simp only [ne_eq,decide_eq_true_eq] at hne
    exact hne (Fin.ext (hp.trans hb.symm))

theorem multicast_buffer (hc : c.Fits) (hR : c.routing = none) (m : Nat) (p : Fin n)
    (mem : Buffers L) (b : Nat) :
    (c.phases m).foldl (fun x ph => ph.result p x) mem m b = c.buffer p b (mem m b) := by
  have hfill : (c.phases m).foldl (fun x ph => ph.result p x) mem m b =
      c.loop.foldl (fun y k => (c.takesFrom p b).elim y fun q => getDataFromPeer
        (c.chunk q p.val k) (k*c.count) c.count c.size.toNat c.flag y) (mem m b) := by
    simp only [phases,hR,List.foldl_map]
    refine (List.foldl_hom (fun x : Buffers L => x m b) fun x k => ?_).symm
    rw [multicastPhase_result,takesFrom,hR]
  rw [hfill,buffer,number,hR]
  cases c.takesFrom p b with
  | none => exact List.foldl_fixed _
  | some q => exact loop_arrived hc q p.val (mem m b)

theorem phases_other {m m' : Nat} (hm : m' ≠ m) (p : Fin n) (mem : Buffers L) :
    (c.phases m).foldl (fun x ph => ph.result p x) mem m' = mem m' := by
  have hplace : ∀ b k message (x : Buffers L), c.place m b k message x m' = x m' :=
    fun b k message x => Function.update_of_ne hm _ x
  have hfold : ∀ (l : List (Fin n)) (f : Fin n → Nat) (g : Fin n → List Byte) k (x : Buffers L),
      l.foldl (fun x q => c.place m (f q) k (g q) x) x m' = x m' := by
    intro l f g k
    induction l with
    | nil => exact fun x => rfl
    | cons q l ih => exact fun x => (ih _).trans (hplace _ _ _ x)
  have hphase : ∀ ph ∈ c.phases m, ∀ x : Buffers L, ph.result p x m' = x m' := by
    intro ph hph x
    rw [phases] at hph
    cases hR : c.routing with
    | none =>
      simp only [hR] at hph
      obtain ⟨k,_,rfl⟩ := List.mem_map.mp hph
      exact hfold _ _ _ k x
    | some R =>
      simp only [hR] at hph
      obtain ⟨r,_,hph⟩ := List.mem_flatMap.mp hph
      obtain ⟨k,_,rfl⟩ := List.mem_map.mp hph
      exact hfold _ (fun _ => r) _ k x
  generalize c.phases m = l at hphase
  induction l generalizing mem with
  | nil => rfl
  | cons ph l ih =>
    rw [List.foldl_cons,ih _ fun ph' h => hphase ph' (List.mem_cons_of_mem _ h)]
    exact hphase ph List.mem_cons_self mem

def Matched (c : Call n L) : Prop := ∀ R, c.routing = some R → R.Paired

theorem phases_matched (hc : c.Matched) (m : Nat) : ∀ ph ∈ c.phases m, ph.Matched := by
  intro ph hph
  rw [phases] at hph
  cases hR : c.routing with
  | none =>
    simp only [hR] at hph
    obtain ⟨k,_,rfl⟩ := List.mem_map.mp hph
    refine ⟨fun p => (List.nodup_finRange n).filter _,fun p => (List.nodup_finRange n).filter _,
      fun p q => ?_⟩
    simp only [multicastPhase,List.mem_filter,List.mem_finRange,true_and,decide_eq_true_eq]
    exact ne_comm
  | some R =>
    simp only [hR] at hph
    obtain ⟨r,hr,hph⟩ := List.mem_flatMap.mp hph
    obtain ⟨k,_,rfl⟩ := List.mem_map.mp hph
    have hmatched := hc R hR
    refine ⟨fun p => ?_,fun p => ?_,fun p q => ?_⟩
    · cases h : R.sendTo p r <;> simp [roundPhase,h]
    · cases h : R.recvFrom p r <;> simp [roundPhase,h]
    · simp only [roundPhase,Option.mem_toList]
      exact hmatched p q r (List.mem_range.mp hr)

/-- The receive buffers of a call, from what they held before it. Each holds the buffer that
its sender has for this party, and every buffer that somebody has for it is in one. -/
structure Delivered (c : Call n L) (old new : Fin n → Nat → Nat → Lint L) : Prop where
  meant : ∀ p b q, c.takesFrom p b = some q → c.sendsTo q (c.number p b) = some p
  holds : ∀ p b q, c.takesFrom p b = some q → ∀ i, i < c.size.toNat →
    new p b i = masked c.flag (c.SendData q (c.number p b) i)
  all : ∀ q b p, c.sendsTo q b = some p → ∃ b', c.takesFrom p b' = some q ∧ c.number p b' = b
  kept : ∀ p b i, c.takesFrom p b = none ∨ c.size.toNat ≤ i → new p b i = old p b i

theorem takesFrom_multicast (hR : c.routing = none) (p q : Fin n) (b : Nat) :
    c.takesFrom p b = some q ↔ q.val = b ∧ p ≠ q := by
  simp only [takesFrom,hR,Option.dite_none_right_eq_some,Option.some_inj]
  constructor
  · rintro ⟨h,rfl⟩
    exact ⟨rfl,fun hpq => h.2 (congrArg Fin.val hpq)⟩
  · rintro ⟨rfl,h⟩
    exact ⟨⟨q.isLt,fun hpq => h (Fin.ext hpq)⟩,rfl⟩

theorem sendsTo_multicast (hR : c.routing = none) (q p : Fin n) (b : Nat) :
    c.sendsTo q b = some p ↔ p.val = b ∧ q ≠ p := by
  rw [← takesFrom_multicast hR,takesFrom,sendsTo,hR]

theorem takesFrom_routed {R : Routing n} (hR : c.routing = some R) (p q : Fin n) (b : Nat) :
    c.takesFrom p b = some q ↔ b < R.rounds ∧ R.recvFrom p b = some q := by
  simp only [takesFrom,hR,Option.ite_none_right_eq_some]

theorem sendsTo_routed {R : Routing n} (hR : c.routing = some R) (q p : Fin n) (b : Nat) :
    c.sendsTo q b = some p ↔ b < R.rounds ∧ R.sendTo q b = some p := by
  simp only [sendsTo,hR,Option.ite_none_right_eq_some]

theorem delivered (hc : c.Matched) (old : Fin n → Nat → Nat → Lint L) :
    c.Delivered old (fun p b => c.buffer p b (old p b)) where
  meant p b q h := by
    cases hR : c.routing with
    | none =>
      obtain ⟨_,hne⟩ := (takesFrom_multicast hR p q b).mp h
      simp only [number,hR]
      exact (sendsTo_multicast hR q p p.val).mpr ⟨rfl,hne.symm⟩
    | some R =>
      obtain ⟨hb,h⟩ := (takesFrom_routed hR p q b).mp h
      simp only [number,hR]
      exact (sendsTo_routed hR q p b).mpr ⟨hb,(hc R hR p q b hb).mp h⟩
  holds p b q h i hi := by
    simp only [buffer,h,Option.elim_some,arrived,if_pos hi]
  all q b p h := by
    cases hR : c.routing with
    | none =>
      obtain ⟨rfl,hne⟩ := (sendsTo_multicast hR q p b).mp h
      refine ⟨q.val,(takesFrom_multicast hR p q q.val).mpr ⟨rfl,hne.symm⟩,?_⟩
      simp only [number,hR]
    | some R =>
      obtain ⟨hb,h⟩ := (sendsTo_routed hR q p b).mp h
      refine ⟨b,(takesFrom_routed hR p q b).mpr ⟨hb,(hc R hR p q b hb).mpr h⟩,?_⟩
      simp only [number,hR]
  kept p b i h := by
    cases htake : c.takesFrom p b with
    | none => simp only [buffer,htake,Option.elim_none]
    | some q =>
      have hi : c.size.toNat ≤ i := h.resolve_left (by simp [htake])
      simp only [buffer,htake,Option.elim_some,arrived,if_neg (Nat.not_lt.mpr hi)]

end Call

theorem session_result {calls : List (Call n L)} (hfits : ∀ c ∈ calls, c.Fits) (j : Nat) (p : Fin n)
    (mem : Buffers L) (m : Nat) :
    ((calls.zipIdx j).flatMap fun c => c.1.phases c.2).foldl (fun x ph => ph.result p x) mem m =
      if j ≤ m then calls[m-j]?.elim (mem m) fun c b => c.buffer p b (mem m b) else mem m := by
  induction calls generalizing j mem with
  | nil => simp
  | cons c calls ih =>
    have hc := hfits c List.mem_cons_self
    have hhead : ∀ b, (c.phases j).foldl (fun x ph => ph.result p x) mem j b =
        c.buffer p b (mem j b) := by
      intro b
      cases hR : c.routing with
      | none => exact Call.multicast_buffer hc hR j p mem b
      | some R => exact Call.routed_buffer hc hR j p mem b
    rw [List.zipIdx_cons,List.flatMap_cons,List.foldl_append,
      ih (fun d hd => hfits d (List.mem_cons_of_mem c hd))]
    rcases Nat.lt_trichotomy m j with h | h | h
    · rw [if_neg (by omega),if_neg (by omega),Call.phases_other (by omega)]
    · subst h
      rw [if_neg (by omega),if_pos (le_refl m),Nat.sub_self]
      exact funext hhead
    · have hsub : m - j = m - (j+1) + 1 := by omega
      rw [if_pos (by omega),if_pos (by omega),hsub,List.getElem?_cons_succ,
        Call.phases_other (by omega)]

/-- In no state that the parties can reach are all of them stuck, and once all are done
nothing is left in a channel and every buffer of every call is where it was meant to go. -/
def Routes (calls : List (Call n L)) : Prop := ∀ mem s, Reachable (session calls) mem s →
  (Finished s ∨ ∃ t, Step s t) ∧ (Finished s → (∀ q p, s.channel q p = []) ∧
    ∀ (m : Nat) (c : Call n L), calls[m]? = some c →
      c.Delivered (fun p => mem p m) (fun p => s.memory p m))

theorem routes {calls : List (Call n L)} (hfits : ∀ c ∈ calls, c.Fits)
    (hmatched : ∀ c ∈ calls, c.Matched) : Routes calls := by
  intro mem s hs
  have hphases : ∀ ph ∈ calls.zipIdx.flatMap fun c => c.1.phases c.2, ph.Matched := by
    intro ph hph
    obtain ⟨⟨c,m⟩,hc,hph⟩ := List.mem_flatMap.mp hph
    exact Call.phases_matched (hmatched c (List.fst_mem_of_mem_zipIdx hc)) m ph hph
  obtain ⟨hprogress,hfinish⟩ := hs.exchange hphases
  refine ⟨hprogress,fun hdone => ?_⟩
  obtain ⟨hempty,hmemory⟩ := hfinish hdone
  refine ⟨hempty,fun m c hc => ?_⟩
  have hnew : (fun p => s.memory p m) = fun p b => c.buffer p b (mem p m b) := by
    funext p
    rw [hmemory p,session_result hfits 0 p (mem p) m,if_pos (Nat.zero_le m),Nat.sub_zero,hc,
      Option.elim_some]
  rw [hnew]
  exact Call.delivered (hmatched c (List.mem_of_getElem? hc)) _

/-- `SendAndGetDataFromPeer` and `multicastToPeers` of three parties. -/
inductive Call3pc : Call 3 L → Prop
  | sendAndGetDataFromPeer (SendData : Fin 3 → Nat → Lint L) (size : BitVec 32) {flag : Nat}
      (hflag : 0 < flag) (hflag' : flag ≤ 8*L) :
      Call3pc ⟨some map3pc,fun p _ => SendData p,size,flag⟩
  | multicastToPeers (data : Fin 3 → Nat → Nat → Lint L) (size : BitVec 32) {flag : Nat}
      (hflag : 0 < flag) (hflag' : flag ≤ 8*L) : Call3pc ⟨none,data,size,flag⟩

/-- The exchanges of more parties over their tables. One buffer is sent to all peers of
`_Mult` and `_Eda`, one of its own to each peer of `_Open`. -/
inductive CallMp (map openMap edaMap : Routing n) : Call n L → Prop
  | sendAndGetDataFromPeerMult (SendData : Fin n → Nat → Lint L) (size : BitVec 32) {flag : Nat}
      (hflag : 0 < flag) (hflag' : flag ≤ 8*L) :
      CallMp map openMap edaMap ⟨some map,fun p _ => SendData p,size,flag⟩
  | sendAndGetDataFromPeerOpen (SendData : Fin n → Nat → Nat → Lint L) (size : BitVec 32)
      {flag : Nat} (hflag : 0 < flag) (hflag' : flag ≤ 8*L) :
      CallMp map openMap edaMap ⟨some openMap,SendData,size,flag⟩
  | sendAndGetDataFromPeerEda (SendData : Fin n → Nat → Lint L) (size : BitVec 32) {flag : Nat}
      (hflag : 0 < flag) (hflag' : flag ≤ 8*L) :
      CallMp map openMap edaMap ⟨some edaMap,fun p _ => SendData p,size,flag⟩
  | multicastToPeers (data : Fin n → Nat → Nat → Lint L) (size : BitVec 32) {flag : Nat}
      (hflag : 0 < flag) (hflag' : flag ≤ 8*L) : CallMp map openMap edaMap ⟨none,data,size,flag⟩

theorem paired3pc : map3pc.Paired := by decide

theorem paired5pc : map5pc.Paired ∧ openMap5pc.Paired ∧ edaMap5pc.Paired := by decide

theorem paired7pc : map7pc.Paired ∧ openMap7pc.Paired ∧ edaMap7pc.Paired := by decide

theorem Call3pc.fits (hL : L ≤ 8) {c : Call 3 L} (h : Call3pc c) : c.Fits ∧ c.Matched := by
  cases h with
  | sendAndGetDataFromPeer SendData size hflag hflag' =>
    refine ⟨⟨by decide,hflag,by simp only; omega⟩,fun R hR => ?_⟩
    obtain rfl := Option.some_inj.mp hR
    exact paired3pc
  | multicastToPeers data size hflag hflag' =>
    exact ⟨⟨by decide,hflag,by simp only; omega⟩,fun R hR => absurd hR (by simp)⟩

theorem CallMp.fits (hn : 0 < n ∧ n ≤ 7) (hL : L ≤ 8) {map openMap edaMap : Routing n}
    (hmap : map.Paired ∧ openMap.Paired ∧ edaMap.Paired) {c : Call n L}
    (h : CallMp map openMap edaMap c) : c.Fits ∧ c.Matched := by
  cases h with
  | sendAndGetDataFromPeerMult SendData size hflag hflag' =>
    refine ⟨⟨hn,hflag,by simp only; omega⟩,fun R hR => ?_⟩
    obtain rfl := Option.some_inj.mp hR
    exact hmap.1
  | sendAndGetDataFromPeerOpen SendData size hflag hflag' =>
    refine ⟨⟨hn,hflag,by simp only; omega⟩,fun R hR => ?_⟩
    obtain rfl := Option.some_inj.mp hR
    exact hmap.2.1
  | sendAndGetDataFromPeerEda SendData size hflag hflag' =>
    refine ⟨⟨hn,hflag,by simp only; omega⟩,fun R hR => ?_⟩
    obtain rfl := Option.some_inj.mp hR
    exact hmap.2.2
  | multicastToPeers data size hflag hflag' =>
    exact ⟨⟨hn,hflag,by simp only; omega⟩,fun R hR => absurd hR (by simp)⟩

/-- The exchanges of three, five and seven parties, of any sizes and one after another,
never block and deliver every buffer where it is meant to go. For size 0 this says that nothing
is written; the exchanges of the source then do not return (`getRounds_zero`). -/
theorem exchanges_route (hL : L ≤ 8) :
    (∀ calls : List (Call 3 L), (∀ c ∈ calls, Call3pc c) → Routes calls) ∧
    (∀ calls : List (Call 5 L), (∀ c ∈ calls, CallMp map5pc openMap5pc edaMap5pc c) →
      Routes calls) ∧
    (∀ calls : List (Call 7 L), (∀ c ∈ calls, CallMp map7pc openMap7pc edaMap7pc c) →
      Routes calls) := by
  refine ⟨fun calls h => ?_,fun calls h => ?_,fun calls h => ?_⟩
  · exact routes (fun c hc => ((h c hc).fits hL).1) fun c hc => ((h c hc).fits hL).2
  · exact routes (fun c hc => ((h c hc).fits (by decide) hL paired5pc).1)
      fun c hc => ((h c hc).fits (by decide) hL paired5pc).2
  · exact routes (fun c hc => ((h c hc).fits (by decide) hL paired7pc).1)
      fun c hc => ((h c hc).fits (by decide) hL paired7pc).2

theorem exchanges_route_calls :
    Routes (L := 8) [⟨some map3pc,fun p _ i => BitVec.ofNat 64 (p.val + i),100000,45⟩,
      ⟨none,fun p b _ => BitVec.ofNat 64 (p.val + b),1,1⟩] ∧
    Routes (L := 8) [⟨some edaMap5pc,fun p _ i => BitVec.ofNat 64 (p.val*i),70000,62⟩] ∧
    Routes (L := 8) [⟨some openMap7pc,fun p b i => BitVec.ofNat 64 (p.val + b*i),70000,62⟩] := by
  obtain ⟨h₃,h₅,h₇⟩ := exchanges_route (L := 8) (by decide)
  refine ⟨h₃ _ fun c hc => ?_,h₅ _ fun c hc => ?_,h₇ _ fun c hc => ?_⟩
  · rcases List.mem_cons.mp hc with rfl | hc
    · refine Call3pc.sendAndGetDataFromPeer (L := 8) (fun p i => BitVec.ofNat 64 (p.val + i)) _ ?_ ?_
      · decide
      · decide
    · obtain rfl := List.mem_singleton.mp hc
      exact Call3pc.multicastToPeers _ _ (by decide) (by decide)
  · obtain rfl := List.mem_singleton.mp hc
    refine CallMp.sendAndGetDataFromPeerEda (L := 8) (fun p i => BitVec.ofNat 64 (p.val*i)) _ ?_ ?_
    · decide
    · decide
  · obtain rfl := List.mem_singleton.mp hc
    exact CallMp.sendAndGetDataFromPeerOpen _ _ (by decide) (by decide)

def Routing.InStep (R : Routing n) : Prop := ∀ p r, r < R.rounds →
  R.source p r = (R.recvFrom p r).map fun q => (q,r)

theorem inStep5pc : map5pc.InStep ∧ openMap5pc.InStep ∧ edaMap5pc.InStep := by
  unfold Routing.InStep; decide

theorem inStep7pc : map7pc.InStep ∧ openMap7pc.InStep ∧ edaMap7pc.InStep := by
  unfold Routing.InStep; decide

/-- In chunks a table delivers what `Routing.deliver` says of single words. -/
theorem Call.buffer_eq_deliver {c : Call n L} {R : Routing n} (hR : c.routing = some R)
    (hstep : R.InStep) (p : Fin n) {b i : Nat} (hb : b < R.rounds) (hi : i < c.size.toNat)
    (old : Nat → Lint L) : c.buffer p b old i =
      R.deliver (fun q r => received c.flag (c.SendData q r i)) (old i) p b := by
  rw [buffer,takesFrom,number,hR,Routing.deliver,hstep p b hb]
  simp only [if_pos hb]
  cases R.recvFrom p b with
  | none => rfl
  | some q => simp only [Option.elim_some,Option.map_some,arrived,if_pos hi,received_eq]

end RssRing
