import RssRing.NodeNetwork.Exchange
set_option autoImplicit false

namespace RssRing
open Replicated

/-- What the multiplications among five and seven parties read from tables. -/
structure MultTable (n : Nat) where
  numShares : Nat
  tMap : Fin n → Nat → List (Fin n)
  chiPPrimeInT : Fin n → List (Fin n) → Bool
  prgCtrs : Nat → Nat
  gamma : Nat → List Nat
  routing : Routing n
  recvSlot : Nat → Nat

/-- One mask taken from a stream: element `i`, the party `p_prime` whose message
it hides, the slot of the stream and the position in its buffer. -/
structure MaskUse (n : Nat) where
  i : Nat
  pPrime : Fin n
  tIndex : Nat
  pos : Nat
  deriving DecidableEq

/-- How a routine keeps its place in a stream: `tracker` set to zero before each
use and counted from `i * prg_ctrs[T]`, one tracker for each stream, or one for
each stream that no statement moves. -/
inductive Tracking
  | perUse | running | unmoved
  deriving DecidableEq

namespace Tracking

def pos (track : Tracking) (prgCtr i tracker : Nat) : Nat :=
  match track with
  | perUse => i*prgCtr + 0
  | running => tracker
  | unmoved => tracker

def step : Tracking → Nat
  | perUse => 0
  | running => 1
  | unmoved => 0

end Tracking

namespace MultTable
variable {n : Nat} (tab : MultTable n) (track : Tracking) (p : Fin n)

def pPrimeInT (p' : Fin n) (T : List (Fin n)) : Bool := T.contains p'

def used (p' : Fin n) (t : Nat) : Bool :=
  (p' != p && !pPrimeInT p' (tab.tMap p t) && !tab.chiPPrimeInT p' (tab.tMap p t)) ||
    (p' == p && !tab.chiPPrimeInT p (tab.tMap p t))

def block (i : Nat) (ts : List Nat) (p' : Fin n) : List (Nat × Fin n × Nat) :=
  ts.map (fun t => (i,p',t))

def row (ps : List (Fin n)) (i : Nat) : List (Nat × Fin n × Nat) :=
  ps.flatMap (block i (List.range tab.numShares))

def maskOrder (size : Nat) : List (Nat × Fin n × Nat) :=
  (List.range size).flatMap (tab.row (List.finRange n))

def maskLoop : List (Nat × Fin n × Nat) → (Nat → Nat) → List (MaskUse n)
  | [], _ => []
  | (i,p',t)::rest, trackers =>
    if tab.used p p' t then
      ⟨i,p',t,track.pos (tab.prgCtrs t) i (trackers t)⟩ ::
        maskLoop rest (Function.update trackers t (trackers t + track.step))
    else maskLoop rest trackers

def maskUses (size : Nat) : List (MaskUse n) := tab.maskLoop track p (tab.maskOrder size) fun _ => 0

def hits (t : Nat) (x : Nat × Fin n × Nat) : Bool := x.2.2 == t && tab.used p x.2.1 t

def after (l : List (Nat × Fin n × Nat)) (trackers : Nat → Nat) (t : Nat) : Nat :=
  trackers t + track.step*l.countP (tab.hits p t)

theorem maskLoop_append (l₁ l₂ : List (Nat × Fin n × Nat)) (trackers : Nat → Nat) :
    tab.maskLoop track p (l₁ ++ l₂) trackers =
      tab.maskLoop track p l₁ trackers ++ tab.maskLoop track p l₂ (tab.after track p l₁ trackers) := by
  induction l₁ generalizing trackers with
  | nil =>
    have hafter : tab.after track p [] trackers = trackers := by funext t; simp [after]
    rw [hafter]; rfl
  | cons x l₁ ih =>
    obtain ⟨i,p',t⟩ := x
    by_cases hu : tab.used p p' t
    · have hafter : tab.after track p l₁ (Function.update trackers t (trackers t + track.step)) =
          tab.after track p ((i,p',t)::l₁) trackers := by
        funext t'
        by_cases ht : t = t'
        · subst ht
          simp [after,hits,hu,Nat.mul_add,Nat.add_comm,Nat.add_assoc]
        · have ht' : t' ≠ t := fun h => ht h.symm
          simp [after,hits,ht,ht']
      simp only [List.cons_append,maskLoop,hu,if_true,ih,hafter]
    · have hafter : tab.after track p l₁ trackers =
          tab.after track p ((i,p',t)::l₁) trackers := by
        funext t'
        by_cases ht : t = t'
        · subst ht; simp [after,hits,hu]
        · simp [after,hits,ht]
      simp only [List.cons_append,maskLoop,hu,if_false,ih,hafter,Bool.false_eq_true]

theorem maskLoop_block (i : Nat) (p' : Fin n) (ts : List Nat) (hts : ts.Nodup)
    (trackers : Nat → Nat) :
    tab.maskLoop track p (block i ts p') trackers = (ts.filter (tab.used p p')).map
      (fun t => ⟨i,p',t,track.pos (tab.prgCtrs t) i (trackers t)⟩) := by
  induction ts generalizing trackers with
  | nil => rfl
  | cons t ts ih =>
    obtain ⟨ht,hts⟩ := List.nodup_cons.mp hts
    have ih := ih hts
    by_cases hu : tab.used p p' t
    · rw [block,List.map_cons,maskLoop,if_pos hu,← block,ih,List.filter_cons_of_pos hu,List.map_cons]
      congr 1
      apply List.map_congr_left
      intro t' ht'
      have hne : t' ≠ t := fun h => ht (h ▸ (List.mem_filter.mp ht').1)
      rw [Function.update_of_ne hne]
    · rw [block,List.map_cons,maskLoop,if_neg hu,← block,ih,List.filter_cons_of_neg hu]

theorem countP_block (i : Nat) (p' : Fin n) (ts : List Nat) (hts : ts.Nodup) (t : Nat) :
    (block i ts p').countP (tab.hits p t) = if t ∈ ts ∧ tab.used p p' t then 1 else 0 := by
  induction ts with
  | nil => simp [block]
  | cons t' ts ih =>
    obtain ⟨ht',hts⟩ := List.nodup_cons.mp hts
    have ih := ih hts
    rw [block] at ih ⊢
    rw [List.map_cons,List.countP_cons,ih]
    by_cases h : t' = t
    · subst h; simp [hits,ht']
    · have h' : t ≠ t' := fun e => h e.symm
      simp [hits,h,h']

def rank (ps : List (Fin n)) (p' : Fin n) (t : Nat) : Nat :=
  (ps.takeWhile (fun q => q != p')).countP (fun q => tab.used p q t)

theorem countP_row (i t : Nat) (ht : t < tab.numShares) (ps : List (Fin n)) :
    (tab.row ps i).countP (tab.hits p t) = ps.countP (fun q => tab.used p q t) := by
  induction ps with
  | nil => rfl
  | cons q ps ih =>
    rw [row] at ih ⊢
    rw [List.flatMap_cons,List.countP_append,ih,countP_block _ _ _ _ _ List.nodup_range,
      List.countP_cons,Nat.add_comm]
    simp [ht]

theorem maskLoop_row (i : Nat) (ps : List (Fin n)) (hps : ps.Nodup) (trackers : Nat → Nat) :
    tab.maskLoop track p (tab.row ps i) trackers = ps.flatMap fun p' =>
      ((List.range tab.numShares).filter (tab.used p p')).map (fun t => ⟨i,p',t,
        track.pos (tab.prgCtrs t) i (trackers t + track.step*tab.rank p ps p' t)⟩) := by
  induction ps generalizing trackers with
  | nil => rfl
  | cons q ps ih =>
    obtain ⟨hq,hps⟩ := List.nodup_cons.mp hps
    rw [row,List.flatMap_cons,maskLoop_append,maskLoop_block _ _ _ _ _ _ List.nodup_range,
      List.flatMap_cons,← row,ih hps]
    congr 1
    · simp [rank]
    · apply List.flatMap_congr
      intro p' hp'
      apply List.map_congr_left
      intro t ht
      have ht : t < tab.numShares := List.mem_range.mp (List.mem_filter.mp ht).1
      have hne : (q != p') = true := by
        simp only [bne_iff_ne,ne_eq]
        exact fun h => hq (h ▸ hp')
      have hcount : tab.after track p (block i (List.range tab.numShares) q) trackers t =
          trackers t + track.step*(if tab.used p q t then 1 else 0) := by
        rw [after,countP_block _ _ _ _ _ List.nodup_range]
        simp [ht]
      rw [hcount,rank,rank,List.takeWhile_cons_of_pos (p := fun q => q != p') hne,List.countP_cons]
      by_cases hu : tab.used p q t <;> simp [hu,Nat.mul_add,Nat.add_comm,Nat.add_assoc]

def contributors (t : Nat) : Nat := (List.finRange n).countP (fun q => tab.used p q t)

/-- Where party `p` finds the mask of contributor `p'` for element `i`. -/
def place (i : Nat) (p' : Fin n) (t : Nat) : Nat :=
  track.pos (tab.prgCtrs t) i
    (track.step*(i*tab.contributors p t + tab.rank p (List.finRange n) p' t))

theorem countP_maskOrder (size t : Nat) (ht : t < tab.numShares) :
    (tab.maskOrder size).countP (tab.hits p t) = size*tab.contributors p t := by
  induction size with
  | zero => simp [maskOrder]
  | succ size ih =>
    rw [maskOrder] at ih ⊢
    rw [List.range_succ,List.flatMap_append,List.countP_append,ih,List.flatMap_singleton,
      countP_row _ _ _ _ ht,Nat.succ_mul,contributors]

theorem maskUses_eq (size : Nat) :
    tab.maskUses track p size = (List.range size).flatMap fun i => (List.finRange n).flatMap fun p' =>
      ((List.range tab.numShares).filter (tab.used p p')).map
        (fun t => ⟨i,p',t,tab.place track p i p' t⟩) := by
  induction size with
  | zero => rfl
  | succ size ih =>
    rw [maskUses] at ih ⊢
    rw [maskOrder,List.range_succ,List.flatMap_append,← maskOrder,maskLoop_append,ih,
      List.flatMap_append,List.flatMap_singleton,List.flatMap_singleton,
      maskLoop_row _ _ _ _ _ (List.nodup_finRange n)]
    congr 1
    apply List.flatMap_congr
    intro p' _
    apply List.map_congr_left
    intro t ht
    have ht : t < tab.numShares := List.mem_range.mp (List.mem_filter.mp ht).1
    rw [after,countP_maskOrder _ _ _ _ ht,Nat.zero_add,← Nat.mul_add,place]

theorem mem_maskUses {size : Nat} {u : MaskUse n} :
    u ∈ tab.maskUses track p size ↔ u.i < size ∧ u.tIndex < tab.numShares ∧
      tab.used p u.pPrime u.tIndex ∧ u.pos = tab.place track p u.i u.pPrime u.tIndex := by
  rw [maskUses_eq]
  constructor
  · simp only [List.mem_flatMap,List.mem_range,List.mem_map,List.mem_filter]
    rintro ⟨i,hi,p',_,t,⟨ht,hu⟩,rfl⟩
    exact ⟨hi,ht,hu,rfl⟩
  · rintro ⟨hi,ht,hu,hpos⟩
    obtain ⟨i,p',t,pos⟩ := u
    simp only at hi ht hu hpos
    subst hpos
    simp only [List.mem_flatMap,List.mem_range,List.mem_map,List.mem_filter]
    exact ⟨i,hi,p',List.mem_finRange p',t,⟨ht,hu⟩,rfl⟩

end MultTable
end RssRing
