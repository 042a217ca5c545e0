import Mathlib.Algebra.BigOperators.Intervals
import Mathlib.Data.List.GetD
import Mathlib.Data.List.Range
import Mathlib.Data.Nat.Init
import Mathlib.Logic.Function.Basic
set_option autoImplicit false

namespace RssRing

section Index
variable {i j m s : Nat}

theorem index_lt (hi : i < m) (hj : j < s) : i*s + j < m*s := by
  have hmul := Nat.mul_le_mul_right s (show i+1 ≤ m by omega)
  rw [Nat.succ_mul] at hmul
  omega

theorem index_div (hj : j < s) (i : Nat) : (i*s + j)/s = i := by
  rw [Nat.mul_comm,Nat.mul_add_div (by omega),Nat.div_eq_of_lt hj,Nat.add_zero]

theorem index_mod (hj : j < s) (i : Nat) : (i*s + j)%s = j := by
  rw [Nat.mul_comm,Nat.mul_add_mod,Nat.mod_eq_of_lt hj]

theorem exists_index {x : Nat} (hx : x < m*s) : ∃ i j, i < m ∧ j < s ∧ x = i*s + j := by
  have hs : 0 < s := Nat.pos_of_ne_zero fun h => by simp [h] at hx
  exact ⟨x/s,x%s,(Nat.div_lt_iff_lt_mul hs).mpr hx,Nat.mod_lt x hs,(Nat.div_add_mod' x s).symm⟩

theorem index_unique {i' : Nat} (hi : i*s ≤ m ∧ m < i*s + s) (hi' : i'*s ≤ m ∧ m < i'*s + s) :
    i = i' := by
  have hdiv : ∀ {i}, i*s ≤ m ∧ m < i*s + s → m/s = i := by
    intro i hi
    have h := index_div (show m - i*s < s by omega) i
    rwa [Nat.add_sub_cancel' hi.1] at h
  rw [← hdiv hi,hdiv hi']

theorem eq_of_blocks {width x x' r r' : Nat} (hr : r < width) (hr' : r' < width)
    (h : x*width + r = x'*width + r') : x = x' ∧ r = r' := by
  have hdiv := congrArg (fun y => y/width) h
  have hmod := congrArg (fun y => y%width) h
  simp only [index_div hr,index_div hr',index_mod hr,index_mod hr'] at hdiv hmod
  exact ⟨hdiv,hmod⟩

end Index

section Blocks

theorem length_blocks {A : Type} (f : Nat → List A) (width count : Nat)
    (hf : ∀ l, l < count → (f l).length = width) :
    ((List.range count).flatMap f).length = count*width := by
  induction count with
  | zero => simp
  | succ count ih =>
    rw [List.range_succ,List.flatMap_append,List.length_append,ih fun l hl => hf l (by omega),
      List.flatMap_singleton,hf count (by omega),Nat.succ_mul]

theorem getD_blocks {A : Type} (d : A) (f : Nat → List A) (width count : Nat)
    (hf : ∀ l, l < count → (f l).length = width) {l x : Nat} (hl : l < count) (hx : x < width) :
    ((List.range count).flatMap f).getD (l*width + x) d = (f l).getD x d := by
  induction count with
  | zero => omega
  | succ count ih =>
    rw [List.range_succ,List.flatMap_append,List.flatMap_singleton]
    have hcount := length_blocks f width count fun l hl => hf l (by omega)
    rcases Nat.lt_succ_iff_lt_or_eq.mp hl with hl | rfl
    · have hin : l*width + x < count*width := index_lt hl hx
      rw [List.getD_append _ _ _ _ (hcount ▸ hin)]
      exact ih (fun l hl => hf l (by omega)) hl
    · rw [List.getD_append_right _ _ _ _ (by omega),hcount,Nat.add_sub_cancel_left]

theorem getD_map_range {A : Type} (d : A) (f : Nat → A) {m j : Nat} (hj : j < m) :
    ((List.range m).map f).getD j d = f j := by
  simp [List.getD_eq_getElem?_getD,hj]

theorem foldl_update {A : Type} (entries : List (Nat × A)) {x : Nat} {v : A}
    (hv : ∀ e ∈ entries, e.1 = x → e.2 = v) (old : Nat → A)
    (hx : old x = v ∨ ∃ e ∈ entries, e.1 = x) :
    entries.foldl (fun f e => Function.update f e.1 e.2) old x = v := by
  induction entries generalizing old with
  | nil => simpa using hx
  | cons e entries ih =>
    refine ih (fun e he => hv e (List.mem_cons_of_mem _ he)) _ ?_
    by_cases he : e.1 = x
    · left
      rw [← he]
      exact (Function.update_self ..).trans (hv e List.mem_cons_self he)
    · rcases hx with hx | ⟨e',he',hx⟩
      · left
        exact (Function.update_of_ne (fun h => he h.symm) ..).trans hx
      · right
        rcases List.mem_cons.mp he' with rfl | he'
        · exact absurd hx he
        · exact ⟨e',he',hx⟩

end Blocks

namespace Loops
variable {A B : Type}

theorem flatMap_range (m s : Nat) (f : Nat → Nat → A) :
    ((List.range m).flatMap fun i => (List.range s).map (f i)) =
      (List.range (m*s)).map fun x => f (x/s) (x%s) := by
  induction m with
  | zero => simp
  | succ m ih =>
    rw [List.range_succ,List.flatMap_append,ih,List.flatMap_singleton,Nat.succ_mul,List.range_add,
      List.map_append,List.map_map]
    congr 1
    refine List.map_congr_left fun j hj => ?_
    have hj : j < s := List.mem_range.mp hj
    simp only [Function.comp,index_div hj,index_mod hj]

theorem sum_range_mul {M : Type} [AddCommMonoid M] (m s : Nat) (f : Nat → Nat → M) :
    ∑ x ∈ Finset.range (m*s), f (x/s) (x%s) =
      ∑ i ∈ Finset.range m, ∑ j ∈ Finset.range s, f i j := by
  induction m with
  | zero => simp
  | succ m ih =>
    rw [Nat.succ_mul,Finset.sum_range_add,ih,Finset.sum_range_succ]
    congr 1
    refine Finset.sum_congr rfl fun j hj => ?_
    have hj : j < s := Finset.mem_range.mp hj
    rw [index_div hj,index_mod hj]

theorem zipIdx_range (N : Nat) (f : Nat → A) :
    ((List.range N).map f).zipIdx = (List.range N).map fun x => (f x,x) := by
  induction N with
  | zero => rfl
  | succ N ih =>
    rw [List.range_succ,List.map_append,List.zipIdx_append,ih,List.map_append]
    simp

theorem foldl_update_range (N : Nat) (val : Nat → B) (old : Nat → B) (x : Nat) :
    (List.range N).foldl (fun a i => Function.update a i (val i)) old x =
      if x < N then val x else old x := by
  induction N with
  | zero => simp
  | succ N ih =>
    rw [List.range_succ,List.foldl_append,List.foldl_cons,List.foldl_nil]
    by_cases hx : x = N
    · subst hx
      rw [Function.update_self,if_pos (Nat.lt_succ_self x)]
    · have hiff : x < N+1 ↔ x < N := by omega
      rw [Function.update_of_ne hx,ih]
      simp only [hiff]

theorem foldlM_isSome_iff {S : Type} {step : S → A → Option S} {P : A → Prop}
    (hstep : ∀ s t, (step s t).isSome ↔ P t) (ts : List A) (s : S) :
    (ts.foldlM step s).isSome ↔ ∀ t ∈ ts, P t := by
  induction ts generalizing s with
  | nil => simp
  | cons t ts ih =>
    rw [List.forall_mem_cons,← hstep s t,List.foldlM_cons]
    cases hs : step s t with
    | none => simp
    | some s' => simpa using ih s'

theorem foldlM_counts {S : Type} {step : S → A → Option S} {Holds : Nat → S → Prop}
    (hstep : ∀ k s t s', Holds k s → step s t = some s' → Holds (k+1) s') (ts : List A) {k : Nat}
    {s s' : S} (hs : Holds k s) (hrun : ts.foldlM step s = some s') :
    Holds (k + ts.length) s' := by
  induction ts generalizing k s with
  | nil =>
    cases hrun
    exact hs
  | cons t ts ih =>
    obtain ⟨s₁,hturn,hrest⟩ := Option.bind_eq_some_iff.mp hrun
    have h := ih (hstep k s t s₁ hs hturn) hrest
    rwa [List.length_cons,Nat.add_comm ts.length,← Nat.add_assoc]

theorem foldlM_collects {S : Type} {step : S → A → Option S} {out : A → List B}
    {Holds : S → List B → Prop} {cap : Nat} (ts : List A)
    (hstep : ∀ s l t, t ∈ ts → Holds s l → (l ++ out t).length ≤ cap →
      ∃ s', step s t = some s' ∧ Holds s' (l ++ out t)) {s : S} {l : List B} (hs : Holds s l)
    (hroom : (l ++ ts.flatMap out).length ≤ cap) :
    ∃ s', ts.foldlM step s = some s' ∧ Holds s' (l ++ ts.flatMap out) := by
  induction ts generalizing s l with
  | nil => exact ⟨s,rfl,by rwa [List.flatMap_nil,List.append_nil]⟩
  | cons t ts ih =>
    rw [List.flatMap_cons,← List.append_assoc] at hroom ⊢
    have hfirst : (l ++ out t).length ≤ cap := by
      rw [List.length_append] at hroom
      omega
    obtain ⟨s',hturn,hs'⟩ := hstep s l t List.mem_cons_self hs hfirst
    obtain ⟨s'',hrest,hs''⟩ := ih (fun s l t ht => hstep s l t (List.mem_cons_of_mem _ ht))
      hs' hroom
    refine ⟨s'',?_,hs''⟩
    rw [List.foldlM_cons,hturn]
    exact hrest

theorem foldl_modify (target : Nat → Nat) (change : Nat → A → A) (d : Nat → A) (m : Nat)
    (honce : ∀ i j, i < m → j < m → target i = target j → i = j) :
    let d' := (List.range m).foldl
      (fun d j => Function.update d (target j) (change j (d (target j)))) d
    (∀ j, j < m → d' (target j) = change j (d (target j))) ∧
      ∀ x, (∀ j, j < m → target j ≠ x) → d' x = d x := by
  induction m with
  | zero => exact ⟨fun j hj => absurd hj (Nat.not_lt_zero j),fun x _ => rfl⟩
  | succ m ih =>
    obtain ⟨hset,hkeep⟩ := ih fun i j hi hj => honce i j (by omega) (by omega)
    have hlast := hkeep (target m) fun j hj heq => by
      have := honce j m (by omega) (by omega) heq
      omega
    simp only [List.range_succ,List.foldl_append,List.foldl_cons,List.foldl_nil]
    constructor
    · intro j hj
      rcases Nat.lt_succ_iff_lt_or_eq.mp hj with hj | rfl
      · have hne : target j ≠ target m := fun heq => by
          have := honce j m (by omega) (by omega) heq
          omega
        rw [Function.update_of_ne hne]
        exact hset j hj
      · rw [Function.update_self,hlast]
    · intro x hx
      rw [Function.update_of_ne (hx m (by omega)).symm]
      exact hkeep x fun j hj => hx j (by omega)

end Loops
end RssRing
