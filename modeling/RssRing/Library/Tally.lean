import Mathlib.Algebra.BigOperators.Group.Multiset.Basic
import Mathlib.Algebra.Order.BigOperators.Group.Multiset
import Mathlib.Algebra.BigOperators.Fin
import Mathlib.Algebra.BigOperators.Ring.Finset
import Mathlib.Combinatorics.Colex
set_option autoImplicit false

namespace RssRing.Tally
open Finset

/-- How often each number occurs in `s`, as the digits of one number in base `b`.
It takes one addition for each element, where comparing the elements with each
other takes a quadratic number of steps. -/
def tally (b : Nat) (s : Multiset Nat) : Nat := (s.map fun c => b^c).sum

theorem tally_eq_sum (b : Nat) (s : Multiset Nat) {N : Nat} (hN : ∀ c ∈ s, c < N) :
    tally b s = ∑ c : Fin N, s.count c.val * b^c.val := by
  rw [tally,Finset.sum_multiset_map_count,Fin.sum_univ_eq_sum_range (fun c => s.count c * b^c)]
  simp only [nsmul_eq_mul,Nat.cast_id]
  apply Finset.sum_subset
  · intro c hc
    exact Finset.mem_range.mpr (hN c (Multiset.mem_toFinset.mp hc))
  · intro c _ hc
    rw [Multiset.count_eq_zero.mpr (fun h => hc (Multiset.mem_toFinset.mpr h)),Nat.zero_mul]

theorem count_eq_of_tally {b : Nat} {s t : Multiset Nat} (hs : s.card < b) (ht : t.card < b)
    (h : tally b s = tally b t) (c : Nat) : s.count c = t.count c := by
  let N := (s + t).sum + c + 1
  have hle : ∀ u : Multiset Nat, u ≤ s + t → ∀ d ∈ u, d < N := by
    intro u hu d hd
    have hsum := Multiset.le_sum_of_mem (Multiset.mem_of_le hu hd)
    omega
  let counts (u : Multiset Nat) (hu : u.card < b) : Fin N → Fin b :=
    fun d => ⟨u.count d.val,(Multiset.count_le_card d.val u).trans_lt hu⟩
  have hdigits : finFunctionFinEquiv (counts s hs) = finFunctionFinEquiv (counts t ht) := by
    apply Fin.ext
    rw [finFunctionFinEquiv_apply,finFunctionFinEquiv_apply]
    rw [tally_eq_sum b s (hle s (Multiset.le_add_right s t)),
      tally_eq_sum b t (hle t (Multiset.le_add_left t s))] at h
    exact h
  have hc := congrFun (finFunctionFinEquiv.injective hdigits) ⟨c,by omega⟩
  exact congrArg Fin.val hc

theorem eq_of_tally {A : Type} {code : A → Nat} (hcode : Function.Injective code) {b : Nat}
    {s t : Multiset A} (hs : s.card < b) (ht : t.card < b)
    (h : tally b (s.map code) = tally b (t.map code)) : s = t := by
  apply Multiset.map_injective hcode
  ext c
  exact count_eq_of_tally (by rwa [Multiset.card_map]) (by rwa [Multiset.card_map]) h c

/-- A list runs once through all keys when the codes of its keys run once through
the numbers below a bound. -/
theorem countP_of_tally {A K : Type} [DecidableEq K] {code : K → Nat}
    (hcode : Function.Injective code) {N : Nat} (hlt : ∀ x, code x < N) {l : List A} {g : A → K}
    {b : Nat} (hl : l.length < b) (hN : N < b)
    (h : tally b ↑(l.map fun a => code (g a)) = tally b (Multiset.range N)) (x : K) :
    l.countP (fun a => g a = x) = 1 := by
  have hcount := count_eq_of_tally (by simpa using hl) (by simpa using hN) h (code x)
  rw [Multiset.count_eq_one_of_mem (Multiset.nodup_range N) (Multiset.mem_range.mpr (hlt x)),
    Multiset.coe_count,List.count,List.countP_map] at hcount
  rw [← hcount]
  apply List.countP_congr
  intro a _
  simp [hcode.eq_iff]

section
variable {A T : Type} {f : A → T} {t : Finset A} {s : Finset T}

theorem image_eq_of_map [DecidableEq T] (h : t.val.map f = s.val) : t.image f = s := by
  ext x
  rw [Finset.mem_image,← Finset.mem_val (s := s),← h,Multiset.mem_map]
  rfl

theorem injOn_of_map (h : t.val.map f = s.val) : Set.InjOn f t := by
  intro x hx y hy hxy
  exact Multiset.inj_on_of_nodup_map (h ▸ s.nodup) x hx y hy hxy

end

def maskOf {n : Nat} (T : Finset (Fin n)) : Nat := ∑ d ∈ T, 2^d.val

theorem maskOf_injective {n : Nat} : Function.Injective (maskOf : Finset (Fin n) → Nat) := by
  intro T U h
  have hval : ∑ c ∈ T.map Fin.valEmbedding, 2^c = ∑ c ∈ U.map Fin.valEmbedding, 2^c := by
    rw [Finset.sum_map,Finset.sum_map]
    exact h
  exact Finset.map_injective Fin.valEmbedding (Finset.geomSum_injective (n := 2) le_rfl hval)

end RssRing.Tally
