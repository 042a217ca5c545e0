import Mathlib.Algebra.BigOperators.Ring.Finset
import Mathlib.Algebra.BigOperators.Fin
import Mathlib.Data.Fintype.BigOperators
import Mathlib.Data.Fintype.Prod
import Mathlib.Algebra.Group.Fin.Basic
import Mathlib.Algebra.Group.Units.Equiv
import Mathlib.Algebra.Module.BigOperators
import Mathlib.Tactic.Abel
set_option autoImplicit false

namespace RssRing.Replicated
open Finset

/-- A replicated sharing keeps every named share at several parties. `hold p s`
is the name of the share in slot `s` of party `p`. -/
structure Pattern (P T : Type) where
  slots : Nat
  hold : P → Nat → T
  names : Finset T
  hold_mem : ∀ p s, s < slots → hold p s ∈ names
  held : ∀ t ∈ names, ∃ p s, s < slots ∧ hold p s = t

namespace Pattern
variable {P T R R' : Type} (H : Pattern P T)

def Holds (x : P → Nat → R) (σ : T → R) : Prop :=
  ∀ p s, s < H.slots → x p s = σ (H.hold p s)

def Consistent (x : P → Nat → R) : Prop :=
  ∀ p s q t, s < H.slots → t < H.slots → H.hold p s = H.hold q t → x p s = x q t

/-- The slots are consistent and the named shares, each counted once, add up
to `v`. -/
def IsSharing [AddCommMonoid R] (x : P → Nat → R) (v : R) : Prop :=
  ∃ σ : T → R, H.Holds x σ ∧ ∑ t ∈ H.names, σ t = v

variable {H}

theorem Holds.consistent {x : P → Nat → R} {σ : T → R} (h : H.Holds x σ) : H.Consistent x := by
  intro p s q t hs ht heq
  rw [h p s hs,h q t ht,heq]

theorem IsSharing.consistent [AddCommMonoid R] {x : P → Nat → R} {v : R}
    (h : H.IsSharing x v) : H.Consistent x := by
  obtain ⟨σ,hσ,_⟩ := h
  exact hσ.consistent

theorem Holds.comp {x : P → Nat → R} {σ : T → R} (h : H.Holds x σ) (f : R → R') :
    H.Holds (fun p s => f (x p s)) (fun t => f (σ t)) := by
  intro p s hs
  exact congrArg f (h p s hs)

theorem IsSharing.congr [AddCommMonoid R] {x y : P → Nat → R} {v : R} (h : H.IsSharing x v)
    (hxy : ∀ p s, s < H.slots → y p s = x p s) : H.IsSharing y v := by
  obtain ⟨σ,hσ,hv⟩ := h
  exact ⟨σ,fun p s hs => (hxy p s hs).trans (hσ p s hs),hv⟩

theorem IsSharing.unique [AddCommMonoid R] {x : P → Nat → R} {v w : R}
    (hv : H.IsSharing x v) (hw : H.IsSharing x w) : v = w := by
  obtain ⟨σ,hσ,rfl⟩ := hv
  obtain ⟨τ,hτ,rfl⟩ := hw
  apply Finset.sum_congr rfl
  intro t ht
  obtain ⟨p,s,hs,rfl⟩ := H.held t ht
  rw [← hσ p s hs,hτ p s hs]

theorem Consistent.exists_holds [Inhabited R] {x : P → Nat → R} (h : H.Consistent x) :
    ∃ σ, H.Holds x σ := by
  classical
  let σ : T → R := fun t =>
    if ht : ∃ p s, s < H.slots ∧ H.hold p s = t then x ht.choose ht.choose_spec.choose else default
  refine ⟨σ,?_⟩
  intro p s hs
  have ht : ∃ q u, u < H.slots ∧ H.hold q u = H.hold p s := ⟨p,s,hs,rfl⟩
  have hspec := ht.choose_spec.choose_spec
  simp only [σ,dif_pos ht]
  exact h p s _ _ hs hspec.1 hspec.2.symm

theorem Consistent.exists_sharing [AddCommMonoid R] {x : P → Nat → R} (h : H.Consistent x) :
    ∃ v, H.IsSharing x v := by
  have : Inhabited R := ⟨0⟩
  obtain ⟨σ,hσ⟩ := h.exists_holds
  exact ⟨_,σ,hσ,rfl⟩

theorem IsSharing.add [AddCommMonoid R] {x y : P → Nat → R} {v w : R}
    (hx : H.IsSharing x v) (hy : H.IsSharing y w) :
    H.IsSharing (fun p s => x p s + y p s) (v + w) := by
  obtain ⟨σ,hσ,rfl⟩ := hx
  obtain ⟨τ,hτ,rfl⟩ := hy
  refine ⟨fun t => σ t + τ t,?_,Finset.sum_add_distrib⟩
  intro p s hs
  simp only [hσ p s hs,hτ p s hs]

theorem IsSharing.map [AddCommMonoid R] [AddCommMonoid R'] {x : P → Nat → R} {v : R}
    (hx : H.IsSharing x v) (f : R →+ R') : H.IsSharing (fun p s => f (x p s)) (f v) := by
  obtain ⟨σ,hσ,rfl⟩ := hx
  exact ⟨fun t => f (σ t),hσ.comp f,(map_sum f σ _).symm⟩

theorem IsSharing.sub [AddCommGroup R] {x y : P → Nat → R} {v w : R}
    (hx : H.IsSharing x v) (hy : H.IsSharing y w) :
    H.IsSharing (fun p s => x p s - y p s) (v - w) := by
  obtain ⟨σ,hσ,rfl⟩ := hx
  obtain ⟨τ,hτ,rfl⟩ := hy
  refine ⟨fun t => σ t - τ t,?_,by simp⟩
  intro p s hs
  simp only [hσ p s hs,hτ p s hs]

theorem IsSharing.const_mul [NonUnitalNonAssocSemiring R] {x : P → Nat → R} {v : R}
    (hx : H.IsSharing x v) (c : R) : H.IsSharing (fun p s => c * x p s) (c * v) :=
  hx.map (AddMonoidHom.mulLeft c)

theorem isSharing_zero [AddCommMonoid R] : H.IsSharing (fun _ _ => (0 : R)) 0 :=
  ⟨fun _ => 0,fun _ _ _ => rfl,Finset.sum_const_zero⟩

theorem isSharing_indexed [AddCommMonoid R] {m : Nat} {place : T → Nat}
    (hplace : H.names.val.map place = Multiset.range m) {index : P → Nat → Nat}
    (hindex : ∀ p s, s < H.slots → index p s = place (H.hold p s)) (f : Nat → R) :
    H.IsSharing (fun p s => f (index p s)) (∑ j ∈ range m, f j) := by
  refine ⟨fun t => f (place t),fun p s hs => congrArg f (hindex p s hs),?_⟩
  calc ∑ t ∈ H.names, f (place t) = ((H.names.val.map place).map f).sum := by
        rw [Multiset.map_map]; rfl
    _ = ∑ j ∈ range m, f j := by rw [hplace]; rfl

theorem isSharing_public [AddCommMonoid R] [DecidableEq T] {t₀ : T} (ht : t₀ ∈ H.names) (c : R)
    {x : P → Nat → R} (hx : ∀ p s, s < H.slots → x p s = if H.hold p s = t₀ then c else 0) :
    H.IsSharing x c := by
  refine ⟨fun t => if t = t₀ then c else 0,hx,?_⟩
  rw [Finset.sum_ite_eq' H.names t₀,if_pos ht]

theorem IsSharing.sum [AddCommMonoid R] {ι : Type} {x : ι → P → Nat → R} {v : ι → R}
    (J : Finset ι) (hx : ∀ j ∈ J, H.IsSharing (x j) (v j)) :
    H.IsSharing (fun p s => ∑ j ∈ J, x j p s) (∑ j ∈ J, v j) := by
  classical
  induction J using Finset.induction_on with
  | empty => simpa using isSharing_zero
  | insert j J hj ih =>
    simp only [Finset.sum_insert hj]
    have hJ := ih (fun i hi => hx i (Finset.mem_insert_of_mem hi))
    exact (hx j (Finset.mem_insert_self j J)).add hJ

/-- Resharing: party `q` hands what it has computed to the holders of `χ q`, less
one mask for every share it contributes to, and each mask is also added to the
share it belongs to. The masks vanish from the sum. -/
theorem sum_reshared [Fintype P] [DecidableEq T] [AddCommGroup R] {χ : P → T}
    (hχ : ∀ q, χ q ∈ H.names) (C : T → P → Prop) [∀ t, DecidablePred (C t)] (mask : T → P → R)
    (out : P → R) :
    ∑ t ∈ H.names, ((∑ q, if C t q then mask t q else 0) +
      ∑ q with χ q = t, (out q - ∑ u ∈ H.names, if C u q then mask u q else 0)) = ∑ q, out q := by
  rw [Finset.sum_add_distrib,Finset.sum_fiberwise_of_maps_to (fun q _ => hχ q),
    Finset.sum_sub_distrib,Finset.sum_comm,add_sub_cancel]

/-- A zero sharing: each party adds signed copies of the shares it holds, and for
every share the signs cancel over the parties. -/
theorem sum_signed [Fintype P] [DecidableEq T] [AddCommGroup R] (signed : P → List (Nat × Int))
    (hlt : ∀ p, ∀ q ∈ signed p, q.1 < H.slots)
    (hsigns : ∀ t ∈ H.names,
      ∑ p, ((signed p).map fun q => if H.hold p q.1 = t then q.2 else 0).sum = 0) (μ : T → R) :
    ∑ p, ((signed p).map fun q => q.2 • μ (H.hold p q.1)).sum = 0 := by
  have hparty : ∀ p, ∀ l : List (Nat × Int), (∀ q ∈ l, q.1 < H.slots) →
      (l.map fun q => q.2 • μ (H.hold p q.1)).sum =
      ∑ t ∈ H.names, (l.map fun q => if H.hold p q.1 = t then q.2 else 0).sum • μ t := by
    intro p l hl
    induction l with
    | nil => simp
    | cons q l ih =>
      have hq : H.hold p q.1 ∈ H.names := H.hold_mem p q.1 (hl q List.mem_cons_self)
      have ih := ih (fun r hr => hl r (List.mem_cons_of_mem q hr))
      simp only [List.map_cons,List.sum_cons,ih,add_smul,Finset.sum_add_distrib,ite_smul,zero_smul,
        Finset.sum_ite_eq,hq,if_true]
  simp only [hparty _ _ (hlt _)]
  rw [Finset.sum_comm]
  refine Finset.sum_eq_zero (fun t ht => ?_)
  rw [← Finset.sum_smul,hsigns t ht,zero_smul]

end Pattern

/-- The parties of a cyclic pattern see the same table, each from its own point
of view: share names are pairs of a party and a class, and slot `s` of party `p`
is the class `cls s` of the party `off s` places further on. -/
structure Rotation {n : Nat} {T : Type} (H : Pattern (Fin n) T) (m : Nat) where
  base : Fin n × Fin m → T
  off : Nat → Fin n
  cls : Nat → Fin m
  hold_eq : ∀ p s, s < H.slots → H.hold p s = base (p + off s,cls s)
  base_mem : ∀ x, base x ∈ H.names
  base_inj : Function.Injective base
  base_onto : ∀ t ∈ H.names, ∃ x, base x = t

namespace Rotation
variable {n m : Nat} {T R : Type} {H : Pattern (Fin n) T} (ρ : Rotation H m)

theorem sum_names [AddCommMonoid R] (f : T → R) :
    ∑ t ∈ H.names, f t = ∑ x : Fin n × Fin m, f (ρ.base x) := by
  symm
  apply Finset.sum_bij (fun x _ => ρ.base x)
  · intro x _; exact ρ.base_mem x
  · intro x _ y _ h; exact ρ.base_inj h
  · intro t ht
    obtain ⟨x,hx⟩ := ρ.base_onto t ht
    exact ⟨x,Finset.mem_univ x,hx⟩
  · intro x _; rfl

theorem isSharing [NeZero n] [NeZero m] [AddCommMonoid R] {x : Fin n → Nat → R}
    (τ : Fin n → Fin m → R)
    (hx : ∀ p s, s < H.slots → x p s = τ (p + ρ.off s) (ρ.cls s)) :
    H.IsSharing x (∑ p, ∑ c, τ p c) := by
  have hinv : ∀ y, Function.invFun ρ.base (ρ.base y) = y :=
    Function.leftInverse_invFun ρ.base_inj
  refine ⟨fun t => τ (Function.invFun ρ.base t).1 (Function.invFun ρ.base t).2,?_,?_⟩
  · intro p s hs
    simp only [hx p s hs,ρ.hold_eq p s hs,hinv]
  · rw [ρ.sum_names,Fintype.sum_prod_type]
    simp only [hinv]

def key (q : Nat × Nat) : Fin m × Fin m × Fin n := (ρ.cls q.1,ρ.cls q.2,ρ.off q.2 - ρ.off q.1)

def keyCode (x : Fin m × Fin m × Fin n) : Nat :=
  (finProdFinEquiv (x.1,finProdFinEquiv x.2)).val

theorem keyCode_injective : Function.Injective (keyCode : Fin m × Fin m × Fin n → Nat) := by
  intro x y h
  obtain ⟨hfst,hsnd⟩ := Prod.mk.inj (finProdFinEquiv.injective (Fin.ext h))
  exact Prod.ext hfst (finProdFinEquiv.injective hsnd)

theorem keyCode_lt (x : Fin m × Fin m × Fin n) : keyCode x < m*(m*n) :=
  (finProdFinEquiv (x.1,finProdFinEquiv x.2)).isLt

theorem sum_list_eq_sum_univ {A K : Type} [Fintype K] [DecidableEq K] [AddCommMonoid R]
    (l : List A) (g : A → K) (h : ∀ x, l.countP (fun a => g a = x) = 1) (f : K → R) :
    (l.map (fun a => f (g a))).sum = ∑ x, f x := by
  have hc : ∀ x, (l.map g).count x = 1 := by
    intro x
    rw [List.count,List.countP_map,← h x]
    apply List.countP_congr
    intro a _
    simp
  have huniv : (l.map g).toFinset = Finset.univ := by
    ext x
    simp only [List.mem_toFinset,Finset.mem_univ,iff_true]
    exact List.count_pos_iff.mp (by rw [hc x]; exact Nat.one_pos)
  have hmap : l.map (fun a => f (g a)) = (l.map g).map f := by rw [List.map_map]; rfl
  rw [hmap,Finset.sum_list_map_count,huniv]
  exact Finset.sum_congr rfl (fun x _ => by rw [hc x,one_nsmul])

/-- If every class of slot pairs is listed exactly once, the parties together
compute every cross product exactly once. -/
theorem sum_cross [NeZero n] [CommSemiring R] (pairs : List (Nat × Nat))
    (hlt : ∀ q ∈ pairs, q.1 < H.slots ∧ q.2 < H.slots)
    (hcount : ∀ x, pairs.countP (fun q => ρ.key q = x) = 1) (α β : T → R) :
    ∑ p : Fin n, (pairs.map (fun q => α (H.hold p q.1) * β (H.hold p q.2))).sum =
      (∑ t ∈ H.names, α t) * ∑ t ∈ H.names, β t := by
  have hturn : ∀ q ∈ pairs, ∑ p : Fin n, α (H.hold p q.1) * β (H.hold p q.2) =
      ∑ p : Fin n, α (ρ.base (p,(ρ.key q).1)) *
        β (ρ.base (p + (ρ.key q).2.2,(ρ.key q).2.1)) := by
    intro q hq
    obtain ⟨h₁,h₂⟩ := hlt q hq
    refine Fintype.sum_equiv (Equiv.addRight (ρ.off q.1)) _ _ (fun p => ?_)
    have hshift : p + ρ.off q.1 + (ρ.off q.2 - ρ.off q.1) = p + ρ.off q.2 := by abel
    simp only [ρ.hold_eq _ _ h₁,ρ.hold_eq _ _ h₂,key,Equiv.coe_addRight,hshift]
  have hsum : ∀ l : List (Nat × Nat), (∀ q ∈ l, q ∈ pairs) →
      ∑ p : Fin n, (l.map (fun q => α (H.hold p q.1) * β (H.hold p q.2))).sum =
      (l.map (fun q => ∑ p : Fin n,
        α (ρ.base (p,(ρ.key q).1)) * β (ρ.base (p + (ρ.key q).2.2,(ρ.key q).2.1)))).sum := by
    intro l hl
    induction l with
    | nil => simp
    | cons q l ih =>
      simp only [List.map_cons,List.sum_cons,Finset.sum_add_distrib]
      rw [hturn q (hl q List.mem_cons_self),ih (fun r hr => hl r (List.mem_cons_of_mem q hr))]
  have hdist : ∀ c c', ∑ d : Fin n, ∑ p : Fin n, α (ρ.base (p,c)) * β (ρ.base (p + d,c')) =
      (∑ p : Fin n, α (ρ.base (p,c))) * ∑ q : Fin n, β (ρ.base (q,c')) := by
    intro c c'
    rw [Finset.sum_comm,Finset.sum_mul_sum]
    refine Finset.sum_congr rfl (fun p _ => ?_)
    exact Fintype.sum_equiv (Equiv.addLeft p) _ _ (fun d => rfl)
  rw [hsum pairs (fun _ h => h),sum_list_eq_sum_univ pairs ρ.key hcount (fun x => ∑ p : Fin n,
    α (ρ.base (p,x.1)) * β (ρ.base (p + x.2.2,x.2.1))),ρ.sum_names,ρ.sum_names]
  simp only [Fintype.sum_prod_type,hdist]
  rw [← Finset.sum_mul_sum,Finset.sum_comm (f := fun c p => α (ρ.base (p,c))),
    Finset.sum_comm (f := fun c p => β (ρ.base (p,c)))]

end Rotation
end RssRing.Replicated
