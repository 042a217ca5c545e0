import Mathlib
set_option autoImplicit false

namespace RssRing.Coupling

variable {ι β : Type} {N M : ι → Nat}

abbrev Blocks (N : ι → Nat) (β : Type) := (j : ι) → Fin (N j) → β

def take (N : ι → Nat) (ω : ι → Nat → β) : Blocks N β := fun j i => ω j i

def drop (N : ι → Nat) (ω : ι → Nat → β) : ι → Nat → β := fun j i => ω j (N j + i)

def join (b : Blocks N β) (ω : ι → Nat → β) : ι → Nat → β := fun j i =>
  if h : i < N j then b j ⟨i,h⟩ else ω j (i - N j)

theorem join_of_lt {j : ι} {i : Nat} (b : Blocks N β) (ω : ι → Nat → β) (h : i < N j) :
    join b ω j i = b j ⟨i,h⟩ := dif_pos h

@[simp] theorem take_join (b : Blocks N β) (ω : ι → Nat → β) : take N (join b ω) = b := by
  funext j i
  simp [take,join]

@[simp] theorem drop_join (b : Blocks N β) (ω : ι → Nat → β) : drop N (join b ω) = ω := by
  funext j i
  simp [drop,join]

@[simp] theorem join_take_drop (ω : ι → Nat → β) : join (take N ω) (drop N ω) = ω := by
  funext j i
  by_cases h : i < N j
  · simp [join,take,h]
  · simp [join,drop,h,Nat.add_sub_cancel' (Nat.le_of_not_lt h)]

@[simp] theorem drop_zero (ω : ι → Nat → β) : drop 0 ω = ω := by
  funext j i
  simp [drop]

theorem drop_drop (ω : ι → Nat → β) : drop M (drop N ω) = drop (N + M) ω := by
  funext j i
  simp [drop,Nat.add_assoc]

def cut (N : ι → Nat) : (ι → Nat → β) ≃ Blocks N β × (ι → Nat → β) where
  toFun ω := (take N ω,drop N ω)
  invFun b := join b.1 b.2
  left_inv := join_take_drop
  right_inv b := Prod.ext (take_join b.1 b.2) (drop_join b.1 b.2)

/-- A permutation of the streams under which what is taken depends on what was taken. -/
def restrict [Inhabited β] (φ : (ι → Nat → β) ≃ (ι → Nat → β))
    (h : ∀ ω ω', take N ω = take N ω' → take N (φ ω) = take N (φ ω'))
    (h' : ∀ ω ω', take N ω = take N ω' → take N (φ.symm ω) = take N (φ.symm ω')) :
    Blocks N β ≃ Blocks N β where
  toFun b := take N (φ (join b default))
  invFun b := take N (φ.symm (join b default))
  left_inv b := by
    show take N (φ.symm (join (take N (φ (join b default))) default)) = b
    rw [h' _ (φ (join b default)) (take_join _ _),φ.symm_apply_apply,take_join]
  right_inv b := by
    show take N (φ (join (take N (φ.symm (join b default))) default)) = b
    rw [h _ (φ.symm (join b default)) (take_join _ _),φ.apply_symm_apply,take_join]

def split (N M : ι → Nat) : Blocks (N + M) β ≃ Blocks N β × Blocks M β where
  toFun b := (fun j i => b j (Fin.castAdd (M j) i),fun j i => b j (Fin.natAdd (N j) i))
  invFun b := fun j => Fin.append (b.1 j) (b.2 j)
  left_inv b := funext fun j => Fin.append_castAdd_natAdd
  right_inv b := by
    refine Prod.ext (funext fun j => funext fun i => ?_) (funext fun j => funext fun i => ?_)
    · exact Fin.append_left (b.1 j) (b.2 j) i
    · exact Fin.append_right (b.1 j) (b.2 j) i

/-- Two computations on states that hold the streams; `put x ω` is the state `x` with the
streams `ω`. Both take `N` values, and when the values are matched by a permutation the
states they leave are related. -/
def Coupled {X S : Type} (put : X → (ι → Nat → β) → S) (N : ι → Nat) (m m' : (ι → Nat → β) → S)
    (Q : X → X → Prop) : Prop :=
  ∃ (f f' : Blocks N β → X) (φ : Blocks N β ≃ Blocks N β),
    (∀ ω, m ω = put (f (take N ω)) (drop N ω)) ∧ (∀ ω, m' ω = put (f' (take N ω)) (drop N ω)) ∧
    ∀ b, Q (f b) (f' (φ b))

namespace Coupled
variable {X X' S S' : Type} {put : X → (ι → Nat → β) → S} {put' : X' → (ι → Nat → β) → S'}
  {m m' : (ι → Nat → β) → S} {Q R : X → X → Prop}

theorem mono (h : Coupled put N m m' Q) (hQ : ∀ x x', Q x x' → R x x') : Coupled put N m m' R := by
  obtain ⟨f,f',φ,hm,hm',h⟩ := h
  exact ⟨f,f',φ,hm,hm',fun b => hQ _ _ (h b)⟩

theorem still (put : X → (ι → Nat → β) → S) (x x' : X) (h : Q x x') :
    Coupled put 0 (put x) (put x') Q :=
  ⟨fun _ => x,fun _ => x',Equiv.refl _,fun ω => by rw [drop_zero],fun ω => by rw [drop_zero],
    fun _ => h⟩

theorem of_local (hm : ∀ b : Blocks N β, ∃ x, ∀ ω, m (join b ω) = put x ω)
    (hm' : ∀ b : Blocks N β, ∃ x, ∀ ω, m' (join b ω) = put x ω) (φ : Blocks N β ≃ Blocks N β)
    (hQ : ∀ b x x', (∀ ω, m (join b ω) = put x ω) → (∀ ω, m' (join (φ b) ω) = put x' ω) → Q x x') :
    Coupled put N m m' Q := by
  choose f hf using hm
  choose f' hf' using hm'
  refine ⟨f,f',φ,fun ω => ?_,fun ω => ?_,fun b => hQ b _ _ (hf b) (hf' (φ b))⟩
  · rw [← hf (take N ω) (drop N ω),join_take_drop]
  · rw [← hf' (take N ω) (drop N ω),join_take_drop]

/-- One computation after another. The permutation of what the second one takes may depend
on what the first one has taken. -/
theorem bind (put' : X' → (ι → Nat → β) → S') (F F' : S → S') {Q : X' → X' → Prop}
    (h : Coupled put N m m' R)
    (hF : ∀ x x', R x x' → Coupled put' M (fun ω => F (put x ω)) (fun ω => F' (put x' ω)) Q) :
    Coupled put' (N + M) (fun ω => F (m ω)) (fun ω => F' (m' ω)) Q := by
  obtain ⟨f,f',φ,hm,hm',hR⟩ := h
  choose g g' ψ hg hg' hQ using fun b => hF _ _ (hR b)
  refine ⟨fun c => g (split N M c).1 (split N M c).2,
    fun c => g' (φ.symm (split N M c).1) (split N M c).2,
    (split N M).trans ((Equiv.prodShear φ ψ).trans (split N M).symm),fun ω => ?_,fun ω => ?_,
    fun c => ?_⟩
  · calc F (m ω) = F (put (f (take N ω)) (drop N ω)) := by rw [hm]
      _ = put' (g (take N ω) (take M (drop N ω))) (drop M (drop N ω)) := hg _ _
      _ = _ := by rw [drop_drop]; rfl
  · have hstart := hg' (φ.symm (take N ω)) (drop N ω)
    rw [φ.apply_symm_apply] at hstart
    calc F' (m' ω) = F' (put (f' (take N ω)) (drop N ω)) := by rw [hm']
      _ = put' (g' (φ.symm (take N ω)) (take M (drop N ω))) (drop M (drop N ω)) := hstart
      _ = _ := by rw [drop_drop]; rfl
  · simpa using hQ (split N M c).1 (split N M c).2

theorem map (put' : X' → (ι → Nat → β) → S') (F F' : S → S') (g g' : X → X')
    {Q : X' → X' → Prop} (h : Coupled put N m m' R)
    (hF : ∀ x ω, F (put x ω) = put' (g x) ω) (hF' : ∀ x ω, F' (put x ω) = put' (g' x) ω)
    (hQ : ∀ x x', R x x' → Q (g x) (g' x')) :
    Coupled put' N (fun ω => F (m ω)) (fun ω => F' (m' ω)) Q := by
  obtain ⟨f,f',φ,hm,hm',h⟩ := h
  exact ⟨fun b => g (f b),fun b => g' (f' b),φ,fun ω => (congrArg F (hm ω)).trans (hF _ _),
    fun ω => (congrArg F' (hm' ω)).trans (hF' _ _),fun b => hQ _ _ (h b)⟩

theorem foldl {A : Type} (F F' : S → A → S) {amount : A → ι → Nat} (steps : List A)
    (hF : ∀ a ∈ steps, ∀ x x', R x x' →
      Coupled put (amount a) (fun ω => F (put x ω) a) (fun ω => F' (put x' ω) a) R)
    {x x' : X} (hR : R x x') : Coupled put (steps.map amount).sum
      (fun ω => steps.foldl F (put x ω)) (fun ω => steps.foldl F' (put x' ω)) R := by
  induction steps generalizing x x' with
  | nil => exact still put x x' hR
  | cons a steps ih =>
    exact (hF a List.mem_cons_self x x' hR).bind put (fun s => steps.foldl F s)
      (fun s => steps.foldl F' s) fun y y' hy => ih (fun a ha => hF a (List.mem_cons_of_mem _ ha)) hy

theorem strengthen [Inhabited β] (U U' : S → Prop) (V V' : X → Prop) (h : Coupled put N m m' Q)
    (hU : ∀ ω, U (m ω)) (hU' : ∀ ω, U' (m' ω)) (hV : ∀ x ω, U (put x ω) → V x)
    (hV' : ∀ x ω, U' (put x ω) → V' x) :
    Coupled put N m m' fun x x' => Q x x' ∧ V x ∧ V' x' := by
  obtain ⟨f,f',φ,hm,hm',h⟩ := h
  refine ⟨f,f',φ,hm,hm',fun b => ⟨h b,?_,?_⟩⟩
  · have hleft := hU (join b default)
    rw [hm,take_join,drop_join] at hleft
    exact hV _ _ hleft
  · have hright := hU' (join (φ b) default)
    rw [hm',take_join,drop_join] at hright
    exact hV' _ _ hright

theorem exists_equiv (h : Coupled put N m m' Q) :
    ∃ φ : (ι → Nat → β) ≃ (ι → Nat → β), ∀ ω, ∃ x x' ω', m ω = put x ω' ∧ m' (φ ω) = put x' ω' ∧
      Q x x' := by
  obtain ⟨f,f',φ,hm,hm',h⟩ := h
  refine ⟨(cut N).trans ((Equiv.prodCongr φ (Equiv.refl _)).trans (cut N).symm),fun ω => ?_⟩
  refine ⟨_,_,drop N ω,hm ω,?_,h (take N ω)⟩
  have hstream : ((cut N).trans ((Equiv.prodCongr φ (Equiv.refl _)).trans (cut N).symm)) ω =
      join (φ (take N ω)) (drop N ω) := rfl
  rw [hstream,hm',take_join,drop_join]

end Coupled

end RssRing.Coupling
