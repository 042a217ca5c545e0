import RssRing.ProtocolsComposite.Suite
set_option autoImplicit false

/-! Routines written for two slots a party, where a party has more. -/

namespace RssRing
open Replicated

def VisibleFrom2 {n : Nat} (H : Pattern (Fin n) (Finset (Fin n))) : Prop :=
  ∀ T ∈ H.names, ∃ p s, s < H.slots ∧ 2 ≤ s ∧ H.hold p s = T

theorem VisibleFrom2.eq {n : Nat} {R : Type} [AddCommMonoid R]
    {H : Pattern (Fin n) (Finset (Fin n))} (hvis : VisibleFrom2 H)
    {x y : Fin n → Nat → R} {v w : R} (hx : H.IsSharing x v) (hy : H.IsSharing y w)
    (hxy : ∀ p s, 2 ≤ s → s < H.slots → x p s = y p s) : v = w := by
  obtain ⟨σ,hσ,rfl⟩ := hx
  obtain ⟨τ,hτ,rfl⟩ := hy
  refine Finset.sum_congr rfl fun T hT => ?_
  obtain ⟨p,s,hs,hs₂,rfl⟩ := hvis T hT
  rw [← hσ p s hs,← hτ p s hs,hxy p s hs₂ hs]

theorem visible5pc : VisibleFrom2 shares5pc := by
  unfold VisibleFrom2
  decide

theorem visible7pc : VisibleFrom2 shares7pc := by
  intro T hT
  obtain ⟨x,rfl⟩ := bases7pc_onto T hT
  have hslot : ∀ c : Fin 5, [19,9,2,3,5].getD c.val 0 < 20 ∧ 2 ≤ [19,9,2,3,5].getD c.val 0 := by
    decide
  have hhold : ∀ x : Fin 7 × Fin 5, shares7pc.hold (x.1 + [4,3,0,0,0].getD x.2.val 0)
      ([19,9,2,3,5].getD x.2.val 0) = bases7pc x := by decide
  exact ⟨_,_,(hslot x.2).1,(hslot x.2).2,hhold x⟩

variable {n L k size : Nat} {G : Type} {H : Pattern (Fin n) (Finset (Fin n))}
  {S : Suite n L G} {T₀ : Finset (Fin n)}

def SameShared (H : Pattern (Fin n) (Finset (Fin n))) (k size : Nat) (x y : Shares n (Lint L)) :
    Prop :=
  ∀ i, i < size → ∃ v : BitVec k, ArithSharing H k x i v ∧ ArithSharing H k y i v

/-- The slots from 2 on of a result say what it shares, so a routine that leaves them as they
are in `res` has one answer for all inputs. -/
theorem kept_fixed_res (hvis : VisibleFrom2 H) (hk : 0 < k)
    (run new : Shares n (Lint L) → Shares n (Lint L)) (good : Shares n (Lint L) → Prop)
    {res : Shares n (Lint L)} (hkept : ∀ a p s, 2 ≤ s → ∀ i, run a p s i = res p s i)
    (hgood : 0 < size → ∀ c, ∃ a, good a ∧ ArithSharing H k (new a) 0 (bitVal k c)) :
    (∀ a, good a → SameShared H k size (run a) (new a)) ↔ size = 0 := by
  constructor
  · intro h
    by_contra hsize
    have hi : 0 < size := Nat.pos_of_ne_zero hsize
    have hbits : ∀ c, ∃ a, ArithSharing H k (run a) 0 (bitVal k c) := by
      intro c
      obtain ⟨a,ha,hnew⟩ := hgood hi c
      obtain ⟨v,hrun,hv⟩ := h a ha 0 hi
      exact ⟨a,hv.unique hnew ▸ hrun⟩
    obtain ⟨a,ha⟩ := hbits false
    obtain ⟨b,hb⟩ := hbits true
    have hsame := hvis.eq ha hb fun p s hs _ => by rw [hkept a p s hs,hkept b p s hs]
    have hbit := congrArg (fun v => v.getLsbD 0) hsame
    simp only [lsb_bitVal hk] at hbit
    exact Bool.noConfusion hbit
  · rintro rfl a _ i hi
    exact absurd hi (Nat.not_lt_zero i)

/-- What `res` holds before can be a sharing of any number. -/
theorem kept_fixed_input (hS : S.Marks H T₀) (hvis : VisibleFrom2 H) (hk : 0 < k) (hkL : k ≤ 8*L)
    (run : Shares n (Lint L) → Shares n (Lint L))
    (hkept : ∀ res p s, 2 ≤ s → ∀ i, run res p s i = res p s i) (y : Shares n (Lint L)) :
    (∀ res, SameShared H k size (run res) y) ↔ size = 0 := by
  constructor
  · intro h
    by_contra hsize
    have hi : 0 < size := Nat.pos_of_ne_zero hsize
    have hold : ∀ c v, ArithSharing H k y 0 v → v = bitVal k c := by
      intro c v hy
      have hres := hS.publicArith hkL fun _ => bitVal k c
      obtain ⟨w,hw,hwy⟩ := h (fun p s _ => if S.ai p s then (bitVal k c).setWidth (8*L) else 0) 0 hi
      rw [hy.unique hwy]
      exact hvis.eq hw (hres 0) fun p s hs _ => by rw [hkept _ p s hs]
    obtain ⟨v,-,hy⟩ := h (fun _ _ _ => 0) 0 hi
    have hbit := congrArg (fun v => v.getLsbD 0) ((hold false v hy).symm.trans (hold true v hy))
    simp only [lsb_bitVal hk] at hbit
    exact Bool.noConfusion hbit
  · rintro rfl res i hi
    exact absurd hi (Nat.not_lt_zero i)

end RssRing
