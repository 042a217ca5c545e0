import Mathlib.Algebra.BigOperators.Ring.Finset
import RssRing.Library.Signed
set_option autoImplicit false

/-! The layers of a neural network over a ring, and what they are on words in which the
numbers fit. -/

namespace RssRing.Layers
open Finset

abbrev Image (R : Type) := Nat → Nat → Nat → R

section Ring
variable {R S : Type} [CommRing R] [CommRing S]

def convolution (channels ksize stride : Nat) (W : Nat → Image R) (b : Nat → R) (X : Image R) :
    Image R := fun f y x =>
  ∑ c ∈ range channels, ∑ ky ∈ range ksize, ∑ kx ∈ range ksize,
    W f c ky kx*X c (y*stride + ky) (x*stride + kx) + b f

def dense (n : Nat) (W : Nat → Nat → R) (b x : Nat → R) : Nat → R := fun i =>
  ∑ t ∈ range n, W i t*x t + b i

theorem map_convolution (φ : R →+* S) (channels ksize stride : Nat) (W : Nat → Image R)
    (b : Nat → R) (X : Image R) (f y x : Nat) :
    φ (convolution channels ksize stride W b X f y x) =
      convolution channels ksize stride (fun f c ky kx => φ (W f c ky kx)) (fun f => φ (b f))
        (fun c r q => φ (X c r q)) f y x := by
  simp only [convolution,map_add,map_sum,map_mul]

theorem map_dense (φ : R →+* S) (n : Nat) (W : Nat → Nat → R) (b x : Nat → R) (i : Nat) :
    φ (dense n W b x i) = dense n (fun i t => φ (W i t)) (fun i => φ (b i)) (fun t => φ (x t)) i := by
  simp only [dense,map_add,map_sum,map_mul]

end Ring

section Order
variable {R : Type} [LinearOrder R]

def relu [Zero R] (X : Image R) : Image R := fun c y x => max (X c y x) 0

def pool (X : Image R) : Image R := fun c i j =>
  max (max (X c (2*i) (2*j)) (X c (2*i) (2*j + 1)))
    (max (X c (2*i + 1) (2*j)) (X c (2*i + 1) (2*j + 1)))

theorem pool_mem {P : R → Prop} {X : Image R} {c i j : Nat}
    (h : ∀ y x, y < 2*i + 2 → x < 2*j + 2 → P (X c y x)) : P (pool X c i j) := by
  have hmax : ∀ {u v : R}, P u → P v → P (max u v) := by
    intro u v hu hv
    rcases max_choice u v with heq | heq
    · rwa [heq]
    · rwa [heq]
  exact hmax (hmax (h _ _ (by omega) (by omega)) (h _ _ (by omega) (by omega)))
    (hmax (h _ _ (by omega) (by omega)) (h _ _ (by omega) (by omega)))

end Order

end RssRing.Layers
