import RssRing.Sharing
set_option autoImplicit false

namespace RssRing

variable {n L : Nat}

/-- The arrays of a run by their addresses; two parameters with one address are one array. -/
abbrev Memory (n L : Nat) := Nat → Shares n (Lint L)

/-- `for (i = 0; i < size; i++) res[s][i] = f`, where `f` reads the memory as the turns
before have left it. -/
def storeLoop (f : Memory n L → Fin n → Nat → Nat → Lint L) (res size : Nat) (mem : Memory n L) :
    Memory n L :=
  (List.range size).foldl (fun mem i => Function.update mem res fun p s j =>
    if j = i then f mem p s i else mem res p s j) mem

/-- What turn `i` of such a loop finds as it was: all arrays but `res`, and of `res` the
elements from `i` on. -/
structure Untouched (res i : Nat) (mem mem' : Memory n L) : Prop where
  other : ∀ x, x ≠ res → mem' x = mem x
  rest : ∀ p s j, i ≤ j → mem' res p s j = mem res p s j

namespace Untouched
variable {res i : Nat} {mem mem' : Memory n L}

theorem read (h : Untouched res i mem mem') (a : Nat) (p : Fin n) (s : Nat) :
    mem' a p s i = mem a p s i := by
  by_cases ha : a = res
  · rw [ha]
    exact h.rest p s i (Nat.le_refl i)
  · rw [h.other a ha]

end Untouched

section Loop
variable {f : Memory n L → Fin n → Nat → Nat → Lint L} {res size i : Nat} {mem : Memory n L}

theorem storeLoop_succ (f : Memory n L → Fin n → Nat → Nat → Lint L) (res size : Nat)
    (mem : Memory n L) : storeLoop f res (size + 1) mem =
      Function.update (storeLoop f res size mem) res fun p s j =>
        if j = size then f (storeLoop f res size mem) p s size
        else storeLoop f res size mem res p s j := by
  rw [storeLoop,List.range_succ,List.foldl_append]
  rfl

theorem storeLoop_untouched (f : Memory n L → Fin n → Nat → Nat → Lint L) (res size : Nat)
    (mem : Memory n L) : Untouched res size mem (storeLoop f res size mem) := by
  induction size with
  | zero => exact ⟨fun _ _ => rfl,fun _ _ _ _ => rfl⟩
  | succ size ih =>
    rw [storeLoop_succ]
    constructor
    · intro x hx
      rw [Function.update_of_ne hx]
      exact ih.other x hx
    · intro p s j hj
      simp only [Function.update_self]
      rw [if_neg (by omega)]
      exact ih.rest p s j (by omega)

theorem storeLoop_get (hi : i < size) (p : Fin n) (s : Nat) :
    storeLoop f res size mem res p s i = f (storeLoop f res i mem) p s i := by
  induction size with
  | zero => exact absurd hi (Nat.not_lt_zero i)
  | succ size ih =>
    rw [storeLoop_succ]
    simp only [Function.update_self]
    by_cases hlast : i = size
    · rw [if_pos hlast,hlast]
    · rw [if_neg hlast]
      exact ih (by omega)

theorem storeLoop_eq (hi : i < size) {p : Fin n} {s : Nat}
    (hf : ∀ mem', Untouched res i mem mem' → f mem' p s i = f mem p s i) :
    storeLoop f res size mem res p s i = f mem p s i :=
  (storeLoop_get hi p s).trans (hf _ (storeLoop_untouched f res i mem))

end Loop

def Memory.store (mem : Memory n L) (res size : Nat) (x : Shares n (Lint L)) : Memory n L :=
  Function.update mem res fun p s i => if i < size then x p s i else mem res p s i

namespace Memory
variable {mem : Memory n L} {res size i : Nat} {x : Shares n (Lint L)}

@[simp] theorem store_same (hi : i < size) (p : Fin n) (s : Nat) :
    mem.store res size x res p s i = x p s i := by
  simp only [store,Function.update_self,if_pos hi]

@[simp] theorem store_other {y : Nat} (hy : y ≠ res) : mem.store res size x y = mem y :=
  Function.update_of_ne hy _ _

end Memory

end RssRing
