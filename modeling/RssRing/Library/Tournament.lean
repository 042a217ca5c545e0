import Mathlib.Order.Lattice
set_option autoImplicit false

/-! Knockout tournaments: the maximum of a family by rounds that halve the field. -/

namespace RssRing.Tournament

variable {ι α : Type} [LinearOrder α] (f : ι → α)

/-- The first player, unless the second one is strictly better. -/
def play (x y : ι) : ι := if f x < f y then y else x

/-- Player `i` of the first half meets player `i` of the second; of an odd field the last
player goes on without a match. -/
def round (size : Nat) (field : Nat → ι) (i : Nat) : ι :=
  if i < size/2 then play f (field i) (field (size/2 + i)) else field (size - 1)

def winner (size : Nat) (field : Nat → ι) : ι :=
  if 1 < size then winner ((size + 1)/2) (round f size field) else field 0
termination_by size
decreasing_by omega

variable {f}

theorem play_mem (x y : ι) : play f x y = x ∨ play f x y = y := by
  unfold play
  split
  · exact Or.inr rfl
  · exact Or.inl rfl

theorem le_play (x y : ι) : f x ≤ f (play f x y) ∧ f y ≤ f (play f x y) := by
  unfold play
  split
  case isTrue h => exact ⟨le_of_lt h,le_rfl⟩
  case isFalse h => exact ⟨le_rfl,not_lt.mp h⟩

section
variable {size i : Nat} (field : Nat → ι)

theorem round_mem (hi : i < (size + 1)/2) : ∃ j, j < size ∧ round f size field i = field j := by
  unfold round
  split
  case isTrue h =>
    rcases play_mem (f := f) (field i) (field (size/2 + i)) with heq | heq
    · exact ⟨i,by omega,heq⟩
    · exact ⟨size/2 + i,by omega,heq⟩
  case isFalse => exact ⟨size - 1,by omega,rfl⟩

theorem le_round (hi : i < size) :
    ∃ j, j < (size + 1)/2 ∧ f (field i) ≤ f (round f size field j) := by
  by_cases hfirst : i < size/2
  · refine ⟨i,by omega,?_⟩
    rw [round,if_pos hfirst]
    exact (le_play _ _).1
  · by_cases hsecond : i < 2*(size/2)
    · refine ⟨i - size/2,by omega,?_⟩
      rw [round,if_pos (by omega : i - size/2 < size/2),Nat.add_sub_cancel' (by omega)]
      exact (le_play _ _).2
    · refine ⟨size/2,by omega,?_⟩
      have hlast : i = size - 1 := by omega
      rw [round,if_neg (Nat.lt_irrefl _),hlast]

end

theorem winner_mem {size : Nat} (field : Nat → ι) (hsize : 0 < size) :
    ∃ i, i < size ∧ winner f size field = field i := by
  induction size, field using winner.induct (f := f) with
  | case1 size field h ih =>
    obtain ⟨j,hj,hwin⟩ := ih (by omega)
    obtain ⟨i,hi,hround⟩ := round_mem (f := f) field hj
    refine ⟨i,hi,?_⟩
    rw [winner,if_pos h,hwin,hround]
  | case2 size field h =>
    refine ⟨0,hsize,?_⟩
    rw [winner,if_neg h]

theorem le_winner {size : Nat} (field : Nat → ι) : ∀ i, i < size →
    f (field i) ≤ f (winner f size field) := by
  induction size, field using winner.induct (f := f) with
  | case1 size field h ih =>
    intro i hi
    obtain ⟨j,hj,hle⟩ := le_round (f := f) field hi
    rw [winner,if_pos h]
    exact hle.trans (ih j hj)
  | case2 size field h =>
    intro i hi
    rw [winner,if_neg h,show i = 0 by omega]

theorem winner_of_alike {size : Nat} (field : Nat → ι) (h : ∀ x y, ¬ f x < f y) :
    winner f size field = field 0 := by
  induction size, field using winner.induct (f := f) with
  | case1 size field hmany ih =>
    rw [winner,if_pos hmany,ih,round,if_pos (by omega),play,if_neg (h _ _)]
  | case2 size field hone => rw [winner,if_neg hone]

theorem winner_congr {g : ι → α} {size : Nat} (field : Nat → ι)
    (h : ∀ i, i < size → f (field i) = g (field i)) : winner f size field = winner g size field := by
  induction size, field using winner.induct (f := f) with
  | case1 size field hmany ih =>
    have hround : round f size field = round g size field := by
      funext i
      unfold round
      split
      case isTrue hi =>
        rw [play,play,h i (by omega),h (size/2 + i) (by omega)]
      case isFalse => rfl
    rw [winner,if_pos hmany,winner.eq_def g,if_pos hmany,← hround]
    refine ih fun i hi => ?_
    obtain ⟨j,hj,heq⟩ := round_mem (f := f) field hi
    rw [heq,h j hj]
  | case2 size field hone => rw [winner,if_neg hone,winner.eq_def g,if_neg hone]

end RssRing.Tournament
