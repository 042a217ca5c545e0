import Mathlib.Algebra.Ring.Nat
import Mathlib.Data.List.Range
import Mathlib.Logic.Function.Basic
import Mathlib.Logic.Function.Iterate
set_option autoImplicit false

namespace Readers

/-- A stream that is read from front to back: `stream s` is what is to come in the state
`s`, and `skip s m` is the state after `m` items of it. -/
structure Reader (S A : Type) where
  stream : S → Nat → A
  skip : S → Nat → S
  skip_zero : ∀ s, skip s 0 = s
  skip_skip : ∀ s m n, skip (skip s m) n = skip s (m+n)
  stream_skip : ∀ s m j, stream (skip s m) j = stream s (m+j)

namespace Reader
variable {S A : Type} (reader : Reader S A)

def take (s : S) (m : Nat) : List A := (List.range m).map (reader.stream s)

@[simp] theorem take_zero (s : S) : reader.take s 0 = [] := rfl

theorem take_add (s : S) (m n : Nat) :
    reader.take s (m+n) = reader.take s m ++ reader.take (reader.skip s m) n := by
  rw [take,List.range_add,List.map_append,List.map_map]
  congr 1
  exact List.map_congr_left fun j _ => (reader.stream_skip s m j).symm

end Reader

section Serve
variable {S A K R : Type} [DecidableEq K]

def serve (step : (K → S) → R → List A × (K → S)) (st : K → S) :
    List R → List (R × List A) × (K → S)
  | [] => ([],st)
  | r::requests =>
      let later := serve step (step st r).2 requests
      ((r,(step st r).1)::later.1,later.2)

def itemsOf (key : R → K) (k : K) (answers : List (R × List A)) : List A :=
  (answers.filter fun a => key a.1 = k).flatMap Prod.snd

def asked (key : R → K) (amount : R → Nat) (k : K) (requests : List R) : Nat :=
  ((requests.filter fun r => key r = k).map amount).sum

/-- A step that reads `amount r` items of the stream of `key r` and leaves the other
streams alone, at states that are `Ready` and for requests that are `Valid`. -/
structure Answers (reader : Reader S A) (key : R → K) (amount : R → Nat) (Ready : S → Prop)
    (Valid : R → Prop) (step : (K → S) → R → List A × (K → S)) : Prop where
  ready : ∀ s m, Ready s → Ready (reader.skip s m)
  items : ∀ st r, (∀ k, Ready (st k)) → Valid r →
    (step st r).1 = reader.take (st (key r)) (amount r)
  state : ∀ st r, (∀ k, Ready (st k)) → Valid r →
    (step st r).2 = Function.update st (key r) (reader.skip (st (key r)) (amount r))

section
variable {key : R → K} {amount : R → Nat} {k : K} {r : R}

theorem itemsOf_cons (items : List A) (answers : List (R × List A)) :
    itemsOf key k ((r,items)::answers) =
      (if key r = k then items else []) ++ itemsOf key k answers := by
  by_cases h : key r = k <;> simp [itemsOf,h]

theorem asked_cons (requests : List R) : asked key amount k (r::requests) =
    (if key r = k then amount r else 0) + asked key amount k requests := by
  by_cases h : key r = k <;> simp [asked,h]

end

/-- The answers for a key are the front of its stream, however it is cut into requests and
whatever other keys are asked for in between. -/
theorem Answers.serve_eq {reader : Reader S A} {key : R → K} {amount : R → Nat}
    {Ready : S → Prop} {Valid : R → Prop} {step : (K → S) → R → List A × (K → S)}
    (h : Answers reader key amount Ready Valid step) (requests : List R) (st : K → S)
    (hst : ∀ k, Ready (st k)) (hvalid : ∀ r ∈ requests, Valid r) (k : K) :
    itemsOf key k (serve step st requests).1 = reader.take (st k) (asked key amount k requests) ∧
      (serve step st requests).2 k = reader.skip (st k) (asked key amount k requests) := by
  induction requests generalizing st with
  | nil => exact ⟨rfl,(reader.skip_zero (st k)).symm⟩
  | cons r requests ih =>
    have hr := hvalid r List.mem_cons_self
    have hstate := h.state st r hst hr
    have hready : ∀ k, Ready ((step st r).2 k) := by
      intro k
      rw [hstate,Function.update_apply]
      by_cases hk : k = key r
      · rw [if_pos hk]
        exact h.ready _ _ (hst _)
      · rw [if_neg hk]
        exact hst k
    obtain ⟨hitems,hskip⟩ := ih (step st r).2 hready fun r hr =>
      hvalid r (List.mem_cons_of_mem _ hr)
    rw [serve,itemsOf_cons,asked_cons,hitems,hskip,h.items st r hst hr,hstate]
    by_cases hk : key r = k
    · subst hk
      rw [if_pos rfl,if_pos rfl,Function.update_self]
      exact ⟨(reader.take_add _ _ _).symm,reader.skip_skip _ _ _⟩
    · rw [if_neg hk,if_neg hk,Function.update_of_ne (Ne.symm hk),Nat.zero_add]
      exact ⟨rfl,rfl⟩

end Serve

section Feedback
variable {A B : Type} {width : Nat}

theorem mod_add_div (x y : Nat) (hw : 0 < width) : (x%width + y)/width + x/width = (x + y)/width := by
  have hx : x + y = width*(x/width) + (x%width + y) := by rw [← Nat.add_assoc,Nat.div_add_mod]
  rw [hx,Nat.mul_add_div hw,Nat.add_comm]

/-- Blocks of `width` items, each the image of the one before. A state is a block and the
place up to which it has been read; a block is replaced only when the next is needed. -/
def feedback (f : B → B) (cell : B → Nat → A) (hw : 0 < width) : Reader (B × Nat) A where
  stream s j := cell (f^[(s.2 + j)/width] s.1) ((s.2 + j)%width)
  skip s m := if m = 0 then s
    else (f^[(s.2 + m - 1)/width] s.1,(s.2 + m - 1)%width + 1)
  skip_zero _ := if_pos rfl
  skip_skip s m n := by
    rcases Nat.eq_zero_or_pos m with rfl | hm
    · rw [if_pos rfl,Nat.zero_add]
    · rcases Nat.eq_zero_or_pos n with rfl | hn
      · rw [if_pos rfl]
        rfl
      · rw [if_neg (by omega),if_neg (by omega),if_neg (by omega)]
        have hplace : (s.2 + m - 1)%width + 1 + n - 1 = (s.2 + m - 1)%width + n := by omega
        have hsum : s.2 + m - 1 + n = s.2 + (m + n) - 1 := by omega
        rw [hplace,← Function.iterate_add_apply,mod_add_div _ _ hw,Nat.mod_add_mod,hsum]
  stream_skip s m j := by
    rcases Nat.eq_zero_or_pos m with rfl | hm
    · rw [if_pos rfl,Nat.zero_add]
    · rw [if_neg (by omega)]
      have hsum : s.2 + m - 1 + (1 + j) = s.2 + (m + j) := by omega
      rw [← Function.iterate_add_apply,Nat.add_assoc,mod_add_div _ _ hw,Nat.mod_add_mod,hsum]

theorem feedback_skip_le (f : B → B) (cell : B → Nat → A) (hw : 0 < width) {s : B × Nat}
    (hs : s.2 ≤ width) (m : Nat) : ((feedback f cell hw).skip s m).2 ≤ width := by
  rcases Nat.eq_zero_or_pos m with rfl | hm
  · rw [(feedback f cell hw).skip_zero]
    exact hs
  · have hplace := Nat.mod_lt (s.2 + m - 1) hw
    simp only [feedback]
    rw [if_neg (by omega)]
    exact hplace

end Feedback
end Readers
