import Mathlib.Data.List.Basic
set_option autoImplicit false

/-! Lines of fields between separators, and what is read of the front of a text. -/

namespace RssRing.Fields

variable {A : Type} {sep : A}

def join (sep : A) : List (List A) → List A
  | [] => []
  | [f] => f
  | f :: g :: fs => f ++ sep :: join sep (g :: fs)

theorem join_ne_nil : ∀ {fs : List (List A)}, fs ≠ [] → (∀ f ∈ fs, f ≠ []) → join sep fs ≠ []
  | [],h,_ => absurd rfl h
  | [f],_,h => h f List.mem_cons_self
  | _ :: _ :: _,_,_ => by simp [join]

/-- A text that begins with the whole field and goes on, if at all, behind a separator. -/
def Begins (sep : A) (f s : List A) : Prop :=
  ∃ t, s = f ++ t ∧ ∀ c, t.head? = some c → c = sep

theorem begins_take {f u : List A} {m : Nat} (hm : f.length ≤ m) :
    Begins sep f ((f ++ sep :: u).take m) := by
  refine ⟨(sep :: u).take (m - f.length),?_,fun c hc => ?_⟩
  · rw [List.take_append,List.take_of_length_le hm]
  · cases hk : m - f.length with
    | zero => simp [hk] at hc
    | succ k => simpa [hk] using hc.symm

theorem begins_self (f : List A) : Begins sep f f := ⟨[],by simp,by simp⟩

theorem Begins.length_le {f s : List A} (h : Begins sep f s) : f.length ≤ s.length := by
  obtain ⟨t,rfl,-⟩ := h
  simp

structure Longest (P : List A → Prop) (s f : List A) : Prop where
  front : f <+: s
  holds : P f
  longest : ∀ g, g <+: s → P g → g.length ≤ f.length

theorem Begins.longest {P : List A → Prop} (hP : ∀ g, P g → sep ∉ g) {f s : List A} (hf : P f)
    (h : Begins sep f s) : Longest P s f := by
  obtain ⟨t,rfl,ht⟩ := h
  refine ⟨List.prefix_append f t,hf,fun g hg hPg => ?_⟩
  by_contra hlong
  obtain ⟨u,rfl⟩ := List.prefix_of_prefix_length_le (List.prefix_append f t) hg (by omega)
  have hu : u <+: t := (List.prefix_append_right_inj f).mp hg
  cases u with
  | nil => simp at hlong
  | cons c u =>
    obtain ⟨v,rfl⟩ := hu
    have hc : c = sep := ht c rfl
    exact hP _ hPg (by simp [hc])

theorem Longest.eq_takeWhile {p : A → Bool} {s f : List A}
    (h : Longest (fun f => f ≠ [] ∧ ∀ c ∈ f, p c) s f) : s.takeWhile p = f := by
  obtain ⟨⟨t,rfl⟩,⟨hne,hf⟩,hlongest⟩ := h
  have hread : (f ++ t).takeWhile p = f ++ t.takeWhile p := List.takeWhile_append_of_pos hf
  have hle := hlongest (f ++ t.takeWhile p) ((List.prefix_append_right_inj f).mpr
    (List.takeWhile_prefix p)) ⟨by simp [hne],fun c hc => ?_⟩
  · rw [List.length_append] at hle
    rw [hread,List.length_eq_zero_iff.mp (by omega : (t.takeWhile p).length = 0),List.append_nil]
  · rcases List.mem_append.mp hc with hc | hc
    · exact hf c hc
    · exact List.all_eq_true.mp List.all_takeWhile c hc

end RssRing.Fields
