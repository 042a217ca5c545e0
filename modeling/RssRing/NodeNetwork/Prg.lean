import RssRing.Lint
import RssRing.NodeNetwork.Layout
set_option autoImplicit false

namespace RssRing
open Replicated

/-- A pseudorandom stream. `getrandom g m` writes the next `m` bytes. -/
class Generator (G : Type) where
  getrandom : G → Nat → (Nat → Byte) × G

/-- Every party keeps a stream for each of its slots, and one more for itself. -/
abbrev Net (n : Nat) (G : Type) := Fin n → Nat → G

namespace Net
variable {n : Nat} {G : Type} [Generator G]

def random (st : Net n G) (keyID size length : Nat) (p : Fin n) : Nat → Byte :=
  (Generator.getrandom (st p keyID) (size*length)).1

def advance (st : Net n G) (keyID size length : Nat) : Net n G := fun p =>
  Function.update (st p) keyID (Generator.getrandom (st p keyID) (size*length)).2

def advanceAll (st : Net n G) (slots size : Nat) (length : Nat → Nat) : Net n G := fun p i =>
  if i < slots then (Generator.getrandom (st p i) (size*length i)).2 else st p i

theorem random_advance_of_ne (st : Net n G) {s t : Nat} (h : s ≠ t)
    (size length size' length' : Nat) (p : Fin n) :
    (st.advance t size' length').random s size length p = st.random s size length p := by
  simp [random,advance,h]

theorem advance_comm (st : Net n G) {s t : Nat} (h : s ≠ t) (size length size' length' : Nat) :
    (st.advance s size length).advance t size' length' =
      (st.advance t size' length').advance s size length := by
  funext p
  simp only [advance]
  rw [Function.update_of_ne h.symm,Function.update_of_ne h,Function.update_comm h]

theorem consistent_advance_own {T : Type} {H : Pattern (Fin n) T} {st : Net n G}
    (h : H.Consistent st) {keyID : Nat} (hkey : H.slots ≤ keyID) (size length : Nat) :
    H.Consistent (st.advance keyID size length) := by
  intro p s q t hs ht hst
  rw [advance,advance,Function.update_of_ne (by omega),Function.update_of_ne (by omega)]
  exact h p s q t hs ht hst

theorem random_eq {T : Type} {H : Pattern (Fin n) T} {st : Net n G} (h : H.Consistent st)
    {p q : Fin n} {s t : Nat} (hs : s < H.slots) (ht : t < H.slots)
    (hst : H.hold p s = H.hold q t) (size length : Nat) :
    st.random s size length p = st.random t size length q := by
  rw [random,random,h p s q t hs ht hst]

theorem consistent_advanceAll {T : Type} {H : Pattern (Fin n) T} {st : Net n G}
    (h : H.Consistent st) (size : Nat) (length : Nat → Nat)
    (hl : ∀ p s q t, s < H.slots → t < H.slots → H.hold p s = H.hold q t →
      length s = length t) :
    H.Consistent (st.advanceAll H.slots size length) := by
  intro p s q t hs ht hst
  rw [advanceAll,advanceAll,if_pos hs,if_pos ht,h p s q t hs ht hst,
    hl p s q t hs ht hst]

def request {T : Type} [DecidableEq T] (st : Net n G) (H : Pattern (Fin n) T) (t : T)
    (size length : Nat) : Net n G := fun p s =>
  if s < H.slots ∧ H.hold p s = t then (Generator.getrandom (st p s) (size*length)).2 else st p s

theorem consistent_request {T : Type} [DecidableEq T] {H : Pattern (Fin n) T} {st : Net n G}
    (h : H.Consistent st) (t : T) (size length : Nat) :
    H.Consistent (st.request H t size length) := by
  intro p s q u hs hu hsu
  simp only [request,hs,hu,hsu,h p s q u hs hu hsu]

theorem consistent_requests {T : Type} [DecidableEq T] {H : Pattern (Fin n) T}
    (requests : List (T × Nat × Nat)) {st : Net n G} (h : H.Consistent st) :
    H.Consistent (requests.foldl (fun st r => request st H r.1 r.2.1 r.2.2) st) := by
  induction requests generalizing st with
  | nil => exact h
  | cons r requests ih => exact ih (consistent_request h r.1 r.2.1 r.2.2)

/-- Every holder of the share `t` has taken `amounts t` from its stream of it, in this order. -/
def Drew {T : Type} (H : Pattern (Fin n) T) (amounts : T → List Nat) (st st' : Net n G) : Prop :=
  ∀ p s, s < H.slots → st' p s =
    (amounts (H.hold p s)).foldl (fun g m => (Generator.getrandom g m).2) (st p s)

section
variable {T : Type} {H : Pattern (Fin n) T} {a b : T → List Nat} {st st₁ st₂ : Net n G}

theorem Drew.consistent (h : Drew H a st st₁) (hst : H.Consistent st) : H.Consistent st₁ := by
  intro p s q t hs ht hold
  rw [h p s hs,h q t ht,hst p s q t hs ht hold,hold]

theorem Drew.refl (st : Net n G) : Drew H (fun _ => []) st st := fun _ _ _ => rfl

theorem Drew.trans (h : Drew H a st st₁) (h₁ : Drew H b st₁ st₂) :
    Drew H (fun t => a t ++ b t) st st₂ := by
  intro p s hs
  rw [h₁ p s hs,h p s hs,List.foldl_append]

theorem drew_own {keyID : Nat} (hkey : H.slots ≤ keyID) (st : Net n G) (size length : Nat) :
    Drew H (fun _ => []) st (st.advance keyID size length) := by
  intro p s hs
  rw [advance,Function.update_of_ne (by omega)]
  rfl

theorem drew_advanceAll (f : T → Nat) {length : Nat → Nat}
    (hf : ∀ p s, s < H.slots → length s = f (H.hold p s)) (st : Net n G) (size : Nat) :
    Drew H (fun t => [size*f t]) st (st.advanceAll H.slots size length) := by
  intro p s hs
  rw [advanceAll,if_pos hs,hf p s hs]
  rfl

end

end Net

structure Tape where
  byte : Nat → Byte

instance : Generator Tape where
  getrandom g m := (g.byte,⟨fun i => g.byte (m+i)⟩)

structure Steady (c : Byte) where

instance (c : Byte) : Generator (Steady c) where
  getrandom g _ := (fun _ => c,g)

instance (c : Byte) : Subsingleton (Steady c) := ⟨fun _ _ => rfl⟩

end RssRing
