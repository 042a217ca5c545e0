import RssRing.Library.Replicated
import RssRing.Library.Tally
import Mathlib.Data.Finset.Powerset
import Mathlib.Data.Fintype.Powerset
set_option autoImplicit false

namespace RssRing
open Replicated Tally

/-- Parties are numbered from zero here and from one in the program. -/
def pid {n : Nat} (p : Fin n) : Nat := p.val + 1

/-- The tables of the constructor hold `(pid + d - 1) % numParties + 1`, which is
the party `d` places further on. -/
theorem pid_add {n : Nat} (p d : Fin n) : pid (p + d) = (pid p + d.val - 1) % n + 1 := by
  rw [pid,pid,Fin.val_add]
  congr 2
  omega

instance neZero3pc : NeZero 3 := ⟨by decide⟩
instance neZero5pc : NeZero 5 := ⟨by decide⟩
instance neZero7pc : NeZero 7 := ⟨by decide⟩

def tOffsets3pc : Nat → List (Fin 3)
  | 0 => [1] | 1 => [2] | _ => []

def tOffsets5pc : Nat → List (Fin 5)
  | 0 => [1,2] | 1 => [1,3] | 2 => [1,4] | 3 => [2,3] | 4 => [2,4] | 5 => [3,4] | _ => []

def tOffsets7pc : Nat → List (Fin 7)
  | 0 => [1,2,3] | 1 => [1,2,4] | 2 => [1,2,5] | 3 => [1,2,6] | 4 => [1,3,4] | 5 => [1,3,5]
  | 6 => [1,3,6] | 7 => [1,4,5] | 8 => [1,4,6] | 9 => [1,5,6] | 10 => [2,3,4] | 11 => [2,3,5]
  | 12 => [2,3,6] | 13 => [2,4,5] | 14 => [2,4,6] | 15 => [2,5,6] | 16 => [3,4,5]
  | 17 => [3,4,6] | 18 => [3,5,6] | 19 => [4,5,6] | _ => []

def tMap {n : Nat} (offsets : Nat → List (Fin n)) (p : Fin n) (s : Nat) : List (Fin n) :=
  (offsets s).map (fun d => p + d)

abbrev tMap3pc := tMap tOffsets3pc
abbrev tMap5pc := tMap tOffsets5pc
abbrev tMap7pc := tMap tOffsets7pc

def shares3pc : Pattern (Fin 3) (Finset (Fin 3)) where
  slots := 2
  hold p s := (tMap3pc p s).toFinset
  names := Finset.powersetCard 1 Finset.univ
  hold_mem := by decide
  held := by decide

def shares5pc : Pattern (Fin 5) (Finset (Fin 5)) where
  slots := 6
  hold p s := (tMap5pc p s).toFinset
  names := Finset.powersetCard 2 Finset.univ
  hold_mem := by decide
  held := by decide

/-- Up to rotation there are five sets of three parties: slots 0, 1, 2, 3 and 5. -/
def bases7pc (x : Fin 7 × Fin 5) : Finset (Fin 7) :=
  (tMap7pc x.1 ([0,1,2,3,5].getD x.2 0)).toFinset

theorem class7pc_lt : ∀ c : Fin 5, [0,1,2,3,5].getD c.val 0 < 20 := by decide

theorem bases7pc_once : Finset.univ.val.map bases7pc = (Finset.powersetCard 3 Finset.univ).val :=
  eq_of_tally maskOf_injective (b := 64) (by decide) (by decide) (by decide)

theorem bases7pc_onto (T : Finset (Fin 7)) (hT : T ∈ Finset.powersetCard 3 Finset.univ) :
    ∃ x, bases7pc x = T := by
  rw [← image_eq_of_map bases7pc_once] at hT
  obtain ⟨x,_,hx⟩ := Finset.mem_image.mp hT
  exact ⟨x,hx⟩

def shares7pc : Pattern (Fin 7) (Finset (Fin 7)) where
  slots := 20
  hold p s := (tMap7pc p s).toFinset
  names := Finset.powersetCard 3 Finset.univ
  hold_mem := by
    simp only [Finset.mem_powersetCard_univ]
    decide
  held T hT := by
    obtain ⟨x,hx⟩ := bases7pc_onto T hT
    exact ⟨x.1,_,class7pc_lt x.2,hx⟩

@[simp] theorem card_names3pc : shares3pc.names.card = 3 :=
  Finset.card_powersetCard 1 Finset.univ

@[simp] theorem card_names5pc : shares5pc.names.card = 10 :=
  Finset.card_powersetCard 2 Finset.univ

@[simp] theorem card_names7pc : shares7pc.names.card = 35 :=
  Finset.card_powersetCard 3 Finset.univ

def rotation3pc : Rotation shares3pc 1 where
  base x := shares3pc.hold x.1 0
  off s := [0,1].getD s 0
  cls _ := 0
  hold_eq := by decide
  base_mem := by decide
  base_inj := by unfold Function.Injective; decide
  base_onto := by decide

def rotation5pc : Rotation shares5pc 2 where
  base x := shares5pc.hold x.1 ([0,1].getD x.2 0)
  off s := [0,0,3,1,1,2].getD s 0
  cls s := [0,1,1,0,1,0].getD s 0
  hold_eq := by decide
  base_mem := by decide
  base_inj := by unfold Function.Injective; decide
  base_onto := by decide

def rotation7pc : Rotation shares7pc 5 where
  base x := shares7pc.hold x.1 ([0,1,2,3,5].getD x.2 0)
  off s := [0,0,0,0,2,0,5,3,3,4,1,1,1,3,1,4,2,2,4,3].getD s 0
  cls s := [0,1,2,3,3,4,4,2,4,1,0,1,2,3,4,2,0,1,3,0].getD s 0
  hold_eq := by decide
  base_mem x := by
    have hx := Finset.mem_image_of_mem bases7pc (Finset.mem_univ x)
    rwa [image_eq_of_map bases7pc_once] at hx
  base_inj := fun x y => injOn_of_map bases7pc_once (Finset.mem_univ x) (Finset.mem_univ y)
  base_onto := bases7pc_onto

end RssRing
