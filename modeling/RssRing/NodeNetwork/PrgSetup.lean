import RssRing.NodeNetwork.Prg
import RssRing.NodeNetwork.Exchange
set_option autoImplicit false

namespace RssRing
open Replicated

abbrev Block := BitVec 128

/-- The instructions of the processor that the generator is built on. -/
class AesNi where
  aesenc : Block → Block → Block
  aesenclast : Block → Block → Block
  aeskeygenassist : Block → Byte → Block

section Aes
variable [AesNi]

def shuffleTop (x : Block) : Block :=
  let top := x >>> 96
  top ||| (top <<< 32) ||| (top <<< 64) ||| (top <<< 96)

def ke2 (ok : Block) (rnd : Byte) : Block :=
  let nk := ok ^^^ (ok <<< 32)
  let nk := nk ^^^ (nk <<< 32)
  let nk := nk ^^^ (nk <<< 32)
  nk ^^^ shuffleTop (AesNi.aeskeygenassist ok rnd)

def prgKeyschedule (src : Block) : List Block :=
  [0x01,0x02,0x04,0x08,0x10,0x20,0x40,0x80,0x1b,0x36].scanl ke2 src

def prgAes (r : List Block) (src : Block) : Block :=
  let mr := ((List.range 9).map (fun i => r.getD (i+1) 0)).foldl AesNi.aesenc (src ^^^ r.getD 0 0)
  AesNi.aesenclast mr (r.getD 10 0) ^^^ src

/-- One entry of `prg_key`, `random_container` and `P_container`. -/
structure PrgState where
  key : List Block
  container : Block
  P : BitVec 32
  deriving DecidableEq

/-- `prg_getrandom` for a request of `m` bytes, in the arithmetic of `uint`. -/
def prgGetrandom (g : PrgState) (m : Nat) : (Nat → Byte) × PrgState :=
  let total := BitVec.ofNat 32 m
  let rounds := (total - 16 + g.P + 15) >>> 4
  if rounds = 0 then
    (fun j => byteOf (L := 16) g.container (g.P.toNat + j),{ g with P := g.P + total })
  else
    let block := fun i => (prgAes g.key)^[i] g.container
    let rest := 16 - g.P.toNat
    (fun j => if j < rest then byteOf (L := 16) g.container (g.P.toNat + j)
      else byteOf (L := 16) (block ((j - rest)/16 + 1)) ((j - rest)%16),
      { g with container := block rounds.toNat, P := total - ((rounds - 1) <<< 4) - 16 + g.P })

instance : Generator PrgState where
  getrandom := prgGetrandom

def freshPrg (container tempKey : Block) : PrgState where
  key := prgKeyschedule tempKey
  container := prgAes (prgKeyschedule tempKey) container
  P := 0

end Aes

/-- `RandomData` of each party as four blocks: a container and a key that go to one
more party, and a key and a container for itself. -/
def prgSetup [AesNi] (randomData : Fin 3 → Nat → Block) : Net 3 PrgState := fun p s =>
  let drawn := fun q => (randomData q 0,randomData q 1)
  let seed := if s = 0 then drawn p
    else if s = 1 then map3pc.deliver (fun q _ => drawn q) (0,0) p 0
    else if s = 2 then (randomData p 3,randomData p 2) else (0,0)
  freshPrg seed.1 seed.2

def prgMap5pc : Routing 5 where
  rounds := 4
  sendTo := peers [2,3,1,4]
  recvFrom := peers [3,2,4,1]

/-- `RandomData` of each party as six blocks: seed `i` is a container, block `2*i`, and
a key, block `2*i + 1`. The messages fill the slots 4, 1, 0 and 5. -/
def prgSetupMp [AesNi] (randomData : Fin 5 → Nat → Block) : Net 5 PrgState := fun p s =>
  let drawn := fun q i => (randomData q (2*i),randomData q (2*i+1))
  let own : Nat → Block × Block := fun s => if s = 2 then drawn p 0
    else if s = 3 then drawn p 1 else if s = 6 then drawn p 2 else (0,0)
  let seed := (List.range prgMap5pc.rounds).foldl (fun slots r =>
    Function.update slots (([4,1,0,5] : List Nat).getD r 0)
      (prgMap5pc.deliver (fun q r' => drawn q (r'/2)) (0,0) p r)) own s
  freshPrg seed.1 seed.2

def prgMap7pc : Routing 7 where
  rounds := 15
  sendTo := peers [4,5,6,3,5,6,3,4,6,3,4,5,2,4,6]
  recvFrom := peers [3,2,1,4,2,1,4,3,1,4,3,2,5,3,1]

def recivedOrder (r : Nat) : Nat := [19,17,10,9,17,11,15,7,12,18,13,4,6,8,14].getD r 0

/-- Where `prg_setup_mp_7` puts the seeds: `own i` is the seed party `p` draws
as number `i`, `drawn q i` that of party `q`, and `zero` what the arrays held. -/
def seedSlots {A : Type} (drawn : Fin 7 → Nat → A) (zero : A) (p : Fin 7) : Nat → A :=
  let own := fun s => if s < 4 then drawn p s else if s = 5 then drawn p 4
    else if s = 20 then drawn p 5 else zero
  (List.range prgMap7pc.rounds).foldl (fun slots r => Function.update slots (recivedOrder r)
    (prgMap7pc.deliver (fun q r' => drawn q (r'/3)) zero p r)) own

def prgSetupMp7 [AesNi] (randomData : Fin 7 → Nat → Block) : Net 7 PrgState := fun p s =>
  let seed := seedSlots (fun q i => (randomData q (2*i),randomData q (2*i+1))) (0,0) p s
  freshPrg seed.1 seed.2

theorem seedSlots_map {A B : Type} (f : A → B) (drawn : Fin 7 → Nat → A) (zero : A) (p : Fin 7)
    (s : Nat) : seedSlots (fun q i => f (drawn q i)) (f zero) p s = f (seedSlots drawn zero p s) := by
  have hdeliver : ∀ r, prgMap7pc.deliver (fun q r' => f (drawn q (r'/3))) (f zero) p r =
      f (prgMap7pc.deliver (fun q r' => drawn q (r'/3)) zero p r) := by
    intro r
    rw [Routing.deliver,Routing.deliver]
    cases prgMap7pc.source p r <;> rfl
  have hfold : ∀ (l : List Nat) (g : Nat → B) (h : Nat → A), (∀ s, g s = f (h s)) → ∀ s,
      l.foldl (fun slots r => Function.update slots (recivedOrder r)
        (prgMap7pc.deliver (fun q r' => f (drawn q (r'/3))) (f zero) p r)) g s =
      f (l.foldl (fun slots r => Function.update slots (recivedOrder r)
        (prgMap7pc.deliver (fun q r' => drawn q (r'/3)) zero p r)) h s) := by
    intro l
    induction l with
    | nil => exact fun g h hgh => hgh
    | cons r l ih =>
      intro g h hgh
      refine ih _ _ (fun s => ?_)
      simp only [Function.update_apply,hdeliver]
      by_cases hs : s = recivedOrder r <;> simp [hs,hgh]
  refine hfold _ _ _ (fun s => ?_) s
  by_cases h4 : s < 4
  · simp [h4]
  · by_cases h5 : s = 5
    · simp [h5]
    · by_cases h20 : s = 20 <;> simp [h4,h5,h20]

/-- Slot 16 is never filled, since its seed goes to slot 17, where the right one
follows it. Every other slot gets the seed of the party and class it names. -/
theorem seedSlots_names : ∀ p s, s < 20 → seedSlots (fun q i => some (q,i)) none p s =
    if s = 16 then none else some (p + rotation7pc.off s,(rotation7pc.cls s).val) := by
  decide

abbrev SeedName := Fin 7 × Fin 5

/-- What the setup is for. The holders of each share are in one state, which is
the fresh state of a seed drawn for this share alone, and stay in one state
whatever they ask of their streams together. -/
structure KeyAgreement {G : Type} [Generator G] (fresh : SeedName → G) (net : Net 7 G) : Prop where
  same : shares7pc.Consistent net
  seed : ∃ src : Finset (Fin 7) → SeedName, Set.InjOn src shares7pc.names ∧
    shares7pc.Holds net (fun T => fresh (src T))
  run : ∀ requests : List (Finset (Fin 7) × Nat × Nat), shares7pc.Consistent
    (requests.foldl (fun st r => Net.request st shares7pc r.1 r.2.1 r.2.2) net)

theorem source_prgMap5pc :
    ∀ p r, r < 4 → prgMap5pc.source p r = some (p + [3,2,4,1].getD r 0,r) := by
  decide

theorem prgSetup_consistent [AesNi] (randomData : Fin 3 → Nat → Block) :
    shares3pc.Consistent (prgSetup randomData) := by
  have hslot : ∀ p s, s < 2 → prgSetup randomData p s =
      freshPrg (randomData (p + [0,1].getD s 0) 0) (randomData (p + [0,1].getD s 0) 1) := by
    intro p s hs
    rcases (by omega : s = 0 ∨ s = 1) with rfl | rfl
    · simp [prgSetup]
    · simp [prgSetup,Routing.deliver_of_source (source_map3pc p 0 (by decide))]
  have hhold : ∀ p s, s < 2 → ∀ q t, t < 2 → shares3pc.hold p s = shares3pc.hold q t →
      p + [0,1].getD s 0 = q + [0,1].getD t 0 := by decide
  intro p s q t hs ht hst
  rw [hslot p s hs,hslot q t ht,hhold p s hs q t ht hst]

/-- The seed in slot `s` of party `p` is number `seedNumber s` of the party at offset
`seedOffset s`. -/
def seedOffset (s : Nat) : Fin 5 := [4,2,0,0,3,1].getD s 0

def seedNumber (s : Nat) : Nat := [1,0,0,1,0,1].getD s 0

theorem prgSetupMp_eq [AesNi] (randomData : Fin 5 → Nat → Block) (p : Fin 5) {s : Nat}
    (hs : s < 6) : prgSetupMp randomData p s =
      freshPrg (randomData (p + seedOffset s) (2*seedNumber s))
        (randomData (p + seedOffset s) (2*seedNumber s + 1)) := by
  have hdeliver : ∀ r, r < 4 → prgMap5pc.deliver (fun q r' =>
      (randomData q (2*(r'/2)),randomData q (2*(r'/2)+1))) (0,0) p r =
      (randomData (p + [3,2,4,1].getD r 0) (2*(r/2)),
        randomData (p + [3,2,4,1].getD r 0) (2*(r/2)+1)) :=
    fun r hr => Routing.deliver_of_source (source_prgMap5pc p r hr) _ _
  have h₀ := hdeliver 0 (by decide)
  have h₁ := hdeliver 1 (by decide)
  have h₂ := hdeliver 2 (by decide)
  have h₃ := hdeliver 3 (by decide)
  have hrange : List.range prgMap5pc.rounds = [0,1,2,3] := rfl
  simp only [prgSetupMp,hrange,List.foldl_cons,List.foldl_nil,h₀,h₁,h₂,h₃,Function.update_apply]
  rcases (by omega : s = 0 ∨ s = 1 ∨ s = 2 ∨ s = 3 ∨ s = 4 ∨ s = 5) with
    rfl | rfl | rfl | rfl | rfl | rfl <;> simp [seedOffset,seedNumber]

theorem prgSetupMp_consistent [AesNi] (randomData : Fin 5 → Nat → Block) :
    shares5pc.Consistent (prgSetupMp randomData) := by
  have hhold : ∀ p s, s < 6 → ∀ q t, t < 6 → shares5pc.hold p s = shares5pc.hold q t →
      p + seedOffset s = q + seedOffset t ∧ seedNumber s = seedNumber t := by decide
  intro p s q t hs ht hst
  obtain ⟨hoffset,hnumber⟩ := hhold p s hs q t ht hst
  rw [prgSetupMp_eq randomData p hs,prgSetupMp_eq randomData q ht,hoffset,hnumber]

section
variable [AesNi] (randomData : Fin 7 → Nat → Block)

def seedState (x : SeedName) : PrgState :=
  freshPrg (randomData x.1 (2*x.2)) (randomData x.1 (2*x.2 + 1))

theorem prgSetupMp7_eq (p : Fin 7) {s : Nat} (hs : s < 20) : prgSetupMp7 randomData p s =
    if s = 16 then freshPrg 0 0
    else seedState randomData (p + rotation7pc.off s,rotation7pc.cls s) := by
  let f : Option (Fin 7 × Nat) → Block × Block := fun x =>
    match x with
    | some (q,i) => (randomData q (2*i),randomData q (2*i + 1))
    | none => (0,0)
  have hmap := seedSlots_map f (fun q i => some (q,i)) none p s
  rw [seedSlots_names p s hs] at hmap
  have hnet : prgSetupMp7 randomData p s = freshPrg (f (if s = 16 then none
      else some (p + rotation7pc.off s,(rotation7pc.cls s).val))).1 (f (if s = 16 then none
      else some (p + rotation7pc.off s,(rotation7pc.cls s).val))).2 := by
    rw [← hmap]; rfl
  rw [hnet]
  by_cases h16 : s = 16
  · rw [if_pos h16,if_pos h16]
  · rw [if_neg h16,if_neg h16]; rfl

theorem seed_zero_of_consistent (h : shares7pc.Consistent (prgSetupMp7 randomData)) (q : Fin 7) :
    seedState randomData (q,0) = freshPrg 0 0 := by
  have hhold : shares7pc.hold q 0 = shares7pc.hold (q + 5) 16 := by revert q; decide
  have hsame := h q 0 (q + 5) 16 (by decide) (by decide) hhold
  rw [prgSetupMp7_eq _ _ (by decide),prgSetupMp7_eq _ _ (by decide)] at hsame
  have hbase : ∀ q : Fin 7, (q + rotation7pc.off 0,rotation7pc.cls 0) = (q,(0 : Fin 5)) := by
    decide
  rw [if_neg (by decide),if_pos rfl,hbase] at hsame
  exact hsame

theorem freshPrg_eq_zero_iff (container tempKey : Block) :
    freshPrg container tempKey = freshPrg 0 0 ↔ tempKey = 0 ∧
      prgAes (prgKeyschedule 0) container = prgAes (prgKeyschedule 0) 0 := by
  constructor
  · intro h
    have hkey : tempKey = 0 := by
      have hschedule := congrArg (fun g => g.key.head?) h
      simpa [freshPrg,prgKeyschedule,List.scanl_cons] using hschedule
    subst hkey
    exact ⟨rfl,congrArg PrgState.container h⟩
  · rintro ⟨rfl,h⟩
    simp only [freshPrg,h]

/-- The setup agrees on the streams of all shares only when each party's first
seed does what the zero seed in the unfilled slot does. -/
theorem prgSetupMp7_agreement_iff :
    KeyAgreement (seedState randomData) (prgSetupMp7 randomData) ↔
      ∀ q, randomData q 1 = 0 ∧
        prgAes (prgKeyschedule 0) (randomData q 0) = prgAes (prgKeyschedule 0) 0 := by
  constructor
  · intro h q
    exact (freshPrg_eq_zero_iff _ _).mp (seed_zero_of_consistent randomData h.same q)
  · intro h
    have hzero : ∀ q, seedState randomData (q,0) = freshPrg 0 0 :=
      fun q => (freshPrg_eq_zero_iff _ _).mpr (h q)
    have hinv : ∀ x, Function.invFun rotation7pc.base (rotation7pc.base x) = x :=
      Function.leftInverse_invFun rotation7pc.base_inj
    have hholds : shares7pc.Holds (prgSetupMp7 randomData)
        (fun T => seedState randomData (Function.invFun rotation7pc.base T)) := by
      intro p s hs
      simp only [rotation7pc.hold_eq p s hs,hinv,prgSetupMp7_eq randomData p hs]
      by_cases h16 : s = 16
      · subst h16
        rw [if_pos rfl]
        exact (hzero _).symm
      · rw [if_neg h16]
    refine ⟨hholds.consistent,⟨_,?_,hholds⟩,fun requests =>
      Net.consistent_requests requests hholds.consistent⟩
    intro T hT U hU heq
    obtain ⟨x,rfl⟩ := rotation7pc.base_onto T hT
    obtain ⟨y,rfl⟩ := rotation7pc.base_onto U hU
    rw [hinv,hinv] at heq
    rw [heq]

end

/-- Every block drawn is 1: the holders of seven shares disagree on the keys. -/
theorem prgSetupMp7_disagrees : ¬ ∃ _ : AesNi,
    KeyAgreement (seedState fun _ _ => 1) (prgSetupMp7 fun _ _ => 1) := by
  rintro ⟨_,h⟩
  have hzero := seed_zero_of_consistent (fun _ _ => 1) h.same 0
  have hkey : (1 : Block) = 0 := ((freshPrg_eq_zero_iff 1 1).mp hzero).1
  exact absurd hkey (by decide)

end RssRing
