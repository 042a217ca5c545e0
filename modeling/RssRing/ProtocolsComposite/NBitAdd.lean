import RssRing.ProtocolsRand.EdaBitMp
set_option autoImplicit false

namespace RssRing
open Replicated

variable {n L k : Nat} {G : Type}

structure Suite.Adds (S : Suite n L G) (H : Pattern (Fin n) (Finset (Fin n))) (k : Nat) : Prop where
  bitAdd : ∀ (res a b : Shares n (Lint L)) (size : Nat) (net : Net n G), H.Consistent net →
    ∀ i, i < size → ∀ x y : BitVec k, BitSharing H k a i x → BitSharing H k b i y →
      BitSharing H k (S.bitAdd res a b k size net).1 i (x + y)
  bitAddPublic : ∀ (a : Nat → Lint L) (b : Shares n (Lint L)) (size : Nat) (net : Net n G),
    H.Consistent net → ∀ i, i < size → ∀ y : BitVec k, BitSharing H k b i y →
      BitSharing H k (S.bitAddPublic (fun _ => a) b k size net).1 i ((a i).setWidth k + y)

def AddsUp (H : Pattern (Fin n) (Finset (Fin n))) (k m : Nat)
    (nBitAdd : Shares n (Lint L) → Shares n (Lint L) → Nat → Nat → Net n G →
      Shares n (Lint L) × Net n G) : Prop :=
  ∀ (res r_bitwise : Shares n (Lint L)) (size : Nat) (net : Net n G), H.Consistent net →
    ∀ i, i < size → ∀ v : Nat → BitVec k,
      (∀ d, d < m → BitSharing H k r_bitwise (d*size + i) (v d)) →
      BitSharing H k (nBitAdd res r_bitwise k size net).1 i (∑ d ∈ Finset.range m, v d)

structure Discipline.Replicates {S : Suite n L G} (D : Discipline S)
    (H : Pattern (Fin n) (Finset (Fin n))) : Prop where
  shared : ∀ x v, D.Shared x v ↔ H.IsSharing x v
  netOk : ∀ net, D.NetOk net ↔ H.Consistent net

namespace Discipline
variable {S : Suite n L G} {D : Discipline S} {H : Pattern (Fin n) (Finset (Fin n))}
  (hD : D.Replicates H)
include hD

theorem Replicates.bitAdd (hk : k ≤ 8*L) (res : Shares n (Lint L)) {a b : Shares n (Lint L)}
    (size : Nat) {net : Net n G} (hnet : H.Consistent net) :
    H.Consistent (S.bitAdd res a b k size net).2 ∧ ∀ i, i < size → ∀ x y : BitVec k,
      BitSharing H k a i x → BitSharing H k b i y →
      BitSharing H k (S.bitAdd res a b k size net).1 i (x + y) := by
  obtain ⟨hok,hsum⟩ := D.bitAdd_shared size hk res (a := a) (b := b) ((hD.netOk net).mpr hnet)
  refine ⟨(hD.netOk _).mp hok,fun i hi x y ha hb j hj => (hD.shared _ _).mp ?_⟩
  exact hsum i hi x y (fun j hj => (hD.shared _ _).mpr (ha j hj))
    (fun j hj => (hD.shared _ _).mpr (hb j hj)) j hj

theorem Replicates.bitAddPublic (hk : k ≤ 8*L) {T₀ : Finset (Fin n)} (hS : S.Marks H T₀)
    {a : Fin n → Nat → Lint L} {b : Shares n (Lint L)} (size : Nat) {net : Net n G}
    (hnet : H.Consistent net) :
    H.Consistent (S.bitAddPublic a b k size net).2 ∧ ∀ i, i < size → ∀ x y : BitVec k,
      (∀ q, (a q i).setWidth k = x) → BitSharing H k b i y →
      BitSharing H k (S.bitAddPublic a b k size net).1 i (x + y) := by
  have hpub : ∀ c, D.Shared (fun q s => c && S.ai q s) c := fun c =>
    (hD.shared _ _).mpr (hS.publicBit c)
  obtain ⟨hok,hsum⟩ := D.bitAddPublic_shared size hk hpub (a := a) (b := b)
    ((hD.netOk net).mpr hnet)
  refine ⟨(hD.netOk _).mp hok,fun i hi x y ha hb j hj => (hD.shared _ _).mp ?_⟩
  refine hsum i hi x y (fun q j hj => ?_) (fun j hj => (hD.shared _ _).mpr (hb j hj)) j hj
  rw [← ha q,BitVec.getLsbD_setWidth,decide_eq_true hj,Bool.true_and]

theorem Replicates.adds (hk : k ≤ 8*L) {T₀ : Finset (Fin n)} (hS : S.Marks H T₀) : S.Adds H k where
  bitAdd res _ _ size _ hnet := (hD.bitAdd hk res size hnet).2
  bitAddPublic _ _ size _ hnet i hi y hb :=
    (hD.bitAddPublic hk hS size hnet).2 i hi _ y (fun _ => rfl) hb

end Discipline

variable [Generator G]

theorem replicated3pc_replicates (scratch : Shares 3 (Lint L)) :
    (replicated3pc (G := G) scratch).Replicates shares3pc :=
  ⟨fun _ _ => Iff.rfl,fun _ => Iff.rfl⟩

theorem replicated5pc_replicates
    (multPub : Shares 5 (Lint L) → Shares 5 (Lint L) → Nat → Nat → Net 5 G → Fin 5 → Nat → Lint L) :
    (replicated5pc multPub).Replicates shares5pc :=
  ⟨fun _ _ => Iff.rfl,fun _ => Iff.rfl⟩

theorem replicated7pc_replicates
    (multPub : Shares 7 (Lint L) → Shares 7 (Lint L) → Nat → Nat → Net 7 G → Fin 7 → Nat → Lint L)
    (openShares : Shares 7 (Lint L) → Nat → Fin 7 → Nat → Lint L) :
    (replicated7pc multPub openShares).Replicates shares7pc :=
  ⟨fun _ _ => Iff.rfl,fun _ => Iff.rfl⟩

theorem nBitAdd_addsUp (hk : k ≤ 8*L) (scratch : Shares 3 (Lint L)) :
    AddsUp shares3pc k 2 (suite3pc (G := G) scratch).nBitAdd := by
  intro res r_bitwise size net hnet i hi v hv
  have h₀ : BitSharing shares3pc k r_bitwise i (v 0) := by simpa using hv 0 (by decide)
  have h₁ : BitSharing shares3pc k r_bitwise (size + i) (v 1) := by simpa using hv 1 (by decide)
  rw [Finset.sum_range_succ,Finset.sum_range_one]
  exact ((replicated3pc_replicates scratch).bitAdd hk res size hnet).2 i hi _ _ h₀ h₁

theorem nBitAddMp_addsUp (hk : k ≤ 8*L)
    (multPub : Shares 5 (Lint L) → Shares 5 (Lint L) → Nat → Nat → Net 5 G → Fin 5 → Nat → Lint L) :
    AddsUp shares5pc k 3 (suite5pc multPub).nBitAddMp := by
  intro res r_bitwise size net hnet i hi v hv
  have hD := replicated5pc_replicates (L := L) multPub
  have h₀ : BitSharing shares5pc k r_bitwise i (v 0) := by simpa using hv 0 (by decide)
  have h₁ : BitSharing shares5pc k r_bitwise (size + i) (v 1) := by simpa using hv 1 (by decide)
  have h₂ : BitSharing shares5pc k r_bitwise (2*size + i) (v 2) := hv 2 (by decide)
  obtain ⟨hnet₁,hsum₁⟩ := hD.bitAdd hk res size hnet
    (a := r_bitwise) (b := fun p s i => r_bitwise p s (size + i))
  rw [Finset.sum_range_succ,Finset.sum_range_succ,Finset.sum_range_one]
  exact (hD.bitAdd hk _ size hnet₁).2 i hi _ _ (hsum₁ i hi _ _ h₀ h₁) h₂

theorem nBitAdd7pc_addsUp (hk : k ≤ 8*L)
    (multPub : Shares 7 (Lint L) → Shares 7 (Lint L) → Nat → Nat → Net 7 G → Fin 7 → Nat → Lint L)
    (openShares : Shares 7 (Lint L) → Nat → Fin 7 → Nat → Lint L) :
    AddsUp shares7pc k 4 (suite7pc multPub openShares).nBitAdd7pc := by
  intro res r_bitwise size net hnet i hi v hv
  have hD := replicated7pc_replicates (L := L) multPub openShares
  obtain ⟨hnet₁,hsum₁⟩ := hD.bitAdd hk (fun _ _ _ => 0) (2*size) hnet
    (a := r_bitwise) (b := fun p s i => r_bitwise p s (2*size + i))
  have hhalf : ∀ d, d < 2 → BitSharing shares7pc k
      ((suite7pc multPub openShares).bitAdd (fun _ _ _ => 0) r_bitwise
        (fun p s i => r_bitwise p s (2*size + i)) k (2*size) net).1 (d*size + i)
      (v d + v (d+2)) := by
    intro d hd
    have hpos := index_lt hd hi
    have hsecond : 2*size + (d*size + i) = (d+2)*size + i := by ring
    refine hsum₁ _ hpos _ _ (hv d (by omega)) ?_
    show BitSharing shares7pc k (fun p s i => r_bitwise p s i) (2*size + (d*size + i)) (v (d+2))
    rw [hsecond]
    exact hv (d+2) (by omega)
  have h₀ := hhalf 0 (by decide)
  have h₁ := hhalf 1 (by decide)
  rw [Nat.zero_mul,Nat.zero_add] at h₀
  rw [Nat.one_mul] at h₁
  have hsum : ∑ d ∈ Finset.range 4, v d = (v 0 + v 2) + (v 1 + v 3) := by
    simp only [Finset.sum_range_succ,Finset.sum_range_zero,zero_add]
    abel
  rw [hsum]
  exact (hD.bitAdd hk _ size hnet₁).2 i hi _ _ h₀ h₁

/-- The adders of three, five and seven parties share the sums modulo `2^k` bit by bit. -/
theorem bitAdd_family (hk : k ≤ 8*L) (scratch : Shares 3 (Lint L))
    (multPub₅ : Shares 5 (Lint L) → Shares 5 (Lint L) → Nat → Nat → Net 5 G → Fin 5 → Nat → Lint L)
    (multPub₇ : Shares 7 (Lint L) → Shares 7 (Lint L) → Nat → Nat → Net 7 G → Fin 7 → Nat → Lint L)
    (openShares₇ : Shares 7 (Lint L) → Nat → Fin 7 → Nat → Lint L) :
    ((suite3pc (G := G) scratch).Adds shares3pc k ∧
      (suite5pc multPub₅).Adds shares5pc k ∧ (suite7pc multPub₇ openShares₇).Adds shares7pc k) ∧
    AddsUp shares3pc k 2 (suite3pc (G := G) scratch).nBitAdd ∧
      AddsUp shares5pc k 3 (suite5pc multPub₅).nBitAddMp ∧
      AddsUp shares7pc k 4 (suite7pc multPub₇ openShares₇).nBitAdd7pc := by
  refine ⟨⟨?_,?_,?_⟩,nBitAdd_addsUp hk scratch,nBitAddMp_addsUp hk multPub₅,
    nBitAdd7pc_addsUp hk multPub₇ openShares₇⟩
  · exact (replicated3pc_replicates scratch).adds hk (suite3pc_marks scratch)
  · exact (replicated5pc_replicates multPub₅).adds hk (suite5pc_marks multPub₅)
  · exact (replicated7pc_replicates multPub₇ openShares₇).adds hk
      (suite7pc_marks multPub₇ openShares₇)

theorem bitAdd_family_byte :
    let net : Net 5 Tape := fun _ _ => ⟨fun i => BitVec.ofNat 8 i⟩
    let b : Shares 5 (Lint 4) := fun p s _ => if ai5pc p s then 9 else 0
    BitSharing shares5pc 8 ((suite5pc fun _ _ _ _ _ _ _ => 0).bitAddPublic (fun _ _ => 250) b 8 1
      net).1 0 3 := by
  intro net b
  have hnet : shares5pc.Consistent net := fun _ _ _ _ _ _ _ => rfl
  have hb : BitSharing shares5pc 8 b 0 9 := by
    intro j hj
    have hnine : (9 : Lint 4).getLsbD j = (9 : BitVec 8).getLsbD j := by
      revert j; decide
    refine ((suite5pc_marks (L := 4) (G := Tape) fun _ _ _ _ _ _ _ => 0).publicBit
      ((9 : BitVec 8).getLsbD j)).congr fun p s _ => ?_
    show (b p s 0).getLsbD j = ((9 : BitVec 8).getLsbD j && ai5pc p s)
    cases h : ai5pc p s with
    | false => simp [b,h]
    | true => simpa [b,h] using hnine
  exact (bitAdd_family (G := Tape) (L := 4) (k := 8) (by decide) (fun _ _ _ => 0)
    (fun _ _ _ _ _ _ _ => 0) (fun _ _ _ _ _ _ _ => 0) (fun _ _ _ _ => 0)).1.2.1.bitAddPublic
    (fun _ => 250) b 1 net hnet 0 (by decide) 9 hb

end RssRing
