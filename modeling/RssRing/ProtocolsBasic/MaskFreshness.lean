import RssRing.ProtocolsBasic.MultMp
set_option autoImplicit false

namespace RssRing
open Replicated Finset

inductive MaskedMult
  | rssMultMp | rssMultFixedBMp | rssMultBitwiseMp | rssMultByteMp
  | rssMult7pc | rssMultBitwise7pc | rssMultByte7pc
  deriving DecidableEq

namespace MaskedMult

def numParties : MaskedMult → Nat
  | rssMultMp | rssMultFixedBMp | rssMultBitwiseMp | rssMultByteMp => 5
  | rssMult7pc | rssMultBitwise7pc | rssMultByte7pc => 7

def shares : (r : MaskedMult) → Pattern (Fin r.numParties) (Finset (Fin r.numParties))
  | rssMultMp | rssMultFixedBMp | rssMultBitwiseMp | rssMultByteMp => shares5pc
  | rssMult7pc | rssMultBitwise7pc | rssMultByte7pc => shares7pc

def masks : (r : MaskedMult) → Nat → Fin r.numParties → List (MaskUse r.numParties)
  | rssMultMp => rssMultMpMasks
  | rssMultFixedBMp => rssMultFixedBMpMasks
  | rssMultBitwiseMp => rssMultBitwiseMpMasks
  | rssMultByteMp => rssMultByteMpMasks
  | rssMult7pc => rssMult7pcMasks
  | rssMultBitwise7pc => rssMultBitwise7pcMasks
  | rssMultByte7pc => rssMultByte7pcMasks

def bytes (ring_size : Nat) : MaskedMult → Nat
  | rssMultByteMp | rssMultByte7pc => 1
  | rssMultMp | rssMultFixedBMp | rssMultBitwiseMp | rssMult7pc | rssMultBitwise7pc =>
    byteWidth ring_size

end MaskedMult

def MaskUse.covers {n : Nat} (u : MaskUse n) (bytes m : Nat) : Prop :=
  u.pos*bytes ≤ m ∧ m < u.pos*bytes + bytes

/-- No byte of a share's stream is in the masks of two contributions. -/
def Fresh {n : Nat} (H : Pattern (Fin n) (Finset (Fin n))) (masks : Fin n → List (MaskUse n))
    (bytes : Nat) : Prop :=
  ∀ p q, ∀ u ∈ masks p, ∀ w ∈ masks q, H.hold p u.tIndex = H.hold q w.tIndex →
    (u.i,u.pPrime) ≠ (w.i,w.pPrime) → ∀ m, ¬ (u.covers bytes m ∧ w.covers bytes m)

variable {n : Nat}

theorem fresh_running {tab : MultTable n} {H : Pattern (Fin n) (Finset (Fin n))}
    (hA : tab.Agrees H)
    (hrank : ∀ p t, t < H.slots → ∀ p', tab.used p p' t →
      tab.rank p (List.finRange n) p' t < tab.contributors p t)
    (hinj : ∀ p t, t < H.slots → ∀ p', tab.used p p' t → ∀ p'', tab.used p p'' t →
      tab.rank p (List.finRange n) p' t = tab.rank p (List.finRange n) p'' t → p' = p'')
    (size bytes : Nat) : Fresh H (fun p => tab.maskUses .running p size) bytes := by
  intro p q u hu w hw hhold hne m hm
  obtain ⟨_,hut,huu,hupos⟩ := (tab.mem_maskUses _ _).mp hu
  obtain ⟨_,hwt,hwu,hwpos⟩ := (tab.mem_maskUses _ _).mp hw
  rw [hA.slots] at hut hwt
  rw [hA.place_eq .running hwt hut hhold.symm] at hwpos
  rw [hA.used_eq hwt hut hhold.symm] at hwu
  obtain ⟨⟨hul,huh⟩,hwl,hwh⟩ := hm
  have hpos : u.pos = w.pos := index_unique ⟨hul,huh⟩ ⟨hwl,hwh⟩
  have hru := hrank p u.tIndex hut u.pPrime huu
  have hrw := hrank p u.tIndex hut w.pPrime hwu
  simp only [hupos,hwpos,MultTable.place,Tracking.pos,Tracking.step,Nat.one_mul] at hpos
  have hi : u.i = w.i := by
    have hdiv := congrArg (fun x => x/tab.contributors p u.tIndex) hpos
    have hc : 0 < tab.contributors p u.tIndex := by omega
    simpa [Nat.mul_comm _ (tab.contributors p u.tIndex),Nat.mul_add_div hc,
      Nat.div_eq_of_lt hru,Nat.div_eq_of_lt hrw] using hdiv
  rw [hi] at hpos
  have hp' := hinj p u.tIndex hut u.pPrime huu w.pPrime hwu (by omega)
  exact hne (Prod.ext hi hp')

theorem not_fresh {tab : MultTable n} {H : Pattern (Fin n) (Finset (Fin n))} {track : Tracking}
    (htrack : track ≠ .running) (p p' p'' : Fin n) (t : Nat) (ht : t < tab.numShares)
    (hu : tab.used p p' t) (hw : tab.used p p'' t) (hne : p' ≠ p'') {size bytes : Nat}
    (hsize : 0 < size) (hbytes : 0 < bytes) :
    ¬ Fresh H (fun p => tab.maskUses track p size) bytes := by
  intro hfresh
  have hplace : tab.place track p 0 p' t = 0 ∧ tab.place track p 0 p'' t = 0 := by
    cases track with
    | perUse => simp [MultTable.place,Tracking.pos]
    | running => exact absurd rfl htrack
    | unmoved => simp [MultTable.place,Tracking.pos,Tracking.step]
  have hmem : ∀ q, tab.used p q t → tab.place track p 0 q t = 0 →
      ⟨0,q,t,0⟩ ∈ tab.maskUses track p size := by
    intro q hq hpos
    exact (tab.mem_maskUses _ _).mpr ⟨hsize,ht,hq,hpos.symm⟩
  refine hfresh p p _ (hmem p' hu hplace.1) _ (hmem p'' hw hplace.2) rfl ?_ 0 ?_
  · exact fun h => hne (congrArg Prod.snd h)
  · simp [MaskUse.covers,hbytes]

theorem fresh_empty {tab : MultTable n} {H : Pattern (Fin n) (Finset (Fin n))} {track : Tracking}
    (bytes : Nat) : Fresh H (fun p => tab.maskUses track p 0) bytes := by
  intro p q u hu
  exact absurd ((tab.mem_maskUses _ _).mp hu).1 (Nat.not_lt_zero _)

set_option maxRecDepth 4000 in
theorem rank5pc_lt : ∀ p t, t < shares5pc.slots → ∀ p', table5pc.used p p' t →
    table5pc.rank p (List.finRange 5) p' t < table5pc.contributors p t := by decide

theorem rank5pc_inj : ∀ p t, t < shares5pc.slots → ∀ p', table5pc.used p p' t →
    ∀ p'', table5pc.used p p'' t →
    table5pc.rank p (List.finRange 5) p' t = table5pc.rank p (List.finRange 5) p'' t →
    p' = p'' := by decide

theorem perUse5pc_fresh_iff (size bytes : Nat) (hbytes : 0 < bytes) :
    Fresh shares5pc (fun p => table5pc.maskUses .perUse p size) bytes ↔ size = 0 := by
  constructor
  · intro hfresh
    by_contra hsize
    exact not_fresh (by decide) 0 3 4 0 (by decide) (by decide)
      (by decide) (by decide) (Nat.pos_of_ne_zero hsize) hbytes hfresh
  · rintro rfl
    exact fresh_empty bytes

theorem stuck7pc_fresh_iff {track : Tracking} (htrack : track ≠ .running) (size bytes : Nat)
    (hbytes : 0 < bytes) :
    Fresh shares7pc (fun p => table7pc.maskUses track p size) bytes ↔ size = 0 := by
  constructor
  · intro hfresh
    by_contra hsize
    exact not_fresh htrack 0 4 5 0 (by decide) (by decide)
      (by decide) (by decide) (Nat.pos_of_ne_zero hsize) hbytes hfresh
  · rintro rfl
    exact fresh_empty bytes

/-- Only the two routines with a running tracker keep their masks apart. -/
theorem masks_fresh_iff (r : MaskedMult) (size ring_size : Nat) (hk : 0 < ring_size) :
    Fresh r.shares (r.masks size) (r.bytes ring_size) ↔
      r = .rssMultBitwiseMp ∨ r = .rssMultByteMp ∨ size = 0 := by
  have hbytes := byteWidth_pos hk
  have hrunning := fun bytes =>
    fresh_running table5pc_agrees rank5pc_lt rank5pc_inj size bytes
  cases r with
  | rssMultMp => exact (perUse5pc_fresh_iff size _ hbytes).trans (by simp)
  | rssMultFixedBMp => exact (perUse5pc_fresh_iff size _ hbytes).trans (by simp)
  | rssMultBitwiseMp => exact ⟨fun _ => .inl rfl,fun _ => hrunning (byteWidth ring_size)⟩
  | rssMultByteMp => exact ⟨fun _ => .inr (.inl rfl),fun _ => hrunning 1⟩
  | rssMult7pc => exact (stuck7pc_fresh_iff (by decide) size _ hbytes).trans (by simp)
  | rssMultBitwise7pc => exact (stuck7pc_fresh_iff (by decide) size _ hbytes).trans (by simp)
  | rssMultByte7pc => exact (stuck7pc_fresh_iff (by decide) size 1 Nat.one_pos).trans (by simp)

theorem masks_fresh_byte : Fresh MaskedMult.rssMultByteMp.shares (MaskedMult.rssMultByteMp.masks 3)
    (MaskedMult.rssMultByteMp.bytes 8) :=
  (masks_fresh_iff .rssMultByteMp 3 8 (by decide)).mpr (.inr (.inl rfl))

/-- One element modulo `2^8`: parties 4 and 5 mask their messages for the first
share with the same byte. -/
theorem masks_not_fresh : ¬ Fresh MaskedMult.rssMultMp.shares (MaskedMult.rssMultMp.masks 1)
    (MaskedMult.rssMultMp.bytes 8) := by
  have h : ¬ Fresh shares5pc (fun p => table5pc.maskUses .perUse p 1) 1 :=
    fun hfresh => Nat.one_ne_zero ((perUse5pc_fresh_iff 1 1 Nat.one_pos).mp hfresh)
  exact h

end RssRing
