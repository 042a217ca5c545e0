import RssRing.NodeNetwork.PrgSetup
import RssRing.ProtocolsBasic.MatMult
import RssRing.ProtocolsRand.EdaBitMp
import RssRing.ProtocolsRand.RandBit
set_option autoImplicit false

namespace RssRing
open Replicated

variable {G T : Type} [Generator G] {n L : Nat}

/-- What the basic operations take from the stream of each share, whatever they work on. -/
structure Suite.Draws (S : Suite n L G) (H : Pattern (Fin n) T) where
  byte : Nat → T → List Nat
  bitwise : Nat → Nat → T → List Nat
  pub : Nat → Nat → T → List Nat
  byte_drew : ∀ a b size net, Net.Drew H (byte size) net (S.multByte a b size net).2
  bitwise_drew : ∀ c a b size ring_size net,
    Net.Drew H (bitwise size ring_size) net (S.multBitwise c a b size ring_size net).2
  pub_drew : ∀ a b size ring_size net,
    Net.Drew H (pub size ring_size) net (S.multPub a b size ring_size net).2

namespace Suite.Draws
variable {S : Suite n L G} {H : Pattern (Fin n) T} (D : S.Draws H)

def round (r_size size i : Nat) : T → List Nat :=
  D.byte (byteWidth (2*(circleIndex r_size i).length)*size)

theorem round_drew (r_size size i : Nat) (st : CircleState n L G) :
    Net.Drew H (D.round r_size size i) st.net (S.circleRound r_size size i st).net :=
  D.byte_drew _ _ _ st.net

def circle (r_size size : Nat) (t : T) : List Nat :=
  if 1 < r_size then (List.range (Nat.clog 2 r_size)).flatMap fun r => D.round r_size size (r+1) t
  else []

theorem circle_drew (d : Shares n (Lint L)) (r_size size : Nat) (net : Net n G) :
    Net.Drew H (D.circle r_size size) net (S.circleOpL d r_size size net).2 := by
  have hrounds : ∀ m, Net.Drew H
      (fun t => (List.range m).flatMap fun r => D.round r_size size (r+1) t) net
      ((List.range m).foldl (fun st r => S.circleRound r_size size (r+1) st)
        ⟨d,fun _ _ _ => 0,net⟩).net := by
    intro m
    induction m with
    | zero => exact Net.Drew.refl net
    | succ m ih =>
      have hround := ih.trans (D.round_drew r_size size (m+1) _)
      simpa only [List.range_succ,List.flatMap_append,List.flatMap_cons,List.flatMap_nil,
        List.append_nil,List.foldl_append,List.foldl_cons,List.foldl_nil] using hround
  unfold circle
  rw [circleOpL]
  by_cases h : 1 < r_size
  · simp only [if_pos h]
    exact hrounds _
  · simp only [if_neg h]
    exact Net.Drew.refl net

def add (ring_size size : Nat) (t : T) : List Nat :=
  D.bitwise size ring_size t ++ D.circle ring_size size t

theorem bitAdd_drew (res a b : Shares n (Lint L)) (ring_size size : Nat) (net : Net n G) :
    Net.Drew H (D.add ring_size size) net (S.bitAdd res a b ring_size size net).2 :=
  (D.bitwise_drew res a b size ring_size net).trans (D.circle_drew _ ring_size size _)

theorem randBit_drew (hS : S.numShares = H.slots) (u : Shares n (Lint L)) (size ring_size : Nat)
    (net : Net n G) : Net.Drew H
      (fun t => [((ring_size + 9) >>> 3)*size] ++ D.pub size (ring_size+2) t) net
      (S.randBit u size ring_size net).2 := by
  have hwords : Net.Drew H (fun _ => [((ring_size + 9) >>> 3)*size]) net
      (net.advanceAll S.numShares ((ring_size + 9) >>> 3) fun _ => size) := by
    rw [hS]
    exact Net.drew_advanceAll (fun _ => size) (fun _ _ _ => rfl) net _
  exact hwords.trans (D.pub_drew _ _ size (ring_size+2) _)

end Suite.Draws

def draws3pc (scratch : Shares 3 (Lint L)) : (suite3pc (G := G) scratch).Draws shares3pc where
  byte size _ := [1*size]
  bitwise size ring_size _ := [byteWidth ring_size*size]
  pub size ring_size _ := [byteWidth ring_size*size]
  byte_drew _ _ size net := drew_advance3pc net 1 size
  bitwise_drew _ _ _ size ring_size net := drew_advance3pc net (byteWidth ring_size) size
  pub_drew _ _ size ring_size net := by
    have hdrew := drew_advance3pc net (byteWidth ring_size) size
    rwa [net.advance_comm (s := 1) (t := 0) (by decide)] at hdrew

def draws5pc
    (multPub : Shares 5 (Lint L) → Shares 5 (Lint L) → Nat → Nat → Net 5 G → Fin 5 → Nat → Lint L) :
    (suite5pc (G := G) multPub).Draws shares5pc where
  byte size T := [1*(MultTable.contributorsTo shares5pc T*size)]
  bitwise size ring_size T := [byteWidth ring_size*(MultTable.contributorsTo shares5pc T*size)]
  pub size ring_size _ := [byteWidth ring_size*size]
  byte_drew a b size net := table5pc_agrees.drew byteKind size net _ a b
  bitwise_drew _ a b size ring_size net :=
    table5pc_agrees.drew (bitwiseKind L ring_size) size net _ a b
  pub_drew _ _ size ring_size net :=
    Net.drew_advanceAll (fun _ => size) (fun _ _ _ => rfl) net (byteWidth ring_size)

/-- A call of one operation by all three parties, each with its own data. -/
inductive Op3pc (L : Nat) where
  | mult (c a b : Shares 3 (Lint L)) (size ring_size : Nat)
  | multBitwise (c a b : Shares 3 (Lint L)) (size ring_size : Nat)
  | multByte (c a b : Shares 3 Byte) (size : Nat)
  | multFixedB (a b : Shares 3 (Lint L)) (b_index size ring_size : Nat)
  | multPub (v_a c : Fin 3 → Nat → Lint L) (a b : Shares 3 (Lint L)) (size ring_size : Nat)
  | randBit (scratch u : Shares 3 (Lint L)) (size ring_size : Nat)
  | edaBit (scratch : Shares 3 (Lint L)) (size ring_size : Nat)
  | edaBitLength (scratch : Shares 3 (Lint L)) (size ring_size bit_length : Nat)
  | matMult (c a b : Matrices 3 (Lint L)) (m n s ring_size : Nat)
  | matMultArray (c a b : Shares 3 (Lint L)) (m n s ring_size : Nat)
  | matMultArrayBatch (c a b : Shares 3 (Lint L))
      (m n s ring_size batch_size weight_flag_a weight_flag_b : Nat)
  | dwMatrixmul (res x W : Shares 3 (Lint L))
      (width height channels filter ring_size batch_size stride : Nat)
  | pwMatrixmul (res x W : Shares 3 (Lint L))
      (width height in_channels kernel out_channels ring_size batch_size : Nat)

namespace Op3pc

def run (net : Net 3 G) : Op3pc L → Net 3 G
  | mult c a b size ring_size => (rssMult c a b size ring_size net).2
  | multBitwise c a b size ring_size => (rssMultBitwise c a b size ring_size net).2
  | multByte c a b size => (rssMultByte c a b size net).2
  | multFixedB a b b_index size ring_size => (rssMultFixedB a b b_index size ring_size net).2
  | multPub v_a c a b size ring_size => (rssMultPub v_a c a b size ring_size net).2
  | randBit scratch u size ring_size => ((suite3pc scratch).randBit u size ring_size net).2
  | edaBit scratch size ring_size => ((suite3pc scratch).edaBit size ring_size net).net
  | edaBitLength scratch size ring_size bit_length =>
    ((suite3pc scratch).edaBitLength size ring_size bit_length net).net
  | matMult c a b m n s ring_size => (rssMatMult c a b m n s ring_size net).2
  | matMultArray c a b m n s ring_size => (rssMatMultArray c a b m n s ring_size net).2
  | matMultArrayBatch c a b m n s ring_size batch_size weight_flag_a weight_flag_b =>
    (rssMatMultArrayBatch c a b m n s ring_size batch_size weight_flag_a weight_flag_b net).2
  | dwMatrixmul res x W width height channels filter ring_size batch_size stride =>
    (rssDwMatrixmul res x W width height channels filter ring_size batch_size stride net).2
  | pwMatrixmul res x W width height in_channels kernel out_channels ring_size batch_size =>
    (rssPwMatrixmul res x W width height in_channels kernel out_channels ring_size batch_size net).2

theorem dealing_drew (net : Net 3 G) (bytes size : Nat) :
    Net.Drew shares3pc (fun _ => [bytes*(2*size)]) net
      (((net.advance 2 bytes size).advance 1 bytes (2*size)).advance 0 bytes (2*size)) :=
  (Net.drew_own (by decide) net bytes size).trans (drew_advance3pc _ bytes (2*size))

/-- What an operation takes from a stream depends on its public parameters alone. -/
theorem run_drew (op : Op3pc L) :
    ∃ amounts, ∀ net : Net 3 G, Net.Drew shares3pc amounts net (op.run net) := by
  cases op with
  | mult c a b size ring_size =>
    exact ⟨_,fun net => drew_advance3pc net (byteWidth ring_size) size⟩
  | multBitwise c a b size ring_size =>
    exact ⟨_,fun net => drew_advance3pc net (byteWidth ring_size) size⟩
  | multByte c a b size => exact ⟨_,fun net => drew_advance3pc net 1 size⟩
  | multFixedB a b b_index size ring_size =>
    exact ⟨_,fun net => drew_advance3pc net (byteWidth ring_size) size⟩
  | multPub v_a c a b size ring_size =>
    refine ⟨_,fun net => (draws3pc fun p s => if s = 0 then v_a p else c p).pub_drew a b size
      ring_size net⟩
  | randBit scratch u size ring_size =>
    exact ⟨_,(draws3pc scratch).randBit_drew rfl u size ring_size⟩
  | edaBit scratch size ring_size =>
    exact ⟨_,fun net => (dealing_drew net (byteWidth ring_size) size).trans
      ((draws3pc scratch).bitAdd_drew _ _ _ ring_size size _)⟩
  | edaBitLength scratch size ring_size bit_length =>
    exact ⟨_,fun net => (dealing_drew net (byteWidth ring_size) size).trans
      ((draws3pc scratch).bitAdd_drew _ _ _ ring_size size _)⟩
  | matMult c a b m n s ring_size =>
    exact ⟨_,fun net => drew_advance3pc net (byteWidth ring_size) (m*s)⟩
  | matMultArray c a b m n s ring_size =>
    exact ⟨_,fun net => drew_advance3pc net (byteWidth ring_size) (m*s)⟩
  | matMultArrayBatch c a b m n s ring_size batch_size weight_flag_a weight_flag_b =>
    exact ⟨_,fun net => drew_advance3pc net (byteWidth ring_size) (batch_size*m*s)⟩
  | dwMatrixmul res x W width height channels filter ring_size batch_size stride =>
    exact ⟨_,fun net => drew_advance3pc net (byteWidth ring_size)
      (dwOutputDim width height channels batch_size stride)⟩
  | pwMatrixmul res x W width height in_channels kernel out_channels ring_size batch_size =>
    exact ⟨_,fun net => drew_advance3pc net (byteWidth ring_size)
      (pwOutputDim width height out_channels batch_size)⟩

end Op3pc

inductive Op5pc (L : Nat) where
  | mult (a b : Shares 5 (Lint L)) (size ring_size : Nat)
  | multBitwise (a b : Shares 5 (Lint L)) (size ring_size : Nat)
  | multByte (a b : Shares 5 Byte) (size : Nat)
  | multFixedB (a b : Shares 5 (Lint L)) (b_index size ring_size : Nat)
  | multPub (old a b : Shares 5 (Lint L)) (size ring_size : Nat)
  | randBit (old u : Shares 5 (Lint L)) (size ring_size : Nat)
  | edaBit (old : Shares 5 (Lint L)) (size ring_size : Nat)
  | matMultArrayBatch (c a b : Shares 5 (Lint L))
      (m n s ring_size batch_size weight_flag_a weight_flag_b : Nat)
  | dwMatrixmul (res x W : Shares 5 (Lint L))
      (width height channels filter ring_size batch_size stride : Nat)
  | pwMatrixmul (res x W : Shares 5 (Lint L))
      (width height in_channels kernel out_channels ring_size batch_size : Nat)

namespace Op5pc

def suite (old : Shares 5 (Lint L)) : Suite 5 L G :=
  suite5pc fun a b size ring_size net => (rssMultPubMp old a b size ring_size net).1

def run (net : Net 5 G) : Op5pc L → Net 5 G
  | mult a b size ring_size => (rssMultMp a b size ring_size net).2
  | multBitwise a b size ring_size => (rssMultBitwiseMp a b size ring_size net).2
  | multByte a b size => (rssMultByteMp a b size net).2
  | multFixedB a b b_index size ring_size => (rssMultFixedBMp a b b_index size ring_size net).2
  | multPub old a b size ring_size => (rssMultPubMp old a b size ring_size net).2
  | randBit old u size ring_size => ((suite old).randBit u size ring_size net).2
  | edaBit old size ring_size => ((suite old).edaBitMp size ring_size net).net
  | matMultArrayBatch c a b m n s ring_size batch_size weight_flag_a weight_flag_b =>
    (rssMatMultArrayBatchMp c a b m n s ring_size batch_size weight_flag_a weight_flag_b net).2
  | dwMatrixmul res x W width height channels filter ring_size batch_size stride =>
    (rssDwMatrixmulMp res x W width height channels filter ring_size batch_size stride net).2
  | pwMatrixmul res x W width height in_channels kernel out_channels ring_size batch_size =>
    (rssPwMatrixmulMp res x W width height in_channels kernel out_channels ring_size batch_size
      net).2

theorem mult_drew {W : Type} (K : WordKind W) (size : Nat) (net : Net 5 G)
    (masks : Nat → Fin 5 → List (MaskUse 5)) (a b : Shares 5 W) :
    Net.Drew shares5pc (fun T => [K.bytes*(MultTable.contributorsTo shares5pc T*size)]) net
      (table5pc.mult K masks size net a b).2 :=
  table5pc_agrees.drew K size net masks a b

theorem matMult_drew (terms : Terms) (size ring_size : Nat) (net : Net 5 G)
    (c a b : Shares 5 (Lint L)) : Net.Drew shares5pc
      (fun T => [byteWidth ring_size*(MultTable.contributorsTo shares5pc T*size)]) net
      (table5pc.matMult terms size ring_size net c a b).2 :=
  mult_drew (arithKind L ring_size) size net (fun _ _ => []) a b

theorem run_drew (op : Op5pc L) :
    ∃ amounts, ∀ net : Net 5 G, Net.Drew shares5pc amounts net (op.run net) := by
  cases op with
  | mult a b size ring_size => exact ⟨_,fun net => mult_drew (arithKind L ring_size) size net _ a b⟩
  | multBitwise a b size ring_size =>
    exact ⟨_,fun net => mult_drew (bitwiseKind L ring_size) size net _ a b⟩
  | multByte a b size => exact ⟨_,fun net => mult_drew byteKind size net _ a b⟩
  | multFixedB a b b_index size ring_size =>
    exact ⟨_,fun net => mult_drew (arithKind L ring_size) size net _ a _⟩
  | multPub old a b size ring_size =>
    exact ⟨_,fun net => Net.drew_advanceAll (fun _ => size) (fun _ _ _ => rfl) net
      (byteWidth ring_size)⟩
  | randBit old u size ring_size => exact ⟨_,(draws5pc _).randBit_drew rfl u size ring_size⟩
  | edaBit old size ring_size =>
    let D : (suite (G := G) old).Draws shares5pc := draws5pc _
    let dealing := fun net => EdaTable.generateRandomShares_drew (L := L) (G := G)
      edaTable5pc_deals net ring_size size
    exact ⟨_,fun net => ((dealing net).trans (D.bitAdd_drew _ _ _ ring_size size _)).trans
      (D.bitAdd_drew _ _ _ ring_size size _)⟩
  | matMultArrayBatch c a b m n s ring_size batch_size weight_flag_a weight_flag_b =>
    exact ⟨_,fun net => matMult_drew _ (batch_size*m*s) ring_size net c a _⟩
  | dwMatrixmul res x W width height channels filter ring_size batch_size stride =>
    exact ⟨_,fun net => matMult_drew _ _ ring_size net res x W⟩
  | pwMatrixmul res x W width height in_channels kernel out_channels ring_size batch_size =>
    exact ⟨_,fun net => matMult_drew _ _ ring_size net res x W⟩

end Op5pc

omit [Generator G] in
theorem foldl_consistent {A : Type} {H : Pattern (Fin n) T} (run : Net n G → A → Net n G)
    (hrun : ∀ net op, H.Consistent net → H.Consistent (run net op)) (ops : List A) {net : Net n G}
    (hnet : H.Consistent net) : H.Consistent (ops.foldl run net) := by
  induction ops generalizing net with
  | nil => exact hnet
  | cons op ops ih => exact ih (hrun net op hnet)

/-- The holders of each share start in one state, every operation takes the same bytes
from its stream at all of them, and so they are in one state after any operations. -/
theorem prg_lockstep [AesNi] (ops₃ : List (Op3pc L)) (ops₅ : List (Op5pc L)) :
    (∀ randomData, shares3pc.Consistent (ops₃.foldl Op3pc.run (prgSetup randomData))) ∧
    (∀ randomData, shares5pc.Consistent (ops₅.foldl Op5pc.run (prgSetupMp randomData))) ∧
    (∀ op : Op3pc L, ∃ amounts, ∀ net : Net 3 PrgState,
      Net.Drew shares3pc amounts net (op.run net)) ∧
    ∀ op : Op5pc L, ∃ amounts, ∀ net : Net 5 PrgState,
      Net.Drew shares5pc amounts net (op.run net) := by
  refine ⟨fun randomData => ?_,fun randomData => ?_,fun op => op.run_drew,fun op => op.run_drew⟩
  · refine foldl_consistent _ (fun net op hnet => ?_) ops₃ (prgSetup_consistent randomData)
    obtain ⟨amounts,hdrew⟩ := op.run_drew (G := PrgState)
    exact (hdrew net).consistent hnet
  · refine foldl_consistent _ (fun net op hnet => ?_) ops₅ (prgSetupMp_consistent randomData)
    obtain ⟨amounts,hdrew⟩ := op.run_drew (G := PrgState)
    exact (hdrew net).consistent hnet

end RssRing
