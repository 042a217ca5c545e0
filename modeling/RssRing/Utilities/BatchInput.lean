import RssRing.Utilities.InitIo
set_option autoImplicit false

namespace RssRing
open Replicated

variable {L k : Nat}

/-- The `memcpy` of the first `size` elements of two of the shares at the party `p`. -/
def copyShares (size : Nat) (shares : Nat → Nat → Lint L) (p : Fin 3)
    (output : Nat → Nat → Lint L) : Nat → Nat → Lint L := fun s i =>
  if s < 2 ∧ i < size then shares (shareOrder3pc p s) i else output s i

@[simp] theorem copyShares_of_ge {size e : Nat} (he : size ≤ e) (shares : Nat → Nat → Lint L)
    (p : Fin 3) (output : Nat → Nat → Lint L) (s : Nat) :
    copyShares size shares p output s e = output s e :=
  if_neg fun h => absurd h.2 (Nat.not_lt.mpr he)

section
variable [AesNi]

/-- `splitX` at the party `p`. The copy at the end takes `size` elements. -/
def splitX (p : Fin 3) (output : Nat → Nat → Lint L)
    (input : Nat → BitVec (Overload.longLong.read L).width)
    (size batch_size tracker ring_size : Nat) : Nat → Nat → Lint L :=
  let shares := splitInput 2 ring_size (size*batch_size) fun i =>
    lastShare (Overload.longLong.read L) ring_size (input (tracker*size*batch_size + i))
  copyShares size shares p output

def splitBatch (draws ring_size size batch_size : Nat)
    (last : Nat → (Nat → Lint L) → Lint L) : Nat → Nat → Lint L :=
  ((List.range batch_size).foldl (fun st j =>
    (List.range size).foldl (fun (splitInput,seed) i =>
      let (shares,seed) := drawShares draws ring_size seed
      let shares := Function.update shares draws (last i shares)
      (fun t => Function.update (splitInput t) (j*size + i) (shares t),seed)) st)
    ((fun _ _ => 0),key1)).1

/-- `splitData_X` at the party `p`, which ends with the same copy. -/
def splitDataX (p : Fin 3) (output : Nat → Nat → Lint L)
    (input : Nat → BitVec (Overload.lint.read L).width) (size batch_size ring_size : Nat) :
    Nat → Nat → Lint L :=
  let shares := splitBatch 2 ring_size size batch_size fun i =>
    lastShare (Overload.lint.read L) ring_size (input i)
  copyShares size shares p output

end

theorem foldl_images {A : Type} (f : A → Nat → A) (size batch_size : Nat) (st : A) :
    (List.range batch_size).foldl (fun st j =>
      (List.range size).foldl (fun st i => f st (j*size + i)) st) st =
    (List.range (batch_size*size)).foldl f st := by
  induction batch_size with
  | zero => rw [Nat.zero_mul]; rfl
  | succ batch_size ih =>
    rw [List.range_succ,List.foldl_append,ih,Nat.succ_mul,List.range_add,List.foldl_append,
      List.foldl_map]
    rfl

theorem batch_le_iff {size batch_size : Nat} (hb : 1 ≤ batch_size) :
    size*batch_size ≤ size ↔ batch_size = 1 ∨ size = 0 := by
  constructor
  · intro h
    by_contra hmany
    obtain ⟨hb₁,hsize⟩ := not_or.mp hmany
    have htwo : size*2 ≤ size*batch_size := Nat.mul_le_mul_left size (by omega)
    omega
  · rintro (rfl | rfl)
    · rw [Nat.mul_one]
    · rw [Nat.zero_mul]

section
variable [AesNi]

theorem splitBatch_eq (draws size batch_size : Nat) (last : Nat → (Nat → Lint L) → Lint L) :
    splitBatch draws k size batch_size last =
      splitInput draws k (batch_size*size) fun e => last (e%size) := by
  rw [splitInput,← foldl_images,splitBatch]
  congr 1
  refine List.foldl_ext _ _ _ fun st j _ => List.foldl_ext _ _ _ fun st i hi => ?_
  rw [index_mod (List.mem_range.mp hi)]

theorem copyShares_isSharing {c : IntType} (hk : k < 8*L) {size total : Nat}
    (input : Nat → BitVec c.width) {shares : Nat → Nat → Lint L}
    (hshares : shares = splitInput 2 k total fun i => lastShare c k (input i))
    (output : Shares 3 (Lint L)) :
    (∀ e, e < total → ArithSharing shares3pc k (fun p => copyShares size shares p (output p)) e
      (BitVec.ofInt k (c.toInt (input e)))) ↔
    ∀ e, size ≤ e → e < total →
      ArithSharing shares3pc k output e (BitVec.ofInt k (c.toInt (input e))) := by
  constructor
  · intro h e hge he
    exact (h e he).congr fun p s _ => by simp only [copyShares_of_ge hge]
  · intro h e he
    rcases Nat.lt_or_ge e size with hlt | hge
    · have hsharing := Pattern.isSharing_indexed places3pc shareOrder3pc_eq
        (fun j => (shares j e).setWidth k)
      rw [hshares,splitInput_sum _ he fun drawn => by rw [lastShare_val _ hk],← hshares] at hsharing
      refine hsharing.congr fun p s hs => ?_
      simp only [copyShares,if_pos (⟨hs,hlt⟩ : s < 2 ∧ e < size)]
    · exact (h e hge he).congr fun p s _ => by simp only [copyShares_of_ge hge]

theorem copyShares_copied {c : IntType} (hk : k < 8*L) {size total : Nat}
    (input : Nat → BitVec c.width) {shares : Nat → Nat → Lint L}
    (hshares : shares = splitInput 2 k total fun i => lastShare c k (input i))
    (output : Shares 3 (Lint L)) {e : Nat} (he : e < size) (htotal : e < total) :
    ArithSharing shares3pc k (fun p => copyShares size shares p (output p)) e
      (BitVec.ofInt k (c.toInt (input e))) := by
  have hall := (copyShares_isSharing hk input hshares output).mpr
    (fun e (hge : total ≤ e) he => absurd he (Nat.not_lt.mpr hge)) e htotal
  refine hall.congr fun p s hs => ?_
  simp only [copyShares]
  rw [if_pos ⟨hs,he⟩,if_pos ⟨hs,htotal⟩]

theorem copyShares_covers {c : IntType} (hk₀ : 0 < k) (hk : k < 8*L) {size total : Nat}
    (input : Nat → BitVec c.width) {shares : Nat → Nat → Lint L}
    (hshares : shares = splitInput 2 k total fun i => lastShare c k (input i)) :
    (∀ output : Shares 3 (Lint L), ∀ e, e < total → ArithSharing shares3pc k
      (fun p => copyShares size shares p (output p)) e (BitVec.ofInt k (c.toInt (input e)))) ↔
    total ≤ size := by
  constructor
  · intro h
    by_contra hlt
    have hpublic : ∀ v : BitVec k, v = BitVec.ofInt k (c.toInt (input size)) := by
      intro v
      let old : Shares 3 (Lint L) := fun p s _ =>
        if shares3pc.hold p s = {0} then v.setWidth (8*L) else 0
      have hold : ArithSharing shares3pc k old size v := by
        have hname : {0} ∈ shares3pc.names := by decide
        refine Pattern.isSharing_public hname v fun p s _ => ?_
        dsimp only [old]
        split
        · rw [BitVec.setWidth_setWidth_of_le _ hk.le,BitVec.setWidth_eq]
        · exact map_zero (lowBits hk.le)
      exact hold.unique ((copyShares_isSharing hk input hshares old).mp (h old) size le_rfl (by omega))
    have hbit := congrArg (fun v => v.getLsbD 0)
      ((hpublic (bitVal k false)).trans (hpublic (bitVal k true)).symm)
    simp only [lsb_bitVal hk₀] at hbit
    exact Bool.noConfusion hbit
  · intro hle output
    exact (copyShares_isSharing hk input hshares output).mpr fun e hge he => absurd he (by omega)

/-- A call of `splitX` or `splitData_X` is right exactly when the output arrays already held
right shares from element `size` on. It is right whatever they held only for a single image. -/
theorem splitX_isSharing_iff (hk₀ : 0 < k) (hk : k < 8*L) (size tracker : Nat) {batch_size : Nat}
    (hb : 1 ≤ batch_size) (inputX : Nat → BitVec (Overload.longLong.read L).width)
    (inputDataX : Nat → BitVec (Overload.lint.read L).width) :
    let valueX := fun e => BitVec.ofInt k
      ((Overload.longLong.read L).toInt (inputX (tracker*size*batch_size + e)))
    let valueDataX := fun e => BitVec.ofInt k ((Overload.lint.read L).toInt (inputDataX (e%size)))
    let outX := fun (output : Shares 3 (Lint L)) p =>
      splitX p (output p) inputX size batch_size tracker k
    let outDataX := fun (output : Shares 3 (Lint L)) p =>
      splitDataX p (output p) inputDataX size batch_size k
    ((∀ output, (∀ e, e < size*batch_size → ArithSharing shares3pc k (outX output) e (valueX e)) ↔
        ∀ e, size ≤ e → e < size*batch_size → ArithSharing shares3pc k output e (valueX e)) ∧
      ((∀ output e, e < size*batch_size → ArithSharing shares3pc k (outX output) e (valueX e)) ↔
        batch_size = 1 ∨ size = 0)) ∧
    (∀ output, (∀ e, e < size*batch_size →
        ArithSharing shares3pc k (outDataX output) e (valueDataX e)) ↔
        ∀ e, size ≤ e → e < size*batch_size → ArithSharing shares3pc k output e (valueDataX e)) ∧
      ((∀ output e, e < size*batch_size →
        ArithSharing shares3pc k (outDataX output) e (valueDataX e)) ↔
        batch_size = 1 ∨ size = 0) := by
  intro valueX valueDataX outX outDataX
  rw [← batch_le_iff hb]
  have hbatch := splitBatch_eq (L := L) (k := k) 2 size batch_size fun i =>
    lastShare (Overload.lint.read L) k (inputDataX i)
  rw [Nat.mul_comm] at hbatch
  exact ⟨⟨copyShares_isSharing hk _ rfl,copyShares_covers hk₀ hk _ rfl⟩,
    copyShares_isSharing hk (fun e => inputDataX (e%size)) hbatch,
    copyShares_covers hk₀ hk (fun e => inputDataX (e%size)) hbatch⟩

end

theorem splitX_isSharing_iff_three : ¬ ∃ _ : AesNi, ¬
    ((∀ (output : Shares 3 (Lint 4)) e, e < 3*1 → ArithSharing shares3pc 20
      (fun p => splitX p (output p) (fun i => BitVec.ofNat 64 i) 3 1 2 20) e
      (BitVec.ofInt 20 ((Overload.longLong.read 4).toInt (BitVec.ofNat 64 (2*3*1 + e))))) ∧
    ¬ ∀ (output : Shares 3 (Lint 4)) e, e < 3*2 → ArithSharing shares3pc 20
      (fun p => splitX p (output p) (fun i => BitVec.ofNat 64 i) 3 2 2 20) e
      (BitVec.ofInt 20 ((Overload.longLong.read 4).toInt (BitVec.ofNat 64 (2*3*2 + e))))) := by
  rintro ⟨_,h⟩
  have hsplit := fun b (hb : 1 ≤ b) => (splitX_isSharing_iff (L := 4) (k := 20) (by decide)
    (by decide) 3 2 hb (fun i => BitVec.ofNat 64 i) fun _ => 0).1.2
  exact h ⟨(hsplit 1 le_rfl).mpr (by decide),
    fun hall => absurd ((hsplit 2 (by decide)).mp hall) (by decide)⟩

/-- The images 3 and 5 of one element, over cleared arrays: nobody sees the 5. -/
theorem splitX_second_image : ¬ ∃ _ : AesNi, ¬
    (ArithSharing shares3pc 20 (fun p => splitX (L := 4) p (fun _ _ => 0)
      (fun i => if i = 0 then 3 else 5) 1 2 0 20) 1 0 ∧
    ¬ ArithSharing shares3pc 20 (fun p => splitX (L := 4) p (fun _ _ => 0)
      (fun i => if i = 0 then 3 else 5) 1 2 0 20) 1 5 ∧
    ¬ ArithSharing shares3pc 20 (fun p => splitDataX (L := 4) p (fun _ _ => 0)
      (fun _ => 5) 1 2 20) 1 5) := by
  rintro ⟨_,h⟩
  have hzero : ∀ shares : Nat → Nat → Lint 4, ArithSharing shares3pc 20
      (fun p => copyShares 1 shares p fun _ _ => 0) 1 0 := fun shares =>
    Pattern.isSharing_zero.congr fun p s _ => by simp
  exact h ⟨hzero _,fun hfive => absurd ((hzero _).unique hfive) (by decide),
    fun hfive => absurd ((hzero _).unique hfive) (by decide)⟩

end RssRing
