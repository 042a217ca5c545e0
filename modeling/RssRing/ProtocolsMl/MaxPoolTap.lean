import RssRing.ProtocolsComposite.LTTap
import RssRing.ProtocolsMl.MaxPool
set_option autoImplicit false

namespace RssRing
open Replicated Coupling

variable {L k : Nat} {p : Fin 3} {net net' : Net 3 (Tap L)}

structure SharedAlike (p : Fin 3) (k N : Nat) (a a' : Shares 3 (Lint L)) : Prop where
  alike : AlikeAt p 2 N a a'
  left : ∀ t, t < N → ∃ v, ArithSharing shares3pc k a t v
  right : ∀ t, t < N → ∃ v, ArithSharing shares3pc k a' t v

theorem SharedAlike.copies {N M : Nat} {a a' : Shares 3 (Lint L)} (h : SharedAlike p k N a a')
    {source : Nat → Nat} (hread : ∀ x, x < M → source x < N) (cleared : PartyShares L) :
    SharedAlike p k M
      (fun q => copyEntries 2 ((List.range M).map fun x => (x,some (source x))) cleared (a q))
      fun q => copyEntries 2 ((List.range M).map fun x => (x,some (source x))) cleared (a' q) := by
  constructor
  · intro s hs x hx
    refine (copyEntries_range hs).trans (Eq.trans ?_ (copyEntries_range hs).symm)
    rw [if_pos hx,if_pos hx]
    exact h.alike s hs _ (hread x hx)
  · intro x hx
    obtain ⟨v,hv⟩ := h.left _ (hread x hx)
    exact ⟨v,PoolSizes.copyEntries_isSharing (Nat.le_refl 2) hx rfl hv cleared⟩
  · intro x hx
    obtain ⟨v,hv⟩ := h.right _ (hread x hx)
    exact ⟨v,PoolSizes.copyEntries_isSharing (Nat.le_refl 2) hx rfl hv cleared⟩

theorem maximumOf_silence (u : Uncleared 3 L) (c res a b : Shares 3 (Lint L)) (size : Nat)
    (net : Net 3 (Tap L)) :
    (comparisons3pc u c).maximumOf.newRssLT res a b size k (Tap.silence net) =
      (((comparisonsTapped u c).maximumOf.newRssLT res a b size k net).1,
        Tap.silence ((comparisonsTapped u c).maximumOf.newRssLT res a b size k net).2) := by
  simp only [Comparisons.maximumOf,Comparisons.newRssLT,select_silence]

theorem maximumOf_coupled {size : Nat} (hk : 2 ≤ k) (hkL : k + 2 ≤ 8*L) (hpacked : Packed L k size)
    (p : Fin 3) (scratch : Shares 3 (Lint L)) : ∃ N, ∀ (u u' u_2 u_2' c c' res res' a a' b b' :
      Shares 3 (Lint L)) (net net' : Net 3 (Tap L)), AlikeAt p 2 size u u' → AlikeAt p 2 size u_2 u_2' →
      AlikeAt p 2 size c c' → SharedAlike p k size a a' → SharedAlike p k size b b' →
      net p = net' p → Tap.Sound p net → Tap.Sound p net' → Coupled (overlay p) N
        (fun ω => (comparisonsTapped ⟨scratch,u,u_2⟩ c).maximumOf.newRssLT res a b size k
          (Tap.withHidden p net ω))
        (fun ω => (comparisonsTapped ⟨scratch,u',u_2'⟩ c').maximumOf.newRssLT res' a' b' size k
          (Tap.withHidden p net' ω)) (Matched p (SharedAlike p k size)) := by
  obtain ⟨N,hcoupled⟩ := newRssLT_coupled hk hkL hpacked p scratch 0 1 2
  refine ⟨N,fun u u' u_2 u_2' c c' res res' a a' b b' net net' hu hu_2 hc ha hb hnet hs hs' => ?_⟩
  have hmem : ∀ x, x = 1 ∨ x = 2 →
      SharedAlike p k size (callMemory res a b x) (callMemory res' a' b' x) := by
    rintro x (rfl | rfl)
    · exact ha
    · exact hb
  exact coupled_arrays (Q := Matched p (SharedAlike p k size)) (fun x => x 0) (fun x => x 0) (hcoupled u u' u_2 u_2' c c' (callMemory res a b)
    (callMemory res' a' b') net net' hu hu_2 hc (fun x hx => (hmem x hx).alike)
    (fun x hx => (hmem x hx).left) (fun x hx => (hmem x hx).right) hnet hs hs') fun x y hxy =>
      ⟨⟨hxy.arrays.1,hxy.arrays.2.1,hxy.arrays.2.2⟩,hxy.own,hxy.left,hxy.right⟩

namespace PoolSizes
variable {d : PoolSizes}

theorem pairs_read (hm : 2 ∣ d.m) (hn : 2 ∣ d.n) {offset : Nat} (hoffset : offset < 2) :
    ∀ x, x < d.batch_size*(2*d.imageDim) → 2*x + offset < d.batch_size*(d.c*d.m*d.n) := by
  intro x hx
  have htotal : d.batch_size*(d.c*d.m*d.n) = 2*(d.batch_size*(2*d.imageDim)) := by
    rw [elements_eq hm hn]
    ring
  omega

theorem windows_read (hn : 2 ∣ d.n) {offset : Nat} (hoffset : offset ≤ d.n/2) :
    ∀ x, x < d.batch_size*d.imageDim → 2*(x/d.imageDim)*d.imageDim + x%d.imageDim%(d.n/2) + offset +
      x%d.imageDim/(d.n/2)*d.n < d.batch_size*(2*d.imageDim) := by
  intro x hx
  obtain ⟨b,f,i,j,h,rfl⟩ := exists_outputPlace hx
  have hlt := tempPlace_lt hn h
  have hcomm := Nat.mul_comm (2*d.imageDim) d.batch_size
  rw [windowSource_eq h]
  omega

def pairs (d : PoolSizes) (offset : Nat) (a : Shares 3 (Lint L)) : Shares 3 (Lint L) := fun p =>
  copyEntries 2 (pairEntries (2*d.imageDim) d.batch_size offset) (fun _ _ => 0) (a p)

def rows (d : PoolSizes) (offset : Nat) (temp : Shares 3 (Lint L)) : Shares 3 (Lint L) := fun p =>
  copyEntries 2 (windowEntries d.c d.m d.n d.imageDim d.batch_size offset) (fun _ _ => 0) (temp p)

theorem pairs_alike {a a' : Shares 3 (Lint L)} (hm : 2 ∣ d.m) (hn : 2 ∣ d.n) {offset : Nat}
    (hoffset : offset < 2) (ha : SharedAlike p k (d.batch_size*(d.c*d.m*d.n)) a a') :
    SharedAlike p k (2*d.imageDim*d.batch_size) (d.pairs offset a) (d.pairs offset a') := by
  unfold pairs
  rw [pairEntries_eq,Nat.mul_comm (2*d.imageDim)]
  exact ha.copies (pairs_read hm hn hoffset) _

theorem rows_alike {x x' : Shares 3 (Lint L)} (hm : 2 ∣ d.m) (hn : 2 ∣ d.n) {offset : Nat}
    (hoffset : offset ≤ d.n/2) (hx : SharedAlike p k (2*d.imageDim*d.batch_size) x x') :
    SharedAlike p k (d.imageDim*d.batch_size) (d.rows offset x) (d.rows offset x') := by
  unfold rows
  rw [windowEntries_eq hm,Nat.mul_comm d.imageDim]
  rw [Nat.mul_comm (2*d.imageDim)] at hx
  exact hx.copies (windows_read hn hoffset) _

def poolRows (M : Maximum 3 L (Tap L)) (d : PoolSizes) (ring_size : Nat) (res : Shares 3 (Lint L))
    (temp : Shares 3 (Lint L) × Net 3 (Tap L)) : Shares 3 (Lint L) × Net 3 (Tap L) :=
  M.newRssLT res (d.rows 0 temp.1) (d.rows (d.m/2) temp.1) (d.imageDim*d.batch_size) ring_size temp.2

theorem edaMaxPool_eq (M : Maximum 3 L (Tap L)) (hm : 2 ∣ d.m) (hn : 2 ∣ d.n)
    (res a : Shares 3 (Lint L)) (net : Net 3 (Tap L)) :
    M.edaMaxPool res a d.c d.m d.n d.batch_size k net = poolRows M d k res (M.newRssLT (fun _ _ _ => 0)
      (d.pairs 0 a) (d.pairs 1 a) (2*d.imageDim*d.batch_size) k net) := by
  have hhalf : 2*d.imageDim/2 = d.imageDim := Nat.mul_div_cancel_left _ Nat.two_pos
  simp only [Maximum.edaMaxPool,Maximum.maxPool,size_eq hm hn,hhalf]
  rfl

theorem poolRows_coupled (hm : 2 ∣ d.m) (hn : 2 ∣ d.n) (hmn : d.m ≤ d.n) (hk : 2 ≤ k)
    (hkL : k + 2 ≤ 8*L) (hpacked : Packed L k (d.imageDim*d.batch_size)) (p : Fin 3)
    (scratch : Shares 3 (Lint L)) : ∃ N, ∀ (u u' u_2 u_2' c c' res res' : Shares 3 (Lint L)) x x',
      AlikeAt p 2 (d.imageDim*d.batch_size) u u' → AlikeAt p 2 (d.imageDim*d.batch_size) u_2 u_2' →
      AlikeAt p 2 (d.imageDim*d.batch_size) c c' →
      Matched p (SharedAlike p k (2*d.imageDim*d.batch_size)) x x' → Coupled (overlay p) N
        (fun ω => poolRows (comparisonsTapped ⟨scratch,u,u_2⟩ c).maximumOf d k res (overlay p x ω))
        (fun ω => poolRows (comparisonsTapped ⟨scratch,u',u_2'⟩ c').maximumOf d k res' (overlay p x' ω))
        (Matched p (SharedAlike p k (d.imageDim*d.batch_size))) := by
  obtain ⟨N,hcoupled⟩ := maximumOf_coupled hk hkL hpacked p scratch
  refine ⟨N,fun u u' u_2 u_2' c c' res res' x x' hu hu_2 hc hx => ?_⟩
  exact hcoupled u u' u_2 u_2' c c' res res' (d.rows 0 x.1) (d.rows 0 x'.1) (d.rows (d.m/2) x.1)
    (d.rows (d.m/2) x'.1) x.2 x'.2 hu hu_2 hc (rows_alike hm hn (Nat.zero_le _) hx.arrays)
    (rows_alike hm hn (Nat.div_le_div_right hmn) hx.arrays) hx.own hx.left hx.right

theorem edaMaxPool_silence (u : Uncleared 3 L) (c res a : Shares 3 (Lint L)) (net : Net 3 (Tap L)) :
    (comparisons3pc u c).maximumOf.edaMaxPool res a d.c d.m d.n d.batch_size k (Tap.silence net) =
      (((comparisonsTapped u c).maximumOf.edaMaxPool res a d.c d.m d.n d.batch_size k net).1,
        Tap.silence
          ((comparisonsTapped u c).maximumOf.edaMaxPool res a d.c d.m d.n d.batch_size k net).2) := by
  simp only [Maximum.edaMaxPool,Maximum.maxPool,maximumOf_silence]

/-- A run of `eda_MaxPool` is that of the code with a note of all messages, and shows a party
nothing of the images: for any two batches of shared images that it cannot tell apart, hidden
streams that are permutations of each other give runs that look the same to it. -/
theorem edaMaxPool_views (hm : 2 ∣ d.m) (hn : 2 ∣ d.n) (hmn : d.m ≤ d.n) (hk : 2 ≤ k)
    (hkL : k + 2 ≤ 8*L) (hpacked : Packed L k (2*d.imageDim*d.batch_size)) (p : Fin 3)
    (scratch u u' u_2 u_2' c c' res res' a a' : Shares 3 (Lint L))
    (hu : AlikeAt p 2 (2*d.imageDim*d.batch_size) u u')
    (hu_2 : AlikeAt p 2 (2*d.imageDim*d.batch_size) u_2 u_2')
    (hc : AlikeAt p 2 (2*d.imageDim*d.batch_size) c c')
    (ha : SharedAlike p k (d.batch_size*(d.c*d.m*d.n)) a a') (net net' : Net 3 (Tap L))
    (hnet : net p = net' p) (hs : Tap.Sound p net) (hs' : Tap.Sound p net') :
    let M := (comparisonsTapped ⟨scratch,u,u_2⟩ c).maximumOf
    let M' := (comparisonsTapped ⟨scratch,u',u_2'⟩ c').maximumOf
    (comparisons3pc ⟨scratch,u,u_2⟩ c).maximumOf.edaMaxPool res a d.c d.m d.n d.batch_size k
        (Tap.silence net) = ((M.edaMaxPool res a d.c d.m d.n d.batch_size k net).1,
          Tap.silence (M.edaMaxPool res a d.c d.m d.n d.batch_size k net).2) ∧
    ∃ φ : (Hidden → Nat → Byte) ≃ (Hidden → Nat → Byte), ∀ ω,
      SeenAlike p 2 (d.imageDim*d.batch_size)
        (M.edaMaxPool res a d.c d.m d.n d.batch_size k (Tap.withHidden p net ω))
        (M'.edaMaxPool res' a' d.c d.m d.n d.batch_size k (Tap.withHidden p net' (φ ω))) := by
  intro M M'
  refine ⟨edaMaxPool_silence _ _ _ _ _,?_⟩
  have hcells : d.imageDim*d.batch_size ≤ 2*d.imageDim*d.batch_size :=
    Nat.mul_le_mul_right _ (by omega)
  have hpacked' : Packed L k (d.imageDim*d.batch_size) :=
    hpacked.imp_right fun h => hcells.trans h
  obtain ⟨N,hfirst⟩ := maximumOf_coupled hk hkL hpacked p scratch
  obtain ⟨N',hsecond⟩ := poolRows_coupled hm hn hmn hk hkL hpacked' p scratch
  have hless : ∀ x y : Shares 3 (Lint L), AlikeAt p 2 (2*d.imageDim*d.batch_size) x y →
      AlikeAt p 2 (d.imageDim*d.batch_size) x y := fun x y h s hs i hi =>
    h s hs i (Nat.lt_of_lt_of_le hi hcells)
  have hpairs := hfirst u u' u_2 u_2' c c' (fun _ _ _ => 0) (fun _ _ _ => 0) (d.pairs 0 a) (d.pairs 0 a')
    (d.pairs 1 a) (d.pairs 1 a') net net' hu hu_2 hc (pairs_alike hm hn (by decide) ha)
    (pairs_alike hm hn (by decide) ha) hnet hs hs'
  have hpool := hpairs.bind (overlay p) (poolRows M d k res) (poolRows M' d k res') fun x x' hx =>
    hsecond u u' u_2 u_2' c c' res res' x x' (hless u u' hu) (hless u_2 u_2' hu_2) (hless c c' hc) hx
  have hseen := hpool.mono (R := SeenAlike p 2 (d.imageDim*d.batch_size)) fun x y hxy =>
    ⟨hxy.arrays.alike,hxy.own⟩
  simp only [edaMaxPool_eq _ hm hn]
  exact views_of_coupled hseen

theorem edaMaxPool_views_five :
    let net : Net 3 (Tap 4) := fun _ _ => ⟨fun i => BitVec.ofNat 8 (3*i+1),[]⟩
    let blank : Shares 3 (Lint 4) := fun _ _ _ => 0
    let five : Shares 3 (Lint 4) := fun q s _ => if shares3pc.hold q s = {0} then 5 else 0
    let M := (comparisonsTapped ⟨blank,blank,blank⟩ blank).maximumOf
    ∃ φ : (Hidden → Nat → Byte) ≃ (Hidden → Nat → Byte), ∀ ω, SeenAlike 0 2 1
      (M.edaMaxPool blank blank 1 2 2 1 30 (Tap.withHidden 0 net ω))
      (M.edaMaxPool blank five 1 2 2 1 30 (Tap.withHidden 0 net (φ ω))) := by
  intro net blank five M
  have hsame : ∀ N, AlikeAt 0 2 N blank blank := fun _ _ _ _ _ => rfl
  have himages : SharedAlike 0 30 4 blank five :=
    ⟨alikeAt_hidden 0 4 5,fun _ _ => ⟨0,Pattern.isSharing_zero⟩,fun t _ => exists_hidden 30 0 5 t⟩
  have hsound := Tap.Sound.of_same (L := 4) 0 fun i => BitVec.ofNat 8 (3*i+1)
  exact (edaMaxPool_views (d := ⟨1,2,2,1⟩) (by decide) (by decide) (by decide) (by decide) (by decide)
    (.inl (by decide)) 0 blank blank blank blank blank blank blank blank blank blank five (hsame _)
    (hsame _) (hsame _) himages net net rfl hsound hsound).2

end PoolSizes

end RssRing
