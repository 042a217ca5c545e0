import RssRing.ProtocolsBasic.DwMatMult
import RssRing.ProtocolsMl.NnLayers
set_option autoImplicit false

namespace RssRing
open Replicated

variable {L k : Nat} {G : Type}

/-- What an iteration of `q_mobilenet` does, one call after the other. -/
inductive LayerCall where
  | start (input_dim : Nat)
  | conv2dFirst (kernel out_channels stride : Nat)
  | dwPwConv2d (out_channels stride : Nat)
  | avgPoolTrunc
  | conv2dFinalLayer (kernel out_channels stride : Nat)
  | edaArgMaxTime (size : Nat)

/-- The calls of one iteration. `channels c` is `alpha_param * c` as a `uint`. -/
def iteration (channels : Nat → Nat) (input_dim : Nat) : List LayerCall :=
  [.start input_dim,.conv2dFirst 3 (channels 32) 2] ++
  ([(64,1),(128,2),(128,1),(256,2),(256,1),(512,2),(512,1),(512,1),(512,1),(512,1),(512,1),
    (1024,2),(1024,1)].map fun layer => .dwPwConv2d (channels layer.1) layer.2) ++
  [.avgPoolTrunc,.conv2dFinalLayer 1 1001 1,.edaArgMaxTime 1001]

def qMobilenet (channels : Nat → Nat) (input_dim num_iterations : Nat) : List LayerCall :=
  (List.replicate num_iterations (iteration channels input_dim)).flatten

theorem qMobilenet_succ (channels : Nat → Nat) (input_dim m : Nat) :
    qMobilenet channels input_dim (m+1) =
      iteration channels input_dim ++ qMobilenet channels input_dim m := by
  rw [qMobilenet,qMobilenet,List.replicate_succ,List.flatten_cons]

namespace LayerCall

def shape : LayerCall → Shape → Shape
  | start input_dim, _ => ⟨input_dim,3,0⟩
  | conv2dFirst _ out_channels stride, d => ⟨d.n/stride,out_channels,d.layer_id+1⟩
  | dwPwConv2d out_channels stride, d => ⟨d.n/stride,out_channels,d.layer_id+1+1⟩
  | avgPoolTrunc, d => ⟨d.n/d.n,d.in_channels,d.layer_id⟩
  | conv2dFinalLayer _ out_channels stride, d => ⟨d.n/stride,out_channels,d.layer_id+1⟩
  | edaArgMaxTime _, d => d

/-- The layers whose zero point a call takes away from weights, and from how many. -/
def adjusted : LayerCall → Shape → List (Nat × Nat)
  | conv2dFirst kernel out_channels _, d =>
    [(d.layer_id,kernel*kernel*d.in_channels*out_channels)]
  | dwPwConv2d out_channels _, d =>
    [(d.layer_id,3*3*d.in_channels),(d.layer_id+1,1*1*d.in_channels*out_channels)]
  | conv2dFinalLayer kernel out_channels _, d =>
    [(d.layer_id,kernel*kernel*d.in_channels*out_channels)]
  | _, _ => []

/-- What a call needs in order to come back. Nothing is divided by zero, `layer_id - 1` is a
layer, the writes to the arrays that the call allocates are to places that they have, each exchange
has something to send, and the truncation has an entry of `SHIFT` for its mask. The arrays that the
caller allocates are long enough. -/
def Returns (nn : Network L) : LayerCall → Shape → Prop
  | start _, _ => True
  | conv2dFirst kernel out_channels stride, d =>
    0 < stride ∧ PatchesFit nn kernel stride d ∧ 0 < convSize nn out_channels stride d ∧
      nn.public_M < nn.ring_size
  | dwPwConv2d out_channels stride, d =>
    0 < d.layer_id ∧ 0 < stride ∧
      (dwTerms3pc d.n d.n d.in_channels 3 nn.batch_size stride).length ≤
        dwOutputDim d.n d.n d.in_channels nn.batch_size stride ∧
      0 < convSize nn d.in_channels stride d ∧ 0 < convSize nn out_channels stride d ∧
      nn.public_M < nn.ring_size
  | avgPoolTrunc, d =>
    0 < d.layer_id ∧ 0 < d.n ∧ 0 < d.in_channels*nn.batch_size ∧ Nat.log2 (d.n*d.n) < nn.ring_size
  | conv2dFinalLayer kernel out_channels stride, d =>
    0 < d.layer_id ∧ 0 < stride ∧ PatchesFit nn kernel stride d ∧
      0 < convSize nn out_channels stride d ∧ nn.public_M < nn.ring_size
  | edaArgMaxTime size, _ => 0 < size ∧ (size = 1 ∨ 0 < nn.batch_size)

instance (nn : Network L) (call : LayerCall) (d : Shape) : Decidable (call.Returns nn d) :=
  match call with
  | start _ => inferInstanceAs (Decidable True)
  | conv2dFirst _ _ _ => inferInstanceAs (Decidable (_ ∧ (∀ e ∈ _, _) ∧ _))
  | dwPwConv2d _ _ => inferInstanceAs (Decidable (_ ∧ _))
  | avgPoolTrunc => inferInstanceAs (Decidable (_ ∧ _))
  | conv2dFinalLayer _ _ _ => inferInstanceAs (Decidable (_ ∧ _ ∧ (∀ e ∈ _, _) ∧ _))
  | edaArgMaxTime _ => inferInstanceAs (Decidable (_ ∧ _))

theorem dwTerms_fit_iff {nn : Network L} {stride : Nat} {d : Shape}
    (hsize : 0 < convSize nn d.in_channels stride d) :
    (dwTerms3pc d.n d.n d.in_channels 3 nn.batch_size stride).length ≤
      dwOutputDim d.n d.n d.in_channels nn.batch_size stride ↔ 9 ≤ d.in_channels := by
  let windows := nn.batch_size*(d.n/stride)*(d.n/stride)
  have hlength : (dwTerms3pc d.n d.n d.in_channels 3 nn.batch_size stride).length = windows*9 := by
    refine (DwSizes.length_terms3pc
      (d := ⟨d.n,d.n,d.in_channels,3,nn.batch_size,stride⟩)).trans ?_
    simp only [windows]
    ring
  have hdim : dwOutputDim d.n d.n d.in_channels nn.batch_size stride = windows*d.in_channels := by
    simp only [dwOutputDim,windows]
    ring
  have hsplit : convSize nn d.in_channels stride d = windows*d.in_channels := by
    simp only [convSize,windows]
    ring
  rw [hsplit] at hsize
  rw [hlength,hdim]
  exact Nat.mul_le_mul_left_iff (Nat.pos_of_mul_pos_right hsize)

/-- The same in numbers, for strides that divide the side of the image. -/
def Fits (nn : Network L) : LayerCall → Shape → Prop
  | conv2dFirst _ out_channels stride, d =>
    0 < stride ∧ stride ∣ d.n ∧ 0 < convSize nn out_channels stride d ∧ nn.public_M < nn.ring_size
  | dwPwConv2d out_channels stride, d =>
    0 < d.layer_id ∧ 0 < stride ∧ 9 ≤ d.in_channels ∧ 0 < convSize nn d.in_channels stride d ∧
      0 < convSize nn out_channels stride d ∧ nn.public_M < nn.ring_size
  | conv2dFinalLayer _ out_channels stride, d =>
    0 < d.layer_id ∧ 0 < stride ∧ stride ∣ d.n ∧ 0 < convSize nn out_channels stride d ∧
      nn.public_M < nn.ring_size
  | call, d => call.Returns nn d

instance (nn : Network L) (call : LayerCall) (d : Shape) : Decidable (call.Fits nn d) :=
  match call with
  | conv2dFirst _ _ _ => inferInstanceAs (Decidable (_ ∧ _))
  | dwPwConv2d _ _ => inferInstanceAs (Decidable (_ ∧ _))
  | conv2dFinalLayer _ _ _ => inferInstanceAs (Decidable (_ ∧ _))
  | start input_dim => inferInstanceAs (Decidable ((start input_dim).Returns nn d))
  | avgPoolTrunc => inferInstanceAs (Decidable (avgPoolTrunc.Returns nn d))
  | edaArgMaxTime size => inferInstanceAs (Decidable ((edaArgMaxTime size).Returns nn d))

variable [Generator G] (A : Activations L G) (nn : Network L)

def effect : LayerCall → Inference L G → Inference L G
  | start input_dim, st => { st with shape := ⟨input_dim,3,0⟩ }
  | conv2dFirst kernel out_channels stride, st => rssConv2dFirst A nn kernel out_channels stride st
  | dwPwConv2d out_channels stride, st => rssDwPwConv2d A nn out_channels stride st
  | avgPoolTrunc, st => rssAvgPoolTrunc A nn st
  | conv2dFinalLayer kernel out_channels stride, st =>
    rssConv2dFinalLayer A nn kernel out_channels stride st
  | edaArgMaxTime size, st =>
    let (final,net) := A.edaArgMaxTime st.final_x st.final_x_ind (st.x st.shape.layer_id)
      nn.ring_size size nn.batch_size st.net
    { st with final_x := final.1, final_x_ind := final.2, net := net }

def step (call : LayerCall) (st : Inference L G) : Option (Inference L G) :=
  if call.Returns nn st.shape then some (call.effect A nn st) else none

end LayerCall

def Along (P : LayerCall → Shape → Prop) : List LayerCall → Shape → Prop
  | [], _ => True
  | call::calls, d => P call d ∧ Along P calls (call.shape d)

theorem Along.mono {P Q : LayerCall → Shape → Prop} (h : ∀ call d, P call d → Q call d)
    {calls : List LayerCall} {d : Shape} (hP : Along P calls d) : Along Q calls d := by
  induction calls generalizing d with
  | nil => trivial
  | cons call calls ih => exact ⟨h call d hP.1,ih hP.2⟩

instance instDecidableAlong (P : LayerCall → Shape → Prop) [∀ call d, Decidable (P call d)] :
    (calls : List LayerCall) → (d : Shape) → Decidable (Along P calls d)
  | [], _ => inferInstanceAs (Decidable True)
  | call::calls, d =>
    have := instDecidableAlong P calls (call.shape d)
    inferInstanceAs (Decidable (P call d ∧ Along P calls (call.shape d)))

def hits (adjusted : List (Nat × Nat)) (l i : Nat) : Nat :=
  adjusted.countP fun t => t.1 = l ∧ i < t.2

section Runs
variable [Generator G] (A : Activations L G) (nn : Network L)

def runCalls : List LayerCall → Inference L G → Option (Inference L G)
  | [], st => some st
  | call::calls, st => (call.step A nn st).bind (runCalls calls)

def adjustedIn : List LayerCall → Shape → List (Nat × Nat)
  | [], _ => []
  | call::calls, d => call.adjusted d ++ adjustedIn calls (call.shape d)

variable {A nn}

theorem effect_shape (call : LayerCall) (st : Inference L G) :
    (call.effect A nn st).shape = call.shape st.shape := by
  cases call <;> rfl

theorem step_eq_some {call : LayerCall} {st st' : Inference L G} :
    call.step A nn st = some st' ↔ call.Returns nn st.shape ∧ call.effect A nn st = st' := by
  rw [LayerCall.step]
  by_cases h : call.Returns nn st.shape <;> simp [h]

theorem hits_append (adjusted adjusted' : List (Nat × Nat)) (l i : Nat) :
    hits (adjusted ++ adjusted') l i = hits adjusted l i + hits adjusted' l i :=
  List.countP_append

theorem hits_singleton (layer count l i : Nat) :
    hits [(layer,count)] l i = if layer = l ∧ i < count then 1 else 0 := by
  simp [hits,List.countP_cons]

theorem update_subZp (W : Nat → Shares 3 (Lint L)) (layer count l : Nat) (p : Fin 3) {s : Nat}
    (hs : s < 2) (i : Nat) :
    Function.update W layer (fun p => subZp 2 (W layer p) (W layer p) (nn.weights_zp p) count 1
      layer) l p s i = W l p s i - hits [(layer,count)] l i • nn.weights_zp p s l := by
  rw [hits_singleton]
  by_cases hl : layer = l
  · subst hl
    rw [Function.update_self,subZp,mapIndexed,Nat.mul_one]
    by_cases hi : i < count <;> simp [hs,hi]
  · rw [Function.update_of_ne (Ne.symm hl),if_neg (fun h => hl h.1),zero_smul,sub_zero]

theorem effect_W (call : LayerCall) (st : Inference L G) (l : Nat) (p : Fin 3) {s : Nat}
    (hs : s < 2) (i : Nat) : (call.effect A nn st).W l p s i =
      st.W l p s i - hits (call.adjusted st.shape) l i • nn.weights_zp p s l := by
  cases call with
  | start input_dim => exact (sub_eq_self.mpr (zero_smul ..)).symm
  | conv2dFirst kernel out_channels stride => exact update_subZp st.W _ _ l p hs i
  | dwPwConv2d out_channels stride =>
    refine (update_subZp (rssDwConv2d A nn stride st).W _ _ l p hs i).trans ?_
    rw [show (rssDwConv2d A nn stride st).W l p s i = _ from update_subZp st.W _ _ l p hs i,
      sub_sub,← add_smul,← hits_append]
    rfl
  | avgPoolTrunc => exact (sub_eq_self.mpr (zero_smul ..)).symm
  | conv2dFinalLayer kernel out_channels stride => exact update_subZp st.W _ _ l p hs i
  | edaArgMaxTime size => exact (sub_eq_self.mpr (zero_smul ..)).symm

theorem adjustedIn_append (calls calls' : List LayerCall) (d : Shape) :
    ∃ d', adjustedIn (calls ++ calls') d = adjustedIn calls d ++ adjustedIn calls' d' := by
  induction calls generalizing d with
  | nil => exact ⟨d,rfl⟩
  | cons call calls ih =>
    obtain ⟨d',hd'⟩ := ih (call.shape d)
    exact ⟨d',by rw [List.cons_append,adjustedIn,hd',adjustedIn,List.append_assoc]⟩

theorem runCalls_returns {calls : List LayerCall} {st st' : Inference L G}
    (hrun : runCalls A nn calls st = some st') :
    Along (LayerCall.Returns nn) calls st.shape := by
  induction calls generalizing st with
  | nil => trivial
  | cons call calls ih =>
    obtain ⟨st₁,hstep,hrun⟩ := Option.bind_eq_some_iff.mp hrun
    obtain ⟨hreturns,rfl⟩ := step_eq_some.mp hstep
    have hrest := ih hrun
    rw [effect_shape] at hrest
    exact ⟨hreturns,hrest⟩

/-- The widths for which the first layer has fewer than nine channels: eight for `alpha_param` a
quarter. -/
theorem qMobilenet_narrow {channels : Nat → Nat} (hchannels : channels 32 < 9) (input_dim : Nat)
    {num_iterations : Nat} (hpos : 0 < num_iterations) (st : Inference L G) :
    runCalls A nn (qMobilenet channels input_dim num_iterations) st = none := by
  obtain ⟨m,rfl⟩ := Nat.exists_eq_succ_of_ne_zero hpos.ne'
  refine Option.eq_none_iff_forall_ne_some.mpr fun st' hrun => ?_
  have hreturns := runCalls_returns hrun
  rw [Nat.succ_eq_add_one,qMobilenet_succ] at hreturns
  obtain ⟨-,-,⟨-,-,hfit,hsize,-⟩,-⟩ := hreturns
  exact absurd ((LayerCall.dwTerms_fit_iff hsize).mp hfit) (Nat.not_le.mpr hchannels)

section Weights
variable {z : Nat → BitVec k} (hk : k ≤ 8*L)
  (hz : ∀ l, ArithSharing shares3pc k nn.weights_zp l (z l))
include hk hz

theorem effect_weights (call : LayerCall) {st : Inference L G} {l i : Nat} {v : BitVec k}
    (hv : ArithSharing shares3pc k (st.W l) i v) :
    ArithSharing shares3pc k ((call.effect A nn st).W l) i
      (v - hits (call.adjusted st.shape) l i • z l) := by
  have hzero := (hz l).map (nsmulAddMonoidHom (hits (call.adjusted st.shape) l i))
  refine (hv.sub hzero).congr fun p s hs => ?_
  rw [effect_W call st l p hs i,← lowBits_apply hk,map_sub,map_nsmul]
  rfl

theorem runCalls_weights (calls : List LayerCall) {st st' : Inference L G} {l i : Nat}
    {v : BitVec k} (hrun : runCalls A nn calls st = some st')
    (hv : ArithSharing shares3pc k (st.W l) i v) :
    ArithSharing shares3pc k (st'.W l) i (v - hits (adjustedIn calls st.shape) l i • z l) := by
  induction calls generalizing st v with
  | nil =>
    obtain rfl : st = st' := Option.some.inj hrun
    simpa [adjustedIn,hits] using hv
  | cons call calls ih =>
    obtain ⟨st₁,hstep,hrun⟩ := Option.bind_eq_some_iff.mp hrun
    obtain ⟨-,rfl⟩ := step_eq_some.mp hstep
    have hrest := ih hrun (effect_weights (A := A) hk hz call hv)
    rwa [effect_shape,sub_sub,← add_smul,← hits_append] at hrest

/-- What an iteration computes with: every iteration before it has taken the zero points
away once more. -/
theorem qMobilenet_weights (channels : Nat → Nat) (input_dim num_iterations : Nat)
    {st st' : Inference L G} {l i : Nat} {v : BitVec k}
    (hrun : runCalls A nn (qMobilenet channels input_dim num_iterations) st = some st')
    (hv : ArithSharing shares3pc k (st.W l) i v) :
    let perIteration := hits (adjustedIn (iteration channels input_dim) st.shape) l i
    ArithSharing shares3pc k (st'.W l) i (v - (num_iterations*perIteration) • z l) := by
  intro perIteration
  have hweights := runCalls_weights (A := A) hk hz _ hrun hv
  have hhits : ∀ (m : Nat) (d : Shape),
      hits (adjustedIn (qMobilenet channels input_dim m) d) l i = m*perIteration := by
    intro m
    induction m with
    | zero => intro d; simp [qMobilenet,adjustedIn,hits]
    | succ m ih =>
      intro d
      obtain ⟨d',hd'⟩ := adjustedIn_append (iteration channels input_dim)
        (qMobilenet channels input_dim m) d
      have hshape : adjustedIn (iteration channels input_dim) d =
          adjustedIn (iteration channels input_dim) st.shape := rfl
      rw [qMobilenet_succ,hd',hits_append,ih,hshape,Nat.succ_mul,Nat.add_comm]
  rwa [hhits] at hweights

end Weights

end Runs

end RssRing
