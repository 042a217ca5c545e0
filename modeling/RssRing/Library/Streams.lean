import RssRing.Library.Channels
import Mathlib.Algebra.BigOperators.Group.Finset.Basic
import Mathlib.Algebra.Order.BigOperators.Group.Finset
import Mathlib.Data.Fintype.Prod
import Mathlib.Tactic.Ring
set_option autoImplicit false

namespace Streams
open Channels

/-- How messages `M` go into a stream of `B` and out of it, one call after another. `W` is what
a writer knows between two calls, and `R` what a reader does. -/
structure Wire (M B W R : Type) where
  opened : M → W
  pending : W → List B
  Writes : W → List B → W → Prop
  idle : R
  Reads : R → List B → R → Prop
  closed : R → Option M

/-- Calls write some of what is left of an encoded message, and take some of it, but nothing
of what comes after it. -/
structure Wire.Carries {M B W R : Type} (w : Wire M B W R) (Fits : M → Prop)
    (encode : M → List B) (held : R → List B) : Prop where
  opened : ∀ {m}, Fits m → w.pending (w.opened m) = encode m
  encode_ne : ∀ {m}, Fits m → encode m ≠ []
  can_write : ∀ {x}, w.pending x ≠ [] → ∃ bs x', w.Writes x bs x'
  idle : held w.idle = []
  reads : ∀ {r bs r'}, w.Reads r bs r' → held r' = held r ++ bs
  stays : ∀ {m r bs r' rest}, Fits m → w.Reads r bs r' → held r <+: encode m → held r ≠ encode m →
    held r ++ bs <+: encode m ++ rest → held r ++ bs <+: encode m
  can_read : ∀ {m r}, Fits m → held r <+: encode m → held r ≠ encode m →
    ∃ bs r', w.Reads r bs r' ∧ held r ++ bs <+: encode m
  closed : ∀ {m r}, Fits m → held r = encode m → w.closed r = some m
  unclosed : ∀ {m r}, Fits m → held r <+: encode m → held r ≠ encode m → w.closed r = none

structure Wire.Moves {M B W R : Type} (w : Wire M B W R) : Prop where
  writes : ∀ {x bs x'}, w.Writes x bs x' → bs ≠ [] ∧ w.pending x = bs ++ w.pending x'
  reads : ∀ {r bs r'}, w.Reads r bs r' → bs ≠ []

/-- `wire q p` is how `q` writes to `p`. The link that a party writes to and the one that it
reads from are what it has on record for its peer. -/
structure Links (P M B W R K : Type) where
  wire : P → P → Wire M B W R
  out : P → P → Option K
  into : P → P → Option K

structure State (P M S B W R K : Type) where
  rest : P → Program P M S
  writer : P → Option W
  reader : P → Option R
  stream : K → List B
  memory : P → S

variable {P M S B W R K : Type}

def start (prog : P → Program P M S) (mem : P → S) : State P M S B W R K :=
  ⟨prog,fun _ => none,fun _ => none,fun _ => [],mem⟩

def Finished (s : State P M S B W R K) : Prop := ∀ p, s.rest p = []

section
variable [DecidableEq P] [DecidableEq K] (net : Links P M B W R K)

/-- Any party may make its next call, in any order. A call that reads waits for something to
read. After the last call for a message its action is over. -/
inductive Step : State P M S B W R K → State P M S B W R K → Prop
  | write {s : State P M S B W R K} {p q : P} {b : Nat} {m : M} {l : Program P M S} {k : K}
      {bs : List B} {x : W} (hrest : s.rest p = (b,.send q m)::l) (hout : net.out p q = some k)
      (hcall : (net.wire p q).Writes ((s.writer p).getD ((net.wire p q).opened m)) bs x)
      (hmore : (net.wire p q).pending x ≠ []) :
      Step s ⟨s.rest,Function.update s.writer p (some x),s.reader,
        Function.update s.stream k (s.stream k ++ bs),s.memory⟩
  | writeLast {s : State P M S B W R K} {p q : P} {b : Nat} {m : M} {l : Program P M S} {k : K}
      {bs : List B} {x : W} (hrest : s.rest p = (b,.send q m)::l) (hout : net.out p q = some k)
      (hcall : (net.wire p q).Writes ((s.writer p).getD ((net.wire p q).opened m)) bs x)
      (hlast : (net.wire p q).pending x = []) :
      Step s ⟨Function.update s.rest p l,Function.update s.writer p none,s.reader,
        Function.update s.stream k (s.stream k ++ bs),s.memory⟩
  | read {s : State P M S B W R K} {p q : P} {b : Nat} {store : M → S → S} {l : Program P M S}
      {k : K} {bs tail : List B} {r : R} (hrest : s.rest p = (b,.recv q store)::l)
      (hinto : net.into p q = some k) (hstream : s.stream k = bs ++ tail)
      (hcall : (net.wire q p).Reads ((s.reader p).getD (net.wire q p).idle) bs r)
      (hmore : (net.wire q p).closed r = none) :
      Step s ⟨s.rest,s.writer,Function.update s.reader p (some r),
        Function.update s.stream k tail,s.memory⟩
  | readLast {s : State P M S B W R K} {p q : P} {b : Nat} {store : M → S → S}
      {l : Program P M S} {k : K} {bs tail : List B} {r : R} {m : M}
      (hrest : s.rest p = (b,.recv q store)::l) (hinto : net.into p q = some k)
      (hstream : s.stream k = bs ++ tail)
      (hcall : (net.wire q p).Reads ((s.reader p).getD (net.wire q p).idle) bs r)
      (hlast : (net.wire q p).closed r = some m) :
      Step s ⟨Function.update s.rest p l,s.writer,Function.update s.reader p none,
        Function.update s.stream k tail,Function.update s.memory p (store m (s.memory p))⟩

inductive Runs (prog : P → Program P M S) (mem : P → S) : Nat → State P M S B W R K → Prop
  | start : Runs prog mem 0 (start prog mem)
  | step {k : Nat} {s t : State P M S B W R K} (hrun : Runs prog mem k s) (hstep : Step net s t) :
      Runs prog mem (k+1) t

end

/-- Two parties have the same link on record for each direction, and no others have it. -/
structure Links.Joined (net : Links P M B W R K) : Prop where
  linked : ∀ {p q}, p ≠ q → ∃ k, net.out p q = some k ∧ net.into q p = some k
  apart : ∀ {p q p' q' k}, p ≠ q → p' ≠ q' → net.out p q = some k → net.out p' q' = some k →
    p' = p ∧ q' = q

def peer : Action P M S → P
  | .send q _ => q
  | .recv q _ => q

def sendHead : Program P M S → Option P
  | (_,.send q _)::_ => some q
  | _ => none

def recvHead : Program P M S → Option P
  | (_,.recv q _)::_ => some q
  | _ => none

theorem sendHead_eq_some {l : Program P M S} {q : P} (h : sendHead l = some q) :
    ∃ b m l', l = (b,.send q m)::l' := by
  match l with
  | [] => cases h
  | (b,.send q' m)::l' =>
    obtain rfl := Option.some.inj h
    exact ⟨b,m,l',rfl⟩
  | (_,.recv _ _)::_ => cases h

section
variable [DecidableEq P]

def put {A : Type} (f : P → P → A) (q p : P) (v : A) : P → P → A :=
  Function.update f q (Function.update (f q) p v)

@[simp] theorem put_self {A : Type} (f : P → P → A) (q p : P) (v : A) : put f q p v q p = v := by
  simp [put]

theorem put_of_ne {A : Type} (f : P → P → A) {q p a c : P} (v : A) (h : ¬ (a = q ∧ c = p)) :
    put f q p v a c = f a c := by
  by_cases ha : a = q
  · subst ha
    have hc : c ≠ p := fun hc => h ⟨rfl,hc⟩
    simp [put,hc]
  · simp [put,ha]

/-- The state of message channels behind a state of streams. `part q p` is what of a message
from `q` to `p` is written before all of it is, and `got q p` what of one is taken. -/
structure Refines (net : Links P M B W R K) (Fits : P → P → M → Prop) (encode : P → P → M → List B)
    (held : P → P → R → List B) (part got : P → P → List B) (a : Channels.State P M S)
    (s : State P M S B W R K) : Prop where
  rest : s.rest = a.rest
  memory : s.memory = a.memory
  apart : ∀ p x, x ∈ a.rest p → peer x.2 ≠ p
  fits : ∀ q p m, m ∈ a.incoming q p → Fits q p m
  writing : ∀ p q b m l, a.rest p = (b,.send q m)::l →
    encode p q m = part p q ++ (net.wire p q).pending ((s.writer p).getD ((net.wire p q).opened m)) ∧
    (net.wire p q).pending ((s.writer p).getD ((net.wire p q).opened m)) ≠ []
  part_nil : ∀ p q, sendHead (a.rest p) ≠ some q → part p q = []
  writer_none : ∀ p, sendHead (a.rest p) = none → s.writer p = none
  reading : ∀ p q, recvHead (a.rest p) = some q →
    held q p ((s.reader p).getD (net.wire q p).idle) = got q p
  got_nil : ∀ p q, recvHead (a.rest p) ≠ some q → got q p = []
  reader_none : ∀ p, recvHead (a.rest p) = none → s.reader p = none
  streams : ∀ q p k, q ≠ p → net.out q p = some k →
    got q p ++ s.stream k = (a.channel q p).flatMap (encode q p) ++ part q p
  ahead : ∀ q p m ms, a.incoming q p = m::ms → got q p <+: encode q p m ∧ got q p ≠ encode q p m

section
variable {net : Links P M B W R K} {Fits : P → P → M → Prop}
  {encode : P → P → M → List B} {held : P → P → R → List B} {part got : P → P → List B}
  {a : Channels.State P M S} {s : State P M S B W R K}
  (hnet : net.Joined) (hmoves : ∀ q p, (net.wire q p).Moves)
  (hwire : ∀ q p, (net.wire q p).Carries (Fits q p) (encode q p) (held q p))
  (h : Refines net Fits encode held part got a s)
include h

theorem Refines.head_apart {p : P} {x : Nat × Action P M S} {l : Program P M S}
    (hrest : a.rest p = x::l) : peer x.2 ≠ p :=
  h.apart p x (hrest ▸ List.mem_cons_self)

include hnet in
theorem Refines.stream_update [DecidableEq K] {p q : P} (hpq : p ≠ q) {k : K}
    (hout : net.out p q = some k) {v : List B} {part' got' : P → P → List B}
    {channel' : P → P → List M} (hsame : got' p q ++ v = (channel' p q).flatMap (encode p q) ++ part' p q)
    (hother : ∀ a' c, ¬ (a' = p ∧ c = q) → part' a' c = part a' c ∧ got' a' c = got a' c ∧
      channel' a' c = a.channel a' c) (a' c : P) (k' : K) (hac : a' ≠ c)
    (hout' : net.out a' c = some k') :
    got' a' c ++ Function.update s.stream k v k' =
      (channel' a' c).flatMap (encode a' c) ++ part' a' c := by
  by_cases hpair : a' = p ∧ c = q
  · obtain ⟨rfl,rfl⟩ := hpair
    obtain rfl : k' = k := Option.some.inj (hout'.symm.trans hout)
    rwa [Function.update_self]
  · have hk : k' ≠ k := fun hk => hpair (hnet.apart hpq hac hout (hk ▸ hout'))
    obtain ⟨hpart,hgot,hchannel⟩ := hother a' c hpair
    rw [Function.update_of_ne hk,hpart,hgot,hchannel]
    exact h.streams a' c k' hac hout'

include hwire in
theorem Refines.pop {p : P} {x : Nat × Action P M S} {l : Program P M S}
    (part' got' : P → P → List B) (a' : Channels.State P M S) (stream : K → List B)
    (hrest : a.rest p = x::l) (hrest' : a'.rest = Function.update a.rest p l)
    (hpart : ∀ c, part' p c = []) (hparts : ∀ c d, c ≠ p → part' c d = part c d)
    (hgot : ∀ c, got' c p = []) (hgots : ∀ c d, d ≠ p → got' c d = got c d)
    (hmem : ∀ c d m, m ∈ a'.incoming c d → m ∈ a.incoming c d)
    (hincoming : ∀ c d, d ≠ p → a'.incoming c d = a.incoming c d)
    (hstreams : ∀ q p k, q ≠ p → net.out q p = some k →
      got' q p ++ stream k = (a'.channel q p).flatMap (encode q p) ++ part' q p) :
    Refines net Fits encode held part' got' a' ⟨Function.update s.rest p l,
      Function.update s.writer p none,Function.update s.reader p none,stream,a'.memory⟩ where
  rest := by rw [hrest',h.rest]
  memory := rfl
  apart c y hy := by
    rw [hrest'] at hy
    by_cases hc : c = p
    · subst hc
      rw [Function.update_self] at hy
      exact h.apart c y (hrest ▸ List.mem_cons_of_mem _ hy)
    · rw [Function.update_of_ne hc] at hy
      exact h.apart c y hy
  fits c d m hm := h.fits c d m (hmem c d m hm)
  writing c d b m l' hl' := by
    by_cases hc : c = p
    · subst hc
      have hsent : m ∈ a'.incoming c d :=
        List.mem_append_right _ (by rw [hl',sent,if_pos rfl]; exact List.mem_cons_self)
      have hfits := h.fits c d m (hmem c d m hsent)
      simp only [Function.update_self,Option.getD_none,hpart,List.nil_append,(hwire c d).opened hfits]
      exact ⟨trivial,(hwire c d).encode_ne hfits⟩
    · rw [hrest',Function.update_of_ne hc] at hl'
      simp only [Function.update_of_ne hc,hparts c d hc]
      exact h.writing c d b m l' hl'
  part_nil c d hhead := by
    by_cases hc : c = p
    · rw [hc,hpart]
    · rw [hrest',Function.update_of_ne hc] at hhead
      rw [hparts c d hc]
      exact h.part_nil c d hhead
  writer_none c hhead := by
    by_cases hc : c = p
    · simp only [hc,Function.update_self]
    · rw [hrest',Function.update_of_ne hc] at hhead
      simp only [Function.update_of_ne hc]
      exact h.writer_none c hhead
  reading c d hhead := by
    by_cases hc : c = p
    · simp only [hc,Function.update_self,Option.getD_none,hgot,(hwire d p).idle]
    · rw [hrest',Function.update_of_ne hc] at hhead
      simp only [Function.update_of_ne hc,hgots d c hc]
      exact h.reading c d hhead
  got_nil c d hhead := by
    by_cases hc : c = p
    · rw [hc,hgot]
    · rw [hrest',Function.update_of_ne hc] at hhead
      rw [hgots d c hc]
      exact h.got_nil c d hhead
  reader_none c hhead := by
    by_cases hc : c = p
    · simp only [hc,Function.update_self]
    · rw [hrest',Function.update_of_ne hc] at hhead
      simp only [Function.update_of_ne hc]
      exact h.reader_none c hhead
  streams := hstreams
  ahead c d m ms hm := by
    by_cases hd : d = p
    · subst hd
      have hfits := h.fits c d m (hmem c d m (hm ▸ List.mem_cons_self))
      rw [hgot]
      exact ⟨List.nil_prefix,((hwire c d).encode_ne hfits).symm⟩
    · rw [hgots c d hd]
      rw [hincoming c d hd] at hm
      exact h.ahead c d m ms hm

variable {p q : P} {b : Nat} {l : Program P M S} {k : K} {bs : List B}

section
variable {m : M} {x : W} (hrest : a.rest p = (b,.send q m)::l)
include hrest

include hmoves hnet in
theorem Refines.write [DecidableEq K] (hout : net.out p q = some k)
    (hcall : (net.wire p q).Writes ((s.writer p).getD ((net.wire p q).opened m)) bs x)
    (hmore : (net.wire p q).pending x ≠ []) :
    Refines net Fits encode held (put part p q (part p q ++ bs)) got a
      ⟨s.rest,Function.update s.writer p (some x),s.reader,
        Function.update s.stream k (s.stream k ++ bs),s.memory⟩ := by
  have hpq : p ≠ q := (h.head_apart hrest).symm
  obtain ⟨hencode,_⟩ := h.writing p q b m l hrest
  have hpending := ((hmoves p q).writes hcall).2
  refine { h with
    writing := fun p' q' b' m' l' hrest' => ?_
    part_nil := fun p' q' hhead => ?_
    writer_none := fun p' hhead => ?_
    streams := ?_ }
  · by_cases hp : p' = p
    · subst hp
      obtain ⟨rfl,rfl⟩ : q' = q ∧ m' = m := by
        have hheads := hrest'.symm.trans hrest
        simp only [List.cons.injEq,Prod.mk.injEq,Action.send.injEq] at hheads
        exact hheads.1.2
      simp only [Function.update_self,Option.getD_some,put_self,List.append_assoc,← hpending]
      exact ⟨hencode,hmore⟩
    · simp only [Function.update_of_ne hp,put_of_ne part _ fun hpair => hp hpair.1]
      exact h.writing p' q' b' m' l' hrest'
  · rw [put_of_ne]
    · exact h.part_nil p' q' hhead
    · rintro ⟨rfl,rfl⟩
      exact hhead (by rw [hrest]; rfl)
  · have hp : p' ≠ p := by
      rintro rfl
      rw [hrest] at hhead
      cases hhead
    simp only [Function.update_of_ne hp]
    exact h.writer_none p' hhead
  · refine h.stream_update hnet hpq hout ?_ fun a' c hpair => ⟨put_of_ne _ _ hpair,rfl,rfl⟩
    rw [put_self,← List.append_assoc,h.streams p q k hpq hout,List.append_assoc]

include hmoves hnet hwire in
theorem Refines.writeLast [DecidableEq K] (hout : net.out p q = some k)
    (hcall : (net.wire p q).Writes ((s.writer p).getD ((net.wire p q).opened m)) bs x)
    (hlast : (net.wire p q).pending x = []) :
    Refines net Fits encode held (put part p q []) got (a.afterSend p q m l)
      ⟨Function.update s.rest p l,Function.update s.writer p none,s.reader,
        Function.update s.stream k (s.stream k ++ bs),s.memory⟩ := by
  have hpq : p ≠ q := (h.head_apart hrest).symm
  obtain ⟨hencode,_⟩ := h.writing p q b m l hrest
  have hpending := ((hmoves p q).writes hcall).2
  rw [hlast,List.append_nil] at hpending
  rw [hpending] at hencode
  have hreader : Function.update s.reader p none = s.reader :=
    Function.update_eq_self_iff.mpr (h.reader_none p (by rw [hrest]; rfl)).symm
  have hincoming := incoming_afterSend hrest
  have hpop := h.pop hwire (put part p q []) got (a.afterSend p q m l)
    (Function.update s.stream k (s.stream k ++ bs)) hrest rfl (fun c => ?_)
    (fun c d hc => put_of_ne _ _ fun hpair => hc hpair.1)
    (fun c => h.got_nil p c (by rw [hrest]; nofun)) (fun _ _ _ => rfl)
    (fun c d m' hm' => hincoming c d ▸ hm') (fun c d _ => hincoming c d) ?_
  · rw [hreader] at hpop
    rw [h.memory]
    exact hpop
  · by_cases hc : c = q
    · rw [hc,put_self]
    · rw [put_of_ne part _ fun hpair => hc hpair.2]
      refine h.part_nil p c ?_
      rw [hrest]
      exact fun hhead => hc (Option.some.inj hhead).symm
  · refine h.stream_update hnet hpq hout ?_ fun a' c hpair => ⟨put_of_ne _ _ hpair,rfl,put_of_ne _ _ hpair⟩
    rw [put_self,List.append_nil,← List.append_assoc,h.streams p q k hpq hout]
    simp [Channels.State.afterSend,hencode]

end

section
variable {store : M → S → S} {tail : List B} {r : R} (hrest : a.rest p = (b,.recv q store)::l)
  (hinto : net.into p q = some k) (hstream : s.stream k = bs ++ tail)
  (hcall : (net.wire q p).Reads ((s.reader p).getD (net.wire q p).idle) bs r)
include hrest hinto

include hnet in
theorem Refines.recv_out : net.out q p = some k := by
  obtain ⟨k',hout,hinto'⟩ := hnet.linked (h.head_apart hrest)
  rwa [← Option.some.inj (hinto.symm.trans hinto')] at hout

include hnet hmoves hwire hstream hcall in
theorem Refines.taken : ∃ m ms, a.incoming q p = m::ms ∧ got q p ++ bs <+: encode q p m ∧
    (got q p ++ bs = encode q p m → ∃ ms', a.channel q p = m::ms') := by
  have hqp : q ≠ p := h.head_apart hrest
  have hbs := (hmoves q p).reads hcall
  have hheld := h.reading p q (by rw [hrest]; rfl)
  have hstreams := h.streams q p k hqp (h.recv_out hnet hrest hinto)
  rw [hstream,← List.append_assoc] at hstreams
  cases hchannel : a.channel q p with
  | cons m ms =>
    have hincoming : a.incoming q p = m::(ms ++ sent (a.rest q) p) := by
      rw [Channels.State.incoming,hchannel,List.cons_append]
    obtain ⟨hpre,hne⟩ := h.ahead q p m _ hincoming
    have hfits := h.fits q p m (hincoming ▸ List.mem_cons_self)
    rw [hchannel,List.flatMap_cons,List.append_assoc (encode q p m)] at hstreams
    refine ⟨m,_,hincoming,?_,fun _ => ⟨ms,rfl⟩⟩
    rw [← hheld] at hpre hne hstreams ⊢
    exact (hwire q p).stays hfits hcall hpre hne ⟨tail,hstreams⟩
  | nil =>
    rw [hchannel,List.flatMap_nil,List.nil_append] at hstreams
    have hpart : sendHead (a.rest q) = some p := by
      by_contra hhead
      rw [h.part_nil q p hhead] at hstreams
      simp [hbs] at hstreams
    obtain ⟨b',m,l',hsender⟩ := sendHead_eq_some hpart
    obtain ⟨hencode,hpending⟩ := h.writing q p b' m l' hsender
    have hincoming : a.incoming q p = m::sent l' p := by
      rw [Channels.State.incoming,hchannel,hsender,sent,if_pos rfl,List.nil_append]
    rw [← hstreams,List.append_assoc] at hencode
    refine ⟨m,_,hincoming,⟨_,hencode.symm⟩,fun hall => ?_⟩
    rw [hall] at hencode
    have hnil := List.append_right_eq_self.mp hencode.symm
    exact absurd (List.append_eq_nil_iff.mp hnil).2 hpending

include hnet hmoves hwire hstream hcall in
theorem Refines.read [DecidableEq K] (hmore : (net.wire q p).closed r = none) :
    Refines net Fits encode held part (put got q p (got q p ++ bs)) a
      ⟨s.rest,s.writer,Function.update s.reader p (some r),
        Function.update s.stream k tail,s.memory⟩ := by
  have hqp : q ≠ p := h.head_apart hrest
  have hout := h.recv_out hnet hrest hinto
  have hheld := h.reading p q (by rw [hrest]; rfl)
  have hstreams := h.streams q p k hqp hout
  rw [hstream,← List.append_assoc] at hstreams
  obtain ⟨m,ms,hincoming,hpre,_⟩ := h.taken hnet hmoves hwire hrest hinto hstream hcall
  have hfits := h.fits q p m (hincoming ▸ List.mem_cons_self)
  have hnext : held q p r = got q p ++ bs := by rw [(hwire q p).reads hcall,hheld]
  have hrecv : ∀ {c d}, recvHead (a.rest c) ≠ some d → ¬ (d = q ∧ c = p) := by
    rintro c d hhead ⟨rfl,rfl⟩
    exact hhead (by rw [hrest]; rfl)
  refine { h with
    reading := fun c d hhead => ?_
    got_nil := fun c d hhead => ?_
    reader_none := fun c hhead => ?_
    streams := ?_
    ahead := fun c d m' ms' hm' => ?_ }
  · by_cases hc : c = p
    · subst hc
      rw [hrest] at hhead
      obtain rfl : q = d := Option.some.inj hhead
      simp only [Function.update_self,Option.getD_some,put_self,hnext]
    · simp only [Function.update_of_ne hc,put_of_ne got _ fun hpair => hc hpair.2]
      exact h.reading c d hhead
  · rw [put_of_ne _ _ (hrecv hhead)]
    exact h.got_nil c d hhead
  · have hc : c ≠ p := by
      rintro rfl
      rw [hrest] at hhead
      cases hhead
    simp only [Function.update_of_ne hc]
    exact h.reader_none c hhead
  · refine h.stream_update hnet hqp hout ?_ fun a' c hpair => ⟨rfl,put_of_ne _ _ hpair,rfl⟩
    rw [put_self,hstreams]
  · by_cases hpair : c = q ∧ d = p
    · obtain ⟨rfl,rfl⟩ := hpair
      obtain ⟨rfl,_⟩ := List.cons.inj (hm'.symm.trans hincoming)
      rw [put_self]
      refine ⟨hpre,fun hall => ?_⟩
      rw [(hwire c d).closed hfits (hnext.trans hall)] at hmore
      cases hmore
    · rw [put_of_ne _ _ hpair]
      exact h.ahead c d m' ms' hm'

include hnet hmoves hwire hstream hcall in
theorem Refines.readLast [DecidableEq K] {m : M} (hlast : (net.wire q p).closed r = some m) :
    ∃ ms, a.channel q p = m::ms ∧
      Refines net Fits encode held part (put got q p []) (a.afterRecv p q store m ms l)
        ⟨Function.update s.rest p l,s.writer,Function.update s.reader p none,
          Function.update s.stream k tail,Function.update s.memory p (store m (s.memory p))⟩ := by
  have hqp : q ≠ p := h.head_apart hrest
  have hout := h.recv_out hnet hrest hinto
  have hheld := h.reading p q (by rw [hrest]; rfl)
  obtain ⟨m',ms',hincoming,hpre,hall⟩ := h.taken hnet hmoves hwire hrest hinto hstream hcall
  have hfits := h.fits q p m' (hincoming ▸ List.mem_cons_self)
  have hnext : held q p r = got q p ++ bs := by rw [(hwire q p).reads hcall,hheld]
  rw [← hnext] at hpre hall
  have hwhole : held q p r = encode q p m' := by
    by_contra hne
    rw [(hwire q p).unclosed hfits hpre hne] at hlast
    cases hlast
  obtain rfl : m' = m := Option.some.inj (((hwire q p).closed hfits hwhole).symm.trans hlast)
  obtain ⟨ms,hchannel⟩ := hall hwhole
  have hwriter : Function.update s.writer p none = s.writer :=
    Function.update_eq_self_iff.mpr (h.writer_none p (by rw [hrest]; rfl)).symm
  have hcons := incoming_afterRecv hrest hchannel
  have hpop := h.pop hwire part (put got q p []) (a.afterRecv p q store m' ms l)
    (Function.update s.stream k tail) hrest rfl
    (fun c => h.part_nil p c (by rw [hrest]; nofun)) (fun _ _ _ => rfl) (fun c => ?_)
    (fun c d hd => put_of_ne _ _ fun hpair => hd hpair.2) (fun c d y hy => ?_)
    (fun c d hd => incoming_afterRecv_of_ne hrest fun hpair => hd hpair.2) ?_
  · rw [hwriter] at hpop
    refine ⟨ms,hchannel,?_⟩
    rw [h.memory]
    exact hpop
  · by_cases hc : c = q
    · rw [hc,put_self]
    · rw [put_of_ne got _ fun hpair => hc hpair.1]
      refine h.got_nil p c ?_
      rw [hrest]
      exact fun hhead => hc (Option.some.inj hhead).symm
  · by_cases hpair : c = q ∧ d = p
    · obtain ⟨rfl,rfl⟩ := hpair
      exact hcons ▸ List.mem_cons_of_mem _ hy
    · rwa [incoming_afterRecv_of_ne hrest hpair] at hy
  · refine h.stream_update hnet hqp hout ?_ fun a' c hpair =>
      ⟨rfl,put_of_ne _ _ hpair,channel_afterRecv hpair⟩
    have hstreams := h.streams q p k hqp hout
    rw [hstream,hchannel,List.flatMap_cons,← List.append_assoc,← hnext,hwhole,List.append_assoc]
      at hstreams
    have hchannel' : (a.afterRecv p q store m' ms l).channel q p = ms := by
      simp [Channels.State.afterRecv]
    rw [put_self,List.nil_append,hchannel']
    exact List.append_cancel_left hstreams

end

end

section
variable [DecidableEq K] {net : Links P M B W R K} {Fits : P → P → M → Prop}
  {encode : P → P → M → List B} {held : P → P → R → List B} {prog : P → Program P M S}
  {mem : P → S} (hnet : net.Joined) (hmoves : ∀ q p, (net.wire q p).Moves)
  (hwire : ∀ q p, (net.wire q p).Carries (Fits q p) (encode q p) (held q p))
  (hpeers : ∀ p x, x ∈ prog p → peer x.2 ≠ p) (hfits : ∀ q p m, m ∈ sent (prog q) p → Fits q p m)

include hwire hpeers hfits in
omit [DecidableEq K] in
theorem refines_start : Refines net Fits encode held (fun _ _ => []) (fun _ _ => [])
    (Channels.start prog mem) (start prog mem) where
  rest := rfl
  memory := rfl
  apart := hpeers
  fits := hfits
  writing p q b m l hrest := by
    have hm : m ∈ sent (prog p) q := by
      rw [show prog p = (b,.send q m)::l from hrest,sent,if_pos rfl]
      exact List.mem_cons_self
    simp only [start,Option.getD_none,List.nil_append,(hwire p q).opened (hfits p q m hm)]
    exact ⟨trivial,(hwire p q).encode_ne (hfits p q m hm)⟩
  part_nil _ _ _ := rfl
  writer_none _ _ := rfl
  reading p q _ := (hwire q p).idle
  got_nil _ _ _ := rfl
  reader_none _ _ := rfl
  streams _ _ _ _ _ := rfl
  ahead q p m ms hm := by
    have hm' : m ∈ sent (prog q) p := by
      have hincoming : sent (prog q) p = m::ms := hm
      exact hincoming ▸ List.mem_cons_self
    exact ⟨List.nil_prefix,((hwire q p).encode_ne (hfits q p m hm')).symm⟩

include hnet hmoves hwire in
theorem Refines.step {part got : P → P → List B} {a : Channels.State P M S}
    {s t : State P M S B W R K} (h : Refines net Fits encode held part got a s)
    (hstep : Step net s t) : ∃ part' got' a', Relation.ReflTransGen Channels.Step a a' ∧
      Refines net Fits encode held part' got' a' t := by
  cases hstep with
  | write hrest hout hcall hmore =>
    exact ⟨_,_,a,.refl,h.write hnet hmoves (h.rest ▸ hrest) hout hcall hmore⟩
  | writeLast hrest hout hcall hlast =>
    have hrest' := h.rest ▸ hrest
    exact ⟨_,_,_,.single (.send hrest'),h.writeLast hnet hmoves hwire hrest' hout hcall hlast⟩
  | read hrest hinto hstream hcall hmore =>
    exact ⟨_,_,a,.refl,h.read hnet hmoves hwire (h.rest ▸ hrest) hinto hstream hcall hmore⟩
  | readLast hrest hinto hstream hcall hlast =>
    have hrest' := h.rest ▸ hrest
    obtain ⟨ms,hchannel,hrefines⟩ :=
      h.readLast hnet hmoves hwire hrest' hinto hstream hcall hlast
    exact ⟨_,_,_,.single (.recv hrest' hchannel),hrefines⟩

include hnet hmoves hwire hpeers hfits in
theorem Runs.refines {k : Nat} {s : State P M S B W R K} (hrun : Runs net prog mem k s) :
    ∃ part got a, Reachable prog mem a ∧ Refines net Fits encode held part got a s := by
  induction hrun with
  | start => exact ⟨_,_,_,.refl,refines_start hwire hpeers hfits⟩
  | step _ hstep ih =>
    obtain ⟨part,got,a,ha,h⟩ := ih
    obtain ⟨part',got',a',haa',h'⟩ := h.step hnet hmoves hwire hstep
    exact ⟨part',got',a',ha.trans haa',h'⟩

include hnet hwire in
theorem Refines.progress {part got : P → P → List B} {a b : Channels.State P M S}
    {s : State P M S B W R K} (h : Refines net Fits encode held part got a s)
    (hstep : Channels.Step a b) : ∃ t, Step net s t := by
  cases hstep with
  | @send p q b m l hrest =>
    have hpq : p ≠ q := (h.head_apart hrest).symm
    obtain ⟨k,hout,_⟩ := hnet.linked hpq
    obtain ⟨bs,x,hcall⟩ := (hwire p q).can_write (h.writing p q b m l hrest).2
    rw [← h.rest] at hrest
    by_cases hlast : (net.wire p q).pending x = []
    · exact ⟨_,.writeLast hrest hout hcall hlast⟩
    · exact ⟨_,.write hrest hout hcall hlast⟩
  | @recv p q b store m ms l hrest hchannel =>
    have hqp : q ≠ p := h.head_apart hrest
    obtain ⟨k,hout,hinto⟩ := hnet.linked hqp
    have hincoming : a.incoming q p = m::(ms ++ sent (a.rest q) p) := by
      rw [Channels.State.incoming,hchannel,List.cons_append]
    obtain ⟨hpre,hne⟩ := h.ahead q p m _ hincoming
    have hfits := h.fits q p m (hincoming ▸ List.mem_cons_self)
    have hheld := h.reading p q (by rw [hrest]; rfl)
    have hstreams := h.streams q p k hqp hout
    rw [hchannel,List.flatMap_cons,List.append_assoc] at hstreams
    rw [← hheld] at hpre hne hstreams
    obtain ⟨bs,r,hcall,rest,hrest'⟩ := (hwire q p).can_read hfits hpre hne
    rw [← hrest',List.append_assoc,List.append_assoc] at hstreams
    have hstream := List.append_cancel_left hstreams
    rw [← h.rest] at hrest
    cases hclosed : (net.wire q p).closed r with
    | none => exact ⟨_,.read hrest hinto hstream hcall hclosed⟩
    | some m' => exact ⟨_,.readLast hrest hinto hstream hcall hclosed⟩

end

def toWrite (net : Links P M B W R K) (p : P) : Program P M S → Nat
  | [] => 0
  | (_,.send q m)::l => ((net.wire p q).pending ((net.wire p q).opened m)).length + toWrite net p l
  | (_,.recv _ _)::l => toWrite net p l

def left (net : Links P M B W R K) (s : State P M S B W R K) (p : P) : Nat :=
  match s.rest p with
  | [] => 0
  | (_,.send q m)::l =>
    ((net.wire p q).pending ((s.writer p).getD ((net.wire p q).opened m))).length + toWrite net p l
  | (_,.recv _ _)::l => toWrite net p l

def onLink (net : Links P M B W R K) (s : State P M S B W R K) (x : P × P) : Nat :=
  if x.1 = x.2 then 0 else (net.out x.1 x.2).elim 0 fun k => (s.stream k).length

/-- Of what is still to be moved, what is not written counts twice. -/
def toMove [Fintype P] (net : Links P M B W R K) (s : State P M S B W R K) : Nat :=
  2*∑ p, left net s p + ∑ x : P × P, onLink net s x

section
variable {net : Links P M B W R K} {s t : State P M S B W R K}

omit [DecidableEq P] in
theorem left_fresh {p : P} (h : s.writer p = none) : left net s p = toWrite net p (s.rest p) := by
  rw [left,h]
  cases s.rest p with
  | nil => rfl
  | cons x l =>
    obtain ⟨b,_ | _⟩ := x <;> rfl

theorem sum_replace {A : Type} [Fintype A] [DecidableEq A] {f g : A → Nat} (x : A)
    (h : ∀ y, y ≠ x → f y = g y) : ∑ y, f y + g x = ∑ y, g y + f x := by
  have herase : (Finset.univ.erase x).sum f = (Finset.univ.erase x).sum g :=
    Finset.sum_congr rfl fun y hy => h y (Finset.ne_of_mem_erase hy)
  rw [← Finset.add_sum_erase Finset.univ f (Finset.mem_univ x),
    ← Finset.add_sum_erase Finset.univ g (Finset.mem_univ x),herase]
  ring

variable [DecidableEq K] [Fintype P] (hnet : net.Joined)
include hnet

theorem sum_onLink {q p : P} (hqp : q ≠ p) {k : K} (hout : net.out q p = some k) {v : List B}
    (hstream : t.stream = Function.update s.stream k v) :
    ∑ x : P × P, onLink net t x + (s.stream k).length =
      ∑ x : P × P, onLink net s x + v.length := by
  have hsum := sum_replace (f := onLink net t) (g := onLink net s) (q,p) fun x hx => ?_
  · simpa [onLink,hqp,hout,hstream] using hsum
  · by_cases hloop : x.1 = x.2
    · rw [onLink,onLink,if_pos hloop,if_pos hloop]
    · rw [onLink,onLink,if_neg hloop,if_neg hloop,hstream]
      cases hlink : net.out x.1 x.2 with
      | none => rfl
      | some k' =>
        have hk : k' ≠ k := by
          rintro rfl
          obtain ⟨h₁,h₂⟩ := hnet.apart hqp hloop hout hlink
          exact hx (Prod.ext h₁ h₂)
        rw [Option.elim_some,Option.elim_some,Function.update_of_ne hk]

theorem toMove_lt_of {q p c : P} (hqp : q ≠ p) {k : K} (hout : net.out q p = some k) {v : List B}
    (hrest : ∀ d, d ≠ c → t.rest d = s.rest d) (hwriter : ∀ d, d ≠ c → t.writer d = s.writer d)
    (hstream : t.stream = Function.update s.stream k v)
    (hlt : 2*left net t c + v.length < 2*left net s c + (s.stream k).length) :
    toMove net t < toMove net s := by
  have hlinks := sum_onLink hnet hqp hout hstream
  have hleft := sum_replace (f := left net t) (g := left net s) c fun d hd => by
    rw [left,left,hrest d hd,hwriter d hd]
  rw [toMove,toMove]
  omega

theorem Step.toMove_lt (hmoves : ∀ q p, (net.wire q p).Moves)
    (hpeers : ∀ p x, x ∈ s.rest p → peer x.2 ≠ p)
    (hwriter : ∀ p, sendHead (s.rest p) = none → s.writer p = none) (h : Step net s t) :
    toMove net t < toMove net s := by
  cases h with
  | @write p q b m l k bs x hrest hout hcall hmore =>
    have hqp : q ≠ p := hpeers p (b,.send q m) (hrest ▸ List.mem_cons_self)
    obtain ⟨hbs,hpending⟩ := (hmoves p q).writes hcall
    have hpos := List.length_pos_of_ne_nil hbs
    refine toMove_lt_of (c := p) hnet hqp.symm hout (fun _ _ => rfl)
      (fun d hd => Function.update_of_ne hd _ _) rfl ?_
    simp only [left,hrest,Function.update_self,Option.getD_some,hpending,List.length_append]
    omega
  | @writeLast p q b m l k bs x hrest hout hcall hlast =>
    have hqp : q ≠ p := hpeers p (b,.send q m) (hrest ▸ List.mem_cons_self)
    obtain ⟨hbs,hpending⟩ := (hmoves p q).writes hcall
    have hpos := List.length_pos_of_ne_nil hbs
    refine toMove_lt_of (c := p) hnet hqp.symm hout (fun d hd => Function.update_of_ne hd _ _)
      (fun d hd => Function.update_of_ne hd _ _) rfl ?_
    rw [left_fresh (Function.update_self _ _ _)]
    simp only [left,hrest,Function.update_self,hpending,List.length_append]
    omega
  | @read p q b store l k bs tail r hrest hinto hstream hcall hmore =>
    have hqp : q ≠ p := hpeers p (b,.recv q store) (hrest ▸ List.mem_cons_self)
    obtain ⟨k',hout,hinto'⟩ := hnet.linked hqp
    obtain rfl : k = k' := Option.some.inj (hinto.symm.trans hinto')
    have hpos := List.length_pos_of_ne_nil ((hmoves q p).reads hcall)
    refine toMove_lt_of (c := p) hnet hqp hout (fun _ _ => rfl) (fun _ _ => rfl) rfl ?_
    simp only [left,hstream,List.length_append]
    omega
  | @readLast p q b store l k bs tail r m hrest hinto hstream hcall hlast =>
    have hqp : q ≠ p := hpeers p (b,.recv q store) (hrest ▸ List.mem_cons_self)
    obtain ⟨k',hout,hinto'⟩ := hnet.linked hqp
    obtain rfl : k = k' := Option.some.inj (hinto.symm.trans hinto')
    have hpos := List.length_pos_of_ne_nil ((hmoves q p).reads hcall)
    refine toMove_lt_of (c := p) hnet hqp hout (fun d hd => Function.update_of_ne hd _ _)
      (fun _ _ => rfl) rfl ?_
    have hwaits : left net s p = toWrite net p l := by rw [left,hrest]
    have hnone : s.writer p = none := hwriter p (by rw [hrest]; rfl)
    rw [hwaits,left_fresh]
    · simp only [hstream,Function.update_self,List.length_append]
      omega
    · exact hnone

end

theorem toMove_start [Fintype P] {net : Links P M B W R K} {prog : P → Program P M S} {mem : P → S} :
    toMove net (start prog mem : State P M S B W R K) = 2*∑ p, toWrite net p (prog p) := by
  have hlinks : ∑ x : P × P, onLink net (start prog mem : State P M S B W R K) x = 0 := by
    refine Finset.sum_eq_zero fun x _ => ?_
    rw [onLink]
    split
    · rfl
    · cases net.out x.1 x.2 <;> rfl
  rw [toMove,hlinks,Nat.add_zero]
  exact congrArg _ (Finset.sum_congr rfl fun p _ => left_fresh rfl)

section
variable [DecidableEq K] [Fintype P] {net : Links P M B W R K} {Fits : P → P → M → Prop}
  {encode : P → P → M → List B} {held : P → P → R → List B} {phases : List (Phase P M S)}
  {mem : P → S} (hnet : net.Joined) (hmoves : ∀ q p, (net.wire q p).Moves)
  (hwire : ∀ q p, (net.wire q p).Carries (Fits q p) (encode q p) (held q p))

section
variable {prog : P → Program P M S} (hpeers : ∀ p x, x ∈ prog p → peer x.2 ≠ p)
  (hfits : ∀ q p m, m ∈ sent (prog q) p → Fits q p m)
include hnet hmoves hwire hpeers hfits

theorem Runs.length_le {k : Nat} {s : State P M S B W R K} (hrun : Runs net prog mem k s) :
    k + toMove net s ≤ 2*∑ p, toWrite net p (prog p) := by
  induction hrun with
  | start => rw [Nat.zero_add,toMove_start]
  | step hrun hstep ih =>
    obtain ⟨part,got,a,_,h⟩ := hrun.refines hnet hmoves hwire hpeers hfits
    have hlt := hstep.toMove_lt hnet hmoves (h.rest ▸ h.apart) (h.rest ▸ h.writer_none)
    omega

/-- No state is stuck before all parties are done, and no run goes on for ever. -/
theorem Runs.outcome {k : Nat} {s : State P M S B W R K} (hprog : Scheduled prog)
    (hrun : Runs net prog mem k s) : k ≤ 2*∑ p, toWrite net p (prog p) ∧
      (Finished s ∨ ∃ t, Step net s t) ∧ (Finished s →
        (∀ q p link, q ≠ p → net.out q p = some link → s.stream link = []) ∧
        ∀ p, s.memory p = absorb (receives (prog p)) (fun q => sent (prog q) p) (mem p)) := by
  have hlength := hrun.length_le hnet hmoves hwire hpeers hfits
  obtain ⟨part,got,a,ha,h⟩ := hrun.refines hnet hmoves hwire hpeers hfits
  have hinv := ha.invariant hprog
  refine ⟨by omega,?_,fun hdone => ?_⟩
  · rcases hinv.progress with hdone | ⟨b,hstep⟩
    · exact .inl fun p => h.rest ▸ hdone p
    · exact .inr (h.progress hnet hwire hstep)
  · have hdone' : Channels.Finished a := fun p => h.rest ▸ hdone p
    obtain ⟨hempty,hmemory⟩ := hinv.finish hdone'
    refine ⟨fun q p link hqp hout => ?_,fun p => h.memory ▸ hmemory p⟩
    have hstreams := h.streams q p link hqp hout
    rw [hempty q p,h.part_nil q p (by rw [hdone' q]; nofun),List.flatMap_nil,List.append_nil]
      at hstreams
    exact (List.append_eq_nil_iff.mp hstreams).2

end

omit [Fintype P] [DecidableEq P] in
theorem peer_program (hph : ∀ ph ∈ phases, ph.Matched)
    (hapart : ∀ ph ∈ phases, ∀ p, p ∉ ph.targets p) (j : Nat) (p : P) :
    ∀ x ∈ program j phases p, peer x.2 ≠ p := by
  induction phases generalizing j with
  | nil => exact fun x hx => absurd hx List.not_mem_nil
  | cons ph phases ih =>
    intro x hx
    have htargets := hapart ph List.mem_cons_self p
    rcases List.mem_append.mp hx with hx | hx
    · rcases List.mem_append.mp hx with hx | hx
      · obtain ⟨q,hq,rfl⟩ := List.mem_map.mp hx
        exact fun hqp : q = p => htargets (hqp ▸ hq)
      · obtain ⟨q,hq,rfl⟩ := List.mem_map.mp hx
        have hmatched := (hph ph List.mem_cons_self).matched p p
        exact fun hqp : q = p => htargets (hmatched.mp (hqp ▸ hq))
    · exact ih (fun ph h => hph ph (List.mem_cons_of_mem _ h))
        (fun ph h => hapart ph (List.mem_cons_of_mem _ h)) (j+1) x hx

omit [Fintype P] in
theorem sent_program (hph : ∀ ph ∈ phases, ph.Matched) (j : Nat) (q p : P) {m : M}
    (hm : m ∈ sent (program j phases q) p) : ∃ ph ∈ phases, q ∈ ph.sources p ∧ m = ph.message q p := by
  induction phases generalizing j with
  | nil => exact absurd hm List.not_mem_nil
  | cons ph phases ih =>
    rw [program,sent_append,sent_actions (hph ph List.mem_cons_self)] at hm
    rcases List.mem_append.mp hm with hm | hm
    · split at hm
      case isTrue hq =>
        exact ⟨ph,List.mem_cons_self,hq,List.mem_singleton.mp hm⟩
      case isFalse => exact absurd hm List.not_mem_nil
    · obtain ⟨ph',hph',h⟩ := ih (fun ph h => hph ph (List.mem_cons_of_mem _ h)) (j+1) hm
      exact ⟨ph',List.mem_cons_of_mem _ hph',h⟩

include hnet hmoves hwire in
/-- However the calls of the parties interleave and wherever they cut the messages, phases that
match never block, come to an end, and every message goes where it was meant to go. -/
theorem Runs.exchange (hph : ∀ ph ∈ phases, ph.Matched)
    (hapart : ∀ ph ∈ phases, ∀ p, p ∉ ph.targets p)
    (hfits : ∀ ph ∈ phases, ∀ q p, q ∈ ph.sources p → Fits q p (ph.message q p)) {k : Nat}
    {s : State P M S B W R K} (hrun : Runs net (program 0 phases) mem k s) :
    k ≤ 2*∑ p, toWrite net p (program 0 phases p) ∧
      (Finished s ∨ ∃ t, Step net s t) ∧ (Finished s →
        (∀ q p link, q ≠ p → net.out q p = some link → s.stream link = []) ∧
        ∀ p, s.memory p = phases.foldl (fun x ph => ph.result p x) (mem p)) := by
  have hsent : ∀ q p m, m ∈ sent (program 0 phases q) p → Fits q p m := by
    intro q p m hm
    obtain ⟨ph,hmem,hq,rfl⟩ := sent_program hph 0 q p hm
    exact hfits ph hmem q p hq
  obtain ⟨hlength,hprogress,hfinish⟩ := hrun.outcome hnet hmoves hwire
    (fun p => peer_program hph hapart 0 p) hsent (scheduled_program hph 0)
  refine ⟨hlength,hprogress,fun hdone => ?_⟩
  obtain ⟨hempty,hmemory⟩ := hfinish hdone
  exact ⟨hempty,fun p => (hmemory p).trans (absorb_program hph 0 p (mem p))⟩

end

end
end Streams
