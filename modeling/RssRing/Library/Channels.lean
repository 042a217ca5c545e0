import Mathlib.Logic.Function.Basic
import Mathlib.Logic.Relation
import Mathlib.Data.List.Basic
import Mathlib.Data.Nat.Find
import Mathlib.Tactic.Set
set_option autoImplicit false

namespace Channels

/-- Parties `P` send messages `M` over one unbounded channel for each ordered pair.
What a party takes from a channel changes its memory `S`. -/
inductive Action (P M S : Type) where
  | send (target : P) (message : M)
  | recv (source : P) (store : M → S → S)

abbrev Program (P M S : Type) := List (Nat × Action P M S)

structure State (P M S : Type) where
  rest : P → Program P M S
  channel : P → P → List M
  memory : P → S

variable {P M S : Type}

def upTo (b : Nat) (l : Program P M S) : Program P M S := l.filter (fun a => a.1 ≤ b)

def before (b : Nat) (l : Program P M S) : Program P M S := l.filter (fun a => a.1 < b)

theorem upTo_cons (b : Nat) (a : Nat × Action P M S) (l : Program P M S) :
    upTo b (a::l) = if a.1 ≤ b then a::upTo b l else upTo b l := by
  simp [upTo,List.filter_cons]

theorem before_cons (b : Nat) (a : Nat × Action P M S) (l : Program P M S) :
    before b (a::l) = if a.1 < b then a::before b l else before b l := by
  simp [before,List.filter_cons]

theorem upTo_eq_nil {b : Nat} {l : Program P M S} (h : ∀ a ∈ l, b < a.1) : upTo b l = [] := by
  refine List.filter_eq_nil_iff.mpr fun a ha => ?_
  simpa using h a ha

def receives : Program P M S → List (P × (M → S → S))
  | [] => []
  | (_,.send _ _)::l => receives l
  | (_,.recv q store)::l => (q,store)::receives l

def start (prog : P → Program P M S) (mem : P → S) : State P M S :=
  ⟨prog,fun _ _ => [],mem⟩

def Finished (s : State P M S) : Prop := ∀ p, s.rest p = []

variable [DecidableEq P]

def sent : Program P M S → P → List M
  | [], _ => []
  | (_,.send q m)::l, p => if q = p then m::sent l p else sent l p
  | (_,.recv _ _)::l, p => sent l p

def expects (l : Program P M S) (q : P) : Nat := (receives l).countP (fun a => a.1 = q)

def absorb : List (P × (M → S → S)) → (P → List M) → S → S
  | [], _, s => s
  | (q,store)::l, c, s =>
    match c q with
    | [] => s
    | m::ms => absorb l (Function.update c q ms) (store m s)

/-- Any party may go on, in any order. A receive waits until its channel holds a message. -/
inductive Step : State P M S → State P M S → Prop
  | send {s : State P M S} {p q : P} {b : Nat} {m : M} {l : Program P M S}
      (hrest : s.rest p = (b,.send q m)::l) :
      Step s ⟨Function.update s.rest p l,
        Function.update s.channel p (Function.update (s.channel p) q (s.channel p q ++ [m])),
        s.memory⟩
  | recv {s : State P M S} {p q : P} {b : Nat} {store : M → S → S} {m : M} {ms : List M}
      {l : Program P M S} (hrest : s.rest p = (b,.recv q store)::l)
      (hchannel : s.channel q p = m::ms) :
      Step s ⟨Function.update s.rest p l,
        Function.update s.channel q (Function.update (s.channel q) p ms),
        Function.update s.memory p (store m (s.memory p))⟩

def Reachable (prog : P → Program P M S) (mem : P → S) (s : State P M S) : Prop :=
  Relation.ReflTransGen Step (start prog mem) s

/-- Messages are sent before the place at which they are taken, and as many as are taken. -/
structure Scheduled (prog : P → Program P M S) : Prop where
  sorted : ∀ p, (prog p).Pairwise (fun a b => a.1 ≤ b.1)
  balanced : ∀ q p, (sent (prog q) p).length = expects (prog p) q
  early : ∀ q p b, expects (upTo b (prog p)) q ≤ (sent (before b (prog q)) p).length

def State.incoming (s : State P M S) (q p : P) : List M := s.channel q p ++ sent (s.rest q) p

/-- The programs that are left are scheduled, with the channels ahead of them, and
lead to the same end. -/
structure Invariant (prog : P → Program P M S) (mem : P → S) (s : State P M S) : Prop where
  sorted : ∀ p, (s.rest p).Pairwise (fun a b => a.1 ≤ b.1)
  balanced : ∀ q p, (s.incoming q p).length = expects (s.rest p) q
  early : ∀ q p b, expects (upTo b (s.rest p)) q ≤
    (s.channel q p).length + (sent (before b (s.rest q)) p).length
  outcome : ∀ p, absorb (receives (s.rest p)) (fun q => s.incoming q p) (s.memory p) =
    absorb (receives (prog p)) (fun q => sent (prog q) p) (mem p)

section
variable {prog : P → Program P M S} {mem : P → S} {s t : State P M S}

theorem Scheduled.start (h : Scheduled prog) : Invariant prog mem (start prog mem) where
  sorted := h.sorted
  balanced := h.balanced
  early q p b := (Nat.zero_add _).symm ▸ h.early q p b
  outcome _ := rfl

theorem expects_upTo_send (c b : Nat) (q p : P) (m : M) (l : Program P M S) :
    expects (upTo c ((b,.send q m)::l)) p = expects (upTo c l) p := by
  rw [upTo_cons]
  by_cases h : b ≤ c <;> simp [h,expects,receives]

theorem expects_upTo_recv (c b : Nat) (q p : P) (store : M → S → S) (l : Program P M S) :
    expects (upTo c ((b,.recv q store)::l)) p =
      expects (upTo c l) p + if b ≤ c ∧ q = p then 1 else 0 := by
  rw [upTo_cons]
  by_cases h : b ≤ c <;> simp [h,expects,receives,List.countP_cons]

theorem length_sent_before_send (c b : Nat) (q p : P) (m : M) (l : Program P M S) :
    (sent (before c ((b,.send q m)::l)) p).length =
      (sent (before c l) p).length + if b < c ∧ q = p then 1 else 0 := by
  rw [before_cons]
  by_cases h : b < c <;> by_cases hq : q = p <;> simp [h,hq,sent]

theorem sent_before_recv (c b : Nat) (q p : P) (store : M → S → S) (l : Program P M S) :
    sent (before c ((b,.recv q store)::l)) p = sent (before c l) p := by
  rw [before_cons]
  by_cases h : b < c <;> simp [h,sent]

theorem absorb_cons {c : P → List M} {q : P} {m : M} {ms : List M} (h : c q = m::ms)
    (store : M → S → S) (l : List (P × (M → S → S))) (x : S) :
    absorb ((q,store)::l) c x = absorb l (Function.update c q ms) (store m x) := by
  simp only [absorb,h]

theorem pairwise_update {R : Nat × Action P M S → Nat × Action P M S → Prop}
    {rest : P → Program P M S} (h : ∀ a, (rest a).Pairwise R) {p : P} {x : Nat × Action P M S}
    {l : Program P M S} (hrest : rest p = x::l) (a : P) :
    (Function.update rest p l a).Pairwise R := by
  by_cases ha : a = p
  · subst ha
    have hsorted := h a
    rw [hrest] at hsorted
    rw [Function.update_self]
    exact hsorted.of_cons
  · rw [Function.update_of_ne ha]
    exact h a

def State.afterSend (s : State P M S) (p q : P) (m : M) (l : Program P M S) : State P M S :=
  ⟨Function.update s.rest p l,
    Function.update s.channel p (Function.update (s.channel p) q (s.channel p q ++ [m])), s.memory⟩

section
variable {p q : P} {b : Nat} {m : M} {l : Program P M S}

theorem incoming_afterSend (hrest : s.rest p = (b,.send q m)::l) (a c : P) :
    (s.afterSend p q m l).incoming a c = s.incoming a c := by
  by_cases ha : a = p
  · subst ha
    by_cases hc : c = q
    · subst hc
      simp [State.afterSend,State.incoming,hrest,sent]
    · simp [State.afterSend,State.incoming,hrest,sent,hc,Ne.symm hc]
  · simp [State.afterSend,State.incoming,ha]

theorem receives_afterSend (hrest : s.rest p = (b,.send q m)::l) (a : P) :
    receives ((s.afterSend p q m l).rest a) = receives (s.rest a) := by
  by_cases ha : a = p
  · subst ha
    simp [State.afterSend,hrest,receives]
  · simp [State.afterSend,ha]

theorem upTo_afterSend (hrest : s.rest p = (b,.send q m)::l) (a c : P) (d : Nat) :
    expects (upTo d ((s.afterSend p q m l).rest c)) a = expects (upTo d (s.rest c)) a := by
  by_cases hc : c = p
  · subst hc
    simp [State.afterSend,hrest,expects_upTo_send]
  · simp [State.afterSend,hc]

theorem Invariant.send (h : Invariant prog mem s) (hrest : s.rest p = (b,.send q m)::l) :
    Invariant prog mem (s.afterSend p q m l) := by
  refine ⟨pairwise_update h.sorted hrest,fun a c => ?_,fun a c d => ?_,fun a => ?_⟩
  · rw [incoming_afterSend hrest,expects,receives_afterSend hrest]
    exact h.balanced a c
  · rw [upTo_afterSend hrest]
    refine Nat.le_trans (h.early a c d) ?_
    by_cases ha : a = p
    · subst ha
      rw [hrest,length_sent_before_send]
      by_cases hc : c = q
      · subst hc
        simp only [State.afterSend,Function.update_self,List.length_append,List.length_cons,
          List.length_nil]
        split <;> omega
      · simp [State.afterSend,hc,Ne.symm hc]
    · simp [State.afterSend,ha]
  · simp only [incoming_afterSend hrest,receives_afterSend hrest]
    exact h.outcome a

end

def State.afterRecv (s : State P M S) (p q : P) (store : M → S → S) (m : M) (ms : List M)
    (l : Program P M S) : State P M S :=
  ⟨Function.update s.rest p l, Function.update s.channel q (Function.update (s.channel q) p ms),
    Function.update s.memory p (store m (s.memory p))⟩

section
variable {p q : P} {b : Nat} {store : M → S → S} {m : M} {ms : List M} {l : Program P M S}

theorem sent_afterRecv (hrest : s.rest p = (b,.recv q store)::l) (a c : P) :
    sent ((s.afterRecv p q store m ms l).rest a) c = sent (s.rest a) c := by
  by_cases ha : a = p
  · subst ha
    simp [State.afterRecv,hrest,sent]
  · simp [State.afterRecv,ha]

theorem before_afterRecv (hrest : s.rest p = (b,.recv q store)::l) (a c : P) (d : Nat) :
    sent (before d ((s.afterRecv p q store m ms l).rest a)) c = sent (before d (s.rest a)) c := by
  by_cases ha : a = p
  · subst ha
    simp [State.afterRecv,hrest,sent_before_recv]
  · simp [State.afterRecv,ha]

theorem channel_afterRecv {a c : P} (hac : ¬ (a = q ∧ c = p)) :
    (s.afterRecv p q store m ms l).channel a c = s.channel a c := by
  by_cases ha : a = q
  · subst ha
    have hc : c ≠ p := fun hc => hac ⟨rfl,hc⟩
    simp [State.afterRecv,hc]
  · simp [State.afterRecv,ha]

theorem incoming_afterRecv (hrest : s.rest p = (b,.recv q store)::l)
    (hchannel : s.channel q p = m::ms) :
    s.incoming q p = m::(s.afterRecv p q store m ms l).incoming q p := by
  simp only [State.incoming,sent_afterRecv hrest,hchannel,List.cons_append]
  simp [State.afterRecv]

theorem incoming_afterRecv_of_ne (hrest : s.rest p = (b,.recv q store)::l) {a c : P}
    (hac : ¬ (a = q ∧ c = p)) :
    (s.afterRecv p q store m ms l).incoming a c = s.incoming a c := by
  rw [State.incoming,State.incoming,sent_afterRecv hrest,channel_afterRecv hac]

theorem Invariant.recv_balanced (h : Invariant prog mem s)
    (hrest : s.rest p = (b,.recv q store)::l) (hchannel : s.channel q p = m::ms) (a c : P) :
    ((s.afterRecv p q store m ms l).incoming a c).length =
      expects ((s.afterRecv p q store m ms l).rest c) a := by
  have hbalanced := h.balanced a c
  by_cases hc : c = p
  · subst hc
    rw [hrest] at hbalanced
    by_cases ha : a = q
    · subst ha
      rw [incoming_afterRecv hrest hchannel] at hbalanced
      simpa [State.afterRecv,expects,receives] using hbalanced
    · rw [incoming_afterRecv_of_ne hrest fun hac => ha hac.1]
      simpa [State.afterRecv,expects,receives,Ne.symm ha] using hbalanced
  · rw [incoming_afterRecv_of_ne hrest fun hac => hc hac.2,hbalanced]
    simp [State.afterRecv,hc]

theorem Invariant.recv_early (h : Invariant prog mem s)
    (hrest : s.rest p = (b,.recv q store)::l) (hchannel : s.channel q p = m::ms) (a c : P) (d : Nat) :
    expects (upTo d ((s.afterRecv p q store m ms l).rest c)) a ≤
      ((s.afterRecv p q store m ms l).channel a c).length +
        (sent (before d ((s.afterRecv p q store m ms l).rest a)) c).length := by
  have hearly := h.early a c d
  rw [before_afterRecv hrest]
  by_cases hc : c = p
  · subst hc
    have hrest' : (s.afterRecv c q store m ms l).rest c = l := Function.update_self _ _ _
    rw [hrest']
    rw [hrest,expects_upTo_recv] at hearly
    by_cases hd : b ≤ d
    · by_cases ha : a = q
      · subst ha
        rw [hchannel,if_pos ⟨hd,rfl⟩,List.length_cons] at hearly
        simp only [State.afterRecv,Function.update_self]
        omega
      · rw [channel_afterRecv fun hac => ha hac.1]
        omega
    · have hsorted := h.sorted c
      rw [hrest,List.pairwise_cons] at hsorted
      rw [upTo_eq_nil fun x hx => Nat.lt_of_lt_of_le (Nat.lt_of_not_le hd) (hsorted.1 x hx)]
      exact Nat.zero_le _
  · have hrest' : (s.afterRecv p q store m ms l).rest c = s.rest c := Function.update_of_ne hc _ _
    rw [hrest',channel_afterRecv fun hac => hc hac.2]
    exact hearly

theorem Invariant.recv_outcome (h : Invariant prog mem s)
    (hrest : s.rest p = (b,.recv q store)::l) (hchannel : s.channel q p = m::ms) (a : P) :
    absorb (receives ((s.afterRecv p q store m ms l).rest a))
        (fun c => (s.afterRecv p q store m ms l).incoming c a)
        ((s.afterRecv p q store m ms l).memory a) =
      absorb (receives (prog a)) (fun c => sent (prog c) a) (mem a) := by
  rw [← h.outcome a]
  by_cases ha : a = p
  · subst ha
    have hrest' : (s.afterRecv a q store m ms l).rest a = l := Function.update_self _ _ _
    have hmemory : (s.afterRecv a q store m ms l).memory a = store m (s.memory a) :=
      Function.update_self _ _ _
    have hincoming := incoming_afterRecv hrest hchannel
    have hupdate : Function.update (fun c => s.incoming c a) q
        ((s.afterRecv a q store m ms l).incoming q a) =
        fun c => (s.afterRecv a q store m ms l).incoming c a := by
      funext c
      by_cases hc : c = q
      · subst hc
        rw [Function.update_self]
      · rw [Function.update_of_ne hc,incoming_afterRecv_of_ne hrest fun hac => hc hac.1]
    rw [hrest,receives,absorb_cons (c := fun c => s.incoming c a) hincoming,hupdate,hrest',hmemory]
  · have hrest' : (s.afterRecv p q store m ms l).rest a = s.rest a := Function.update_of_ne ha _ _
    have hmemory : (s.afterRecv p q store m ms l).memory a = s.memory a :=
      Function.update_of_ne ha _ _
    rw [hrest',hmemory]
    congr 1
    funext c
    exact incoming_afterRecv_of_ne hrest fun hac => ha hac.2

theorem Invariant.recv (h : Invariant prog mem s) (hrest : s.rest p = (b,.recv q store)::l)
    (hchannel : s.channel q p = m::ms) : Invariant prog mem (s.afterRecv p q store m ms l) where
  sorted := pairwise_update h.sorted hrest
  balanced := h.recv_balanced hrest hchannel
  early := h.recv_early hrest hchannel
  outcome := h.recv_outcome hrest hchannel

end

theorem Invariant.step (h : Invariant prog mem s) (hst : Step s t) : Invariant prog mem t := by
  cases hst with
  | send hrest => exact h.send hrest
  | recv hrest hchannel => exact h.recv hrest hchannel

theorem Reachable.invariant (hprog : Scheduled prog) (h : Reachable prog mem s) :
    Invariant prog mem s := by
  induction h with
  | refl => exact hprog.start
  | tail _ hst ih => exact ih.step hst

/-- The party whose next action has the earliest place in the schedule can go on. -/
theorem Invariant.progress (h : Invariant prog mem s) : Finished s ∨ ∃ t, Step s t := by
  classical
  by_cases hfinished : Finished s
  · exact Or.inl hfinished
  right
  let Pending : Nat → Prop := fun b => ∃ p a l, s.rest p = (b,a)::l
  have hpending : ∃ b, Pending b := by
    obtain ⟨p,hp⟩ := not_forall.mp hfinished
    obtain ⟨⟨b,a⟩,l,hrest⟩ := List.exists_cons_of_ne_nil hp
    exact ⟨b,p,a,l,hrest⟩
  obtain ⟨p,a,l,hrest⟩ := Nat.find_spec hpending
  have hleast : ∀ b, Pending b → Nat.find hpending ≤ b := fun b hb => Nat.find_min' hpending hb
  generalize Nat.find hpending = b at hrest hleast
  cases a with
  | send q m => exact ⟨_,Step.send hrest⟩
  | recv q store =>
    cases hchannel : s.channel q p with
    | cons m ms => exact ⟨_,Step.recv hrest hchannel⟩
    | nil =>
      exfalso
      have hearly := h.early q p b
      rw [hchannel,hrest,expects_upTo_recv,if_pos ⟨le_refl b,rfl⟩,List.length_nil] at hearly
      have hbefore : before b (s.rest q) = [] := by
        refine List.filter_eq_nil_iff.mpr fun x hx => ?_
        obtain ⟨⟨c,d⟩,l',hl'⟩ := List.exists_cons_of_ne_nil (List.ne_nil_of_mem hx)
        have hsorted := h.sorted q
        rw [hl',List.pairwise_cons] at hsorted
        rw [hl'] at hx
        have hc : b ≤ c := hleast c ⟨q,d,l',hl'⟩
        have hcx : c ≤ x.1 := by
          rcases List.mem_cons.mp hx with rfl | hx
          · exact le_refl _
          · exact hsorted.1 x hx
        simpa using Nat.le_trans hc hcx
      rw [hbefore,sent,List.length_nil] at hearly
      omega

/-- When all programs are done every channel is empty, and each party holds what its
receives make of the messages sent to it in their order. -/
theorem Invariant.finish (h : Invariant prog mem s) (hs : Finished s) :
    (∀ q p, s.channel q p = []) ∧
      ∀ p, s.memory p = absorb (receives (prog p)) (fun q => sent (prog q) p) (mem p) := by
  refine ⟨fun q p => ?_,fun p => ?_⟩
  · have hbalanced := h.balanced q p
    rw [State.incoming,hs q,hs p,sent,List.append_nil] at hbalanced
    exact List.length_eq_zero_iff.mp hbalanced
  · rw [← h.outcome p,hs p]
    rfl

end

structure Phase (P M S : Type) where
  targets : P → List P
  message : P → P → M
  sources : P → List P
  store : P → P → M → S → S

namespace Phase
variable (ph : Phase P M S)

def actions (j : Nat) (p : P) : Program P M S :=
  (ph.targets p).map (fun q => (2*j,.send q (ph.message p q))) ++
    (ph.sources p).map (fun q => (2*j+1,.recv q (ph.store p q)))

structure Matched : Prop where
  targets_nodup : ∀ p, (ph.targets p).Nodup
  sources_nodup : ∀ p, (ph.sources p).Nodup
  matched : ∀ p q, q ∈ ph.sources p ↔ p ∈ ph.targets q

def result (p : P) (s : S) : S :=
  (ph.sources p).foldl (fun s q => ph.store p q (ph.message q p) s) s

end Phase

def program : Nat → List (Phase P M S) → P → Program P M S
  | _, [], _ => []
  | j, ph::phases, p => ph.actions j p ++ program (j+1) phases p

section
variable {ph : Phase P M S} {phases : List (Phase P M S)}

theorem sent_append (l l' : Program P M S) (p : P) : sent (l ++ l') p = sent l p ++ sent l' p := by
  induction l with
  | nil => rfl
  | cons a l ih =>
    obtain ⟨b,a⟩ := a
    cases a with
    | send q m => by_cases h : q = p <;> simp [sent,h,ih]
    | recv q store => simp [sent,ih]

omit [DecidableEq P] in
theorem receives_append (l l' : Program P M S) : receives (l ++ l') = receives l ++ receives l' := by
  induction l with
  | nil => rfl
  | cons a l ih =>
    obtain ⟨b,a⟩ := a
    cases a <;> simp [receives,ih]

theorem expects_append (l l' : Program P M S) (q : P) :
    expects (l ++ l') q = expects l q + expects l' q := by
  rw [expects,receives_append,List.countP_append,expects,expects]

theorem sent_sends (b : Nat) (f : P → M) (l : List P) (hl : l.Nodup) (p : P) :
    sent (l.map (fun q => (b,(.send q (f q) : Action P M S)))) p = if p ∈ l then [f p] else [] := by
  induction l with
  | nil => rfl
  | cons q l ih =>
    obtain ⟨hq,hl⟩ := List.nodup_cons.mp hl
    rw [List.map_cons,sent,ih hl]
    by_cases h : q = p
    · subst h
      simp [hq]
    · simp [h,Ne.symm h]

theorem sent_recvs (b : Nat) (store : P → M → S → S) (l : List P) (p : P) :
    sent (l.map (fun q => (b,(.recv q (store q) : Action P M S)))) p = [] := by
  induction l with
  | nil => rfl
  | cons q l ih => rw [List.map_cons,sent,ih]

omit [DecidableEq P] in
theorem receives_sends (b : Nat) (f : P → M) (l : List P) :
    receives (l.map (fun q => (b,(.send q (f q) : Action P M S)))) = [] := by
  induction l with
  | nil => rfl
  | cons q l ih => rw [List.map_cons,receives,ih]

omit [DecidableEq P] in
theorem receives_recvs (b : Nat) (store : P → M → S → S) (l : List P) :
    receives (l.map (fun q => (b,(.recv q (store q) : Action P M S)))) =
      l.map (fun q => (q,store q)) := by
  induction l with
  | nil => rfl
  | cons q l ih => rw [List.map_cons,receives,ih,List.map_cons]

omit [DecidableEq P] in
theorem upTo_map (c b : Nat) (f : P → Action P M S) (l : List P) :
    upTo c (l.map (fun q => (b,f q))) = if b ≤ c then l.map (fun q => (b,f q)) else [] := by
  by_cases h : b ≤ c
  · simp [upTo,h]
  · simpa [upTo,h] using fun _ _ => Nat.lt_of_not_le h

omit [DecidableEq P] in
theorem before_map (c b : Nat) (f : P → Action P M S) (l : List P) :
    before c (l.map (fun q => (b,f q))) = if b < c then l.map (fun q => (b,f q)) else [] := by
  by_cases h : b < c
  · simp [before,h]
  · simpa [before,h] using fun _ _ => Nat.le_of_not_lt h

theorem sent_actions (h : ph.Matched) (j : Nat) (q p : P) :
    sent (ph.actions j q) p = if q ∈ ph.sources p then [ph.message q p] else [] := by
  rw [Phase.actions,sent_append,sent_sends _ _ _ (h.targets_nodup q),sent_recvs,List.append_nil]
  exact if_congr (h.matched p q).symm rfl rfl

omit [DecidableEq P] in
theorem receives_actions (j : Nat) (p : P) :
    receives (ph.actions j p) = (ph.sources p).map (fun q => (q,ph.store p q)) := by
  rw [Phase.actions,receives_append,receives_sends,receives_recvs,List.nil_append]

theorem expects_recvs (b : Nat) (store : P → M → S → S) (l : List P) (hl : l.Nodup) (q : P) :
    expects (l.map (fun q => (b,(.recv q (store q) : Action P M S)))) q =
      if q ∈ l then 1 else 0 := by
  rw [expects,receives_recvs,List.countP_map]
  exact hl.count (a := q)

theorem expects_actions (h : ph.Matched) (j : Nat) (p q : P) :
    expects (ph.actions j p) q = if q ∈ ph.sources p then 1 else 0 := by
  have hsends : expects ((ph.targets p).map
      (fun q => (2*j,(.send q (ph.message p q) : Action P M S)))) q = 0 := by
    rw [expects,receives_sends,List.countP_nil]
  rw [Phase.actions,expects_append,hsends,expects_recvs _ _ _ (h.sources_nodup p),Nat.zero_add]

theorem early_actions (h : ph.Matched) (j b : Nat) (p q : P) :
    expects (upTo b (ph.actions j p)) q = (sent (before b (ph.actions j q)) p).length := by
  have hupTo : expects (upTo b (ph.actions j p)) q =
      if 2*j+1 ≤ b then expects (ph.actions j p) q else 0 := by
    rw [Phase.actions,upTo,List.filter_append,← upTo,← upTo,upTo_map,upTo_map]
    by_cases hb : 2*j+1 ≤ b
    · rw [if_pos hb,if_pos (by omega),if_pos hb]
    · rw [if_neg hb,if_neg hb,List.append_nil]
      by_cases hj : 2*j ≤ b
      · rw [if_pos hj,expects,receives_sends,List.countP_nil]
      · rw [if_neg hj]; rfl
  have hbefore : sent (before b (ph.actions j q)) p =
      if 2*j+1 ≤ b then sent (ph.actions j q) p else [] := by
    rw [Phase.actions,before,List.filter_append,← before,← before,before_map,before_map]
    by_cases hb : 2*j+1 ≤ b
    · rw [if_pos (by omega),if_pos hb,sent_append,sent_append,sent_recvs]
      by_cases hj : 2*j+1 < b
      · rw [if_pos hj,sent_recvs]
      · rw [if_neg hj]; rfl
    · rw [if_neg (by omega),if_neg (by omega),if_neg hb]; rfl
  rw [hupTo,hbefore,expects_actions h,sent_actions h]
  by_cases hb : 2*j+1 ≤ b <;> by_cases hq : q ∈ ph.sources p <;> simp [hb,hq]

omit [DecidableEq P] in
theorem le_of_mem_program (j : Nat) (p : P) {a : Nat × Action P M S}
    (ha : a ∈ program j phases p) : 2*j ≤ a.1 := by
  induction phases generalizing j with
  | nil => simp [program] at ha
  | cons ph phases ih =>
    rcases List.mem_append.mp ha with ha | ha
    · rcases List.mem_append.mp ha with ha | ha
      · obtain ⟨q,_,rfl⟩ := List.mem_map.mp ha
        exact Nat.le_refl _
      · obtain ⟨q,_,rfl⟩ := List.mem_map.mp ha
        exact Nat.le_succ _
    · have hle := ih (j+1) ha
      omega

omit [DecidableEq P] in
theorem sorted_program (j : Nat) (p : P) :
    (program j phases p).Pairwise (fun a b => a.1 ≤ b.1) := by
  induction phases generalizing j with
  | nil => exact List.Pairwise.nil
  | cons ph phases ih =>
    have hactions : (ph.actions j p).Pairwise (fun a b => a.1 ≤ b.1) := by
      refine List.pairwise_append.mpr ⟨?_,?_,fun a ha b hb => ?_⟩
      · exact List.pairwise_map.mpr (List.pairwise_of_forall fun _ _ => Nat.le_refl _)
      · exact List.pairwise_map.mpr (List.pairwise_of_forall fun _ _ => Nat.le_refl _)
      · obtain ⟨q,_,rfl⟩ := List.mem_map.mp ha
        obtain ⟨q',_,rfl⟩ := List.mem_map.mp hb
        exact Nat.le_succ _
    refine List.pairwise_append.mpr ⟨hactions,ih (j+1),fun a ha b hb => ?_⟩
    have hle := le_of_mem_program (j+1) p hb
    rcases List.mem_append.mp ha with ha | ha
    · obtain ⟨q,_,rfl⟩ := List.mem_map.mp ha
      omega
    · obtain ⟨q,_,rfl⟩ := List.mem_map.mp ha
      omega

theorem scheduled_program (hph : ∀ ph ∈ phases, ph.Matched) (j : Nat) :
    Scheduled (program j phases) := by
  induction phases generalizing j with
  | nil => exact ⟨fun p => sorted_program j p,fun _ _ => rfl,fun _ _ _ => Nat.le_refl _⟩
  | cons ph phases ih =>
    have hhead := hph ph List.mem_cons_self
    have htail := ih (fun ph h => hph ph (List.mem_cons_of_mem _ h)) (j+1)
    refine ⟨fun p => sorted_program j p,fun q p => ?_,fun q p b => ?_⟩
    · rw [program,program,sent_append,expects_append,List.length_append,htail.balanced,
        sent_actions hhead,expects_actions hhead]
      by_cases hq : q ∈ ph.sources p <;> simp [hq]
    · have hearly := htail.early q p b
      rw [program,program,upTo,before,List.filter_append,List.filter_append,← upTo,← upTo,← before,
        ← before,expects_append,sent_append,List.length_append,early_actions hhead]
      omega

theorem absorb_sources (store : P → M → S → S) (f : P → M) (d : P → List M)
    (rest : List (P × (M → S → S))) (l : List P) (hl : l.Nodup) (c : P → List M)
    (hc : ∀ q, c q = if q ∈ l then f q::d q else d q) (x : S) :
    absorb (l.map (fun q => (q,store q)) ++ rest) c x =
      absorb rest d (l.foldl (fun x q => store q (f q) x) x) := by
  induction l generalizing c x with
  | nil =>
    have hcd : c = d := funext fun q => by rw [hc,if_neg List.not_mem_nil]
    rw [hcd]; rfl
  | cons q l ih =>
    obtain ⟨hq,hl⟩ := List.nodup_cons.mp hl
    have hhead : c q = f q::d q := by rw [hc,if_pos List.mem_cons_self]
    rw [List.map_cons,List.cons_append,absorb_cons hhead,List.foldl_cons]
    refine ih hl _ (fun p => ?_) _
    by_cases hp : p = q
    · subst hp
      rw [Function.update_self,if_neg hq]
    · rw [Function.update_of_ne hp,hc]
      simp [hp]

theorem absorb_program (hph : ∀ ph ∈ phases, ph.Matched) (j : Nat) (p : P) (x : S) :
    absorb (receives (program j phases p)) (fun q => sent (program j phases q) p) x =
      phases.foldl (fun x ph => ph.result p x) x := by
  induction phases generalizing j x with
  | nil => rfl
  | cons ph phases ih =>
    have hhead := hph ph List.mem_cons_self
    rw [program,receives_append,receives_actions,List.foldl_cons,
      ← ih (fun ph h => hph ph (List.mem_cons_of_mem _ h)) (j+1)]
    refine absorb_sources _ (fun q => ph.message q p) _ _ _ (hhead.sources_nodup p) _ (fun q => ?_) x
    rw [program,sent_append,sent_actions hhead]
    by_cases hq : q ∈ ph.sources p <;> simp [hq]

/-- However the steps of the parties interleave, phases that match never block, and
every message goes where it was meant to go. -/
theorem Reachable.exchange {mem : P → S} {s : State P M S} (hph : ∀ ph ∈ phases, ph.Matched)
    (h : Reachable (program 0 phases) mem s) :
    (Finished s ∨ ∃ t, Step s t) ∧ (Finished s → (∀ q p, s.channel q p = []) ∧
      ∀ p, s.memory p = phases.foldl (fun x ph => ph.result p x) (mem p)) := by
  have hinv := h.invariant (scheduled_program hph 0)
  refine ⟨hinv.progress,fun hs => ?_⟩
  obtain ⟨hempty,hmemory⟩ := hinv.finish hs
  exact ⟨hempty,fun p => (hmemory p).trans (absorb_program hph 0 p (mem p))⟩

end
end Channels
