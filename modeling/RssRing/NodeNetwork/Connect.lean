import RssRing.Library.Loops
import RssRing.NodeNetwork.Layout
set_option autoImplicit false

namespace RssRing
namespace Connect

structure Conn where
  client : Nat
  server : Nat
  deriving DecidableEq

structure Rsa (Key Message : Type) where
  publicEncrypt : Nat → Key → Message
  privateDecrypt : Nat → Message → Key
  decrypt_encrypt : ∀ id key, privateDecrypt id (publicEncrypt id key) = key

/-- Where a party stands in `connectToPeers`: before `connect` or in `read` of turn `i` of
`requestConnection`, before `listen`, or in `select` or before `write` of turn `i` of
`acceptPeers`. -/
inductive Phase where
  | request (i : Nat)
  | read (i : Nat)
  | listen
  | select (i : Nat)
  | reply (i : Nat) (newsockfd : Conn)
  | done
  | exited
  deriving DecidableEq

structure State (Key Message : Type) where
  phase : Nat → Phase
  listening : Nat → Bool
  backlog : Nat → List Conn
  wire : Conn → List Message
  peer2sock : Nat → Nat → Option Conn
  /-- The key in `peer2enlist` and `peer2delist`. -/
  peer2key : Nat → Nat → Option Key

def insert {A : Type} (m : Nat → Option A) (key : Nat) (a : A) : Nat → Option A :=
  if (m key).isSome then m else Function.update m key (some a)

def afterRequests (id : Nat) : Phase := if id = 1 then .done else .listen

def nextRequest (n id i : Nat) : Phase := if i < n - id then .request i else afterRequests id

def nextAccept (id i : Nat) : Phase := if i < id - 1 then .select i else .done

section
variable {Key Message : Type} (n : Nat) (rsa : Rsa Key Message) (keyIV : Nat → Nat → Key)

/-- The next system call of party `id` that others see, with what follows it up to the next one.
There is no result where the call waits. `connect` fails where nobody listens. The argument
of `listen` is 7. -/
def step (s : State Key Message) (id : Nat) : Option (State Key Message) :=
  match s.phase id with
  | .request i =>
    let ID := id + i + 1
    if s.listening ID then
      if (s.backlog ID).length < 7 then
        some { s with
          phase := Function.update s.phase id (.read i)
          backlog := Function.update s.backlog ID (s.backlog ID ++ [⟨id,ID⟩])
          peer2sock := Function.update s.peer2sock id (insert (s.peer2sock id) ID ⟨id,ID⟩) }
      else none
    else some { s with phase := Function.update s.phase id .exited }
  | .read i =>
    let ID := id + i + 1
    match s.wire ⟨id,ID⟩ with
    | [] => none
    | message::rest =>
      some { s with
        phase := Function.update s.phase id (nextRequest n id (i+1))
        wire := Function.update s.wire ⟨id,ID⟩ rest
        peer2key := Function.update s.peer2key id
          (insert (s.peer2key id) ID (rsa.privateDecrypt id message)) }
  | .listen =>
    some { s with
      phase := Function.update s.phase id (nextAccept id 0)
      listening := Function.update s.listening id true }
  | .select i =>
    match s.backlog id with
    | [] => none
    | newsockfd::rest =>
      some { s with
        phase := Function.update s.phase id (.reply i newsockfd)
        backlog := Function.update s.backlog id rest
        peer2sock := Function.update s.peer2sock id
          (insert (s.peer2sock id) (id - (i+1)) newsockfd) }
  | .reply i newsockfd =>
    let peer := id - (i+1)
    some { s with
      phase := Function.update s.phase id (nextAccept id (i+1))
      wire := Function.update s.wire newsockfd
        (s.wire newsockfd ++ [rsa.publicEncrypt peer (keyIV id i)])
      peer2key := Function.update s.peer2key id (insert (s.peer2key id) peer (keyIV id i)) }
  | .done => none
  | .exited => none

def start : State Key Message where
  phase p := nextRequest n p 0
  listening _ := false
  backlog _ := []
  wire _ := []
  peer2sock _ _ := none
  peer2key _ _ := none

def run (schedule : List (Fin n)) : Option (State Key Message) :=
  schedule.foldlM (fun s p => step n rsa keyIV s (pid p)) (start n)

end

namespace Phase
variable (n p : Nat)

def asked : Phase → Nat
  | .request i => i
  | .read i => i + 1
  | .exited => 0
  | _ => n - p

def heard : Phase → Nat
  | .request i | .read i => i
  | .exited => 0
  | _ => n - p

def took : Phase → Nat
  | .select i => i
  | .reply i _ => i + 1
  | .done => p - 1
  | _ => 0

def gave : Phase → Nat
  | .select i | .reply i _ => i
  | .done => p - 1
  | _ => 0

def Serves : Phase → Prop
  | .select _ | .reply _ _ | .done => True
  | _ => False

def steps : Phase → Nat
  | .request i => 2*i
  | .read i => 2*i + 1
  | .listen => 2*(n-p)
  | .select i => 2*(n-p) + 2*i + 1
  | .reply i _ => 2*(n-p) + 2*i + 2
  | .done => 2*(n-p) + if p = 1 then 0 else 2*(p-1) + 1
  | .exited => 0

/-- The turns stay below their bounds, and turn `i` serves the party `i + 1` places before. -/
def Fits : Phase → Prop
  | .request i | .read i => i < n - p
  | .listen => 1 < p
  | .select i => i < p - 1
  | .reply i sock => i < p - 1 ∧ sock = ⟨p - (i+1),p⟩
  | _ => True

end Phase

section
variable {Key Message : Type} {n : Nat} {rsa : Rsa Key Message} {keyIV : Nat → Nat → Key}

structure Counts where
  asked : Nat → Nat
  heard : Nat → Nat
  took : Nat → Nat
  gave : Nat → Nat

/-- Party `p` and the party `d + 1` places after it have to do with each other in turn `d` of
both, and the counts say all about the connection between them. -/
structure Invariant (n : Nat) (rsa : Rsa Key Message) (keyIV : Nat → Nat → Key) (c : Counts)
    (s : State Key Message) : Prop where
  fits : ∀ p, 1 ≤ p → p ≤ n → (s.phase p).Fits n p
  counts : ∀ p, 1 ≤ p → p ≤ n → c.asked p = (s.phase p).asked n p ∧
    c.heard p = (s.phase p).heard n p ∧ c.took p = (s.phase p).took p ∧
    c.gave p = (s.phase p).gave p
  listening : ∀ p, 1 ≤ p → p ≤ n → (s.listening p = true ↔ (s.phase p).Serves ∧ p ≠ 1)
  first : ∀ p, 1 ≤ p → p + 1 ≤ n → 0 < c.asked p → s.listening (p+1) = true
  reached : ∀ p d, 1 ≤ p → p + d + 1 ≤ n → d < c.took (p+d+1) → d < c.asked p
  replied : ∀ p d, 1 ≤ p → p + d + 1 ≤ n → d < c.heard p → d < c.gave (p+d+1)
  backlog : ∀ p d, 1 ≤ p → p + d + 1 ≤ n → c.took (p+d+1) = d →
    s.backlog (p+d+1) = if d < c.asked p then [⟨p,p+d+1⟩] else []
  served : ∀ p, 1 ≤ p → p ≤ n → p ≤ c.took p + 1 → s.backlog p = []
  wire : ∀ p d, 1 ≤ p → p + d + 1 ≤ n → s.wire ⟨p,p+d+1⟩ =
    if c.heard p ≤ d ∧ d < c.gave (p+d+1) then [rsa.publicEncrypt p (keyIV (p+d+1) d)] else []
  clientSock : ∀ p d, 1 ≤ p → p + d + 1 ≤ n →
    s.peer2sock p (p+d+1) = if d < c.asked p then some ⟨p,p+d+1⟩ else none
  serverSock : ∀ p d, 1 ≤ p → p + d + 1 ≤ n →
    s.peer2sock (p+d+1) p = if d < c.took (p+d+1) then some ⟨p,p+d+1⟩ else none
  clientKey : ∀ p d, 1 ≤ p → p + d + 1 ≤ n →
    s.peer2key p (p+d+1) = if d < c.heard p then some (keyIV (p+d+1) d) else none
  serverKey : ∀ p d, 1 ≤ p → p + d + 1 ≤ n →
    s.peer2key (p+d+1) p = if d < c.gave (p+d+1) then some (keyIV (p+d+1) d) else none

namespace Phase
variable {id i : Nat}

@[simp] theorem asked_nextRequest (h : i ≤ n - id) : (nextRequest n id i).asked n id = i := by
  unfold nextRequest afterRequests
  split
  · rfl
  · split <;> simp only [asked] <;> omega

@[simp] theorem heard_nextRequest (h : i ≤ n - id) : (nextRequest n id i).heard n id = i := by
  unfold nextRequest afterRequests
  split
  · rfl
  · split <;> simp only [heard] <;> omega

@[simp] theorem took_nextRequest : (nextRequest n id i).took id = 0 := by
  unfold nextRequest afterRequests
  split
  · rfl
  · split <;> simp only [took]
    omega

@[simp] theorem gave_nextRequest : (nextRequest n id i).gave id = 0 := by
  unfold nextRequest afterRequests
  split
  · rfl
  · split <;> simp only [gave]
    omega

theorem serves_nextRequest : ¬ ((nextRequest n id i).Serves ∧ id ≠ 1) := by
  unfold nextRequest afterRequests
  split
  · exact fun h => h.1
  · split
    · exact fun h => h.2 ‹_›
    · exact fun h => h.1

theorem fits_nextRequest (hid : 1 ≤ id) : (nextRequest n id i).Fits n id := by
  unfold nextRequest afterRequests
  split
  · assumption
  · split
    · trivial
    · simp only [Fits]
      omega

@[simp] theorem asked_nextAccept : (nextAccept id i).asked n id = n - id := by
  unfold nextAccept
  split <;> rfl

@[simp] theorem heard_nextAccept : (nextAccept id i).heard n id = n - id := by
  unfold nextAccept
  split <;> rfl

@[simp] theorem took_nextAccept (h : i ≤ id - 1) : (nextAccept id i).took id = i := by
  unfold nextAccept
  split <;> simp only [took]
  omega

@[simp] theorem gave_nextAccept (h : i ≤ id - 1) : (nextAccept id i).gave id = i := by
  unfold nextAccept
  split <;> simp only [gave]
  omega

theorem serves_nextAccept : (nextAccept id i).Serves := by
  unfold nextAccept
  split <;> trivial

theorem fits_nextAccept : (nextAccept id i).Fits n id := by
  unfold nextAccept
  split
  · assumption
  · trivial

theorem steps_nextRequest (h : i ≤ n - id) : (nextRequest n id i).steps n id = 2*i := by
  unfold nextRequest afterRequests
  split
  · rfl
  · split <;> simp only [steps]
    · rw [if_pos ‹_›]
      omega
    · omega

theorem steps_nextAccept (hid : 1 < id) (h : i ≤ id - 1) :
    (nextAccept id i).steps n id = 2*(n-id) + 2*i + 1 := by
  unfold nextAccept
  split <;> simp only [steps]
  rw [if_neg (by omega)]
  omega

theorem gave_le_took (ph : Phase) : ph.gave id ≤ ph.took id := by
  cases ph <;> simp [gave,took]

theorem heard_le_asked (ph : Phase) : ph.heard n id ≤ ph.asked n id := by
  cases ph <;> simp [heard,asked]

theorem heard_of_serves {ph : Phase} (h : ph.Serves) : ph.heard n id = n - id := by
  cases ph <;> first | rfl | exact h.elim

theorem serves_of_gave {ph : Phase} (h : 0 < ph.gave id) : ph.Serves := by
  cases ph <;> trivial

end Phase

theorem update_update {A : Type} (f : Nat → Nat → A) (p q : Nat) (a : A) (p' q' : Nat) :
    Function.update f p (Function.update (f p) q a) p' q' = if p' = p ∧ q' = q then a else f p' q' := by
  rcases eq_or_ne p' p with rfl | hp
  · simp [Function.update_apply]
  · simp [hp]

theorem insert_apply {A : Type} {m : Nat → Option A} {key : Nat} (h : m key = none) (a : A) :
    insert m key a = Function.update m key (some a) := by
  rw [insert,h,Option.isSome_none,if_neg Bool.false_ne_true]

namespace Invariant
variable {c : Counts} {s : State Key Message} (h : Invariant n rsa keyIV c s) {id d i : Nat}
include h

/-- A party that has asked for a connection has found the next one with all its keys. -/
theorem heard_next {p : Nat} (hp : 1 ≤ p) (hn : p + 1 ≤ n) (hasked : 0 < c.asked p) :
    c.heard (p+1) = n - (p+1) := by
  have hserves := ((h.listening (p+1) (by omega) hn).mp (h.first p hp hn hasked)).1
  rw [(h.counts (p+1) (by omega) hn).2.1,Phase.heard_of_serves hserves]

theorem gave_le_took {p : Nat} (hp : 1 ≤ p) (hn : p ≤ n) : c.gave p ≤ c.took p := by
  obtain ⟨_,_,htook,hgave⟩ := h.counts p hp hn
  rw [htook,hgave]
  exact Phase.gave_le_took _

theorem heard_le_asked {p : Nat} (hp : 1 ≤ p) (hn : p ≤ n) : c.heard p ≤ c.asked p := by
  obtain ⟨hasked,hheard,_⟩ := h.counts p hp hn
  rw [hasked,hheard]
  exact Phase.heard_le_asked _

/-- No party is asked by two others at a time: the one before has been given its key. -/
theorem gave_next {p : Nat} (hp : 1 ≤ p) (hn : p + (d+1) + 1 ≤ n) (hasked : 0 < c.asked p) :
    d < c.gave (p+(d+1)+1) := by
  have hheard := h.heard_next hp (by omega) hasked
  have hgave := h.replied (p+1) d (by omega) (by omega) (by omega)
  rwa [show p + 1 + d + 1 = p + (d+1) + 1 by omega] at hgave

theorem took_eq (hid : 1 ≤ id) (hn : id + i + 1 ≤ n) (hasked : c.asked id = i) :
    c.took (id+i+1) = i := by
  have hle : ¬ i < c.took (id+i+1) := fun hlt => by
    have := h.reached id i hid hn hlt
    omega
  cases i with
  | zero => omega
  | succ i =>
    have hgave := h.gave_next hid hn (by omega)
    have htook := h.gave_le_took (p := id+(i+1)+1) (by omega) hn
    omega

theorem fits_update {ph : Phase} (hph : ph.Fits n id) (p : Nat) (hp : 1 ≤ p) (hn : p ≤ n) :
    (Function.update s.phase id ph p).Fits n p := by
  rcases eq_or_ne p id with rfl | hne
  · rwa [Function.update_self]
  · rw [Function.update_of_ne hne]
    exact h.fits p hp hn

theorem listening_update {ph : Phase} (hph : ph.Serves ∧ id ≠ 1 ↔ (s.phase id).Serves ∧ id ≠ 1)
    (p : Nat) (hp : 1 ≤ p) (hn : p ≤ n) :
    s.listening p = true ↔ (Function.update s.phase id ph p).Serves ∧ p ≠ 1 := by
  rw [h.listening p hp hn]
  rcases eq_or_ne p id with rfl | hne
  · rw [Function.update_self,hph]
  · rw [Function.update_of_ne hne]

theorem fits_eq {ph : Phase} (hid : 1 ≤ id) (hn : id ≤ n) (hphase : s.phase id = ph) :
    ph.Fits n id := hphase ▸ h.fits id hid hn

theorem counts_eq {ph : Phase} (hid : 1 ≤ id) (hn : id ≤ n) (hphase : s.phase id = ph) :
    c.asked id = ph.asked n id ∧ c.heard id = ph.heard n id ∧ c.took id = ph.took id ∧
      c.gave id = ph.gave id := hphase ▸ h.counts id hid hn

theorem connect (hid : 1 ≤ id) (hn : id ≤ n) (hphase : s.phase id = .request i)
    (hlisten : s.listening (id+i+1) = true) :
    Invariant n rsa keyIV { c with asked := Function.update c.asked id (i+1) } { s with
      phase := Function.update s.phase id (.read i)
      backlog := Function.update s.backlog (id+i+1) (s.backlog (id+i+1) ++ [⟨id,id+i+1⟩])
      peer2sock := Function.update s.peer2sock id
        (insert (s.peer2sock id) (id+i+1) ⟨id,id+i+1⟩) } := by
  have hfits : i < n - id := h.fits_eq hid hn hphase
  obtain ⟨hasked,hheard,htook,hgave⟩ : c.asked id = i ∧ c.heard id = i ∧ c.took id = 0 ∧
    c.gave id = 0 := h.counts_eq hid hn hphase
  have hnext := h.took_eq hid (by omega) hasked
  have hnone : s.peer2sock id (id+i+1) = none := by
    rw [h.clientSock id i hid (by omega),hasked,if_neg (Nat.lt_irrefl i)]
  rw [insert_apply hnone]
  refine { h with
    fits := h.fits_update hfits
    counts := fun p hp hpn => ?counts
    listening := h.listening_update (by rw [hphase]; rfl)
    first := fun p hp hpn hpos => ?first
    reached := fun p d hp hpn hd => ?reached
    backlog := fun p d hp hpn hd => ?backlog
    served := fun p hp hpn hall => ?served
    clientSock := fun p d hp hpn => ?clientSock
    serverSock := fun p d hp hpn => ?serverSock }
  case counts =>
    have hold := h.counts p hp hpn
    grind [Phase.asked,Phase.heard,Phase.took,Phase.gave]
  case first =>
    have hold := h.first p hp hpn
    grind
  case reached =>
    have hold := h.reached p d hp hpn hd
    grind
  case backlog =>
    have hold := h.backlog p d hp hpn hd
    grind
  case served =>
    have hold := h.served p hp hpn hall
    grind
  case clientSock =>
    simp only [update_update,h.clientSock p d hp hpn]
    grind
  case serverSock =>
    simp only [update_update,h.serverSock p d hp hpn]
    rw [if_neg (by omega)]

theorem giveUp (hid : 1 ≤ id) (hn : id ≤ n) (hphase : s.phase id = .request i)
    (hlisten : s.listening (id+i+1) = false) :
    i = 0 ∧ Invariant n rsa keyIV c { s with phase := Function.update s.phase id .exited } := by
  have hfits : i < n - id := h.fits_eq hid hn hphase
  obtain ⟨hasked,hheard,htook,hgave⟩ : c.asked id = i ∧ c.heard id = i ∧ c.took id = 0 ∧
    c.gave id = 0 := h.counts_eq hid hn hphase
  have hfirst : i = 0 := by
    by_contra hne
    obtain ⟨d,rfl⟩ := Nat.exists_eq_succ_of_ne_zero hne
    have hnext := h.gave_next (d := d) hid (by omega) (by omega)
    rw [(h.counts (id+(d+1)+1) (by omega) (by omega)).2.2.2] at hnext
    have hserves := (h.listening (id+(d+1)+1) (by omega) (by omega)).mpr
      ⟨Phase.serves_of_gave (Nat.zero_lt_of_lt hnext),by omega⟩
    rw [hserves] at hlisten
    cases hlisten
  refine ⟨hfirst,{ h with
    fits := h.fits_update trivial
    counts := fun p hp hpn => ?_
    listening := h.listening_update (by rw [hphase]; rfl) }⟩
  have hold := h.counts p hp hpn
  grind [Phase.asked,Phase.heard,Phase.took,Phase.gave]

theorem readKey {message : Message} {rest : List Message} (hid : 1 ≤ id) (hn : id ≤ n)
    (hphase : s.phase id = .read i) (hwire : s.wire ⟨id,id+i+1⟩ = message::rest) :
    Invariant n rsa keyIV { c with heard := Function.update c.heard id (i+1) } { s with
      phase := Function.update s.phase id (nextRequest n id (i+1))
      wire := Function.update s.wire ⟨id,id+i+1⟩ rest
      peer2key := Function.update s.peer2key id
        (insert (s.peer2key id) (id+i+1) (rsa.privateDecrypt id message)) } := by
  have hfits : i < n - id := h.fits_eq hid hn hphase
  obtain ⟨hasked,hheard,htook,hgave⟩ : c.asked id = i+1 ∧ c.heard id = i ∧ c.took id = 0 ∧
    c.gave id = 0 := h.counts_eq hid hn hphase
  have hnone : s.peer2key id (id+i+1) = none := by
    rw [h.clientKey id i hid (by omega),hheard,if_neg (Nat.lt_irrefl i)]
  obtain ⟨hsent,hmessage,hrest⟩ : i < c.gave (id+i+1) ∧
      message = rsa.publicEncrypt id (keyIV (id+i+1) i) ∧ rest = [] := by
    have hall := h.wire id i hid (by omega)
    rw [hwire,hheard] at hall
    grind
  rw [insert_apply hnone,hmessage,rsa.decrypt_encrypt,hrest]
  refine { h with
    fits := h.fits_update (Phase.fits_nextRequest hid)
    counts := fun p hp hpn => ?counts
    listening := h.listening_update ?listening
    replied := fun p d hp hpn hd => ?replied
    wire := fun p d hp hpn => ?wire
    clientKey := fun p d hp hpn => ?clientKey
    serverKey := fun p d hp hpn => ?serverKey }
  case counts =>
    have hold := h.counts p hp hpn
    grind [Phase.asked_nextRequest,Phase.heard_nextRequest,Phase.took_nextRequest,
      Phase.gave_nextRequest]
  case listening =>
    rw [hphase]
    exact iff_of_false Phase.serves_nextRequest (fun h => h.1)
  case replied =>
    have hold := h.replied p d hp hpn
    grind
  case wire =>
    have hold := h.wire p d hp hpn
    grind
  case clientKey =>
    simp only [update_update,h.clientKey p d hp hpn]
    grind
  case serverKey =>
    simp only [update_update,h.serverKey p d hp hpn]
    rw [if_neg (by omega)]

theorem listen (hid : 1 ≤ id) (hn : id ≤ n) (hphase : s.phase id = .listen) :
    Invariant n rsa keyIV c { s with
      phase := Function.update s.phase id (nextAccept id 0)
      listening := Function.update s.listening id true } := by
  have hfits : 1 < id := h.fits_eq hid hn hphase
  obtain ⟨hasked,hheard,htook,hgave⟩ : c.asked id = n - id ∧ c.heard id = n - id ∧
    c.took id = 0 ∧ c.gave id = 0 := h.counts_eq hid hn hphase
  refine { h with
    fits := h.fits_update Phase.fits_nextAccept
    counts := fun p hp hpn => ?counts
    listening := fun p hp hpn => ?listening
    first := fun p hp hpn hpos => ?first }
  case counts =>
    have hold := h.counts p hp hpn
    grind [Phase.asked_nextAccept,Phase.heard_nextAccept,Phase.took_nextAccept,
      Phase.gave_nextAccept]
  case listening =>
    rcases eq_or_ne p id with rfl | hne
    · simp only [Function.update_self]
      exact iff_of_true trivial ⟨Phase.serves_nextAccept,by omega⟩
    · simp only [Function.update_of_ne hne]
      exact h.listening p hp hpn
  case first =>
    have hold := h.first p hp hpn hpos
    grind

theorem accept {sock : Conn} {rest : List Conn} (hid : 1 ≤ id) (hn : id ≤ n)
    (hphase : s.phase id = .select i) (hbacklog : s.backlog id = sock::rest) :
    Invariant n rsa keyIV { c with took := Function.update c.took id (i+1) } { s with
      phase := Function.update s.phase id (.reply i sock)
      backlog := Function.update s.backlog id rest
      peer2sock := Function.update s.peer2sock id
        (insert (s.peer2sock id) (id - (i+1)) sock) } := by
  have hfits : i < id - 1 := h.fits_eq hid hn hphase
  obtain ⟨hasked,hheard,htook,hgave⟩ : c.asked id = n - id ∧ c.heard id = n - id ∧
    c.took id = i ∧ c.gave id = i := h.counts_eq hid hn hphase
  obtain ⟨p₀,hp₀,rfl⟩ : ∃ p₀, 1 ≤ p₀ ∧ id = p₀ + i + 1 := ⟨id - (i+1),by omega,by omega⟩
  have hlabel : p₀ + i + 1 - (i+1) = p₀ := by omega
  obtain ⟨hpending,rfl,rfl⟩ : i < c.asked p₀ ∧ sock = ⟨p₀,p₀+i+1⟩ ∧ rest = [] := by
    have hall := h.backlog p₀ i hp₀ hn htook
    rw [hbacklog] at hall
    grind
  have hnone : s.peer2sock (p₀+i+1) p₀ = none := by
    rw [h.serverSock p₀ i hp₀ hn,htook,if_neg (Nat.lt_irrefl i)]
  rw [hlabel,insert_apply hnone]
  refine { h with
    fits := h.fits_update ⟨hfits,by rw [hlabel]⟩
    counts := fun p hp hpn => ?counts
    listening := h.listening_update (by rw [hphase]; rfl)
    reached := fun p d hp hpn hd => ?reached
    backlog := fun p d hp hpn hd => ?backlog
    served := fun p hp hpn hall => ?served
    clientSock := fun p d hp hpn => ?clientSock
    serverSock := fun p d hp hpn => ?serverSock }
  case counts =>
    have hold := h.counts p hp hpn
    grind [Phase.asked,Phase.heard,Phase.took,Phase.gave]
  case reached =>
    have hold := h.reached p d hp hpn
    grind
  case backlog =>
    rcases eq_or_ne (p+d+1) (p₀+i+1) with heq | hne
    · have hturn : Function.update c.took (p₀+i+1) (i+1) (p+d+1) = d := hd
      rw [heq,Function.update_self] at hturn
      have hidle : ¬ i+1 < c.asked p := fun hlt => by
        have hgiven := h.gave_next (d := i) hp (by omega) (by omega)
        grind
      grind
    · have hold := h.backlog p d hp hpn
      grind
  case served =>
    have hold := h.served p hp hpn
    grind
  case clientSock =>
    simp only [update_update,h.clientSock p d hp hpn]
    rw [if_neg (by omega)]
  case serverSock =>
    simp only [update_update,h.serverSock p d hp hpn]
    grind

theorem reply {sock : Conn} (hid : 1 ≤ id) (hn : id ≤ n) (hphase : s.phase id = .reply i sock) :
    Invariant n rsa keyIV { c with gave := Function.update c.gave id (i+1) } { s with
      phase := Function.update s.phase id (nextAccept id (i+1))
      wire := Function.update s.wire sock
        (s.wire sock ++ [rsa.publicEncrypt (id - (i+1)) (keyIV id i)])
      peer2key := Function.update s.peer2key id
        (insert (s.peer2key id) (id - (i+1)) (keyIV id i)) } := by
  obtain ⟨hfits,rfl⟩ : i < id - 1 ∧ sock = ⟨id - (i+1),id⟩ := h.fits_eq hid hn hphase
  obtain ⟨hasked,hheard,htook,hgave⟩ : c.asked id = n - id ∧ c.heard id = n - id ∧
    c.took id = i+1 ∧ c.gave id = i := h.counts_eq hid hn hphase
  obtain ⟨p₀,hp₀,rfl⟩ : ∃ p₀, 1 ≤ p₀ ∧ id = p₀ + i + 1 := ⟨id - (i+1),by omega,by omega⟩
  have hlabel : p₀ + i + 1 - (i+1) = p₀ := by omega
  have hnone : s.peer2key (p₀+i+1) p₀ = none := by
    rw [h.serverKey p₀ i hp₀ hn,hgave,if_neg (Nat.lt_irrefl i)]
  have hearlier : c.heard p₀ ≤ i := by
    by_contra hlt
    have := h.replied p₀ i hp₀ hn (by omega)
    omega
  have hempty : s.wire ⟨p₀,p₀+i+1⟩ = [] := by
    rw [h.wire p₀ i hp₀ hn,hgave,if_neg (by omega)]
  rw [hlabel,insert_apply hnone,hempty,List.nil_append]
  refine { h with
    fits := h.fits_update Phase.fits_nextAccept
    counts := fun p hp hpn => ?counts
    listening := h.listening_update (by
      rw [hphase]
      exact and_congr_left fun _ => iff_of_true Phase.serves_nextAccept trivial)
    replied := fun p d hp hpn hd => ?replied
    wire := fun p d hp hpn => ?wire
    clientKey := fun p d hp hpn => ?clientKey
    serverKey := fun p d hp hpn => ?serverKey }
  case counts =>
    have hold := h.counts p hp hpn
    grind [Phase.asked_nextAccept,Phase.heard_nextAccept,Phase.took_nextAccept,
      Phase.gave_nextAccept]
  case replied =>
    have hold := h.replied p d hp hpn hd
    grind
  case wire =>
    have hold := h.wire p d hp hpn
    grind
  case clientKey =>
    simp only [update_update,h.clientKey p d hp hpn]
    rw [if_neg (by omega)]
  case serverKey =>
    simp only [update_update,h.serverKey p d hp hpn]
    grind

end Invariant

theorem start_invariant : Invariant n rsa keyIV ⟨fun _ => 0,fun _ => 0,fun _ => 0,fun _ => 0⟩
    (start n) := by
  constructor
  case fits => exact fun p hp _ => Phase.fits_nextRequest hp
  case counts => intro p hp hpn; simp [start]
  case listening =>
    intro p hp hpn
    exact iff_of_false Bool.false_ne_true Phase.serves_nextRequest
  all_goals simp [start]

/-- What one step does to the phases: a party gives up before it has any connection, or goes
on. -/
theorem step_invariant {c : Counts} {s s' : State Key Message} (h : Invariant n rsa keyIV c s)
    {id : Nat} (hid : 1 ≤ id) (hn : id ≤ n) (hstep : step n rsa keyIV s id = some s') :
    ∃ c' ph, Invariant n rsa keyIV c' s' ∧ s'.phase = Function.update s.phase id ph ∧
      (ph = .exited ∨ ph.steps n id = (s.phase id).steps n id + 1) := by
  have hfits := h.fits id hid hn
  cases hphase : s.phase id with
  | request i =>
    rw [hphase] at hfits
    simp only [step,hphase] at hstep
    cases hlisten : s.listening (id+i+1) with
    | false =>
      rw [hlisten,if_neg Bool.false_ne_true,Option.some.injEq] at hstep
      subst hstep
      exact ⟨_,_,(h.giveUp hid hn hphase hlisten).2,rfl,.inl rfl⟩
    | true =>
      rw [hlisten,if_pos rfl] at hstep
      split at hstep
      · rw [Option.some.injEq] at hstep
        subst hstep
        exact ⟨_,_,h.connect hid hn hphase hlisten,rfl,.inr rfl⟩
      · cases hstep
  | read i =>
    rw [hphase] at hfits
    simp only [step,hphase] at hstep
    cases hwire : s.wire ⟨id,id+i+1⟩ with
    | nil => simp only [hwire] at hstep; cases hstep
    | cons message rest =>
      simp only [hwire,Option.some.injEq] at hstep
      subst hstep
      refine ⟨_,_,h.readKey hid hn hphase hwire,rfl,.inr ?_⟩
      have hturn : i < n - id := hfits
      rw [Phase.steps_nextRequest (by omega),Phase.steps]
      omega
  | listen =>
    rw [hphase] at hfits
    simp only [step,hphase,Option.some.injEq] at hstep
    subst hstep
    refine ⟨_,_,h.listen hid hn hphase,rfl,.inr ?_⟩
    rw [Phase.steps_nextAccept hfits (by omega),Phase.steps]
  | select i =>
    simp only [step,hphase] at hstep
    cases hbacklog : s.backlog id with
    | nil => simp only [hbacklog] at hstep; cases hstep
    | cons sock rest =>
      simp only [hbacklog,Option.some.injEq] at hstep
      subst hstep
      exact ⟨_,_,h.accept hid hn hphase hbacklog,rfl,.inr rfl⟩
  | reply i sock =>
    rw [hphase] at hfits
    simp only [step,hphase,Option.some.injEq] at hstep
    subst hstep
    refine ⟨_,_,h.reply hid hn hphase,rfl,.inr ?_⟩
    have hturn : i < id - 1 := hfits.1
    rw [Phase.steps_nextAccept (by omega) (by omega),Phase.steps]
    omega
  | done => simp only [step,hphase] at hstep; cases hstep
  | exited => simp only [step,hphase] at hstep; cases hstep

def allSteps (n : Nat) (s : State Key Message) : Nat :=
  ∑ p : Fin n, (s.phase (pid p)).steps n (pid p)

theorem pid_bounds (p : Fin n) : 1 ≤ pid p ∧ pid p ≤ n := by
  have := p.isLt
  simp only [pid]
  omega

theorem exists_pid {q : Nat} (hq : 1 ≤ q) (hn : q ≤ n) : ∃ p : Fin n, pid p = q :=
  ⟨⟨q-1,by omega⟩,Nat.sub_add_cancel hq⟩

theorem allSteps_update {s s' : State Key Message} {p : Fin n} {ph : Phase}
    (hs' : s'.phase = Function.update s.phase (pid p) ph)
    (hph : ph.steps n (pid p) = (s.phase (pid p)).steps n (pid p) + 1) :
    allSteps n s' = allSteps n s + 1 := by
  have hrest : ∀ q ∈ Finset.univ.erase p, (s'.phase (pid q)).steps n (pid q) =
      (s.phase (pid q)).steps n (pid q) := by
    intro q hq
    have hne : pid q ≠ pid p := fun heq =>
      Finset.ne_of_mem_erase hq (Fin.ext (Nat.succ_injective heq))
    rw [hs',Function.update_of_ne hne]
  rw [allSteps,allSteps,← Finset.add_sum_erase _ _ (Finset.mem_univ p),
    ← Finset.add_sum_erase _ _ (Finset.mem_univ p),Finset.sum_congr rfl hrest,hs',
    Function.update_self,hph]
  omega

theorem run_invariant {schedule : List (Fin n)} {s : State Key Message}
    (hrun : run n rsa keyIV schedule = some s) :
    (∃ c, Invariant n rsa keyIV c s) ∧
      ((∀ p : Fin n, s.phase (pid p) ≠ .exited) → allSteps n s = schedule.length) := by
  have hkeep : ∀ k s (p : Fin n) s', ((∃ c, Invariant n rsa keyIV c s) ∧
      ((∀ p : Fin n, s.phase (pid p) ≠ .exited) → allSteps n s = k)) →
      step n rsa keyIV s (pid p) = some s' → (∃ c, Invariant n rsa keyIV c s') ∧
        ((∀ p : Fin n, s'.phase (pid p) ≠ .exited) → allSteps n s' = k+1) := by
    rintro k s p s' ⟨⟨c,h⟩,hcount⟩ hstep
    obtain ⟨hid,hn⟩ := pid_bounds p
    obtain ⟨c',ph,h',hphase,hmove⟩ := step_invariant h hid hn hstep
    refine ⟨⟨c',h'⟩,fun hstay => ?_⟩
    have hself : ph ≠ .exited := by
      have := hstay p
      rwa [hphase,Function.update_self] at this
    have hbefore : ∀ q : Fin n, s.phase (pid q) ≠ .exited := by
      intro q hexited
      rcases eq_or_ne (pid q) (pid p) with heq | hne
      · rw [step,← heq,hexited] at hstep
        cases hstep
      · refine hstay q ?_
        rw [hphase,Function.update_of_ne hne,hexited]
    rw [allSteps_update hphase (hmove.resolve_left hself),hcount hbefore]
  have hall := Loops.foldlM_counts hkeep schedule (k := 0) ?_ hrun
  · rwa [Nat.zero_add] at hall
  · refine ⟨⟨_,start_invariant⟩,fun _ => Finset.sum_eq_zero fun p _ => ?_⟩
    exact Phase.steps_nextRequest (Nat.zero_le _)

theorem Invariant.backlog_le {c : Counts} {s : State Key Message} (h : Invariant n rsa keyIV c s)
    {id : Nat} (hid : 1 ≤ id) (hn : id ≤ n) : (s.backlog id).length ≤ 1 := by
  by_cases hall : id ≤ c.took id + 1
  · rw [h.served id hid hn hall]
    exact Nat.zero_le 1
  · obtain ⟨p,hp,hlast⟩ : ∃ p, 1 ≤ p ∧ id = p + c.took id + 1 :=
      ⟨id - (c.took id + 1),by omega,by omega⟩
    have hbacklog := h.backlog p (c.took id) hp (by omega) (by rw [← hlast])
    rw [← hlast] at hbacklog
    rw [hbacklog]
    split <;> simp

theorem Invariant.exited_alone {c : Counts} {s : State Key Message}
    (h : Invariant n rsa keyIV c s) {p d : Nat} (hp : 1 ≤ p) (hn : p + d + 1 ≤ n)
    (hexited : s.phase p = .exited ∨ s.phase (p+d+1) = .exited) :
    s.peer2sock p (p+d+1) = none ∧ s.peer2sock (p+d+1) p = none := by
  have hasked : ¬ d < c.asked p := by
    intro hlt
    rcases hexited with hexited | hexited
    · obtain ⟨hzero,_⟩ : c.asked p = 0 ∧ _ := h.counts_eq hp (by omega) hexited
      omega
    · obtain ⟨_,_,_,hgave⟩ : _ ∧ _ ∧ _ ∧ c.gave (p+d+1) = 0 := h.counts_eq (by omega) hn hexited
      cases d with
      | zero =>
        have hserves := ((h.listening (p+1) (by omega) hn).mp (h.first p hp hn hlt)).1
        rw [hexited] at hserves
        exact hserves
      | succ d =>
        have hnext := h.gave_next (d := d) hp hn (by omega)
        omega
  have htook : ¬ d < c.took (p+d+1) := fun hlt => hasked (h.reached p d hp hn hlt)
  rw [h.clientSock p d hp hn,h.serverSock p d hp hn,if_neg hasked,if_neg htook]
  exact ⟨rfl,rfl⟩

/-- In whatever order the parties get on, what a party stores under the number of another is a
connection with that one, and two keys that are stored for a connection are the same. Nobody
waits behind another, and who gives up had no connection. -/
theorem connectToPeers_agree {schedule : List (Fin n)} {s : State Key Message}
    (hrun : run n rsa keyIV schedule = some s) :
    (∀ p q : Fin n, p < q →
      (∀ sock, s.peer2sock (pid p) (pid q) = some sock ∨ s.peer2sock (pid q) (pid p) = some sock →
        sock = ⟨pid p,pid q⟩) ∧
      (∀ key key', s.peer2key (pid p) (pid q) = some key →
        s.peer2key (pid q) (pid p) = some key' → key = key') ∧
      (s.phase (pid p) = .exited ∨ s.phase (pid q) = .exited →
        s.peer2sock (pid p) (pid q) = none ∧ s.peer2sock (pid q) (pid p) = none)) ∧
    ∀ p : Fin n, (s.backlog (pid p)).length ≤ 1 := by
  obtain ⟨⟨c,h⟩,_⟩ := run_invariant hrun
  refine ⟨fun p q hpq => ?_,fun p => h.backlog_le (pid_bounds p).1 (pid_bounds p).2⟩
  obtain ⟨hp,_⟩ := pid_bounds p
  obtain ⟨d,hd⟩ : ∃ d, pid q = pid p + d + 1 :=
    ⟨q.val - p.val - 1,by have : p.val < q.val := hpq; simp only [pid]; omega⟩
  have hq : pid p + d + 1 ≤ n := hd ▸ (pid_bounds q).2
  rw [hd]
  refine ⟨fun sock hsock => ?_,fun key key' hkey hkey' => ?_,h.exited_alone hp hq⟩
  · rw [h.clientSock _ d hp hq,h.serverSock _ d hp hq] at hsock
    rcases hsock with hsock | hsock
    · split at hsock <;> cases hsock
      rfl
    · split at hsock <;> cases hsock
      rfl
  · rw [h.clientKey _ d hp hq] at hkey
    rw [h.serverKey _ d hp hq] at hkey'
    split at hkey <;> split at hkey' <;> cases hkey <;> cases hkey'
    rfl

def Moves (n : Nat) (rsa : Rsa Key Message) (keyIV : Nat → Nat → Key) (s : State Key Message)
    (id : Nat) : Prop :=
  ∃ s', step n rsa keyIV s id = some s' ∧ ∀ q : Fin n, s'.phase (pid q) ≠ .exited

section
variable {c : Counts} {s : State Key Message} (hstay : ∀ q : Fin n, s.phase (pid q) ≠ .exited)
  {id i : Nat}
include hstay

theorem stays_update {ph : Phase} (hph : ph ≠ .exited) (q : Fin n) :
    Function.update s.phase id ph (pid q) ≠ .exited := by
  rw [Function.update_apply]
  split
  · exact hph
  · exact hstay q

theorem moves_listen (hphase : s.phase id = .listen) : Moves n rsa keyIV s id := by
  rw [Moves,step,hphase]
  refine ⟨_,rfl,stays_update hstay ?_⟩
  unfold nextAccept
  split <;> nofun

theorem moves_reply {sock : Conn} (hphase : s.phase id = .reply i sock) :
    Moves n rsa keyIV s id := by
  rw [Moves,step,hphase]
  refine ⟨_,rfl,stays_update hstay ?_⟩
  unfold nextAccept
  split <;> nofun

theorem moves_select {sock : Conn} {rest : List Conn} (hphase : s.phase id = .select i)
    (hbacklog : s.backlog id = sock::rest) : Moves n rsa keyIV s id := by
  rw [Moves,step,hphase]
  simp only [hbacklog]
  exact ⟨_,rfl,stays_update hstay nofun⟩

theorem moves_read {message : Message} {rest : List Message} (hphase : s.phase id = .read i)
    (hwire : s.wire ⟨id,id+i+1⟩ = message::rest) : Moves n rsa keyIV s id := by
  rw [Moves,step,hphase]
  simp only [hwire]
  refine ⟨_,rfl,stays_update hstay ?_⟩
  unfold nextRequest afterRequests
  split
  · nofun
  · split <;> nofun

theorem moves_request (hphase : s.phase id = .request i) (hlisten : s.listening (id+i+1) = true)
    (hbacklog : s.backlog (id+i+1) = []) : Moves n rsa keyIV s id := by
  rw [Moves,step,hphase]
  simp only [hlisten,hbacklog]
  exact ⟨_,rfl,stays_update hstay nofun⟩

variable (h : Invariant n rsa keyIV c s)
include h

/-- The last party that does not serve yet can go on, or the one that it waits for. -/
theorem moves_last (hid : 1 ≤ id) (hn : id ≤ n) (hclient : ¬ (s.phase id).Serves)
    (hlater : ∀ q, id < q → q ≤ n → (s.phase q).Serves) :
    ∃ p : Fin n, Moves n rsa keyIV s (pid p) := by
  obtain ⟨p,rfl⟩ := exists_pid hid hn
  have hfits := h.fits _ hid hn
  cases hphase : s.phase (pid p) with
  | request i =>
    rw [hphase] at hfits
    have hturn : i < n - pid p := hfits
    obtain ⟨hasked,_⟩ : c.asked (pid p) = i ∧ _ := h.counts_eq hid hn hphase
    have hlisten := (h.listening (pid p+i+1) (by omega) (by omega)).mpr
      ⟨hlater _ (by omega) (by omega),by omega⟩
    have hbacklog := h.backlog (pid p) i hid (by omega) (h.took_eq hid (by omega) hasked)
    rw [hasked,if_neg (Nat.lt_irrefl i)] at hbacklog
    exact ⟨p,moves_request hstay hphase hlisten hbacklog⟩
  | read i =>
    rw [hphase] at hfits
    have hturn : i < n - pid p := hfits
    obtain ⟨hasked,hheard,_⟩ : c.asked (pid p) = i+1 ∧ c.heard (pid p) = i ∧ _ :=
      h.counts_eq hid hn hphase
    have hwire := h.wire (pid p) i hid (by omega)
    by_cases hgave : i < c.gave (pid p+i+1)
    · rw [hheard,if_pos ⟨Nat.le_refl i,hgave⟩] at hwire
      exact ⟨p,moves_read hstay hphase hwire⟩
    · have hsame : c.gave (pid p+i+1) = i := by
        cases i with
        | zero => omega
        | succ i =>
          have hnext := h.gave_next (d := i) hid (by omega) (by omega)
          omega
      obtain ⟨q,hq⟩ := exists_pid (show 1 ≤ pid p+i+1 by omega) (show pid p+i+1 ≤ n by omega)
      have hserves := hlater (pid p+i+1) (by omega) (by omega)
      refine ⟨q,?_⟩
      rw [hq]
      cases hserver : s.phase (pid p+i+1) with
      | select k =>
        obtain ⟨_,_,htook,hturn'⟩ : _ ∧ _ ∧ c.took (pid p+i+1) = k ∧ c.gave (pid p+i+1) = k :=
          h.counts_eq (by omega) (by omega) hserver
        have hbacklog := h.backlog (pid p) i hid (by omega) (by omega)
        rw [hasked,if_pos (Nat.lt_succ_self i)] at hbacklog
        exact moves_select hstay hserver hbacklog
      | reply k sock => exact moves_reply hstay hserver
      | done =>
        obtain ⟨_,_,_,hall⟩ : _ ∧ _ ∧ _ ∧ c.gave (pid p+i+1) = pid p+i+1-1 :=
          h.counts_eq (by omega) (by omega) hserver
        omega
      | request _ | read _ | listen | exited =>
        rw [hserver] at hserves
        exact hserves.elim
  | listen => exact ⟨p,moves_listen hstay hphase⟩
  | select _ | reply _ _ | done =>
    rw [hphase] at hclient
    exact absurd trivial hclient
  | exited => exact absurd hphase (hstay p)

/-- Where all parties serve, all have read their keys, and one of them has to write one, or all
are done. -/
theorem moves_serving (hall : ∀ p : Fin n, (s.phase (pid p)).Serves) :
    (∀ p : Fin n, s.phase (pid p) = .done) ∨ ∃ p : Fin n, Moves n rsa keyIV s (pid p) := by
  by_cases hreply : ∃ (p : Fin n) (i : Nat) (sock : Conn), s.phase (pid p) = .reply i sock
  · obtain ⟨p,i,sock,hphase⟩ := hreply
    exact .inr ⟨p,moves_reply hstay hphase⟩
  · refine .inl fun p => ?_
    obtain ⟨hp,hn⟩ := pid_bounds p
    have hserves := hall p
    cases hphase : s.phase (pid p) with
    | done => rfl
    | reply i sock => exact absurd ⟨p,i,sock,hphase⟩ hreply
    | select i =>
      have hturn : i < pid p - 1 := h.fits_eq hp hn hphase
      obtain ⟨_,_,_,hgave⟩ : _ ∧ _ ∧ _ ∧ c.gave (pid p) = i := h.counts_eq hp hn hphase
      obtain ⟨q,hq⟩ := exists_pid (n := n) (show 1 ≤ pid p - (i+1) by omega) (by omega)
      have hplace : pid q + i + 1 = pid p := by omega
      have hheard := (h.counts (pid q) (by omega) (by omega)).2.1
      rw [Phase.heard_of_serves (hall q)] at hheard
      have hgiven := h.replied (pid q) i (by omega) (by omega) (by omega)
      rw [hplace] at hgiven
      omega
    | request _ | read _ | listen | exited =>
      rw [hphase] at hserves
      exact hserves.elim

theorem moves_or_done :
    (∀ p : Fin n, s.phase (pid p) = .done) ∨ ∃ p : Fin n, Moves n rsa keyIV s (pid p) := by
  by_cases hall : ∀ p : Fin n, (s.phase (pid p)).Serves
  · exact moves_serving hstay h hall
  · right
    classical
    obtain ⟨p,hp⟩ := not_forall.mp hall
    obtain ⟨last,hlast,hmax⟩ := Finset.exists_max_image
      (Finset.univ.filter fun p : Fin n => ¬ (s.phase (pid p)).Serves) pid
      ⟨p,Finset.mem_filter.mpr ⟨Finset.mem_univ p,hp⟩⟩
    obtain ⟨hpos,hn⟩ := pid_bounds last
    refine moves_last hstay h hpos hn (Finset.mem_filter.mp hlast).2 fun q hq hqn => ?_
    by_contra hclient
    obtain ⟨q,rfl⟩ := exists_pid (show 1 ≤ q by omega) hqn
    have hle := hmax q (Finset.mem_filter.mpr ⟨Finset.mem_univ q,hclient⟩)
    omega

end

theorem steps_le {ph : Phase} {p : Nat} (h : ph.Fits n p) :
    ph.steps n p ≤ Phase.done.steps n p := by
  cases ph <;> simp only [Phase.steps,Phase.Fits] at h ⊢ <;> split <;> omega

theorem allSteps_done : ∑ p : Fin n, Phase.done.steps n (pid p) = (n-1)*(2*n+1) := by
  cases n with
  | zero => rfl
  | succ m =>
    have hfirst : Phase.done.steps (m+1) (pid (0 : Fin (m+1))) = 2*m := rfl
    have hothers : ∀ p : Fin m, Phase.done.steps (m+1) (pid p.succ) = 2*m+1 := by
      intro p
      have hlt := p.isLt
      rw [pid,Fin.val_succ,Phase.steps,if_neg (by omega)]
      omega
    rw [Fin.sum_univ_succ,hfirst,Finset.sum_congr rfl fun p _ => hothers p,Finset.sum_const,
      Finset.card_univ,Fintype.card_fin,smul_eq_mul,Nat.add_sub_cancel]
    ring

theorem Invariant.connected {c : Counts} {s : State Key Message} (h : Invariant n rsa keyIV c s)
    {p q : Fin n} (hpq : p < q) (hp : s.phase (pid p) = .done) (hq : s.phase (pid q) = .done) :
    ∃ key, s.peer2sock (pid p) (pid q) = some ⟨pid p,pid q⟩ ∧
      s.peer2sock (pid q) (pid p) = some ⟨pid p,pid q⟩ ∧
      s.peer2key (pid p) (pid q) = some key ∧ s.peer2key (pid q) (pid p) = some key := by
  obtain ⟨hpos,hpn⟩ := pid_bounds p
  obtain ⟨d,hd⟩ : ∃ d, pid q = pid p + d + 1 :=
    ⟨q.val - p.val - 1,by have : p.val < q.val := hpq; simp only [pid]; omega⟩
  have hqn : pid p + d + 1 ≤ n := hd ▸ (pid_bounds q).2
  obtain ⟨hasked,hheard,_⟩ : c.asked (pid p) = n - pid p ∧ c.heard (pid p) = n - pid p ∧ _ :=
    h.counts_eq hpos hpn hp
  obtain ⟨_,_,htook,hgave⟩ : _ ∧ _ ∧ c.took (pid p+d+1) = pid p+d+1-1 ∧
    c.gave (pid p+d+1) = pid p+d+1-1 := h.counts_eq (by omega) hqn (hd ▸ hq)
  rw [hd,h.clientSock _ d hpos hqn,h.serverSock _ d hpos hqn,h.clientKey _ d hpos hqn,
    h.serverKey _ d hpos hqn,if_pos (by omega),if_pos (by omega),if_pos (by omega),
    if_pos (by omega)]
  exact ⟨_,rfl,rfl,rfl,rfl⟩

/-- As long as nobody has given up, somebody can go on without giving up, until all pairs of
parties have a connection and one key for it. All that takes the same number of steps in
every order. The one `read` of a key, which may come back short in the source, gets it whole. -/
theorem connectToPeers_completes {schedule : List (Fin n)} {s : State Key Message}
    (hrun : run n rsa keyIV schedule = some s)
    (hstay : ∀ p : Fin n, s.phase (pid p) ≠ .exited) :
    schedule.length ≤ (n-1)*(2*n+1) ∧
      ((∃ p : Fin n, Moves n rsa keyIV s (pid p)) ∨
        schedule.length = (n-1)*(2*n+1) ∧ ∀ p q : Fin n, p < q → ∃ key,
          s.peer2sock (pid p) (pid q) = some ⟨pid p,pid q⟩ ∧
          s.peer2sock (pid q) (pid p) = some ⟨pid p,pid q⟩ ∧
          s.peer2key (pid p) (pid q) = some key ∧ s.peer2key (pid q) (pid p) = some key) := by
  obtain ⟨⟨c,h⟩,hcount⟩ := run_invariant hrun
  rw [← hcount hstay,← allSteps_done]
  refine ⟨Finset.sum_le_sum fun p _ => ?_,?_⟩
  · obtain ⟨hp,hn⟩ := pid_bounds p
    exact steps_le (h.fits _ hp hn)
  rcases moves_or_done hstay h with hdone | hmoves
  · refine .inr ⟨Finset.sum_congr rfl fun p _ => by rw [hdone p],fun p q hpq => ?_⟩
    exact h.connected hpq (hdone p) (hdone q)
  · exact .inl hmoves

end

def sealedRsa : Rsa Nat (Nat × Nat) where
  publicEncrypt id key := (id,key)
  privateDecrypt id message := if message.1 = id then message.2 else 0
  decrypt_encrypt _ _ := if_pos rfl

def lastFirst : List (Fin 3) := [2,1,2,2,1,1,0,1,1,0,0,2,2,0]

theorem connectToPeers_agree_three : ∃ s, run 3 sealedRsa (fun p i => 10*p + i) lastFirst = some s ∧
    ∀ key, s.peer2key 1 3 = some key → s.peer2key 3 1 = some 31 → key = 31 := by
  obtain ⟨s,hrun⟩ := Option.isSome_iff_exists.mp
    (show (run 3 sealedRsa (fun p i => 10*p + i) lastFirst).isSome = true by decide)
  exact ⟨s,hrun,fun key hkey => ((connectToPeers_agree hrun).1 0 2 (by decide)).2.1 key 31 hkey⟩

theorem connectToPeers_completes_three :
    ∃ s, run 3 sealedRsa (fun p i => 10*p + i) (lastFirst.take 5) = some s ∧
      ((∃ p : Fin 3, Moves 3 sealedRsa (fun p i => 10*p + i) s (pid p)) ∨
        (lastFirst.take 5).length = 14) := by
  have hstart : ((run 3 sealedRsa (fun p i => 10*p + i) (lastFirst.take 5)).map fun s =>
      [s.phase 1,s.phase 2,s.phase 3]) = some [.request 0,.listen,.select 1] := by decide
  obtain ⟨s,hrun,hphases⟩ := Option.map_eq_some_iff.mp hstart
  simp only [List.cons.injEq] at hphases
  have hstay : ∀ p : Fin 3, s.phase (pid p) ≠ .exited := by
    intro p
    match p with
    | 0 => exact hphases.1 ▸ nofun
    | 1 => exact hphases.2.1 ▸ nofun
    | 2 => exact hphases.2.2.1 ▸ nofun
  exact ⟨s,hrun,(connectToPeers_completes hrun hstay).2.imp_right And.left⟩

end Connect
end RssRing
