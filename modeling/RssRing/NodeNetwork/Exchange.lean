import RssRing.Lint
import RssRing.NodeNetwork.Layout
set_option autoImplicit false

namespace RssRing

/-- In round `r` of an exchange a party sends to `sendTo p r` and then takes a
message from `recvFrom p r`. -/
structure Routing (n : Nat) where
  rounds : Nat
  sendTo : Fin n → Nat → Option (Fin n)
  recvFrom : Fin n → Nat → Option (Fin n)

namespace Routing
variable {n : Nat} {A : Type}

/-- Connections deliver in order: the message taken in round `r` is the one its
sender put on this connection in the same position. -/
def source (R : Routing n) (p : Fin n) (r : Nat) : Option (Fin n × Nat) :=
  (R.recvFrom p r).bind fun q =>
    let earlier := (List.range r).countP (fun r' => R.recvFrom p r' = some q)
    let sent := (List.range R.rounds).filter (fun r' => R.sendTo q r' = some p)
    sent[earlier]?.map (fun r' => (q,r'))

def deliver (R : Routing n) (data : Fin n → Nat → A) (old : A) (p : Fin n) (r : Nat) : A :=
  match R.source p r with
  | some (q,r') => data q r'
  | none => old

theorem deliver_of_source {R : Routing n} {p q : Fin n} {r r' : Nat}
    (h : R.source p r = some (q,r')) (data : Fin n → Nat → A) (old : A) :
    R.deliver data old p r = data q r' := by
  simp only [deliver,h]

theorem lt_of_source {R : Routing n} {p q : Fin n} {r r' : Nat}
    (h : R.source p r = some (q,r')) : r' < R.rounds := by
  rw [source,Option.bind_eq_some_iff] at h
  obtain ⟨q',_,h⟩ := h
  obtain ⟨r'',hr,h⟩ := Option.map_eq_some_iff.mp h
  obtain ⟨_,rfl⟩ := Prod.ext_iff.mp h
  exact List.mem_range.mp (List.mem_filter.mp (List.mem_of_getElem? hr)).1

end Routing

def peers {n : Nat} (offsets : List (Fin n)) (p : Fin n) (r : Nat) : Option (Fin n) :=
  offsets[r]?.map (fun d => p + d)

def map3pc : Routing 3 where
  rounds := 1
  sendTo := peers [2]
  recvFrom := peers [1]

def map5pc : Routing 5 where
  rounds := 2
  sendTo := peers [3,4]
  recvFrom := peers [2,1]

def map7pc : Routing 7 where
  rounds := 3
  sendTo := peers [4,5,6]
  recvFrom := peers [3,2,1]

def openMap5pc : Routing 5 where
  rounds := 2
  sendTo := peers [1,4]
  recvFrom := peers [4,1]

def openMap7pc : Routing 7 where
  rounds := 3
  sendTo := peers [1,2,3]
  recvFrom := peers [6,5,4]

def fromPid (n : Nat) (id : Int) : Option (Fin n) :=
  if h : 0 < id ∧ id.toNat - 1 < n then some ⟨id.toNat - 1,h.2⟩ else none

def entry {n : Nat} (rows : List (List Int)) (p : Fin n) (r : Nat) : Int := (rows.getD p []).getD r (-1)

def edaMap5pc : Routing 5 where
  rounds := 2
  sendTo p r := fromPid 5 (entry [[5,4],[1,5],[2,1],[-1,-1],[-1,-1]] p r)
  recvFrom p r := fromPid 5 (entry [[2,3],[3,-1],[-1,-1],[-1,1],[1,2]] p r)

def edaMap7pc : Routing 7 where
  rounds := 3
  sendTo p r := fromPid 7 (entry [[7,6,5],[1,7,6],[2,1,7],[3,2,1],[-1,-1,-1],[-1,-1,-1],
    [-1,-1,-1]] p r)
  recvFrom p r := fromPid 7 (entry [[2,3,4],[3,4,-1],[4,-1,-1],[-1,-1,-1],[-1,-1,1],[-1,1,2],
    [1,2,3]] p r)

theorem source_map3pc : ∀ p r, r < 1 → map3pc.source p r = some (p + 1,r) := by
  decide

theorem source_openMap5pc :
    ∀ p r, r < 2 → openMap5pc.source p r = some (p + [4,1].getD r 0,r) := by
  decide

variable {L : Nat}

/-- `data[i] & SHIFT[flag]`, written back into the array that is being sent. -/
def masked (ring_size : Nat) (x : Lint L) : Lint L := x &&& shift L ring_size

/-- A word on the other side: its low `(ring_size + 7) >> 3` bytes over zero. -/
def received (ring_size : Nat) (x : Lint L) : Lint L :=
  memcpyWord 0 (byteOf (masked ring_size x)) 0 (byteWidth ring_size)

theorem received_eq (ring_size : Nat) (x : Lint L) :
    received ring_size x = masked ring_size x := by
  apply BitVec.eq_of_getLsbD_eq
  intro j hj
  have hbyte : 8*(j/8) + j%8 = j := Nat.div_add_mod j 8
  have hmod : j%8 < 8 := Nat.mod_lt j (by decide)
  rw [received,getLsbD_memcpyWord,Nat.zero_add,getLsbD_byteOf,hbyte,masked,getLsbD_and_shift]
  have hk := le_byteWidth ring_size
  by_cases h : j < ring_size
  · simp [hj,hmod,h,show j < 8*byteWidth ring_size by omega,-BitVec.getLsbD_eq_getElem]
  · simp [hj,hmod,h,-BitVec.getLsbD_eq_getElem]

end RssRing
