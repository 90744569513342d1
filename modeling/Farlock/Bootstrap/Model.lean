import Farlock.Lib.Transition
import Farlock.Bootstrap.QueuePair

/-!
# The connection bootstrap (`include/rdma/manager.h`, `listener.h`, `connector.h`)

Every node runs `InitMemoryPool`: it starts a listener thread, connects each of its pools to every
node with a larger id, waits until the listener has taken the pools of all nodes with a smaller id,
and builds one target map per pool.  A node opens at most one socket to a server and sends the
requests of all its pools through it, one after the other.

One step of a thread goes to its next action that another thread can see; the listener's steps on
one request are its insertion into `clients_`, the answer, and the count.  `select` returns the
sockets that are ready at that moment, and the listener then visits them in an order that is left
open.  Sockets keep the messages of each direction in order.
-/

namespace Farlock

namespace Bootstrap

/-- The nodes and what their devices give them: the number of pools, which `Init` asserts to be
positive, the addresses, the memory region of every node, what `FindActivePort` has found there, and
the numbers of the queue pairs that it creates. -/
structure Setup (N : ℕ) where
  localPools : UInt32
  localPools_pos : 0 < localPools.toNat
  ip : Fin N → String
  ip_injective : Function.Injective ip
  address : Fin N → UInt64
  rkey : Fin N → UInt32
  endpoint : Fin N → Endpoint
  /-- `Init` goes on only if a port with a GID was found. -/
  gidIndex_nonneg : ∀ a, 0 ≤ (endpoint a).gidIndex
  qpNum : Fin N → ℕ → UInt32
  /-- A node has one queue pair for each of its pools and each node. -/
  qpNum_injOn : ∀ a, Set.InjOn (qpNum a) (Set.Iio (N * localPools.toNat))

/-- Where the main thread of a node stands in `InitMemoryPool`.  A socket is named by its server. -/
inductive Main (N : ℕ)
  | start
  | connect (b : Fin N) (j : ℕ)
  | request (b : Fin N) (j : ℕ) (fd : Fin N)
  | receive (b : Fin N) (j : ℕ) (fd : Fin N) (qp : ℕ)
  | wait
  | build
  | done

/-- Where the listener thread of a node stands in `HandleConnectionRequests`; `ready` are the
sockets in `read_fds` that it has still to visit, each named by its client. -/
inductive Listener (N : ℕ)
  | off
  | check
  | accept (ready : Finset (Fin N))
  | scan (ready : Finset (Fin N))
  | reply (ready : Finset (Fin N)) (a : Fin N) (ctx : ConnectionContext)
  | count (ready : Finset (Fin N))
  | returned

/-- The client has left `InitMemoryPool` and has closed its sockets. -/
def Main.isDone {N : ℕ} : Main N → Bool
  | .done => true
  | _ => false

/-- The listener accepts connections. -/
def Listener.listening {N : ℕ} : Listener N → Bool
  | .off | .returned => false
  | _ => true

/-- A request is half processed. -/
def Listener.busy {N : ℕ} : Listener N → Bool
  | .reply .. | .count _ => true
  | _ => false

/-- The state of all nodes and of the sockets between them; `requests a b` and `answers a b` are
under way from client `a` to server `b` and back. -/
structure State (N : ℕ) where
  main : Fin N → Main N
  listener : Fin N → Listener N
  qps : Fin N → ℕ
  connectedServers : Fin N → String → Option (Fin N)
  clients : Fin N → UInt32 → Option TargetContext
  listenerClients : Fin N → UInt32 → Option TargetContext
  connectedClients : Fin N → Int32
  backlog : Fin N → Finset (Fin N)
  clientSockets : Fin N → Finset (Fin N)
  requests : Fin N → Fin N → List ConnectionContext
  answers : Fin N → Fin N → List ConnectionContext
  pools : Fin N → List (List (Option TargetContext))

/-- The sockets of the listener that have something to read, or whose client has closed them. -/
def State.readable {N : ℕ} (s : State N) (b : Fin N) : Finset (Fin N) :=
  (s.clientSockets b).filter fun a => s.requests a b ≠ [] ∨ (s.main a).isDone = true

section

variable {N : ℕ} (S : Setup N)

/-- `local_pools` -/
def Setup.T : ℕ := S.localPools.toNat

/-- The index of pool `j` of node `a`: `node_id_ * local_pools + j` and the like. -/
def Setup.id (a : Fin N) (j : ℕ) : UInt32 := UInt32.ofNat a.val * S.localPools + UInt32.ofNat j

/-- The connection context that node `a` fills in for its queue pair `qp`. -/
def Setup.context (a : Fin N) (qp : ℕ) (id : UInt32) : ConnectionContext where
  address := S.address a
  id := id
  rkey := S.rkey a
  qpNum := S.qpNum a qp
  lid := (S.endpoint a).lid
  gid := (S.endpoint a).gid

/-- `expected_clients_`, an `int` -/
def Setup.expectedClients (b : Fin N) : Int32 := (S.localPools * UInt32.ofNat b.val).toInt32

/-- The loop over the nodes from `i` on. -/
def Setup.connectFrom (i : ℕ) : Main N := if h : i < N then .connect ⟨i, h⟩ 0 else .wait

/-- The next round of the two loops. -/
def Setup.next (b : Fin N) (j : ℕ) : Main N :=
  if j + 1 < S.T then .connect b (j + 1) else Setup.connectFrom (b.val + 1)

/-- The loopback connection of node `a` with its queue pair `qp`. -/
def Setup.loopback (a : Fin N) (qp : ℕ) : TargetContext :=
  (S.endpoint a).connectLoopback qp (S.address a) (S.rkey a) (S.qpNum a qp)

/-- The target map of pool `i`, with the queue pair `qp` for the loopback connection. -/
def Setup.targetMap (s : State N) (a : Fin N) (i : ℕ) (qp : ℕ) : List (Option TargetContext) :=
  ((List.finRange N).take a.val).map (fun j => s.listenerClients a (S.id j i)) ++
    [some (S.loopback a qp)] ++
    ((List.finRange N).drop (a.val + 1)).map fun j => s.clients a (S.id j i)

open Function in
/-- The steps of the threads. -/
inductive Step : State N → State N → Prop
  | start {s : State N} {a : Fin N} (h : s.main a = .start) :
      Step s { s with
        main := update s.main a (Setup.connectFrom (a.val + 1))
        listener := update s.listener a .check }
  /-- `Connect` finds the socket of the server. -/
  | cached {s : State N} {a b fd : Fin N} {j : ℕ} (h : s.main a = .connect b j)
      (hs : s.connectedServers a (S.ip b) = some fd) :
      Step s { s with main := update s.main a (.request b j fd) }
  /-- `Connect` opens a socket; it tries again as long as nobody listens there. -/
  | dial {s : State N} {a b : Fin N} {j : ℕ} (h : s.main a = .connect b j)
      (hs : s.connectedServers a (S.ip b) = none) (hb : (s.listener b).listening = true) :
      Step s { s with
        main := update s.main a (.request b j b)
        backlog := update s.backlog b (insert a (s.backlog b)) }
  /-- `Connect` creates a queue pair and sends its context. -/
  | request {s : State N} {a b fd : Fin N} {j : ℕ} (h : s.main a = .request b j fd) :
      Step s { s with
        main := update s.main a (.receive b j fd (s.qps a))
        qps := update s.qps a (s.qps a + 1)
        requests := update s.requests a (update (s.requests a) fd
          (s.requests a fd ++ [S.context a (s.qps a) (S.id a j)])) }
  /-- `Connect` receives the context of the other end and returns. -/
  | receive {s : State N} {a b fd : Fin N} {j qp : ℕ} {ctx : ConnectionContext}
      {rest : List ConnectionContext} (h : s.main a = .receive b j fd qp)
      (hr : s.answers a fd = ctx :: rest) :
      Step s { s with
        main := update s.main a (S.next b j)
        answers := update s.answers a (update (s.answers a) fd rest)
        connectedServers := update s.connectedServers a
          (update (s.connectedServers a) (S.ip b) (some fd))
        clients := update s.clients a (update (s.clients a) (S.id b j) (some ((S.endpoint a).connect qp ctx))) }
  /-- `Wait` -/
  | wait {s : State N} {a : Fin N} (h : s.main a = .wait) (hl : s.listener a = .returned) :
      Step s { s with main := update s.main a .build }
  | build {s : State N} {a : Fin N} (h : s.main a = .build) (hi : (s.pools a).length < S.T) :
      Step s { s with
        qps := update s.qps a (s.qps a + 1)
        pools := update s.pools a
          (s.pools a ++ [S.targetMap s a (s.pools a).length (s.qps a)]) }
  /-- `ClearCache` of the listener and of the connector. -/
  | clear {s : State N} {a : Fin N} (h : s.main a = .build) (hi : (s.pools a).length = S.T) :
      Step s { s with
        main := update s.main a .done
        listenerClients := update s.listenerClients a fun _ => none
        connectedServers := update s.connectedServers a fun _ => none }
  | finish {s : State N} {b : Fin N} (h : s.listener b = .check)
      (hc : s.connectedClients b = S.expectedClients b) :
      Step s { s with listener := update s.listener b .returned }
  /-- `select` returns because a connection is waiting. -/
  | selectListener {s : State N} {b : Fin N} (h : s.listener b = .check)
      (hc : s.connectedClients b ≠ S.expectedClients b) (hl : (s.backlog b).Nonempty) :
      Step s { s with listener := update s.listener b (.accept (s.readable b)) }
  /-- `select` returns because sockets are readable. -/
  | selectClients {s : State N} {b : Fin N} (h : s.listener b = .check)
      (hc : s.connectedClients b ≠ S.expectedClients b) (hl : ¬ (s.backlog b).Nonempty)
      (hr : (s.readable b).Nonempty) :
      Step s { s with listener := update s.listener b (.scan (s.readable b)) }
  | accept {s : State N} {a b : Fin N} {ready : Finset (Fin N)}
      (h : s.listener b = .accept ready) (ha : a ∈ s.backlog b) :
      Step s { s with
        listener := update s.listener b (.scan ready)
        backlog := update s.backlog b ((s.backlog b).erase a)
        clientSockets := update s.clientSockets b (insert a (s.clientSockets b)) }
  /-- The listener reads a request, creates a queue pair, connects it and inserts it. -/
  | handle {s : State N} {a b : Fin N} {ready : Finset (Fin N)} {ctx : ConnectionContext}
      {rest : List ConnectionContext} (h : s.listener b = .scan ready) (ha : a ∈ ready)
      (hr : s.requests a b = ctx :: rest) :
      Step s { s with
        listener := update s.listener b
          (.reply (ready.erase a) a (S.context b (s.qps b) ctx.id))
        requests := update s.requests a (update (s.requests a) b rest)
        qps := update s.qps b (s.qps b + 1)
        connectedClients := update s.connectedClients b
          (if (s.listenerClients b ctx.id).isSome then s.connectedClients b - 1
            else s.connectedClients b)
        listenerClients := update s.listenerClients b
          (update (s.listenerClients b) ctx.id (some ((S.endpoint b).accept (s.qps b) ctx))) }
  /-- The listener reads the end of the stream. -/
  | hangUp {s : State N} {a b : Fin N} {ready : Finset (Fin N)}
      (h : s.listener b = .scan ready) (ha : a ∈ ready) (hr : s.requests a b = [])
      (hd : s.main a = .done) :
      Step s { s with
        listener := update s.listener b (.scan (ready.erase a))
        clientSockets := update s.clientSockets b ((s.clientSockets b).erase a) }
  | reply {s : State N} {a b : Fin N} {ready : Finset (Fin N)} {ctx : ConnectionContext}
      (h : s.listener b = .reply ready a ctx) :
      Step s { s with
        listener := update s.listener b (.count ready)
        answers := update s.answers a (update (s.answers a) b (s.answers a b ++ [ctx])) }
  | count {s : State N} {b : Fin N} {ready : Finset (Fin N)} (h : s.listener b = .count ready) :
      Step s { s with
        listener := update s.listener b (.scan ready)
        connectedClients := update s.connectedClients b (s.connectedClients b + 1) }
  | rescan {s : State N} {b : Fin N} (h : s.listener b = .scan ∅) :
      Step s { s with listener := update s.listener b .check }

/-- Nothing has happened yet. -/
def initial (N : ℕ) : State N where
  main _ := .start
  listener _ := .off
  qps _ := 0
  connectedServers _ _ := none
  clients _ _ := none
  listenerClients _ _ := none
  connectedClients _ := 0
  backlog _ := ∅
  clientSockets _ := ∅
  requests _ _ := []
  answers _ _ := []
  pools _ := []

/-- The system of all nodes. -/
def system : Lts (State N) Empty where
  init s := s = initial N
  step s _ s' := Step S s s'

/-! ### Indices

The queue pair numbers of a node are distinct 32-bit words, so that the indices of the pools do not
overflow. -/

theorem Setup.mul_le (a : Fin N) : N * S.T ≤ 2 ^ 32 := by
  have hinj : Set.InjOn (fun k => (S.qpNum a k).toNat) (Finset.range (N * S.T)) := by
    intro k hk l hl heq
    exact S.qpNum_injOn a (by simpa [Setup.T] using hk) (by simpa [Setup.T] using hl)
      (UInt32.toNat_inj.1 heq)
  have hmaps : Set.MapsTo (fun k => (S.qpNum a k).toNat) (Finset.range (N * S.T))
      (Finset.range (2 ^ 32)) := fun k _ => by
    simpa using (S.qpNum a k).toNat_lt
  simpa using Finset.card_le_card_of_injOn _ hmaps hinj

theorem Setup.index_lt (a : Fin N) {j : ℕ} (hj : j < S.T) : a.val * S.T + j < N * S.T := by
  have := Nat.mul_le_mul_right S.T (Nat.succ_le_of_lt a.isLt)
  rw [Nat.succ_mul] at this
  omega

theorem Setup.id_toNat (a : Fin N) {j : ℕ} (hj : j < S.T) :
    (S.id a j).toNat = a.val * S.T + j := by
  have hlt := (S.index_lt a hj).trans_le (S.mul_le a)
  have hid : S.id a j = UInt32.ofNat (a.val * S.T + j) := by
    rw [UInt32.ofNat_add, UInt32.ofNat_mul, Setup.T, UInt32.ofNat_toNat]
    rfl
  rw [hid, UInt32.toNat_ofNat']
  exact Nat.mod_eq_of_lt hlt

theorem Setup.id_inj {a a' : Fin N} {j j' : ℕ} (hj : j < S.T) (hj' : j' < S.T)
    (h : S.id a j = S.id a' j') : a = a' ∧ j = j' := by
  have heq := congrArg UInt32.toNat h
  rw [S.id_toNat a hj, S.id_toNat a' hj'] at heq
  have hj0 : j = j' := by
    have := congrArg (· % S.T) heq
    simpa [Nat.mod_eq_of_lt hj, Nat.mod_eq_of_lt hj'] using this
  subst hj0
  have ha : a.val * S.T = a'.val * S.T := by omega
  exact ⟨Fin.ext (Nat.eq_of_mul_eq_mul_right S.localPools_pos ha), rfl⟩

theorem Setup.id_lt {a b : Fin N} (h : a < b) {j : ℕ} (hj : j < S.T) :
    (S.id a j).toNat < b.val * S.T := by
  have := Nat.mul_le_mul_right S.T (Nat.succ_le_of_lt (Fin.lt_def.1 h))
  rw [S.id_toNat a hj]
  rw [Nat.succ_mul] at this
  omega

theorem Setup.mul_lt (b : Fin N) : b.val * S.T < 2 ^ 32 :=
  (S.index_lt b S.localPools_pos).trans_le (S.mul_le b)

theorem Setup.expectedClients_eq (b : Fin N) :
    S.expectedClients b = Int32.ofNat (b.val * S.T) := by
  rw [Setup.expectedClients, ← UInt32.toInt32_ofNat', Nat.mul_comm, UInt32.ofNat_mul, Setup.T,
    UInt32.ofNat_toNat]

theorem int32_ofNat_inj {m n : ℕ} (hm : m < 2 ^ 32) (hn : n < 2 ^ 32)
    (h : Int32.ofNat m = Int32.ofNat n) : m = n := by
  rw [← UInt32.toInt32_ofNat', ← UInt32.toInt32_ofNat'] at h
  have hwords := congrArg (fun i : Int32 => i.toUInt32.toNat) h
  simp only [UInt32.toUInt32_toInt32, UInt32.toNat_ofNat'] at hwords
  omega

end

end Bootstrap

end Farlock
