import Mathlib
import Farlock.Bootstrap.QueuePair

/-!
# The port of a node (`include/rdma/manager.h`, `utils.h`)

`FindActivePort` searches the devices for the first one that has an active port with a non-zero GID
and keeps in members of the manager what it has found.  The listener and the connector hand the port
and the GID index over to `ConnectQp`.

A device list says what every query would answer; a query that fails is `none`.

* `findActivePort`: the three loops;
* `Members.endpoint`: what the listener and the connector get of this;
* `ports_ok_iff`: the queue pairs are on the port that was found only if this is port 1.
-/

namespace Farlock

namespace Bootstrap

namespace Ports

/-- `ibv_port_state` -/
inductive PortState
  | nop
  | down
  | init
  | armed
  | active
  | activeDefer
  deriving DecidableEq

/-- `ibv_port_attr`, and the GID table of the port. -/
structure PortAttr where
  state : PortState
  lid : UInt16
  gids : List (Option Gid)

/-- A device: whether it can be opened, and its ports if it answers `ibv_query_device`. -/
structure Device where
  opens : Bool
  ports : Option (List (Option PortAttr))

/-- What `FindActivePort` sets; `ctx_` is the index of the device. -/
structure Members where
  ctx : Option ℕ
  ibPort : ℕ
  lid : UInt16
  gidIndex : ℤ
  gid : Gid

/-! ### The search -/

/-- The loop over the GIDs of a port, from `gid_index` on. -/
def gidLoop (m : Members) : List (Option Gid) → ℕ → Members
  | [], _ => m
  | none :: gids, gidIndex => gidLoop m gids (gidIndex + 1)
  | some tmpGid :: gids, gidIndex =>
      if ∀ i, tmpGid i = 0 then gidLoop m gids (gidIndex + 1)
      else { m with gidIndex := gidIndex, gid := tmpGid }

/-- The loop over the ports of a device, from `j` on. -/
def portLoop (m : Members) : List (Option PortAttr) → ℕ → Members
  | [], _ => m
  | none :: ports, j => portLoop m ports (j + 1)
  | some portAttr :: ports, j =>
      if portAttr.state = .active then
        let m := gidLoop m portAttr.gids 0
        if m.gidIndex = -1 then portLoop m ports (j + 1)
        else { m with lid := portAttr.lid, ibPort := j }
      else portLoop m ports (j + 1)

/-- The loop over the devices, from `i` on. -/
def deviceLoop (m : Members) : List Device → ℕ → Members
  | [], _ => m
  | dev :: devs, i =>
      if dev.opens then
        match dev.ports with
        | none => deviceLoop m devs (i + 1)
        | some ports =>
            let m := portLoop m ports 1
            if m.ibPort = 0 then deviceLoop m devs (i + 1) else { m with ctx := some i }
      else deviceLoop m devs (i + 1)

/-- `FindActivePort`; there is no result if the list is empty, since the program ends then. -/
def findActivePort (m : Members) (devs : List Device) : Option (Bool × Members) :=
  if devs = [] then none
  else
    let m := deviceLoop { m with gidIndex := -1 } devs 0
    some (m.ctx.isSome, m)

/-- What the constructors of `Connector` and `Listener` get from the manager in `InitMemoryPool`. -/
def Members.endpoint (m : Members) : Endpoint := ⟨m.lid, m.gidIndex, m.gid, m.ibPort⟩

/-! ### What they should do -/

/-- The GID can be queried and is not zero. -/
def usableGid : Option Gid → Bool
  | some gid => decide (¬ ∀ i, gid i = 0)
  | none => false

/-- The port can be queried and is active, and some GID of it is usable. -/
def usablePort : Option PortAttr → Bool
  | some a => decide (a.state = .active) && a.gids.any usableGid
  | none => false

/-- The device opens and answers, and some port of it is usable. -/
def Device.usable (dev : Device) : Bool :=
  dev.opens && dev.ports.any fun ports => ports.any usablePort

/-- The members describe the first usable device, its first usable port and the first usable GID of
this port. -/
def Describes (devs : List Device) (m : Members) : Prop :=
  ∃ dev ports a gid, devs[devs.findIdx Device.usable]? = some dev ∧ dev.ports = some ports ∧
    ports[ports.findIdx usablePort]? = some (some a) ∧ a.gids[a.gids.findIdx usableGid]? = some (some gid) ∧
    m = ⟨some (devs.findIdx Device.usable), ports.findIdx usablePort + 1, a.lid,
      a.gids.findIdx usableGid, gid⟩

/-- `FindActivePort` finds the first port that can be used, and all queue pairs are set up on it. -/
structure PortsOk (devs : List Device) (m₀ : Members) : Prop where
  found : (∃ m, findActivePort m₀ devs = some (true, m)) ↔ devs.any Device.usable
  describes : ∀ m, findActivePort m₀ devs = some (true, m) → Describes devs m
  loopback : ∀ m, findActivePort m₀ devs = some (true, m) → ∀ qp address rkey qpNum,
    (m.endpoint.connectLoopback qp address rkey qpNum).setup.OnPort m.ibPort
  connect : ∀ m, findActivePort m₀ devs = some (true, m) → ∀ qp ctx,
    (m.endpoint.connect qp ctx).setup.OnPort m.ibPort
  accept : ∀ m, findActivePort m₀ devs = some (true, m) → ∀ qp ctx,
    (m.endpoint.accept qp ctx).setup.OnPort m.ibPort

/-- The first usable device, if there is one, has a usable first port. -/
def FirstPort (devs : List Device) : Prop :=
  ∀ dev, devs.find? Device.usable = some dev →
    ∃ port ports, dev.ports = some (port :: ports) ∧ usablePort port = true

/-! ### What the loops find -/

variable {m : Members} {devs : List Device} {n : ℕ}

theorem gidLoop_none {gids : List (Option Gid)} (h : gids.any usableGid = false) : gidLoop m gids n = m := by
  induction gids generalizing n with
  | nil => rfl
  | cons g gids ih =>
    rw [List.any_cons, Bool.or_eq_false_iff] at h
    cases g with
    | none => exact ih h.2
    | some gid =>
      have hzero : ∀ i, gid i = 0 := by simpa [usableGid] using h.1
      rw [gidLoop, if_pos hzero]
      exact ih h.2

theorem gidLoop_some {gids : List (Option Gid)} (h : gids.any usableGid = true) :
    ∃ gid, gids[gids.findIdx usableGid]? = some (some gid) ∧
      gidLoop m gids n = { m with gidIndex := n + gids.findIdx usableGid, gid := gid } := by
  induction gids generalizing n with
  | nil => simp at h
  | cons g gids ih =>
    cases hg : usableGid g with
    | true =>
      cases g with
      | none => simp [usableGid] at hg
      | some gid =>
        have hne : ¬ ∀ i, gid i = 0 := by simpa only [usableGid, decide_eq_true_eq] using hg
        refine ⟨gid, by simp [List.findIdx_cons, hg], ?_⟩
        rw [gidLoop, if_neg hne]
        simp [List.findIdx_cons, hg]
    | false =>
      rw [List.any_cons, hg, Bool.false_or] at h
      obtain ⟨gid, hgid, hloop⟩ := ih (n := n + 1) h
      have hnext : gidLoop m (g :: gids) n = gidLoop m gids (n + 1) := by
        cases g with
        | none => rfl
        | some gid =>
          have hzero : ∀ i, gid i = 0 := by simpa [usableGid] using hg
          rw [gidLoop, if_pos hzero]
      refine ⟨gid, by simpa [List.findIdx_cons, hg] using hgid, ?_⟩
      rw [hnext, hloop]
      simp only [List.findIdx_cons, hg, cond_false]
      push_cast
      ring_nf

/-- A port that cannot be used is passed over. -/
theorem portLoop_cons {p : Option PortAttr} {ports : List (Option PortAttr)} (hm : m.gidIndex = -1)
    (h : usablePort p = false) : portLoop m (p :: ports) n = portLoop m ports (n + 1) := by
  cases p with
  | none => rfl
  | some a =>
    rw [portLoop]
    split_ifs with hactive
    · have hnone : a.gids.any usableGid = false := by simpa [usablePort, hactive] using h
      simp only [gidLoop_none hnone, if_pos hm]
    · rfl

theorem portLoop_none {ports : List (Option PortAttr)} (hm : m.gidIndex = -1)
    (h : ports.any usablePort = false) : portLoop m ports n = m := by
  induction ports generalizing n with
  | nil => rfl
  | cons p ports ih =>
    rw [List.any_cons, Bool.or_eq_false_iff] at h
    rw [portLoop_cons hm h.1]
    exact ih h.2

theorem portLoop_some {ports : List (Option PortAttr)} (hm : m.gidIndex = -1)
    (h : ports.any usablePort = true) :
    ∃ a gid, ports[ports.findIdx usablePort]? = some (some a) ∧
      a.gids[a.gids.findIdx usableGid]? = some (some gid) ∧
      portLoop m ports n = { m with
        ibPort := n + ports.findIdx usablePort
        lid := a.lid
        gidIndex := a.gids.findIdx usableGid
        gid := gid } := by
  induction ports generalizing n with
  | nil => simp at h
  | cons p ports ih =>
    cases hp : usablePort p with
    | true =>
      cases p with
      | none => simp [usablePort] at hp
      | some a =>
        simp only [usablePort, Bool.and_eq_true, decide_eq_true_eq] at hp
        obtain ⟨gid, hgid, hloop⟩ := gidLoop_some (m := m) (n := 0) hp.2
        refine ⟨a, gid, by simp [List.findIdx_cons, usablePort, hp], hgid, ?_⟩
        have hne : ((0 : ℕ) : ℤ) + (a.gids.findIdx usableGid : ℤ) ≠ -1 := by omega
        rw [portLoop, if_pos hp.1, hloop]
        simp only [if_neg hne]
        simp [List.findIdx_cons, usablePort, hp]
    | false =>
      rw [List.any_cons, hp, Bool.false_or] at h
      obtain ⟨a, gid, ha, hgid, hloop⟩ := ih (n := n + 1) h
      refine ⟨a, gid, by simpa [List.findIdx_cons, hp] using ha, hgid, ?_⟩
      rw [portLoop_cons hm hp, hloop]
      simp only [List.findIdx_cons, hp, cond_false]
      congr 1
      omega

/-- A device that cannot be used is passed over. -/
theorem deviceLoop_cons {dev : Device} (hm : m.gidIndex = -1) (hport : m.ibPort = 0)
    (h : dev.usable = false) : deviceLoop m (dev :: devs) n = deviceLoop m devs (n + 1) := by
  rw [deviceLoop]
  split_ifs with hopen
  · cases hports : dev.ports with
    | none => rfl
    | some ports =>
      have hnone : ports.any usablePort = false := by simpa [Device.usable, hopen, hports] using h
      simp only [portLoop_none hm hnone, if_pos hport]
  · rfl

theorem deviceLoop_none (hm : m.gidIndex = -1) (hport : m.ibPort = 0)
    (h : devs.any Device.usable = false) : deviceLoop m devs n = m := by
  induction devs generalizing n with
  | nil => rfl
  | cons dev devs ih =>
    rw [List.any_cons, Bool.or_eq_false_iff] at h
    rw [deviceLoop_cons hm hport h.1]
    exact ih h.2

theorem deviceLoop_some (hm : m.gidIndex = -1) (hport : m.ibPort = 0)
    (h : devs.any Device.usable = true) :
    ∃ dev ports a gid, devs[devs.findIdx Device.usable]? = some dev ∧ dev.ports = some ports ∧
      ports[ports.findIdx usablePort]? = some (some a) ∧
      a.gids[a.gids.findIdx usableGid]? = some (some gid) ∧
      deviceLoop m devs n = ⟨some (n + devs.findIdx Device.usable), ports.findIdx usablePort + 1, a.lid,
        a.gids.findIdx usableGid, gid⟩ := by
  induction devs generalizing n with
  | nil => simp at h
  | cons dev devs ih =>
    cases hdev : dev.usable with
    | true =>
      have husable := hdev
      simp only [Device.usable, Bool.and_eq_true] at husable
      obtain ⟨hopen, hany⟩ := husable
      cases hports : dev.ports with
      | none => simp [hports] at hany
      | some ports =>
        rw [hports] at hany
        obtain ⟨a, gid, ha, hgid, hloop⟩ := portLoop_some (m := m) (n := 1) hm hany
        refine ⟨dev, ports, a, gid, by simp [List.findIdx_cons, hdev], hports, ha, hgid, ?_⟩
        rw [deviceLoop, if_pos hopen, hports]
        simp only [hloop]
        rw [if_neg (by omega)]
        simp [List.findIdx_cons, hdev, Nat.add_comm]
    | false =>
      rw [List.any_cons, hdev, Bool.false_or] at h
      obtain ⟨dev', ports, a, gid, hdev', hports, ha, hgid, hloop⟩ := ih (n := n + 1) h
      refine ⟨dev', ports, a, gid, by simpa [List.findIdx_cons, hdev] using hdev', hports, ha, hgid, ?_⟩
      rw [deviceLoop_cons hm hport hdev, hloop]
      simp only [List.findIdx_cons, hdev, cond_false]
      congr 2
      omega

/-! ### Queue pairs and the port -/

/-- A queue pair with a global route is set up on port 1, whatever port was found. -/
theorem connectQp_onPort {qp : ℕ} {ctx : ConnectionContext} {sgidIndex : ℤ} {ibPort j : ℕ}
    (h : 0 ≤ sgidIndex) : (connectQp qp ctx sgidIndex ibPort).setup.OnPort j ↔ j = 1 := by
  have hinit : (connectQp qp ctx sgidIndex ibPort).setup.init.portNum.toNat = 1 := rfl
  have hrtr : (connectQp qp ctx sgidIndex ibPort).setup.rtr.portNum.toNat = 1 := by
    rw [connectQp, modifyQpToRtr, if_pos h]
    rfl
  rw [QpSetup.OnPort, hinit, hrtr, and_self, eq_comm]

/-- The search succeeds if some device can be used, and then the members describe the first one. -/
theorem findActivePort_some {m₀ : Members} (hport : m₀.ibPort = 0) (h : devs.any Device.usable = true) :
    ∃ m, findActivePort m₀ devs = some (true, m) ∧ Describes devs m := by
  have hne : devs ≠ [] := by
    rintro rfl
    simp at h
  obtain ⟨dev, ports, a, gid, hdev, hports, ha, hgid, hloop⟩ :=
    deviceLoop_some (m := { m₀ with gidIndex := -1 }) (n := 0) rfl hport h
  refine ⟨_, ?_, dev, ports, a, gid, hdev, hports, ha, hgid, rfl⟩
  rw [findActivePort, if_neg hne]
  simp only [hloop, Nat.zero_add]
  rfl

/-- It does not succeed if no device can be used. -/
theorem findActivePort_none {m₀ : Members} (hctx : m₀.ctx = none) (hport : m₀.ibPort = 0)
    (h : devs.any Device.usable = false) (m : Members) : findActivePort m₀ devs ≠ some (true, m) := by
  rw [findActivePort]
  split_ifs
  · simp
  · have hloop : deviceLoop { m₀ with gidIndex := -1 } devs 0 = { m₀ with gidIndex := -1 } :=
      deviceLoop_none rfl hport h
    simp only [hloop]
    simp [hctx]

/-- The GID index that was found is not negative, so that queue pairs have a global route. -/
theorem Describes.gidIndex_nonneg {m : Members} (h : Describes devs m) : 0 ≤ m.endpoint.gidIndex := by
  obtain ⟨dev, ports, a, gid, -, -, -, -, rfl⟩ := h
  exact Int.natCast_nonneg _

/-- Whether the first usable port is the first port. -/
theorem Describes.ibPort_eq_one_iff {m : Members} (h : Describes devs m) : m.ibPort = 1 ↔ FirstPort devs := by
  obtain ⟨dev, ports, a, gid, hdev, hports, ha, -, rfl⟩ := h
  have hfind : devs.find? Device.usable = some dev := by rw [List.find?_eq_getElem?_findIdx, hdev]
  have hfirst : FirstPort devs ↔ ∃ port rest, ports = port :: rest ∧ usablePort port = true := by
    constructor
    · intro h
      obtain ⟨port, rest, hrest, husable⟩ := h dev hfind
      rw [hports, Option.some.injEq] at hrest
      exact ⟨port, rest, hrest, husable⟩
    · rintro ⟨port, rest, rfl, husable⟩ dev' hdev'
      rw [hfind, Option.some.injEq] at hdev'
      exact ⟨port, rest, hdev' ▸ hports, husable⟩
  rw [hfirst]
  cases ports with
  | nil => simp at ha
  | cons port rest =>
    simp only [Nat.add_eq_right, List.findIdx_cons]
    cases hport : usablePort port with
    | true => simp [hport]
    | false => simp [hport]

/-- The queue pairs of a node are on the port that was found if and only if this is the first
port. -/
theorem ports_ok_iff {m₀ : Members} (hctx : m₀.ctx = none) (hport : m₀.ibPort = 0) :
    PortsOk devs m₀ ↔ FirstPort devs := by
  cases hany : devs.any Device.usable with
  | false =>
    have hnone := findActivePort_none hctx hport hany
    have hfind : devs.find? Device.usable = none := by simpa using hany
    refine iff_of_true ⟨?_, ?_, ?_, ?_, ?_⟩ fun dev hdev => ?_
    · simp [hnone, hany]
    · exact fun m hm => absurd hm (hnone m)
    · exact fun m hm => absurd hm (hnone m)
    · exact fun m hm => absurd hm (hnone m)
    · exact fun m hm => absurd hm (hnone m)
    · simp [hfind] at hdev
  | true =>
    obtain ⟨m, hm, hdesc⟩ := findActivePort_some hport hany
    have hgid := hdesc.gidIndex_nonneg
    rw [← hdesc.ibPort_eq_one_iff]
    constructor
    · intro h
      exact (connectQp_onPort hgid).1 (h.loopback m hm 0 0 0 0)
    · intro hone
      have huniq : ∀ m', findActivePort m₀ devs = some (true, m') → m' = m := by
        intro m' hm'
        rw [hm] at hm'
        simpa using hm'.symm
      refine ⟨iff_of_true ⟨m, hm⟩ hany, fun m' hm' => ?_, fun m' hm' qp address rkey qpNum => ?_,
        fun m' hm' qp ctx => ?_, fun m' hm' qp ctx => ?_⟩
      · exact huniq m' hm' ▸ hdesc
      · rw [huniq m' hm']
        exact (connectQp_onPort hgid).2 hone
      · rw [huniq m' hm']
        exact (connectQp_onPort hgid).2 hone
      · rw [huniq m' hm']
        exact (connectQp_onPort hgid).2 hone

/-- A device with ports in the given states, each of them with one GID. -/
def deviceOf (states : List PortState) : Device :=
  ⟨true, some (states.map fun state => some ⟨state, 7, [some fun _ => 1]⟩)⟩

/-- The members before the search. -/
def fresh : Members := ⟨none, 0, 0, 0, fun _ => 0⟩

/-- Both ports are active. -/
theorem ports_ok_iff_two : PortsOk [deviceOf [.active, .active]] fresh := by
  apply (ports_ok_iff rfl rfl).2
  intro dev hdev
  have hfind : [deviceOf [.active, .active]].find? Device.usable = some (deviceOf [.active, .active]) := rfl
  rw [hfind, Option.some.injEq] at hdev
  subst hdev
  exact ⟨_, _, rfl, rfl⟩

/-- Only the second port is active; the queue pairs are set up on the first. -/
theorem wrong_port :
    findActivePort fresh [deviceOf [.down, .active]] = some (true, ⟨some 0, 2, 7, 0, fun _ => 1⟩) ∧
    ¬ PortsOk [deviceOf [.down, .active]] fresh := by
  refine ⟨rfl, fun h => ?_⟩
  have := (h.accept _ rfl 0 ⟨0, 0, 0, 0, 0, fun _ => 0⟩).1
  revert this
  decide

end Ports

end Bootstrap

end Farlock
