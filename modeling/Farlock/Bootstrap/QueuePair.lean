import Mathlib

/-!
# Queue pairs (`include/rdma/utils.h`)

A queue pair is set up with the connection context that has come from the other side.

* `modifyQpToInit`, `modifyQpToRtr`, `modifyQpToRts`: the attributes that it is given;
* `connectQp`: the three of them one after the other;
* `Endpoint`: the listener and the connector of a node, which call it;
* `QpSetup.OnPort`: the port on which a queue pair is set up.
-/

namespace Farlock

namespace Bootstrap

/-- `ibv_gid` -/
abbrev Gid := Fin 16 → UInt8

/-- `ConnectionContext` -/
structure ConnectionContext where
  address : UInt64
  id : UInt32
  rkey : UInt32
  qpNum : UInt32
  lid : UInt16
  gid : Gid

/-- The attributes for `IBV_QPS_INIT` -/
structure InitAttr where
  portNum : UInt8
  pkeyIndex : UInt16

/-- The global route of an address handle. -/
structure GlobalRoute where
  dgid : Gid
  flowLabel : UInt32
  hopLimit : UInt8
  sgidIndex : UInt8
  trafficClass : UInt8

/-- The attributes for `IBV_QPS_RTR`; the route is there if `is_global` is set. -/
structure RtrAttr where
  destQpNum : UInt32
  rqPsn : UInt32
  maxDestRdAtomic : UInt8
  minRnrTimer : UInt8
  dlid : UInt16
  sl : UInt8
  srcPathBits : UInt8
  portNum : UInt8
  grh : Option GlobalRoute

/-- The attributes for `IBV_QPS_RTS` -/
structure RtsAttr where
  timeout : UInt8
  retryCnt : UInt8
  rnrRetry : UInt8
  sqPsn : UInt32
  maxRdAtomic : UInt8

/-- `ModifyQpToInit` -/
def modifyQpToInit (ibPort : ℕ) : InitAttr where
  portNum := UInt8.ofNat ibPort
  pkeyIndex := 0

/-- `ModifyQpToRtr` -/
def modifyQpToRtr (remoteQpn : UInt32) (dlid : UInt16) (dgid : Gid) (sgidIndex : ℤ) (ibPort : ℕ) :
    RtrAttr :=
  let attr : RtrAttr :=
    { destQpNum := remoteQpn
      rqPsn := 0
      maxDestRdAtomic := 8
      minRnrTimer := 12
      dlid := dlid
      sl := 0
      srcPathBits := 0
      portNum := UInt8.ofNat ibPort
      grh := none }
  if 0 ≤ sgidIndex then
    { attr with
      portNum := 1
      grh := some
        { dgid := dgid
          flowLabel := 0
          hopLimit := 1
          sgidIndex := UInt8.ofNat sgidIndex.toNat
          trafficClass := 0 } }
  else attr

/-- `ModifyQpToRts` -/
def modifyQpToRts : RtsAttr where
  timeout := 12
  retryCnt := 7
  rnrRetry := 7
  sqPsn := 0
  maxRdAtomic := 8

/-- What a queue pair is given on its way. -/
structure QpSetup where
  init : InitAttr
  rtr : RtrAttr
  rts : RtsAttr

/-- `TargetContext`, with what the queue pair was given.  The queue pairs of a node are numbered in
the order of their creation. -/
structure TargetContext where
  qp : ℕ
  setup : QpSetup
  address : UInt64
  rkey : UInt32

/-- `ConnectQp`; it does not hand `ib_port` over to `ModifyQpToInit`, whose default is `1`. -/
def connectQp (qp : ℕ) (ctx : ConnectionContext) (sgidIndex : ℤ) (ibPort : ℕ) : TargetContext where
  qp := qp
  setup :=
    { init := modifyQpToInit 1
      rtr := modifyQpToRtr ctx.qpNum ctx.lid ctx.gid sgidIndex ibPort
      rts := modifyQpToRts }
  address := ctx.address
  rkey := ctx.rkey

/-- What the connector and the listener of a node have in their members. -/
structure Endpoint where
  lid : UInt16
  gidIndex : ℤ
  gid : Gid
  ibPort : ℕ

/-- `ConnectLoopback`: the node is its own peer. -/
def Endpoint.connectLoopback (e : Endpoint) (qp : ℕ) (address : UInt64) (rkey qpNum : UInt32) :
    TargetContext :=
  connectQp qp ⟨address, 0, rkey, qpNum, e.lid, e.gid⟩ e.gidIndex e.ibPort

/-- `Connect`, when the peer's context has been received. -/
def Endpoint.connect (e : Endpoint) (qp : ℕ) (ctx : ConnectionContext) : TargetContext :=
  connectQp qp ctx e.gidIndex e.ibPort

/-- The listener, when a client's context has been received. -/
def Endpoint.accept (e : Endpoint) (qp : ℕ) (ctx : ConnectionContext) : TargetContext :=
  connectQp qp ctx e.gidIndex e.ibPort

/-- A queue pair is set up on port `j`. -/
def QpSetup.OnPort (q : QpSetup) (j : ℕ) : Prop := q.init.portNum.toNat = j ∧ q.rtr.portNum.toNat = j

end Bootstrap

end Farlock
