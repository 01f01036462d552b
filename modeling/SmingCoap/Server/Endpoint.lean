import SmingCoap.Wire.Memory

/-! # Endpoints and datagrams

`coap_if_Endpoint.c` and `coap_if_Packet.h`.  The address is a union of 16 bytes;
of an IPv4 address only the first four count.
-/

namespace SmingCoap.Server

open Wire (Memory)

inductive NetInterfaceType where
  | ipv6
  | ipv4
  | btle
  | uart
  deriving DecidableEq, Repr

def netAddrMaxLength : Nat := 16

structure NetEp where
  netType : NetInterfaceType
  netAddr : List UInt8
  netPort : UInt16
  sized : netAddr.length = netAddrMaxLength
  deriving DecidableEq, Repr

/-- `EpAreEqual`. -/
def epAreEqual (epA epB : NetEp) : Bool :=
  if epA.netType ≠ epB.netType then false
  else if epA.netPort ≠ epB.netPort then false
  else
    match epA.netType with
    | .ipv6 => epA.netAddr = epB.netAddr
    | .ipv4 => epA.netAddr.take 4 = epB.netAddr.take 4
    | _ => epA.netAddr = epB.netAddr

/-- The bytes that count. -/
def NetEp.significant (ep : NetEp) : NetInterfaceType × UInt16 × List UInt8 :=
  (ep.netType, ep.netPort, if ep.netType = .ipv4 then ep.netAddr.take 4 else ep.netAddr)

theorem epAreEqual_iff (epA epB : NetEp) : epAreEqual epA epB = true ↔ epA.significant = epB.significant := by
  obtain ⟨typeA, addrA, portA, _⟩ := epA
  obtain ⟨typeB, addrB, portB, _⟩ := epB
  simp only [epAreEqual, NetEp.significant, Prod.mk.injEq]
  by_cases types : typeA = typeB
  · subst types
    by_cases ports : portA = portB
    · subst ports
      cases typeA with
      | ipv6 => simp
      | ipv4 => simp
      | btle => simp
      | uart => simp
    · simp [ports]
  · simp [types]

theorem epAreEqual_refl (ep : NetEp) : epAreEqual ep ep = true := (epAreEqual_iff ep ep).mpr rfl

theorem epAreEqual_symm {epA epB : NetEp} (same : epAreEqual epA epB = true) : epAreEqual epB epA = true :=
  (epAreEqual_iff epB epA).mpr ((epAreEqual_iff epA epB).mp same).symm

theorem epAreEqual_trans {epA epB epC : NetEp} (same : epAreEqual epA epB = true)
    (too : epAreEqual epB epC = true) : epAreEqual epA epC = true :=
  (epAreEqual_iff epA epC).mpr (((epAreEqual_iff epA epB).mp same).trans ((epAreEqual_iff epB epC).mp too))

/-- `MetaInfo_t`: nothing, or the path a packet took over the radio. -/
inductive MetaInfo where
  | none
  | rfPath (hopCount : UInt8) (rssi : Int)
  deriving DecidableEq

/-- `NetPacket_t` as it is received, with the interface. -/
structure NetPacket where
  ifID : UInt8
  data : Memory
  size : UInt16
  sender : NetEp
  metaInfo : MetaInfo

end SmingCoap.Server
