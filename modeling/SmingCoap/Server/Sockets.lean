import SmingCoap.Server.Endpoint

/-! # Interface sockets

`coap_if_Socket.c` with the functions of `lobaro-coap_esp8266.c` that create and
delete a socket.  A socket is a place in a table of fixed size; its `Alive` flag
says that it is in use.
-/

namespace SmingCoap.Server

def maxActiveSockets : Nat := 5

/-- `NetSocket_t`; the handle is the address of a connection, and callbacks are told apart by numbers. -/
structure NetSocket where
  handle : Option Nat
  ifID : UInt8
  epLocal : NetEp
  epRemote : NetEp
  rxCB : Option Nat
  tx : Option Nat
  alive : Bool

/-- `SocketCtrl`. -/
structure SocketCtrl where
  socketMemory : Fin maxActiveSockets → NetSocket
  initDone : Bool

/-- What the functions set of a `struct espconn`, at its address. -/
structure Espconn where
  address : Nat
  localPort : UInt16
  remotePort : UInt16
  remoteIp : List UInt8

/-- An endpoint in static memory. -/
def blankEp : NetEp where
  netType := .ipv6
  netAddr := List.replicate netAddrMaxLength 0
  netPort := 0
  sized := List.length_replicate

namespace SocketCtrl

/-- The table as the program starts. -/
def initial : SocketCtrl where
  socketMemory := fun _ => ⟨none, 0, blankEp, blankEp, none, none, false⟩
  initDone := false

/-- The first socket that passes a test. -/
def search (this : SocketCtrl) (test : NetSocket → Bool) : Option (Fin maxActiveSockets) :=
  (List.finRange maxActiveSockets).find? fun i => test (this.socketMemory i)

def modify (this : SocketCtrl) (i : Fin maxActiveSockets) (change : NetSocket → NetSocket) : SocketCtrl :=
  { this with socketMemory := fun j => if j = i then change (this.socketMemory j) else this.socketMemory j }

/-- `AllocSocket`. -/
def allocSocket (this : SocketCtrl) : Option (Fin maxActiveSockets) × SocketCtrl :=
  let this :=
    if this.initDone then this
    else { socketMemory := fun i => { this.socketMemory i with alive := false }, initDone := true }
  (this.search fun socket => socket.alive = false, this)

/-- `RetrieveSocket`. -/
def retrieveSocket (this : SocketCtrl) (handle : Option Nat) : Option (Fin maxActiveSockets) :=
  this.search fun socket => socket.alive && socket.handle = handle

/-- `RetrieveSocket2`. -/
def retrieveSocket2 (this : SocketCtrl) (ifID : UInt8) : Option (Fin maxActiveSockets) :=
  this.search fun socket => socket.alive && socket.ifID = ifID

/-- The dummy broadcast address. -/
def broadcastIp : List UInt8 := [192, 168, 255, 255]

def setEndpoints (localPort : UInt16) (socket : NetSocket) : NetSocket :=
  { socket with
    epLocal := { socket.epLocal with netType := .ipv4, netPort := localPort }
    epRemote := {
      netType := .ipv4
      netAddr := broadcastIp ++ socket.epRemote.netAddr.drop 4
      netPort := localPort
      sized := by simp [broadcastIp, socket.epRemote.sized, netAddrMaxLength] } }

/-- `CoAP_ESP8266_CreateInterfaceSocket`.  `espconnCreate` says whether a connection can be created. -/
def createInterfaceSocket (espconnCreate : Espconn → Bool) (this : SocketCtrl) (ifID : UInt8)
    (pEsp8266_conn : Option Espconn) (localPort : UInt16) (callback sendPacket : Option Nat) :
    Option (Fin maxActiveSockets) × SocketCtrl :=
  match pEsp8266_conn with
  | none => (none, this)
  | some conn =>
    if this.retrieveSocket2 ifID ≠ none then (none, this)
    else if callback = none ∨ sendPacket = none then (none, this)
    else
      match this.allocSocket with
      | (none, this) => (none, this)
      | (some pSocket, this) =>
        let this := this.modify pSocket (setEndpoints localPort)
        if espconnCreate { conn with localPort, remotePort := localPort, remoteIp := broadcastIp } then
          (some pSocket, this.modify pSocket fun socket =>
            { socket with handle := some conn.address, ifID, rxCB := callback, tx := sendPacket, alive := true })
        else (none, this)

/-- `CoAP_ESP8266_DeleteInterfaceSocket`: whether it finds a socket, whose connection is deleted. -/
def deleteInterfaceSocket (this : SocketCtrl) (ifID : UInt8) : Bool × SocketCtrl :=
  match this.retrieveSocket2 ifID with
  | some _ => (true, this)
  | none => (false, this)

end SocketCtrl

end SmingCoap.Server
