import LibNokogiri.Pcap.Header

/-! # Packets and their headers -/

namespace LibNokogiri.Pcap

open ByteCodec Framing Internal

structure PacketHeaderT where
  timestamp : UInt32
  useconds : UInt32
  capturedLen : UInt32
  actualLen : UInt32
deriving DecidableEq

structure PacketHeaderModifiedT where
  baseHeader : PacketHeaderT
  interfaceIndex : UInt32
  protocol : UInt16
  type : UInt8
  padding : UInt8
deriving DecidableEq

/-- The object representation: four 32-bit members without padding. -/
instance : Pod PacketHeaderT where
  size := 16
  ofBytes host bs :=
    { timestamp := load host (slice bs 0 4)
      useconds := load host (slice bs 4 4)
      capturedLen := load host (slice bs 8 4)
      actualLen := load host (slice bs 12 4) }

instance : Pod PacketHeaderModifiedT where
  size := 24
  ofBytes host bs :=
    { baseHeader := Pod.ofBytes host (slice bs 0 16)
      interfaceIndex := load host (slice bs 16 4)
      protocol := load host (slice bs 20 2)
      type := load host (slice bs 22 1)
      padding := load host (slice bs 23 1) }

def PacketHeaderT.fullPacket (self : PacketHeaderT) : Bool := self.actualLen == self.capturedLen

inductive PktHeaderT
  | monostate
  | standard (header : PacketHeaderT)
  | modified (header : PacketHeaderModifiedT)
deriving DecidableEq

/-- The visitor that sizes the packet buffer. -/
def PktHeaderT.capturedLen : PktHeaderT → Nat
  | .modified header => header.baseHeader.capturedLen.toNat
  | .standard header => header.capturedLen.toNat
  | .monostate => 2 ^ 32 - 1

structure PacketT where
  rawData : Bytes
  packetHeader : PktHeaderT
deriving DecidableEq

namespace PacketT

def empty : PacketT := ⟨[], .monostate⟩

def length (self : PacketT) : Nat := self.rawData.length

def isComplete (self : PacketT) : Bool :=
  match self.packetHeader with
  | .modified header => header.baseHeader.fullPacket
  | .standard header => header.fullPacket
  | .monostate => false

end PacketT

/-! ## Typed access -/

/-- How the accessors initialise the object they construct: `T{}` or `T{nullptr}`. -/
inductive Initializer
  | value
  | null
deriving DecidableEq, Repr

/-- An element type as the accessors see it. Constructing an object in place
replaces the bytes of its storage, apart from padding that may keep them, and
the object has the same value whatever they were. -/
structure ElementT where
  Value : Type
  size : Nat
  size_pos : 0 < size
  ofBytes : Order → Bytes → Value
  hasNullableCtor : Bool
  emplaced : Initializer → Bytes → Bytes
  emplaced_length : ∀ init bs, bs.length = size → (emplaced init bs).length = size
  initial : Initializer → Value
  ofBytes_emplaced : ∀ host init bs, bs.length = size →
    ofBytes host (emplaced init bs) = initial init

def ElementT.initializer (T : ElementT) : Initializer :=
  if T.hasNullableCtor then .null else .value

def ElementT.constructed (T : ElementT) (storage : Bytes) : Bytes :=
  T.emplaced T.initializer storage

/-- What an accessor gives: the pointer, as an offset from `data()`, and the
packet afterwards. An object that does not fit is constructed over memory that
is not the packet's, which leaves no defined packet. -/
structure TypedAccess where
  pointer : Option Nat
  packet : Option PacketT

namespace PacketT

variable (self : PacketT) (T : ElementT)

/-- Placement new at element `offset`; the product is a `size_t`. -/
def emplace (init : Initializer) (offset : Nat) : TypedAccess :=
  let address := offset * T.size % 2 ^ 64
  { pointer := some address
    packet :=
      if address + T.size ≤ self.rawData.length then
        some { self with
          rawData := overwrite self.rawData address
            (T.emplaced init (slice self.rawData address T.size)) }
      else none }

/-- The two typed overloads of `index`; their guard counts bytes. -/
def indexWith (init : Initializer) (offset : Nat) : TypedAccess :=
  if offset < self.rawData.length then self.emplace T init offset
  else { pointer := none, packet := some self }

def index (offset : Nat) : TypedAccess := self.indexWith T T.initializer offset

def indexVoid (offset : Nat) : Option Nat :=
  if offset < self.rawData.length then some offset else none

def subscript (idx : Int64) : TypedAccess := self.index T idx.toUInt64.toNat

def «at» (idx : Int64) : TypedAccess := self.index T idx.toUInt64.toNat

def address (offset : Int64) : Option Nat := self.indexVoid offset.toUInt64.toNat

end PacketT

structure PacketStorageT where
  len : UInt32
  offset : Nat
  packetCache : PacketT := PacketT.empty
deriving DecidableEq

namespace PacketStorageT

def setPacket (self : PacketStorageT) (pkt : PacketT) : PacketStorageT :=
  { self with packetCache := pkt }

end PacketStorageT

end LibNokogiri.Pcap
