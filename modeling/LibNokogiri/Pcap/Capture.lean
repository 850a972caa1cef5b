import LibNokogiri.Internal.Iterator
import LibNokogiri.Internal.Zlib
import LibNokogiri.Pcap.Packet

/-! # The `pcap_t` capture container

The constructor, the two passes over the file and the move operations, member
by member as the source has them. What the kernel and zlib answer during one
construction is an argument.
-/

namespace LibNokogiri.Pcap

open ByteCodec Framing Loop Internal

def getPacketBodyOffset : PcapVariantT → Nat
  | .modified => 12
  | _ => 4

theorem getPacketBodyOffset_le (v : PcapVariantT) : getPacketBodyOffset v ≤ 12 := by
  unfold getPacketBodyOffset
  split <;> omega

/-- `prefetch` is `none` where the move constructor leaves it uninitialised. -/
structure PcapT where
  file : Fd
  compression : CaptureCompressionT
  readonly : Bool
  prefetch : Option Bool
  header : FileHeaderT := {}
  valid : Bool := false
  needsSwapping : Bool := false
  packets : List PacketStorageT := []
deriving DecidableEq

namespace PcapT

/-! ## The file header -/

def swapped {α : Type} [Scalar α] (self : PcapT) (value : α) : α :=
  swapIf self.needsSwapping value

section ReadHeader

variable (host : Order) (next : PcapT → Bool × PcapT)

def readMagic (self : PcapT) : Bool × PcapT :=
  let r := self.file.read UInt32 host
  let self := { self with file := r.2 }
  match r.1 with
  | none => (false, self)
  | some magic =>
      match PcapVariantT.ofUInt32 magic with
      | .standard | .modified | .ixiahw | .ixiasw | .nanosecond =>
          next { self with
            header := { self.header with variant := PcapVariantT.ofUInt32 magic } }
      | .swappedStandard | .swappedModified | .swappedIXIAHW | .swappedIXIASW
      | .swappedNanosecond =>
          next { self with
            needsSwapping := true
            header := { self.header with variant := PcapVariantT.ofUInt32 (bswap magic) } }
      | .unnamed _ => (false, self)

/-- Both halves are read before either is looked at. -/
def readVersion (self : PcapT) : Bool × PcapT :=
  let majorv := self.file.read UInt16 host
  let minorv := majorv.2.read UInt16 host
  let self := { self with file := minorv.2 }
  match majorv.1, minorv.1 with
  | some major, some minor =>
      next { self with
        header := { self.header with version := ⟨self.swapped major, self.swapped minor⟩ } }
  | _, _ => (false, self)

def readField {α : Type} [Scalar α] (set : α → FileHeaderT → FileHeaderT) (self : PcapT) :
    Bool × PcapT :=
  let r := self.file.read α host
  let self := { self with file := r.2 }
  match r.1 with
  | none => (false, self)
  | some value => next { self with header := set (self.swapped value) self.header }

end ReadHeader

def readTzOffset (host : Order) (next : PcapT → Bool × PcapT) : PcapT → Bool × PcapT :=
  readField host next fun (tz : Int32) header => { header with tzOffset := tz }

def readTimestampFigs (host : Order) (next : PcapT → Bool × PcapT) : PcapT → Bool × PcapT :=
  readField host next fun (figs : UInt32) header => { header with timestampFigs := figs }

def readPcklenMax (host : Order) (next : PcapT → Bool × PcapT) : PcapT → Bool × PcapT :=
  readField host next fun (len : UInt32) header => { header with pcklenMax := len }

/-- The cast to `link_type_t` keeps the low 16 bits. -/
def readNetwork (host : Order) (next : PcapT → Bool × PcapT) : PcapT → Bool × PcapT :=
  readField host next fun (type : UInt32) header => { header with network := ⟨type.toUInt16⟩ }

def readHeader (host : Order) (self : PcapT) : Bool × PcapT :=
  (readMagic host <| readVersion host <| readTzOffset host <| readTimestampFigs host <|
    readPcklenMax host <| readNetwork host fun self => (true, self)) self

/-! ## The packet index -/

def pktLenOffset : Nat := 8

def ingestPacket (host : Order) (self : PcapT) : Outcome PcapT (Bool × PcapT) :=
  if self.file.isEOF then .stop (true, self)
  else
    let prevPos := self.file.tell
    let s := self.file.seek (ptrdiffT pktLenOffset) .cur
    if s.1 ≠ ptrdiffT (pktLenOffset + prevPos) then .stop (false, { self with file := s.2 })
    else
      let r := s.2.read UInt32 host
      match r.1 with
      | none => .stop (false, { self with file := r.2 })
      | some size =>
          let packets := self.packets ++ [{ len := size, offset := uintptrT prevPos }]
          let pcktSize := r.2.tell
          let nextPacket := size.toNat + getPacketBodyOffset self.header.variant
          let t := r.2.seek (ptrdiffT nextPacket) .cur
          if t.1 ≠ ptrdiffT (nextPacket + pcktSize) then
            .stop (false, { self with file := t.2, packets })
          else .more { self with file := t.2, packets }

def remaining (self : PcapT) : Nat :=
  match self.file.fd with
  | none => 0
  | some f => f.file.size - f.pos

theorem readLength_cases (host : Order) {file : Fd} {size : UInt32}
    (hhop : (file.seek pktLenOffset .cur).1 = ptrdiffT (pktLenOffset + file.tell))
    (hread : ((file.seek pktLenOffset .cur).2.read UInt32 host).1 = some size) :
    ∃ f pos, file.fd = some ⟨f, pos⟩ ∧ pos + 12 ≤ f.size ∧
      ((file.seek pktLenOffset .cur).2.read UInt32 host).2.fd = some ⟨f, pos + 12⟩ := by
  cases hfd : file.fd with
  | none =>
      have hseek : (file.seek pktLenOffset .cur).1 = -1 := by simp only [FdT.seek, hfd]
      have htell : file.tell = -1 := by simp only [FdT.tell, hfd]
      rw [hseek, htell] at hhop
      exact absurd hhop (by decide)
  | some g =>
      obtain ⟨f, pos⟩ := g
      rw [FdT.tell_eq hfd, ← Int.natCast_add] at hhop
      have hwidth : Pod.size UInt32 = 4 := rfl
      -- the read finds its bytes, so the position is not one where a failed hop goes unnoticed
      have hle : pos ≤ f.size := by
        rcases FdT.seek_cur_fd hfd pktLenOffset with ⟨_, hat⟩ | ⟨_, hat⟩
        · have hfits := (FdT.read_some hat (by decide) hread).1
          omega
        · have hfits := (FdT.read_some hat (by decide) hread).1
          omega
      have hsize : f.size < offLimit := f.size_lt
      have hlt : pktLenOffset + pos < 2 ^ 64 - 1 := by
        unfold offLimit at hsize
        unfold pktLenOffset
        omega
      obtain ⟨hfits, hbehind⟩ :=
        FdT.read_some (FdT.seek_cur_lands hfd hlt hhop) (by decide) hread
      exact ⟨f, pos, rfl, hfits, hbehind⟩

/-- What a round can do: stop with the index as it was, or index the record
at the position, and then stop or hop to its end. -/
theorem ingestPacket_cases (host : Order) (self : PcapT) :
    (∃ ok file, ingestPacket host self = .stop (ok, { self with file })) ∨
      ∃ f pos size file, self.file.fd = some ⟨f, pos⟩ ∧ pos + 12 ≤ f.size ∧
        let indexed := { self with
          file, packets := self.packets ++ [{ len := size, offset := pos }] }
        ingestPacket host self = .stop (false, indexed) ∨
          ingestPacket host self = .more indexed ∧ file.fd =
            some ⟨f, pos + 12 + (size.toNat + getPacketBodyOffset self.header.variant)⟩ := by
  have hoff : ptrdiffT pktLenOffset = (pktLenOffset : Nat) := ptrdiffT_of_lt (by decide)
  unfold ingestPacket
  rw [hoff]
  split
  · exact .inl ⟨_, _, rfl⟩
  dsimp only
  split
  · exact .inl ⟨_, _, rfl⟩
  rename_i hhop
  split
  · exact .inl ⟨_, _, rfl⟩
  rename_i size hread
  obtain ⟨f, pos, hfd, hle, hbehind⟩ := readLength_cases host (Decidable.not_not.mp hhop) hread
  have hlimit : f.size < offLimit := f.size_lt
  have hbody := getPacketBodyOffset_le self.header.variant
  have hsize : size.toNat < 2 ^ 32 := size.toNat_lt
  have hptr : uintptrT (pos : Int) = pos := uintptrT_natCast (by omega)
  rw [FdT.tell_eq hfd, FdT.tell_eq hbehind, hptr, ← Int.natCast_add]
  right
  refine ⟨f, pos, size, ?_⟩
  have hhops : size.toNat + getPacketBodyOffset self.header.variant < 2 ^ 33 := by omega
  generalize size.toNat + getPacketBodyOffset self.header.variant = hop at hhops ⊢
  generalize (FdT.read UInt32 host _).2 = behind at hbehind ⊢
  have hnext : ptrdiffT (hop : Int) = hop := ptrdiffT_of_lt (Nat.lt_trans hhops (by decide))
  have hlt : hop + (pos + 12) < 2 ^ 64 - 1 := by
    unfold offLimit at hlimit
    clear hnext hptr
    omega
  rw [hnext]
  refine ⟨(behind.seek hop .cur).2, hfd, hle, ?_⟩
  split
  · exact .inl rfl
  · rename_i hat
    exact .inr ⟨rfl, FdT.seek_cur_lands hbehind hlt (Decidable.not_not.mp hat)⟩

theorem ingestPacket_remaining (host : Order) (self next : PcapT)
    (h : ingestPacket host self = .more next) : next.remaining < self.remaining := by
  rcases ingestPacket_cases host self with
    ⟨_, _, hstop⟩ | ⟨f, pos, size, file, hfd, hle, hstop | ⟨hmore, hfd'⟩⟩
  · rw [hstop] at h
    cases h
  · rw [hstop] at h
    cases h
  · rw [hmore] at h
    cases h
    simp only [remaining, hfd, hfd']
    omega

def ingestPackets (host : Order) (self : PcapT) : Bool × PcapT :=
  loop (ingestPacket host) remaining (ingestPacket_remaining host) self

/-! ## Construction -/

/-- What the kernel answers while one capture is constructed: the files that
the two `open` calls yield and the outcome of every `write`. -/
structure Opens where
  capture : Option RegularFile
  temporary : Option RegularFile
  temporaryName : String
  writes : Nat → WriteOutcome

def openFile (opened : Option RegularFile) (filename : String) (temp : Bool) : Fd :=
  { fd := opened.map fun file => ⟨file, 0⟩, temp, filename }

def parse (host : Order) (self : PcapT) : PcapT :=
  let header := self.readHeader host
  if !header.1 then header.2
  else
    let index := header.2.ingestPackets host
    if !index.1 then index.2 else { index.2 with valid := true }

def construct (host : Order) (z : Zlib) (os : Opens) (file : String)
    (compression : CaptureCompressionT) (readOnly prefetch : Bool) : PcapT :=
  let cap := openFile os.capture file false
  let detected :=
    if compression = .autodetect then detectCaptrueCompression cap else (compression, cap)
  let self : PcapT :=
    { file := FdT.default, compression := detected.1, readonly := readOnly,
      prefetch := some prefetch }
  if self.compression = .compressed then
    let temporary := openFile os.temporary os.temporaryName true
    let self := { self with file := (FdT.moveAssign self.file temporary).1 }
    let gzcap := (GzFileT.ofFd z detected.2).1
    let copied := gzcap.decompressTo self.file os.writes
    let self := { self with file := copied.2.file }
    if copied.1 = -1 then self
    else
      let rewound := self.file.head
      let self := { self with file := rewound.2 }
      if !rewound.1 then self else self.parse host
  else
    { self with file := (FdT.moveAssign self.file detected.2).1 }.parse host

/-! ## Reading packets -/

def readPacketHeader (host : Order) (variant : PcapVariantT) (file : Fd) :
    Option PktHeaderT × Fd :=
  match variant with
  | .modified =>
      let r := file.read PacketHeaderModifiedT host
      (r.1.map .modified, r.2)
  | _ =>
      let r := file.read PacketHeaderT host
      (r.1.map .standard, r.2)

/-- `get_packet(packet_storage_t&)`: the packet, the file and the element. -/
def getStoredPacket (host : Order) (self : PcapT) (storage : PacketStorageT) :
    Option PacketT × Fd × PacketStorageT :=
  let s := self.file.seek (ptrdiffT storage.offset) .set
  if s.1 ≠ ptrdiffT storage.offset then (none, s.2, storage)
  else
    let header := readPacketHeader host self.header.variant s.2
    match header.1 with
    | none => (none, header.2, storage)
    | some hdr =>
        -- the buffer is as long as the header says, and the read must fill it
        let body := header.2.readExact hdr.capturedLen
        match body.1 with
        | none => (none, body.2, storage)
        | some data => (some ⟨data, hdr⟩, body.2, storage.setPacket ⟨data, hdr⟩)

def packetCount (self : PcapT) : Nat := self.packets.length

/-- A call of `get_packet`: the elements of `_packets` it refers to, and the
result with the capture afterwards. A reference to an element that does not
exist leaves no defined outcome. -/
structure Access where
  touched : List Nat
  outcome : Option (Option PacketT × PcapT)

def getPacket (host : Order) (self : PcapT) (idx : Nat) : Access :=
  if idx ≤ self.packets.length then
    match self.packets[idx]? with
    | none => { touched := [idx], outcome := none }
    | some storage =>
        let r := self.getStoredPacket host storage
        { touched := [idx]
          outcome := some (r.1, { self with
            file := r.2.1, packets := self.packets.set idx r.2.2 }) }
  else { touched := [], outcome := some (none, self) }

/-- The packet a call returns; `none` for a null result and for no result. -/
def packetAt (host : Order) (self : PcapT) (idx : Nat) : Option PacketT :=
  (self.getPacket host idx).outcome.bind Prod.fst

/-! ## Iterators -/

def begin (self : PcapT) : BiIterator := .make 0 self.packets.length (Nat.zero_le _) true

def «end» (self : PcapT) : BiIterator := .make 0 self.packets.length (Nat.zero_le _) false

/-- The accessor of the capture's iterators, applied to an element of
`_packets`; at the end of the vector there is none to apply it to. -/
def accessor (host : Order) (self : PcapT) (position : Nat) : Option (Option PacketT × PcapT) :=
  match self.packets[position]? with
  | none => none
  | some storage =>
      let r := self.getStoredPacket host storage
      some (r.1, { self with file := r.2.1, packets := self.packets.set position r.2.2 })

/-! ## Moving captures -/

/-- `swap` exchanges five of the eight members. -/
def swap (self desc : PcapT) : PcapT × PcapT :=
  ({ self with
     file := desc.file, compression := desc.compression, readonly := desc.readonly
     header := desc.header, valid := desc.valid },
   { desc with
     file := self.file, compression := self.compression, readonly := self.readonly
     header := self.header, valid := self.valid })

def blank : PcapT :=
  { file := FdT.default, compression := .uncompressed, readonly := true, prefetch := none }

def moveConstruct (capture : PcapT) : PcapT × PcapT := swap blank capture

def moveAssign (self capture : PcapT) : PcapT × PcapT := swap self capture

end PcapT

end LibNokogiri.Pcap
