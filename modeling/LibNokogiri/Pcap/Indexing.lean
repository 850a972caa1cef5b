import LibNokogiri.Pcap.HeaderReading

/-! # The indexing loop refines the scan of length-prefixed records

`ingest_packets` never looks at a whole packet header: it hops over eight
bytes, reads the length field, and hops over the rest of the record. Every
bounds check is implicit in a read that comes back short, and the loop ends on
the end-of-file flag that the last hop leaves behind.
-/

namespace LibNokogiri.Pcap

open ByteCodec Framing Loop Internal

def stored (e : Entry) : PacketStorageT := { len := UInt32.ofNat e.length, offset := e.offset }

def PacketStorageT.entry (storage : PacketStorageT) : Entry := ⟨storage.len.toNat, storage.offset⟩

theorem entry_stored {e : Entry} (h : e.length < 2 ^ 32) : (stored e).entry = e := by
  have hlen : (UInt32.ofNat e.length).toNat = e.length := UInt32.toNat_ofNat_of_lt h
  simp only [PacketStorageT.entry, stored, hlen]

theorem lengthAt_lt (host : Order) (variant : PcapVariantT) (content : Bytes) (pos : Nat) :
    (recordFormat host variant).lengthAt content pos < 2 ^ 32 := by
  have hwidth : (slice content (pos + 8) 4).length ≤ 4 := by
    rw [slice_length]
    omega
  have hlt := decode_lt host (slice content (pos + 8) 4)
  have hpow : 256 ^ (slice content (pos + 8) 4).length ≤ 256 ^ 4 :=
    Nat.pow_le_pow_right (by decide) hwidth
  exact Nat.lt_of_lt_of_le hlt hpow

theorem toNat_lengthAt {host : Order} {variant : PcapVariantT} {content : Bytes} {pos : Nat}
    (hfit : (recordFormat host variant).Fits content pos) :
    (load host (slice content (pos + 8) 4) : UInt32).toNat =
      (recordFormat host variant).lengthAt content pos := by
  have hlen : (slice content (pos + 8) 4).length = Scalar.width UInt32 :=
    slice_length_of_le hfit
  exact toNat_load host hlen

section Hops

variable {fd : Fd} {f : RegularFile} {pos offset : Nat}

theorem hop_near (hfd : fd.fd = some ⟨f, pos⟩) (hlen : fd.LengthFresh f)
    (h : pos + offset < offLimit) :
    fd.seek (ptrdiffT offset) .cur =
      (ptrdiffT ((offset : Int) + (pos : Int)), fd.placedAt f (pos + offset)) := by
  have hoffset : ptrdiffT (offset : Int) = offset := ptrdiffT_of_lt (by omega)
  have hsum : ptrdiffT ((offset : Int) + (pos : Int)) = ((pos + offset : Nat) : Int) := by
    rw [Int.add_comm, ← Int.natCast_add]
    exact ptrdiffT_of_lt h
  rw [hoffset, hsum, FdT.seek_cur hfd hlen h]

/-- A hop to a position that no `off_t` holds is noticed. -/
theorem hop_far (hfd : fd.fd = some ⟨f, pos⟩) (hlen : fd.LengthFresh f)
    (hpos : pos < offLimit) (hoffset : offset < 2 ^ 33) (h : offLimit ≤ pos + offset) :
    (fd.seek (ptrdiffT offset) .cur).1 ≠ ptrdiffT ((offset : Int) + (pos : Int)) := by
  have hptr : ptrdiffT (offset : Int) = offset := by
    apply ptrdiffT_of_lt
    unfold offLimit
    omega
  have hsum : ptrdiffT ((offset : Int) + (pos : Int)) ≠ -1 := by
    rw [Int.add_comm, ← Int.natCast_add]
    apply ptrdiffT_ne_neg_one
    unfold offLimit at hpos
    clear hptr
    omega
  rw [hptr, FdT.seek_cur_far hfd hlen h]
  exact hsum.symm

end Hops

namespace PcapT

abbrev format (host : Order) (self : PcapT) : Format := recordFormat host self.header.variant

def hopOver (host : Order) (f : RegularFile) (pos : Nat) (self : PcapT) : PcapT :=
  { self with
    file := self.file.placedAt f
      ((self.format host).recordEnd ((self.format host).entryAt f.content pos))
    packets := self.packets ++ [stored ((self.format host).entryAt f.content pos)] }

section Round

variable {host : Order} {self : PcapT} {f : RegularFile} {pos : Nat}

theorem ingestPacket_eof (h : self.file.eof = true) :
    ingestPacket host self = .stop (true, self) := by
  simp [ingestPacket, FdT.isEOF, h]

theorem ingestPacket_short (host : Order) (hfd : self.file.fd = some ⟨f, pos⟩)
    (hlen : self.file.LengthFresh f) (heof : self.file.eof = false) (hpos : pos < offLimit)
    (hshort : f.size < pos + 12) :
    ∃ file : Fd, file.Measured f ∧
      ingestPacket host self = .stop (false, { self with file }) := by
  by_cases hfar : pos + pktLenOffset < offLimit
  · have hread : ((self.file.placedAt f (pos + 8)).read UInt32 host).1 = none :=
      FdT.read_of_lt rfl (by decide) (show f.size < pos + 8 + 4 by omega)
    obtain ⟨hfd', hlen'⟩ :=
      FdT.read_onFile UInt32 host (FdT.placedAt_fd self.file f (pos + pktLenOffset))
    refine ⟨_, ⟨hfd', hlen'⟩, ?_⟩
    simp only [ingestPacket, FdT.isEOF, heof, FdT.tell_eq hfd, hop_near hfd hlen hfar]
    simp only [pktLenOffset, hread]
    simp
  · have hfar' := hop_far hfd hlen hpos (by decide : pktLenOffset < 2 ^ 33) (by omega)
    refine ⟨_, FdT.seek_measured hfd hlen (ptrdiffT pktLenOffset) .cur, ?_⟩
    simp only [ingestPacket, FdT.isEOF, heof, FdT.tell_eq hfd, if_pos hfar']
    simp

section Fits

variable (hfd : self.file.fd = some ⟨f, pos⟩) (hlen : self.file.LengthFresh f)
  (heof : self.file.eof = false) (hfit : (self.format host).Fits f.content pos)

include hfd hlen heof hfit

theorem ingestPacket_fits :
    ingestPacket host self =
      let e := (self.format host).entryAt f.content pos
      let hop := e.length + getPacketBodyOffset self.header.variant
      let packets := self.packets ++ [stored e]
      let t := ((self.file.placedAt f (pos + 8)).movedTo f (pos + 12)).seek (ptrdiffT hop) .cur
      if t.1 ≠ ptrdiffT ((hop : Int) + ((pos + 12 : Nat) : Int)) then
        .stop (false, { self with file := t.2, packets })
      else .more { self with file := t.2, packets } := by
  have hle : pos + 8 + 4 ≤ f.size := hfit
  have hsize : f.size < offLimit := f.size_lt
  have hread : (self.file.placedAt f (pos + pktLenOffset)).read UInt32 host =
      (some (load host (slice f.content (pos + 8) 4)),
        (self.file.placedAt f (pos + 8)).movedTo f (pos + 12)) :=
    FdT.read_of_le rfl hle
  have hptr : uintptrT (pos : Int) = pos := uintptrT_natCast (by omega)
  have hnear : pos + pktLenOffset < offLimit := by
    unfold pktLenOffset
    omega
  simp only [ingestPacket, FdT.isEOF, heof, FdT.tell_eq hfd, hop_near hfd hlen hnear, hread,
    hptr, toNat_lengthAt hfit, FdT.tell_eq (FdT.movedTo_fd _ f (pos + 12))]
  simp only [ne_eq, not_true_eq_false, if_false, Bool.false_eq_true]
  rfl

theorem ingestPacket_near
    (hend : (self.format host).recordEnd ((self.format host).entryAt f.content pos) < offLimit) :
    ingestPacket host self = .more (self.hopOver host f pos) := by
  have hsum : pos + 12 + (((self.format host).entryAt f.content pos).length +
      getPacketBodyOffset self.header.variant) =
      (self.format host).recordEnd ((self.format host).entryAt f.content pos) := by
    have hheader := packetHeaderSize_eq self.header.variant
    simp only [Format.recordEnd, Format.entryAt, recordFormat]
    omega
  have hhop := hop_near (FdT.movedTo_fd (self.file.placedAt f (pos + 8)) f (pos + 12))
    (FdT.lengthFresh_placedAt self.file f (pos + 8)) (by rw [hsum]; exact hend)
  rw [ingestPacket_fits hfd hlen heof hfit]
  simp only [hhop, hsum]
  simp [hopOver]

/-- The record ends past every `off_t`: the hop fails and the loop gives up. -/
theorem ingestPacket_far
    (hend : offLimit ≤ (self.format host).recordEnd ((self.format host).entryAt f.content pos)) :
    ∃ file : Fd, file.Measured f ∧
      ingestPacket host self = .stop (false, { self.hopOver host f pos with file }) := by
  have hheader := packetHeaderSize_eq self.header.variant
  have hbody := getPacketBodyOffset_le self.header.variant
  have hlength : ((self.format host).entryAt f.content pos).length < 2 ^ 32 := by
    rw [Format.entryAt, ← toNat_lengthAt hfit]
    exact UInt32.toNat_lt _
  have hsum : offLimit ≤ pos + 12 +
      (((self.format host).entryAt f.content pos).length +
        getPacketBodyOffset self.header.variant) := by
    simp only [Format.recordEnd, Format.entryAt, recordFormat] at hend ⊢
    omega
  have hpos : pos + 12 < offLimit := Nat.lt_of_le_of_lt hfit f.size_lt
  have hfd' := FdT.movedTo_fd (self.file.placedAt f (pos + 8)) f (pos + 12)
  have hlen' := FdT.lengthFresh_placedAt self.file f (pos + 8)
  have hhop := hop_far hfd' hlen' hpos (by omega) hsum
  rw [ingestPacket_fits hfd hlen heof hfit]
  exact ⟨_, FdT.seek_measured hfd' hlen' _ .cur, if_pos hhop⟩

end Fits

end Round

/-! ## The whole loop -/

section IngestPackets

variable {host : Order} {f : RegularFile}

/-- The loop entered at `pos` without the end-of-file flag ends with what the
scan from `pos` finds, on every file. -/
theorem ingest_ends (variant : PcapVariantT) (pos : Nat) (self : PcapT)
    (hvariant : self.header.variant = variant) (hfd : self.file.fd = some ⟨f, pos⟩)
    (hlen : self.file.LengthFresh f) (heof : self.file.eof = false) (hpos : pos < offLimit) :
    ∃ file : Fd, file.Measured f ∧
      Ends (ingestPacket host) self
        (((recordFormat host variant).scan f.content pos).2,
          { self with
            file
            packets := self.packets ++
              ((recordFormat host variant).scan f.content pos).1.map stored }) := by
  have hsize : f.size < offLimit := f.size_lt
  induction pos using Format.scan.induct (recordFormat host variant) f.content
    generalizing self with
  | case1 pos hfit hend =>
      subst hvariant
      have hlt : (self.format host).recordEnd ((self.format host).entryAt f.content pos) <
          offLimit := by
        rw [hend]
        exact hsize
      have hstep := ingestPacket_near hfd hlen heof hfit hlt
      have heof' : (self.hopOver host f pos).file.eof = true := decide_eq_true hend
      refine ⟨(self.hopOver host f pos).file, ⟨⟨_, rfl⟩, rfl⟩, ?_⟩
      rw [Format.scan_last hfit hend]
      exact .more hstep (.stop (ingestPacket_eof heof'))
  | case2 pos hfit hend ih =>
      subst hvariant
      by_cases hlt : (self.format host).recordEnd ((self.format host).entryAt f.content pos) <
          offLimit
      · have hstep := ingestPacket_near hfd hlen heof hfit hlt
        have heof' : (self.hopOver host f pos).file.eof = false := decide_eq_false hend
        obtain ⟨file, hfile, hrest⟩ :=
          ih (self.hopOver host f pos) rfl rfl (FdT.lengthFresh_placedAt _ _ _) heof' hlt
        refine ⟨file, hfile, ?_⟩
        rw [Format.scan_hop hfit hend]
        simpa [hopOver] using Ends.more hstep hrest
      · -- the scan overshoots as well and finds no further length field
        have hshort : ¬ (self.format host).Fits f.content
            ((self.format host).recordEnd ((self.format host).entryAt f.content pos)) := by
          intro hfits
          have hle : (self.format host).recordEnd ((self.format host).entryAt f.content pos) +
              8 + 4 ≤ f.size := hfits
          omega
        obtain ⟨file, hfile, hstep⟩ := ingestPacket_far hfd hlen heof hfit (Nat.not_lt.mp hlt)
        refine ⟨file, hfile, ?_⟩
        rw [Format.scan_hop hfit hend, Format.scan_short hshort]
        exact .stop hstep
  | case3 pos hfit =>
      have hshort : f.size < pos + 12 := by
        have h : ¬ pos + 8 + 4 ≤ f.size := hfit
        omega
      obtain ⟨file, hfile, hstep⟩ := ingestPacket_short host hfd hlen heof hpos hshort
      refine ⟨file, hfile, ?_⟩
      rw [Format.scan_short hfit]
      simpa using Ends.stop hstep

theorem ingestPackets_eq (host : Order) (pos : Nat) (self : PcapT)
    (hfd : self.file.fd = some ⟨f, pos⟩) (hlen : self.file.LengthFresh f)
    (heof : self.file.eof = false) (hpos : pos < offLimit) :
    ∃ file : Fd, file.Measured f ∧
      self.ingestPackets host =
        (((self.format host).scan f.content pos).2,
          { self with
            file
            packets := self.packets ++ ((self.format host).scan f.content pos).1.map stored }) := by
  obtain ⟨file, hfile, hends⟩ := ingest_ends self.header.variant pos self rfl hfd hlen heof hpos
  exact ⟨file, hfile, loop_eq_of_ends hends⟩

end IngestPackets

end PcapT

end LibNokogiri.Pcap
