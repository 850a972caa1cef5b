import LibNokogiri.Pcap.Acceptance
import LibNokogiri.Pcap.Compression
import LibNokogiri.Pcap.Reencoding

/-! # Capture files that are edited

What happens to the capture when the bytes of its file change: records that are
appended show up behind the packets there were, and bytes that are overwritten
reach no further than the packets they belong to.
-/

namespace LibNokogiri.Pcap

open ByteCodec Framing Internal PcapT

/-! ## Packets in edited files -/

section PacketIn

variable {host : Order} {variant : PcapVariantT} {content content' : Bytes} {offset : Nat}
  {packet : PacketT}

theorem packetIn_shift (before : Bytes) :
    packetIn host variant (before ++ content) (before.length + offset) =
      packetIn host variant content offset := by
  have hheader : pktHeaderIn host variant (before ++ content) (before.length + offset) =
      pktHeaderIn host variant content offset := by
    rw [pktHeaderIn, slice_append_right, pktHeaderIn]
  have hfits : ∀ n, before.length + offset + n ≤ (before ++ content).length ↔
      offset + n ≤ content.length := by
    intro n
    rw [List.length_append]
    omega
  simp only [packetIn, hheader, Nat.add_assoc (before.length + offset), hfits]
  simp only [Nat.add_assoc, slice_append_right]

/-- A packet depends on the bytes of its record only. -/
theorem packetIn_congr (h : packetIn host variant content offset = some packet)
    (hsize : offset + (packetHeaderSize variant + packet.rawData.length) ≤ content'.length)
    (hrecord : slice content' offset (packetHeaderSize variant + packet.rawData.length) =
      slice content offset (packetHeaderSize variant + packet.rawData.length)) :
    packetIn host variant content' offset = some packet := by
  unfold packetIn at h
  dsimp only at h
  split at h
  · rename_i hinside
    cases h
    have hlen : (slice content (offset + packetHeaderSize variant)
        (pktHeaderIn host variant content offset).capturedLen).length =
          (pktHeaderIn host variant content offset).capturedLen := slice_length_of_le hinside.2
    simp only [hlen] at hsize hrecord
    have hheader : pktHeaderIn host variant content' offset =
        pktHeaderIn host variant content offset := by
      rw [pktHeaderIn, ← take_slice, hrecord, take_slice, pktHeaderIn]
    have hbody : slice content' (offset + packetHeaderSize variant)
        (pktHeaderIn host variant content offset).capturedLen =
          slice content (offset + packetHeaderSize variant)
            (pktHeaderIn host variant content offset).capturedLen := by
      rw [← drop_slice, hrecord, drop_slice]
    rw [packetIn]
    simp only [hheader, hbody]
    exact if_pos (by omega)
  · cases h

theorem record_le (h : packetIn host variant content offset = some packet) :
    offset + (packetHeaderSize variant + packet.rawData.length) ≤ content.length := by
  unfold packetIn at h
  dsimp only at h
  split at h
  · rename_i hinside
    cases h
    have hlen := @slice_length_of_le content (offset + packetHeaderSize variant) _ hinside.2
    simp only [hlen]
    omega
  · cases h

theorem packetIn_append (after : Bytes) (h : packetIn host variant content offset = some packet) :
    packetIn host variant (content ++ after) offset = some packet := by
  have hinside := record_le h
  apply packetIn_congr h
  · rw [List.length_append]
    omega
  · exact slice_append_left after hinside

theorem packetIn_overwrite {pos : Nat} {data : Bytes} (hinside : pos + data.length ≤ content.length)
    (hdisjoint : offset + packetHeaderSize variant +
        (pktHeaderIn host variant content offset).capturedLen ≤ pos ∨
      pos + data.length ≤ offset) :
    packetIn host variant (overwrite content pos data) offset =
      packetIn host variant content offset := by
  have hpos : pos ≤ content.length := Nat.le_of_add_right_le hinside
  have hlen : (overwrite content pos data).length = content.length := by
    rw [overwrite_length hpos, Nat.max_eq_left hinside]
  have hheader : pktHeaderIn host variant (overwrite content pos data) offset =
      pktHeaderIn host variant content offset := by
    rw [pktHeaderIn, slice_overwrite_of_disjoint hpos (by omega), pktHeaderIn]
  simp only [packetIn, hheader, hlen]
  rw [slice_overwrite_of_disjoint hpos (by omega)]

end PacketIn

/-! ## Files with the same header -/

section Header

variable {host : Order} {content content' : Bytes}

theorem headed_take (hsize : 24 ≤ content.length) :
    headed host (content.take 24) = headed host content := by
  have hlen : (content.take 24).length = 24 := List.length_take_of_le hsize
  have hfour : 4 ≤ content.length := by omega
  rw [headed, headed, if_pos (Nat.le_of_eq hlen.symm), if_pos hsize, fileKind, fileKind, hlen,
    if_pos (by decide), if_pos hfour, magicOf, slice_take (by decide), magicOf]

theorem sniff_take (hsize : 24 ≤ content.length) : sniff (content.take 24) = sniff content := by
  have hlen : (content.take 24).length = 24 := List.length_take_of_le hsize
  have hlong : ¬ content.length < 2 := by omega
  rw [sniff, sniff, hlen, if_neg (by decide), if_neg hlong, List.take_take]
  rfl

theorem settled_take (compression : CaptureCompressionT) (hsize : 24 ≤ content.length) :
    settled compression (content.take 24) = settled compression content := by
  rw [settled, sniff_take hsize, settled]

theorem headerAt_take (swapped : Bool) (variant : PcapVariantT) :
    headerAt host swapped variant (content.take 24) = headerAt host swapped variant content := by
  simp (disch := decide) only [headerAt, slice_take]

/-- No file with a known magic number starts with the gzip magic. -/
theorem settled_headed {compression : CaptureCompressionT} (hplain : compression ≠ .compressed)
    {kind : Bool × PcapVariantT} (h : headed host content = some kind) :
    settled compression content ≠ .compressed := by
  obtain ⟨hsize, hkind⟩ := headed_some h
  obtain ⟨swapped, variant⟩ := kind
  obtain ⟨hunswapped, hmagic⟩ := (fileKind_iff (by omega)).mp hkind
  have hfront : content.take 2 = (slice content 0 4).take 2 := by
    rw [slice, List.drop_zero, List.take_take]
    rfl
  have hother : content.take 2 ≠ gzipHeader := by
    rw [hfront, hmagic]
    cases host <;> cases swapped <;> cases variant <;>
      first
        | decide
        | cases hunswapped
  unfold settled
  split
  · exact sniff_other hother
  · exact hplain

end Header

section Opened

variable (host : Order) (z : Zlib) (os : Opens) (file : String)
  (compression : CaptureCompressionT) (readOnly prefetch : Bool)

theorem openedOn_reads {f : RegularFile} (hplain : settled compression f.content ≠ .compressed) :
    (openedOn host z os file compression readOnly prefetch f).Reads host f := by
  rw [openedOn, construct_plain host z file compression readOnly prefetch rfl hplain]
  exact parse_reads (opened_unread compression _ f file readOnly prefetch)

theorem openedOn_unknown {f : RegularFile} (hplain : settled compression f.content ≠ .compressed)
    (hsize : 24 ≤ f.size) (hheaded : headed host f.content = none) :
    (openedOn host z os file compression readOnly prefetch f).header = {} := by
  have hkind : fileKind host f.content = none := by
    have hlen : 24 ≤ f.content.length := hsize
    rwa [headed, if_pos hlen] at hheaded
  have hunread := opened_unread compression (settled compression f.content) f file readOnly prefetch
  rw [openedOn, construct_plain host z file compression readOnly prefetch rfl hplain,
    parse_unheaded hunread hheaded, readHeader, readMagic_of_le hunread.fd (by omega), hkind]
  rfl

/-! ## Appending -/

/-- Where the index of an accepted file goes on when bytes are appended. -/
theorem indexOf_append {content : Bytes} {swapped : Bool} {variant : PcapVariantT}
    (hheaded : headed host content = some (swapped, variant))
    (hscan : ((recordFormat host variant).scan content 24).2 = true) (rest : Bytes) :
    headed host (content ++ rest) = some (swapped, variant) ∧
      (indexOf host (content ++ rest)).1 = ((recordFormat host variant).scan content 24).1 ++
        ((recordFormat host variant).scan rest 0).1.map (Format.moveEntry content.length) ∧
      ((indexOf host (content ++ rest)).2 = true ↔
        ((recordFormat host variant).scan rest 0).2 = true ∨ rest = []) := by
  have hsize := (headed_some hheaded).1
  have hheaded' : headed host (content ++ rest) = some (swapped, variant) := by
    rw [← headed_take (by rw [List.length_append]; omega), List.take_append_of_le_length hsize,
      headed_take hsize, hheaded]
  refine ⟨hheaded', ?_⟩
  rw [indexOf_headed hheaded']
  by_cases hrest : rest = []
  · have hshort : (recordFormat host variant).scan rest 0 = ([], false) := by
      apply Format.scan_short
      rw [hrest]
      exact Nat.not_succ_le_zero _
    rw [hshort, hrest, List.append_nil]
    exact ⟨(List.append_nil _).symm, iff_of_true hscan (.inr rfl)⟩
  · have hmoved := Format.scan_shift (recordFormat host variant) content rest 0
    rw [Nat.add_zero] at hmoved
    rw [(Format.tiles_of_scan hscan).1.scan_append hrest, hmoved]
    exact ⟨rfl, (or_iff_left hrest).symm⟩

theorem packetsIn_moved (host : Order) (variant : PcapVariantT) (before bs : Bytes)
    (es : List Entry) (i : Nat) :
    ((es.map (Format.moveEntry before.length))[i]?.bind fun e =>
        packetIn host variant (before ++ bs) e.offset) =
      es[i]?.bind fun e => packetIn host variant bs e.offset := by
  rw [List.getElem?_map]
  cases es[i]? with
  | none => rfl
  | some e => exact packetIn_shift before

/-- The records of `g` appended to a valid capture `f` of the same variant and
byte order: its packets stand behind those of `f`, whether `g` is valid or not. -/
theorem openedOn_append {f g merged : RegularFile} {kind : Bool × PcapVariantT}
    (hplain : compression ≠ .compressed) (hf : headed host f.content = some kind)
    (hg : headed host g.content = some kind)
    (hvalid : (openedOn host z os file compression readOnly prefetch f).valid = true)
    (hmerged : merged.content = f.content ++ g.content.drop 24) :
    let a := openedOn host z os file compression readOnly prefetch f
    let b := openedOn host z os file compression readOnly prefetch g
    let c := openedOn host z os file compression readOnly prefetch merged
    (c.valid = true ↔ b.valid = true ∨ g.size = 24) ∧ c.header = a.header ∧
      c.packetCount = a.packetCount + b.packetCount ∧
      ∀ i, c.packetAt host i =
        if i < a.packetCount then a.packetAt host i else b.packetAt host (i - a.packetCount) := by
  intro a b c
  obtain ⟨swapped, variant⟩ := kind
  have hreads : a.Reads host f := openedOn_reads host z os file compression readOnly prefetch
    (settled_headed hplain hf)
  have hreads' : b.Reads host g := openedOn_reads host z os file compression readOnly prefetch
    (settled_headed hplain hg)
  have hscan : ((recordFormat host variant).scan f.content 24).2 = true := by
    rw [← indexOf_headed hf, ← hreads.valid]
    exact hvalid
  obtain ⟨hm, hindex, haccept⟩ := indexOf_append host hf hscan (g.content.drop 24)
  rw [← hmerged] at hm hindex haccept
  have hreads'' : c.Reads host merged := openedOn_reads host z os file compression readOnly
    prefetch (settled_headed hplain hm)
  -- the records of `g` alone, seen from the end of its file header
  have hsize : 24 ≤ g.content.length := (headed_some hg).1
  have hlen : (g.content.take 24).length = 24 := List.length_take_of_le hsize
  have hindex' := Format.scan_shift (recordFormat host variant) (g.content.take 24)
    (g.content.drop 24) 0
  rw [List.take_append_drop, hlen, Nat.add_zero, ← indexOf_headed hg] at hindex'
  have hcount : ∀ {d : PcapT} {h : RegularFile}, d.Reads host h →
      d.packetCount = (indexOf host h.content).1.length := by
    intro d h hd
    rw [packetCount, hd.packets, List.length_map]
  refine ⟨?_, ?_, ?_, ?_⟩
  · have hnone : g.content.drop 24 = [] ↔ g.size = 24 := by
      rw [List.drop_eq_nil_iff]
      exact ⟨fun h => Nat.le_antisymm h hsize, Nat.le_of_eq⟩
    rw [hreads''.valid, hreads'.valid, haccept, hindex', hnone]
  · rw [hreads''.header swapped variant hm, hreads.header swapped variant hf, ← headerAt_take,
      hmerged, List.take_append_of_le_length (headed_some hf).1, headerAt_take]
  · rw [hcount hreads'', hcount hreads, hcount hreads', hindex, hindex', indexOf_headed hf]
    simp only [List.length_append, List.length_map]
  · intro i
    rw [hcount hreads, indexOf_headed hf, hreads''.packetAt_eq hm, hindex]
    split
    · rename_i hlt
      rw [hreads.packetAt_eq hf, indexOf_headed hf, List.getElem?_append_left hlt,
        List.getElem?_eq_getElem hlt]
      have hpacket := (packetIn_recordOf (Format.tiles_of_scan hscan).1 (List.getElem_mem hlt)).1
      rw [Option.bind_some, Option.bind_some, hpacket, hmerged]
      exact packetIn_append _ hpacket
    · rename_i hge
      rw [hreads'.packetAt_eq hg, hindex', List.getElem?_append_right (Nat.not_lt.mp hge), hmerged,
        packetsIn_moved]
      have hmoved := packetsIn_moved host variant (g.content.take 24) (g.content.drop 24)
        ((recordFormat host variant).scan (g.content.drop 24) 0).1
        (i - ((recordFormat host variant).scan f.content 24).1.length)
      rw [List.take_append_drop, hlen] at hmoved
      exact hmoved.symm

end Opened

def doubledFile : RegularFile where
  content := (sampleFile .little).content ++ (sampleFile .little).content.drop 24
  size_lt := by decide

theorem openedOn_append_sample :
    let a := openedOn .little storedZlib (opening doubledFile) "sample.pcap" .autodetect true false
      (sampleFile .little)
    let c := openedOn .little storedZlib (opening doubledFile) "sample.pcap" .autodetect true false
      doubledFile
    (c.valid = true ↔ a.valid = true ∨ (sampleFile .little).size = 24) ∧ c.header = a.header ∧
      c.packetCount = a.packetCount + a.packetCount ∧
      ∀ i, c.packetAt .little i =
        if i < a.packetCount then a.packetAt .little i
        else a.packetAt .little (i - a.packetCount) :=
  openedOn_append .little storedZlib (opening doubledFile) "sample.pcap" .autodetect true false
    (by decide) (show _ = some (false, .standard) by decide) (by decide) (by decide +kernel) rfl

/-! ## Overwriting -/

section Overwriting

variable (host : Order) (z : Zlib) (os : Opens) (file : String)
  (compression : CaptureCompressionT) (readOnly prefetch : Bool)

theorem capturedLen_stored (variant : PcapVariantT) {content : Bytes} {e : Entry}
    (he : e ∈ (indexOf host content).1) :
    (pktHeaderIn host variant content e.offset).capturedLen = (stored e).len.toNat := by
  obtain ⟨_, variant', _, _, hlength, hfits⟩ := indexOf_mem he
  have hentry := entry_stored (hlength ▸ lengthAt_lt host variant' content e.offset)
  rw [capturedLen_pktHeaderIn, announcedLen, @toNat_lengthAt host variant' _ _ hfits, ← hlength]
  exact (congrArg Entry.length hentry).symm

/-- Overwriting bytes behind the file header and outside the length fields of
the index leaves the index as it is, and every packet whose record it does not
touch, whether the capture is valid or not. -/
theorem openedOn_overwrite {f f' : RegularFile} {pos : Nat} {data : Bytes}
    (hplain : settled compression f.content ≠ .compressed) (hpos : 24 ≤ pos)
    (hinside : pos + data.length ≤ f.size) (hf' : f'.content = overwrite f.content pos data)
    (hfields : ∀ storage ∈ (openedOn host z os file compression readOnly prefetch f).packets,
      storage.offset + 12 ≤ pos ∨ pos + data.length ≤ storage.offset + 8) :
    let a := openedOn host z os file compression readOnly prefetch f
    let b := openedOn host z os file compression readOnly prefetch f'
    b.valid = a.valid ∧ b.header = a.header ∧ b.needsSwapping = a.needsSwapping ∧
      b.packets = a.packets ∧
      ∀ i storage, a.packets[i]? = some storage →
        storage.offset + packetHeaderSize a.header.variant + storage.len.toNat ≤ pos ∨
          pos + data.length ≤ storage.offset →
        b.packetAt host i = a.packetAt host i := by
  intro a b
  have hsize : 24 ≤ f.content.length := Nat.le_trans hpos (Nat.le_of_add_right_le hinside)
  have hle : pos ≤ f.content.length := Nat.le_of_add_right_le hinside
  have hlen : f'.content.length = f.content.length := by
    rw [hf', overwrite_length hle]
    exact Nat.max_eq_left hinside
  have htake : f'.content.take 24 = f.content.take 24 := by
    rw [hf']
    exact slice_overwrite_of_disjoint hle (.inl (by omega) : 0 + 24 ≤ pos ∨ _)
  have hsize' : 24 ≤ f'.content.length := by rwa [hlen]
  have hheaded : headed host f'.content = headed host f.content := by
    rw [← headed_take hsize', htake, headed_take hsize]
  have hplain' : settled compression f'.content ≠ .compressed := by
    rwa [← settled_take compression hsize', htake, settled_take compression hsize]
  have hreads : a.Reads host f :=
    openedOn_reads host z os file compression readOnly prefetch hplain
  have hreads' : b.Reads host f' :=
    openedOn_reads host z os file compression readOnly prefetch hplain'
  have hheader : b.header = a.header := by
    cases hkind : headed host f.content with
    | none =>
        exact (openedOn_unknown host z os file compression readOnly prefetch hplain' hsize'
          (hheaded.trans hkind)).trans
          (openedOn_unknown host z os file compression readOnly prefetch hplain hsize hkind).symm
    | some kind =>
        rw [hreads'.header kind.1 kind.2 (hheaded.trans hkind), hreads.header kind.1 kind.2 hkind,
          ← headerAt_take, htake, headerAt_take]
  have hswapped : swappedFile host f'.content = swappedFile host f.content := by
    rw [headed, headed, if_pos hsize', if_pos hsize] at hheaded
    rw [swappedFile, hheaded, swappedFile]
  have hindex : indexOf host f'.content = indexOf host f.content := by
    cases hkind : headed host f.content with
    | none => simp only [indexOf, hheaded, hkind]
    | some kind =>
        rw [indexOf_headed (hheaded.trans hkind), indexOf_headed hkind]
        apply Format.scan_overwritten hlen
        intro e he
        rw [← indexOf_headed hkind] at he
        have hdisjoint := hfields (stored e) (hreads.packets ▸ List.mem_map_of_mem he)
        rw [Format.lengthAt, hf', slice_overwrite_of_disjoint hle hdisjoint, Format.lengthAt]
  have hpackets : b.packets = a.packets := by rw [hreads'.packets, hindex, hreads.packets]
  refine ⟨by rw [hreads'.valid, hindex, hreads.valid], hheader,
    by rw [hreads'.needsSwapping, hswapped, hreads.needsSwapping], hpackets, ?_⟩
  intro i storage hget hdisjoint
  have hmem : storage ∈ (indexOf host f.content).1.map stored := by
    rw [← hreads.packets]
    exact List.mem_of_getElem? hget
  obtain ⟨e, he, rfl⟩ := List.mem_map.mp hmem
  rw [packetAt_eq host hreads'.onFile hreads'.offsetsBelow,
    packetAt_eq host hreads.onFile hreads.offsetsBelow, hpackets, hget, Option.bind_some,
    Option.bind_some, hheader, hf']
  exact packetIn_overwrite hinside (capturedLen_stored host a.header.variant he ▸ hdisjoint)

end Overwriting

def patchedFile : RegularFile where
  content := overwrite (sampleFile .little).content 57 [99]
  size_lt := by decide

theorem openedOn_overwrite_sample :
    let a := openedOn .little storedZlib (opening patchedFile) "sample.pcap" .autodetect true false
      (sampleFile .little)
    let b := openedOn .little storedZlib (opening patchedFile) "sample.pcap" .autodetect true false
      patchedFile
    b.valid = a.valid ∧ b.header = a.header ∧ b.needsSwapping = a.needsSwapping ∧
      b.packets = a.packets ∧
      ∀ i storage, a.packets[i]? = some storage →
        storage.offset + packetHeaderSize a.header.variant + storage.len.toNat ≤ 57 ∨
          57 + [(99 : UInt8)].length ≤ storage.offset →
        b.packetAt .little i = a.packetAt .little i :=
  openedOn_overwrite .little storedZlib (opening patchedFile) "sample.pcap" .autodetect true false
    (by decide) (by decide) (by decide) rfl (by decide +kernel)

end LibNokogiri.Pcap
