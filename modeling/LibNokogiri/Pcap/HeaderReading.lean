import LibNokogiri.Pcap.Layout

/-! # What `read_header` makes of a file

Every stage of the parser either finds its bytes, moves the position behind
them and goes on, or fails. On a file of at least 24 bytes only the magic
decides, and the header is a function of the first 24 bytes.
-/

namespace LibNokogiri.Pcap

open ByteCodec Framing Internal

/-! ## Magic numbers -/

def classifyMagic (magic : UInt32) : Option (Bool × PcapVariantT) :=
  if (PcapVariantT.ofUInt32 magic).isUnswapped then
    some (false, PcapVariantT.ofUInt32 magic)
  else if (PcapVariantT.ofUInt32 magic).isSwapped then
    some (true, PcapVariantT.ofUInt32 (bswap magic))
  else none

theorem classifyMagic_unswapped {variant : PcapVariantT} (h : variant.isUnswapped = true) :
    classifyMagic variant.value = some (false, variant) := by
  cases variant <;> first | rfl | cases h

theorem classifyMagic_swapped {variant : PcapVariantT} (h : variant.isUnswapped = true) :
    classifyMagic (bswap variant.value) = some (true, variant) := by
  cases variant <;> first | rfl | cases h

theorem classifyMagic_swapIf {variant : PcapVariantT} (h : variant.isUnswapped = true)
    (swapped : Bool) : classifyMagic (swapIf swapped variant.value) = some (swapped, variant) := by
  cases swapped with
  | false => exact classifyMagic_unswapped h
  | true => exact classifyMagic_swapped h

theorem PcapVariantT.value_ofUInt32 (value : UInt32) : (ofUInt32 value).value = value := by
  unfold ofUInt32
  repeat' split
  all_goals first | (symm; assumption) | rfl

/-- The magic numbers that are accepted are those of the five variants, each in
either byte order. -/
theorem classifyMagic_iff {magic : UInt32} {swapped : Bool} {variant : PcapVariantT} :
    classifyMagic magic = some (swapped, variant) ↔
      variant.isUnswapped = true ∧ magic = swapIf swapped variant.value := by
  constructor
  · intro h
    have hvalue := PcapVariantT.value_ofUInt32 magic
    unfold classifyMagic at h
    split at h
    · rename_i hunswapped
      cases h
      exact ⟨hunswapped, hvalue.symm⟩
    · split at h
      · rename_i hswapped
        cases h
        have hback := PcapVariantT.value_ofUInt32 (bswap magic)
        refine ⟨?_, by rw [hback, swapIf, if_pos rfl, bswap_bswap]⟩
        cases hmagic : PcapVariantT.ofUInt32 magic <;> rw [hmagic] at hvalue hswapped <;>
          first | (subst hvalue; rfl) | cases hswapped
      · cases h
  · rintro ⟨hunswapped, rfl⟩
    exact classifyMagic_swapIf hunswapped swapped

def magicOf (host : Order) (content : Bytes) : UInt32 := load host (slice content 0 4)

def fileKind (host : Order) (content : Bytes) : Option (Bool × PcapVariantT) :=
  if 4 ≤ content.length then classifyMagic (magicOf host content) else none

theorem fileKind_iff {host : Order} {content : Bytes} (hlen : 4 ≤ content.length) {swapped : Bool}
    {variant : PcapVariantT} :
    fileKind host content = some (swapped, variant) ↔
      variant.isUnswapped = true ∧
        slice content 0 4 = store (host.flipIf swapped) variant.value := by
  have hwidth : (slice content 0 4).length = Scalar.width UInt32 := slice_length_of_le hlen
  rw [fileKind, if_pos hlen, classifyMagic_iff, magicOf, load_eq_iff host hwidth, store_flipIf]

/-- The file carries a magic number in the order opposite to the host's. -/
def swappedFile (host : Order) (content : Bytes) : Bool :=
  match fileKind host content with
  | some (true, _) => true
  | _ => false

/-- The header fields stored in the first 24 bytes of a file. -/
def headerAt (host : Order) (needsSwapping : Bool) (variant : PcapVariantT) (content : Bytes) :
    FileHeaderT where
  variant := variant
  version := ⟨swapIf needsSwapping (load host (slice content 4 2)),
    swapIf needsSwapping (load host (slice content 6 2))⟩
  tzOffset := swapIf needsSwapping (load host (slice content 8 4))
  timestampFigs := swapIf needsSwapping (load host (slice content 12 4))
  pcklenMax := swapIf needsSwapping (load host (slice content 16 4))
  network := ⟨(swapIf needsSwapping (load host (slice content 20 4) : UInt32)).toUInt16⟩

/-! ## The stages -/

namespace PcapT

section Stages

variable {host : Order} {next : PcapT → Bool × PcapT} {self : PcapT} {f : RegularFile}
  {pos : Nat}

theorem readMagic_of_le (hfd : self.file.fd = some ⟨f, 0⟩) (h : 4 ≤ f.size) :
    readMagic host next self =
      match fileKind host f.content with
      | none => (false, { self with file := self.file.movedTo f 4 })
      | some (swapped, variant) =>
          next { self with
            file := self.file.movedTo f 4
            needsSwapping := self.needsSwapping || swapped
            header := { self.header with variant } } := by
  have hread : self.file.read UInt32 host =
      (some (magicOf host f.content), self.file.movedTo f 4) := by
    rw [FdT.read_of_le hfd (show 0 + 4 ≤ f.size by omega)]
    rfl
  have hlen : 4 ≤ f.content.length := h
  simp only [readMagic, hread, fileKind, classifyMagic, if_pos hlen]
  cases PcapVariantT.ofUInt32 (magicOf host f.content) <;>
    simp [PcapVariantT.isUnswapped, PcapVariantT.isSwapped]

theorem readVersion_of_le (hfd : self.file.fd = some ⟨f, pos⟩) (h : pos + 4 ≤ f.size) :
    readVersion host next self =
      next { self with
        file := self.file.movedTo f (pos + 4)
        header := { self.header with
          version := ⟨self.swapped (load host (slice f.content pos 2)),
            self.swapped (load host (slice f.content (pos + 2) 2))⟩ } } := by
  have hmajor : self.file.read UInt16 host =
      (some (load host (slice f.content pos 2)), self.file.movedTo f (pos + 2)) :=
    FdT.read_of_le hfd (show pos + 2 ≤ f.size by omega)
  have hminor : (self.file.movedTo f (pos + 2)).read UInt16 host =
      (some (load host (slice f.content (pos + 2) 2)), self.file.movedTo f (pos + 4)) :=
    FdT.read_of_le (FdT.movedTo_fd _ _ _) (show pos + 2 + 2 ≤ f.size by omega)
  simp only [readVersion, hmajor, hminor, swapped]

theorem readField_of_le {α : Type} [Scalar α] (set : α → FileHeaderT → FileHeaderT)
    (hwidth : Scalar.width α = 4) (hfd : self.file.fd = some ⟨f, pos⟩) (h : pos + 4 ≤ f.size) :
    readField host next set self =
      next { self with
        file := self.file.movedTo f (pos + 4)
        header := set (self.swapped (load host (slice f.content pos 4)))
          self.header } := by
  have hread : self.file.read α host =
      (some (load host (slice f.content pos 4)), self.file.movedTo f (pos + 4)) := by
    have hsize : Pod.size α = 4 := hwidth
    rw [FdT.read_of_le hfd (by omega), hsize]
    rfl
  simp only [readField, hread, swapped]

theorem readMagic_of_lt (hfd : self.file.fd = some ⟨f, 0⟩) (h : f.size < 4) :
    (readMagic host next self).1 = false := by
  have hread : (self.file.read UInt32 host).1 = none :=
    FdT.read_of_lt hfd (by decide) (show f.size < 0 + 4 by omega)
  simp only [readMagic, hread]

theorem readVersion_of_lt (hfd : self.file.fd = some ⟨f, pos⟩) (h : f.size < pos + 4) :
    (readVersion host next self).1 = false := by
  by_cases hle : pos + 2 ≤ f.size
  · have hmajor : self.file.read UInt16 host =
        (some (load host (slice f.content pos 2)), self.file.movedTo f (pos + 2)) :=
      FdT.read_of_le hfd hle
    have hminor : ((self.file.movedTo f (pos + 2)).read UInt16 host).1 = none :=
      FdT.read_of_lt (FdT.movedTo_fd _ _ _) (by decide) (show f.size < pos + 2 + 2 by omega)
    simp only [readVersion, hmajor, hminor]
  · have hmajor : (self.file.read UInt16 host).1 = none :=
      FdT.read_of_lt hfd (by decide) (show f.size < pos + 2 by omega)
    simp only [readVersion, hmajor]

theorem readField_of_lt {α : Type} [Scalar α] (set : α → FileHeaderT → FileHeaderT)
    (hwidth : Scalar.width α = 4) (hfd : self.file.fd = some ⟨f, pos⟩) (h : f.size < pos + 4) :
    (readField host next set self).1 = false := by
  have hsize : Pod.size α = 4 := hwidth
  have hread : (self.file.read α host).1 = none :=
    FdT.read_of_lt hfd (by omega) (by omega)
  simp only [readField, hread]

end Stages

/-! ## The whole header -/

section ReadHeader

variable {host : Order} {self : PcapT} {f : RegularFile}

theorem readHeader_of_le (hfd : self.file.fd = some ⟨f, 0⟩) (hsize : 24 ≤ f.size) {swapped : Bool}
    {variant : PcapVariantT} (hkind : fileKind host f.content = some (swapped, variant))
    (hneeds : self.needsSwapping = false) :
    self.readHeader host =
      (true, { self with
        file := self.file.movedTo f 24
        needsSwapping := swapped
        header := headerAt host swapped variant f.content }) := by
  unfold readHeader
  rw [readMagic_of_le hfd (by omega), hkind]
  simp only [hneeds, Bool.false_or]
  rw [readVersion_of_le rfl (by omega)]
  unfold readTzOffset readTimestampFigs readPcklenMax readNetwork
  rw [readField_of_le _ rfl rfl (by omega), readField_of_le _ rfl rfl (by omega),
    readField_of_le _ rfl rfl (by omega), readField_of_le _ rfl rfl (by omega)]
  rfl

theorem readHeader_of_lt (hfd : self.file.fd = some ⟨f, 0⟩) (hsize : f.size < 24) :
    (self.readHeader host).1 = false := by
  unfold readHeader
  by_cases h4 : 4 ≤ f.size
  · rw [readMagic_of_le hfd h4]
    cases fileKind host f.content with
    | none => rfl
    | some kind =>
        simp only
        by_cases h8 : 8 ≤ f.size
        · rw [readVersion_of_le rfl (by omega)]
          unfold readTzOffset readTimestampFigs readPcklenMax readNetwork
          by_cases h12 : 12 ≤ f.size
          · rw [readField_of_le _ rfl rfl (by omega)]
            by_cases h16 : 16 ≤ f.size
            · rw [readField_of_le _ rfl rfl (by omega)]
              by_cases h20 : 20 ≤ f.size
              · rw [readField_of_le _ rfl rfl (by omega)]
                exact readField_of_lt _ rfl rfl (by omega)
              · exact readField_of_lt _ rfl rfl (by omega)
            · exact readField_of_lt _ rfl rfl (by omega)
          · exact readField_of_lt _ rfl rfl (by omega)
        · exact readVersion_of_lt rfl (by omega)
  · exact readMagic_of_lt hfd (by omega)

theorem readHeader_unknown (hfd : self.file.fd = some ⟨f, 0⟩)
    (hkind : fileKind host f.content = none) : (self.readHeader host).1 = false := by
  by_cases h4 : 4 ≤ f.size
  · unfold readHeader
    rw [readMagic_of_le hfd h4, hkind]
  · exact readHeader_of_lt hfd (by omega)

end ReadHeader

/-! ## What a parse leaves alone -/

/-- `later` differs from `origin` in the header and the file position only. -/
structure Continues (f : RegularFile) (origin later : PcapT) : Prop where
  state : later = { origin with file := later.file, header := later.header }
  fd : ∃ pos, later.file.fd = some ⟨f, pos⟩
  length : later.file.length = origin.file.length

section Continues

variable {host : Order} {next : PcapT → Bool × PcapT} {self : PcapT} {f : RegularFile}

theorem Continues.trans {a b c : PcapT} (hab : Continues f a b) (hbc : Continues f b c) :
    Continues f a c where
  state := by
    have h := hbc.state
    rw [hab.state] at h
    exact h
  fd := hbc.fd
  length := hbc.length.trans hab.length

theorem readField_continues {α : Type} [Scalar α] (set : α → FileHeaderT → FileHeaderT)
    (hfd : ∃ pos, self.file.fd = some ⟨f, pos⟩)
    (hnext : ∀ s, (∃ pos, s.file.fd = some ⟨f, pos⟩) → Continues f s (next s).2) :
    Continues f self (readField host next set self).2 := by
  obtain ⟨pos, hfd⟩ := hfd
  obtain ⟨hfd', hlength⟩ := FdT.read_onFile α host hfd
  unfold readField
  dsimp only
  split
  · exact ⟨rfl, hfd', hlength⟩
  · refine Continues.trans ?_ (hnext _ hfd')
    exact ⟨rfl, hfd', hlength⟩

theorem readVersion_continues (hfd : ∃ pos, self.file.fd = some ⟨f, pos⟩)
    (hnext : ∀ s, (∃ pos, s.file.fd = some ⟨f, pos⟩) → Continues f s (next s).2) :
    Continues f self (readVersion host next self).2 := by
  obtain ⟨pos, hfd⟩ := hfd
  obtain ⟨⟨pos', hmajor⟩, hlength⟩ := FdT.read_onFile UInt16 host hfd
  obtain ⟨hminor, hlength'⟩ := FdT.read_onFile UInt16 host hmajor
  unfold readVersion
  dsimp only
  split
  · refine Continues.trans ?_ (hnext _ hminor)
    exact ⟨rfl, hminor, hlength'.trans hlength⟩
  · exact ⟨rfl, hminor, hlength'.trans hlength⟩

theorem readMagic_continues (hfd : self.file.fd = some ⟨f, 0⟩)
    (hnext : ∀ s, (∃ pos, s.file.fd = some ⟨f, pos⟩) → Continues f s (next s).2) :
    Continues f { self with
        needsSwapping := self.needsSwapping || swappedFile host f.content }
      (readMagic host next self).2 := by
  by_cases h4 : 4 ≤ f.size
  · rw [readMagic_of_le hfd h4]
    cases hkind : fileKind host f.content with
    | none => exact ⟨by simp [swappedFile, hkind], ⟨4, rfl⟩, rfl⟩
    | some kind =>
        obtain ⟨swapped, variant⟩ := kind
        have hswapped : swappedFile host f.content = swapped := by
          cases swapped <;> simp [swappedFile, hkind]
        rw [hswapped]
        refine Continues.trans ?_ (hnext _ ⟨4, rfl⟩)
        exact ⟨rfl, ⟨4, rfl⟩, rfl⟩
  · have hread : (self.file.read UInt32 host).1 = none :=
      FdT.read_of_lt hfd (by decide) (show f.size < 0 + 4 by omega)
    have hswapped : swappedFile host f.content = false := by
      have hlen : ¬ 4 ≤ f.content.length := h4
      simp only [swappedFile, fileKind, if_neg hlen]
    obtain ⟨hfd', hlength⟩ := FdT.read_onFile UInt32 host hfd
    simp only [readMagic, hread, hswapped, Bool.or_false]
    exact ⟨rfl, hfd', hlength⟩

/-- Success or not, the parser moves the position, fills in the header and
notes the byte order of the file. -/
theorem readHeader_continues (host : Order) (hfd : self.file.fd = some ⟨f, 0⟩) :
    Continues f { self with
        needsSwapping := self.needsSwapping || swappedFile host f.content }
      (self.readHeader host).2 := by
  unfold readHeader
  refine readMagic_continues hfd fun s hs => ?_
  refine readVersion_continues hs fun s hs => ?_
  refine readField_continues _ hs fun s hs => ?_
  refine readField_continues _ hs fun s hs => ?_
  refine readField_continues _ hs fun s hs => ?_
  refine readField_continues _ hs fun s hs => ?_
  exact ⟨rfl, hs, rfl⟩

end Continues

/-! ## What the header depends on -/

structure SameInput (a b : PcapT) : Prop where
  fd : a.file.fd = b.file.fd
  header : a.header = b.header
  needsSwapping : a.needsSwapping = b.needsSwapping

section SameInput

variable {host : Order} {next : PcapT → Bool × PcapT} {a b : PcapT}

theorem readField_header {α : Type} [Scalar α] (set : α → FileHeaderT → FileHeaderT)
    (h : SameInput a b)
    (hnext : ∀ a b, SameInput a b → (next a).2.header = (next b).2.header) :
    (readField host next set a).2.header = (readField host next set b).2.header := by
  obtain ⟨hvalue, hfd⟩ := FdT.read_congr α host h.fd
  unfold readField
  dsimp only
  rw [hvalue]
  split
  · exact h.header
  · apply hnext
    refine ⟨hfd, ?_, h.needsSwapping⟩
    simp only [swapped, h.header, h.needsSwapping]

theorem readVersion_header (h : SameInput a b)
    (hnext : ∀ a b, SameInput a b → (next a).2.header = (next b).2.header) :
    (readVersion host next a).2.header = (readVersion host next b).2.header := by
  obtain ⟨hmajor, hfd⟩ := FdT.read_congr UInt16 host h.fd
  obtain ⟨hminor, hfd'⟩ := FdT.read_congr UInt16 host hfd
  unfold readVersion
  dsimp only
  rw [hmajor, hminor]
  split
  · apply hnext
    refine ⟨hfd', ?_, h.needsSwapping⟩
    simp only [swapped, h.header, h.needsSwapping]
  · exact h.header

theorem readMagic_header (h : SameInput a b)
    (hnext : ∀ a b, SameInput a b → (next a).2.header = (next b).2.header) :
    (readMagic host next a).2.header = (readMagic host next b).2.header := by
  obtain ⟨hmagic, hfd⟩ := FdT.read_congr UInt32 host h.fd
  unfold readMagic
  dsimp only
  rw [hmagic]
  split
  · exact h.header
  · split
    all_goals first
      | exact h.header
      | (apply hnext
         refine ⟨hfd, by simp only [h.header], ?_⟩
         first
           | exact h.needsSwapping
           | rfl)

/-- The header that a parse leaves behind, complete or not, depends on the open
file only. -/
theorem readHeader_header (host : Order) (h : SameInput a b) :
    (a.readHeader host).2.header = (b.readHeader host).2.header := by
  unfold readHeader
  refine readMagic_header h fun a b h => ?_
  refine readVersion_header h fun a b h => ?_
  refine readField_header _ h fun a b h => ?_
  refine readField_header _ h fun a b h => ?_
  refine readField_header _ h fun a b h => ?_
  refine readField_header _ h fun a b h => ?_
  exact h.header

end SameInput

end PcapT

end LibNokogiri.Pcap
