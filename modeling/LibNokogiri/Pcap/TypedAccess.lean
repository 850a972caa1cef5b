import LibNokogiri.Pcap.Packet

/-! # Typed access to packets

The accessors compare an element index with a number of bytes, and they
construct a new object where they should look at the bytes that are there. An
access stays inside the packet, and is a view of it, only where neither shows.
-/

namespace LibNokogiri.Pcap

open ByteCodec Framing Internal

inductive Accessor
  | subscript
  | «at»
deriving DecidableEq, Repr

def PacketT.access (self : PacketT) (via : Accessor) (T : ElementT) (idx : Int64) : TypedAccess :=
  match via with
  | .subscript => self.subscript T idx
  | .at => self.at T idx

/-- The conversion of an `off_t` to the `std::size_t` that `index` takes. -/
theorem toUInt64_cases (idx : Int64) :
    (0 ≤ idx.toInt ∧ (idx.toUInt64.toNat : Int) = idx.toInt) ∨
      (idx.toInt < 0 ∧ 2 ^ 63 ≤ idx.toUInt64.toNat) := by
  have hnat : idx.toUInt64.toNat = idx.toBitVec.toNat := rfl
  have hint : idx.toInt = idx.toBitVec.toInt := rfl
  have hlt := idx.toBitVec.isLt
  rw [hnat, hint, BitVec.toInt_eq_toNat_cond]
  split
  · exact .inl ⟨by omega, rfl⟩
  · exact .inr ⟨by omega, by omega⟩

def ElementT.Inside (T : ElementT) (packet : PacketT) (idx : Int64) : Prop :=
  0 ≤ idx.toInt ∧ (idx.toInt + 1) * T.size ≤ packet.length

instance (T : ElementT) (packet : PacketT) (idx : Int64) : Decidable (T.Inside packet idx) :=
  inferInstanceAs (Decidable (_ ∧ _))

theorem ElementT.inside_iff {T : ElementT} {packet : PacketT} {idx : Int64} {offset : Nat}
    (h : idx.toInt = offset) : T.Inside packet idx ↔ offset * T.size + T.size ≤ packet.length := by
  have hsum : ((offset : Int) + 1) * T.size = ((offset * T.size + T.size : Nat) : Int) := by
    rw [Int.add_mul, Int.one_mul]
    rfl
  rw [Inside, h, hsum]
  omega

namespace PacketT

variable {self : PacketT} {T : ElementT} {idx : Int64}

theorem access_eq (self : PacketT) (via : Accessor) (T : ElementT) (idx : Int64) :
    self.access via T idx = self.index T idx.toUInt64.toNat := by
  cases via <;> rfl

theorem access_outside (via : Accessor) (hlen : self.length < 2 ^ 63)
    (h : idx.toInt < 0 ∨ (self.length : Int) ≤ idx.toInt) :
    self.access via T idx = { pointer := none, packet := some self } := by
  have hbeyond : ¬ idx.toUInt64.toNat < self.rawData.length := by
    have hsize : self.rawData.length = self.length := rfl
    rcases toUInt64_cases idx with ⟨_, heq⟩ | ⟨_, hge⟩ <;> omega
  rw [access_eq, index, indexWith, if_neg hbeyond]

theorem access_inside (via : Accessor) {offset : Nat} (h : idx.toInt = offset)
    (hlt : offset < self.length) :
    self.access via T idx = self.emplace T T.initializer offset := by
  have hoffset : idx.toUInt64.toNat = offset := by
    rcases toUInt64_cases idx with ⟨_, heq⟩ | ⟨hneg, _⟩ <;> omega
  have hbefore : offset < self.rawData.length := hlt
  rw [access_eq, hoffset, index, indexWith, if_pos hbefore]

end PacketT

/-! ## Staying inside the packet -/

/-- The bytes that a non-null pointer designates are those of the element and
lie in the packet; a negative index gives null. -/
def StaysInside (self : PacketT) (via : Accessor) (T : ElementT) (idx : Int64) : Prop :=
  (∀ pointer, (self.access via T idx).pointer = some pointer →
      (pointer : Int) = idx.toInt * T.size ∧ pointer + T.size ≤ self.length) ∧
    (idx.toInt < 0 → (self.access via T idx).pointer = none)

section Index

variable {self : PacketT} {T : ElementT} {idx : Int64}

theorem staysInside_of_outside (via : Accessor) (hlen : self.length < 2 ^ 63)
    (h : idx.toInt < 0 ∨ (self.length : Int) ≤ idx.toInt) : StaysInside self via T idx := by
  have hnull : (self.access via T idx).pointer = none := by
    rw [PacketT.access_outside via hlen h]
  refine ⟨?_, fun _ => hnull⟩
  intro pointer hp
  rw [hnull] at hp
  cases hp

theorem staysInside_iff_of_lt (via : Accessor) (hlen : self.length < 2 ^ 63) {offset : Nat}
    (hoffset : idx.toInt = offset) (hlt : offset < self.length) :
    StaysInside self via T idx ↔ offset * T.size + T.size ≤ self.length := by
  have hpointer : (self.access via T idx).pointer = some (offset * T.size % 2 ^ 64) := by
    rw [PacketT.access_inside via hoffset hlt]
    rfl
  constructor
  · rintro ⟨hinside, _⟩
    obtain ⟨hexact, hend⟩ := hinside _ hpointer
    rw [hoffset, ← Int.natCast_mul] at hexact
    have hsame := Int.ofNat_inj.mp hexact
    omega
  · intro hend
    have hmod : offset * T.size % 2 ^ 64 = offset * T.size := Nat.mod_eq_of_lt (by omega)
    rw [hmod] at hpointer
    refine ⟨?_, fun hneg => absurd hneg (by omega)⟩
    intro pointer hp
    rw [hpointer] at hp
    cases hp
    exact ⟨by rw [hoffset, Int.natCast_mul], hend⟩

end Index

/-- An access leaves the packet exactly when its index is at least the number
of whole elements, but still below the number of bytes. -/
theorem staysInside_iff (self : PacketT) (via : Accessor) (T : ElementT) (idx : Int64)
    (hlen : self.length < 2 ^ 63) :
    StaysInside self via T idx ↔
      ¬ (((self.length / T.size : Nat) : Int) ≤ idx.toInt ∧ idx.toInt < self.length) := by
  by_cases hrange : 0 ≤ idx.toInt ∧ idx.toInt < self.length
  · obtain ⟨offset, hoffset⟩ := Int.eq_ofNat_of_zero_le hrange.1
    have hlt : offset < self.length := by omega
    have hwhole : offset * T.size + T.size ≤ self.length ↔ offset < self.length / T.size := by
      rw [← Nat.succ_le_iff, Nat.le_div_iff_mul_le T.size_pos, Nat.succ_mul]
    rw [staysInside_iff_of_lt via hlen hoffset hlt, hwhole, hoffset]
    omega
  · apply iff_of_true (staysInside_of_outside via hlen (by omega))
    rintro ⟨hge, hlt⟩
    exact hrange ⟨Int.le_trans (Int.natCast_nonneg _) hge, hlt⟩

def uint32Element : ElementT where
  Value := UInt32
  size := 4
  size_pos := by decide
  ofBytes := load
  hasNullableCtor := false
  emplaced _ _ := List.replicate 4 0
  emplaced_length _ _ _ := rfl
  initial _ := 0
  ofBytes_emplaced host _ _ _ := by cases host <;> rfl

def eightBytes : PacketT := ⟨[1, 2, 3, 4, 5, 6, 7, 8], .monostate⟩

theorem staysInside_sample :
    StaysInside eightBytes .at uint32Element 1 ↔
      ¬ (((eightBytes.length / uint32Element.size : Nat) : Int) ≤ (1 : Int64).toInt ∧
        (1 : Int64).toInt < eightBytes.length) :=
  staysInside_iff eightBytes .at uint32Element 1 (by decide)

theorem staysInside_fails :
    (eightBytes.at uint32Element 2).pointer = some 8 ∧
      ¬ StaysInside eightBytes .at uint32Element 2 := by
  refine ⟨by decide, ?_⟩
  rintro ⟨hinside, _⟩
  have hend := (hinside 8 (by decide)).2
  revert hend
  decide

/-! ## Views of the packet -/

structure ElementRead where
  via : Accessor
  type : ElementT
  idx : Int64

namespace ElementRead

def bytesIn (r : ElementRead) (packet : PacketT) : Bytes :=
  slice packet.rawData (r.idx.toInt.toNat * r.type.size) r.type.size

def value (r : ElementRead) (host : Order) (packet : PacketT) : Option (r.type.Value × PacketT) := do
  let pointer ← (packet.access r.via r.type r.idx).pointer
  let next ← (packet.access r.via r.type r.idx).packet
  some (r.type.ofBytes host (slice next.rawData pointer r.type.size), next)

section Inside

variable {r : ElementRead} {packet : PacketT}

theorem bytesIn_length (h : r.type.Inside packet r.idx) :
    (r.bytesIn packet).length = r.type.size := by
  obtain ⟨offset, hoffset⟩ := Int.eq_ofNat_of_zero_le h.1
  have hend := (ElementT.inside_iff hoffset).mp h
  apply slice_length_of_le
  rw [hoffset, Int.toNat_natCast]
  exact hend

/-- A read of an element inside the packet returns the object that it puts in
the place of the element. -/
theorem value_inside (host : Order) (hlen : packet.length < 2 ^ 63)
    (h : r.type.Inside packet r.idx) :
    r.value host packet =
      some (r.type.initial r.type.initializer,
        { packet with
          rawData := overwrite packet.rawData (r.idx.toInt.toNat * r.type.size)
            (r.type.constructed (r.bytesIn packet)) }) := by
  have hbytes := bytesIn_length h
  obtain ⟨offset, hoffset⟩ := Int.eq_ofNat_of_zero_le h.1
  have hend := (ElementT.inside_iff hoffset).mp h
  have hsize := r.type.size_pos
  have hlt : offset < packet.length := by
    have hmul := Nat.le_mul_of_pos_right offset hsize
    omega
  have hmod : offset * r.type.size % 2 ^ 64 = offset * r.type.size := Nat.mod_eq_of_lt (by omega)
  have hfits : offset * r.type.size + r.type.size ≤ packet.rawData.length := hend
  simp only [bytesIn, hoffset, Int.toNat_natCast] at hbytes ⊢
  have hnew := r.type.emplaced_length r.type.initializer _ hbytes
  have hback := slice_overwrite (r.type.emplaced r.type.initializer
    (slice packet.rawData (offset * r.type.size) r.type.size))
    (by omega : offset * r.type.size ≤ packet.rawData.length)
  rw [hnew] at hback
  simp only [value, PacketT.access_inside r.via hoffset hlt, PacketT.emplace, hmod, if_pos hfits,
    ElementT.constructed]
  simp only [bind, Option.bind_some, hback, r.type.ofBytes_emplaced host _ _ hbytes]

theorem overwrite_eq_iff (h : r.type.Inside packet r.idx) :
    overwrite packet.rawData (r.idx.toInt.toNat * r.type.size)
        (r.type.constructed (r.bytesIn packet)) = packet.rawData ↔
      r.type.constructed (r.bytesIn packet) = r.bytesIn packet := by
  obtain ⟨offset, hoffset⟩ := Int.eq_ofNat_of_zero_le h.1
  have hend := (ElementT.inside_iff hoffset).mp h
  have hfits : r.idx.toInt.toNat * r.type.size + r.type.size ≤ packet.rawData.length := by
    rw [hoffset, Int.toNat_natCast]
    exact hend
  constructor
  · intro hsame
    have hback := slice_overwrite (r.type.constructed (r.bytesIn packet))
      (by omega : r.idx.toInt.toNat * r.type.size ≤ packet.rawData.length)
    have hnew : (r.type.constructed (r.bytesIn packet)).length = r.type.size :=
      r.type.emplaced_length _ _ (bytesIn_length h)
    rw [hsame, hnew] at hback
    exact hback.symm
  · intro hsame
    rw [hsame]
    exact overwrite_slice hfits

end Inside

end ElementRead

/-- Every read of the run, one after the other, returns the value that its
bytes of the fresh packet encode, and leaves every byte as it is there. -/
def ViewRun (host : Order) (fresh : PacketT) : PacketT → List ElementRead → Prop
  | _, [] => True
  | current, r :: rest =>
      ∃ next, r.value host current = some (r.type.ofBytes host (r.bytesIn fresh), next) ∧
        next.rawData = fresh.rawData ∧ ViewRun host fresh next rest

theorem viewRun_cons_iff (host : Order) {fresh current : PacketT} {r : ElementRead}
    {rest : List ElementRead} (hlen : fresh.length < 2 ^ 63) (hinside : r.type.Inside fresh r.idx)
    (hsame : current.rawData = fresh.rawData) :
    ViewRun host fresh current (r :: rest) ↔
      r.type.constructed (r.bytesIn fresh) = r.bytesIn fresh ∧ ViewRun host fresh current rest := by
  have hbytes : r.bytesIn current = r.bytesIn fresh := by
    rw [ElementRead.bytesIn, ElementRead.bytesIn, hsame]
  have hlen' : current.length < 2 ^ 63 := by rwa [PacketT.length, hsame]
  have hinside' : r.type.Inside current r.idx := by rwa [ElementT.Inside, PacketT.length, hsame]
  have hvalue := ElementRead.value_inside host hlen' hinside'
  have hiff := ElementRead.overwrite_eq_iff hinside'
  rw [hbytes] at hvalue hiff
  constructor
  · rintro ⟨next, hread, hnext, hgo⟩
    rw [hvalue] at hread
    obtain ⟨_, rfl⟩ := Prod.mk.inj (Option.some.inj hread)
    have hkept := hiff.mp (hnext.trans hsame.symm)
    rw [hiff.mpr hkept] at hgo
    exact ⟨hkept, hgo⟩
  · rintro ⟨hkept, hgo⟩
    have hinitial := r.type.ofBytes_emplaced host r.type.initializer _
      (ElementRead.bytesIn_length hinside)
    change r.type.ofBytes host (r.type.constructed (r.bytesIn fresh)) = _ at hinitial
    rw [hkept] at hinitial
    rw [← hinitial, hiff.mpr hkept] at hvalue
    exact ⟨current, hvalue, hsame, hgo⟩

/-- Typed reads are a view of the packet exactly when each element already has
the bytes of the object that is constructed in its place. -/
theorem viewRun_iff (host : Order) (fresh : PacketT) (reads : List ElementRead)
    (hlen : fresh.length < 2 ^ 63) (hinside : ∀ r ∈ reads, r.type.Inside fresh r.idx) :
    ViewRun host fresh fresh reads ↔
      ∀ r ∈ reads, r.type.constructed (r.bytesIn fresh) = r.bytesIn fresh := by
  induction reads with
  | nil => simp [ViewRun]
  | cons r rest ih =>
      obtain ⟨hfirst, hrest⟩ := List.forall_mem_cons.mp hinside
      rw [viewRun_cons_iff host hlen hfirst rfl, ih hrest, List.forall_mem_cons]

def uint8Element : ElementT where
  Value := UInt8
  size := 1
  size_pos := by decide
  ofBytes := load
  hasNullableCtor := false
  emplaced _ _ := [0]
  emplaced_length _ _ _ := rfl
  initial _ := 0
  ofBytes_emplaced host _ _ _ := by cases host <;> rfl

def zeroPadded : PacketT := ⟨[1, 2, 3, 4, 0, 0, 0, 0], .monostate⟩

theorem viewRun_sample :
    ViewRun .little zeroPadded zeroPadded [⟨.at, uint32Element, 1⟩, ⟨.subscript, uint8Element, 6⟩] :=
  (viewRun_iff .little zeroPadded [⟨.at, uint32Element, 1⟩, ⟨.subscript, uint8Element, 6⟩]
    (by decide) (by decide)).mpr (by decide)

/-- For types that `T{}` fills with zero bytes, as it does the arithmetic ones,
the elements that can be viewed are those that are zero. -/
theorem viewRun_zero_iff (host : Order) (fresh : PacketT) (reads : List ElementRead)
    (hlen : fresh.length < 2 ^ 63) (hinside : ∀ r ∈ reads, r.type.Inside fresh r.idx)
    (hzero : ∀ r ∈ reads, ∀ storage, r.type.constructed storage = List.replicate r.type.size 0) :
    ViewRun host fresh fresh reads ↔
      ∀ r ∈ reads, r.bytesIn fresh = List.replicate r.type.size 0 := by
  induction reads with
  | nil => simp [ViewRun]
  | cons r rest ih =>
      obtain ⟨hfirst, hrest⟩ := List.forall_mem_cons.mp hinside
      obtain ⟨hconstructed, hothers⟩ := List.forall_mem_cons.mp hzero
      rw [viewRun_cons_iff host hlen hfirst rfl, ih hrest hothers, List.forall_mem_cons,
        hconstructed, eq_comm]

/-- Reading the first element returns zero, and it is zero from then on. -/
theorem viewRun_fails :
    ((ElementRead.mk .at uint32Element 0).value .little eightBytes).map Prod.snd =
        some ⟨[0, 0, 0, 0, 5, 6, 7, 8], .monostate⟩ ∧
      ¬ ViewRun .little eightBytes eightBytes [⟨.at, uint32Element, 0⟩] := by
  have hread : ((ElementRead.mk .at uint32Element 0).value .little eightBytes).map Prod.snd =
      some ⟨[0, 0, 0, 0, 5, 6, 7, 8], .monostate⟩ := by decide
  refine ⟨hread, ?_⟩
  rintro ⟨next, hvalue, hsame, _⟩
  rw [hvalue] at hread
  cases hread
  cases hsame

end LibNokogiri.Pcap
