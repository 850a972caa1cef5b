import LibNokogiri.Internal.Copying
import LibNokogiri.Internal.FdRuns

/-! # Typed access to gzip files

`gzfile_t` reads objects with the same interface as `fd_t`, but asks zlib only
whether a read failed, and not how much of the object it filled. The
byte-swapped accessors choose a swap by the size of the type; the writer has no
case for single bytes.
-/

namespace LibNokogiri.Internal

open ByteCodec Framing

/-! ## Typed reads -/

/-- A type that can be read: its size, what bytes in its place mean, and the
bytes of `T{}`. -/
structure ObjectT where
  Value : Type
  size : Nat
  ofBytes : Order → Bytes → Value
  initial : Bytes
  initial_length : initial.length = size

instance (T : ObjectT) : Pod T.Value := ⟨T.size, T.ofBytes⟩

namespace GzFileT

variable {z : Zlib}

/-- `gzread` into an object; its length is passed as an `unsigned`. The bytes of
the object afterwards, or `none` for -1. -/
def readInto (self : GzFileT z) (object : Bytes) : Option Bytes × GzFileT z :=
  let r := self.gzread (object.length % 2 ^ 32)
  (r.1.map fun bytes => bytes ++ object.drop bytes.length, r.2)

def read (T : ObjectT) (host : Order) (self : GzFileT z) : Option T.Value × GzFileT z :=
  let r := self.readInto T.initial
  (r.1.map (T.ofBytes host), r.2)

/-- `read(std::array<T, len> &)`: the result, and what the array holds then. -/
def readArray (self : GzFileT z) (data : Bytes) : Bool × Bytes × GzFileT z :=
  let r := self.readInto data
  (r.1.isSome, r.1.getD data, r.2)

theorem readInto_eq {self : GzFileT z} {h : z.Handle} {b object : Bytes}
    (hgz : self.gzFile = some h) (hdel : z.Delivers h b) (hsize : object.length < 2 ^ 31) :
    self.readInto object =
      (some (b.take object.length ++ object.drop b.length),
        { self with gzFile := some (z.gzread h object.length).2 }) := by
  have hmod : object.length % 2 ^ 32 = object.length := by omega
  have hdrop : object.drop (b.take object.length).length = object.drop b.length := by
    rw [List.length_take]
    by_cases hle : object.length ≤ b.length
    · rw [Nat.min_eq_left hle, List.drop_length, List.drop_of_length_le hle]
    · rw [Nat.min_eq_right (by omega)]
  simp only [readInto, gzread, hgz, hmod, hdel.read hsize, Option.map_some, hdrop]

end GzFileT

inductive TypedRead
  | value (T : ObjectT)
  | array (data : Bytes)

namespace TypedRead

abbrev Result : TypedRead → Type
  | .value T => T.Value
  | .array _ => Bytes

def size : TypedRead → Nat
  | .value T => T.size
  | .array data => data.length

def viaFd (host : Order) (self : Fd) : (r : TypedRead) → Option r.Result × Fd
  | .value T => self.read T.Value host
  | .array data =>
      let r := self.readArray data
      (if r.1 then some r.2.1 else none, r.2.2)

def viaGz {z : Zlib} (host : Order) (self : GzFileT z) :
    (r : TypedRead) → Option r.Result × GzFileT z
  | .value T => self.read T host
  | .array data =>
      let r := self.readArray data
      (if r.1 then some r.2.1 else none, r.2.2)

def ofBytes (host : Order) : (r : TypedRead) → Bytes → r.Result
  | .value T, bs => T.ofBytes host bs
  | .array _, bs => bs

def expected (host : Order) (r : TypedRead) (rest : Bytes) : Option r.Result :=
  if r.size ≤ rest.length then some (r.ofBytes host (rest.take r.size)) else none

def Agree {z : Zlib} (host : Order) : List TypedRead → Bytes → Fd → GzFileT z → Prop
  | [], _, _, _ => True
  | r :: reads, rest, fd, gz =>
      (r.viaFd host fd).1 = r.expected host rest ∧ (r.viaGz host gz).1 = r.expected host rest ∧
        Agree host reads (rest.drop r.size) (r.viaFd host fd).2 (r.viaGz host gz).2

section Reads

variable {z : Zlib} (host : Order) {fd : Fd} {gz : GzFileT z} {h : z.Handle} {f : RegularFile}
  {pos : Nat} {b : Bytes} {r : TypedRead}

theorem viaFd_of_le (hfd : fd.fd = some ⟨f, pos⟩) (hle : pos + r.size ≤ f.size) :
    r.viaFd host fd =
      (some (r.ofBytes host (slice f.content pos r.size)), fd.movedTo f (pos + r.size)) := by
  cases r with
  | value T => exact FdT.read_of_le hfd hle
  | array data =>
      simp only [viaFd, FdT.readArray_of_le hfd hle]
      rfl

/-- A read through zlib succeeds at the end of the stream like everywhere else,
and keeps what it has not filled. -/
theorem viaGz_eq (hgz : gz.gzFile = some h) (hdel : z.Delivers h b) (hsize : r.size < 2 ^ 31) :
    ∃ object : Bytes, object.length = r.size ∧
      r.viaGz host gz =
        (some (r.ofBytes host (b.take r.size ++ object.drop b.length)),
          { gz with gzFile := some (z.gzread h r.size).2 }) := by
  have hinto : ∀ object : Bytes, object.length = r.size → gz.readInto object =
      (some (b.take r.size ++ object.drop b.length),
        { gz with gzFile := some (z.gzread h r.size).2 }) := by
    intro object hlen
    rw [GzFileT.readInto_eq hgz hdel (by rwa [hlen]), hlen]
  cases r with
  | value T =>
      refine ⟨T.initial, T.initial_length, ?_⟩
      simp only [viaGz, GzFileT.read, hinto T.initial T.initial_length, Option.map_some]
      rfl
  | array data =>
      refine ⟨data, rfl, ?_⟩
      simp only [viaGz, GzFileT.readArray, hinto data rfl]
      rfl

theorem agree_from {reads : List TypedRead} (hfd : fd.fd = some ⟨f, pos⟩) (hpos : pos ≤ f.size)
    (hgz : gz.gzFile = some h) (hdel : z.Delivers h (f.content.drop pos))
    (hsizes : ∀ r ∈ reads, r.size < 2 ^ 31) :
    Agree host reads (f.content.drop pos) fd gz ↔ pos + (reads.map size).sum ≤ f.size := by
  induction reads generalizing fd gz h pos with
  | nil => exact iff_of_true trivial hpos
  | cons r reads ih =>
      have hsize : r.size < 2 ^ 31 := hsizes r List.mem_cons_self
      have hrest : (f.content.drop pos).length = f.size - pos := List.length_drop
      obtain ⟨object, hobject, hviaGz⟩ := viaGz_eq host hgz hdel hsize
      rw [List.map_cons, List.sum_cons, ← Nat.add_assoc]
      simp only [Agree, hviaGz]
      by_cases hle : pos + r.size ≤ f.size
      · have hexpected : r.expected host (f.content.drop pos) =
            some (r.ofBytes host (slice f.content pos r.size)) := if_pos (by omega)
        have hnone : object.drop (f.content.drop pos).length = [] :=
          List.drop_of_length_le (by omega)
        have hnext := hdel.rest hsize
        rw [List.drop_drop] at hnext
        rw [viaFd_of_le host hfd hle, hexpected, hnone, List.append_nil, List.drop_drop,
          ih (FdT.movedTo_fd _ _ _) hle rfl hnext fun s hs => hsizes s (List.mem_cons_of_mem r hs)]
        exact ⟨fun hagree => hagree.2.2, fun hsum => ⟨rfl, rfl, hsum⟩⟩
      · have hexpected : r.expected host (f.content.drop pos) = none := if_neg (by omega)
        rw [hexpected]
        refine iff_of_false ?_ (by omega)
        rintro ⟨_, hsome, _⟩
        cases hsome

/-- The readers agree on every sequence of reads that the stream has bytes for.
At the first one it has not, `gzfile_t` makes up a value. -/
theorem agree_iff {reads : List TypedRead} (hfd : fd.fd = some ⟨f, 0⟩) (hgz : gz.gzFile = some h)
    (hdel : z.Delivers h f.content) (hsizes : ∀ r ∈ reads, r.size < 2 ^ 31) :
    Agree host reads f.content fd gz ↔ (reads.map size).sum ≤ f.size := by
  have hfrom := agree_from host hfd (Nat.zero_le _) hgz (by rwa [List.drop_zero]) hsizes
  rwa [List.drop_zero, Nat.zero_add] at hfrom

end Reads

end TypedRead

def ObjectT.integral (α : Type) [Scalar α] : ObjectT where
  Value := α
  size := Scalar.width α
  ofBytes := load
  initial := List.replicate (Scalar.width α) 0
  initial_length := List.length_replicate

def smallGzipOpened : GzFileT storedZlib :=
  (GzFileT.ofFd storedZlib { fd := some ⟨smallGzip, 0⟩ }).1

theorem smallGzip_delivers :
    storedZlib.Delivers (openStored smallGzip.content) threeBytes.content :=
  storedZlib_delivers (openStored smallGzip.content)

theorem TypedRead.agree_sample :
    TypedRead.Agree .little [.value (.integral UInt16), .array [9]] threeBytes.content
        threeBytesOpened smallGzipOpened ↔
      ([.value (.integral UInt16), .array [9]].map TypedRead.size).sum ≤ threeBytes.size := by
  apply TypedRead.agree_iff .little rfl rfl smallGzip_delivers
  intro r hr
  rcases List.mem_cons.mp hr with rfl | hr
  · decide
  · obtain rfl := List.mem_singleton.mp hr
    decide

/-- Of a four-byte integer three bytes remain: `fd_t` fails, and `gzfile_t`
returns a value with a zero in front. -/
theorem TypedRead.agree_fails :
    (threeBytesOpened.read UInt32 .little).1 = none ∧
      (smallGzipOpened.read (.integral UInt32) .little).1 = some (0x00030201 : UInt32) ∧
      ¬ TypedRead.Agree .little [.value (.integral UInt32)] threeBytes.content threeBytesOpened
        smallGzipOpened := by
  refine ⟨by decide, rfl, ?_⟩
  rintro ⟨_, hvalue, _⟩
  cases hvalue

/-! ## Byte-swapped access -/

structure IntegralT where
  Value : Type
  scalar : Scalar Value
  width_cases : scalar.width = 1 ∨ scalar.width = 2 ∨ scalar.width = 4 ∨ scalar.width = 8

instance (T : IntegralT) : Scalar T.Value := T.scalar

namespace IntegralT

def width (T : IntegralT) : Nat := Scalar.width T.Value

theorem width_eq (T : IntegralT) : T.width = 1 ∨ T.width = 2 ∨ T.width = 4 ∨ T.width = 8 :=
  T.width_cases

/-- What `bswap_write` stores in its local variable, which starts as `T{}`. -/
def writeStorage (T : IntegralT) (data : T.Value) : T.Value :=
  if T.width = 2 then bswap data
  else if T.width = 4 then bswap data
  else if T.width = 8 then bswap data
  else Scalar.ofNat 0

def readStorage (T : IntegralT) (localStorage : T.Value) : T.Value :=
  if T.width = 2 then bswap localStorage
  else if T.width = 4 then bswap localStorage
  else if T.width = 8 then bswap localStorage
  else localStorage

/-- `write(const T &)`, with the value that `gzwrite` returns; `handed` collects
the bytes given to `gzwrite`. -/
def write (T : IntegralT) (host : Order) (ret : Nat) (handed : Bytes) (data : T.Value) :
    Bool × Bytes :=
  (ret != 0, handed ++ store host data)

def bswapWrite (T : IntegralT) (host : Order) (ret : Nat) (handed : Bytes) (data : T.Value) :
    Bool × Bytes :=
  T.write host ret handed (T.writeStorage data)

def bswapRead {z : Zlib} (T : IntegralT) (host : Order) (self : GzFileT z) :
    Option T.Value × GzFileT z :=
  let r := self.readInto (List.replicate T.width 0)
  (r.1.map fun bytes => T.readStorage (load host bytes), r.2)

variable {T : IntegralT}

theorem writeStorage_of_one (h : T.width = 1) (data : T.Value) :
    T.writeStorage data = Scalar.ofNat 0 := by
  simp [writeStorage, h]

theorem writeStorage_of_ne (h : T.width ≠ 1) (data : T.Value) : T.writeStorage data = bswap data := by
  rcases T.width_eq with hw | hw | hw | hw
  · exact absurd hw h
  · simp [writeStorage, hw]
  · simp [writeStorage, hw]
  · simp [writeStorage, hw]

theorem readStorage_eq (localStorage : T.Value) : T.readStorage localStorage = bswap localStorage := by
  rcases T.width_eq with hw | hw | hw | hw
  · rw [bswap_of_width_one hw]
    simp [readStorage, hw]
  · simp [readStorage, hw]
  · simp [readStorage, hw]
  · simp [readStorage, hw]

end IntegralT

structure Integral where
  type : IntegralT
  value : type.Value

namespace Integral

def reversedBytes (host : Order) (v : Integral) : Bytes := (store host v.value).reverse

def writtenBytes (host : Order) (v : Integral) : Bytes := store host (v.type.writeStorage v.value)

/-- Write the values one after another; the n-th `gzwrite` returns `rets n`. -/
def bswapWrites (host : Order) (rets : Nat → Nat) :
    Nat → List Integral → Bytes → List Bool × Bytes
  | _, [], handed => ([], handed)
  | n, v :: values, handed =>
      let w := v.type.bswapWrite host (rets n) handed v.value
      let rest := bswapWrites host rets (n + 1) values w.2
      (w.1 :: rest.1, rest.2)

def bswapReads {z : Zlib} (host : Order) :
    List IntegralT → GzFileT z → List (Option Integral) × GzFileT z
  | [], self => ([], self)
  | T :: types, self =>
      let r := T.bswapRead host self
      let rest := bswapReads host types r.2
      (r.1.map (fun value => ⟨T, value⟩) :: rest.1, rest.2)

variable {host : Order}

theorem bswapWrites_handed (host : Order) (rets : Nat → Nat) (n : Nat) (values : List Integral)
    (handed : Bytes) :
    (bswapWrites host rets n values handed).2 =
      handed ++ (values.map (writtenBytes host)).flatten := by
  induction values generalizing n handed with
  | nil => exact (List.append_nil handed).symm
  | cons v values ih =>
      rw [List.map_cons, List.flatten_cons, ← List.append_assoc]
      exact ih (n + 1) (handed ++ v.writtenBytes host)

/-- Only single bytes other than zero are lost. -/
theorem writtenBytes_eq_iff (host : Order) (v : Integral) :
    v.writtenBytes host = v.reversedBytes host ↔ (v.type.width = 1 → v.value = Scalar.ofNat 0) := by
  rw [reversedBytes, store_reverse, store_flip, writtenBytes]
  by_cases hone : v.type.width = 1
  · rw [IntegralT.writeStorage_of_one hone, bswap_of_width_one hone]
    constructor
    · intro hstore _
      rw [← load_store host v.value, ← hstore, load_store]
    · intro hzero
      rw [hzero hone]
  · rw [IntegralT.writeStorage_of_ne hone]
    exact iff_of_true rfl fun h => absurd h hone

theorem writtenBytes_length (host : Order) (v : Integral) :
    (v.writtenBytes host).length = v.type.width := store_length host _

theorem reversedBytes_length (host : Order) (v : Integral) :
    (v.reversedBytes host).length = v.type.width := by
  rw [reversedBytes, List.length_reverse, store_length]
  rfl

theorem flatten_writtenBytes_iff (host : Order) (values : List Integral) :
    (values.map (writtenBytes host)).flatten = (values.map (reversedBytes host)).flatten ↔
      ∀ v ∈ values, v.type.width = 1 → v.value = Scalar.ofNat 0 := by
  induction values with
  | nil => exact iff_of_true rfl fun v hv => absurd hv List.not_mem_nil
  | cons v values ih =>
      have hlen : (v.writtenBytes host).length = (v.reversedBytes host).length := by
        rw [writtenBytes_length, reversedBytes_length]
      rw [List.map_cons, List.map_cons, List.flatten_cons, List.flatten_cons, List.forall_mem_cons,
        ← writtenBytes_eq_iff host, ← ih]
      constructor
      · intro h
        exact List.append_inj h hlen
      · rintro ⟨hv, hvalues⟩
        rw [hv, hvalues]

theorem bswapRead_eq {z : Zlib} {gz : GzFileT z} {h : z.Handle} {v : Integral} {rest : Bytes}
    (hgz : gz.gzFile = some h) (hdel : z.Delivers h (v.reversedBytes host ++ rest)) :
    ∃ next, v.type.bswapRead host gz = (some v.value, { gz with gzFile := some next }) ∧
      z.Delivers next rest := by
  have hwidth : v.type.width < 2 ^ 31 := by
    have hcases := v.type.width_eq
    omega
  have hlen := v.reversedBytes_length host
  have hzeros : (List.replicate v.type.width (0 : UInt8)).length < 2 ^ 31 := by
    rwa [List.length_replicate]
  have hfilled : (List.replicate v.type.width (0 : UInt8)).drop
      (v.reversedBytes host ++ rest).length = [] := by
    apply List.drop_of_length_le
    rw [List.length_replicate, List.length_append, hlen]
    exact Nat.le_add_right _ _
  have hinto := GzFileT.readInto_eq hgz hdel hzeros
  rw [List.length_replicate, List.take_left' hlen, hfilled, List.append_nil] at hinto
  have hloaded : load host (v.reversedBytes host) = bswap v.value := by
    rw [reversedBytes, store_reverse, store_flip, load_store]
  have hrest := hdel.rest hwidth
  rw [List.drop_left' hlen] at hrest
  refine ⟨_, ?_, hrest⟩
  rw [IntegralT.bswapRead, hinto]
  simp only [Option.map_some, hloaded, IntegralT.readStorage_eq, bswap_bswap]

theorem bswapReads_eq {z : Zlib} {gz : GzFileT z} {h : z.Handle} {values : List Integral}
    (hgz : gz.gzFile = some h)
    (hdel : z.Delivers h (values.map (reversedBytes host)).flatten) :
    (bswapReads host (values.map Integral.type) gz).1 = values.map some := by
  induction values generalizing gz h with
  | nil => rfl
  | cons v values ih =>
      obtain ⟨next, hread, hnext⟩ := bswapRead_eq hgz hdel
      rw [List.map_cons, bswapReads, hread]
      exact congrArg (List.cons (some v)) (ih rfl hnext)

/-- What `bswap_write` hands over is each value reversed, and `bswap_read` gets
the values back from it. -/
structure RoundTrips (host : Order) (rets : Nat → Nat) (values : List Integral) : Prop where
  handed : (bswapWrites host rets 0 values []).2 = (values.map (reversedBytes host)).flatten
  restored : ∀ (z : Zlib) (gz : GzFileT z) (h : z.Handle), gz.gzFile = some h →
    z.Delivers h (bswapWrites host rets 0 values []).2 →
      (bswapReads host (values.map Integral.type) gz).1 = values.map some

/-- The writer replaces single bytes by zero; all other values come back. -/
theorem roundTrips_iff (host : Order) (rets : Nat → Nat) (values : List Integral) :
    RoundTrips host rets values ↔ ∀ v ∈ values, v.type.width = 1 → v.value = Scalar.ofNat 0 := by
  have hhanded := bswapWrites_handed host rets 0 values []
  rw [List.nil_append] at hhanded
  rw [← flatten_writtenBytes_iff host]
  constructor
  · intro h
    rw [← hhanded]
    exact h.handed
  · intro h
    rw [h] at hhanded
    refine ⟨hhanded, fun z gz handle hgz hdel => ?_⟩
    rw [hhanded] at hdel
    exact bswapReads_eq hgz hdel

def uint8T : IntegralT := ⟨UInt8, inferInstance, .inl rfl⟩

theorem roundTrips_fails :
    (bswapWrites .little (fun _ => 1) 0 [⟨uint8T, (5 : UInt8)⟩] []).2 = [0] ∧
      ¬ RoundTrips .little (fun _ => 1) [⟨uint8T, (5 : UInt8)⟩] := by
  refine ⟨by decide, fun h => ?_⟩
  have hhanded := h.handed
  revert hhanded
  decide

end Integral

end LibNokogiri.Internal
