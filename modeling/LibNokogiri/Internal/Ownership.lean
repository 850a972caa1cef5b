import LibNokogiri.Foundation.Holdings
import LibNokogiri.Foundation.Run
import LibNokogiri.Internal.Fd

/-! # Who closes a descriptor

Descriptors are numbered in the order they are opened, so that a number stands
for one open file for the whole run. A `fd_t` closes its descriptor when it is
destroyed, and so does the zlib handle inside a `gzfile_t`. Swaps and moves
hand a descriptor on; wrapping one in a zlib handle gives it a second owner.
-/

namespace LibNokogiri.Internal

open Holdings Run

instance : Descriptor Int := ⟨-1⟩

/-- A `gzfile_t`; its `_gz_file` is known by the descriptor that was given to
`gzdopen`, a null pointer being `none`. -/
structure GzHolder where
  file : FdT Int
  gzFile : Option Int
  error : Int := 0
deriving DecidableEq

namespace GzHolder

def default : GzHolder := { file := FdT.default, gzFile := none }

def swap (self desc : GzHolder) : GzHolder × GzHolder :=
  let files := FdT.swap self.file desc.file
  ({ file := files.1, gzFile := desc.gzFile, error := desc.error },
   { file := files.2, gzFile := self.gzFile, error := self.error })

def moveConstruct (other : GzHolder) : GzHolder × GzHolder := swap default other

@[simp] theorem swap_eq (self desc : GzHolder) : swap self desc = (desc, self) := rfl

@[simp] theorem moveConstruct_eq (other : GzHolder) : moveConstruct other = (other, default) := rfl

end GzHolder

inductive Object
  | fd (self : FdT Int)
  | gz (self : GzHolder)
deriving DecidableEq

namespace Object

def closingFd (self : FdT Int) : List Int := if self.fd = -1 then [] else [self.fd]

/-- The `close` calls of the destructor; members go in the reverse order of
their declaration, so that `gzclose` comes first. -/
def closing : Object → List Int
  | .fd self => closingFd self
  | .gz self => self.gzFile.toList ++ closingFd self.file

/-- Swapping, and move assignment, which both types define as a swap. -/
def swap : Object → Object → Option (Object × Object)
  | .fd self, .fd desc => some (.fd (FdT.swap self desc).1, .fd (FdT.swap self desc).2)
  | .gz self, .gz desc => some (.gz (GzHolder.swap self desc).1, .gz (GzHolder.swap self desc).2)
  | _, _ => none

def moveConstruct : Object → Object × Object
  | .fd other => (.fd (FdT.moveConstruct other).1, .fd (FdT.moveConstruct other).2)
  | .gz other => (.gz (GzHolder.moveConstruct other).1, .gz (GzHolder.moveConstruct other).2)

end Object

/-- The objects of a process, how many descriptors it has opened, and the
calls it has made: every `close`, and every `gzdopen` that returned a handle. -/
structure Process where
  opened : Nat := 0
  objects : List Object := []
  closes : List Int := []
  wrapped : List Int := []
deriving DecidableEq

namespace Process

inductive Action
  | defaultFd
  | defaultGz
  | openFd (file : String) (temp ok : Bool)
  | openGz (file : String) (ok okGz : Bool)
  | wrap (i : Nat) (okGz : Bool)
  | moveConstruct (i : Nat)
  | moveAssign (i j : Nat)
  | swap (i j : Nat)
  | destroy (i : Nat)

def openFile (self : Process) (ok : Bool) : Int × Process :=
  if ok then (self.opened, { self with opened := self.opened + 1 }) else (-1, self)

/-- `gzdopen` does not hand out a handle for descriptor -1. -/
def gzdopen (self : Process) (fd : Int) (ok : Bool) : Option Int × Process :=
  if ok = true ∧ fd ≠ -1 then (some fd, { self with wrapped := fd :: self.wrapped })
  else (none, self)

def add (self : Process) (object : Object) : Process :=
  { self with objects := self.objects ++ [object] }

def exchange (self : Process) (i j : Nat) : Option Process := do
  let a ← self.objects[i]?
  let b ← self.objects[j]?
  let r ← a.swap b
  some { self with objects := (self.objects.set i r.1).set j r.2 }

/-- The process after an action; none where an object does not exist or is not
of the type that the action asks for. -/
def step (self : Process) : Action → Option Process
  | .defaultFd => some (self.add (.fd FdT.default))
  | .defaultGz => some (self.add (.gz GzHolder.default))
  | .openFd file temp ok =>
      let r := self.openFile ok
      some (r.2.add (.fd { fd := r.1, temp, filename := file }))
  | .openGz file ok okGz =>
      let r := self.openFile ok
      let h := r.2.gzdopen r.1 okGz
      some (h.2.add (.gz { file := { fd := r.1, filename := file }, gzFile := h.1 }))
  | .wrap i okGz =>
      match self.objects[i]? with
      | some (.fd file) =>
          let moved := FdT.moveConstruct file
          let taken : Process := { self with objects := self.objects.set i (.fd moved.2) }
          let h := taken.gzdopen moved.1.fd okGz
          some (h.2.add (.gz { file := moved.1, gzFile := h.1 }))
      | _ => none
  | .moveConstruct i => do
      let o ← self.objects[i]?
      some ({ self with objects := self.objects.set i o.moveConstruct.2 }.add o.moveConstruct.1)
  | .moveAssign i j => self.exchange i j
  | .swap i j => self.exchange i j
  | .destroy i => do
      let o ← self.objects[i]?
      some { self with objects := self.objects.eraseIdx i, closes := self.closes ++ o.closing }

/-! ## Every descriptor is accounted for -/

def Opened (self : Process) (d : Int) : Prop := 0 ≤ d ∧ d < self.opened

instance (self : Process) (d : Int) : Decidable (self.Opened d) := inferInstanceAs (Decidable (_ ∧ _))

/-- The closes made and the closes to come, those in `pending` included: one
for each `open`, and one more for each handle zlib has made of the descriptor. -/
def Owes (self : Process) (pending : List Int) : Prop :=
  ∀ d, (held Object.closing self.objects).count d + pending.count d + self.closes.count d =
    (if self.Opened d then 1 else 0) + self.wrapped.count d

theorem closing_swap {a b : Object} {r : Object × Object} (h : a.swap b = some r) :
    r.1.closing = b.closing ∧ r.2.closing = a.closing := by
  cases a <;> cases b <;> simp only [Object.swap] at h
  · cases h
    exact ⟨rfl, rfl⟩
  · cases h
  · cases h
  · cases h
    exact ⟨rfl, rfl⟩

theorem closing_moveConstruct (o : Object) :
    o.moveConstruct.1.closing = o.closing ∧ o.moveConstruct.2.closing = [] := by
  cases o <;> exact ⟨rfl, rfl⟩

section Steps

variable {s s' : Process} {pending : List Int}

theorem start_owes : ({} : Process).Owes [] := by
  intro d
  have hnone : ¬ ({} : Process).Opened d := by
    rintro ⟨hlow, hhigh⟩
    exact absurd hlow (Int.not_le.mpr hhigh)
  simp [hnone]

theorem add_owes {o : Object} (h : s.Owes (o.closing ++ pending)) : (s.add o).Owes pending := by
  intro d
  have hd := h d
  rw [List.count_append] at hd
  have hheld : (held Object.closing (s.add o).objects).count d =
      (held Object.closing s.objects).count d + o.closing.count d := by
    rw [add, held_append, List.count_append]
  rw [hheld, Nat.add_assoc (List.count d _)]
  exact hd

theorem set_owes {i : Nat} {o o' : Object} (hget : s.objects[i]? = some o)
    (h : s.Owes (o'.closing ++ pending)) :
    ({ s with objects := s.objects.set i o' } : Process).Owes (o.closing ++ pending) := by
  intro d
  have hd := h d
  have hset := (@held_set _ _ Object.closing _ _ _ hget o').count_eq d
  rw [List.count_append, List.count_append] at hset
  rw [List.count_append] at hd ⊢
  have htrade : (held Object.closing (s.objects.set i o')).count d +
      (o.closing.count d + pending.count d) =
        (held Object.closing s.objects).count d + (o'.closing.count d + pending.count d) := by
    omega
  exact (congrArg (· + s.closes.count d) htrade).trans hd

theorem openFile_owes (h : s.Owes pending) (ok temp : Bool) (file : String) :
    (s.openFile ok).2.Owes
      (Object.closingFd { fd := (s.openFile ok).1, temp, filename := file } ++ pending) := by
  intro d
  have hd := h d
  cases ok with
  | false => exact hd
  | true =>
      have hne : ((s.opened : Nat) : Int) ≠ -1 := by omega
      have hopened : (if ({ s with opened := s.opened + 1 } : Process).Opened d then 1 else 0) =
          (if s.Opened d then 1 else 0) + [(s.opened : Int)].count d := by
        have hlt : (s.opened : Int) < s.opened + 1 := by omega
        by_cases hd : d = s.opened
        · subst hd
          simp [Opened, hlt]
        · have hsame : ({ s with opened := s.opened + 1 } : Process).Opened d ↔ s.Opened d := by
            simp only [Opened]
            omega
          have hcount : [(s.opened : Int)].count d = 0 := by
            rw [List.count_singleton, if_neg (by simpa using Ne.symm hd)]
          simp only [hsame, hcount, Nat.add_zero]
      simp only [openFile, if_true, Object.closingFd, if_neg hne, List.count_append]
      rw [hopened]
      omega

theorem gzdopen_owes (h : s.Owes pending) (fd : Int) (ok : Bool) :
    (s.gzdopen fd ok).2.Owes ((s.gzdopen fd ok).1.toList ++ pending) := by
  intro d
  have hd := h d
  by_cases hok : ok = true ∧ fd ≠ -1
  · simp only [gzdopen, if_pos hok, Option.toList_some, List.count_append, List.count_cons,
      List.count_nil]
    change (held Object.closing s.objects).count d + _ + s.closes.count d =
      (if s.Opened d then 1 else 0) + _
    omega
  · simp only [gzdopen, if_neg hok]
    exact hd

theorem exchange_cases {i j : Nat} (h : s.exchange i j = some s') :
    ∃ a b r, s.objects[i]? = some a ∧ s.objects[j]? = some b ∧ a.swap b = some r ∧
      s' = { s with objects := (s.objects.set i r.1).set j r.2 } := by
  obtain ⟨a, ha, h⟩ := Option.bind_eq_some_iff.mp h
  obtain ⟨b, hb, h⟩ := Option.bind_eq_some_iff.mp h
  obtain ⟨r, hr, h⟩ := Option.bind_eq_some_iff.mp h
  cases h
  exact ⟨a, b, r, ha, hb, hr, rfl⟩

theorem exchange_owes {i j : Nat} (h : s.Owes []) (hex : s.exchange i j = some s') :
    s'.Owes [] := by
  obtain ⟨a, b, r, ha, hb, hr, rfl⟩ := exchange_cases hex
  obtain ⟨hfirst, hsecond⟩ := closing_swap hr
  intro d
  have hheld := (held_exchange ha hb hfirst hsecond).count_eq d
  simp only [hheld]
  exact h d

theorem step_wrap {i : Nat} {okGz : Bool} (h : step s (.wrap i okGz) = some s') :
    ∃ file : FdT Int, s.objects[i]? = some (.fd file) ∧
      let taken : Process := { s with objects := s.objects.set i (.fd FdT.default) }
      s' = (taken.gzdopen file.fd okGz).2.add
        (.gz { file, gzFile := (taken.gzdopen file.fd okGz).1 }) := by
  simp only [step] at h
  split at h
  · rename_i file hget
    cases h
    exact ⟨file, hget, rfl⟩
  · cases h

theorem step_owes {a : Action} (h : s.Owes []) (hstep : step s a = some s') : s'.Owes [] := by
  cases a with
  | defaultFd =>
      cases hstep
      exact add_owes h
  | defaultGz =>
      cases hstep
      exact add_owes h
  | openFd file temp ok =>
      cases hstep
      exact add_owes (openFile_owes h ok temp file)
  | openGz file ok okGz =>
      cases hstep
      apply add_owes
      rw [Object.closing, List.append_assoc]
      exact gzdopen_owes (openFile_owes h ok false file) _ okGz
  | wrap i okGz =>
      obtain ⟨file, hget, rfl⟩ := step_wrap hstep
      have htaken : ({ s with objects := s.objects.set i (.fd FdT.default) } : Process).Owes
          (Object.closingFd file ++ []) := set_owes hget h
      apply add_owes
      rw [Object.closing, List.append_assoc]
      exact gzdopen_owes htaken file.fd okGz
  | moveConstruct i =>
      obtain ⟨o, hget, hstep⟩ := Option.bind_eq_some_iff.mp hstep
      cases hstep
      obtain ⟨hnew, hold⟩ := closing_moveConstruct o
      apply add_owes
      rw [hnew]
      apply set_owes hget
      rw [hold]
      exact h
  | moveAssign i j => exact exchange_owes h hstep
  | swap i j => exact exchange_owes h hstep
  | destroy i =>
      obtain ⟨o, hget, hstep⟩ := Option.bind_eq_some_iff.mp hstep
      cases hstep
      intro d
      have hd := h d
      rw [← (@held_eraseIdx _ _ Object.closing _ _ _ hget).count_eq d, List.count_append,
        List.count_nil] at hd
      rw [List.count_append, List.count_nil]
      refine Eq.trans ?_ hd
      dsimp only
      omega

/-! ## Runs -/

/-- No zlib handle is made of an open descriptor. -/
def Clean (self : Process) : Action → Prop
  | .openGz _ ok okGz => ¬ (ok = true ∧ okGz = true)
  | .wrap i okGz => okGz = true → ∀ file, self.objects[i]? = some (.fd file) → file.fd = -1
  | _ => True

/-- Each `close` so far was the first on a descriptor that `open` had returned. -/
def NoStrayClose (self : Process) : Prop :=
  ∀ d ∈ self.closes, self.Opened d ∧ self.closes.count d = 1

def EachClosedOnce (self : Process) : Prop := ∀ d, self.Opened d → self.closes.count d = 1

theorem exchange_wrapped {i j : Nat} (hex : s.exchange i j = some s') :
    s'.wrapped = s.wrapped := by
  obtain ⟨_, _, _, _, _, _, rfl⟩ := exchange_cases hex
  rfl

theorem step_wrapped {a : Action} (hstep : step s a = some s') :
    (s.Clean a ∧ s'.wrapped = s.wrapped) ∨
      (¬ s.Clean a ∧ ∃ d, s'.wrapped = d :: s.wrapped) := by
  cases a with
  | defaultFd | defaultGz =>
      cases hstep
      exact .inl ⟨trivial, rfl⟩
  | openFd file temp ok =>
      cases hstep
      cases ok <;> exact .inl ⟨trivial, rfl⟩
  | openGz file ok okGz =>
      cases hstep
      cases ok with
      | false =>
          refine .inl ⟨fun h => absurd h.1 Bool.false_ne_true, ?_⟩
          cases okGz <;> rfl
      | true =>
          cases okGz with
          | false => exact .inl ⟨fun h => absurd h.2 Bool.false_ne_true, rfl⟩
          | true =>
              have hne : ((s.opened : Nat) : Int) ≠ -1 := by omega
              refine .inr ⟨fun h => h ⟨rfl, rfl⟩, s.opened, ?_⟩
              simp [openFile, gzdopen, add, hne]
  | wrap i okGz =>
      obtain ⟨file, hget, rfl⟩ := step_wrap hstep
      by_cases hok : okGz = true ∧ file.fd ≠ -1
      · refine .inr ⟨fun h => hok.2 (h hok.1 file hget), file.fd, ?_⟩
        simp only [add, gzdopen, if_pos hok]
      · refine .inl ⟨?_, ?_⟩
        · intro hgz other hother
          rw [hget] at hother
          cases hother
          exact Decidable.of_not_not fun hne => hok ⟨hgz, hne⟩
        · simp only [add, gzdopen, if_neg hok]
  | moveConstruct i =>
      obtain ⟨o, _, hstep⟩ := Option.bind_eq_some_iff.mp hstep
      cases hstep
      exact .inl ⟨trivial, rfl⟩
  | moveAssign i j => exact .inl ⟨trivial, exchange_wrapped hstep⟩
  | swap i j => exact .inl ⟨trivial, exchange_wrapped hstep⟩
  | destroy i =>
      obtain ⟨o, _, hstep⟩ := Option.bind_eq_some_iff.mp hstep
      cases hstep
      exact .inl ⟨trivial, rfl⟩

theorem reachable_owes (h : Reachable step {} s) : s.Owes [] := by
  apply h.invariant (I := fun s => s.Owes []) start_owes
  intro s a s' howes _ hstep
  exact step_owes howes hstep

/-- The clean runs are those that end without a handle having been made. -/
theorem clean_iff (h : Reachable step {} s) : Reaches step Clean {} s ↔ s.wrapped = [] := by
  constructor
  · intro hclean
    apply hclean.invariant (I := fun s => s.wrapped = []) rfl
    intro s a s' hnone hok hstep
    rcases step_wrapped hstep with ⟨_, hsame⟩ | ⟨hnot, _⟩
    · rw [hsame, hnone]
    · exact absurd hok hnot
  · intro hnone
    apply h.unmarked (M := fun s => s.wrapped ≠ [])
    · intro s a s' hstep hmade
      rcases step_wrapped hstep with ⟨_, hsame⟩ | ⟨_, d, hcons⟩
      · rw [hsame]
        exact hmade
      · rw [hcons]
        exact List.cons_ne_nil d s.wrapped
    · intro s a s' hstep hnot
      rcases step_wrapped hstep with ⟨hok, _⟩ | ⟨_, d, hcons⟩
      · exact absurd hok hnot
      · rw [hcons]
        exact List.cons_ne_nil d s.wrapped
    · exact fun hmade => hmade hnone

theorem Owes.count_of_unwrapped (h : s.Owes []) (hnone : s.wrapped = []) (d : Int) :
    (held Object.closing s.objects).count d + s.closes.count d = if s.Opened d then 1 else 0 := by
  have hd := h d
  rw [hnone] at hd
  exact hd

theorem noStrayClose_of_unwrapped (h : s.Owes []) (hnone : s.wrapped = []) : s.NoStrayClose := by
  intro d hmem
  have hpos := List.count_pos_iff.mpr hmem
  have hd := h.count_of_unwrapped hnone d
  by_cases hopened : s.Opened d
  · rw [if_pos hopened] at hd
    exact ⟨hopened, by omega⟩
  · rw [if_neg hopened] at hd
    omega

/-- At the end of a run a wrapped descriptor has been closed twice. -/
theorem unwrapped_of_noStrayClose (h : s.Owes []) (hobjects : s.objects = [])
    (hsound : s.NoStrayClose) : s.wrapped = [] := by
  apply List.eq_nil_iff_forall_not_mem.mpr
  intro d hmem
  have hpos := List.count_pos_iff.mpr hmem
  have hd := h d
  rw [hobjects] at hd
  rw [held_nil, List.count_nil, Nat.zero_add] at hd
  have hclosed : d ∈ s.closes := by
    apply List.count_pos_iff.mp
    omega
  obtain ⟨hopened, hone⟩ := hsound d hclosed
  rw [if_pos hopened] at hd
  omega

/-- In every state of a run without a handle no close has gone astray, and once
the last object is gone every descriptor has been closed; a run to its end that
makes a handle closes some descriptor twice. -/
theorem closed_once (h : Reachable step {} s) :
    (Reaches step Clean {} s → s.NoStrayClose ∧ (s.objects = [] → s.EachClosedOnce)) ∧
      (s.objects = [] → s.NoStrayClose → Reaches step Clean {} s) := by
  have howes := reachable_owes h
  rw [clean_iff h]
  refine ⟨?_, fun hobjects hsound => unwrapped_of_noStrayClose howes hobjects hsound⟩
  intro hnone
  refine ⟨noStrayClose_of_unwrapped howes hnone, ?_⟩
  intro hobjects d hopened
  have hd := howes.count_of_unwrapped hnone d
  rw [hobjects, if_pos hopened] at hd
  simpa using hd

end Steps

def plainRun : List Action :=
  [.defaultFd, .openFd "sample.pcap" false true, .moveAssign 0 1, .destroy 1, .destroy 0]

def compressedRun : List Action :=
  [.defaultFd, .openFd "sample.pcap.gz" false true, .openFd "copy.pcap" true true,
    .moveAssign 0 2, .destroy 2, .wrap 1 true, .destroy 2, .destroy 1, .destroy 0]

theorem closed_once_plain :
    NoStrayClose { opened := 1, closes := [0] } ∧ EachClosedOnce { opened := 1, closes := [0] } := by
  have hrun : perform step {} plainRun = some { opened := 1, closes := [0] } := by decide
  have h : Reachable step {} { opened := 1, closes := [0] } := Reachable.perform .start hrun
  obtain ⟨hsound, hall⟩ := (closed_once h).1 ((clean_iff h).mpr rfl)
  exact ⟨hsound, hall rfl⟩

/-- The descriptor of a compressed capture is closed by `gzclose` and then by `~fd_t`. -/
theorem closed_twice :
    Reachable step {} { opened := 2, closes := [0, 0, 1], wrapped := [0] } ∧
      ¬ NoStrayClose { opened := 2, closes := [0, 0, 1], wrapped := [0] } ∧
      ¬ EachClosedOnce { opened := 2, closes := [0, 0, 1], wrapped := [0] } := by
  have hrun : perform step {} compressedRun =
      some { opened := 2, closes := [0, 0, 1], wrapped := [0] } := by decide
  refine ⟨Reachable.perform .start hrun, ?_, ?_⟩
  · intro hsound
    exact absurd (hsound 0 (by decide)).2 (by decide)
  · intro hall
    exact absurd (hall 0 (by decide)) (by decide)

end Process

end LibNokogiri.Internal
