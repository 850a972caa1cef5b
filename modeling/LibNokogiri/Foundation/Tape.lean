/-! # Strings as functions on positions

A tape has a size and a symbol in every cell, the default one behind its size.
Storing symbols and changing the size are edits. Whatever the edits are, a cell
holds what the last edit left there that reached it.
-/

@[ext] structure Tape (α : Type) [Inhabited α] where
  size : Nat
  cell : Nat → α
  blank : ∀ i, size ≤ i → cell i = default

namespace Tape

variable {α : Type}

/-! ## Edits -/

inductive Edit (α : Type)
  | put (pos : Nat) (data : List α)
  | resize (size : Nat)

namespace Edit

def sizeAfter : Edit α → Nat → Nat
  | .put pos data, size => if data.length = 0 then size else max size (pos + data.length)
  | .resize size, _ => size

/-- The edit reaches no cell from `first` up to `last`. -/
def Spares (first last : Nat) : Edit α → Prop
  | .put pos data => pos + data.length ≤ first ∨ last ≤ pos
  | .resize size => last ≤ size

instance (first last : Nat) : (e : Edit α) → Decidable (e.Spares first last)
  | .put _ _ => inferInstanceAs (Decidable (_ ∨ _))
  | .resize _ => inferInstanceAs (Decidable (_ ≤ _))

theorem Spares.sizeAfter {e : Edit α} {first last size : Nat} (h : e.Spares first last)
    (hsize : last ≤ size) : last ≤ e.sizeAfter size := by
  cases e with
  | put pos data =>
      show last ≤ if data.length = 0 then size else max size (pos + data.length)
      split
      · exact hsize
      · exact Nat.le_trans hsize (Nat.le_max_left _ _)
  | resize size => exact h

variable [Inhabited α]

/-- What the edit leaves in a cell, if it reaches it. -/
def writes : Edit α → Nat → Option α
  | .put pos data, i => if pos ≤ i then data[i - pos]? else none
  | .resize size, i => if size ≤ i then some default else none

theorem Spares.writes {e : Edit α} {first last : Nat} (h : e.Spares first last) {i : Nat}
    (hfirst : first ≤ i) (hlast : i < last) : e.writes i = none := by
  cases e with
  | put pos data =>
      by_cases hpos : pos ≤ i
      · have hbehind : data.length ≤ i - pos := by
          rcases h with h | h <;> omega
        exact (if_pos hpos).trans (List.getElem?_eq_none hbehind)
      · exact if_neg hpos
  | resize size =>
      have hlt : ¬ size ≤ i := by
        have hle : last ≤ size := h
        omega
      exact if_neg hlt

end Edit

variable [Inhabited α]

def ofList (xs : List α) : Tape α where
  size := xs.length
  cell i := xs[i]?.getD default
  blank _ h := by rw [List.getElem?_eq_none h, Option.getD_none]

theorem ofList_injective {xs ys : List α} (h : ofList xs = ofList ys) : xs = ys := by
  have hsize : xs.length = ys.length := congrArg size h
  apply List.ext_getElem hsize
  intro i hx hy
  have hcell : xs[i]?.getD default = ys[i]?.getD default := congrFun (congrArg cell h) i
  rwa [List.getElem?_eq_getElem hx, List.getElem?_eq_getElem hy] at hcell

/-! ## Windows -/

/-- The symbols of `count` cells from `pos` on, as far as the tape reaches. -/
def window (t : Tape α) (pos count : Nat) : List α :=
  (List.range (min count (t.size - pos))).map fun k => t.cell (pos + k)

variable {t u : Tape α} {pos count : Nat}

theorem window_length (t : Tape α) (pos count : Nat) :
    (t.window pos count).length = min count (t.size - pos) := by
  rw [window, List.length_map, List.length_range]

theorem getElem?_window {k : Nat} {a : α} (h : (t.window pos count)[k]? = some a) :
    a = t.cell (pos + k) := by
  rw [window, List.getElem?_map] at h
  obtain ⟨k', hk', rfl⟩ := Option.map_eq_some_iff.mp h
  obtain ⟨_, hget⟩ := List.getElem?_eq_some_iff.mp hk'
  rw [← hget, List.getElem_range]

theorem window_ofList (xs : List α) (pos count : Nat) :
    (ofList xs).window pos count = (xs.drop pos).take count := by
  have hlen : ((ofList xs).window pos count).length = ((xs.drop pos).take count).length := by
    rw [window_length, List.length_take, List.length_drop]
    rfl
  apply List.ext_getElem hlen
  intro k hk hk'
  have hin : pos + k < xs.length := by
    rw [List.length_take, List.length_drop] at hk'
    omega
  simp only [window, List.getElem_map, List.getElem_range, List.getElem_take, List.getElem_drop,
    ofList, List.getElem?_eq_getElem hin, Option.getD_some]

theorem window_congr (ht : pos + count ≤ t.size) (hu : pos + count ≤ u.size)
    (hcells : ∀ i, pos ≤ i → i < pos + count → t.cell i = u.cell i) :
    t.window pos count = u.window pos count := by
  have hfull : ∀ {n : Nat}, pos + count ≤ n → min count (n - pos) = count := by
    intro n hn
    omega
  rw [window, window, hfull ht, hfull hu]
  apply List.map_congr_left
  intro k hk
  have hlt : k < count := List.mem_range.mp hk
  exact hcells (pos + k) (Nat.le_add_right pos k) (by omega)

def edited (t : Tape α) (e : Edit α) : Tape α where
  size := e.sizeAfter t.size
  cell i := (e.writes i).getD (t.cell i)
  blank i h := by
    cases e with
    | put pos data =>
        have hbehind : t.size ≤ i ∧ (pos ≤ i → data.length ≤ i - pos) := by
          simp only [Edit.sizeAfter] at h
          split at h <;> omega
        have hnone : (if pos ≤ i then data[i - pos]? else none) = none := by
          split
          · rename_i hpos
            exact List.getElem?_eq_none (hbehind.2 hpos)
          · rfl
        simp only [Edit.writes, hnone, Option.getD_none, t.blank i hbehind.1]
    | resize size => simp only [Edit.writes, if_pos (show size ≤ i from h), Option.getD_some]

/-- After any number of edits, a cell holds what the last edit left there that
reached it, and otherwise what it held at first. -/
theorem cell_edits (t : Tape α) (es : List (Edit α)) (i : Nat) :
    (es.foldl edited t).cell i = (es.reverse.findSome? (Edit.writes · i)).getD (t.cell i) := by
  induction es generalizing t with
  | nil => rfl
  | cons e es ih =>
      rw [List.foldl_cons, ih, List.reverse_cons, List.findSome?_append]
      cases es.reverse.findSome? (Edit.writes · i) with
      | some a => rfl
      | none =>
          rw [Option.none_or, List.findSome?_singleton]
          rfl

theorem window_edited {e : Edit α} (hspares : e.Spares pos (pos + count))
    (hsize : pos + count ≤ t.size) : (t.edited e).window pos count = t.window pos count := by
  apply window_congr (hspares.sizeAfter hsize) hsize
  intro i hfirst hlast
  exact congrArg (Option.getD · (t.cell i)) (hspares.writes hfirst hlast)

theorem window_put (t : Tape α) (pos : Nat) (data : List α) :
    (t.edited (.put pos data)).window pos data.length = data := by
  have hfull : min data.length ((t.edited (.put pos data)).size - pos) = data.length := by
    simp only [edited, Edit.sizeAfter]
    split <;> omega
  rw [window, hfull]
  apply List.ext_getElem
  · rw [List.length_map, List.length_range]
  · intro k hk hk'
    rw [List.getElem_map, List.getElem_range]
    simp only [edited, Edit.writes, if_pos (Nat.le_add_right pos k), Nat.add_sub_cancel_left,
      List.getElem?_eq_getElem hk', Option.getD_some]

end Tape
