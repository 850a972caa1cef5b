import Mathlib.Data.List.Perm.Basic

/-! # What the owners in a list hold

Owners are added, replaced, exchanged and removed. What they hold between them
changes by the same amount, up to its order: a replacement gives up what the
old owner held, and an exchange or a move changes nothing.
-/

namespace Holdings

variable {α β : Type} {holds : α → List β} {owners : List α} {i j : Nat} {a b a' b' : α}

def held (holds : α → List β) (owners : List α) : List β := owners.flatMap holds

@[simp] theorem held_nil (holds : α → List β) : held holds [] = [] := rfl

@[simp] theorem held_cons (holds : α → List β) (a : α) (owners : List α) :
    held holds (a :: owners) = holds a ++ held holds owners := rfl

theorem held_append (holds : α → List β) (owners : List α) (a : α) :
    held holds (owners ++ [a]) = held holds owners ++ holds a := by
  simp [held]

theorem mem_held {x : β} : x ∈ held holds owners ↔ ∃ a ∈ owners, x ∈ holds a :=
  List.mem_flatMap

theorem held_eraseIdx (h : owners[i]? = some a) :
    (holds a ++ held holds (owners.eraseIdx i)).Perm (held holds owners) := by
  obtain ⟨hlt, rfl⟩ := List.getElem?_eq_some_iff.mp h
  exact (List.getElem_cons_eraseIdx_perm hlt).flatMap_right holds

theorem held_set (h : owners[i]? = some a) (b : α) :
    (holds a ++ held holds (owners.set i b)).Perm (holds b ++ held holds owners) := by
  have hlt := (List.getElem?_eq_some_iff.mp h).choose
  have hset : (held holds (owners.set i b)).Perm (holds b ++ held holds (owners.eraseIdx i)) :=
    (List.set_perm_cons_eraseIdx hlt b).flatMap_right holds
  refine (hset.append_left (holds a)).trans ?_
  rw [← List.append_assoc]
  refine (List.perm_append_comm.append_right _).trans ?_
  rw [List.append_assoc]
  exact (held_eraseIdx h).append_left (holds b)

theorem held_set_same (h : owners[i]? = some a) (hsame : holds b = holds a) :
    (held holds (owners.set i b)).Perm (held holds owners) := by
  have hset := @held_set _ _ holds _ _ _ h b
  rw [hsame] at hset
  exact (List.perm_append_left_iff (holds a)).mp hset

theorem map_set_same {mark : α → β} (h : owners[i]? = some a) (hsame : mark b = mark a) :
    (owners.set i b).map mark = owners.map mark := by
  obtain ⟨hlt, rfl⟩ := List.getElem?_eq_some_iff.mp h
  have hlt' : i < (owners.map mark).length := by rwa [List.length_map]
  have hmark : (owners.map mark)[i] = mark owners[i] := List.getElem_map mark
  rw [List.map_set, hsame, ← hmark, List.set_getElem_self hlt']

/-- Two owners that trade what they hold. -/
theorem held_exchange (ha : owners[i]? = some a) (hb : owners[j]? = some b)
    (hfirst : holds a' = holds b) (hsecond : holds b' = holds a) :
    (held holds ((owners.set i a').set j b')).Perm (held holds owners) := by
  -- the owner in the second place trades the same whether or not it is the first
  have hmid : ∃ c, (owners.set i a')[j]? = some c ∧ holds c = holds b := by
    by_cases hij : i = j
    · subst hij
      have hlt := (List.getElem?_eq_some_iff.mp ha).choose
      exact ⟨a', by simp [hlt], hfirst⟩
    · exact ⟨b, by rw [List.getElem?_set_ne hij, hb], rfl⟩
  obtain ⟨c, hc, hholds⟩ := hmid
  have hseti := @held_set _ _ holds _ _ _ ha a'
  have hsetj := @held_set _ _ holds _ _ _ hc b'
  rw [hfirst] at hseti
  rw [hholds, hsecond] at hsetj
  exact (List.perm_append_left_iff (holds b)).mp (hsetj.trans hseti)

/-- A new owner that takes over what another held. -/
theorem held_move (ha : owners[i]? = some a) (hnew : holds b = holds a) (hold : holds a' = []) :
    (held holds (owners.set i a' ++ [b])).Perm (held holds owners) := by
  have hset := @held_set _ _ holds _ _ _ ha a'
  rw [hold, List.nil_append] at hset
  rw [held_append, hnew]
  exact List.perm_append_comm.trans hset

end Holdings
