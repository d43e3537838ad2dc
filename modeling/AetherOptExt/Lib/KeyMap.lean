import Mathlib.Data.List.AList
import Mathlib.Data.List.Nodup

/-! # Finite maps and sets with an iteration order

A hash map is modelled by Mathlib's `AList` with a constant value type: a list of entries
without repeated keys.  The order of the list stands for the map's iteration order, which
`lookup` does not see.  This file adds what programs that use such maps need on top of
Mathlib: `lookup` after an update as one `if`, and the scan of all values.  A hash set is in
the same way the list of its members in iteration order (`KeySet`). -/

/-- A finite map from `α` to `β`. -/
abbrev KeyMap (α β : Type*) := AList (fun _ : α => β)

namespace KeyMap

variable {α β : Type*} [DecidableEq α]

theorem lookup_insert (m : KeyMap α β) (a x : α) (b : β) :
    (m.insert a b).lookup x = if x = a then some b else m.lookup x := by
  split_ifs with h
  · subst h; exact AList.lookup_insert m
  · exact AList.lookup_insert_ne h

theorem lookup_erase (m : KeyMap α β) (a x : α) :
    (m.erase a).lookup x = if x = a then none else m.lookup x := by
  split_ifs with h
  · subst h; exact AList.lookup_erase x m
  · exact AList.lookup_erase_ne h

theorem mem_iff_lookup {m : KeyMap α β} {a : α} : a ∈ m ↔ ∃ b, m.lookup a = some b := by
  rw [← AList.lookup_isSome, Option.isSome_iff_exists]

theorem mem_of_lookup {m : KeyMap α β} {a : α} {b : β} (h : m.lookup a = some b) : a ∈ m :=
  mem_iff_lookup.mpr ⟨b, h⟩

@[simp] theorem mem_insert {m : KeyMap α β} {a x : α} {b : β} : x ∈ AList.insert a b m ↔ x = a ∨ x ∈ m :=
  AList.mem_insert m

/-- Remove a list of keys, one after the other. -/
def eraseAll (m : KeyMap α β) (ks : List α) : KeyMap α β := ks.foldl (fun m k => m.erase k) m

theorem lookup_eraseAll (x : α) : ∀ (ks : List α) (m : KeyMap α β),
    (m.eraseAll ks).lookup x = if x ∈ ks then none else m.lookup x
  | [], m => by simp [eraseAll]
  | k :: ks, m => by
      have ih := lookup_eraseAll x ks (m.erase k)
      unfold eraseAll at ih ⊢
      rw [List.foldl_cons, ih, lookup_erase]
      by_cases hk : x ∈ ks
      · simp [hk]
      · simp [hk, List.mem_cons]

theorem mem_eraseAll {m : KeyMap α β} {ks : List α} {x : α} : x ∈ m.eraseAll ks ↔ x ∈ m ∧ x ∉ ks := by
  rw [mem_iff_lookup, mem_iff_lookup, lookup_eraseAll]
  split_ifs with h
  · simp [h]
  · simp [h]

/-- Removing all keys leaves the empty map. -/
theorem eraseAll_keys (m : KeyMap α β) : m.eraseAll m.keys = ∅ := by
  apply AList.ext
  apply List.eq_nil_iff_forall_not_mem.mpr
  rintro ⟨a, b⟩ he
  have hl := AList.mem_lookup_iff.mpr he
  rw [Option.mem_def, lookup_eraseAll] at hl
  split_ifs at hl with h
  exact h (AList.mem_keys.mp (mem_of_lookup hl))

omit [DecidableEq α] in
/-- The scan `values().any(p)`. -/
def anyValue (m : KeyMap α β) (p : β → Bool) : Bool := m.entries.any (fun e => p e.2)

theorem anyValue_iff {m : KeyMap α β} {p : β → Bool} :
    m.anyValue p = true ↔ ∃ a b, m.lookup a = some b ∧ p b = true := by
  unfold anyValue
  rw [List.any_eq_true]
  constructor
  · rintro ⟨⟨a, b⟩, he, hp⟩
    exact ⟨a, b, AList.mem_lookup_iff.mpr he, hp⟩
  · rintro ⟨a, b, hl, hp⟩
    exact ⟨⟨a, b⟩, AList.mem_lookup_iff.mp hl, hp⟩

end KeyMap

/-- A finite set of `α` with the order in which it is iterated. -/
structure KeySet (α : Type*) where
  order : List α
  nodup : order.Nodup

namespace KeySet

variable {α : Type*}

instance : Membership α (KeySet α) := ⟨fun s a => a ∈ s.order⟩

instance [DecidableEq α] (s : KeySet α) (a : α) : Decidable (a ∈ s) :=
  inferInstanceAs (Decidable (a ∈ s.order))

/-- The set without members. -/
def empty : KeySet α := ⟨[], List.nodup_nil⟩

/-- Add a member. -/
def insert [DecidableEq α] (s : KeySet α) (a : α) : KeySet α :=
  ⟨s.order.insert a, s.nodup.insert⟩

@[simp] theorem mem_empty (a : α) : ¬ a ∈ (empty : KeySet α) := List.not_mem_nil

@[simp] theorem mem_insert [DecidableEq α] {s : KeySet α} {a b : α} :
    a ∈ s.insert b ↔ a = b ∨ a ∈ s := List.mem_insert_iff

theorem mem_foldl_insert [DecidableEq α] {a : α} :
    ∀ {l : List α} {s : KeySet α}, a ∈ l.foldl insert s ↔ a ∈ l ∨ a ∈ s
  | [], s => by simp
  | b :: l, s => by
      rw [List.foldl_cons, mem_foldl_insert, mem_insert, List.mem_cons]
      tauto

/-! ### Iteration order -/

/-- Two sets with the same members, perhaps in another order. -/
def SameMembers (s t : KeySet α) : Prop := ∀ a, a ∈ s ↔ a ∈ t

/-- The same set with the member `a` in the first place. -/
def front [DecidableEq α] (s : KeySet α) (a : α) : KeySet α :=
  ⟨a :: s.order.erase a, List.nodup_cons.mpr ⟨s.nodup.not_mem_erase, s.nodup.erase a⟩⟩

theorem front_sameMembers [DecidableEq α] {s : KeySet α} {a : α} (h : a ∈ s) : (s.front a).SameMembers s :=
  fun _ => (List.perm_cons_erase h).symm.mem_iff

/-- A search finds the member in the first place, if it qualifies. -/
theorem find?_front [DecidableEq α] {s : KeySet α} {a : α} {p : α → Bool} (h : p a = true) :
    (s.front a).order.find? p = some a :=
  List.find?_cons_of_pos h

/-- A search for which at most one member qualifies does not depend on the order. -/
theorem find?_congr {s t : KeySet α} (h : s.SameMembers t) {p : α → Bool}
    (hu : ∀ a ∈ s, ∀ b ∈ s, p a = true → p b = true → a = b) : s.order.find? p = t.order.find? p := by
  cases hs : s.order.find? p with
  | none =>
      symm
      rw [List.find?_eq_none] at hs ⊢
      exact fun a ha => hs a ((h a).mpr ha)
  | some a =>
      have ha := List.mem_of_find?_eq_some hs
      have hpa := List.find?_some hs
      cases ht : t.order.find? p with
      | none => exact absurd hpa (List.find?_eq_none.mp ht a ((h a).mp ha))
      | some b =>
          rw [hu a ha b ((h b).mpr (List.mem_of_find?_eq_some ht)) hpa (List.find?_some ht)]

end KeySet
