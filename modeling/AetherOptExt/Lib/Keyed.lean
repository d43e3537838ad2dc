import Mathlib.Data.List.Basic

/-! # Lists of entries with keys

A log or a file of entries, some of which have a key.  `withKey k` are the entries of one key in
order.  `upsert` removes the entries that have the key of a new one and appends it.  A sequence
of upserts keeps what has none of their keys (`filter_upserts`, `prefix_upserts`), and leaves of each of their
keys the last entry (`withKey_upserts`); two upserts of different keys commute up to order. -/

namespace Keyed

variable {α κ : Type*} [DecidableEq κ] {key : α → Option κ} {a b : α} {l : List α} {k : κ}

/-- The entries of a key. -/
def withKey (key : α → Option κ) (k : κ) (l : List α) : List α := l.filter (fun e => key e = some k)

/-- Replace the entries that have the key of `a`. -/
def upsert (key : α → Option κ) (l : List α) (a : α) : List α := l.filter (fun e => key e ≠ key a) ++ [a]

/-- A sequence of upserts. -/
def upserts (key : α → Option κ) (l : List α) (as : List α) : List α := as.foldl (upsert key) l

theorem mem_withKey {e : α} : e ∈ withKey key k l ↔ e ∈ l ∧ key e = some k := by
  simp [withKey]

theorem withKey_append (l l' : List α) : withKey key k (l ++ l') = withKey key k l ++ withKey key k l' :=
  List.filter_append ..

theorem withKey_cons_same (h : key a = some k) : withKey key k (a :: l) = a :: withKey key k l :=
  List.filter_cons_of_pos (by simpa using h)

theorem withKey_cons_ne (h : key a ≠ some k) : withKey key k (a :: l) = withKey key k l :=
  List.filter_cons_of_neg (by simpa using h)

/-! ### One upsert -/

theorem mem_upsert {e : α} : e ∈ upsert key l a ↔ (e ∈ l ∧ key e ≠ key a) ∨ e = a := by
  simp [upsert]

/-- Entries that an upsert does not concern are kept in order. -/
theorem filter_upsert {p : α → Bool} (h : ∀ e, p e = true → key e ≠ key a) :
    (upsert key l a).filter p = l.filter p := by
  have ha : p a = false := by
    rw [Bool.eq_false_iff]
    exact fun hp => h a hp rfl
  unfold upsert
  rw [List.filter_append, List.filter_singleton, ha, List.filter_filter]
  simp only [cond_false, List.append_nil]
  refine List.filter_congr fun e _ => ?_
  cases hp : p e with
  | false => rfl
  | true => simp [h e hp]

/-- The new entry is the only one of its key. -/
theorem withKey_upsert_same (h : key a = some k) : withKey key k (upsert key l a) = [a] := by
  have hnone : withKey key k (l.filter (fun e => key e ≠ key a)) = [] := by
    rw [List.eq_nil_iff_forall_not_mem]
    intro e he
    obtain ⟨he, hk⟩ := mem_withKey.mp he
    have hne := (List.mem_filter.mp he).2
    rw [decide_eq_true_eq, hk, h] at hne
    exact hne rfl
  unfold upsert
  rw [withKey_append, hnone, withKey_cons_same h]
  rfl

theorem upsert_idem : upsert key (upsert key l a) a = upsert key l a := by
  have hself : (upsert key l a).filter (fun e => key e ≠ key a) = l.filter (fun e => key e ≠ key a) :=
    filter_upsert fun e he => by simpa using he
  show (upsert key l a).filter (fun e => key e ≠ key a) ++ [a] = _
  rw [hself]
  rfl

/-- Upserts of different keys commute up to the order of the entries. -/
theorem upsert_comm (h : key a ≠ key b) :
    (upsert key (upsert key l a) b).Perm (upsert key (upsert key l b) a) := by
  have hstep : ∀ {a b : α}, key a ≠ key b → upsert key (upsert key l a) b =
      l.filter (fun e => key e ≠ key b && key e ≠ key a) ++ [a, b] := by
    intro a b h
    unfold upsert
    rw [List.filter_append, List.filter_singleton, List.filter_filter, List.append_assoc]
    simp [h]
  rw [hstep h, hstep h.symm]
  have hsame : l.filter (fun e => key e ≠ key a && key e ≠ key b) = l.filter (fun e => key e ≠ key b && key e ≠ key a) :=
    List.filter_congr fun e _ => Bool.and_comm _ _
  rw [hsame]
  exact (List.Perm.swap b a []).append_left _

/-! ### A sequence of upserts -/

theorem upserts_append (as bs : List α) : upserts key l (as ++ bs) = upserts key (upserts key l as) bs :=
  List.foldl_append

theorem mem_of_mem_upserts {e : α} : ∀ {as l : List α}, e ∈ upserts key l as → e ∈ l ∨ e ∈ as
  | [], _, h => .inl h
  | a :: as, l, h => by
      have h' : e ∈ upserts key (upsert key l a) as := h
      cases mem_of_mem_upserts h' with
      | inl h =>
          cases mem_upsert.mp h with
          | inl h => exact .inl h.1
          | inr h => exact .inr (List.mem_cons.mpr (.inl h))
      | inr h => exact .inr (List.mem_cons_of_mem a h)

/-- Entries that have none of the keys are kept in order. -/
theorem filter_upserts {p : α → Bool} : ∀ {as l : List α}, (∀ a ∈ as, ∀ e, p e = true → key e ≠ key a) →
    (upserts key l as).filter p = l.filter p
  | [], _, _ => rfl
  | a :: as, l, h => by
      have ih : (upserts key (upsert key l a) as).filter p = (upsert key l a).filter p :=
        filter_upserts fun b hb => h b (List.mem_cons_of_mem a hb)
      exact ih.trans (filter_upsert (h a List.mem_cons_self))

/-- A beginning without the keys stays the beginning. -/
theorem prefix_upserts {l' : List α} : ∀ {as l : List α}, l' <+: l → (∀ a ∈ as, ∀ e ∈ l', key e ≠ key a) →
    l' <+: upserts key l as
  | [], _, hl, _ => hl
  | a :: as, l, hl, h => by
      obtain ⟨rest, rfl⟩ := hl
      have hkeep : l'.filter (fun e => key e ≠ key a) = l' := by
        rw [List.filter_eq_self]
        exact fun e he => decide_eq_true (h a List.mem_cons_self e he)
      have hstep : l' <+: upsert key (l' ++ rest) a := by
        unfold upsert
        rw [List.filter_append, hkeep, List.append_assoc]
        exact List.prefix_append _ _
      have ih : l' <+: upserts key (upsert key (l' ++ rest) a) as :=
        prefix_upserts hstep fun b hb => h b (List.mem_cons_of_mem a hb)
      exact ih

/-- Of each key the last upsert is left. -/
theorem withKey_upserts {as bs : List α} (ha : key a = some k) (hb : ∀ b ∈ bs, key b ≠ some k) :
    withKey key k (upserts key l (as ++ a :: bs)) = [a] := by
  have hkeep : ∀ b ∈ bs, ∀ e, decide (key e = some k) = true → key e ≠ key b := by
    intro b hbm e he
    rw [decide_eq_true_eq] at he
    rw [he]
    exact (hb b hbm).symm
  rw [upserts_append]
  show withKey key k (upserts key (upsert key (upserts key l as) a) bs) = [a]
  exact (filter_upserts hkeep).trans (withKey_upsert_same ha)

end Keyed
