import Mathlib.Data.List.AList
import Mathlib.Data.Finset.Card
import Mathlib.Data.Finset.Filter

/-!
# Keyed tables and reference counts

Finite maps with one entry per key, and the maps that count how many members of a
set fall under each key. `Counts` is the invariant of such a reference-count table;
an increment follows an insertion into the set and a decrement a removal from it.
-/

namespace Purrdf

abbrev FastMap (κ ν : Type) := AList fun _ : κ => ν

namespace FastMap

variable {κ ν α : Type} [DecidableEq κ]

/-- Keep the entries that satisfy `keep`. -/
def retain (keep : κ → ν → Bool) (m : FastMap κ ν) : FastMap κ ν where
  entries := m.entries.filter fun entry => keep entry.1 entry.2
  nodupKeys := m.nodupKeys.sublist List.filter_sublist

theorem lookup_retain {keep : κ → ν → Bool} {m : FastMap κ ν} {k : κ} {v : ν} :
    (m.retain keep).lookup k = some v ↔ m.lookup k = some v ∧ keep k v = true := by
  have left := AList.mem_lookup_iff (a := k) (b := v) (s := m.retain keep)
  have right := AList.mem_lookup_iff (a := k) (b := v) (s := m)
  rw [Option.mem_def] at left right
  rw [left, right]
  simp [retain]

def adjust (m : FastMap κ ν) (k : κ) (f : ν → ν) : FastMap κ ν :=
  match m.lookup k with
  | none => m
  | some v => m.insert k (f v)

theorem lookup_adjust {k k' : κ} {f : ν → ν} {m : FastMap κ ν} :
    (m.adjust k f).lookup k' = if k' = k then (m.lookup k).map f else m.lookup k' := by
  rw [adjust]
  split
  · rename_i missing
    split
    · rename_i same
      rw [same, missing, Option.map_none]
    · rfl
  · rename_i v found
    split
    · rename_i same
      rw [same, AList.lookup_insert, found, Option.map_some]
    · rename_i differs
      exact AList.lookup_insert_ne differs

theorem mem_entries {m : FastMap κ ν} {k : κ} {v : ν} :
    (⟨k, v⟩ : Sigma fun _ : κ => ν) ∈ m.entries ↔ m.lookup k = some v := by
  rw [← Option.mem_def, AList.mem_lookup_iff]

/-- `*entry.or_default() += 1`. -/
def increment (m : FastMap κ Nat) (k : κ) : FastMap κ Nat :=
  m.insert k ((m.lookup k).getD 0 + 1)

/-- `*get_mut(k).expect(..) -= 1`, dropping an entry that reaches zero. `none` is a
missing entry or a subtraction below zero. -/
def decrement (m : FastMap κ Nat) (k : κ) : Option (FastMap κ Nat) :=
  match m.lookup k with
  | none => none
  | some 0 => none
  | some 1 => some (m.erase k)
  | some (count + 2) => some (m.insert k (count + 1))

/-- `m` counts the members of `s` under each key of `f`, with no entry for zero. -/
def Counts (m : FastMap κ Nat) (s : Finset α) (f : α → κ) : Prop :=
  ∀ k, m.lookup k =
    if (s.filter (f · = k)).card = 0 then none else some (s.filter (f · = k)).card

namespace Counts

variable {m : FastMap κ Nat} {s : Finset α} {f : α → κ}

theorem empty (f : α → κ) : Counts (∅ : FastMap κ Nat) (∅ : Finset α) f := by
  intro k
  simp

theorem getD (h : Counts m s f) (k : κ) :
    (m.lookup k).getD 0 = (s.filter (f · = k)).card := by
  rw [h k]
  split <;> simp_all

/-- A key has a positive entry exactly when a member falls under it. -/
theorem positive (h : Counts m s f) (k : κ) :
    (∃ count, m.lookup k = some count ∧ 0 < count) ↔ ∃ x ∈ s, f x = k := by
  rw [h k]
  constructor
  · rintro ⟨count, found, positive⟩
    split at found
    · cases found
    · rename_i nonzero
      obtain ⟨x, member⟩ := Finset.card_pos.mp (Nat.pos_of_ne_zero nonzero)
      exact ⟨x, (Finset.mem_filter.mp member).1, (Finset.mem_filter.mp member).2⟩
  · rintro ⟨x, member, same⟩
    have pos : 0 < (s.filter (f · = k)).card :=
      Finset.card_pos.mpr ⟨x, Finset.mem_filter.mpr ⟨member, same⟩⟩
    exact ⟨_, if_neg (Nat.pos_iff_ne_zero.mp pos), pos⟩

variable [DecidableEq α]

theorem increment (h : Counts m s f) {x : α} (fresh : x ∉ s) :
    Counts (FastMap.increment m (f x)) (insert x s) f := by
  intro k
  by_cases same : f x = k
  · subst same
    have fresh' : x ∉ s.filter (f · = f x) := fun member => fresh (Finset.mem_filter.mp member).1
    rw [FastMap.increment, AList.lookup_insert, h.getD, Finset.filter_insert, if_pos rfl,
      Finset.card_insert_of_notMem fresh']
    simp
  · rw [FastMap.increment, AList.lookup_insert_ne (Ne.symm same), h k, Finset.filter_insert,
      if_neg same]

theorem decrement (h : Counts m s f) {x : α} (member : x ∈ s) :
    ∃ m', FastMap.decrement m (f x) = some m' ∧ Counts m' (s.erase x) f := by
  have inFilter : x ∈ s.filter (f · = f x) := Finset.mem_filter.mpr ⟨member, rfl⟩
  have pos : 0 < (s.filter (f · = f x)).card := Finset.card_pos.mpr ⟨x, inFilter⟩
  have found := h (f x)
  rw [if_neg (Nat.pos_iff_ne_zero.mp pos)] at found
  have others : ∀ k, ¬f x = k → (s.erase x).filter (f · = k) = s.filter (f · = k) := by
    intro k differs
    ext y
    simp only [Finset.mem_filter, Finset.mem_erase]
    constructor
    · rintro ⟨⟨-, hy⟩, same⟩
      exact ⟨hy, same⟩
    · rintro ⟨hy, same⟩
      refine ⟨⟨?_, hy⟩, same⟩
      rintro rfl
      exact differs same
  have own : ((s.erase x).filter (f · = f x)).card = (s.filter (f · = f x)).card - 1 := by
    rw [Finset.filter_erase, Finset.card_erase_of_mem inFilter]
  rcases count : (s.filter (f · = f x)).card with - | - | rest
  · omega
  · rw [count] at found
    refine ⟨m.erase (f x), by simp [FastMap.decrement, found], fun k => ?_⟩
    by_cases same : f x = k
    · subst same
      rw [AList.lookup_erase, own, count]
      simp
    · rw [AList.lookup_erase_ne (Ne.symm same), h k, others k same]
  · rw [count] at found
    refine ⟨m.insert (f x) (rest + 1), by simp [FastMap.decrement, found], fun k => ?_⟩
    by_cases same : f x = k
    · subst same
      rw [AList.lookup_insert, own, count]
      simp
    · rw [AList.lookup_insert_ne (Ne.symm same), h k, others k same]

end Counts

end FastMap

end Purrdf
