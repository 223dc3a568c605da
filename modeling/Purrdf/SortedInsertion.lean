import Mathlib.Data.List.InsertIdx
import Mathlib.Data.List.Pairwise
import Purrdf.SortedSearch

/-!
# Inserting into a sorted sequence

A search whose comparison may fail, and that ends at the first element found equal. Where it
finds none, the value is inserted where it belongs, so the sequence stays strictly sorted.
-/

namespace Purrdf.SortedSearch

variable {ε α : Type}

/-- Halve a window until an element compares equal or none is left. -/
def bisect (cmp : Nat → Except ε Ordering) (lo hi : Nat) : Except ε (Except Nat Nat) :=
  if lo < hi then
    match cmp (lo + (hi - lo) / 2) with
    | .error refusal => .error refusal
    | .ok .lt => bisect cmp (lo + (hi - lo) / 2 + 1) hi
    | .ok .gt => bisect cmp lo (lo + (hi - lo) / 2)
    | .ok .eq => .ok (.ok (lo + (hi - lo) / 2))
  else .ok (.error lo)
termination_by hi - lo

def search (cmp : α → Except ε Ordering) (rows : List α) : Except ε (Except Nat Nat) :=
  -- no place outside the rows is probed
  bisect (fun i => rows[i]?.elim (.ok .gt) cmp) 0 rows.length

def insertSorted (cmp : α → α → Except ε Ordering) (rows : List α) (value : α) :
    Except ε (List α) :=
  match search (cmp · value) rows with
  | .error refusal => .error refusal
  | .ok (.ok _) => .ok rows
  | .ok (.error place) => .ok (rows.insertIdx place value)

def insertAll (cmp : α → α → Except ε Ordering) (rows : List α) (values : List α) :
    Except ε (List α) :=
  values.foldlM (insertSorted cmp) rows

theorem transCmp_on {κ : Type} (cmp : κ → κ → Ordering) [Std.TransCmp cmp] (key : α → κ) :
    Std.TransCmp fun left right => cmp (key left) (key right) where
  eq_swap {left right} := @Std.OrientedCmp.eq_swap κ cmp _ (key left) (key right)
  isLE_trans {first middle last} :=
    @Std.TransCmp.isLE_trans κ cmp _ (key first) (key middle) (key last)

theorem bisect_finds {cmp : Nat → Except ε Ordering} {order : Nat → Ordering} {total : Nat}
    (hsorted : Sorted order total) (hcmp : ∀ i < total, cmp i = .ok (order i)) :
    ∀ lo hi, lo ≤ hi → hi ≤ total → (∀ i < lo, order i = .lt) →
      (∀ i, hi ≤ i → i < total → order i = .gt) →
      ∃ result, bisect cmp lo hi = .ok result ∧ Finds order total result := by
  intro lo hi
  induction lo, hi using bisect.induct cmp with
  | case1 lo hi hlt refusal herror =>
    intro _ htotal _ _
    rw [hcmp _ (by omega)] at herror
    cases herror
  | case2 lo hi hlt hless ih =>
    intro _ htotal hbelow habove
    rw [hcmp _ (by omega), Except.ok.injEq] at hless
    unfold bisect
    rw [if_pos hlt, hcmp _ (by omega), hless]
    refine ih (by omega) htotal (fun i hi => ?_) habove
    exact hsorted.below i _ (by omega) (by omega) hless
  | case3 lo hi hlt hgreater ih =>
    intro _ htotal hbelow habove
    rw [hcmp _ (by omega), Except.ok.injEq] at hgreater
    unfold bisect
    rw [if_pos hlt, hcmp _ (by omega), hgreater]
    refine ih (by omega) (by omega) hbelow (fun i hle hi => ?_)
    exact hsorted.above _ i hle hi hgreater
  | case4 lo hi hlt hequal =>
    intro _ htotal _ _
    rw [hcmp _ (by omega), Except.ok.injEq] at hequal
    unfold bisect
    rw [if_pos hlt, hcmp _ (by omega), hequal]
    exact ⟨_, rfl, by omega, hequal⟩
  | case5 lo hi hge =>
    intro hle htotal hbelow habove
    unfold bisect
    rw [if_neg hge]
    exact ⟨_, rfl, by omega, hbelow, fun i hi hlt => habove i (by omega) hlt⟩

section Rows

variable {cmp : α → α → Except ε Ordering} {order : α → α → Ordering} [Std.TransCmp order]
  {rows : List α} {value : α}

def Rising (order : α → α → Ordering) (rows : List α) : Prop :=
  rows.Pairwise fun earlier later => order earlier later = .lt

theorem search_spec (hcmp : ∀ row ∈ rows, cmp row value = .ok (order row value))
    (hrising : Rising order rows) :
    (∃ place row, search (cmp · value) rows = .ok (.ok place) ∧ rows[place]? = some row ∧
        order row value = .eq) ∨
      ∃ before after, search (cmp · value) rows = .ok (.error before.length) ∧
        rows = before ++ after ∧ (∀ row ∈ before, order row value = .lt) ∧
        ∀ row ∈ after, order row value = .gt := by
  have hget : ∀ {i : Nat} {row : α}, rows[i]? = some row →
      rows[i]?.elim .gt (order · value) = order row value := by
    intro i row hrow
    rw [hrow]
    rfl
  have hless : ∀ (i j : Nat), i < j → ∀ first second, rows[i]? = some first →
      rows[j]? = some second → order first second = .lt := by
    intro i j hij first second hfirst hsecond
    obtain ⟨hi, rfl⟩ := List.getElem?_eq_some_iff.mp hfirst
    obtain ⟨hj, rfl⟩ := List.getElem?_eq_some_iff.mp hsecond
    exact List.pairwise_iff_getElem.mp hrising i j hi hj hij
  have hsorted : Sorted (fun i => rows[i]?.elim .gt (order · value)) rows.length := by
    constructor
    · intro i j hle hj hgreater
      rcases Nat.eq_or_lt_of_le hle with rfl | hlt
      · exact hgreater
      · have hsecond := List.getElem?_eq_getElem hj
        have hfirst := List.getElem?_eq_getElem (Nat.lt_trans hlt hj)
        rw [hget hfirst] at hgreater
        rw [hget hsecond]
        have hback := Std.OrientedCmp.lt_of_gt hgreater
        exact Std.OrientedCmp.gt_of_lt (Std.TransCmp.lt_trans hback (hless i j hlt _ _ hfirst hsecond))
    · intro i j hle hj hbelow
      rcases Nat.eq_or_lt_of_le hle with rfl | hlt
      · exact hbelow
      · have hsecond := List.getElem?_eq_getElem hj
        have hfirst := List.getElem?_eq_getElem (Nat.lt_trans hlt hj)
        rw [hget hsecond] at hbelow
        rw [hget hfirst]
        exact Std.TransCmp.lt_trans (hless i j hlt _ _ hfirst hsecond) hbelow
  have hprobe : ∀ i < rows.length,
      rows[i]?.elim (.ok .gt) (cmp · value) = .ok (rows[i]?.elim .gt (order · value)) := by
    intro i hi
    rw [List.getElem?_eq_getElem hi]
    exact hcmp _ (List.getElem_mem hi)
  obtain ⟨result, hsearch, hfinds⟩ := bisect_finds hsorted hprobe 0 rows.length (Nat.zero_le _)
    (Nat.le_refl _) (fun i hi => absurd hi (Nat.not_lt_zero i))
    (fun i hle hlt => absurd hlt (Nat.not_lt.mpr hle))
  cases result with
  | ok place =>
    obtain ⟨hlt, hequal⟩ := hfinds
    have hrow := List.getElem?_eq_getElem hlt
    exact .inl ⟨place, _, hsearch, hrow, (hget hrow).symm.trans hequal⟩
  | error place =>
    obtain ⟨hle, hbefore, hafter⟩ := hfinds
    refine .inr ⟨rows.take place, rows.drop place, ?_, (List.take_append_drop ..).symm, ?_, ?_⟩
    · rw [List.length_take, Nat.min_eq_left hle]
      exact hsearch
    · intro row hmem
      obtain ⟨i, hi, rfl⟩ := List.mem_take_iff_getElem.mp hmem
      have hlt : i < rows.length := by omega
      exact (hget (List.getElem?_eq_getElem hlt)).symm.trans (hbefore i (by omega))
    · intro row hmem
      obtain ⟨i, hi, rfl⟩ := List.mem_drop_iff_getElem.mp hmem
      have hplace : place + i < rows.length := by omega
      exact (hget (List.getElem?_eq_getElem hplace)).symm.trans
        (hafter _ (Nat.le_add_right ..) hplace)

/-! ### Inserting -/

structure Inserted (order : α → α → Ordering) (rows : List α) (value : α) (after : List α) :
    Prop where
  rising : Rising order after
  kept : ∀ row ∈ rows, row ∈ after
  added : ∃ row ∈ after, order row value = .eq
  only : ∀ row ∈ after, row ∈ rows ∨ row = value

theorem insertIdx_append (before after : List α) (value : α) :
    (before ++ after).insertIdx before.length value = before ++ value :: after := by
  induction before with
  | nil => exact List.insertIdx_zero
  | cons row before ih =>
    rw [List.cons_append, List.length_cons, List.insertIdx_succ_cons, ih, List.cons_append]

theorem insertSorted_spec (hcmp : ∀ row ∈ rows, cmp row value = .ok (order row value))
    (hrising : Rising order rows) :
    ∃ after, insertSorted cmp rows value = .ok after ∧ Inserted order rows value after := by
  unfold insertSorted
  rcases search_spec hcmp hrising with ⟨place, row, hsearch, hrow, hequal⟩ |
    ⟨before, after, hsearch, rfl, hbefore, hafter⟩
  · rw [hsearch]
    exact ⟨rows, rfl, hrising, fun _ => id, ⟨row, List.mem_of_getElem? hrow, hequal⟩,
      fun _ => .inl⟩
  · rw [hsearch]
    refine ⟨_, rfl, ?_⟩
    rw [insertIdx_append]
    obtain ⟨hrising₁, hrising₂, hacross⟩ := List.pairwise_append.mp hrising
    constructor
    · refine List.pairwise_append.mpr ⟨hrising₁, List.pairwise_cons.mpr ⟨?_, hrising₂⟩, ?_⟩
      · exact fun row hmem => Std.OrientedCmp.lt_of_gt (hafter row hmem)
      · intro row hmem later hlater
        rcases List.mem_cons.mp hlater with rfl | hold
        · exact hbefore row hmem
        · exact hacross row hmem later hold
    · intro row hmem
      rcases List.mem_append.mp hmem with hfirst | hsecond
      · exact List.mem_append_left _ hfirst
      · exact List.mem_append_right _ (List.mem_cons_of_mem _ hsecond)
    · exact ⟨value, List.mem_append_right _ List.mem_cons_self, Std.ReflCmp.compare_self⟩
    · intro row hmem
      rcases List.mem_append.mp hmem with hfirst | hsecond
      · exact .inl (List.mem_append_left _ hfirst)
      · rcases List.mem_cons.mp hsecond with rfl | hold
        · exact .inr rfl
        · exact .inl (List.mem_append_right _ hold)

theorem insertSorted_lawful [Std.LawfulEqCmp order] (value : α) (hrising : Rising order rows) :
    ∃ after, insertSorted (fun row value => (.ok (order row value) : Except ε Ordering)) rows value =
        .ok after ∧
      Rising order after ∧ ∀ row, row ∈ after ↔ row ∈ rows ∨ row = value := by
  have hspec : ∃ after, insertSorted
      (fun row value => (.ok (order row value) : Except ε Ordering)) rows value = .ok after ∧
        Inserted order rows value after := insertSorted_spec (fun _ _ => rfl) hrising
  obtain ⟨after, hinsert, hinserted⟩ := hspec
  refine ⟨after, hinsert, hinserted.rising, fun row => ⟨hinserted.only row, ?_⟩⟩
  rintro (hold | rfl)
  · exact hinserted.kept row hold
  · obtain ⟨found, hmem, hequal⟩ := hinserted.added
    rwa [Std.LawfulEqCmp.eq_of_compare hequal] at hmem

theorem Rising.length_eq {other : List α} (hrows : Rising order rows) (hother : Rising order other)
    (hsame : ∀ row, row ∈ rows ↔ row ∈ other) : rows.length = other.length := by
  have hnodup : ∀ {list : List α}, Rising order list → list.Nodup := by
    intro list hrising
    refine hrising.imp fun hless heq => ?_
    subst heq
    rw [@Std.ReflCmp.compare_self α order] at hless
    cases hless
  exact ((List.perm_ext_iff_of_nodup (hnodup hrows) (hnodup hother)).mpr hsame).length_eq

structure Gathered (order : α → α → Ordering) (rows values after : List α) : Prop where
  rising : Rising order after
  kept : ∀ row ∈ rows, row ∈ after
  added : ∀ value ∈ values, ∃ row ∈ after, order row value = .eq
  only : ∀ row ∈ after, row ∈ rows ∨ row ∈ values

theorem insertAll_spec {rows values : List α} {genuine : α → Prop}
    (hcmp : ∀ row value, genuine row → genuine value → cmp row value = .ok (order row value))
    (hrows : ∀ row ∈ rows, genuine row) (hvalues : ∀ value ∈ values, genuine value)
    (hrising : Rising order rows) :
    ∃ after, insertAll cmp rows values = .ok after ∧ Gathered order rows values after := by
  unfold insertAll
  induction values generalizing rows with
  | nil => exact ⟨rows, rfl, hrising, fun _ => id, nofun, fun _ => .inl⟩
  | cons value values ih =>
    obtain ⟨hvalue, hrest⟩ := List.forall_mem_cons.mp hvalues
    obtain ⟨middle, hinsert, hinserted⟩ := insertSorted_spec
      (fun row hmem => hcmp row value (hrows row hmem) hvalue) hrising
    have hmiddle : ∀ row ∈ middle, genuine row := by
      intro row hmem
      rcases hinserted.only row hmem with hold | rfl
      · exact hrows row hold
      · exact hvalue
    obtain ⟨after, hall, hgathered⟩ := ih hmiddle hrest hinserted.rising
    rw [List.foldlM_cons, hinsert]
    refine ⟨after, hall, hgathered.rising, ?_, List.forall_mem_cons.mpr ⟨?_, hgathered.added⟩, ?_⟩
    · exact fun row hmem => hgathered.kept row (hinserted.kept row hmem)
    · obtain ⟨row, hmem, hequal⟩ := hinserted.added
      exact ⟨row, hgathered.kept row hmem, hequal⟩
    · intro row hmem
      rcases hgathered.only row hmem with hearlier | hlater
      · rcases hinserted.only row hearlier with hold | rfl
        · exact .inl hold
        · exact .inr List.mem_cons_self
      · exact .inr (List.mem_cons_of_mem _ hlater)

end Rows

end Purrdf.SortedSearch
