import Mathlib.Algebra.GroupWithZero.Nat
import Mathlib.Data.List.Nodup

/-!
# Row schemas

A schema lists the variables of a solution sequence, each once. A wide one also holds a table of
their ordinals, which answers the same as a scan of the columns.
-/

namespace Purrdf.HashJoin

variable {V : Type} [DecidableEq V]

/-- Above this many columns a schema builds its table. -/
def indexedAbove : Nat := 8

def tableFind (index : List (V × Nat)) (name : V) : Option Nat :=
  (index.find? fun entry => decide (entry.1 = name)).map Prod.snd

def tableInsert : List (V × Nat) → V → Nat → List (V × Nat)
  | [], name, ordinal => [(name, ordinal)]
  | entry :: rest, name, ordinal =>
    if entry.1 = name then (name, ordinal) :: rest else entry :: tableInsert rest name ordinal

theorem tableInsert_new (index : List (V × Nat)) (name : V) (ordinal : Nat)
    (hnew : name ∉ index.map Prod.fst) :
    tableInsert index name ordinal = index ++ [(name, ordinal)] := by
  induction index with
  | nil => rfl
  | cons entry rest ih =>
    simp only [List.map_cons, List.mem_cons, not_or] at hnew
    simp [tableInsert, Ne.symm hnew.1, ih hnew.2]

theorem tableFind_zipIdx (cols : List V) (name : V) (start : Nat) :
    tableFind (cols.zipIdx start) name = (cols.idxOf? name).map (· + start) := by
  induction cols generalizing start with
  | nil => simp [tableFind]
  | cons head rest ih =>
    by_cases hhead : head = name
    · simp [tableFind, hhead, List.idxOf?_cons]
    · have hrest := ih (start + 1)
      unfold tableFind at hrest
      simp [tableFind, hhead, List.idxOf?_cons, hrest, Function.comp_def, Nat.add_comm,
        Nat.add_left_comm]

/-! ### Schema payloads -/

structure SchemaData (V : Type) where
  cols : List V
  index : List (V × Nat)

namespace SchemaData

/-- Each variable once, and the table present exactly in a wide schema. -/
def WellFormed (data : SchemaData V) : Prop :=
  data.cols.Nodup ∧
    data.index = if data.cols.length ≤ indexedAbove then [] else data.cols.zipIdx

def indexOf (data : SchemaData V) (name : V) : Option Nat :=
  if data.index.isEmpty then data.cols.idxOf? name else tableFind data.index name

/-- The builder's step: a variable that is not there yet becomes the last column. -/
def push (builder : SchemaData V) (name : V) : SchemaData V :=
  let indexed := decide (indexedAbove < builder.cols.length)
  match if indexed then tableFind builder.index name else builder.cols.idxOf? name with
  | some _ => builder
  | none =>
    let ordinal := builder.cols.length
    let cols := builder.cols ++ [name]
    if ordinal = indexedAbove then
      { cols, index := cols.zipIdx.foldl (fun index entry => tableInsert index entry.1 entry.2)
          builder.index }
    else if indexed then { cols, index := tableInsert builder.index name ordinal }
    else { cols, index := builder.index }

theorem foldl_tableInsert (cols : List V) (earlier : List V) (hnodup : (earlier ++ cols).Nodup) :
    (cols.zipIdx earlier.length).foldl (fun index entry => tableInsert index entry.1 entry.2)
      earlier.zipIdx = (earlier ++ cols).zipIdx := by
  induction cols generalizing earlier with
  | nil => simp
  | cons name rest ih =>
    have hnew : name ∉ earlier.zipIdx.map Prod.fst := by
      rw [List.zipIdx_map_fst]
      simp only [List.nodup_append, List.mem_cons] at hnodup
      intro hname
      exact hnodup.2.2 name hname name (Or.inl rfl) rfl
    have hrest := ih (earlier ++ [name]) (by simpa using hnodup)
    simp only [List.zipIdx_cons, List.foldl_cons, tableInsert_new _ _ _ hnew]
    simpa [List.zipIdx_append] using hrest

theorem push_eq {builder : SchemaData V} (hwell : builder.WellFormed) (name : V) :
    (builder.push name).WellFormed ∧ (builder.push name).cols =
      if name ∈ builder.cols then builder.cols else builder.cols ++ [name] := by
  have hlook : (if decide (indexedAbove < builder.cols.length) then tableFind builder.index name
      else builder.cols.idxOf? name) = builder.cols.idxOf? name := by
    by_cases hwide : indexedAbove < builder.cols.length
    · simp [hwide, hwell.2, Nat.not_le.mpr hwide, tableFind_zipIdx]
    · simp [hwide]
  unfold push
  simp only [hlook]
  by_cases hmem : name ∈ builder.cols
  · obtain ⟨ordinal, hordinal⟩ := Option.ne_none_iff_exists'.mp
      (fun hnone => List.idxOf?_eq_none_iff.mp hnone hmem)
    simp [hordinal, hmem, hwell]
  · have hnodup : (builder.cols ++ [name]).Nodup := by
      rw [List.nodup_append]
      refine ⟨hwell.1, by simp, ?_⟩
      intro other hother last hlast heq
      simp only [List.mem_singleton] at hlast
      exact hmem (hlast ▸ heq ▸ hother)
    simp only [List.idxOf?_eq_none_iff.mpr hmem, hmem, if_false]
    by_cases hedge : builder.cols.length = indexedAbove
    · have hindex : builder.index = [] := by simp [hwell.2, hedge]
      have htable := foldl_tableInsert (builder.cols ++ [name]) [] (by simpa using hnodup)
      simp only [List.nil_append, List.length_nil, List.zipIdx_nil] at htable
      simp [hedge, hindex, WellFormed, hnodup, htable]
    · by_cases hwide : indexedAbove < builder.cols.length
      · have hnew : name ∉ builder.index.map Prod.fst := by
          simpa [hwell.2, Nat.not_le.mpr hwide, List.zipIdx_map_fst] using hmem
        have hwider : ¬builder.cols.length + 1 ≤ indexedAbove := by omega
        rw [if_neg hedge, if_pos (by simpa using hwide)]
        refine ⟨⟨hnodup, ?_⟩, rfl⟩
        rw [tableInsert_new _ _ _ hnew, hwell.2]
        simp [Nat.not_le.mpr hwide, hwider, List.zipIdx_append]
      · have hnarrow : builder.cols.length + 1 ≤ indexedAbove := by omega
        rw [if_neg hedge, if_neg (by simpa using hwide)]
        refine ⟨⟨hnodup, ?_⟩, rfl⟩
        simp [hwell.2, hnarrow, Nat.not_lt.mp hwide]

end SchemaData

/-! ### Schemas -/

structure VarSchema (V : Type) where
  data : SchemaData V
  well : data.WellFormed

namespace VarSchema

def vars (schema : VarSchema V) : List V := schema.data.cols

def len (schema : VarSchema V) : Nat := schema.vars.length

def isEmpty (schema : VarSchema V) : Bool := schema.vars.isEmpty

def indexOf (schema : VarSchema V) (name : V) : Option Nat := schema.data.indexOf name

def contains (schema : VarSchema V) (name : V) : Bool := (schema.indexOf name).isSome

theorem foldl_push {builder : SchemaData V} (hwell : builder.WellFormed) (names : List V) :
    (names.foldl SchemaData.push builder).WellFormed := by
  induction names generalizing builder with
  | nil => exact hwell
  | cons name rest ih => exact ih (SchemaData.push_eq hwell name).1

omit [DecidableEq V] in
theorem empty_wellFormed : (⟨[], []⟩ : SchemaData V).WellFormed := by
  simp [SchemaData.WellFormed]

def fromVars (names : List V) : VarSchema V where
  data := names.foldl SchemaData.push ⟨[], []⟩
  well := foldl_push empty_wellFormed names

def union (schema other : VarSchema V) : VarSchema V :=
  if schema.isEmpty then other
  else if other.vars.all schema.contains then schema
  else fromVars (schema.vars ++ other.vars)

variable {schema : VarSchema V}

end VarSchema

end Purrdf.HashJoin
