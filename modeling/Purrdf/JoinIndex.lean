import Mathlib.Data.List.Perm.Basic
import Mathlib.Data.Option.Basic
import Purrdf.RowSchema

/-!
# The index of a hash join

The build side is split into rows with all shared columns bound, grouped by key, and the others.
One shared column packs its term into an atom; none or several keep the bound cells as the key.
-/

namespace Purrdf.HashJoin

/-! ### Terms and rows -/

/-- A term of the queried dataset, or one minted during evaluation. -/
inductive SolutionTerm (Id : Type) where
  | existing (id : Id)
  | computed (scratch : UInt32)
deriving DecidableEq, Repr

/-- The encoding of both kinds of term into one key space, with the contract of its trait. -/
structure ViewTermId (Id Atom : Type) where
  encode : Id → Atom
  encodeComputed : UInt32 → Atom
  encode_injective : Function.Injective encode
  encodeComputed_injective : Function.Injective encodeComputed
  disjoint : ∀ id scratch, encode id ≠ encodeComputed scratch

abbrev Cell (Id : Type) := Option (SolutionTerm Id)

/-- A dense row; `none` is an unbound column. -/
abbrev Row (Id : Type) := List (Cell Id)

variable {Id Atom V : Type}

def SolutionTerm.joinKey (ids : ViewTermId Id Atom) : SolutionTerm Id → Atom
  | .existing id => ids.encode id
  | .computed scratch => ids.encodeComputed scratch

inductive JoinKey (Id Atom : Type) where
  | single (atom : Atom)
  | multi (cells : Row Id)
deriving DecidableEq

/-- Which side's ordinal a shared column addresses. -/
inductive KeySide where
  | left
  | right
deriving DecidableEq

def KeySide.colOf : KeySide → Nat × Nat → Nat
  | .left, column => column.1
  | .right, column => column.2

def compatible [DecidableEq Id] (first second : Row Id) (shared : List (Nat × Nat)) :
    Option Bool :=
  shared.allM fun column => do
    let a ← first[column.1]?
    let b ← second[column.2]?
    return match a, b with
      | some x, some y => decide (x = y)
      | _, _ => true

/-! ### The index -/

section
variable [DecidableEq Id] [DecidableEq Atom]

structure JoinIndex (Id Atom : Type) where
  entries : List (JoinKey Id Atom × List Nat)

def JoinIndex.get (keyed : JoinIndex Id Atom) (key : JoinKey Id Atom) : Option (List Nat) :=
  (keyed.entries.find? fun entry => decide (entry.1 = key)).map Prod.snd

def JoinIndex.containsKey (keyed : JoinIndex Id Atom) (key : JoinKey Id Atom) : Bool :=
  (keyed.get key).isSome

def pushBucket : List (JoinKey Id Atom × List Nat) → JoinKey Id Atom → Nat →
    List (JoinKey Id Atom × List Nat)
  | [], key, idx => [(key, [idx])]
  | entry :: rest, key, idx =>
    if entry.1 = key then (entry.1, entry.2 ++ [idx]) :: rest
    else entry :: pushBucket rest key idx

end

/-! ### Cells of rows that are wide enough -/

def cellAt (row : Row Id) (ordinal : Nat) : Cell Id := row[ordinal]?.join

def Covers (shared : List (Nat × Nat)) (side : KeySide) (row : Row Id) : Prop :=
  ∀ column ∈ shared, side.colOf column < row.length

section
variable {α : Type}

end

def keyOf (ids : ViewTermId Id Atom) (shared : List (Nat × Nat)) (side : KeySide)
    (row : Row Id) : Option (JoinKey Id Atom) :=
  match shared with
  | [column] => (cellAt row (side.colOf column)).map fun term => .single (term.joinKey ids)
  | _ =>
    if shared.any fun column => (cellAt row (side.colOf column)).isNone then none
    else some (.multi (shared.map fun column => cellAt row (side.colOf column)))

section
variable [DecidableEq Id]

end

/-! ### What the index holds -/

def ordinals (rows : List (Row Id)) (test : Row Id → Bool) : List Nat :=
  (rows.zipIdx.filter fun entry => test entry.1).map Prod.snd

theorem ordinals_append (rows : List (Row Id)) (row : Row Id) (test : Row Id → Bool) :
    ordinals (rows ++ [row]) test =
      ordinals rows test ++ if test row = true then [rows.length] else [] := by
  cases htest : test row <;> simp [ordinals, List.zipIdx_append, htest]

section
variable [DecidableEq Id] [DecidableEq Atom]

def bucketOf (ids : ViewTermId Id Atom) (shared : List (Nat × Nat)) (rows : List (Row Id))
    (key : JoinKey Id Atom) : List Nat :=
  ordinals rows fun row => decide (keyOf ids shared .right row = some key)

def wildOf (ids : ViewTermId Id Atom) (shared : List (Nat × Nat)) (rows : List (Row Id)) :
    List Nat :=
  ordinals rows fun row => (keyOf ids shared .right row).isNone

theorem get_pushBucket (keyed : JoinIndex Id Atom) (key probe : JoinKey Id Atom) (idx : Nat) :
    JoinIndex.get ⟨pushBucket keyed.entries key idx⟩ probe =
      if key = probe then some ((keyed.get key).getD [] ++ [idx]) else keyed.get probe := by
  obtain ⟨entries⟩ := keyed
  unfold JoinIndex.get
  induction entries with
  | nil => by_cases hprobe : key = probe <;> simp [pushBucket, hprobe]
  | cons entry rest ih =>
    obtain ⟨name, bucket⟩ := entry
    by_cases hname : name = key
    · subst hname
      by_cases hprobe : name = probe <;> simp [pushBucket, hprobe]
    · by_cases hprobe : name = probe
      · subst hprobe
        simp [pushBucket, hname, Ne.symm hname]
      · simpa [pushBucket, hname, hprobe] using ih

structure Indexed (ids : ViewTermId Id Atom) (shared : List (Nat × Nat)) (rows : List (Row Id))
    (keyed : JoinIndex Id Atom) (wild : List Nat) : Prop where
  wild_eq : wild = wildOf ids shared rows
  get_eq : ∀ key, keyed.get key =
    if bucketOf ids shared rows key = [] then none else some (bucketOf ids shared rows key)

variable {shared : List (Nat × Nat)} {keyed : JoinIndex Id Atom} {rows : List (Row Id)}

theorem Indexed.getD {ids : ViewTermId Id Atom} {wild : List Nat}
    (hindexed : Indexed ids shared rows keyed wild) (key : JoinKey Id Atom) :
    (keyed.get key).getD [] = bucketOf ids shared rows key := by
  rw [hindexed.get_eq key]
  by_cases hempty : bucketOf ids shared rows key = [] <;> simp [hempty]

theorem Indexed.push {ids : ViewTermId Id Atom} {wild : List Nat}
    (hindexed : Indexed ids shared rows keyed wild) {row : Row Id} {key : JoinKey Id Atom}
    (hkey : keyOf ids shared .right row = some key) :
    Indexed ids shared (rows ++ [row]) ⟨pushBucket keyed.entries key rows.length⟩ wild := by
  refine ⟨?_, ?_⟩
  · simp [wildOf, ordinals_append, hkey, hindexed.wild_eq]
  · intro probe
    have hbucket : bucketOf ids shared (rows ++ [row]) probe =
        bucketOf ids shared rows probe ++ if key = probe then [rows.length] else [] := by
      by_cases hprobe : key = probe <;> simp [bucketOf, ordinals_append, hkey, hprobe]
    rw [get_pushBucket, hbucket, hindexed.getD]
    by_cases hprobe : key = probe
    · simp [hprobe]
    · simpa [hprobe] using hindexed.get_eq probe

end

end Purrdf.HashJoin
