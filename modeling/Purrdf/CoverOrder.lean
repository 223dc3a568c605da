import Mathlib.Data.List.Induction
import Purrdf.CoverReconstruction

/-!
# The order of the spans

A sort by key leaves open how spans of one key follow one another, and these differ in the range
they declare to continue. The verdict depends on that order exactly when the walk comes to two such
spans that it answers differently.
-/

namespace Purrdf.Cover

/-! ### Sorted arrangements -/

section
variable {α β : Type} {le : α → α → Prop} {run : List α → β}

end

/-! ### What the walk reads of a span -/

def ByteSpan.undeclared (span : ByteSpan) : ByteSpan :=
  { span with continuing := none }

def Twins (first second : ByteSpan) : Prop :=
  first.undeclared = second.undeclared

variable {first second : ByteSpan} {ordered : List ByteSpan} {walk walk' : Walk}

theorem Twins.start (htwins : Twins first second) :
    second.byteStart = first.byteStart := by
  have hstart := congrArg ByteSpan.byteStart htwins
  exact hstart.symm

theorem Twins.stop (htwins : Twins first second) :
    second.byteEnd = first.byteEnd := by
  have hend := congrArg ByteSpan.byteEnd htwins
  exact hend.symm

def Walk.undeclared (walk : Walk) : Walk :=
  ⟨walk.frontier, walk.owner.map ByteSpan.undeclared⟩

def seen (result : Result Walk) : Result Walk :=
  result.map Walk.undeclared

def outcome (ordered : List ByteSpan) : Result Walk :=
  seen (walkSpans ordered ⟨0, none⟩ ordered)

section
variable {Digest : Type} [DecidableEq Digest] {digesting : Digesting Digest} {sorting : Sorting}
  {byteLength : Nat} {sourceDigest : Digest} {spans : List ByteSpan}

def finish (digesting : Digesting Digest) (byteLength : Nat) (sourceDigest : Digest)
    (ordered : List ByteSpan) (walk : Walk) : Result (List UInt8) :=
  if walk.frontier < byteLength then refuse (.uncoveredRange walk.frontier byteLength)
  else do
    let bytes ← appendSpans [] ordered
    if digesting.of bytes ≠ sourceDigest then
      refuse (.digestMismatch (digesting.display sourceDigest)
        (digesting.display (digesting.of bytes)))
    else return bytes

end

def verbatim : Digesting (List UInt8) :=
  ⟨id, fun _ => ""⟩

end Purrdf.Cover
