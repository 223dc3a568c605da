import Mathlib.Data.List.Induction
import Mathlib.Data.Set.Function
import Mathlib.Data.Set.Insert
import Mathlib.Data.Set.Lattice
import Mathlib.Tactic.Ring

/-!
# Indexed Merkle trees

Perfect binary hash trees whose leaf inputs carry their index and whose node
inputs carry their height, over an arbitrary hash of such inputs. A membership
path is climbed bottom-up from a leaf digest with freely chosen sides and
siblings. The binding theorem says that a climb which arrives at the digest of
a perfect subtree of the same height started from one of its leaves, at the
index the leaf input carries, whenever the hash has no collision among the
inputs involved. Nothing is assumed about where the siblings come from.
-/

namespace Purrdf.Merkle

variable {α δ : Type}

/-- What is hashed into a digest: a leaf with its index, or an interior node
with its height. -/
inductive Input (α δ : Type) where
  | leaf (index : Nat) (value : α)
  | node (height : Nat) (left right : δ)

/-- Which child of the parent the sibling of a step is. -/
inductive Side where
  | left
  | right
deriving DecidableEq, Repr

/-- The node input one step of a climb builds at `height`. -/
def stepInput (height : Nat) (carried : δ) (step : Side × δ) : Input α δ :=
  match step.1 with
  | .left => .node height step.2 carried
  | .right => .node height carried step.2

section

variable (hash : Input α δ → δ) (leaves : Nat → α)

/-- The digest of the perfect subtree of a height whose first leaf is `start`. -/
def subtree : Nat → Nat → δ
  | 0, start => hash (.leaf start (leaves start))
  | height + 1, start =>
    hash (.node (height + 1) (subtree height start) (subtree height (start + 2 ^ height)))

/-- The inputs hashed while computing `subtree`. -/
def subtreeInputs : Nat → Nat → Set (Input α δ)
  | 0, start => {.leaf start (leaves start)}
  | height + 1, start =>
    insert (.node (height + 1) (subtree hash leaves height start)
        (subtree hash leaves height (start + 2 ^ height)))
      (subtreeInputs height start ∪ subtreeInputs height (start + 2 ^ height))

/-- Climb a path from a digest at `height`, nearest sibling first. -/
def climb : Nat → δ → List (Side × δ) → δ
  | _, carried, [] => carried
  | height, carried, step :: path =>
    climb (height + 1) (hash (stepInput (height + 1) carried step)) path

def climbInputs : Nat → δ → List (Side × δ) → Set (Input α δ)
  | _, _, [] => ∅
  | height, carried, step :: path =>
    insert (stepInput (height + 1) carried step)
      (climbInputs (height + 1) (hash (stepInput (height + 1) carried step)) path)

theorem climb_append_singleton (height : Nat) (carried : δ) (path : List (Side × δ))
    (step : Side × δ) :
    climb hash height carried (path ++ [step]) =
      hash (stepInput (height + path.length + 1) (climb hash height carried path) step) := by
  induction path generalizing height carried with
  | nil => rfl
  | cons first path ih =>
    have hheight : height + 1 + path.length + 1 = height + (first :: path).length + 1 := by
      simp only [List.length_cons]; omega
    simp only [List.cons_append, climb, ih, hheight]

theorem climbInputs_append_singleton (height : Nat) (carried : δ) (path : List (Side × δ))
    (step : Side × δ) :
    climbInputs hash height carried (path ++ [step]) =
      insert (stepInput (height + path.length + 1) (climb hash height carried path) step)
        (climbInputs hash height carried path) := by
  induction path generalizing height carried with
  | nil => rfl
  | cons first path ih =>
    have hheight : height + 1 + path.length + 1 = height + (first :: path).length + 1 := by
      simp only [List.length_cons]; omega
    simp only [List.cons_append, climbInputs, climb, ih, hheight]
    exact Set.insert_comm _ _ _

variable {hash leaves}

/-- **Binding.** A climb that reaches a subtree digest started at the leaf it
claims. The induction peels the path from the top: without a collision the last
node input is the subtree's own, so both the carried digest and the sibling are
the subtree's children, and the rest of the path climbs one of them. -/
theorem climb_binds {inputs : Set (Input α δ)} (hinj : Set.InjOn hash inputs)
    {index : Nat} {value : α} (hleaf : .leaf index value ∈ inputs)
    (path : List (Side × δ)) :
    ∀ start,
      climbInputs hash 0 (hash (.leaf index value)) path ⊆ inputs →
      subtreeInputs hash leaves path.length start ⊆ inputs →
      climb hash 0 (hash (.leaf index value)) path = subtree hash leaves path.length start →
      start ≤ index ∧ index < start + 2 ^ path.length ∧ value = leaves index := by
  induction path using List.reverseRecOn with
  | nil =>
    intro start _ htree heq
    have hmem : (.leaf start (leaves start) : Input α δ) ∈ inputs := htree rfl
    have hsame := hinj hleaf hmem heq
    injection hsame with hindex hvalue
    subst hindex
    exact ⟨le_rfl, by simp, hvalue⟩
  | append_singleton path step ih =>
    intro start hclimb htree heq
    rw [climbInputs_append_singleton] at hclimb
    simp only [List.length_append, List.length_singleton] at htree heq ⊢
    have hrest : climbInputs hash 0 (hash (.leaf index value)) path ⊆ inputs :=
      fun input hinput => hclimb (Set.mem_insert_of_mem _ hinput)
    have htop := hclimb (Set.mem_insert _ _)
    have hroot := htree (Set.mem_insert _ _)
    have hlow : subtreeInputs hash leaves path.length start ⊆ inputs :=
      fun input hinput => htree (Set.mem_insert_of_mem _ (Or.inl hinput))
    have hhigh : subtreeInputs hash leaves path.length (start + 2 ^ path.length) ⊆ inputs :=
      fun input hinput => htree (Set.mem_insert_of_mem _ (Or.inr hinput))
    rw [climb_append_singleton] at heq
    have hsame := hinj htop hroot heq
    have hpow : 2 ^ (path.length + 1) = 2 ^ path.length + 2 ^ path.length := by
      rw [Nat.pow_succ, Nat.mul_two]
    obtain ⟨side, sibling⟩ := step
    cases side with
    | left =>
      injection hsame with _ _ hcarried
      obtain ⟨hge, hlt, hvalue⟩ := ih _ hrest hhigh hcarried
      exact ⟨by omega, by omega, hvalue⟩
    | right =>
      injection hsame with _ hcarried _
      obtain ⟨hge, hlt, hvalue⟩ := ih _ hrest hlow hcarried
      exact ⟨hge, by omega, hvalue⟩

end

/-! ### Forests -/

section

variable (hash : Input α δ → δ) (leaves : Nat → α)

/-- `peaks` are the heights and digests of consecutive perfect subtrees covering
the leaves from `start` to just before `stop`. -/
def IsForest : Nat → List (Nat × δ) → Nat → Prop
  | start, [], stop => start = stop
  | start, (height, digest) :: peaks, stop =>
    digest = subtree hash leaves height start ∧ IsForest (start + 2 ^ height) peaks stop

def forestInputs : Nat → List (Nat × δ) → Set (Input α δ)
  | _, [] => ∅
  | start, (height, _) :: peaks =>
    subtreeInputs hash leaves height start ∪ forestInputs (start + 2 ^ height) peaks

variable {hash leaves}

theorem IsForest.append {start middle stop : Nat} {left right : List (Nat × δ)}
    (hleft : IsForest hash leaves start left middle)
    (hright : IsForest hash leaves middle right stop) :
    IsForest hash leaves start (left ++ right) stop := by
  induction left generalizing start with
  | nil => cases hleft; exact hright
  | cons peak left ih => exact ⟨hleft.1, ih hleft.2⟩

theorem IsForest.inputs_append {start middle : Nat} {left : List (Nat × δ)}
    (hleft : IsForest hash leaves start left middle) (right : List (Nat × δ)) :
    forestInputs hash leaves start (left ++ right) =
      forestInputs hash leaves start left ∪ forestInputs hash leaves middle right := by
  induction left generalizing start with
  | nil =>
    cases hleft
    simp only [List.nil_append, forestInputs, Set.empty_union]
  | cons peak left ih =>
    simp only [List.cons_append, forestInputs, ih hleft.2, Set.union_assoc]

theorem IsForest.split {start stop : Nat} {left right : List (Nat × δ)}
    (hforest : IsForest hash leaves start (left ++ right) stop) :
    ∃ middle, IsForest hash leaves start left middle ∧
      IsForest hash leaves middle right stop := by
  induction left generalizing start with
  | nil => exact ⟨start, rfl, hforest⟩
  | cons peak left ih =>
    obtain ⟨middle, hleft, hright⟩ := ih hforest.2
    exact ⟨middle, ⟨hforest.1, hleft⟩, hright⟩

theorem subtree_binds {leaves' : Nat → α} {inputs : Set (Input α δ)}
    (hinj : Set.InjOn hash inputs) {height start : Nat}
    (hinputs : subtreeInputs hash leaves height start ⊆ inputs)
    (hinputs' : subtreeInputs hash leaves' height start ⊆ inputs)
    (heq : subtree hash leaves height start = subtree hash leaves' height start) :
    ∀ index, start ≤ index → index < start + 2 ^ height → leaves index = leaves' index := by
  induction height generalizing start with
  | zero =>
    intro index hge hlt
    obtain rfl : index = start := by omega
    have hsame := hinj (hinputs rfl) (hinputs' rfl) heq
    injection hsame
  | succ height ih =>
    intro index hge hlt
    have hsame := hinj (hinputs (Set.mem_insert _ _)) (hinputs' (Set.mem_insert _ _)) heq
    injection hsame with _ hlow hhigh
    rcases Nat.lt_or_ge index (start + 2 ^ height) with hfirst | hsecond
    · exact ih (fun _ h => hinputs (Set.mem_insert_of_mem _ (Or.inl h)))
        (fun _ h => hinputs' (Set.mem_insert_of_mem _ (Or.inl h))) hlow index hge hfirst
    · rw [Nat.pow_succ, Nat.mul_two] at hlt
      exact ih (fun _ h => hinputs (Set.mem_insert_of_mem _ (Or.inr h)))
        (fun _ h => hinputs' (Set.mem_insert_of_mem _ (Or.inr h))) hhigh index hsecond (by omega)

theorem IsForest.binds {leaves' : Nat → α} {inputs : Set (Input α δ)}
    (hinj : Set.InjOn hash inputs) {start stop stop' : Nat} {peaks : List (Nat × δ)}
    (hforest : IsForest hash leaves start peaks stop)
    (hforest' : IsForest hash leaves' start peaks stop')
    (hinputs : forestInputs hash leaves start peaks ⊆ inputs)
    (hinputs' : forestInputs hash leaves' start peaks ⊆ inputs) :
    ∀ index, start ≤ index → index < stop → leaves index = leaves' index := by
  induction peaks generalizing start with
  | nil =>
    intro index hge hlt
    cases hforest
    omega
  | cons peak peaks ih =>
    intro index hge hlt
    rcases Nat.lt_or_ge index (start + 2 ^ peak.1) with hfirst | hsecond
    · exact subtree_binds hinj (fun _ h => hinputs (Or.inl h)) (fun _ h => hinputs' (Or.inl h))
        (hforest.1.symm.trans hforest'.1) index hge hfirst
    · exact ih hforest.2 hforest'.2 (fun _ h => hinputs (Or.inr h))
        (fun _ h => hinputs' (Or.inr h)) index hsecond hlt

end

end Purrdf.Merkle
