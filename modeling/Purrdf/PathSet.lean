import Purrdf.FastMap
import Mathlib.Data.List.Sort
import Mathlib.Data.DFinsupp.WellFounded
import Mathlib.Order.WithBot

/-!
# Endpoint sets

The ordered sets of nodes a traversal carries, with the evidence of the nodes whose evidence is
not the default. Membership is the node array's; a set's profile joins both readings, and
inserting a node climbs it.
-/

namespace Purrdf.Path

/-- Evidence of one query's rows. `⊔` combines alternatives, `conjunction` the hops of a walk;
`virtual` is what an unannotated row has. -/
class RowEvidence (E : Type) extends SemilatticeSup E where
  virtual : E
  conjunction : E → E → E

variable {I E : Type} [LinearOrder I] [RowEvidence E] [DecidableEq E]

instance : RowEvidence Bool where
  toSemilatticeSup := Bool.instBooleanAlgebra.toBiheytingAlgebra.toCoheytingAlgebra.toSemilatticeSup
  virtual := false
  conjunction := or

structure PathSet (I E : Type) [LinearOrder I] where
  values : List I
  evidence : FastMap I E
  sorted : values.Pairwise (· < ·)

namespace PathSet

instance : EmptyCollection (PathSet I E) := ⟨⟨[], ∅, .nil⟩⟩

instance : Membership I (PathSet I E) := ⟨fun set node => node ∈ set.values⟩

/-- Equality in a linear order is lawful; named, so that membership tests share it. -/
instance lawfulBEq : LawfulBEq I := inferInstance

instance {set : PathSet I E} {node : I} : Decidable (node ∈ set) :=
  inferInstanceAs (Decidable (node ∈ set.values))

def evidenceOf (set : PathSet I E) (node : I) : E :=
  (set.evidence.lookup node).getD RowEvidence.virtual

def unannotated (set : PathSet I E) : Bool :=
  set.evidence.entries.isEmpty

def retainEvidence (set : PathSet I E) (node : I) (evidence : E) : PathSet I E :=
  if evidence = RowEvidence.virtual then
    if set.unannotated then set else { set with evidence := set.evidence.erase node }
  else { set with evidence := set.evidence.insert node evidence }

def place (set : PathSet I E) (node : I) (absent : node ∉ set) : PathSet I E where
  values := set.values.orderedInsert (· ≤ ·) node
  evidence := set.evidence
  sorted := by
    have ordered := (set.sorted.imp le_of_lt).orderedInsert node
    have distinct : (set.values.orderedInsert (· ≤ ·) node).Nodup := by
      rw [(List.perm_orderedInsert (· ≤ ·) node set.values).nodup_iff, List.nodup_cons]
      exact ⟨absent, set.sorted.imp ne_of_lt⟩
    exact (ordered.and distinct).imp fun both => lt_of_le_of_ne both.1 both.2

def insertRecord (set : PathSet I E) (node : I) (evidence : Option E) : PathSet I E × Bool :=
  if absent : node ∉ set then
    match evidence with
    | none => (set.place node absent, true)
    | some evidence => ((set.place node absent).retainEvidence node evidence, true)
  else if set.unannotated && evidence.all (· = RowEvidence.virtual) then (set, false)
  else
    let original := set.evidenceOf node
    let merged := original ⊔ evidence.getD RowEvidence.virtual
    (set.retainEvidence node merged, original ≠ merged)

def insert (set : PathSet I E) (node : I) : PathSet I E :=
  (set.insertRecord node none).1

def insertEvidence (set : PathSet I E) (node : I) (evidence : E) : PathSet I E × Bool :=
  set.insertRecord node (some evidence)

def extend (set : PathSet I E) (nodes : List I) : PathSet I E :=
  nodes.foldl insert set

def fromIter (nodes : List I) : PathSet I E :=
  extend ∅ nodes

def extendWitnesses (set other : PathSet I E) : PathSet I E :=
  if set.unannotated && other.unannotated then set.extend other.values
  else other.values.foldl (fun set node => (set.insertEvidence node (other.evidenceOf node)).1) set

/-- Insert the end of a hop from a node with evidence `premise`, found in `step`. -/
def insertComposed (set : PathSet I E) (target : I) (premise : E) (step : PathSet I E) :
    PathSet I E :=
  if premise = RowEvidence.virtual && step.unannotated && set.unannotated then set.insert target
  else (set.insertEvidence target (RowEvidence.conjunction premise (step.evidenceOf target))).1

/-! ### Membership -/

variable {set other : PathSet I E} {node y : I} {evidence : E}

omit [RowEvidence E] [DecidableEq E] in
@[simp] theorem notMem_empty : y ∉ (∅ : PathSet I E) :=
  List.not_mem_nil

omit [RowEvidence E] [DecidableEq E] in
theorem mem_values : y ∈ set.values ↔ y ∈ set :=
  Iff.rfl

theorem mem_retainEvidence : y ∈ set.retainEvidence node evidence ↔ y ∈ set := by
  unfold retainEvidence
  split
  · split <;> exact Iff.rfl
  · exact Iff.rfl

omit [RowEvidence E] [DecidableEq E] in
theorem mem_place (absent : node ∉ set) : y ∈ set.place node absent ↔ y = node ∨ y ∈ set :=
  List.mem_orderedInsert _

theorem mem_insertRecord {evidence : Option E} :
    y ∈ (set.insertRecord node evidence).1 ↔ y = node ∨ y ∈ set := by
  unfold insertRecord
  split
  · rename_i absent
    cases evidence with
    | none => exact mem_place absent
    | some evidence => exact mem_retainEvidence.trans (mem_place absent)
  · rename_i present
    have member : node ∈ set := not_not.mp present
    have absorbs : y ∈ set ↔ y = node ∨ y ∈ set := by
      constructor
      · exact .inr
      · rintro (rfl | inside)
        · exact member
        · exact inside
    split
    · exact absorbs
    · exact mem_retainEvidence.trans absorbs

@[simp] theorem mem_insert : y ∈ set.insert node ↔ y = node ∨ y ∈ set :=
  mem_insertRecord

@[simp] theorem mem_insertEvidence : y ∈ (set.insertEvidence node evidence).1 ↔ y = node ∨ y ∈ set :=
  mem_insertRecord

@[simp] theorem mem_insertComposed {premise : E} {step : PathSet I E} :
    y ∈ set.insertComposed node premise step ↔ y = node ∨ y ∈ set := by
  unfold insertComposed
  split
  · exact mem_insert
  · exact mem_insertEvidence

omit [RowEvidence E] [DecidableEq E] in
theorem mem_foldl {insert : PathSet I E → I → PathSet I E}
    (inserts : ∀ set node y, y ∈ insert set node ↔ y = node ∨ y ∈ set) (nodes : List I) :
    y ∈ nodes.foldl insert set ↔ y ∈ set ∨ y ∈ nodes := by
  induction nodes generalizing set with
  | nil => simp
  | cons first rest ih =>
    rw [List.foldl_cons, ih, inserts, List.mem_cons]
    tauto

@[simp] theorem mem_extend {nodes : List I} : y ∈ set.extend nodes ↔ y ∈ set ∨ y ∈ nodes :=
  mem_foldl (fun _ _ _ => mem_insert) nodes

@[simp] theorem mem_fromIter {nodes : List I} : y ∈ (fromIter nodes : PathSet I E) ↔ y ∈ nodes := by
  unfold fromIter
  simp

@[simp] theorem mem_extendWitnesses : y ∈ set.extendWitnesses other ↔ y ∈ set ∨ y ∈ other := by
  unfold extendWitnesses
  split
  · exact mem_extend
  · exact mem_foldl (fun _ _ _ => mem_insertEvidence) other.values

/-! ### Profiles -/

def profile (set : PathSet I E) (node : I) : WithBot E :=
  if node ∈ set then set.evidenceOf node else ⊥

omit [DecidableEq E] in
theorem evidenceOf_unannotated (plain : set.unannotated = true) :
    set.evidenceOf y = RowEvidence.virtual := by
  have empty : set.evidence = ∅ := AList.ext (List.isEmpty_iff.mp plain)
  rw [evidenceOf, empty, AList.lookup_empty, Option.getD_none]

theorem evidenceOf_retainEvidence :
    (set.retainEvidence node evidence).evidenceOf y =
      if y = node then evidence else set.evidenceOf y := by
  unfold retainEvidence
  split
  · rename_i default
    split
    · rename_i plain
      rw [evidenceOf_unannotated plain, default, ite_self]
    · unfold evidenceOf
      dsimp only
      split
      · rename_i same
        rw [same, AList.lookup_erase, default, Option.getD_none]
      · rename_i differs
        rw [AList.lookup_erase_ne differs]
  · unfold evidenceOf
    dsimp only
    split
    · rename_i same
      rw [same, AList.lookup_insert, Option.getD_some]
    · rename_i differs
      rw [AList.lookup_insert_ne differs]

omit [DecidableEq E] in
theorem profile_of_mem (member : y ∈ set) : set.profile y = set.evidenceOf y :=
  if_pos member

omit [DecidableEq E] in
theorem profile_of_notMem (absent : y ∉ set) : set.profile y = ⊥ :=
  if_neg absent

theorem profile_insertRecord_ne {evidence : Option E} (differs : y ≠ node) :
    (set.insertRecord node evidence).1.profile y = set.profile y := by
  have same : y ∈ (set.insertRecord node evidence).1 ↔ y ∈ set := by
    rw [mem_insertRecord]
    exact or_iff_right differs
  have kept : (set.insertRecord node evidence).1.evidenceOf y = set.evidenceOf y := by
    unfold insertRecord
    split
    · cases evidence with
      | none => rfl
      | some evidence =>
        dsimp only
        rw [evidenceOf_retainEvidence, if_neg differs]
        rfl
    · split
      · rfl
      · dsimp only
        rw [evidenceOf_retainEvidence, if_neg differs]
  unfold profile
  rw [kept]
  exact if_congr same rfl rfl

theorem evidenceOf_insertRecord_of_mem {evidence : Option E} (member : node ∈ set) :
    (set.insertRecord node evidence).1.evidenceOf node =
      set.evidenceOf node ⊔ evidence.getD RowEvidence.virtual := by
  unfold insertRecord
  rw [dif_neg (not_not.mpr member)]
  split
  · rename_i plain
    obtain ⟨plain, default⟩ := Bool.and_eq_true_iff.mp plain
    rw [evidenceOf_unannotated plain]
    cases evidence with
    | none => exact (sup_idem _).symm
    | some evidence =>
      have same : evidence = RowEvidence.virtual := of_decide_eq_true default
      rw [same, Option.getD_some, sup_idem]
  · dsimp only
    rw [evidenceOf_retainEvidence, if_pos rfl]

theorem evidenceOf_insert_of_notMem (absent : node ∉ set) :
    (set.insert node).evidenceOf y = set.evidenceOf y := by
  unfold insert insertRecord
  rw [dif_pos absent]
  rfl

theorem evidenceOf_insertEvidence_of_notMem (absent : node ∉ set) :
    (set.insertEvidence node evidence).1.evidenceOf node = evidence := by
  unfold insertEvidence insertRecord
  rw [dif_pos absent]
  dsimp only
  rw [evidenceOf_retainEvidence, if_pos rfl]

theorem profile_le_insertRecord {evidence : Option E} :
    set.profile ≤ (set.insertRecord node evidence).1.profile := by
  intro y
  by_cases same : y = node
  · rw [same]
    by_cases member : node ∈ set
    · rw [profile_of_mem member, profile_of_mem (mem_insertRecord.mpr (.inl rfl)),
        evidenceOf_insertRecord_of_mem member]
      exact WithBot.coe_le_coe.mpr le_sup_left
    · rw [profile_of_notMem member]
      exact bot_le
  · rw [profile_insertRecord_ne same]

theorem profile_lt_of_notMem {evidence : Option E} (absent : node ∉ set) :
    set.profile node < (set.insertRecord node evidence).1.profile node := by
  rw [profile_of_notMem absent, profile_of_mem (mem_insertRecord.mpr (.inl rfl))]
  exact WithBot.bot_lt_coe _

theorem profile_lt_of_changed (member : node ∈ set)
    (more : set.evidenceOf node ≠ set.evidenceOf node ⊔ evidence) :
    set.profile node < (set.insertEvidence node evidence).1.profile node := by
  unfold insertEvidence
  rw [profile_of_mem member, profile_of_mem (mem_insertRecord.mpr (.inl rfl)),
    evidenceOf_insertRecord_of_mem member, Option.getD_some]
  exact WithBot.coe_lt_coe.mpr (lt_of_le_of_ne le_sup_left more)

theorem mem_of_insertEvidence (same : (set.insertEvidence node evidence).2 = false) :
    node ∈ set := by
  by_contra absent
  unfold insertEvidence insertRecord at same
  rw [dif_pos absent] at same
  cases same

/-- `set'` is above `set` at some node of `u`, and nowhere below. -/
def Climbs (u : Finset I) (set set' : PathSet I E) : Prop :=
  (fun node : u => set.profile node) < fun node : u => set'.profile node

omit [DecidableEq E] in
theorem climbs_of {u : Finset I} {set set' : PathSet I E} (inside : node ∈ u)
    (above : set.profile ≤ set'.profile) (more : set.profile node < set'.profile node) :
    Climbs u set set' :=
  Pi.lt_def.mpr ⟨fun y => above y, ⟨node, inside⟩, more⟩

omit [DecidableEq E] in
theorem wellFounded_climbs [WellFoundedGT E] (u : Finset I) :
    WellFounded fun set' set : PathSet I E => Climbs u set set' := by
  have finite : WellFounded fun f g : u → (WithBot E)ᵒᵈ => f < g :=
    (Pi.wellFoundedLT (α := fun _ : u => (WithBot E)ᵒᵈ)).wf
  exact InvImage.wf (fun set : PathSet I E => fun node : u => OrderDual.toDual (set.profile node))
    finite

end PathSet

end Purrdf.Path
