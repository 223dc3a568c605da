import Mathlib.Data.Set.Card
import Purrdf.UnifyApply
import Purrdf.SubsortOrder

/-!
# What unification may run out of

Following bindings and children through an arena whose substitution is acyclic
never returns to a node, so the nodes of the arena bound how far the searches of
the core go. The arena itself has room for fewer than `2 ^ 64` nodes.
-/

namespace Purrdf

open MetaTerm

variable {ρ : Type} [DecidableEq ρ]

/-! ### Searches through the arena -/

/-- One step of a search: from a node to a child, or from a bound metavariable
to its value. -/
def Follows (s : Subst) (dag : TermDag ρ) (next node : NodeId) : Prop :=
  (∃ data, dag.nodes[node]? = some data ∧ next ∈ data.children) ∨
    ∃ metaId, dag.nodes[node]? = some (.metaVar metaId) ∧ s.get metaId = some next

section

variable {dag : TermDag ρ} {s : Subst}

omit [DecidableEq ρ] in
theorem Follows.lt (hvalid : s.Valid dag) {next node : NodeId} (h : Follows s dag next node) :
    next < dag.len := by
  rcases h with ⟨data, hdata, hchild⟩ | ⟨metaId, _, hget⟩
  · exact TermDag.child_lt hdata hchild
  · exact hvalid metaId next hget

end

end Purrdf

/-!
## Order-sorted unification over a validated order

A sort constraint passes from a metavariable to the one it is bound to through
the greatest lower bound of their sorts. Where an assignment solves the problem
and the declared sorts of metavariables with one value share a subsort, every
bound taken along the way stays above that subsort, so no step clashes; and what
a run binds respects the sort of the metavariable it is bound to.
-/

namespace Purrdf

open MetaTerm

variable {ρ : Type}

def SortContext.shapeSort (ctx : SortContext) (node : NodeId) : NodeData ρ → Option NodeId
  | .rdf _ | .leaf _ | .free _ => ctx.termSorts.lookup node
  | .app op _ => ctx.opResultSort.lookup op
  | .metaVar _ | .bound _ _ | .binder _ _ _ => none

theorem SortContext.sortOf_settled {ctx : SortContext} {fuel : Nat} {dag : TermDag ρ} {s : Subst}
    {node : NodeId} {data : NodeData ρ} (hdata : dag.nodes[node]? = some data)
    (hmeta : ∀ metaId, data ≠ .metaVar metaId) {sort : Option NodeId}
    (h : ctx.sortOf fuel dag s node = .ok sort) : sort = ctx.shapeSort node data := by
  unfold SortContext.sortOf at h
  obtain ⟨resolved, hresolved, h⟩ := Except.bind_ok h
  have hsame : resolved = node := by
    cases fuel with
    | zero => cases hresolved
    | succ fuel =>
      unfold Subst.resolve at hresolved
      obtain ⟨other, hother, hresolved⟩ := Except.bind_ok hresolved
      have hdata' := data_ok hother
      rw [hdata] at hdata'
      cases hdata'
      cases data with
      | metaVar metaId => exact absurd rfl (hmeta metaId)
      | _ => cases hresolved; rfl
  rw [hsame] at h
  obtain ⟨other, hother, h⟩ := Except.bind_ok h
  have hdata' := data_ok hother
  rw [hdata] at hdata'
  cases hdata'
  cases data with
  | metaVar metaId => exact absurd rfl (hmeta metaId)
  | _ => cases h; rfl

/-- A successful verdict on binding `metaId` to `lowered`, by what `lowered` is. -/
theorem sortVerdict_ok {ctx : SortContext} {fuel : Nat} {dag : TermDag ρ} {s : Subst}
    {metaId : MetaId} {lowered : NodeId} {data : NodeData ρ}
    (hdata : dag.nodes[lowered]? = some data) {verdict : Option (Option (MetaId × NodeId))}
    (h : sortVerdict ctx fuel dag s metaId lowered = .ok verdict) :
    (∃ other, data = .metaVar other ∧
      match s.sortOfMeta metaId, s.sortOfMeta other with
      | some mine, some theirs => verdict = (ctx.order.meet mine theirs).map fun glb =>
        some (other, glb)
      | some mine, none => verdict = some (some (other, mine))
      | none, some theirs => verdict = some (some (other, theirs))
      | none, none => verdict = some none) ∨
    ((∀ other, data ≠ .metaVar other) ∧
      match s.sortOfMeta metaId, ctx.shapeSort lowered data with
      | some mine, some theirs =>
        verdict = if ctx.order.leq theirs mine then some none else none
      | _, _ => verdict = some none) := by
  unfold sortVerdict at h
  obtain ⟨other, hother, h⟩ := Except.bind_ok h
  have hdata' := data_ok hother
  rw [hdata] at hdata'
  cases hdata'
  cases data with
  | metaVar other =>
    refine Or.inl ⟨other, rfl, ?_⟩
    dsimp only at h
    cases hmine : s.sortOfMeta metaId <;> cases htheirs : s.sortOfMeta other <;>
      simp only [hmine, htheirs] at h ⊢
    · cases h; rfl
    · cases h; rfl
    · cases h; rfl
    · cases hmeet : ctx.order.meet _ _ <;> simp only [hmeet] at h <;> cases h <;> rfl
  | _ =>
    refine Or.inr ⟨fun _ heq => (by cases heq), ?_⟩
    obtain ⟨theirs, htheirs, h⟩ := Except.bind_ok h
    have hsort := SortContext.sortOf_settled hdata (fun _ heq => (by cases heq)) htheirs
    rw [← hsort]
    cases hmine : s.sortOfMeta metaId <;> cases theirs <;> simp only [hmine] at h ⊢
    · cases h; rfl
    · cases h; rfl
    · cases h; rfl
    · split at h <;> cases h <;> simp [*]

/-! ### Runs that a solution guides -/

variable [DecidableEq ρ]

structure Solving (fits : DagTerm ρ → NodeId → Prop) (σ : Assignment ρ) (cap : Nat)
    (state : UnifyState ρ) : Prop where
  ready : Ready state
  room : state.1.len ≤ cap
  satisfies : Satisfies σ (state.2.toBindings state.1)
  rigidOps : state.2.RigidOps state.1
  fit : ∀ metaId sort, state.2.sortOfMeta metaId = some sort → fits (σ metaId) sort

/-- What is assumed of the sorts: two sorts that one value fits have a greatest
lower bound, which it fits, and a value with a sort of its own fits only sorts
above it. -/
structure Guides (ctx : SortContext) (dag₀ : TermDag ρ) (σ : Assignment ρ)
    (fits : DagTerm ρ → NodeId → Prop) : Prop where
  meet : ∀ value mine theirs, fits value mine → fits value theirs →
    ∃ glb, ctx.order.meet mine theirs = some glb ∧ fits value glb
  known : ∀ (dag : TermDag ρ) (node : NodeId) (data : NodeData ρ) (own sort : NodeId),
    dag₀.Extends dag → dag.nodes[node]? = some data → ctx.shapeSort node data = some own →
    (dag.denote node).RigidOps → fits ((dag.denote node).inst σ 0) sort →
    ctx.order.leq own sort = true

section

variable {ctx : SortContext} {dag₀ : TermDag ρ} {σ : Assignment ρ}
  {fits : DagTerm ρ → NodeId → Prop} {cap : Nat}

variable {unify : UInt32 → NodeId → NodeId → Exec Fault (UnifyState ρ) Unified} {dag : TermDag ρ}
  {s : Subst} {depth : UInt32}

omit [DecidableEq ρ] in
theorem Solving.mono {dag dag' : TermDag ρ} (hext : dag.Extends dag') (hroom : dag'.len ≤ cap)
    (h : Solving fits σ cap (dag, s)) :
    Solving fits σ cap (dag', s) where
  ready := h.ready.mono hext
  room := hroom
  satisfies := by
    rw [Subst.toBindings_extends hext h.ready.valid]
    exact h.satisfies
  rigidOps := Subst.RigidOps.mono hext h.ready.valid h.rigidOps
  fit := h.fit

/-- What a guided run reaches: success, in a state the assignment still solves. -/
def Reaches (fits : DagTerm ρ → NodeId → Prop) (σ : Assignment ρ) (cap : Nat)
    (dag : TermDag ρ) (result : Unified) (state' : UnifyState ρ) : Prop :=
  result = .ok ∧ Solving fits σ cap state' ∧ dag.Extends state'.1

omit [DecidableEq ρ] in
/-- A verdict on a value both sides share is a success that keeps the fit. -/
theorem Guides.verdict (hguides : Guides ctx dag₀ σ fits) (hext : dag₀.Extends dag)
    (hfit : ∀ metaId sort, s.sortOfMeta metaId = some sort → fits (σ metaId) sort) {fuel : Nat}
    {metaId : MetaId} {lowered : NodeId} {data : NodeData ρ}
    (hdata : dag.nodes[lowered]? = some data) (hrigid : (dag.denote lowered).RigidOps)
    (hvalue : σ metaId = (dag.denote lowered).inst σ 0)
    {verdict : Option (Option (MetaId × NodeId))}
    (h : sortVerdict ctx fuel dag s metaId lowered = .ok verdict) :
    ∃ carried, verdict = some carried ∧
      ∀ pair ∈ carried, fits (σ pair.1) pair.2 := by
  rcases sortVerdict_ok hdata h with ⟨other, rfl, hverdict⟩ | ⟨_, hverdict⟩
  · have hother : σ metaId = σ other := by
      rw [hvalue, TermDag.denote_eq hdata, NodeData.term, Term.inst_mvar_zero]
    cases hmine : s.sortOfMeta metaId <;> cases htheirs : s.sortOfMeta other <;>
      simp only [hmine, htheirs] at hverdict
    · exact ⟨none, hverdict, by simp⟩
    · exact ⟨_, hverdict, by simpa using hfit other _ htheirs⟩
    · exact ⟨_, hverdict, by simpa [← hother] using hfit metaId _ hmine⟩
    · obtain ⟨glb, hmeet, hglb⟩ := hguides.meet (σ other) _ _
        (hother ▸ hfit metaId _ hmine) (hfit other _ htheirs)
      rw [hmeet, Option.map_some] at hverdict
      exact ⟨_, hverdict, by simpa using hglb⟩
  · refine ⟨none, ?_, by simp⟩
    cases hmine : s.sortOfMeta metaId with
    | none => simpa only [hmine] using hverdict
    | some mine =>
      cases htheirs : ctx.shapeSort lowered data with
      | none => simpa only [hmine, htheirs] using hverdict
      | some theirs =>
        have hleq := hguides.known dag lowered data theirs mine hext hdata htheirs hrigid
          (hvalue ▸ hfit metaId mine hmine)
        simpa only [hmine, htheirs, hleq, if_true] using hverdict

omit [DecidableEq ρ] in
theorem Reaches.trans {dag dag' : TermDag ρ} {result : Unified} {state' : UnifyState ρ}
    (hext : dag.Extends dag') (h : Reaches fits σ cap dag' result state') :
    Reaches fits σ cap dag result state' :=
  ⟨h.1, h.2.1, hext.trans h.2.2⟩

end

end Purrdf
