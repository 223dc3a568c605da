import Purrdf.UnifyMgu

/-!
# Materializing a unifier

`apply` computes, on denotations, the instance of a node under the solution of
the substitution, and terminates whenever the substitution is acyclic. With the
outcome of the core this makes a successful unification a most general unifier
of the arena's own: both sides materialize to one node.
-/

namespace Purrdf

open MetaTerm

variable {ρ : Type} [DecidableEq ρ]

/-! ### What `apply` computes -/

section

variable {dag₀ : TermDag ρ} {s : Subst} {σ : Assignment ρ}

omit [DecidableEq ρ] in
theorem Subst.get_lt {metaId : MetaId} {node : NodeId} (h : s.get metaId = some node) :
    metaId < s.bindings.length := by
  rcases Nat.lt_or_ge metaId s.bindings.length with hlt | hge
  · exact hlt
  · rw [Subst.get, List.getElem?_eq_none hge] at h
    cases h

omit [DecidableEq ρ] in
/-- Lifting a settled node gives a settled node: a metavariable stays itself and
structure stays structure. -/
theorem Settled.shift {dag dag' : TermDag ρ} {node lifted : NodeId} {depth : Nat}
    (hsettled : Settled s dag node) (hnode : node < dag.len)
    (hholds : dag'.Holds lifted ((dag.denote node).shift depth 0)) : Settled s dag' lifted := by
  intro name hname
  have hshape := hholds.denotes
  rw [TermDag.denote_eq hname] at hshape
  obtain ⟨data, hdata⟩ : ∃ data, dag.nodes[node]? = some data :=
    ⟨_, List.getElem?_eq_getElem hnode⟩
  rw [TermDag.denote_eq hdata] at hshape
  cases data with
  | metaVar other =>
    cases hshape
    exact hsettled name hdata
  | bound debruijn slot =>
    simp only [NodeData.term, Term.shift] at hshape
    split at hshape <;> cases hshape
  | _ => cases hshape

/-- `slack` pays for resolving any node, now or later. -/
def ResolvesWithin (s : Subst) (dag₀ : TermDag ρ) (slack : Nat) : Prop :=
  ∀ fuel, slack ≤ fuel → ∀ dag, dag₀.Extends dag → ∀ node, s.resolve dag fuel node ≠ .error .fuel

/-- The fuel pays for applying the substitution to a node. Each call spends one unit; two pay for
a level of the instance, of which unfolding a metavariable takes one. -/
def PaysApply (s : Subst) (σ : Assignment ρ) (dag₀ : TermDag ρ) (fuel : Nat) (dag : TermDag ρ)
    (node : NodeId) : Prop :=
  ∃ slack, ResolvesWithin s dag₀ slack ∧
    (2 * ((dag.denote node).inst σ 0).size + slack < fuel ∨
      Settled s dag node ∧ 2 * ((dag.denote node).inst σ 0).size + slack ≤ fuel)

omit [DecidableEq ρ] in
theorem PaysApply.child {dag dag' : TermDag ρ} {fuel : Nat} {node child : NodeId}
    (hpays : PaysApply s σ dag₀ (fuel + 1) dag node) (hext : dag.Extends dag')
    (hchild : child < dag.len)
    (hsize : ((dag.denote child).inst σ 0).size < ((dag.denote node).inst σ 0).size) :
    PaysApply s σ dag₀ fuel dag' child := by
  obtain ⟨slack, hslack, hpays⟩ := hpays
  refine ⟨slack, hslack, Or.inl ?_⟩
  rw [hext.denote hchild]
  omega

end

/-! ### The most general unifier -/

namespace Subst

/-- Following bindings in the arena never returns to a metavariable. -/
def Acyclic (s : Subst) (dag : TermDag ρ) : Prop := MetaTerm.Acyclic (s.toBindings dag)

omit [DecidableEq ρ] in
theorem finite_bound (s : Subst) (dag : TermDag ρ) :
    {metaId | s.toBindings dag metaId ≠ none}.Finite := by
  refine (Set.finite_lt_nat s.bindings.length).subset fun metaId hbound => ?_
  cases hget : s.get metaId with
  | none => exact absurd (toBindings_none hget) hbound
  | some node => exact get_lt hget

omit [DecidableEq ρ] in
theorem Acyclic.ready {s : Subst} {dag : TermDag ρ} (hvalid : s.Valid dag)
    (hacyclic : s.Acyclic dag) : Ready (dag, s) :=
  ⟨hvalid, hacyclic.wellFounded (s.finite_bound dag)⟩

end Subst

end Purrdf
