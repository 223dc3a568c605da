import Purrdf.Unify

/-!
# Unification is sound and most general

A run of the unification core from one arena and substitution to another is
described by the assignments of terms to metavariables that satisfy the
bindings. A success leaves exactly the assignments that already satisfied the
bindings and make the two nodes equal; a failure means there was none. Both are
preserved by composing runs, so the induction over the recursion only has to
treat one comparison at a time.
-/

namespace Purrdf

open MetaTerm

variable {ρ : Type}

abbrev Assignment (ρ : Type) := MetaId → DagTerm ρ

namespace Subst

def toBindings (s : Subst) (dag : TermDag ρ) : Bindings (Symbol ρ) MetaId :=
  fun metaId => (s.get metaId).map dag.denote

def Valid (s : Subst) (dag : TermDag ρ) : Prop :=
  ∀ metaId node, s.get metaId = some node → node < dag.len

def Extends (s s' : Subst) : Prop :=
  ∀ metaId node, s.get metaId = some node → s'.get metaId = some node

/-- No operator in a bound value mentions a metavariable. -/
def RigidOps (s : Subst) (dag : TermDag ρ) : Prop :=
  ∀ metaId node, s.get metaId = some node → (dag.denote node).RigidOps

theorem Valid.mono {s : Subst} {dag dag' : TermDag ρ} (hext : dag.Extends dag')
    (h : s.Valid dag) : s.Valid dag' :=
  fun metaId node hget => Nat.lt_of_lt_of_le (h metaId node hget) hext.len_le

theorem toBindings_extends {s : Subst} {dag dag' : TermDag ρ} (hext : dag.Extends dag')
    (h : s.Valid dag) : s.toBindings dag' = s.toBindings dag := by
  funext metaId
  unfold toBindings
  cases hget : s.get metaId with
  | none => rfl
  | some node => rw [Option.map_some, Option.map_some, hext.denote (h metaId node hget)]

theorem RigidOps.mono {s : Subst} {dag dag' : TermDag ρ} (hext : dag.Extends dag')
    (hvalid : s.Valid dag) (h : s.RigidOps dag) : s.RigidOps dag' := by
  intro metaId node hget
  rw [hext.denote (hvalid metaId node hget)]
  exact h metaId node hget

variable {metaId : MetaId}

theorem toBindings_some {s : Subst} {dag : TermDag ρ} {node : NodeId}
    (hget : s.get metaId = some node) : s.toBindings dag metaId = some (dag.denote node) := by
  rw [toBindings, hget, Option.map_some]

theorem toBindings_none {s : Subst} {dag : TermDag ρ} (hget : s.get metaId = none) :
    s.toBindings dag metaId = none := by
  rw [toBindings, hget, Option.map_none]

theorem join_padded (entries : List (Option NodeId)) (count slot : Nat) :
    (entries ++ List.replicate count none)[slot]?.join = entries[slot]?.join := by
  rw [List.getElem?_append]
  split
  · rfl
  · next hlong =>
      rw [List.getElem?_eq_none (Nat.le_of_not_lt hlong), List.getElem?_replicate]
      split <;> rfl

theorem join_set {entries : List (Option NodeId)} {slot : Nat} (hslot : slot < entries.length)
    (node : NodeId) (other : Nat) :
    (entries.set slot (some node))[other]?.join =
      if other = slot then some node else entries[other]?.join := by
  split
  · next heq => rw [heq, List.getElem?_set_self hslot, Option.join_some]
  · next hne => rw [List.getElem?_set_ne (Ne.symm hne)]

theorem bind_ok {s s' : Subst} {node : NodeId} (h : s.bind metaId node = .ok s') (other : MetaId) :
    s'.get other = (if other = metaId then some node else s.get other) ∧
      s'.sortOfMeta other = s.sortOfMeta other := by
  unfold bind ensure at h
  split at h
  · cases h
    simp only [get, sortOfMeta, join_padded, and_true]
    rw [join_set (by simp only [List.length_append, List.length_replicate]; omega), join_padded]
  · cases h

theorem toBindings_bind {s s' : Subst} {dag : TermDag ρ} {node : NodeId}
    (hget : ∀ other, s'.get other = if other = metaId then some node else s.get other) :
    s'.toBindings dag = MetaTerm.assign (s.toBindings dag) metaId (dag.denote node) := by
  funext other
  unfold toBindings MetaTerm.assign
  rw [hget]
  split <;> rfl

end Subst

theorem Except.bind_ok {α β : Type} {x : Except Fault α} {next : α → Except Fault β}
    {result : β} (h : (x >>= next) = .ok result) :
    ∃ value, x = .ok value ∧ next value = .ok result := by
  cases x with
  | error fault => cases h
  | ok value => exact ⟨value, rfl, h⟩

def Settled (s : Subst) (dag : TermDag ρ) (node : NodeId) : Prop :=
  ∀ metaId, dag.nodes[node]? = some (.metaVar metaId) → s.get metaId = none

/-- What `resolve` reaches from a node. -/
structure Resolved (s : Subst) (dag : TermDag ρ) (node reached : NodeId) : Prop where
  minted : reached < dag.len
  settled : Settled s dag reached
  same : ∀ σ, Satisfies σ (s.toBindings dag) →
    (dag.denote reached).inst σ 0 = (dag.denote node).inst σ 0
  rigid : s.RigidOps dag → (dag.denote node).RigidOps → (dag.denote reached).RigidOps
  structural : (∀ metaId, dag.nodes[node]? ≠ some (.metaVar metaId)) → reached = node

variable {dag : TermDag ρ} {ctx : Option SortContext} {s : Subst} {metaId : MetaId}

theorem resolve_ok (hvalid : s.Valid dag) {fuel : Nat} :
    ∀ {node reached : NodeId}, node < dag.len → s.resolve dag fuel node = .ok reached →
      Resolved s dag node reached := by
  induction fuel with
  | zero =>
    intro node reached _ h
    cases h
  | succ fuel ih =>
    intro node reached hnode h
    unfold Subst.resolve at h
    obtain ⟨data, hdata, h⟩ := Except.bind_ok h
    replace hdata := data_ok hdata
    have hstay : (∀ metaId, data = .metaVar metaId → s.get metaId = none) →
        Resolved s dag node node := fun hfree =>
      { minted := hnode
        settled := fun metaId hmeta => hfree metaId (by
          rw [hdata] at hmeta
          exact Option.some.inj hmeta)
        same := fun _ _ => rfl
        rigid := fun _ hrigid => hrigid
        structural := fun _ => rfl }
    cases data with
    | metaVar metaId =>
      simp only at h
      cases hget : s.get metaId with
      | none =>
        rw [hget] at h
        cases h
        refine hstay fun other hother => ?_
        cases hother
        exact hget
      | some next =>
        rw [hget] at h
        have hreached := ih (hvalid metaId next hget) h
        have hnode' : dag.denote node = .mvar metaId := TermDag.denote_eq hdata
        refine ⟨hreached.minted, hreached.settled, fun σ hσ => ?_, fun hrigid _ => ?_,
          fun hstructural => absurd hdata (hstructural metaId)⟩
        · rw [hreached.same σ hσ, hnode', Term.inst_mvar_zero]
          exact (hσ metaId _ (Subst.toBindings_some hget)).symm
        · exact hreached.rigid hrigid (hrigid metaId next hget)
    | _ =>
      cases h
      exact hstay fun _ hmeta => by cases hmeta

structure Ready (state : UnifyState ρ) : Prop where
  valid : state.2.Valid state.1
  wellFounded : WellFounded (Depends (state.2.toBindings state.1))

def narrowed (s : Subst) (carried : Option (MetaId × NodeId)) (other : MetaId) : Option NodeId :=
  match carried with
  | none => s.sortOfMeta other
  | some (target, glb) => if other = target then some glb else s.sortOfMeta other

/-- A binding of `metaId` to another, settled node that the verdict of the sort
discipline allows. -/
structure Allowed (ctx : Option SortContext) (fuel : Nat) (dag : TermDag ρ) (s s' : Subst)
    (metaId : MetaId) (lowered : NodeId) (carried : Option (MetaId × NodeId)) : Prop where
  minted : lowered < dag.len
  settled : Settled s dag lowered
  fresh : dag.nodes[lowered]? ≠ some (.metaVar metaId)
  verdict : ∀ sorts ∈ ctx, sortVerdict sorts fuel dag s metaId lowered = .ok (some carried)
  get : ∀ other, s'.get other = if other = metaId then some lowered else s.get other
  sort : ∀ other, s'.sortOfMeta other = narrowed s carried other

structure Invariant (ctx : Option SortContext) (inv : UnifyState ρ → Prop) : Prop where
  mono : ∀ (dag dag' : TermDag ρ) (s : Subst), dag.Extends dag' → s.Valid dag → inv (dag, s) →
    inv (dag', s)
  bind : ∀ (dag : TermDag ρ) (s s' : Subst) (fuel : Nat) (metaId : MetaId) (lowered : NodeId)
    (carried : Option (MetaId × NodeId)), Ready (dag, s) → s.get metaId = none →
    Allowed ctx fuel dag s s' metaId lowered carried → inv (dag, s) → inv (dag, s')

/-- What a run of the core says about the assignments, for the equation it
compares: `rigid` is the condition on operators its failures need. -/
structure Outcome (ctx : Option SortContext) (equation : Assignment ρ → Prop) (rigid : Prop)
    (start : UnifyState ρ) (result : Unified) (reached : UnifyState ρ) : Prop where
  arena : start.1.Extends reached.1
  bindings : start.2.Extends reached.2
  ready : Ready reached
  rigidOps : rigid → start.2.RigidOps start.1 → reached.2.RigidOps reached.1
  unifies : result = .ok → ∀ σ, Satisfies σ (reached.2.toBindings reached.1) ↔
    Satisfies σ (start.2.toBindings start.1) ∧ equation σ
  refutes : result ≠ .ok → ctx = none → rigid → start.2.RigidOps start.1 →
    ∀ σ, Satisfies σ (start.2.toBindings start.1) → ¬ equation σ
  keeps : result = .ok → ∀ inv, Invariant ctx inv → inv start → inv reached

section

variable {ctx : Option SortContext} {equation first second : Assignment ρ → Prop}
  {rigid : Prop} {start middle reached : UnifyState ρ} {result : Unified}

theorem Outcome.same (hready : Ready start)
    (h : ∀ σ, Satisfies σ (start.2.toBindings start.1) → equation σ) :
    Outcome ctx equation rigid start .ok start where
  arena := TermDag.Extends.refl _
  bindings := fun _ _ hget => hget
  ready := hready
  rigidOps := fun _ hrigid => hrigid
  unifies := fun _ σ => ⟨fun hσ => ⟨hσ, h σ hσ⟩, And.left⟩
  refutes := fun hne => absurd rfl hne
  keeps := fun _ _ _ h => h

theorem Outcome.fail (hready : Ready start) (hfail : result ≠ .ok)
    (h : ctx = none → rigid → start.2.RigidOps start.1 →
      ∀ σ, Satisfies σ (start.2.toBindings start.1) → ¬ equation σ) :
    Outcome ctx equation rigid start result start where
  arena := TermDag.Extends.refl _
  bindings := fun _ _ hget => hget
  ready := hready
  rigidOps := fun _ hrigid => hrigid
  unifies := fun hok => absurd hok hfail
  refutes := fun _ => h
  keeps := fun hok => absurd hok hfail

theorem Outcome.congr (h : Outcome ctx equation rigid start result reached) {rigid' : Prop}
    (hrigid : rigid' → start.2.RigidOps start.1 → rigid)
    (heq : ∀ σ, Satisfies σ (start.2.toBindings start.1) → (equation σ ↔ first σ)) :
    Outcome ctx first rigid' start result reached where
  arena := h.arena
  bindings := h.bindings
  ready := h.ready
  rigidOps := fun hr hs => h.rigidOps (hrigid hr hs) hs
  unifies := fun hok σ => (h.unifies hok σ).trans (and_congr_right (heq σ))
  refutes := fun hne hctx hr hs σ hσ hfirst =>
    h.refutes hne hctx (hrigid hr hs) hs σ hσ ((heq σ hσ).mpr hfirst)
  keeps := h.keeps

/-- A success followed by a further run is a run for both equations. -/
theorem Outcome.comp (hfirst : Outcome ctx first rigid start .ok middle)
    (hsecond : Outcome ctx second rigid middle result reached) :
    Outcome ctx (fun σ => first σ ∧ second σ) rigid start result reached where
  arena := hfirst.arena.trans hsecond.arena
  bindings := fun metaId node hget => hsecond.bindings _ _ (hfirst.bindings metaId node hget)
  ready := hsecond.ready
  rigidOps := fun hr hs => hsecond.rigidOps hr (hfirst.rigidOps hr hs)
  unifies := fun hok σ => by
    rw [hsecond.unifies hok σ, hfirst.unifies rfl σ, and_assoc]
  refutes := fun hne hctx hr hs σ hσ hboth =>
    hsecond.refutes hne hctx hr (hfirst.rigidOps hr hs) σ
      ((hfirst.unifies rfl σ).mpr ⟨hσ, hboth.1⟩) hboth.2
  keeps := fun hok inv hinv h => hsecond.keeps hok inv hinv (hfirst.keeps rfl inv hinv h)

theorem Outcome.left (hfirst : Outcome ctx first rigid start result reached)
    (hfail : result ≠ .ok) :
    Outcome ctx (fun σ => first σ ∧ second σ) rigid start result reached where
  arena := hfirst.arena
  bindings := hfirst.bindings
  ready := hfirst.ready
  rigidOps := hfirst.rigidOps
  unifies := fun hok => absurd hok hfail
  refutes := fun hne hctx hr hs σ hσ hboth => hfirst.refutes hne hctx hr hs σ hσ hboth.1
  keeps := hfirst.keeps

theorem Outcome.of_extends {dag dag' : TermDag ρ} {s : Subst} (hext : dag.Extends dag')
    (hvalid : s.Valid dag) (h : Outcome ctx equation rigid (dag', s) result reached) :
    Outcome ctx equation rigid (dag, s) result reached where
  arena := hext.trans h.arena
  bindings := h.bindings
  ready := h.ready
  rigidOps := fun hr hs => h.rigidOps hr (Subst.RigidOps.mono hext hvalid hs)
  unifies := fun hok σ => by
    rw [h.unifies hok σ, Subst.toBindings_extends hext hvalid]
  refutes := fun hne hctx hr hs σ hσ => by
    refine h.refutes hne hctx hr (Subst.RigidOps.mono hext hvalid hs) σ ?_
    rw [Subst.toBindings_extends hext hvalid]
    exact hσ
  keeps := fun hok inv hinv hstart =>
    h.keeps hok inv hinv (hinv.mono _ _ _ hext hvalid hstart)

end

theorem Ready.mono {dag dag' : TermDag ρ} (hext : dag.Extends dag') (h : Ready (dag, s)) :
    Ready (dag', s) where
  valid := h.valid.mono hext
  wellFounded := by
    rw [Subst.toBindings_extends hext h.valid]
    exact h.wellFounded

variable [DecidableEq ρ]

/-- How an attempt to bind a metavariable to `t`, met at `depth`, ends. -/
inductive Attempt (ctx : Option SortContext) (fuel : Nat) (dag : TermDag ρ) (s : Subst)
    (metaId : MetaId) (metaNode t : NodeId) (depth : Nat) : Unified → UnifyState ρ → Prop
  | itself : dag.nodes[t]? = some (.metaVar metaId) →
      Attempt ctx fuel dag s metaId metaNode t depth .ok (dag, s)
  | occurs {data : NodeData ρ} : dag.nodes[t]? = some data → data ≠ .metaVar metaId →
      Occurs (s.toBindings dag) metaId (dag.denote t) →
      Attempt ctx fuel dag s metaId metaNode t depth (.occurs metaId t) (dag, s)
  | escapes {dag' : TermDag ρ} : dag.Grows dag' → (dag.denote t).Escapes depth 0 →
      Attempt ctx fuel dag s metaId metaNode t depth (.clash metaNode t) (dag', s)
  | refused {dag' : TermDag ρ} {sorts : SortContext} {lowered : NodeId} : dag.Grows dag' →
      ctx = some sorts → lowered < dag'.len →
      (dag'.denote lowered).shift depth 0 = dag.denote t →
      sortVerdict sorts fuel dag' s metaId lowered = .ok none →
      Attempt ctx fuel dag s metaId metaNode t depth (.clash metaNode t) (dag', s)
  | binds {dag' : TermDag ρ} {s' : Subst} {lowered : NodeId} {carried : Option (MetaId × NodeId)} :
      dag.Grows dag' → ¬ Occurs (s.toBindings dag) metaId (dag.denote t) →
      (dag'.denote lowered).shift depth 0 = dag.denote t →
      Allowed ctx fuel dag' s s' metaId lowered carried →
      Attempt ctx fuel dag s metaId metaNode t depth .ok (dag', s')

omit [DecidableEq ρ] in
theorem Outcome.bind {s s' : Subst} {fuel : Nat} {lowered : NodeId}
    {carried : Option (MetaId × NodeId)} (hready : Ready (dag, s)) (hunbound : s.get metaId = none)
    (hoccurs : ¬ Occurs (s.toBindings dag) metaId (dag.denote lowered))
    (h : Allowed ctx fuel dag s s' metaId lowered carried) :
    Outcome ctx (fun σ => σ metaId = (dag.denote lowered).inst σ 0)
      (dag.denote lowered).RigidOps (dag, s) .ok (dag, s') where
  arena := TermDag.Extends.refl _
  bindings := by
    intro other node hother
    rw [h.get]
    split
    · next heq =>
        rw [heq, hunbound] at hother
        cases hother
    · exact hother
  ready :=
    { valid := by
        intro other node hother
        rw [h.get] at hother
        split at hother
        · cases hother
          exact h.minted
        · exact hready.valid other node hother
      wellFounded := by
        rw [Subst.toBindings_bind h.get]
        exact wellFounded_assign hready.wellFounded hoccurs }
  rigidOps := by
    intro hrigid hs other node hother
    rw [h.get] at hother
    split at hother
    · cases hother
      exact hrigid
    · exact hs other node hother
  unifies := by
    intro _ σ
    rw [Subst.toBindings_bind h.get]
    exact satisfies_assign (Subst.toBindings_none hunbound) σ
  refutes := fun hne => absurd rfl hne
  keeps := fun _ inv hinv hstart =>
    hinv.bind dag s s' fuel metaId lowered carried hready hunbound h hstart

omit [DecidableEq ρ] in
theorem ne_of_occurs {σ : Assignment ρ} (hσ : Satisfies σ (s.toBindings dag)) {t : NodeId}
    {data : NodeData ρ} (hdata : dag.nodes[t]? = some data) (hother : data ≠ .metaVar metaId)
    (hsettled : Settled s dag t) (hoccurs : Occurs (s.toBindings dag) metaId (dag.denote t))
    (depth : Nat) :
    (Term.mvar metaId).inst σ depth ≠ (dag.denote t).inst σ depth := by
  refine hσ.ne_of_occurs hoccurs (fun name hname => ?_) depth
  have hmeta : data = .metaVar name := by
    rw [TermDag.denote_eq hdata] at hname
    cases data <;> cases hname
    rfl
  -- An unbound metavariable only occurs in itself.
  rw [hname, occurs_of_unbound] at hoccurs
  · have hsame : name = metaId := hoccurs
    exact hother (by rw [hmeta, hsame])
  · rintro inner rfl
    rw [hmeta] at hdata
    exact Subst.toBindings_none (hsettled name hdata)

omit [DecidableEq ρ] in
theorem Attempt.outcome {fuel : Nat} {metaNode t : NodeId} {depth : Nat} {result : Unified}
    {state' : UnifyState ρ} (h : Attempt ctx fuel dag s metaId metaNode t depth result state')
    (hready : Ready (dag, s)) (hunbound : s.get metaId = none) (hsettled : Settled s dag t) :
    Outcome ctx (fun σ => (Term.mvar metaId).inst σ depth = (dag.denote t).inst σ depth)
      (dag.denote t).RigidOps (dag, s) result state' := by
  cases h with
  | itself hself =>
    refine Outcome.same hready fun σ _ => ?_
    rw [TermDag.denote_eq hself]
    rfl
  | occurs hdata hother hoccurs =>
    refine Outcome.fail hready (by simp) fun _ _ _ σ hσ => ?_
    exact ne_of_occurs hσ hdata hother hsettled hoccurs depth
  | escapes hgrows hescapes =>
    refine Outcome.of_extends hgrows.kept hready.valid
      (Outcome.fail (hready.mono hgrows.kept) (by simp) fun _ _ _ σ _ => ?_)
    exact mvar_ne_of_escapes σ metaId hescapes
  | refused hgrows hctx _ _ _ =>
    refine Outcome.of_extends hgrows.kept hready.valid
      (Outcome.fail (hready.mono hgrows.kept) (by simp) fun hnone => ?_)
    cases hctx.symm.trans hnone
  | @binds dag' s' lowered _ hgrows hfresh hshift hallowed =>
    have hfresh' : ¬ Occurs (s.toBindings dag') metaId (dag'.denote lowered) := by
      rw [Subst.toBindings_extends hgrows.kept hready.valid,
        ← occurs_shift depth 0 (dag'.denote lowered), hshift]
      exact hfresh
    refine Outcome.of_extends hgrows.kept hready.valid ((Outcome.bind (hready.mono hgrows.kept)
      hunbound hfresh' hallowed).congr (fun hrigid _ => ?_) fun σ _ => ?_)
    · rwa [← hshift, Term.rigidOps_shift] at hrigid
    · rw [← hshift]
      exact (mvar_eq_shift_iff σ metaId depth _).symm

omit [DecidableEq ρ] in
theorem Settled.mono {dag dag' : TermDag ρ} (hext : dag.Extends dag') {node : NodeId}
    (hnode : node < dag.len) (h : Settled s dag node) : Settled s dag' node := by
  intro name hname
  obtain ⟨data, hdata⟩ : ∃ data, dag.nodes[node]? = some data :=
    ⟨_, List.getElem?_eq_getElem hnode⟩
  rw [hext.nodes hdata] at hname
  cases hname
  exact h name hdata

end Purrdf
