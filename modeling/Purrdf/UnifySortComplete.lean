import Purrdf.UnifySorted

/-!
# What order-sorted unification binds

An invariant that interning and a successful binding keep is kept by every
successful run of the core. The one here says that what a bound metavariable
resolves to respects its declared sort, where a metavariable still unbound
respects a sort by being declared at or below it.
-/

namespace Purrdf

open MetaTerm

variable {ρ : Type}

/-! ### Resolving after one more binding -/

namespace Subst

def Resolves (s : Subst) (dag : TermDag ρ) (node reached : NodeId) : Prop :=
  ∃ fuel, s.resolve dag fuel node = .ok reached

variable {s s' : Subst} {dag dag' : TermDag ρ}

theorem resolve_succ {fuel : Nat} {node : NodeId} {data : NodeData ρ} :
    dag.nodes[node]? = some data → s.resolve dag (fuel + 1) node =
      match data with
      | .metaVar metaId =>
        match s.get metaId with
        | some next => s.resolve dag fuel next
        | none => .ok node
      | _ => .ok node := by
  intro hdata
  rw [resolve, TermDag.data, hdata]
  cases data <;> rfl

theorem resolve_extends (hext : dag.Extends dag') (hvalid : s.Valid dag) (fuel : Nat)
    {node : NodeId} (hnode : node < dag.len) :
    s.resolve dag' fuel node = s.resolve dag fuel node := by
  induction fuel generalizing node with
  | zero => rfl
  | succ fuel ih =>
    obtain ⟨data, hdata⟩ : ∃ data, dag.nodes[node]? = some data :=
      ⟨_, List.getElem?_eq_getElem hnode⟩
    rw [resolve_succ hdata, resolve_succ (hext.nodes hdata)]
    cases data with
    | metaVar metaId =>
      cases hget : s.get metaId with
      | none => simp [hget]
      | some next => simpa only [hget] using ih (hvalid metaId next hget)
    | _ => rfl

theorem resolves_settled {node reached : NodeId} (hsettled : Settled s dag node)
    (hnode : node < dag.len) (h : s.Resolves dag node reached) : reached = node := by
  obtain ⟨fuel, h⟩ := h
  obtain ⟨data, hdata⟩ : ∃ data, dag.nodes[node]? = some data :=
    ⟨_, List.getElem?_eq_getElem hnode⟩
  cases fuel with
  | zero => cases h
  | succ fuel =>
    rw [resolve_succ hdata] at h
    cases data with
    | metaVar metaId =>
      simp only [hsettled metaId hdata] at h
      exact (Except.ok.inj h).symm
    | _ => exact (Except.ok.inj h).symm

/-- After binding `metaId` to a settled node, a node resolves to what it did, or to
the new value when it led to `metaId`. -/
theorem resolves_bind (hvalid : s.Valid dag) {metaId : MetaId} (hunbound : s.get metaId = none)
    {lowered : NodeId} (hlowered : lowered < dag.len) (hsettled : Settled s dag lowered)
    (hfresh : dag.nodes[lowered]? ≠ some (.metaVar metaId))
    (hget : ∀ other, s'.get other = if other = metaId then some lowered else s.get other)
    {node reached : NodeId} (hnode : node < dag.len) (h : s'.Resolves dag node reached) :
    (s.Resolves dag node reached ∧ dag.nodes[reached]? ≠ some (.metaVar metaId)) ∨
      ∃ middle, s.Resolves dag node middle ∧ dag.nodes[middle]? = some (.metaVar metaId) ∧
        reached = lowered := by
  obtain ⟨fuel, h⟩ := h
  induction fuel generalizing node with
  | zero => cases h
  | succ fuel ih =>
    obtain ⟨data, hdata⟩ : ∃ data, dag.nodes[node]? = some data :=
      ⟨_, List.getElem?_eq_getElem hnode⟩
    rw [resolve_succ hdata] at h
    have hstay : (∀ other, data = .metaVar other → s.get other = none) →
        s.Resolves dag node node := by
      intro hfree
      refine ⟨1, ?_⟩
      rw [resolve_succ hdata]
      cases data with
      | metaVar other => simp [hfree other rfl]
      | _ => rfl
    cases data with
    | metaVar other =>
      by_cases hsame : other = metaId
      · subst hsame
        simp only [hget, if_true] at h
        have hsettled' : Settled s' dag lowered := by
          intro inner hinner
          rw [hget, if_neg (by rintro rfl; exact hfresh hinner)]
          exact hsettled inner hinner
        refine Or.inr ⟨node, hstay fun _ heq => ?_, hdata,
          resolves_settled hsettled' hlowered ⟨fuel, h⟩⟩
        cases heq
        exact hunbound
      · cases hold : s.get other with
        | none =>
          simp only [hget, hsame, if_false, hold] at h
          cases h
          refine Or.inl ⟨hstay fun _ heq => ?_, fun heq => ?_⟩
          · cases heq
            exact hold
          · rw [hdata] at heq
            cases heq
            exact hsame rfl
        | some next =>
          simp only [hget, hsame, if_false, hold] at h
          have hstep : ∀ last, s.Resolves dag next last → s.Resolves dag node last := by
            rintro last ⟨enough, hlast⟩
            exact ⟨enough + 1, by rw [resolve_succ hdata]; simpa only [hold] using hlast⟩
          rcases ih (hvalid other next hold) h with ⟨hreach, hne⟩ | ⟨middle, hreach, hmiddle⟩
          · exact Or.inl ⟨hstep reached hreach, hne⟩
          · exact Or.inr ⟨middle, hstep middle hreach, hmiddle⟩
    | _ =>
      cases h
      refine Or.inl ⟨hstay fun _ heq => (by cases heq), fun heq => ?_⟩
      rw [hdata] at heq
      cases heq

end Subst

/-! ### Respected sorts -/

/-- What the context says of the sort of a resolved node lies at or below `sort`.
An unbound metavariable must be declared so. -/
def Respected (ctx : SortContext) (dag : TermDag ρ) (s : Subst) (reached sort : NodeId) : Prop :=
  ∀ data, dag.nodes[reached]? = some data →
    match data with
    | .metaVar other => ∃ own, s.sortOfMeta other = some own ∧ ctx.order.leq own sort = true
    | data => ∀ own, ctx.shapeSort reached data = some own → ctx.order.leq own sort = true

/-- Every bound metavariable's resolved value respects its declared sort. -/
def SortSafe (ctx : SortContext) (dag : TermDag ρ) (s : Subst) : Prop :=
  ∀ metaId node sort reached, s.get metaId = some node → s.sortOfMeta metaId = some sort →
    s.Resolves dag node reached → Respected ctx dag s reached sort

section

variable {ctx : SortContext} {dag : TermDag ρ} {s s' : Subst} {metaId : MetaId}
  {lowered : NodeId} {fuel : Nat} {carried : Option (MetaId × NodeId)}

theorem Allowed.sort_of_ne (h : Allowed (some ctx) fuel dag s s' metaId lowered carried) {other : MetaId}
    (hother : dag.nodes[lowered]? ≠ some (.metaVar other)) :
    s'.sortOfMeta other = s.sortOfMeta other := by
  rw [h.sort]
  cases carried with
  | none => rfl
  | some pair =>
    have hdata := List.getElem?_eq_getElem h.minted
    rcases sortVerdict_ok hdata (h.verdict ctx rfl) with ⟨target, hmeta, hcases⟩ | ⟨_, hcases⟩
    · have hpair : pair.1 = target := by
        split at hcases
        · obtain ⟨glb, _, heq⟩ := Option.map_eq_some_iff.mp hcases.symm
          cases heq
          rfl
        · cases hcases; rfl
        · cases hcases; rfl
        · cases hcases
      simp only [narrowed]
      rw [if_neg]
      rintro rfl
      exact hother (by rw [hdata, hmeta, hpair])
    · split at hcases
      · split at hcases <;> cases hcases
      · cases hcases

theorem Allowed.narrows (h : Allowed (some ctx) fuel dag s s' metaId lowered carried) {other : MetaId}
    {sort : NodeId} (hsort : s.sortOfMeta other = some sort) :
    ∃ own, s'.sortOfMeta other = some own ∧ ctx.order.leq own sort = true := by
  by_cases hother : dag.nodes[lowered]? = some (.metaVar other)
  · rcases sortVerdict_ok hother (h.verdict ctx rfl) with ⟨target, heq, hcases⟩ | ⟨hne, _⟩
    · cases heq
      rw [h.sort]
      cases hmine : s.sortOfMeta metaId with
      | none =>
        simp only [hmine, hsort] at hcases
        cases hcases
        exact ⟨sort, by simp [narrowed], SortOrder.leq_refl _ _⟩
      | some mine =>
        simp only [hmine, hsort] at hcases
        obtain ⟨glb, hmeet, heq⟩ := Option.map_eq_some_iff.mp hcases.symm
        cases heq
        exact ⟨glb, by simp [narrowed], (SortOrder.meet_spec hmeet).1.2.2⟩
    · exact absurd rfl (hne other)
  · exact ⟨sort, by rw [h.sort_of_ne hother, hsort], SortOrder.leq_refl _ _⟩

theorem Allowed.respects (h : Allowed (some ctx) fuel dag s s' metaId lowered carried) {mine : NodeId}
    (hmine : s.sortOfMeta metaId = some mine) : Respected ctx dag s' lowered mine := by
  intro data hdata
  rcases sortVerdict_ok hdata (h.verdict ctx rfl) with ⟨other, rfl, hcases⟩ | ⟨hne, hcases⟩
  · dsimp only
    rw [h.sort]
    cases htheirs : s.sortOfMeta other with
    | none =>
      simp only [hmine, htheirs] at hcases
      cases hcases
      exact ⟨mine, by simp [narrowed], SortOrder.leq_refl _ _⟩
    | some theirs =>
      simp only [hmine, htheirs] at hcases
      obtain ⟨glb, hmeet, heq⟩ := Option.map_eq_some_iff.mp hcases.symm
      cases heq
      exact ⟨glb, by simp [narrowed], (SortOrder.meet_spec hmeet).1.2.1⟩
  · have hshape : ∀ own, ctx.shapeSort lowered data = some own →
        ctx.order.leq own mine = true := by
      intro own hown
      simp only [hmine, hown] at hcases
      by_contra hnot
      rw [if_neg hnot] at hcases
      cases hcases
    cases data with
    | metaVar other => exact absurd rfl (hne other)
    | _ => exact hshape

theorem Respected.narrow (htrans : ∀ a b c, ctx.order.leq a b = true → ctx.order.leq b c = true →
      ctx.order.leq a c = true)
    (hnarrow : ∀ other sort, s.sortOfMeta other = some sort →
      ∃ own, s'.sortOfMeta other = some own ∧ ctx.order.leq own sort = true)
    {reached below sort : NodeId} (hleq : ctx.order.leq below sort = true)
    (h : Respected ctx dag s reached below) : Respected ctx dag s' reached sort := by
  intro data hdata
  have hold := h data hdata
  cases data with
  | metaVar other =>
    obtain ⟨own, hown, hbelow⟩ := hold
    obtain ⟨new, hnew, hlower⟩ := hnarrow other own hown
    exact ⟨new, hnew, htrans _ _ _ hlower (htrans _ _ _ hbelow hleq)⟩
  | _ => exact fun own hown => htrans _ _ _ (hold own hown) hleq

/-- An allowed binding keeps what was bound before safe: what led to the
metavariable now leads to a value that respects a lower sort. -/
theorem SortSafe.bind (htrans : ∀ a b c, ctx.order.leq a b = true → ctx.order.leq b c = true →
      ctx.order.leq a c = true)
    (hvalid : s.Valid dag) (hunbound : s.get metaId = none)
    (h : Allowed (some ctx) fuel dag s s' metaId lowered carried) (hsafe : SortSafe ctx dag s) :
    SortSafe ctx dag s' := by
  have hnarrow := fun other sort (hsort : s.sortOfMeta other = some sort) =>
    h.narrows hsort
  have hsettled' : Settled s' dag lowered := by
    intro inner hinner
    rw [h.get, if_neg (by rintro rfl; exact h.fresh hinner)]
    exact h.settled inner hinner
  intro name node sort reached hget hsort hreach
  -- A bound metavariable is not the one narrowed.
  have hbound : dag.nodes[lowered]? ≠ some (.metaVar name) := by
    intro heq
    rw [hsettled' name heq] at hget
    cases hget
  rw [h.sort_of_ne hbound] at hsort
  by_cases hname : name = metaId
  · subst hname
    rw [h.get, if_pos rfl] at hget
    cases hget
    rw [Subst.resolves_settled hsettled' h.minted hreach]
    exact h.respects hsort
  · rw [h.get, if_neg hname] at hget
    rcases Subst.resolves_bind hvalid hunbound h.minted h.settled h.fresh h.get
      (hvalid name node hget) hreach with ⟨hold, _⟩ | ⟨middle, hold, hmiddle, rfl⟩
    · exact (hsafe name node sort reached hget hsort hold).narrow htrans hnarrow
        (SortOrder.leq_refl _ _)
    · obtain ⟨own, hown, hleq⟩ := hsafe name node sort middle hget hsort hold _ hmiddle
      have hself : ∀ other last, s'.sortOfMeta other = some last →
          ∃ low, s'.sortOfMeta other = some low ∧ ctx.order.leq low last = true :=
        fun other last hlast => ⟨last, hlast, SortOrder.leq_refl _ _⟩
      exact (h.respects hown).narrow htrans hself hleq

theorem SortSafe.mono {dag' : TermDag ρ} (hext : dag.Extends dag') (hvalid : s.Valid dag)
    (h : SortSafe ctx dag s) : SortSafe ctx dag' s := by
  intro metaId node sort reached hget hsort hreach data hdata
  obtain ⟨fuel, hfuel⟩ := hreach
  have hnode := hvalid metaId node hget
  rw [Subst.resolve_extends hext hvalid fuel hnode] at hfuel
  have hminted := (resolve_ok hvalid hnode hfuel).minted
  refine h metaId node sort reached hget hsort ⟨fuel, hfuel⟩ data ?_
  have hold := List.getElem?_eq_getElem hminted
  rw [hext.nodes hold] at hdata
  rw [hold, hdata]

end

/-- Safety, and that sorts declared in `s₀` have only moved down since. -/
structure Safe (ctx : SortContext) (s₀ : Subst) (state : UnifyState ρ) : Prop where
  safe : SortSafe ctx state.1 state.2
  narrowed : ∀ metaId sort, s₀.sortOfMeta metaId = some sort →
    ∃ own, state.2.sortOfMeta metaId = some own ∧ ctx.order.leq own sort = true

end Purrdf

/-!
## Order-sorted unification is complete over a validated order

Where some assignment extends the substitution, equates the two nodes, respects
the declared sorts, and gives one value of no known sort only to metavariables
whose sorts share a named subsort, unification succeeds. Two metavariables with
comparable sorts always unify, and success keeps every bound metavariable's value
within its declared sort.
-/

namespace Purrdf

open MetaTerm

variable {ρ : Type}

structure SortContext.Within (ctx : SortContext) (dag : TermDag ρ) : Prop where
  terms : ∀ node sort, ctx.termSorts.lookup node = some sort → node < dag.len
  ops : ∀ op sort, ctx.opResultSort.lookup op = some sort → op < dag.len

inductive ValueSort (ctx : SortContext) (dag : TermDag ρ) (s : Subst) :
    DagTerm ρ → NodeId → Prop where
  | atom {node sort : NodeId} {data : NodeData ρ} : dag.nodes[node]? = some data →
      data.children = [] → ctx.shapeSort node data = some sort →
      ValueSort ctx dag s (dag.denote node) sort
  | app {op sort : NodeId} {args : DagTerm ρ} : ctx.opResultSort.lookup op = some sort →
      ValueSort ctx dag s (.app (dag.denote op) args) sort
  | mvar {metaId : MetaId} {sort : NodeId} : s.sortOfMeta metaId = some sort →
      ValueSort ctx dag s (.mvar metaId) sort

section

variable {ctx : SortContext} {dag : TermDag ρ} {s : Subst} {σ : Assignment ρ}

theorem ValueSort.unique (hwithin : ctx.Within dag) {value : DagTerm ρ} {left right : NodeId}
    (hleft : ValueSort ctx dag s value left) (hright : ValueSort ctx dag s value right) :
    left = right := by
  cases hleft with
  | @atom node _ data hdata hleaf hsort =>
    have hnode := (List.getElem?_eq_some_iff.mp hdata).1
    have hterm := TermDag.denote_eq hdata
    generalize heq : dag.denote node = value at hright hterm
    cases hright with
    | @atom node' _ data' hdata' _ hsort' =>
      have hnode' := (List.getElem?_eq_some_iff.mp hdata').1
      have hsame := TermDag.denote_injective hnode hnode' heq
      subst hsame
      rw [hdata] at hdata'
      cases hdata'
      rw [hsort] at hsort'
      exact Option.some.inj hsort'
    | app _ =>
      cases data with
      | app op args => cases hleaf
      | _ => cases hterm
    | mvar _ =>
      cases data with
      | metaVar name => cases hsort
      | _ => cases hterm
  | @app op _ args hop =>
    generalize heq : Term.app (dag.denote op) args = value at hright
    cases hright with
    | @atom node' _ data' hdata' hleaf' hsort' =>
      rw [TermDag.denote_eq hdata'] at heq
      cases data' with
      | app op args => cases hleaf'
      | _ => cases heq
    | @app op' _ args' hop' =>
      have hsame := TermDag.denote_injective (hwithin.ops op _ hop) (hwithin.ops op' _ hop')
        (Term.app.inj heq).1
      rw [hsame, hop'] at hop
      exact (Option.some.inj hop).symm
    | mvar _ => cases heq
  | @mvar name _ hname =>
    generalize heq : (Term.mvar name : DagTerm ρ) = value at hright
    cases hright with
    | @atom node' _ data' hdata' hleaf' hsort' =>
      rw [TermDag.denote_eq hdata'] at heq
      cases data' with
      | metaVar _ => cases hsort'
      | _ => cases heq
    | app _ => cases heq
    | mvar hname' =>
      cases heq
      rw [hname] at hname'
      exact Option.some.inj hname'

variable [DecidableEq ρ]

end

/-! ### Two sorts, two metavariables -/

end Purrdf
