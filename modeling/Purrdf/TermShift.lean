import Purrdf.TermDag

/-!
# Shifting terms across binders

`shift` raises the free de Bruijn indices of a node and `shiftDown` lowers them,
both memoised by node and cutoff over the shared arena. On what the nodes denote
they are the shift of `Purrdf.MetaTerm` and its partial inverse.
-/

namespace Purrdf

open MetaTerm

variable {ρ : Type} [DecidableEq ρ]

/-- Results already computed for a node at a cutoff or depth. -/
abbrev Memo (β : Type) := List ((NodeId × UInt32) × β)

def remember {β : Type} (node : NodeId) (cutoff : UInt32) (result : β) :
    Exec Fault (TermDag ρ × Memo β) Unit := fun state =>
  (.ok (), (state.1, ((node, cutoff), result) :: state.2))

/-- One more binder crossed, in the 32 bits the code counts them with. -/
def succDepth (depth : UInt32) : Except Fault UInt32 :=
  if depth.toNat + 1 < 2 ^ 32 then .ok (depth + 1) else .error .panic

def checkedAdd (left right : UInt32) : Except Fault UInt32 :=
  if left.toNat + right.toNat < 2 ^ 32 then .ok (left + right) else .error .sizeOverflow

/-- The recursive core of `shift`. The fuel bounds the height of the node. -/
def shiftAt (amount : UInt32) :
    Nat → NodeId → UInt32 → Exec Fault (TermDag ρ × Memo NodeId) NodeId
  | 0, _, _ => .stop .fuel
  | fuel + 1, node, cutoff => do
      let (dag, memo) ← Exec.get
      match memo.lookup (node, cutoff) with
      | some cached => pure cached
      | none =>
        let result ← (do
          match ← Exec.lift (dag.data node) with
          | .rdf _ | .leaf _ | .free _ | .metaVar _ => pure node
          | .bound debruijn slot =>
            if cutoff ≤ debruijn then
              let raised ← Exec.lift (checkedAdd debruijn amount)
              Exec.onFst (internBound raised slot)
            else pure node
          | .app op args =>
            let newOp ← shiftAt amount fuel op cutoff
            let newArgs ← Exec.traverse (fun arg => shiftAt amount fuel arg cutoff) args
            Exec.onFst (internApp newOp newArgs)
          | .binder op sorts body =>
            let newOp ← shiftAt amount fuel op cutoff
            let newSorts ← Exec.traverse (fun sort => shiftAt amount fuel sort cutoff) sorts
            let under ← Exec.lift (succDepth cutoff)
            let newBody ← shiftAt amount fuel body under
            Exec.onFst (internBinder newOp newSorts newBody))
        remember node cutoff result
        pure result

/-- Lift every bound variable of the node that is free in it by `amount`. -/
def shift (node : NodeId) (amount : UInt32) : Exec Fault (TermDag ρ) NodeId :=
  if amount = 0 then pure node
  else Exec.withScratch [] (shiftAt amount (node + 1) node 0)

/-- The recursive core of `shiftDown`. A `none` is returned before it is
remembered. -/
def shiftDownAt (amount : UInt32) :
    Nat → NodeId → UInt32 → Exec Fault (TermDag ρ × Memo (Option NodeId)) (Option NodeId)
  | 0, _, _ => .stop .fuel
  | fuel + 1, node, cutoff => do
      let (dag, memo) ← Exec.get
      match memo.lookup (node, cutoff) with
      | some cached => pure cached
      | none =>
        match ← Exec.lift (dag.data node) with
        | .rdf _ | .leaf _ | .free _ | .metaVar _ =>
          remember node cutoff (some node)
          pure (some node)
        | .bound debruijn slot =>
          if debruijn < cutoff then
            remember node cutoff (some node)
            pure (some node)
          else
            let stop ← Exec.lift (checkedAdd cutoff amount)
            if debruijn < stop then
              remember node cutoff none
              pure none
            else
              let lowered ← Exec.onFst (internBound (debruijn - amount) slot)
              remember node cutoff (some lowered)
              pure (some lowered)
        | .app op args =>
          let some newOp ← shiftDownAt amount fuel op cutoff | pure none
          let some newArgs ←
            Exec.traverseSome (fun arg => shiftDownAt amount fuel arg cutoff) args | pure none
          let lowered ← Exec.onFst (internApp newOp newArgs)
          remember node cutoff (some lowered)
          pure (some lowered)
        | .binder op sorts body =>
          let some newOp ← shiftDownAt amount fuel op cutoff | pure none
          let some newSorts ←
            Exec.traverseSome (fun sort => shiftDownAt amount fuel sort cutoff) sorts
            | pure none
          let under ← Exec.lift (checkedAdd cutoff 1)
          let some newBody ← shiftDownAt amount fuel body under | pure none
          let lowered ← Exec.onFst (internBinder newOp newSorts newBody)
          remember node cutoff (some lowered)
          pure (some lowered)

/-- Lower every bound variable of the node that is free in it by `amount`, or
`none` when one of them belongs to the binders stripped away. -/
def shiftDown (node : NodeId) (amount : UInt32) : Exec Fault (TermDag ρ) (Option NodeId) :=
  if amount = 0 then pure (some node)
  else Exec.withScratch [] (shiftDownAt amount (node + 1) node 0)

/-! ### Reading and counting -/

variable {dag : TermDag ρ}

omit [DecidableEq ρ] in
theorem data_ok {node : NodeId} {data : NodeData ρ} (h : dag.data node = .ok data) :
    dag.nodes[node]? = some data := by
  unfold TermDag.data at h
  split at h
  · next hdata =>
      cases h
      exact hdata
  · cases h

omit [DecidableEq ρ] in
theorem data_ne_error {node : NodeId} (hnode : node < dag.len) {fault : Fault} :
    dag.data node ≠ .error fault := by
  unfold TermDag.data
  rw [List.getElem?_eq_getElem hnode]
  simp

theorem checkedAdd_ok {left right sum : UInt32} (h : checkedAdd left right = .ok sum) :
    sum.toNat = left.toNat + right.toNat := by
  unfold checkedAdd at h
  split at h
  · next hfit =>
      cases h
      rw [UInt32.toNat_add, Nat.mod_eq_of_lt hfit]
  · cases h

theorem checkedAdd_error {left right : UInt32} {fault : Fault}
    (h : checkedAdd left right = .error fault) :
    fault = .sizeOverflow ∧ ¬ left.toNat + right.toNat < 2 ^ 32 := by
  unfold checkedAdd at h
  split at h
  · cases h
  · next hover =>
      cases h
      exact ⟨rfl, hover⟩

theorem succDepth_ok {depth next : UInt32} (h : succDepth depth = .ok next) :
    next.toNat = depth.toNat + 1 := by
  unfold succDepth at h
  split at h
  · next hfit =>
      cases h
      rw [UInt32.toNat_add]
      exact Nat.mod_eq_of_lt hfit
  · cases h

theorem succDepth_error {depth : UInt32} {fault : Fault} (h : succDepth depth = .error fault) :
    fault = .panic ∧ ¬ depth.toNat + 1 < 2 ^ 32 := by
  unfold succDepth at h
  split at h
  · cases h
  · next hover =>
      cases h
      exact ⟨rfl, hover⟩

/-! ### Memoised results -/

def MemoOk {β : Type} (right : TermDag ρ → NodeId → UInt32 → β → Prop)
    (state : TermDag ρ × Memo β) : Prop :=
  ∀ node cutoff result, ((node, cutoff), result) ∈ state.2 → right state.1 node cutoff result

/-- A judgement about nodes that interning more nodes does not change. -/
def Stable {β : Type} (right : TermDag ρ → NodeId → UInt32 → β → Prop) : Prop :=
  ∀ dag dag' node cutoff result, dag.Grows dag' → right dag node cutoff result →
    right dag' node cutoff result

/-- The arena grew from `dag`, the memo is right, and the result is what `rel` says. -/
def Enlarges {β γ : Type} (right : TermDag ρ → NodeId → UInt32 → β → Prop)
    (rel : TermDag ρ → NodeId → UInt32 → γ → Prop) (dag : TermDag ρ) (node : NodeId)
    (cutoff : UInt32) (result : γ) (state : TermDag ρ × Memo β) : Prop :=
  dag.Grows state.1 ∧ MemoOk right state ∧ rel state.1 node cutoff result

/-- A fault that stops a memoised pass: 32 bits do not hold what it counts, or the arena, which
does not store the result yet, has no handle left. -/
def Blocked (fits stored : Prop) : Fault → Prop
  | .sizeOverflow | .panic => ¬ fits
  | .capacity => ¬ stored
  | .fuel => False

theorem Blocked.mono {fits stored fits' stored' : Prop} (hfits : fits → fits')
    (hstored : stored → stored') : ∀ fault, Blocked fits' stored' fault → Blocked fits stored fault
  | .sizeOverflow, h | .panic, h => fun h' => h (hfits h')
  | .capacity, h => fun h' => h (hstored h')
  | .fuel, h => h

section

variable {β : Type} {right : TermDag ρ → NodeId → UInt32 → β → Prop}

omit [DecidableEq ρ]

theorem MemoOk.lookup {dag : TermDag ρ} {memo : Memo β} (hmemo : MemoOk right (dag, memo))
    {node : NodeId} {cutoff : UInt32} {result : β}
    (hlookup : memo.lookup (node, cutoff) = some result) : right dag node cutoff result := by
  refine hmemo node cutoff result ?_
  obtain ⟨before, after, hmem, _⟩ := List.lookup_eq_some_iff.mp hlookup
  rw [hmem]
  simp

theorem MemoOk.mono (hstable : Stable right) {dag dag' : TermDag ρ} {memo : Memo β}
    (hext : dag.Grows dag') (hmemo : MemoOk right (dag, memo)) : MemoOk right (dag', memo) :=
  fun node cutoff result hmem => hstable _ _ _ _ _ hext (hmemo node cutoff result hmem)

theorem ends_remember {fails : Fault → Prop} {dag : TermDag ρ} {state : TermDag ρ × Memo β}
    {node : NodeId} {cutoff : UInt32} {result : β}
    (h : Enlarges right right dag node cutoff result state) :
    Exec.Ends fails (do remember node cutoff result; pure result) state
      (Enlarges right right dag node cutoff) := by
  obtain ⟨hext, hmemo, hresult⟩ := h
  refine ⟨hext, ?_, hresult⟩
  intro node' cutoff' result' hmem
  rcases List.mem_cons.mp hmem with h | h
  · cases h
    exact hresult
  · exact hmemo node' cutoff' result' h

variable {γ : Type} {rel : TermDag ρ → NodeId → UInt32 → γ → Prop} (hrel : Stable rel)
  {fails : Fault → Prop} {cutoff : UInt32} {nodes : List NodeId} {state : TermDag ρ × Memo β}
  (hmemo : MemoOk right state)

include hrel hmemo

theorem ends_traverseAt {f : NodeId → Exec Fault (TermDag ρ × Memo β) γ}
    (hf : ∀ node ∈ nodes, ∀ s : TermDag ρ × Memo β, state.1.Grows s.1 → MemoOk right s →
      Exec.Ends fails (f node) s (Enlarges right rel s.1 node cutoff)) :
    Exec.Ends fails (Exec.traverse f nodes) state fun results s' =>
      state.1.Grows s'.1 ∧ MemoOk right s' ∧
        List.Forall₂ (fun node result => rel s'.1 node cutoff result) nodes results := by
  have htrans : ∀ a b c : TermDag ρ × Memo β, a.1.Grows b.1 → b.1.Grows c.1 →
      a.1.Grows c.1 := fun _ _ _ => TermDag.Grows.trans
  exact Exec.ends_traverse (fun s => TermDag.Grows.refl s.1) htrans hmemo
    (fun _ _ _ _ hext h => hrel _ _ _ _ _ hext h) hf

theorem ends_traverseSomeAt {miss : NodeId → Prop}
    {f : NodeId → Exec Fault (TermDag ρ × Memo β) (Option γ)}
    (hf : ∀ node ∈ nodes, ∀ s : TermDag ρ × Memo β, state.1.Grows s.1 → MemoOk right s →
      Exec.Ends fails (f node) s fun result s' => s.1.Grows s'.1 ∧ MemoOk right s' ∧
        Exec.OptionCases (fun value => rel s'.1 node cutoff value) (miss node) result) :
    Exec.Ends fails (Exec.traverseSome f nodes) state fun results s' =>
      state.1.Grows s'.1 ∧ MemoOk right s' ∧
        Exec.OptionCases
          (fun values => List.Forall₂ (fun node value => rel s'.1 node cutoff value) nodes values)
          (∃ node ∈ nodes, miss node) results := by
  have htrans : ∀ a b c : TermDag ρ × Memo β, a.1.Grows b.1 → b.1.Grows c.1 →
      a.1.Grows c.1 := fun _ _ _ => TermDag.Grows.trans
  exact Exec.ends_traverseSome (fun s => TermDag.Grows.refl s.1) htrans hmemo
    (fun _ _ _ _ hext h => hrel _ _ _ _ _ hext h) hf

end

/-! ### Passes over a term -/

/-- A relation between a term and its image that goes through the term node by node, one deeper
below a binder. -/
structure Pass (image : Nat → DagTerm ρ → DagTerm ρ → Prop) : Prop where
  nil : ∀ {depth r}, image depth .nil r ↔ r = .nil
  cons : ∀ {depth t u r}, image depth (.cons t u) r ↔
    ∃ t' u', r = .cons t' u' ∧ image depth t t' ∧ image depth u u'
  app : ∀ {depth t u r}, image depth (.app t u) r ↔
    ∃ t' u', r = .app t' u' ∧ image depth t t' ∧ image depth u u'
  binder : ∀ {depth t u v r}, image depth (.binder t u v) r ↔ ∃ t' u' v', r = .binder t' u' v' ∧
    image depth t t' ∧ image depth u u' ∧ image (depth + 1) v v'
  unique : ∀ {depth t r r'}, image depth t r → image depth t r' → r = r'

def NodeData.Meets (depth : Nat) : NodeData ρ → NodeId → Nat → Prop
  | app op args, child, below => child ∈ op :: args ∧ below = depth
  | binder op sorts body, child, below =>
    child ∈ op :: sorts ∧ below = depth ∨ child = body ∧ below = depth + 1
  | _, _, _ => False

section

variable {image : Nat → DagTerm ρ → DagTerm ρ → Prop} {index : Nat → Nat → Prop}
  {dag : TermDag ρ} {node : NodeId} {cutoff : UInt32}

omit [DecidableEq ρ]

theorem NodeData.Meets.child {data : NodeData ρ} {child : NodeId} {depth below : Nat}
    (hmeets : data.Meets depth child below) : child ∈ data.children := by
  cases data with
  | app op args => exact hmeets.1
  | binder op sorts body =>
    simp only [Meets, children, List.mem_cons] at *
    tauto
  | _ => exact hmeets.elim

theorem fits_seq {limit depth : Nat} {ts : List (DagTerm ρ)} :
    (seq ts).Fits limit index depth ↔ ∀ t ∈ ts, t.Fits limit index depth := by
  induction ts with
  | nil => simp [seq, Term.Fits]
  | cons t ts ih => simp only [seq, Term.Fits, ih, List.forall_mem_cons]

theorem Pass.stored_seq (hpass : Pass image) {depth : Nat} {ts rs : List (DagTerm ρ)}
    (himage : image depth (seq ts) (seq rs)) (hrs : ∀ r ∈ rs, dag.Stored r) :
    ∀ t ∈ ts, ∃ r, image depth t r ∧ dag.Stored r := by
  induction ts generalizing rs with
  | nil => simp
  | cons t ts ih =>
    obtain ⟨r, u, hseq, ht, hts⟩ := hpass.cons.mp himage
    cases rs with
    | nil => cases hseq
    | cons r' rs =>
      cases hseq
      simp only [List.forall_mem_cons] at hrs ⊢
      exact ⟨⟨_, ht, hrs.1⟩, ih hts hrs.2⟩

/-- What a pass counts in the term fits 32 bits. -/
def Fitting (index : Nat → Nat → Prop) (depth : Nat) (t : DagTerm ρ) : Prop :=
  t.Fits (2 ^ 32) index depth

def Imaged (image : Nat → DagTerm ρ → DagTerm ρ → Prop) (dag : TermDag ρ) (depth : Nat)
    (t : DagTerm ρ) : Prop :=
  ∃ r, image depth t r ∧ dag.Stored r

def Stops (index : Nat → Nat → Prop) (image : Nat → DagTerm ρ → DagTerm ρ → Prop)
    (dag : TermDag ρ) (depth : Nat) (t : DagTerm ρ) : Fault → Prop :=
  Blocked (Fitting index depth t) (Imaged image dag depth t)

theorem Stops.child (hpass : Pass image) {data : NodeData ρ} (hdata : dag.nodes[node]? = some data)
    {depth below : Nat} {child : NodeId} (hmeets : data.Meets depth child below)
    {dag' : TermDag ρ} (hext : dag.Extends dag') (hchild : child < dag.len) (fault : Fault)
    (hfault : Stops index image dag' below (dag'.denote child) fault) :
    Stops index image dag depth (dag.denote node) fault := by
  have hterm := TermDag.denote_eq hdata
  refine Blocked.mono ?_ ?_ fault hfault
  · rw [hext.denote hchild, hterm]
    cases data with
    | app op args =>
      obtain ⟨hmem, rfl⟩ := hmeets
      rintro ⟨hop, hargs⟩
      rcases List.mem_cons.mp hmem with rfl | hmem
      · exact hop
      · exact fits_seq.mp hargs _ (List.mem_map_of_mem hmem)
    | binder op sorts body =>
      rintro ⟨hop, hsorts, _, hbody⟩
      rcases hmeets with ⟨hmem, rfl⟩ | ⟨rfl, rfl⟩
      · rcases List.mem_cons.mp hmem with rfl | hmem
        · exact hop
        · exact fits_seq.mp hsorts _ (List.mem_map_of_mem hmem)
      · exact hbody
    | _ => exact hmeets.elim
  · rw [hext.denote hchild, hterm]
    intro h
    have hhere : Imaged image dag below (dag.denote child) := by
      obtain ⟨r, himage, hstored⟩ := h
      cases data with
      | app op args =>
        obtain ⟨hmem, rfl⟩ := hmeets
        obtain ⟨t, u, rfl, hop, hargs⟩ := hpass.app.mp himage
        obtain ⟨rs, rfl, hstored, hrs⟩ := hstored.app
        rcases List.mem_cons.mp hmem with rfl | hmem
        · exact ⟨t, hop, hstored⟩
        · exact hpass.stored_seq hargs hrs _ (List.mem_map_of_mem hmem)
      | binder op sorts body =>
        obtain ⟨t, u, v, rfl, hop, hsorts, hbody⟩ := hpass.binder.mp himage
        obtain ⟨rs, rfl, hstored, hrs, hstored'⟩ := hstored.binder
        rcases hmeets with ⟨hmem, rfl⟩ | ⟨rfl, rfl⟩
        · rcases List.mem_cons.mp hmem with rfl | hmem
          · exact ⟨t, hop, hstored⟩
          · exact hpass.stored_seq hsorts hrs _ (List.mem_map_of_mem hmem)
        · exact ⟨v, hbody, hstored'⟩
      | _ => exact hmeets.elim
    obtain ⟨r, himage, hstored⟩ := hhere
    exact ⟨r, himage, hstored.mono hext⟩

structure Passed (index : Nat → Nat → Prop) (image : Nat → DagTerm ρ → DagTerm ρ → Prop)
    (dag : TermDag ρ) (node : NodeId) (cutoff : UInt32) (result : NodeId) : Prop where
  minted : node < dag.len
  returned : result < dag.len
  fits : Fitting index cutoff.toNat (dag.denote node)
  related : image cutoff.toNat (dag.denote node) (dag.denote result)

theorem Passed.stable (index : Nat → Nat → Prop) (image : Nat → DagTerm ρ → DagTerm ρ → Prop) :
    Stable (Passed index image) := by
  intro dag dag' node cutoff result hext h
  have hlen := hext.kept.len_le
  refine ⟨Nat.lt_of_lt_of_le h.minted hlen, Nat.lt_of_lt_of_le h.returned hlen, ?_, ?_⟩
  · rw [hext.kept.denote h.minted]
    exact h.fits
  · rw [hext.kept.denote h.minted, hext.kept.denote h.returned]
    exact h.related

theorem Passed.list (hpass : Pass image) {nodes results : List NodeId}
    (h : List.Forall₂ (fun node result => Passed index image dag node cutoff result) nodes results) :
    Fitting index cutoff.toNat (seq (nodes.map dag.denote)) ∧
      image cutoff.toNat (seq (nodes.map dag.denote)) (seq (results.map dag.denote)) ∧
      ∀ result ∈ results, result < dag.len := by
  induction h with
  | nil => exact ⟨trivial, hpass.nil.mpr rfl, by simp⟩
  | cons hhead _ ih =>
    refine ⟨⟨hhead.fits, ih.1⟩, hpass.cons.mpr ⟨_, _, rfl, hhead.related, ih.2.1⟩, ?_⟩
    exact List.forall_mem_cons.mpr ⟨hhead.returned, ih.2.2⟩

structure Rebuilt (index : Nat → Nat → Prop) (image : Nat → DagTerm ρ → DagTerm ρ → Prop)
    (dag dag' : TermDag ρ) (node : NodeId) (cutoff : UInt32) (built : NodeData ρ) : Prop where
  minted : node < dag.len
  grown : dag.Grows dag'
  children : ∀ child ∈ built.children, child < dag'.len
  fits : Fitting index cutoff.toNat (dag.denote node)
  related : image cutoff.toNat (dag.denote node) (built.term dag'.denote)

variable {dag' : TermDag ρ}

theorem rebuilt_app (hpass : Pass image) {op newOp : NodeId} {args newArgs : List NodeId}
    (hdata : dag.nodes[node]? = some (.app op args)) (hext : dag.Grows dag')
    (hop : Passed index image dag' op cutoff newOp)
    (hargs : List.Forall₂ (fun arg result => Passed index image dag' arg cutoff result) args
      newArgs) : Rebuilt index image dag dag' node cutoff (.app newOp newArgs) := by
  have hnode := (List.getElem?_eq_some_iff.mp hdata).1
  obtain ⟨hfits, hrelated, hreturned⟩ := Passed.list hpass hargs
  refine ⟨hnode, hext, ?_, ?_, ?_⟩
  · exact List.forall_mem_cons.mpr ⟨hop.returned, hreturned⟩
  · rw [← hext.kept.denote hnode, TermDag.denote_eq (hext.kept.nodes hdata)]
    exact ⟨hop.fits, hfits⟩
  · rw [← hext.kept.denote hnode, TermDag.denote_eq (hext.kept.nodes hdata)]
    exact hpass.app.mpr ⟨_, _, rfl, hop.related, hrelated⟩

theorem rebuilt_binder (hpass : Pass image) {op newOp body newBody : NodeId}
    {sorts newSorts : List NodeId} {under : UInt32}
    (hdata : dag.nodes[node]? = some (.binder op sorts body)) (hext : dag.Grows dag')
    (hop : Passed index image dag' op cutoff newOp)
    (hsorts : List.Forall₂ (fun sort result => Passed index image dag' sort cutoff result) sorts
      newSorts) (hunder : under.toNat = cutoff.toNat + 1)
    (hbody : Passed index image dag' body under newBody) :
    Rebuilt index image dag dag' node cutoff (.binder newOp newSorts newBody) := by
  have hnode := (List.getElem?_eq_some_iff.mp hdata).1
  obtain ⟨hfits, hrelated, hreturned⟩ := Passed.list hpass hsorts
  have hbodyFits := hbody.fits
  have hbodyRelated := hbody.related
  rw [hunder] at hbodyFits hbodyRelated
  refine ⟨hnode, hext, ?_, ?_, ?_⟩
  · exact List.forall_mem_cons.mpr
      ⟨hop.returned, List.forall_mem_cons.mpr ⟨hbody.returned, hreturned⟩⟩
  · rw [← hext.kept.denote hnode, TermDag.denote_eq (hext.kept.nodes hdata)]
    exact ⟨hop.fits, hfits, hunder ▸ under.toNat_lt, hbodyFits⟩
  · rw [← hext.kept.denote hnode, TermDag.denote_eq (hext.kept.nodes hdata)]
    exact hpass.binder.mpr ⟨_, _, _, rfl, hop.related, hrelated, hbodyRelated⟩

end

section

variable {image : Nat → DagTerm ρ → DagTerm ρ → Prop} {index : Nat → Nat → Prop}
  {dag : TermDag ρ} {node : NodeId} {cutoff : UInt32} {β : Type}
  {right : TermDag ρ → NodeId → UInt32 → β → Prop} {state : TermDag ρ × Memo β}

/-- Interning the shape of a parent keeps the memo and gives the parent's image. -/
theorem ends_rebuilt (hpass : Pass image) (hstable : Stable right) (hmemo : MemoOk right state)
    {built : NodeData ρ} (hbuilt : Rebuilt index image dag state.1 node cutoff built) :
    Exec.Ends (Stops index image dag cutoff.toNat (dag.denote node)) (Exec.onFst (intern built))
      state (Enlarges right (Passed index image) dag node cutoff) := by
  obtain ⟨arena, memo⟩ := state
  have hext := hbuilt.grown
  refine (Exec.ends_onFst (ends_intern arena hbuilt.children)).mono ?_ ?_
  · rintro fault ⟨rfl, hnew⟩ ⟨r, himage, hstored⟩
    exact hnew (hpass.unique himage hbuilt.related ▸ hstored.mono hext.kept)
  · rintro result ⟨arena', memo'⟩ ⟨⟨hext', hdata⟩, rfl⟩
    have hall := hext.trans hext'
    have hsame := hall.kept.denote hbuilt.minted
    have hterm := NodeData.term_congr fun child hmem =>
      hext'.kept.denote (hbuilt.children child hmem)
    refine ⟨hall, hmemo.mono hstable hext', Nat.lt_of_lt_of_le hbuilt.minted hall.kept.len_le,
      (TermDag.holds_of_data hdata).minted, hsame ▸ hbuilt.fits, ?_⟩
    rw [hsame, TermDag.denote_eq hdata, hterm]
    exact hbuilt.related

variable {fails : Fault → Prop} {visit : NodeId → UInt32 → Exec Fault (TermDag ρ × Memo NodeId) NodeId}

def VisitsChildren (index : Nat → Nat → Prop) (image : Nat → DagTerm ρ → DagTerm ρ → Prop)
    (fails : Fault → Prop) (visit : NodeId → UInt32 → Exec Fault (TermDag ρ × Memo NodeId) NodeId)
    (dag : TermDag ρ) (cutoff : UInt32) (data : NodeData ρ) : Prop :=
  ∀ child cut (s : TermDag ρ × Memo NodeId), data.Meets cutoff.toNat child cut.toNat →
    dag.Grows s.1 → MemoOk (Passed index image) s →
    Exec.Ends fails (visit child cut) s (Enlarges (Passed index image) (Passed index image) s.1 child cut)

variable {memo : Memo NodeId} (hpass : Pass image) (hmemo : MemoOk (Passed index image) (dag, memo))
  (hstops : ∀ fault, Stops index image dag cutoff.toNat (dag.denote node) fault → fails fault)

include hpass hmemo hstops

theorem ends_app {op : NodeId} {args : List NodeId} (hdata : dag.nodes[node]? = some (.app op args))
    (hcall : VisitsChildren index image fails visit dag cutoff (.app op args)) :
    Exec.Ends fails (do
      let newOp ← visit op cutoff
      let newArgs ← Exec.traverse (fun arg => visit arg cutoff) args
      Exec.onFst (internApp newOp newArgs)) (dag, memo)
      (Enlarges (Passed index image) (Passed index image) dag node cutoff) := by
  have hstable : Stable (Passed index image) := Passed.stable _ _
  refine Exec.ends_bind _ (hcall op cutoff _ (by simp [NodeData.Meets]) (.refl _) hmemo) ?_
  rintro newOp state₁ ⟨hext₁, hmemo₁, hop⟩
  refine Exec.ends_bind _ (ends_traverseAt hstable hmemo₁ fun arg harg s hle =>
    hcall arg cutoff s (by simp [NodeData.Meets, harg]) (hext₁.trans hle)) ?_
  rintro newArgs state₂ ⟨hext₂, hmemo₂, hargs⟩
  exact (ends_rebuilt hpass hstable hmemo₂ (rebuilt_app hpass hdata (hext₁.trans hext₂)
    (hstable _ _ _ _ _ hext₂ hop) hargs)).mono hstops fun _ _ h => h

theorem ends_binder {op body : NodeId} {sorts : List NodeId}
    (hdata : dag.nodes[node]? = some (.binder op sorts body))
    (hcall : VisitsChildren index image fails visit dag cutoff (.binder op sorts body))
    (hdeep : ∀ fault, succDepth cutoff = .error fault → fails fault) :
    Exec.Ends fails (do
      let newOp ← visit op cutoff
      let newSorts ← Exec.traverse (fun sort => visit sort cutoff) sorts
      let under ← Exec.lift (succDepth cutoff)
      let newBody ← visit body under
      Exec.onFst (internBinder newOp newSorts newBody)) (dag, memo)
      (Enlarges (Passed index image) (Passed index image) dag node cutoff) := by
  have hstable : Stable (Passed index image) := Passed.stable _ _
  refine Exec.ends_bind _ (hcall op cutoff _ (by simp [NodeData.Meets]) (.refl _) hmemo) ?_
  rintro newOp state₁ ⟨hext₁, hmemo₁, hop⟩
  refine Exec.ends_bind _ (ends_traverseAt hstable hmemo₁ fun sort hsort s hle =>
    hcall sort cutoff s (by simp [NodeData.Meets, hsort]) (hext₁.trans hle)) ?_
  rintro newSorts state₂ ⟨hext₂, hmemo₂, hsorts⟩
  have hext₁₂ := hext₁.trans hext₂
  refine Exec.ends_lift_bind hdeep fun under hunder => ?_
  have hdeeper := succDepth_ok hunder
  refine Exec.ends_bind _ (hcall body under state₂ (by simp [NodeData.Meets, hdeeper]) hext₁₂ hmemo₂) ?_
  rintro newBody state₃ ⟨hext₃, hmemo₃, hbody⟩
  exact (ends_rebuilt hpass hstable hmemo₃ (rebuilt_binder hpass hdata (hext₁₂.trans hext₃)
    (hstable _ _ _ _ _ (hext₂.trans hext₃) hop)
    (hsorts.imp fun _ _ h => hstable _ _ _ _ _ hext₃ h) hdeeper hbody)).mono hstops fun _ _ h => h

end

/-! ### `shift` on denotations -/

omit [DecidableEq ρ] in
theorem pass_map {f : Nat → DagTerm ρ → DagTerm ρ} (hnil : ∀ depth, f depth .nil = .nil)
    (hcons : ∀ depth t u, f depth (.cons t u) = .cons (f depth t) (f depth u))
    (happ : ∀ depth t u, f depth (.app t u) = .app (f depth t) (f depth u))
    (hbinder : ∀ depth t u v,
      f depth (.binder t u v) = .binder (f depth t) (f depth u) (f (depth + 1) v)) :
    Pass fun depth t r => f depth t = r where
  nil := by
    intro depth r
    rw [hnil]
    exact eq_comm
  cons := by
    intro depth t u r
    rw [hcons]
    constructor
    · rintro rfl
      exact ⟨_, _, rfl, rfl, rfl⟩
    · rintro ⟨_, _, rfl, rfl, rfl⟩
      rfl
  app := by
    intro depth t u r
    rw [happ]
    constructor
    · rintro rfl
      exact ⟨_, _, rfl, rfl, rfl⟩
    · rintro ⟨_, _, rfl, rfl, rfl⟩
      rfl
  binder := by
    intro depth t u v r
    rw [hbinder]
    constructor
    · rintro rfl
      exact ⟨_, _, _, rfl, rfl, rfl, rfl⟩
    · rintro ⟨_, _, _, rfl, rfl, rfl, rfl⟩
      rfl
  unique := fun h h' => h.symm.trans h'

def raisesTo (amount depth : Nat) (t r : DagTerm ρ) : Prop := t.shift amount depth = r

/-- An index that 32 bits hold, raised as well if it is free at its depth. -/
def raises (amount depth debruijn : Nat) : Prop :=
  debruijn < 2 ^ 32 ∧ (depth ≤ debruijn → debruijn + amount < 2 ^ 32)

abbrev Shifted (amount : UInt32) : TermDag ρ → NodeId → UInt32 → NodeId → Prop :=
  Passed (raises amount.toNat) (raisesTo amount.toNat)

abbrev ShiftStops (amount : UInt32) : TermDag ρ → Nat → DagTerm ρ → Fault → Prop :=
  Stops (raises amount.toNat) (raisesTo amount.toNat)

omit [DecidableEq ρ] in
theorem pass_shift (amount : Nat) : Pass (raisesTo (ρ := ρ) amount) :=
  pass_map (fun _ => rfl) (fun _ _ _ => rfl) (fun _ _ _ => rfl) fun _ _ _ _ => rfl

/-- `shiftAt` with enough fuel for the node returns its shift, unless what it counts outgrows 32
bits or the arena runs out of handles for it. -/
theorem ends_shiftAt (amount : UInt32) (fuel : Nat) :
    ∀ (node : NodeId) (cutoff : UInt32) (state : TermDag ρ × Memo NodeId),
      node < fuel → node < state.1.len → MemoOk (Shifted amount) state →
      Exec.Ends (ShiftStops amount state.1 cutoff.toNat (state.1.denote node))
        (shiftAt amount fuel node cutoff) state
        (Enlarges (Shifted amount) (Shifted amount) state.1 node cutoff) := by
  have hpass : Pass (raisesTo (ρ := ρ) amount.toNat) := pass_shift amount.toNat
  have hstable : Stable (Shifted (ρ := ρ) amount) := Passed.stable _ _
  induction fuel with
  | zero =>
    intro node cutoff state hfuel
    exact absurd hfuel (Nat.not_lt_zero _)
  | succ fuel ih =>
    rintro node cutoff ⟨dag, memo⟩ hfuel hnode hmemo
    have hstart : dag.Grows (dag, memo).1 := TermDag.Grows.refl _
    unfold shiftAt
    refine Exec.ends_get_bind ?_
    dsimp only
    split
    · next cached hcached => exact Exec.ends_pure ⟨hstart, hmemo, hmemo.lookup hcached⟩
    refine Exec.ends_bind _ ?_ fun result state' h => ends_remember h
    refine Exec.ends_lift_bind (fun fault h => absurd h (data_ne_error hnode)) fun data hdata => ?_
    replace hdata := data_ok hdata
    have hterm := TermDag.denote_eq hdata
    have hcall : VisitsChildren (raises amount.toNat) (raisesTo amount.toNat)
        (ShiftStops amount dag cutoff.toNat (dag.denote node)) (shiftAt amount fuel) dag cutoff
        data := by
      intro child cut s hmeets hext hinv
      have hlt := TermDag.child_lt hdata hmeets.child
      exact (ih child cut s (Nat.lt_of_lt_of_le (dag.closed node data hdata child hmeets.child)
        (Nat.le_of_lt_succ hfuel)) (Nat.lt_of_lt_of_le hlt hext.kept.len_le) hinv).mono
        (Stops.child hpass hdata hmeets hext.kept hlt) fun _ _ h => h
    cases data with
    | bound debruijn slot =>
      have hsmall := debruijn.toNat_lt
      dsimp only
      split
      · next hcut =>
          have hcut' : cutoff.toNat ≤ debruijn.toNat := UInt32.le_iff_toNat_le.mp hcut
          refine Exec.ends_lift_bind ?_ fun raised hraised => ?_
          · intro fault hfault
            obtain ⟨rfl, hover⟩ := checkedAdd_error hfault
            rw [hterm]
            exact fun hfits => hover (hfits.2 hcut')
          · have hsum := checkedAdd_ok hraised
            refine ends_rebuilt hpass hstable hmemo ⟨hnode, hstart, by simp [NodeData.children],
              ?_, ?_⟩
            · rw [hterm]
              exact ⟨hsmall, fun _ => hsum ▸ raised.toNat_lt⟩
            · simp only [raisesTo, hterm, NodeData.term, Term.shift, hcut', if_true, hsum]
      · next hcut =>
          have hcut' : ¬ cutoff.toNat ≤ debruijn.toNat :=
            fun h => hcut (UInt32.le_iff_toNat_le.mpr h)
          refine Exec.ends_pure ⟨hstart, hmemo, hnode, hnode, ?_, ?_⟩
          · rw [hterm]
            exact ⟨hsmall, fun h => absurd h hcut'⟩
          · simp only [raisesTo, hterm, NodeData.term, Term.shift, hcut', if_false]
    | app op args => exact ends_app hpass hmemo (fun _ h => h) hdata hcall
    | binder op sorts body =>
      refine ends_binder hpass hmemo (fun _ h => h) hdata hcall fun fault hfault => ?_
      obtain ⟨rfl, hover⟩ := succDepth_error hfault
      rw [hterm]
      exact fun h => hover h.2.2.1
    | _ =>
      refine Exec.ends_pure ⟨hstart, hmemo, hnode, hnode, ?_, ?_⟩
      · rw [hterm]
        trivial
      · rw [hterm]
        rfl

/-- `shift` from the top of a term. -/
theorem ends_shift {node : NodeId} (hnode : node < dag.len) (amount : UInt32) :
    Exec.Ends (ShiftStops amount dag 0 (dag.denote node)) (shift node amount) dag
      fun result dag' => dag.Grows dag' ∧
        dag'.Holds result ((dag.denote node).shift amount.toNat 0) ∧
        (amount ≠ 0 → Fitting (raises amount.toNat) 0 (dag.denote node)) := by
  unfold shift
  split
  · next hzero =>
      refine Exec.ends_pure ⟨TermDag.Grows.refl _, ⟨hnode, ?_⟩, fun h => absurd hzero h⟩
      rw [hzero, UInt32.toNat_zero, Term.shift_zero]
  · have hempty : MemoOk (Shifted amount) (dag, []) := fun _ _ _ hmem => by cases hmem
    refine Exec.ends_withScratch ((ends_shiftAt amount (node + 1) node 0 (dag, [])
      (Nat.lt_succ_self _) hnode hempty).mono (fun _ h => h) ?_)
    rintro result ⟨dag', memo⟩ ⟨hext, _, hresult⟩
    have hdenote : dag'.denote node = dag.denote node := hext.kept.denote hnode
    exact ⟨hext, ⟨hresult.returned, hdenote ▸ hresult.related.symm⟩, fun _ => hdenote ▸ hresult.fits⟩

/-! ### `shiftDown` on denotations -/

omit [DecidableEq ρ] in
theorem escapes_seq {amount cutoff : Nat} {ts : List (DagTerm ρ)} :
    (seq ts).Escapes amount cutoff ↔ ∃ t ∈ ts, t.Escapes amount cutoff := by
  induction ts with
  | nil => simp [seq, Term.Escapes]
  | cons t ts ih => simp only [seq, Term.Escapes, ih, List.exists_mem_cons_iff]

/-- The node denotes the shift of what the result denotes. -/
def lowersTo (amount depth : Nat) (t r : DagTerm ρ) : Prop := r.shift amount depth = t

/-- An index that 32 bits hold, and the end of the range it is compared with if it is free at its
depth. -/
def lowers (amount depth debruijn : Nat) : Prop :=
  debruijn < 2 ^ 32 ∧ (depth ≤ debruijn → depth + amount < 2 ^ 32)

abbrev LoweredTo (amount : UInt32) : TermDag ρ → NodeId → UInt32 → NodeId → Prop :=
  Passed (lowers amount.toNat) (lowersTo amount.toNat)

abbrev LowerStops (amount : UInt32) : TermDag ρ → Nat → DagTerm ρ → Fault → Prop :=
  Stops (lowers amount.toNat) (lowersTo amount.toNat)

/-- What a lowering answers: a node it is the shift of, or that there is none
because a bound variable escapes. -/
def Lowered (amount : UInt32) (dag : TermDag ρ) (node : NodeId) (cutoff : UInt32) :
    Option NodeId → Prop
  | some result => LoweredTo amount dag node cutoff result
  | none => node < dag.len ∧ (dag.denote node).Escapes amount.toNat cutoff.toNat

omit [DecidableEq ρ] in
theorem Lowered.stable (amount : UInt32) : Stable (@Lowered ρ amount) := by
  intro dag dag' node cutoff result hext h
  cases result with
  | some result => exact Passed.stable _ _ _ _ _ _ _ hext h
  | none =>
    refine ⟨Nat.lt_of_lt_of_le h.1 hext.kept.len_le, ?_⟩
    rw [hext.kept.denote h.1]
    exact h.2

omit [DecidableEq ρ] in
theorem pass_unshift (amount : Nat) : Pass (lowersTo (ρ := ρ) amount) := by
  constructor
  case unique =>
    intro depth t r r' h h'
    exact Term.shift_injective (h.trans h'.symm)
  all_goals
    intros
    rename_i r
    cases r <;> grind [lowersTo, Term.shift]

omit [DecidableEq ρ] in
theorem fitting_shift {amount depth : Nat} {t : DagTerm ρ} :
    Fitting (lowers amount) depth (t.shift amount depth) ↔ Fitting (raises amount) depth t := by
  apply Term.fits_shift <;> intro depth debruijn h <;> unfold lowers raises <;> omega

/-- `shiftDownAt` with enough fuel for the node returns what the node is the shift of, or that a
variable escapes, under the same reservations. -/
theorem ends_shiftDownAt (amount : UInt32) (fuel : Nat) :
    ∀ (node : NodeId) (cutoff : UInt32) (state : TermDag ρ × Memo (Option NodeId)),
      node < fuel → node < state.1.len → MemoOk (Lowered amount) state →
      Exec.Ends (LowerStops amount state.1 cutoff.toNat (state.1.denote node))
        (shiftDownAt amount fuel node cutoff) state
        (Enlarges (Lowered amount) (Lowered amount) state.1 node cutoff) := by
  have hpass : Pass (lowersTo (ρ := ρ) amount.toNat) := pass_unshift amount.toNat
  have hstable : Stable (Lowered (ρ := ρ) amount) := Lowered.stable amount
  have hstableTo : Stable (LoweredTo (ρ := ρ) amount) := Passed.stable _ _
  induction fuel with
  | zero =>
    intro node cutoff state hfuel
    exact absurd hfuel (Nat.not_lt_zero _)
  | succ fuel ih =>
    rintro node cutoff ⟨dag, memo⟩ hfuel hnode hmemo
    have hstart : dag.Grows (dag, memo).1 := TermDag.Grows.refl _
    unfold shiftDownAt
    refine Exec.ends_get_bind ?_
    dsimp only
    split
    · next cached hcached => exact Exec.ends_pure ⟨hstart, hmemo, hmemo.lookup hcached⟩
    refine Exec.ends_lift_bind (fun fault h => absurd h (data_ne_error hnode)) fun data hdata => ?_
    replace hdata := data_ok hdata
    have hterm := TermDag.denote_eq hdata
    have hcall : ∀ (child : NodeId) (cut : UInt32) (s : TermDag ρ × Memo (Option NodeId)),
        data.Meets cutoff.toNat child cut.toNat → dag.Grows s.1 → MemoOk (Lowered amount) s →
        Exec.Ends (LowerStops amount dag cutoff.toNat (dag.denote node))
          (shiftDownAt amount fuel child cut) s fun result s' => s.1.Grows s'.1 ∧
            MemoOk (Lowered amount) s' ∧
              Exec.OptionCases (fun value => LoweredTo amount s'.1 child cut value)
                ((dag.denote child).Escapes amount.toNat cut.toNat) result := by
      intro child cut s hmeets hext hinv
      have hlt := TermDag.child_lt hdata hmeets.child
      refine (ih child cut s (Nat.lt_of_lt_of_le (dag.closed node data hdata child hmeets.child)
        (Nat.le_of_lt_succ hfuel)) (Nat.lt_of_lt_of_le hlt hext.kept.len_le) hinv).mono
        (Stops.child hpass hdata hmeets hext.kept hlt) ?_
      rintro result s' ⟨hext', hinv', hresult⟩
      refine ⟨hext', hinv', ?_⟩
      cases result with
      | some result => exact hresult
      | none => exact (hext.trans hext').kept.denote hlt ▸ hresult.2
    -- A child of which a variable escapes decides the node, and nothing is remembered.
    have hnone : ∀ s : TermDag ρ × Memo (Option NodeId), dag.Grows s.1 →
        MemoOk (Lowered amount) s → (dag.denote node).Escapes amount.toNat cutoff.toNat →
        Exec.Ends (LowerStops amount dag cutoff.toNat (dag.denote node)) (pure none) s
          (Enlarges (Lowered amount) (Lowered amount) dag node cutoff) := by
      intro s hext hinv hescapes
      refine Exec.ends_pure ⟨hext, hinv, Nat.lt_of_lt_of_le hnode hext.kept.len_le, ?_⟩
      rw [hext.kept.denote hnode]
      exact hescapes
    have hfinish : ∀ (built : NodeData ρ) (s : TermDag ρ × Memo (Option NodeId)),
        MemoOk (Lowered amount) s →
        Rebuilt (lowers amount.toNat) (lowersTo amount.toNat) dag s.1 node cutoff built →
        Exec.Ends (LowerStops amount dag cutoff.toNat (dag.denote node))
          (do
            let lowered ← Exec.onFst (intern built)
            remember node cutoff (some lowered)
            pure (some lowered)) s (Enlarges (Lowered amount) (Lowered amount) dag node cutoff) :=
      fun built s hinv hbuilt => Exec.ends_bind _ (ends_rebuilt hpass hstable hinv hbuilt)
        fun lowered s' h => ends_remember ⟨h.1, h.2.1, h.2.2⟩
    cases data with
    | bound debruijn slot =>
      have hsmall := debruijn.toNat_lt
      dsimp only
      split
      · next hcut =>
          have hcut' : ¬ cutoff.toNat ≤ debruijn.toNat :=
            Nat.not_le.mpr (UInt32.lt_iff_toNat_lt.mp hcut)
          refine ends_remember ⟨hstart, hmemo, hnode, hnode, ?_, ?_⟩
          · rw [hterm]
            exact ⟨hsmall, fun h => absurd h hcut'⟩
          · simp only [lowersTo, hterm, NodeData.term, Term.shift, hcut', if_false]
      · next hcut =>
          have hcut' : cutoff.toNat ≤ debruijn.toNat :=
            Nat.le_of_not_lt fun h => hcut (UInt32.lt_iff_toNat_lt.mpr h)
          refine Exec.ends_lift_bind ?_ fun stop hstop => ?_
          · intro fault hfault
            obtain ⟨rfl, hover⟩ := checkedAdd_error hfault
            rw [hterm]
            exact fun hfits => hover (hfits.2 hcut')
          have hsum := checkedAdd_ok hstop
          split
          · next hescape =>
              have hlt := UInt32.lt_iff_toNat_lt.mp hescape
              rw [hsum] at hlt
              refine ends_remember ⟨hstart, hmemo, hnode, ?_⟩
              rw [hterm]
              exact ⟨hcut', hlt⟩
          · next hescape =>
              have hge : cutoff.toNat + amount.toNat ≤ debruijn.toNat := by
                rw [← hsum]
                exact Nat.le_of_not_lt fun h => hescape (UInt32.lt_iff_toNat_lt.mpr h)
              have hsub : (debruijn - amount).toNat = debruijn.toNat - amount.toNat :=
                UInt32.toNat_sub_of_le _ _
                  (UInt32.le_iff_toNat_le.mpr (Nat.le_trans (Nat.le_add_left _ _) hge))
              have hlow : cutoff.toNat ≤ debruijn.toNat - amount.toNat := Nat.le_sub_of_add_le hge
              have hback : debruijn.toNat - amount.toNat + amount.toNat = debruijn.toNat :=
                Nat.sub_add_cancel (Nat.le_trans (Nat.le_add_left _ _) hge)
              refine hfinish (.bound (debruijn - amount) slot) _ hmemo
                ⟨hnode, hstart, by simp [NodeData.children], ?_, ?_⟩
              · rw [hterm]
                exact ⟨hsmall, fun _ => hsum ▸ stop.toNat_lt⟩
              · simp only [lowersTo, hterm, NodeData.term, Term.shift, hsub, hlow, if_true, hback]
    | app op args =>
      refine Exec.ends_bind _ (hcall op cutoff _ (by simp [NodeData.Meets]) hstart hmemo) ?_
      rintro newOp state₁ ⟨hext₁, hmemo₁, hop⟩
      cases newOp with
      | none =>
        refine hnone _ hext₁ hmemo₁ ?_
        rw [hterm]
        exact Or.inl hop
      | some newOp =>
      refine Exec.ends_bind _ (ends_traverseSomeAt hstableTo hmemo₁ fun arg harg s hle =>
        hcall arg cutoff s (by simp [NodeData.Meets, harg]) (hext₁.trans hle)) ?_
      rintro newArgs state₂ ⟨hext₂, hmemo₂, hargs⟩
      cases newArgs with
      | none =>
        obtain ⟨arg, harg, hmiss⟩ := hargs
        refine hnone _ (hext₁.trans hext₂) hmemo₂ ?_
        rw [hterm]
        exact Or.inr (escapes_seq.mpr ⟨_, List.mem_map_of_mem harg, hmiss⟩)
      | some newArgs =>
      exact hfinish _ _ hmemo₂ (rebuilt_app hpass hdata (hext₁.trans hext₂)
        (hstableTo _ _ _ _ _ hext₂ hop) hargs)
    | binder op sorts body =>
      refine Exec.ends_bind _ (hcall op cutoff _ (by simp [NodeData.Meets]) hstart hmemo) ?_
      rintro newOp state₁ ⟨hext₁, hmemo₁, hop⟩
      cases newOp with
      | none =>
        refine hnone _ hext₁ hmemo₁ ?_
        rw [hterm]
        exact Or.inl hop
      | some newOp =>
      refine Exec.ends_bind _ (ends_traverseSomeAt hstableTo hmemo₁ fun sort hsort s hle =>
        hcall sort cutoff s (by simp [NodeData.Meets, hsort]) (hext₁.trans hle)) ?_
      rintro newSorts state₂ ⟨hext₂, hmemo₂, hsorts⟩
      cases newSorts with
      | none =>
        obtain ⟨sort, hsort, hmiss⟩ := hsorts
        refine hnone _ (hext₁.trans hext₂) hmemo₂ ?_
        rw [hterm]
        exact Or.inr (Or.inl (escapes_seq.mpr ⟨_, List.mem_map_of_mem hsort, hmiss⟩))
      | some newSorts =>
      refine Exec.ends_lift_bind ?_ fun under hunder => ?_
      · intro fault hfault
        obtain ⟨rfl, hover⟩ := checkedAdd_error hfault
        rw [hterm]
        exact fun h => hover h.2.2.1
      have hdeeper : under.toNat = cutoff.toNat + 1 := checkedAdd_ok hunder
      refine Exec.ends_bind _ (hcall body under state₂ (by simp [NodeData.Meets, hdeeper])
        (hext₁.trans hext₂) hmemo₂) ?_
      rintro newBody state₃ ⟨hext₃, hmemo₃, hbody⟩
      cases newBody with
      | none =>
        refine hnone _ ((hext₁.trans hext₂).trans hext₃) hmemo₃ ?_
        rw [hterm]
        exact Or.inr (Or.inr (hdeeper ▸ hbody))
      | some newBody =>
      exact hfinish _ _ hmemo₃ (rebuilt_binder hpass hdata ((hext₁.trans hext₂).trans hext₃)
        (hstableTo _ _ _ _ _ (hext₂.trans hext₃) hop)
        (hsorts.imp fun _ _ h => hstableTo _ _ _ _ _ hext₃ h) hdeeper hbody)
    | _ =>
      refine ends_remember ⟨hstart, hmemo, hnode, hnode, ?_, ?_⟩
      · rw [hterm]
        trivial
      · rw [hterm]
        rfl

/-- `shiftDown` from the top of a term. -/
theorem ends_shiftDown {node : NodeId} (hnode : node < dag.len) (amount : UInt32) :
    Exec.Ends (LowerStops amount dag 0 (dag.denote node)) (shiftDown node amount) dag
      fun result dag' => dag.Grows dag' ∧
        match result with
        | some lowered => lowered < dag'.len ∧
            (dag'.denote lowered).shift amount.toNat 0 = dag.denote node ∧
            (amount ≠ 0 → Fitting (lowers amount.toNat) 0 (dag.denote node))
        | none => (dag.denote node).Escapes amount.toNat 0 := by
  unfold shiftDown
  split
  · next hzero =>
      refine Exec.ends_pure ⟨TermDag.Grows.refl _, hnode, ?_, fun h => absurd hzero h⟩
      rw [hzero, UInt32.toNat_zero, Term.shift_zero]
  · have hempty : MemoOk (Lowered amount) (dag, []) := fun _ _ _ hmem => by cases hmem
    refine Exec.ends_withScratch ((ends_shiftDownAt amount (node + 1) node 0 (dag, [])
      (Nat.lt_succ_self _) hnode hempty).mono (fun _ h => h) ?_)
    rintro result ⟨dag', memo⟩ ⟨hext, _, hresult⟩
    have hdenote : dag'.denote node = dag.denote node := hext.kept.denote hnode
    refine ⟨hext, ?_⟩
    cases result with
    | some lowered =>
      exact ⟨hresult.returned, hdenote ▸ hresult.related, fun _ => hdenote ▸ hresult.fits⟩
    | none => exact hdenote ▸ hresult.2

/-! ### Shifting is invertible -/

theorem Blocked.not_of {fits stored : Prop} (hfits : fits) (hstored : stored) (fault : Fault) :
    ¬ Blocked fits stored fault := by
  cases fault with
  | sizeOverflow | panic => exact fun h => h hfits
  | capacity => exact fun h => h hstored
  | fuel => exact id

omit [DecidableEq ρ] in
theorem same_handle {dag' : TermDag ρ} (hext : dag.Extends dag') {node other : NodeId}
    (hnode : node < dag.len) (hother : other < dag'.len)
    (hsame : dag'.denote other = dag.denote node) : other = node :=
  TermDag.denote_injective hother (Nat.lt_of_lt_of_le hnode hext.len_le)
    (hsame.trans (hext.denote hnode).symm)

theorem shiftDown_shift {node raised : NodeId} {dag' : TermDag ρ} (hnode : node < dag.len)
    {amount : UInt32} (hshift : shift node amount dag = (.ok raised, dag')) :
    ∃ dag'', shiftDown raised amount dag' = (.ok (some node), dag'') := by
  rcases eq_or_ne amount 0 with rfl | hne
  · cases hshift
    exact ⟨dag, rfl⟩
  obtain ⟨hext, hholds, hfits⟩ := (ends_shift hnode amount).returned hshift
  have hstored : dag'.Stored (dag.denote node) :=
    ⟨node, Nat.lt_of_lt_of_le hnode hext.kept.len_le, hext.kept.denote hnode⟩
  obtain ⟨answer, dag'', hrun, hext', hanswer⟩ := (ends_shiftDown hholds.minted amount).returns
    (Blocked.not_of (hholds.denotes ▸ fitting_shift.mpr (hfits hne))
      ⟨_, hholds.denotes.symm, hstored⟩)
  cases answer with
  | none => exact absurd (hholds.denotes ▸ hanswer) (Term.not_escapes_shift _ _ _)
  | some lowered =>
    obtain ⟨hlowered, hdenote, _⟩ := hanswer
    have hback := same_handle (hext.trans hext').kept hnode hlowered
      (Term.shift_injective (hdenote.trans hholds.denotes))
    exact ⟨dag'', hback ▸ hrun⟩

theorem shift_shiftDown {node lowered : NodeId} {dag' : TermDag ρ} (hnode : node < dag.len)
    {amount : UInt32} (hlower : shiftDown node amount dag = (.ok (some lowered), dag')) :
    ∃ dag'', shift lowered amount dag' = (.ok node, dag'') := by
  rcases eq_or_ne amount 0 with rfl | hne
  · cases hlower
    exact ⟨dag, rfl⟩
  obtain ⟨hext, hminted, hdenote, hfits⟩ := (ends_shiftDown hnode amount).returned hlower
  have hstored : dag'.Stored (dag.denote node) :=
    ⟨node, Nat.lt_of_lt_of_le hnode hext.kept.len_le, hext.kept.denote hnode⟩
  obtain ⟨raised, dag'', hrun, hext', hholds, _⟩ := (ends_shift hminted amount).returns
    (Blocked.not_of (fitting_shift.mp (hdenote ▸ hfits hne)) ⟨_, hdenote, hstored⟩)
  have hback := same_handle (hext.trans hext').kept hnode hholds.minted
    (hholds.denotes.trans hdenote)
  exact ⟨dag'', hback ▸ hrun⟩

theorem shiftDown_none_iff {node : NodeId} {answer : Option NodeId} {dag' : TermDag ρ}
    (hnode : node < dag.len) {amount : UInt32}
    (hlower : shiftDown node amount dag = (.ok answer, dag')) :
    answer = none ↔ (dag.denote node).Escapes amount.toNat 0 := by
  obtain ⟨_, hanswer⟩ := (ends_shiftDown hnode amount).returned hlower
  cases answer with
  | none => exact iff_of_true rfl hanswer
  | some lowered =>
    refine iff_of_false (by simp) ?_
    rw [← hanswer.2.1]
    exact Term.not_escapes_shift _ _ _

/-- Shifting a node and lowering it are inverse to each other wherever the first of the two
returns, and the lowering finds nothing exactly for a node a variable of which is bound by the
binders it strips. Either stops only when 32 bits do not hold what it counts or the arena is out of
handles. -/
theorem shift_invertible {node : NodeId} (hnode : node < dag.len) (amount : UInt32) :
    (∀ raised dag', shift node amount dag = (.ok raised, dag') →
      ∃ dag'', shiftDown raised amount dag' = (.ok (some node), dag'')) ∧
    (∀ lowered dag', shiftDown node amount dag = (.ok (some lowered), dag') →
      ∃ dag'', shift lowered amount dag' = (.ok node, dag'')) ∧
    (∀ answer dag', shiftDown node amount dag = (.ok answer, dag') →
      (answer = none ↔ (dag.denote node).Escapes amount.toNat 0)) ∧
    (∀ fault, (shift node amount dag).1 = .error fault →
      ShiftStops amount dag 0 (dag.denote node) fault) ∧
    ∀ fault, (shiftDown node amount dag).1 = .error fault →
      LowerStops amount dag 0 (dag.denote node) fault :=
  ⟨fun _ _ => shiftDown_shift hnode, fun _ _ => shift_shiftDown hnode,
    fun _ _ => shiftDown_none_iff hnode, fun _ => (ends_shift hnode amount).stopped,
    fun _ => (ends_shiftDown hnode amount).stopped⟩

/-- The largest index, and a binder over a variable of the scope around it. -/
def outerDag : TermDag Nat :=
  (do
    let quantifier ← intern (.leaf 0)
    let _ ← internBound 4294967295 0
    let outer ← internBound 1 0
    internBinder quantifier [] outer : Exec Fault (TermDag Nat) NodeId) TermDag.empty |>.2

theorem shift_invertible_outerDag :
    ∃ dag'', shiftDown 5 7 (shift 3 7 outerDag).2 = (.ok (some 3), dag'') := by
  have hnode : 3 < outerDag.len := by decide +kernel
  exact (shift_invertible hnode 7).1 5 _ (Prod.ext (by decide +kernel) rfl)

/-- The largest index cannot be raised, and a range that ends past it is not compared with. -/
theorem shift_overflows :
    (¬ ∀ (dag : TermDag Nat) (node : NodeId) (amount : UInt32), node < dag.len →
      ∃ raised dag' dag'', shift node amount dag = (.ok raised, dag') ∧
        shiftDown raised amount dag' = (.ok (some node), dag'')) ∧
    ¬ ∀ (dag : TermDag Nat) (node : NodeId) (amount : UInt32), node < dag.len →
      ((shiftDown node amount dag).1 = .ok none ↔
        (dag.denote node).Escapes amount.toNat 0) := by
  constructor
  · intro hall
    obtain ⟨raised, dag', dag'', hshift, _⟩ := hall outerDag 1 1 (by decide +kernel)
    have hstops : (shift 1 1 outerDag).1 = .error .sizeOverflow := by decide +kernel
    rw [hshift] at hstops
    cases hstops
  · intro hall
    have hstops : (shiftDown 3 4294967295 outerDag).1 = .error .sizeOverflow := by decide +kernel
    have hescapes : (outerDag.denote 3).Escapes (4294967295 : UInt32).toNat 0 :=
      Or.inr (Or.inr ⟨by decide +kernel, by decide +kernel⟩)
    rw [(hall outerDag 3 4294967295 (by decide +kernel)).mpr hescapes] at hstops
    cases hstops

end Purrdf
