import Purrdf.HistoryIndependence

/-!
# The caller's account

What the mutation metrics count. The account of a branch holds the rows its caller authored
beyond the base and the base rows the caller no longer authors, whatever conversions replace
them meanwhile; the value counts are read off it.
-/

namespace Purrdf

open PhysicalRows ClassifiedRows

theorem FastMap.Counts.length {κ α : Type} [DecidableEq κ] {m : FastMap κ Nat} {s : Finset α}
    {f : α → κ} (h : m.Counts s f) : m.entries.length = (s.image f).card := by
  have keys : m.keys.toFinset = s.image f := by
    ext k
    rw [List.mem_toFinset, ← AList.mem_keys, ← AList.lookup_isSome, h k, Finset.mem_image]
    constructor
    · intro entered
      split at entered
      · cases entered
      · rename_i nonzero
        obtain ⟨x, member⟩ := Finset.card_pos.mp (Nat.pos_of_ne_zero nonzero)
        exact ⟨x, (Finset.mem_filter.mp member).1, (Finset.mem_filter.mp member).2⟩
    · rintro ⟨x, member, same⟩
      have pos : 0 < (s.filter (f · = k)).card :=
        Finset.card_pos.mpr ⟨x, Finset.mem_filter.mpr ⟨member, same⟩⟩
      rw [if_neg (Nat.pos_iff_ne_zero.mp pos)]
      rfl
  rw [← keys, List.toFinset_card_of_nodup m.keys_nodup]
  exact (List.length_map _).symm

/-! ### The account -/

/-- The account of the rows `authored` over a base. -/
structure CallerChurn.Accounts (base : RdfDataset) (authored : RecordKey → Prop)
    (churn : CallerChurn) : Prop where
  added : ∀ key, key ∈ churn.callerAdded ↔ key ∉ base.records ∧ authored key
  suppressed : ∀ key, key ∈ churn.callerSuppressed ↔ key ∈ base.records ∧ ¬authored key

namespace CallerChurn

variable {base : RdfDataset} {rows : PhysicalRows} {churn churn' : CallerChurn} {key : RecordKey}
  {authored authored' : RecordKey → Prop}

theorem Accounts.congr (h : churn.Accounts base authored)
    (same : ∀ key, authored key ↔ authored' key) : churn.Accounts base authored' := by
  constructor
  · intro key
    rw [h.added, same]
  · intro key
    rw [h.suppressed, same]

theorem Accounts.insert (h : churn.Accounts base authored)
    (run : churn.insert base rows key = some churn') :
    churn'.Accounts base fun other => authored other ∨ other = key := by
  unfold CallerChurn.insert at run
  split at run
  · rename_i inBase
    have inBase := RdfDataset.baseContainsRecord_iff.mp inBase
    have added : ∀ other, other ∈ churn.callerAdded ↔
        other ∉ base.records ∧ (authored other ∨ other = key) := by
      intro other
      rw [h.added]
      apply and_congr_right
      intro fresh
      exact (or_iff_left fun same : other = key => fresh (same ▸ inBase)).symm
    split at run
    · obtain ⟨values, _, rfl⟩ := Option.map_eq_some_iff.mp run
      refine ⟨added, ?_⟩
      intro other
      rw [Finset.mem_erase, h.suppressed, not_or]
      tauto
    · rename_i kept
      cases run
      refine ⟨added, ?_⟩
      intro other
      rw [h.suppressed, not_or]
      constructor
      · rintro ⟨member, missing⟩
        refine ⟨member, missing, ?_⟩
        rintro rfl
        exact kept ((h.suppressed other).mpr ⟨member, missing⟩)
      · rintro ⟨member, missing, _⟩
        exact ⟨member, missing⟩
  · rename_i outside
    have fresh : key ∉ base.records :=
      fun member => outside (RdfDataset.baseContainsRecord_iff.mpr member)
    have suppressed : ∀ other, other ∈ churn.callerSuppressed ↔
        other ∈ base.records ∧ ¬(authored other ∨ other = key) := by
      intro other
      rw [h.suppressed, not_or]
      apply and_congr_right
      intro member
      exact (and_iff_left fun same : other = key => fresh (same ▸ member)).symm
    split at run
    · rename_i known
      cases run
      refine ⟨?_, suppressed⟩
      intro other
      rw [h.added]
      apply and_congr_right
      intro _
      constructor
      · exact .inl
      · rintro (old | rfl)
        · exact old
        · exact ((h.added other).mp known).2
    · obtain ⟨ordinal, _, rfl⟩ := Option.map_eq_some_iff.mp run
      refine ⟨?_, suppressed⟩
      intro other
      rw [AList.mem_insert, h.added]
      constructor
      · rintro (rfl | ⟨missing, old⟩)
        · exact ⟨fresh, .inr rfl⟩
        · exact ⟨missing, .inl old⟩
      · rintro ⟨missing, old | rfl⟩
        · exact .inr ⟨missing, old⟩
        · exact .inl rfl

theorem Accounts.removeOrigin (h : churn.Accounts base authored)
    (run : churn.removeOrigin base key = some churn') :
    churn'.Accounts base fun other => authored other ∧ other ≠ key := by
  obtain ⟨between, forgot, rfl⟩ := Option.map_eq_some_iff.mp run
  have suppressed : between.callerSuppressed = churn.callerSuppressed := by
    unfold forgetAdded at forgot
    split at forgot
    · obtain ⟨values, _, rfl⟩ := Option.map_eq_some_iff.mp forgot
      rfl
    · cases forgot
      rfl
  have added : ∀ other, other ∈ between.callerAdded ↔
      other ∉ base.records ∧ authored other ∧ other ≠ key := by
    intro other
    unfold forgetAdded at forgot
    split at forgot
    · obtain ⟨values, _, rfl⟩ := Option.map_eq_some_iff.mp forgot
      rw [AList.mem_erase, h.added]
      tauto
    · rename_i missing
      cases forgot
      rw [h.added]
      constructor
      · rintro ⟨outside, old⟩
        refine ⟨outside, old, ?_⟩
        rintro rfl
        exact missing ((h.added other).mpr ⟨outside, old⟩)
      · rintro ⟨outside, old, _⟩
        exact ⟨outside, old⟩
  split
  · rename_i hides
    obtain ⟨inBase, _⟩ := Bool.and_eq_true_iff.mp hides
    have inBase := RdfDataset.baseContainsRecord_iff.mp inBase
    refine ⟨added, ?_⟩
    intro other
    rw [Finset.mem_insert, suppressed, h.suppressed]
    constructor
    · rintro (rfl | ⟨member, missing⟩)
      · exact ⟨inBase, fun kept => kept.2 rfl⟩
      · exact ⟨member, fun kept => missing kept.1⟩
    · rintro ⟨member, missing⟩
      by_cases same : other = key
      · exact .inl same
      · exact .inr ⟨member, fun old => missing ⟨old, same⟩⟩
  · rename_i stays
    refine ⟨added, ?_⟩
    intro other
    rw [suppressed, h.suppressed]
    constructor
    · rintro ⟨member, missing⟩
      exact ⟨member, fun kept => missing kept.1⟩
    · rintro ⟨member, missing⟩
      refine ⟨member, fun old => missing ⟨old, ?_⟩⟩
      rintro rfl
      apply stays
      rw [suppressed, Bool.and_eq_true, RdfDataset.baseContainsRecord_iff, decide_eq_true_eq,
        h.suppressed]
      exact ⟨member, fun hidden => hidden.2 old⟩

theorem Accounts.removeOrigins (keys : List RecordKey) (h : churn.Accounts base authored)
    (run : churn.removeOrigins base keys = some churn') :
    churn'.Accounts base fun other => authored other ∧ other ∉ keys := by
  induction keys generalizing churn authored with
  | nil =>
    cases run
    exact h.congr fun other => (and_iff_left List.not_mem_nil).symm
  | cons key rest ih =>
    obtain ⟨between, first, later⟩ := Option.bind_eq_some_iff.mp run
    apply (ih (h.removeOrigin first) later).congr
    intro other
    rw [List.mem_cons, not_or, and_assoc]

end CallerChurn

namespace MutableDataset

variable {st st' : MutableDataset} {key : RecordKey} {quad : QuadKey}
  {authored : RecordKey → Prop}

/-! ### What leaves the account alone -/

theorem declareGraph_churn (graph : TermValue) :
    (st.declareGraph graph).1.toCallerChurn = st.toCallerChurn := by
  obtain ⟨declared, withdrawn, same⟩ := declareGraph_rows st graph
  rw [same]

theorem withdrawEmptiedDeclaration_churn {graph : MutTermId}
    (run : st.withdrawEmptiedDeclaration graph = some st') :
    st'.toCallerChurn = st.toCallerChurn := by
  unfold withdrawEmptiedDeclaration at run
  split at run
  · cases run
    rfl
  · obtain ⟨value, _, rfl⟩ := Option.map_eq_some_iff.mp run
    rfl

theorem emptied_churn {graph : MutTermId} (run : st.emptied graph = some st') :
    st'.toCallerChurn = st.toCallerChurn := by
  cases graph with
  | base id =>
    unfold emptied at run
    have same := withdrawEmptiedDeclaration_churn run
    exact same
  | delta id => exact withdrawEmptiedDeclaration_churn run

theorem populated_churn {graph : MutTermId} (run : st.populated graph = some st') :
    st'.toCallerChurn = st.toCallerChurn := by
  cases graph with
  | base id | delta id =>
    unfold populated at run
    dsimp only at run
    split at run
    · obtain ⟨value, _, rfl⟩ := Option.map_eq_some_iff.mp run
      exact declareGraph_churn value
    · cases run
      rfl

theorem setGraphRows_churn {graph : MutTermId} {old now : Nat}
    (run : st.setGraphRows graph old now = some st') : st'.toCallerChurn = st.toCallerChurn := by
  unfold setGraphRows at run
  dsimp only at run
  split at run
  · have same := emptied_churn run
    exact same
  · split at run
    · have same := populated_churn run
      exact same
    · cases run
      rfl

theorem applyGraphChange_churn {graph : Option MutTermId} {before : Nat}
    (run : st.applyGraphChange graph before = some st') : st'.toCallerChurn = st.toCallerChurn := by
  obtain ⟨after, _, run⟩ := Option.bind_eq_some_iff.mp run
  cases graph with
  | none =>
    cases run
    rfl
  | some graph =>
    dsimp only at run
    split at run
    · exact setGraphRows_churn run
    · split at run
      · exact setGraphRows_churn run
      · cases run

theorem normalize_churn {scope : Scope} (run : st.normalize scope = some st') :
    st'.toCallerChurn = st.toCallerChurn := by
  obtain ⟨rows, _, rfl⟩ := Option.map_eq_some_iff.mp run
  rfl

theorem classifyNew_churn (run : st.classifyNew key = some st') :
    st'.toCallerChurn = st.toCallerChurn := by
  obtain ⟨rows, _, rfl⟩ := Option.map_eq_some_iff.mp run
  rfl

theorem classifyRestored_churn {effectiveReifier : Bool} {restored : List RecordKey}
    (run : st.classifyRestored effectiveReifier restored = some st') :
    st'.toCallerChurn = st.toCallerChurn := by
  induction restored generalizing st with
  | nil =>
    cases run
    rfl
  | cons key rest ih =>
    obtain ⟨rows, _, run⟩ := Option.bind_eq_some_iff.mp run
    have same := ih run
    exact same

/-! ### Insertion -/

theorem callerInsert_account (h : st.toCallerChurn.Accounts st.base authored)
    (run : (st.insertRows key).1.callerInsert key = some st') :
    st'.toCallerChurn.Accounts st.base fun other => authored other ∨ other = key := by
  obtain ⟨churn, account, rfl⟩ := Option.map_eq_some_iff.mp run
  have h : (st.insertRows key).1.toCallerChurn.Accounts (st.insertRows key).1.base authored := h
  exact h.insert account

theorem callerInsert_base (run : (st.insertRows key).1.callerInsert key = some st') :
    st'.base = st.base := by
  obtain ⟨churn, _, rfl⟩ := Option.map_eq_some_iff.mp run
  rfl

theorem restoreSuppressed_account {restored back : List RecordKey} {kinds : List RecordKind}
    (h : st.toCallerChurn.Accounts st.base authored)
    (run : st.restoreSuppressed quad restored kinds = some (st', back)) :
    ∃ news, back = restored ++ news ∧ st'.base = st.base ∧
      st'.toCallerChurn.Accounts st.base fun key => authored key ∨ key ∈ news := by
  induction kinds generalizing st restored authored with
  | nil =>
    cases run
    refine ⟨[], (List.append_nil _).symm, rfl, h.congr ?_⟩
    intro key
    exact (or_iff_left List.not_mem_nil).symm
  | cons kind rest ih =>
    unfold restoreSuppressed at run
    dsimp only at run
    split at run
    · obtain ⟨between, entered, run⟩ := Option.bind_eq_some_iff.mp run
      have base := callerInsert_base entered
      have account := callerInsert_account h entered
      rw [← base] at account
      obtain ⟨news, rfl, base', accounts⟩ := ih account run
      rw [base] at base' accounts
      refine ⟨⟨kind, quad⟩ :: news, ?_, base', accounts.congr ?_⟩
      · rw [List.append_assoc]
        rfl
      · intro key
        rw [List.mem_cons, or_assoc]
    · exact ih h run

theorem admitNew_account {declaration changed : Bool}
    (h : st.toCallerChurn.Accounts st.base authored)
    (declared : st.declarationKey quad = some declaration)
    (fresh : (st.insertRows ⟨homeKind declaration, quad⟩).2 = true)
    (run : st.admitNew quad = some (st', changed)) :
    st'.toCallerChurn.Accounts st.base fun key =>
      authored key ∨ key = ⟨homeKind declaration, quad⟩ := by
  unfold admitNew at run
  rw [declared, Option.bind_some] at run
  obtain ⟨between, entered, run⟩ := Option.bind_eq_some_iff.mp run
  have kind : (if declaration = true then RecordKind.reifier else .ordinary) = homeKind declaration :=
    rfl
  rw [kind, if_pos fresh] at entered
  have account := callerInsert_account h entered
  obtain ⟨last, classified, same⟩ := Option.map_eq_some_iff.mp run
  cases same
  split at classified
  · cases classified
    exact account
  · rw [classifyNew_churn classified]
    exact account

theorem insertKey_account {changed : Bool} (h : Consistent st) (valid : st.Valid quad)
    (account : st.toCallerChurn.Accounts st.base (Authored st.base st.toClassifiedRows))
    (run : st.insertKey quad = some (st', changed)) :
    st'.toCallerChurn.Accounts st'.base (Authored st'.base st'.toClassifiedRows) := by
  obtain ⟨last, changed', declaration, run', advanced, _, declared, admitted⟩ :=
    insertKey_spec h valid
  cases run.symm.trans run'
  rw [advanced.base]
  obtain ⟨t₁, churn₁, back, restore, _, added, _, _, mem_back⟩ :=
    restoreSuppressed_spec quad [] RecordKind.all (by decide) h.coherent h.counted
  have mem_back : ∀ key, key ∈ back ↔ key.quad = quad ∧ Hidden st.base st.toClassifiedRows key := by
    intro key
    rw [mem_back]
    simp [RecordKind.mem_all]
  obtain ⟨before, _, run⟩ := Option.bind_eq_some_iff.mp run
  obtain ⟨⟨st₁, back'⟩, restore', run⟩ := Option.bind_eq_some_iff.mp run
  obtain ⟨⟨st₂, changed''⟩, admits, run⟩ := Option.bind_eq_some_iff.mp run
  obtain ⟨declaration', _, run⟩ := Option.bind_eq_some_iff.mp run
  obtain ⟨st₃, classified, run⟩ := Option.bind_eq_some_iff.mp run
  obtain ⟨st₄, settled, same⟩ := Option.map_eq_some_iff.mp run
  cases same
  cases restore'.symm.trans restore
  have churn : st'.toCallerChurn = st₂.toCallerChurn := by
    rw [applyGraphChange_churn settled]
    split at classified
    · exact normalize_churn classified
    · exact classifyRestored_churn classified
  rw [churn]
  obtain ⟨news, same, _, restored⟩ := restoreSuppressed_account account restore'
  rw [List.nil_append] at same
  subst same
  unfold admitValue at admits
  split at admits
  · rename_i nothing
    obtain ⟨rfl, missing⟩ := nothing
    have absent : Absent st.base st.toClassifiedRows quad := by
      intro kind live
      have held : t₁.containsKey st.base quad = true :=
        containsKey_iff.mpr ⟨kind, (added.live _).mpr (.inl live)⟩
      rw [show t₁.containsKey st.base quad = false from missing] at held
      cases held
    have unheld : Unheld st.base st.toClassifiedRows quad := by
      refine ⟨?_, absent⟩
      intro kind hidden
      exact List.not_mem_nil ((mem_back ⟨kind, quad⟩).mpr ⟨rfl, hidden⟩)
    have fresh : ((st.stage t₁ churn₁).insertRows ⟨homeKind declaration, quad⟩).2 = true := by
      rw [insertRows_changed added.coherent, decide_eq_true_eq, added.live]
      rintro (live | none)
      · exact absent _ live
      · cases none
    have restored : (st.stage t₁ churn₁).toCallerChurn.Accounts (st.stage t₁ churn₁).base _ := restored
    have declared' : (st.stage t₁ churn₁).declarationKey quad = some declaration := declared
    have entered := admitNew_account restored declared' fresh admits
    apply entered.congr
    intro key
    rw [admitted.authored]
    constructor
    · rintro ((old | none) | rfl)
      · exact .inl old
      · cases none
      · exact .inr ⟨rfl, .inr ⟨unheld, rfl⟩⟩
    · rintro (old | ⟨same, hidden | ⟨_, kind⟩⟩)
      · exact .inl (.inl old)
      · exact .inl (.inr ((mem_back key).mpr ⟨same, hidden⟩))
      · obtain ⟨kind', quad'⟩ := key
        cases same
        cases kind
        exact .inr rfl
  · rename_i something
    cases admits
    apply restored.congr
    intro key
    rw [admitted.authored, mem_back]
    constructor
    · rintro (old | ⟨same, hidden⟩)
      · exact .inl old
      · exact .inr ⟨same, .inl hidden⟩
    · rintro (old | ⟨same, hidden | ⟨unheld, _⟩⟩)
      · exact .inl old
      · exact .inr ⟨same, hidden⟩
      · -- a quad with nothing hidden is held, or else it would have been admitted
        refine (something ⟨?_, ?_⟩).elim
        · apply List.eq_nil_iff_forall_not_mem.mpr
          intro key' member
          obtain ⟨same', hidden⟩ := (mem_back key').mp member
          subst same'
          exact unheld.1 key'.kind hidden
        · rw [Bool.eq_false_iff]
          intro held
          obtain ⟨kind, live⟩ := containsKey_iff.mp held
          rcases (added.live _).mp live with old | new
          · exact unheld.2 kind old
          · obtain ⟨_, hidden⟩ := (mem_back _).mp new
            exact unheld.1 kind hidden

theorem removeRole_account {removed : Bool} (h : Coherent st.base st.toClassifiedRows)
    (account : st.toCallerChurn.Accounts st.base authored)
    (run : st.removeRole key = some (st', removed)) :
    st'.base = st.base ∧ ∃ gone : List RecordKey,
      st'.toCallerChurn.Accounts st.base (fun other => authored other ∧ other ∉ gone) ∧
      key ∈ gone ∧ (∀ other ∈ gone, other.quad = key.quad) ∧
      ((st.toClassifiedRows.inPlace key.flip).isSome → key.flip ∈ gone) ∧
      ∀ source c, st.toClassifiedRows.inPlace source = some c → source.flip ≠ key →
        st'.toClassifiedRows.inPlace source = some c := by
  obtain ⟨⟨rows, dropped⟩, _, run⟩ := Option.bind_eq_some_iff.mp run
  obtain ⟨between, settled, same⟩ := Option.map_eq_some_iff.mp run
  cases same
  obtain ⟨next, forgot, rfl⟩ := Option.map_eq_some_iff.mp settled
  obtain ⟨churn, accounted, rfl⟩ := Option.map_eq_some_iff.mp forgot
  have account' := CallerChurn.Accounts.removeOrigins _ account accounted
  refine ⟨rfl, _, account', List.mem_cons_self, ?_, ?_, ?_⟩
  · intro other member
    rcases List.mem_cons.mp member with rfl | origin
    · rfl
    · obtain ⟨entry, visited, names⟩ := List.mem_filterMap.mp origin
      obtain ⟨found, _⟩ := (mem_visit st.order h).mp visited
      split at names
      · rename_i target
        cases names
        rw [← target, (h.remembers.target _ _ found).2, Record.flip_quad]
      · cases names
  · intro converted
    obtain ⟨c, found⟩ := Option.isSome_iff_exists.mp converted
    have target : c.target = key := by
      rw [(h.remembers.target _ _ found).2, Record.flip_flip]
    have visited : (key.flip, c) ∈ st.order.visit (st.conversionsOf key.quad.scope) :=
      (mem_visit st.order h).mpr ⟨found, rfl⟩
    apply List.mem_cons_of_mem
    exact List.mem_filterMap.mpr ⟨(key.flip, c), visited, if_pos target⟩
  · intro source c found differs
    exact (inPlace_forget h key source c).mpr ⟨found, differs⟩

theorem removeRoles_account {changed changed' : Bool} {kinds : List RecordKind}
    (distinct : kinds.Nodup) (h : Coherent st.base st.toClassifiedRows)
    (counted : st.toCallerChurn.Counted) (account : st.toCallerChurn.Accounts st.base authored)
    (run : st.removeRoles quad changed kinds = some (st', changed')) :
    st'.base = st.base ∧ ∃ gone : List RecordKey,
      st'.toCallerChurn.Accounts st.base (fun other => authored other ∧ other ∉ gone) ∧
      (∀ other ∈ gone, other.quad = quad) ∧
      ∀ kind ∈ kinds, (⟨kind, quad⟩ : RecordKey) ∈ st.effective st.base → ⟨kind, quad⟩ ∈ gone ∧
        ((st.toClassifiedRows.inPlace (Record.flip ⟨kind, quad⟩)).isSome →
          Record.flip ⟨kind, quad⟩ ∈ gone) := by
  induction kinds generalizing st changed authored with
  | nil =>
    cases run
    refine ⟨rfl, [], account.congr ?_, ?_, ?_⟩
    · intro other
      exact (and_iff_left List.not_mem_nil).symm
    · intro other none
      cases none
    · intro kind none
      cases none
  | cons kind rest ih =>
    obtain ⟨outside, distinct⟩ := List.nodup_cons.mp distinct
    unfold removeRoles at run
    split at run
    · obtain ⟨⟨st₁, removed⟩, role, run⟩ := Option.bind_eq_some_iff.mp run
      obtain ⟨base, gone, account', own, inQuad, origin, stays⟩ := removeRole_account h account role
      obtain ⟨t₁, churn₁, role', counted₁, dropped⟩ := removeRole_spec h counted ⟨kind, quad⟩
      cases role.symm.trans role'
      have account' : (st.stage t₁ churn₁).toCallerChurn.Accounts (st.stage t₁ churn₁).base _ :=
        account'
      obtain ⟨base', gone', account'', inQuad', others⟩ :=
        ih distinct dropped.coherent counted₁ account' run
      refine ⟨base'.trans base, gone ++ gone', ?_, ?_, ?_⟩
      · apply account''.congr
        intro other
        rw [List.mem_append, not_or, and_assoc]
      · intro other member
        rcases List.mem_append.mp member with here | there
        · exact inQuad other here
        · exact inQuad' other there
      · intro kind' member live
        rcases List.mem_cons.mp member with rfl | later
        · exact ⟨List.mem_append_left _ own, fun converted => List.mem_append_left _ (origin converted)⟩
        · have differs : (⟨kind', quad⟩ : RecordKey) ≠ ⟨kind, quad⟩ := by
            rintro ⟨⟩
            exact outside later
          have live' : (⟨kind', quad⟩ : RecordKey) ∈ t₁.effective st.base :=
            (dropped.live _).mpr ⟨live, fun same => differs (List.mem_singleton.mp same)⟩
          obtain ⟨here, origin'⟩ := others kind' later live'
          refine ⟨List.mem_append_right _ here, ?_⟩
          intro converted
          obtain ⟨c, found⟩ := Option.isSome_iff_exists.mp converted
          apply List.mem_append_right
          apply origin'
          have found' := stays _ c found (by rwa [Record.flip_flip])
          exact Option.isSome_iff_exists.mpr ⟨c, found'⟩
    · rename_i missing
      obtain ⟨base, gone, account', inQuad, others⟩ := ih distinct h counted account run
      refine ⟨base, gone, account', inQuad, ?_⟩
      intro kind' member live
      rcases List.mem_cons.mp member with rfl | later
      · exact (missing (containsRecordKey_iff.mpr live)).elim
      · exact others kind' later live

theorem removeKey_account {changed : Bool} (h : Consistent st) (valid : st.Valid quad)
    (account : st.toCallerChurn.Accounts st.base (Authored st.base st.toClassifiedRows))
    (run : st.removeKey quad = some (st', changed)) :
    st'.toCallerChurn.Accounts st'.base (Authored st'.base st'.toClassifiedRows) := by
  obtain ⟨last, changed', declaration, run', advanced, _, _, withdrawn⟩ :=
    removeKey_spec h valid
  cases run.symm.trans run'
  rw [advanced.base]
  obtain ⟨before, _, run⟩ := Option.bind_eq_some_iff.mp run
  obtain ⟨⟨st₁, changed'⟩, roles, run⟩ := Option.bind_eq_some_iff.mp run
  obtain ⟨declaration', _, run⟩ := Option.bind_eq_some_iff.mp run
  obtain ⟨st₂, classified, run⟩ := Option.bind_eq_some_iff.mp run
  obtain ⟨st₃, settled, same⟩ := Option.map_eq_some_iff.mp run
  cases same
  have churn : st'.toCallerChurn = st₁.toCallerChurn := by
    rw [applyGraphChange_churn settled]
    split at classified
    · exact normalize_churn classified
    · cases classified
      rfl
  rw [churn]
  obtain ⟨_, gone, account', inQuad, every⟩ :=
    removeRoles_account (by decide) h.coherent h.counted account roles
  apply account'.congr
  intro key
  rw [withdrawn.authored]
  apply and_congr_right
  intro authored
  constructor
  · rintro kept rfl
    rcases authored with ⟨live, _⟩ | converted
    · exact kept (every key.kind (RecordKind.mem_all _) live).1
    · obtain ⟨c, found⟩ := Option.isSome_iff_exists.mp converted
      have target := h.coherent.placed.target_live key c found
      have back := (every key.flip.kind (RecordKind.mem_all _) target).2
      have flipped : Record.flip ⟨key.flip.kind, key.quad⟩ = key := Record.flip_flip key
      rw [flipped] at back
      exact kept (back converted)
  · intro differs member
    exact differs (inQuad key member)

def Accounted (st : MutableDataset) : Prop :=
  st.toCallerChurn.Accounts st.base (Authored st.base st.toClassifiedRows)

theorem accounted_branch (base : RdfDataset) (order : HashOrder) (mode : GraphExistenceMode) :
    Accounted (newWithGraphExistence base order mode) := by
  constructor
  · intro key
    constructor
    · intro none
      exact (AList.notMem_empty key none).elim
    · rintro ⟨missing, authored⟩
      exact (missing (authored_branch.mp authored)).elim
  · intro key
    constructor
    · intro none
      exact (Finset.notMem_empty key none).elim
    · rintro ⟨inBase, missing⟩
      exact (missing (authored_branch.mpr inBase)).elim

theorem call_account {rules : LexicalRules} {request : Call} {outcome : Except IriReadError Bool}
    (h : NormalState st) (account : Accounted st)
    (step : st.call rules request = some (st', outcome)) : Accounted st' := by
  cases request with
  | insert quad =>
    rcases keyOf_spec h.value.consistent.fresh rules quad with
      ⟨key, delta, resolved, extended, fresh, found⟩ | ⟨error, refused⟩
    · have minted := h.minted extended fresh
      have valid : ({ st with delta := delta } : MutableDataset).Valid key :=
        valid_of_traverse fresh found
      have account : Accounted { st with delta := delta } := account
      rw [call, insert, resolved] at step
      obtain ⟨⟨reached, changed⟩, run, same⟩ := Option.map_eq_some_iff.mp step
      cases same
      exact insertKey_account minted.value.consistent valid account run
    · rw [call, insert, refused] at step
      cases step
      exact account
  | remove quad =>
    rw [call, remove] at step
    cases found : st.keyOfExisting quad with
    | none =>
      rw [found] at step
      cases step
      exact account
    | some key =>
      rw [found] at step
      obtain ⟨⟨reached, changed⟩, run, same⟩ := Option.map_eq_some_iff.mp step
      cases same
      exact removeKey_account h.value.consistent (valid_existing h.value.consistent found) account run

theorem run_account {rules : LexicalRules} {requests : List Call} {events : List Event}
    (h : NormalState st) (account : Accounted st)
    (runs : st.run rules requests = some (st', events)) : Accounted st' := by
  induction requests generalizing st events with
  | nil =>
    cases runs
    exact account
  | cons request rest ih =>
    obtain ⟨⟨next, outcome⟩, step, runs⟩ := Option.bind_eq_some_iff.mp runs
    obtain ⟨⟨last, later⟩, onward, same⟩ := Option.map_eq_some_iff.mp runs
    cases same
    exact ih (call_normal h step).1 (call_account h account step) onward

/-! ### Delta sizes -/

def addedLen (st : MutableDataset) : Nat := st.addedValues.entries.length

def suppressedLen (st : MutableDataset) : Nat := st.suppressedValues.entries.length

end MutableDataset

def RdfDataset.rowValues (base : RdfDataset) : List QuadValues :=
  base.recordIds.filterMap fun row => row.quad.traverse base.termValue

namespace MutableDataset

variable {st : MutableDataset} {q : QuadValues}

theorem mem_rowValues :
    q ∈ st.base.rowValues ↔ ∃ key ∈ st.base.records, st.quadValuesOf key.quad = some q := by
  unfold RdfDataset.rowValues
  rw [List.mem_filterMap]
  constructor
  · rintro ⟨row, member, read⟩
    refine ⟨⟨row.kind, baseKey row.quad⟩, RdfDataset.mem_records.mpr ⟨row.quad, rfl, member⟩, ?_⟩
    rw [quadValuesOf_baseKey]
    exact read
  · rintro ⟨key, member, read⟩
    obtain ⟨ids, same, inBase⟩ := RdfDataset.mem_records.mp member
    refine ⟨⟨key.kind, ids⟩, inBase, ?_⟩
    rw [same, quadValuesOf_baseKey] at read
    exact read

theorem card_read (fresh : st.delta.Fresh st.base) {keys : Finset QuadKey}
    {values : Finset QuadValues}
    (reads : ∀ quad ∈ keys, ∃ q ∈ values, st.quadValuesOf quad = some q)
    (read : ∀ q ∈ values, ∃ quad ∈ keys, st.quadValuesOf quad = some q) :
    keys.card = values.card := by
  have same : keys.image st.quadValuesOf = values.image some := by
    ext answer
    rw [Finset.mem_image, Finset.mem_image]
    constructor
    · rintro ⟨quad, member, rfl⟩
      obtain ⟨q, among, found⟩ := reads quad member
      exact ⟨q, among, found.symm⟩
    · rintro ⟨q, among, rfl⟩
      obtain ⟨quad, member, found⟩ := read q among
      exact ⟨quad, member, found⟩
  have injective : Set.InjOn st.quadValuesOf keys := by
    intro quad member quad' _ equal
    obtain ⟨q, _, found⟩ := reads quad member
    exact quadValuesOf_injective fresh found (equal ▸ found)
  rw [← Finset.card_image_of_injOn injective, same]
  exact Finset.card_image_of_injective values (Option.some_injective _)

theorem mem_effectiveQuads_of_authored (h : NormalState st) {key : RecordKey}
    (authored : Authored st.base st.toClassifiedRows key)
    (read : st.quadValuesOf key.quad = some q) : q ∈ st.effectiveQuads := by
  obtain ⟨kind, live⟩ :=
    h.value.consistent.coherent.live_iff_authored.mpr ⟨key.kind, authored⟩
  exact (mem_effectiveQuads h.value.consistent).mpr ⟨_, live, read⟩

theorem authored_of_mem_effectiveQuads (h : NormalState st) (member : q ∈ st.effectiveQuads) :
    ∃ key, Authored st.base st.toClassifiedRows key ∧ st.quadValuesOf key.quad = some q := by
  obtain ⟨⟨kind, quad⟩, live, read⟩ := (mem_effectiveQuads h.value.consistent).mp member
  obtain ⟨kind', authored⟩ := h.value.consistent.coherent.live_iff_authored.mp ⟨kind, live⟩
  exact ⟨⟨kind', quad⟩, authored, read⟩

theorem addedLen_eq (h : NormalState st) (account : Accounted st) :
    st.addedLen = (st.effectiveQuads.toFinset \ st.base.rowValues.toFinset).card := by
  have fresh := h.value.consistent.fresh
  unfold addedLen
  rw [h.value.consistent.counted.added.length]
  apply card_read fresh
  · intro quad member
    obtain ⟨key, listed, rfl⟩ := Finset.mem_image.mp member
    have listed : key ∈ st.callerAdded := AList.mem_keys.mpr (List.mem_toFinset.mp listed)
    obtain ⟨outside, authored⟩ := (account.added key).mp listed
    obtain ⟨q, read⟩ := h.value.read authored
    refine ⟨q, Finset.mem_sdiff.mpr ⟨?_, ?_⟩, read⟩
    · exact List.mem_toFinset.mpr (mem_effectiveQuads_of_authored h authored read)
    · intro inBase
      obtain ⟨⟨kind, quad'⟩, row, read'⟩ := mem_rowValues.mp (List.mem_toFinset.mp inBase)
      have same := quadValuesOf_injective fresh read' read
      rcases h.home key authored with own | ⟨free, _⟩
      · exact outside own
      · exact free kind (same ▸ row)
  · intro q member
    obtain ⟨effective, outside⟩ := Finset.mem_sdiff.mp member
    obtain ⟨key, authored, read⟩ :=
      authored_of_mem_effectiveQuads h (List.mem_toFinset.mp effective)
    refine ⟨key.quad, Finset.mem_image.mpr ⟨key, ?_, rfl⟩, read⟩
    have missing : key ∉ st.base.records :=
      fun row => outside (List.mem_toFinset.mpr (mem_rowValues.mpr ⟨key, row, read⟩))
    exact List.mem_toFinset.mpr (AList.mem_keys.mp ((account.added key).mpr ⟨missing, authored⟩))

theorem suppressedLen_eq (h : NormalState st) (account : Accounted st) :
    st.suppressedLen = (st.base.rowValues.toFinset \ st.effectiveQuads.toFinset).card := by
  have fresh := h.value.consistent.fresh
  unfold suppressedLen
  rw [h.value.consistent.counted.suppressed.length]
  apply card_read fresh
  · intro quad member
    obtain ⟨key, listed, rfl⟩ := Finset.mem_image.mp member
    obtain ⟨row, hidden⟩ := (account.suppressed key).mp listed
    obtain ⟨ids, same, inBase⟩ := RdfDataset.mem_records.mp row
    have reads : ∃ q, st.quadValuesOf key.quad = some q := by
      rw [same, quadValuesOf_baseKey]
      exact Quad.exists_traverse (base_valid inBase)
    obtain ⟨q, read⟩ := reads
    refine ⟨q, Finset.mem_sdiff.mpr ⟨?_, ?_⟩, read⟩
    · exact List.mem_toFinset.mpr (mem_rowValues.mpr ⟨key, row, read⟩)
    · intro effective
      obtain ⟨⟨kind, quad'⟩, authored, read'⟩ :=
        authored_of_mem_effectiveQuads h (List.mem_toFinset.mp effective)
      have equal := quadValuesOf_injective fresh read' read
      exact hidden (h.value.whole key row ⟨kind, equal ▸ authored⟩)
  · intro q member
    obtain ⟨inBase, gone⟩ := Finset.mem_sdiff.mp member
    obtain ⟨key, row, read⟩ := mem_rowValues.mp (List.mem_toFinset.mp inBase)
    refine ⟨key.quad, Finset.mem_image.mpr ⟨key, ?_, rfl⟩, read⟩
    apply (account.suppressed key).mpr
    refine ⟨row, ?_⟩
    intro authored
    exact gone (List.mem_toFinset.mpr (mem_effectiveQuads_of_authored h authored read))

/-- After any value-level calls on a branch, the delta sizes are those of the two differences
between the effective quads and the quads of the base. -/
theorem delta_sizes (rules : LexicalRules) (base : RdfDataset) (order : HashOrder)
    (mode : GraphExistenceMode) (requests : List Call) :
    ∃ st events, (newWithGraphExistence base order mode).run rules requests = some (st, events) ∧
      st.addedLen = (st.effectiveQuads.toFinset \ base.rowValues.toFinset).card ∧
      st.suppressedLen = (base.rowValues.toFinset \ st.effectiveQuads.toFinset).card := by
  obtain ⟨st, events, runs, _, _⟩ := contains_eq_membership rules base order mode requests
  obtain ⟨h, sameBase⟩ := run_normal (normalState_branch base order mode) runs
  have account := run_account (normalState_branch base order mode)
    (accounted_branch base order mode) runs
  have sameBase : st.base = base := sameBase
  subst sameBase
  exact ⟨st, events, runs, addedLen_eq h account, suppressedLen_eq h account⟩

end MutableDataset

end Purrdf
