import Purrdf.EffectiveRows

/-!
# Reversible reclassification

The conversions in place, what they remember of the rows they replaced, and the rows
as they stood before any conversion (`Authored`). Normalizing a subject moves rows
between the ordinary and the annotation table and leaves the authored rows alone.
-/

namespace Purrdf

/-! ### Conversions in place -/

def RecordKind.flip : RecordKind → RecordKind
  | .ordinary => .annotationRow
  | .annotationRow => .ordinary
  | .reifier => .reifier

def Record.flip {α : Type} (key : Record α) : Record α := ⟨key.kind.flip, key.quad⟩

@[simp] theorem Record.flip_quad {α : Type} (key : Record α) : key.flip.quad = key.quad := rfl

@[simp] theorem Record.flip_kind {α : Type} (key : Record α) : key.flip.kind = key.kind.flip := rfl

@[simp] theorem Record.flip_flip {α : Type} (key : Record α) : key.flip.flip = key := by
  obtain ⟨kind, quad⟩ := key
  cases kind <;> rfl

theorem Record.flip_ne {α : Type} {key : Record α} (h : key.kind ≠ .reifier) : key.flip ≠ key := by
  obtain ⟨kind, quad⟩ := key
  intro same
  cases kind <;> simp_all [Record.flip, RecordKind.flip]

namespace ClassifiedRows

open PhysicalRows

variable {base : RdfDataset} {t t' : ClassifiedRows} {key source : RecordKey} {scope : Scope}

def inPlace (t : ClassifiedRows) (source : RecordKey) : Option Reclassification :=
  (t.conversionsOf source.quad.scope).lookup source

/-- What the conversions `conv` remember of the rows they replaced: enough to restore
each row under the ordinal it had. -/
structure Remembers (base : RdfDataset) (rows : PhysicalRows) (created : Finset RecordKey)
    (conv : RecordKey → Option Reclassification) : Prop where
  target : ∀ source c, conv source = some c → source.kind ≠ .reifier ∧ c.target = source.flip
  origin : ∀ source c, conv source = some c → (c.ordinal = none ↔ source ∈ base.records)
  ordinal_lt : ∀ source c n, conv source = some c → c.ordinal = some n → n < rows.nextAddedOrd
  ordinal_inj : ∀ source source' c c' n, conv source = some c → conv source' = some c' →
    c.ordinal = some n → c'.ordinal = some n → source = source'
  ordinal_free : ∀ source c n key, conv source = some c → c.ordinal = some n →
    rows.addedOrd.lookup key = some n → key = source.flip ∧ key ∈ created

/-- Where the conversions stand: every target is an effective row, no quad is converted
both ways, and only a conversion creates a target. -/
structure Placed (live created : Finset RecordKey)
    (conv : RecordKey → Option Reclassification) : Prop where
  target_live : ∀ source c, conv source = some c → source.flip ∈ live
  one_way : ∀ source c, conv source = some c → conv source.flip = none
  created_target : ∀ key ∈ created, ∃ source c, conv source = some c ∧ source.flip = key

structure Coherent (base : RdfDataset) (t : ClassifiedRows) : Prop where
  rows : WellFormed base t.toPhysicalRows
  remembers : Remembers base t.toPhysicalRows t.classificationCreated t.inPlace
  placed : Placed (t.effective base) t.classificationCreated t.inPlace
  in_scope : ∀ scope source c, (t.conversionsOf scope).lookup source = some c →
    source.quad.scope = scope

theorem coherent_empty : Coherent base {} := by
  have nothing : ∀ source, inPlace {} source = none := fun source => by
    simp [inPlace, conversionsOf]
  constructor
  · exact wellFormed_empty
  · constructor <;> simp [nothing]
  · constructor <;> simp [nothing]
  · simp [conversionsOf]

/-- The rows before any conversion: the effective ones no conversion created, and the
ones a conversion replaces. -/
def Authored (base : RdfDataset) (t : ClassifiedRows) (key : RecordKey) : Prop :=
  (key ∈ t.effective base ∧ key ∉ t.classificationCreated) ∨ (t.inPlace key).isSome

theorem Coherent.live_iff_authored (h : Coherent base t) {quad : QuadKey} :
    (∃ kind, (⟨kind, quad⟩ : RecordKey) ∈ t.effective base) ↔
      ∃ kind, Authored base t ⟨kind, quad⟩ := by
  constructor
  · rintro ⟨kind, live⟩
    by_cases created : (⟨kind, quad⟩ : RecordKey) ∈ t.classificationCreated
    · obtain ⟨source, c, inPlace, same⟩ := h.placed.created_target _ created
      refine ⟨source.kind, Or.inr ?_⟩
      have quads : source.quad = quad := by rw [← source.flip_quad, same]
      subst quads
      rw [inPlace, Option.isSome_some]
    · exact ⟨kind, Or.inl ⟨live, created⟩⟩
  · rintro ⟨kind, ⟨live, -⟩ | converted⟩
    · exact ⟨kind, live⟩
    · obtain ⟨c, inPlace⟩ := Option.isSome_iff_exists.mp converted
      exact ⟨_, h.placed.target_live _ c inPlace⟩

theorem Coherent.not_created (h : Coherent base t) (free : t.inPlace key.flip = none) :
    key ∉ t.classificationCreated := by
  intro created
  obtain ⟨source, c, inPlace, same⟩ := h.placed.created_target key created
  rw [← same, Record.flip_flip, inPlace] at free
  cases free

variable {rows : PhysicalRows}

theorem Remembers.insert {created : Finset RecordKey} {conv : RecordKey → Option Reclassification}
    (wf : WellFormed base rows) (h : Remembers base rows created conv) :
    Remembers base (rows.insertRecordRows base key none).1 created conv := by
  refine { h with ordinal_lt := ?_, ordinal_free := ?_ }
  · intro source c n inPlace remembered
    exact lt_of_lt_of_le (h.ordinal_lt source c n inPlace remembered) (le_insertRecordRows_next wf)
  · intro source c n other inPlace remembered found
    rw [insertRecordRows_ord wf] at found
    split at found
    · have := h.ordinal_lt source c n inPlace remembered
      simp only [Option.getD_none, Option.some.injEq] at found
      omega
    · exact h.ordinal_free source c n other inPlace remembered found

theorem Coherent.insertRecordRows (h : Coherent base t) (key : RecordKey) :
    Coherent base { t with toPhysicalRows := (t.toPhysicalRows.insertRecordRows base key none).1 } := by
  constructor
  · exact insertRecordRows_wellFormed h.rows fun _ => ordinalFree_none
  · exact h.remembers.insert h.rows
  · refine { h.placed with target_live := fun source c inPlace => ?_ }
    rw [insertRecordRows_effective h.rows]
    exact Finset.mem_insert_of_mem (h.placed.target_live source c inPlace)
  · exact h.in_scope

theorem Coherent.authored_insertRecordRows (h : Coherent base t) (key other : RecordKey) :
    Authored base { t with toPhysicalRows := (t.toPhysicalRows.insertRecordRows base key none).1 }
      other ↔ Authored base t other ∨ (other = key ∧ key ∉ t.effective base) := by
  have created_live : key ∈ t.classificationCreated → key ∈ t.effective base := by
    intro created
    obtain ⟨source, c, inPlace, same⟩ := h.placed.created_target key created
    rw [← same]
    exact h.placed.target_live source c inPlace
  have unchanged : inPlace { t with
      toPhysicalRows := (t.toPhysicalRows.insertRecordRows base key none).1 } other =
        t.inPlace other := rfl
  simp only [Authored, insertRecordRows_effective h.rows, Finset.mem_insert, unchanged]
  constructor
  · rintro (⟨rfl | live, notCreated⟩ | converted)
    · by_cases live : other ∈ t.effective base
      · exact Or.inl (Or.inl ⟨live, notCreated⟩)
      · exact Or.inr ⟨rfl, live⟩
    · exact Or.inl (Or.inl ⟨live, notCreated⟩)
    · exact Or.inl (Or.inr converted)
  · rintro ((⟨live, notCreated⟩ | converted) | ⟨rfl, dead⟩)
    · exact Or.inl ⟨Or.inr live, notCreated⟩
    · exact Or.inr converted
    · exact Or.inl ⟨Or.inl rfl, fun created => dead (created_live created)⟩

/-! ### Forgetting a removed row -/

theorem conversionsOf_forget {key : RecordKey} {scope : Scope} :
    ((t.forgetClassification key).conversionsOf scope) =
      if scope = key.quad.scope then
        (t.conversionsOf scope).retain fun _ conversion => decide (conversion.target ≠ key)
      else t.conversionsOf scope := by
  simp only [conversionsOf, forgetClassification, FastMap.lookup_adjust]
  split
  · rename_i same
    subst same
    rcases t.reclassified.lookup key.quad.scope with - | conversions
    · rfl
    · rfl
  · rfl

theorem inPlace_forget (h : Coherent base t) (key source : RecordKey) (c : Reclassification) :
    (t.forgetClassification key).inPlace source = some c ↔
      t.inPlace source = some c ∧ source.flip ≠ key := by
  simp only [inPlace, conversionsOf_forget]
  split
  · rw [FastMap.lookup_retain, decide_eq_true_eq]
    constructor
    · rintro ⟨found, differs⟩
      exact ⟨found, (h.remembers.target source c found).2 ▸ differs⟩
    · rintro ⟨found, differs⟩
      exact ⟨found, (h.remembers.target source c found).2 ▸ differs⟩
  · rename_i elsewhere
    constructor
    · intro found
      refine ⟨found, fun same => elsewhere ?_⟩
      rw [← same, Record.flip_quad]
    · exact And.left

theorem Remembers.removed {rows rows' : PhysicalRows} {created : Finset RecordKey}
    {conv : RecordKey → Option Reclassification} (h : Remembers base rows created conv)
    (removed : Removed base rows key rows') :
    Remembers base rows' (created.erase key) conv := by
  refine { h with ordinal_lt := ?_, ordinal_free := ?_ }
  · intro source c n found remembered
    rw [removed.next]
    exact h.ordinal_lt source c n found remembered
  · intro source c n other found remembered stored
    rw [removed.ord] at stored
    split at stored
    · cases stored
    · rename_i differs
      have free := h.ordinal_free source c n other found remembered stored
      exact ⟨free.1, Finset.mem_erase.mpr ⟨differs, free.2⟩⟩

theorem Remembers.restrict {created : Finset RecordKey}
    {conv conv' : RecordKey → Option Reclassification} (h : Remembers base rows created conv)
    (sub : ∀ source c, conv' source = some c → conv source = some c) :
    Remembers base rows created conv' := by
  constructor
  · exact fun source c found => h.target source c (sub source c found)
  · exact fun source c found => h.origin source c (sub source c found)
  · exact fun source c n found => h.ordinal_lt source c n (sub source c found)
  · exact fun source source' c c' n found found' =>
      h.ordinal_inj source source' c c' n (sub source c found) (sub source' c' found')
  · exact fun source c n other found => h.ordinal_free source c n other (sub source c found)

theorem Coherent.forget (h : Coherent base t) (removed : Removed base t.toPhysicalRows key rows) :
    Coherent base ({ t with toPhysicalRows := rows }.forgetClassification key) := by
  have lookup : ∀ source c,
      ({ t with toPhysicalRows := rows }.forgetClassification key).inPlace source = some c ↔
        t.inPlace source = some c ∧ source.flip ≠ key := inPlace_forget h key
  constructor
  · exact removed.wellFormed
  · exact (h.remembers.removed removed).restrict fun source c found =>
      ((lookup source c).mp found).1
  · constructor
    · intro source c found
      obtain ⟨inPlace, differs⟩ := (lookup source c).mp found
      simp only [forgetClassification, removed.effective]
      exact Finset.mem_erase.mpr ⟨differs, h.placed.target_live source c inPlace⟩
    · intro source c found
      have inPlace := ((lookup source c).mp found).1
      rcases other : ({ t with toPhysicalRows := rows }.forgetClassification key).inPlace source.flip
        with - | c'
      · exact other
      · have := ((lookup _ c').mp other).1
        rw [h.placed.one_way source c inPlace] at this
        cases this
    · intro created member
      obtain ⟨differs, member⟩ := Finset.mem_erase.mp member
      obtain ⟨source, c, inPlace, same⟩ := h.placed.created_target created member
      refine ⟨source, c, ?_, same⟩
      rw [lookup]
      exact ⟨inPlace, same ▸ differs⟩
  · intro scope source c found
    have split : ({ t with toPhysicalRows := rows }.forgetClassification key).conversionsOf scope =
        (t.forgetClassification key).conversionsOf scope := rfl
    rw [split, conversionsOf_forget] at found
    split at found
    · exact h.in_scope scope source c (FastMap.lookup_retain.mp found).1
    · exact h.in_scope scope source c found

/-! ### Converting one row -/

theorem inPlace_recordConversion (t : ClassifiedRows) (source : RecordKey) (c : Reclassification)
    (other : RecordKey) :
    (t.recordConversion source c).inPlace other =
      if other = source then some c else t.inPlace other := by
  simp only [inPlace, recordConversion, conversionsOf]
  by_cases same : other = source
  · subst same
    simp
  · by_cases scopes : other.quad.scope = source.quad.scope
    · rw [scopes, AList.lookup_insert, Option.getD_some, AList.lookup_insert_ne same, if_neg same]
    · rw [AList.lookup_insert_ne scopes, if_neg same]

/-- The state after `source` has been moved to the other table under its ordinal. -/
def converted (base : RdfDataset) (t : ClassifiedRows) (rows : PhysicalRows)
    (source : RecordKey) : ClassifiedRows :=
  let inserted := rows.insertRecordRows base source.flip (t.addedOrd.lookup source)
  let created :=
    if inserted.2 then insert source.flip t.classificationCreated else t.classificationCreated
  { t with toPhysicalRows := inserted.1, classificationCreated := created }.recordConversion
    source ⟨source.flip, t.addedOrd.lookup source⟩

theorem mem_created_converted (wf : WellFormed base rows) :
    key ∈ (t.converted base rows source).classificationCreated ↔
      key ∈ t.classificationCreated ∨ (key = source.flip ∧ source.flip ∉ rows.effective base) := by
  simp only [converted, recordConversion, insertRecordRows_changed wf, decide_eq_true_eq]
  split
  · rename_i fresh
    simp only [Finset.mem_insert, fresh, not_false_eq_true, and_true]
    tauto
  · rename_i live
    simp [live]

theorem ordinalFree_removed (wf : WellFormed base t.toPhysicalRows)
    (removed : Removed base t.toPhysicalRows source rows) :
    OrdinalFree rows (t.addedOrd.lookup source) := by
  intro n own
  constructor
  · rw [removed.next]
    exact wf.ord_lt source n own
  · intro key found
    rw [removed.ord] at found
    split at found
    · cases found
    · rename_i differs
      exact differs (wf.ord_inj key source n found own)

theorem inPlace_converted (base : RdfDataset) (t : ClassifiedRows) (rows : PhysicalRows)
    (source other : RecordKey) :
    (t.converted base rows source).inPlace other =
      if other = source then some ⟨source.flip, t.addedOrd.lookup source⟩
      else t.inPlace other :=
  inPlace_recordConversion { t with
      toPhysicalRows := (rows.insertRecordRows base source.flip (t.addedOrd.lookup source)).1
      classificationCreated := (t.converted base rows source).classificationCreated } source _ other

section Convert

variable {rows : PhysicalRows} (h : Coherent base t)
  (removed : Removed base t.toPhysicalRows source rows) (kind : source.kind ≠ .reifier)
  (live : source ∈ t.effective base) (free : t.inPlace source = none)
  (unflipped : t.inPlace source.flip = none)

include h removed kind live free unflipped

omit free in
theorem converted_remembers :
    Remembers base (t.converted base rows source).toPhysicalRows
      (t.converted base rows source).classificationCreated
      (t.converted base rows source).inPlace := by
  have conv := inPlace_converted base t rows source
  have uncreated : source ∉ t.classificationCreated := h.not_created unflipped
  have ord : ∀ key, (t.converted base rows source).addedOrd.lookup key =
      if key = source.flip ∧ source.flip ∉ rows.effective base ∧ source.flip ∉ base.records then
        some ((t.addedOrd.lookup source).getD rows.nextAddedOrd)
      else rows.addedOrd.lookup key := insertRecordRows_ord removed.wellFormed
  have next : t.nextAddedOrd ≤ (t.converted base rows source).nextAddedOrd := by
    rw [← removed.next]
    exact le_insertRecordRows_next removed.wellFormed
  constructor
  · intro other c found
    rw [conv] at found
    split at found
    · rename_i same
      cases found
      exact ⟨same ▸ kind, by rw [same]⟩
    · exact h.remembers.target other c found
  · intro other c found
    rw [conv] at found
    split at found
    · rename_i same
      cases found
      rw [same, h.rows.ord_none, h.rows.mem_added_iff]
      simp [live]
    · exact h.remembers.origin other c found
  · intro other c n found remembered
    refine lt_of_lt_of_le ?_ next
    rw [conv] at found
    split at found
    · cases found
      exact h.rows.ord_lt source n remembered
    · exact h.remembers.ordinal_lt other c n found remembered
  · intro left right c c' n hl hr nl nr
    rw [conv] at hl hr
    split at hl <;> split at hr
    · rename_i a b
      rw [a, b]
    · cases hl
      exact absurd (h.remembers.ordinal_free right c' n source hr nr nl).2 uncreated
    · cases hr
      exact absurd (h.remembers.ordinal_free left c n source hl nl nr).2 uncreated
    · exact h.remembers.ordinal_inj left right c c' n hl hr nl nr
  · intro other c n key found remembered stored
    rw [mem_created_converted removed.wellFormed]
    rw [ord] at stored
    rw [conv] at found
    split at stored
    · rename_i fresh
      refine ⟨?_, Or.inr ⟨fresh.1, fresh.2.1⟩⟩
      split at found
      · rename_i same
        rw [fresh.1, same]
      · -- another remembered ordinal cannot be the one the new target carries
        exfalso
        rcases own : t.addedOrd.lookup source with - | m
        · rw [own, removed.next] at stored
          have := h.remembers.ordinal_lt other c n found remembered
          simp only [Option.getD_none, Option.some.injEq] at stored
          omega
        · rw [own] at stored
          cases stored
          exact uncreated (h.remembers.ordinal_free other c _ source found remembered own).2
    · rw [removed.ord] at stored
      split at stored
      · cases stored
      · rename_i differs
        split at found
        · cases found
          exact absurd (h.rows.ord_inj key source _ stored remembered) differs
        · have := h.remembers.ordinal_free other c n key found remembered stored
          exact ⟨this.1, Or.inl this.2⟩

theorem converted_coherent : Coherent base (t.converted base rows source) := by
  have conv := inPlace_converted base t rows source
  have effective : (t.converted base rows source).effective base =
      insert source.flip ((t.effective base).erase source) := by
    rw [← removed.effective]
    exact insertRecordRows_effective removed.wellFormed
  constructor
  · exact insertRecordRows_wellFormed removed.wellFormed fun _ =>
      ordinalFree_removed h.rows removed
  · exact converted_remembers h removed kind live unflipped
  · constructor
    · intro other c found
      rw [effective, Finset.mem_insert]
      rw [conv] at found
      split at found
      · rename_i same
        exact Or.inl (by rw [same])
      · refine Or.inr (Finset.mem_erase.mpr ⟨?_, h.placed.target_live other c found⟩)
        intro same
        rw [← same, Record.flip_flip, found] at unflipped
        cases unflipped
    · intro other c found
      rw [conv] at found
      rw [conv]
      split at found
      · rename_i same
        subst same
        rw [if_neg (Record.flip_ne kind), unflipped]
      · split
        · rename_i same
          rw [← same, Record.flip_flip, found] at unflipped
          cases unflipped
        · exact h.placed.one_way other c found
    · intro created member
      rcases (mem_created_converted removed.wellFormed).mp member with member | ⟨rfl, -⟩
      · obtain ⟨other, c, found, same⟩ := h.placed.created_target created member
        refine ⟨other, c, ?_, same⟩
        rw [conv, if_neg, found]
        rintro rfl
        rw [found] at free
        cases free
      · exact ⟨source, _, by rw [conv, if_pos rfl], rfl⟩
  · intro scope other c found
    have found : ((((t.reclassified.insert source.quad.scope
        ((t.conversionsOf source.quad.scope).insert source
          ⟨source.flip, t.addedOrd.lookup source⟩)).lookup scope).getD ∅).lookup other) =
            some c := found
    by_cases scopes : scope = source.quad.scope
    · rw [scopes, AList.lookup_insert, Option.getD_some] at found
      by_cases same : other = source
      · rw [same, scopes]
      · rw [AList.lookup_insert_ne same] at found
        rw [scopes]
        exact h.in_scope _ other c found
    · rw [AList.lookup_insert_ne scopes] at found
      exact h.in_scope scope other c found

theorem converted_authored (other : RecordKey) :
    Authored base (t.converted base rows source) other ↔ Authored base t other := by
  have conv := inPlace_converted base t rows source other
  have effective : (t.converted base rows source).effective base =
      insert source.flip (rows.effective base) := insertRecordRows_effective removed.wellFormed
  have uncreated : source ∉ t.classificationCreated := h.not_created unflipped
  simp only [Authored, mem_created_converted removed.wellFormed, effective, Finset.mem_insert, conv]
  by_cases same : other = source
  · subst same
    simp [live, uncreated]
  · rw [if_neg same]
    by_cases target : other = source.flip
    · subst target
      rw [removed.effective]
      simp [unflipped, Record.flip_ne kind]
      tauto
    · rw [removed.effective]
      simp [same, target]

end Convert

end ClassifiedRows

end Purrdf
