import Purrdf.TarjanRun

/-!
# Component ids

A graph with an edge out of the node space is refused. Otherwise the components emitted are
the classes of mutual reachability, each edge leads to its own component or an earlier one,
and the number of a node's component is its id.
-/

namespace Purrdf.Graph

open Walk

variable {adjacency : Adjacency} {len : Nat}

def Adjacency.Inside (adjacency : Adjacency) : Prop :=
  ∀ source, ∀ target ∈ adjacency.edges source, target < adjacency.length

theorem validateRow_spec (len source : Nat) (row : List Nat) :
    (validateRow len source row = .ok () ∧ ∀ target ∈ row, target < len) ∨
      ∃ target ∈ row, len ≤ target ∧
        validateRow len source row = .error (.invalidEdge source target) := by
  induction row with
  | nil => exact .inl ⟨rfl, nofun⟩
  | cons target row ih =>
    unfold validateRow
    split
    · next hout => exact .inr ⟨target, List.mem_cons_self, hout, rfl⟩
    · next hin =>
        rcases ih with ⟨hok, hall⟩ | ⟨found, hmem, hout, herror⟩
        · exact .inl ⟨hok, List.forall_mem_cons.mpr ⟨Nat.lt_of_not_le hin, hall⟩⟩
        · exact .inr ⟨found, List.mem_cons_of_mem _ hmem, hout, herror⟩

theorem validateRows_spec (len source : Nat) (rows : List (List Nat)) :
    (validateRows len source rows = .ok () ∧ ∀ row ∈ rows, ∀ target ∈ row, target < len) ∨
      ∃ offset target, target ∈ rows.getD offset [] ∧ len ≤ target ∧
        validateRows len source rows = .error (.invalidEdge (source + offset) target) := by
  induction rows generalizing source with
  | nil => exact .inl ⟨rfl, nofun⟩
  | cons row rows ih =>
    unfold validateRows
    rcases validateRow_spec len source row with ⟨hok, hrow⟩ | ⟨target, hmem, hout, herror⟩
    · rw [hok]
      rcases ih (source + 1) with ⟨hrest, hall⟩ | ⟨offset, target, hmem, hout, herror⟩
      · exact .inl ⟨hrest, List.forall_mem_cons.mpr ⟨hrow, hall⟩⟩
      · refine .inr ⟨offset + 1, target, hmem, hout, ?_⟩
        rw [← Nat.add_assoc, Nat.add_right_comm]
        exact herror
    · rw [herror]
      exact .inr ⟨0, target, hmem, hout, rfl⟩

theorem validateAdjacency_ok (h : adjacency.Inside) : validateAdjacency adjacency = .ok () := by
  rcases validateRows_spec adjacency.length 0 adjacency with ⟨hok, -⟩ | ⟨source, target, hmem, hout, -⟩
  · exact hok
  · exact absurd (h source target hmem) (Nat.not_lt.mpr hout)

theorem validateAdjacency_error (h : ¬adjacency.Inside) :
    ∃ source target, target ∈ adjacency.edges source ∧ adjacency.length ≤ target ∧
      validateAdjacency adjacency = .error (.invalidEdge source target) := by
  rcases validateRows_spec adjacency.length 0 adjacency with ⟨-, hall⟩ | ⟨source, target, hmem, hout, herror⟩
  · refine absurd (fun source target hmem => ?_) h
    unfold Adjacency.edges at hmem
    rw [List.getD_eq_getElem?_getD] at hmem
    cases hrow : adjacency[source]? with
    | none => simp [hrow] at hmem
    | some row =>
      rw [hrow, Option.getD_some] at hmem
      exact hall row (List.mem_of_getElem? hrow) target hmem
  · rw [Nat.zero_add] at herror
    exact ⟨source, target, hmem, hout, herror⟩

/-! ### Numbering -/

theorem getElem?_foldl_set (members : List Nat) (id : Nat) (index : List Nat) (node : Nat) :
    (members.foldl (fun index member => index.set member id) index)[node]? =
      if node ∈ members ∧ node < index.length then some id else index[node]? := by
  induction members generalizing index with
  | nil => simp
  | cons member members ih =>
    rw [List.foldl_cons, ih, List.length_set, List.getElem?_set]
    by_cases heq : member = node
    · subst heq
      by_cases hlt : member < index.length <;> simp [hlt]
    · simp [heq, Ne.symm heq]

theorem length_foldl_set (members : List Nat) (id : Nat) (index : List Nat) :
    (members.foldl (fun index member => index.set member id) index).length = index.length := by
  induction members generalizing index with
  | nil => rfl
  | cons member members ih => rw [List.foldl_cons, ih, List.length_set]

theorem length_number (components : List (List Nat)) (indexed : List Nat × Nat) :
    (components.foldl number indexed).1.length = indexed.1.length := by
  induction components generalizing indexed with
  | nil => rfl
  | cons component components ih => rw [List.foldl_cons, ih, number, length_foldl_set]

theorem number_of_not_mem {components : List (List Nat)} {indexed : List Nat × Nat} {node : Nat}
    (h : ∀ component ∈ components, node ∉ component) :
    (components.foldl number indexed).1[node]? = indexed.1[node]? := by
  induction components generalizing indexed with
  | nil => rfl
  | cons component components ih =>
    obtain ⟨hnot, hrest⟩ := List.forall_mem_cons.mp h
    rw [List.foldl_cons, ih hrest, number, getElem?_foldl_set]
    simp [hnot]

theorem number_eq {components : List (List Nat)} {indexed : List Nat × Nat} {id node : Nat}
    {component : List Nat} (hdisjoint : components.Pairwise List.Disjoint)
    (hid : components[id]? = some component) (hnode : node ∈ component)
    (hlen : node < indexed.1.length) :
    (components.foldl number indexed).1[node]? = some (indexed.2 + id) := by
  induction components generalizing indexed id with
  | nil => simp at hid
  | cons first components ih =>
    obtain ⟨hfirst, hrest⟩ := List.pairwise_cons.mp hdisjoint
    rw [List.foldl_cons]
    cases id with
    | zero =>
      obtain rfl : first = component := by simpa using hid
      have hnot : ∀ other ∈ components, node ∉ other :=
        fun other hother hmem => hfirst other hother hnode hmem
      rw [number_of_not_mem hnot, number, getElem?_foldl_set]
      simp [hnode, hlen]
    | succ id =>
      have hlen' : node < (number indexed first).1.length := by
        rw [number, length_foldl_set]
        exact hlen
      rw [ih hrest hid hlen', number]
      simp [Nat.add_assoc, Nat.add_comm 1]

/-! ### The components emitted -/

structure IsComponents (adjacency : Adjacency) (components : List (List Nat)) : Prop where
  classes : ∀ component ∈ components, ∃ node < adjacency.length,
    ∀ other, other ∈ component ↔ other < adjacency.length ∧ Connected adjacency.edges node other
  nodup : components.flatten.Nodup
  mem_iff : ∀ node, node ∈ components.flatten ↔ node < adjacency.length

/-- Ids below `count` for the nodes, one for each class, that never rise along an edge. -/
structure IsIndex (adjacency : Adjacency) (count : Nat) (index : List Nat) : Prop where
  length_eq : index.length = adjacency.length
  same_iff : ∀ node < adjacency.length, ∀ other < adjacency.length,
    index.getD node 0 = index.getD other 0 ↔ Connected adjacency.edges node other
  mem_iff : ∀ id, id ∈ index ↔ id < count
  lower : ∀ node < adjacency.length, ∀ target ∈ adjacency.edges node,
    ¬Connected adjacency.edges node target → index.getD target 0 < index.getD node 0

theorem tarjan_spec (h : adjacency.Inside) :
    ∃ walk, tarjan adjacency = some walk.emitted ∧ Emitted adjacency.edges walk ∧
      ∀ node, walk.IsEmitted node ↔ node < adjacency.length := by
  obtain ⟨walk, hrun, hsettled, hextends, hall⟩ := (settled_start adjacency.edges).roots h
    (List.range adjacency.length) fun root => List.mem_range.mp
  refine ⟨walk, ?_, hsettled.emitted, fun node => ?_⟩
  · unfold tarjan
    rw [hrun, Option.map_some]
  · have hstack : node ∉ walk.stack := by
      rw [hsettled.stack_eq]
      exact List.not_mem_nil
    refine (hsettled.emitted.mem_iff node).trans ⟨fun hvisited => ?_, fun hlt => ?_⟩
    · rcases hextends.inside node hvisited.1 with hstart | hlt
      · exact absurd rfl hstart
      · exact hlt
    · exact ⟨hall node (List.mem_range.mpr hlt), hstack⟩

theorem isComponents_of_emitted {walk : Walk} (hemitted : Emitted adjacency.edges walk)
    (hall : ∀ node, walk.IsEmitted node ↔ node < adjacency.length) :
    IsComponents adjacency (walk.emitted.map List.reverse) := by
  refine ⟨fun component hmem => ?_, ?_, fun node => ?_⟩
  · obtain ⟨component, hcomponent, rfl⟩ := List.mem_map.mp hmem
    obtain ⟨node, hnode⟩ := List.exists_mem_of_ne_nil _ (hemitted.nonempty component hcomponent)
    refine ⟨node, (hall node).mp ⟨component, hcomponent, hnode⟩, fun other => ?_⟩
    rw [List.mem_reverse, hemitted.classes component hcomponent node hnode other]
    refine ⟨fun hconnected => ⟨?_, hconnected⟩, And.right⟩
    have hother := (hemitted.classes component hcomponent node hnode other).mpr hconnected
    exact (hall other).mp ⟨component, hcomponent, hother⟩
  · refine List.nodup_flatten.mpr ⟨fun component hmem => ?_, List.pairwise_map.mpr ?_⟩
    · obtain ⟨component, hcomponent, rfl⟩ := List.mem_map.mp hmem
      exact List.nodup_reverse.mpr (hemitted.nodup component hcomponent)
    · refine hemitted.disjoint.imp fun hdisjoint node hnode hother => ?_
      exact hdisjoint (List.mem_reverse.mp hnode) (List.mem_reverse.mp hother)
  · rw [← hall node, List.mem_flatten]
    constructor
    · rintro ⟨component, hmem, hnode⟩
      obtain ⟨component, hcomponent, rfl⟩ := List.mem_map.mp hmem
      exact ⟨component, hcomponent, List.mem_reverse.mp hnode⟩
    · rintro ⟨component, hcomponent, hnode⟩
      exact ⟨_, List.mem_map_of_mem hcomponent, List.mem_reverse.mpr hnode⟩

theorem number_emitted {walk : Walk} (hemitted : Emitted adjacency.edges walk)
    (hall : ∀ node, walk.IsEmitted node ↔ node < adjacency.length) (filler : Nat) {id node : Nat}
    {component : List Nat} (hid : walk.emitted[id]? = some component) (hnode : node ∈ component) :
    (walk.emitted.foldl number (List.replicate adjacency.length filler, 0)).1[node]? =
      some id := by
  have hlt := (hall node).mp ⟨component, List.mem_of_getElem? hid, hnode⟩
  rw [number_eq hemitted.disjoint hid hnode (by rw [List.length_replicate]; exact hlt), Nat.zero_add]

theorem isIndex_of_emitted {walk : Walk} (hemitted : Emitted adjacency.edges walk)
    (hall : ∀ node, walk.IsEmitted node ↔ node < adjacency.length) (filler : Nat) :
    IsIndex adjacency walk.emitted.length
      (walk.emitted.foldl number (List.replicate adjacency.length filler, 0)).1 := by
  have hget : ∀ {id node : Nat} {component : List Nat}, walk.emitted[id]? = some component → node ∈ component →
      (walk.emitted.foldl number (List.replicate adjacency.length filler, 0)).1.getD node 0 =
        id := by
    intro id node component hid hnode
    rw [List.getD_eq_getElem?_getD, number_emitted hemitted hall filler hid hnode]
    rfl
  have hplace : ∀ node < adjacency.length,
      ∃ (id : Nat) (component : List Nat),
        walk.emitted[id]? = some component ∧ node ∈ component := by
    intro node hlt
    obtain ⟨component, hmem, hnode⟩ := (hall node).mpr hlt
    obtain ⟨id, hid⟩ := List.getElem?_of_mem hmem
    exact ⟨id, component, hid, hnode⟩
  have hclass : ∀ {id node : Nat} {component : List Nat} {other : Nat},
      walk.emitted[id]? = some component →
      node ∈ component → (other ∈ component ↔ Connected adjacency.edges node other) :=
    fun hid hnode => hemitted.classes _ (List.mem_of_getElem? hid) _ hnode _
  have hlength := length_number walk.emitted (List.replicate adjacency.length filler, 0)
  rw [List.length_replicate] at hlength
  refine ⟨hlength, ?_, ?_, ?_⟩
  · intro node hnode other hother
    obtain ⟨id, component, hid, hmem⟩ := hplace node hnode
    rw [hget hid hmem, ← hclass hid hmem]
    constructor
    · intro heq
      obtain ⟨id', component', hid', hmem'⟩ := hplace other hother
      rw [hget hid' hmem'] at heq
      rw [heq, hid'] at hid
      rwa [← Option.some.inj hid]
    · exact fun hshared => (hget hid hshared).symm
  · intro id
    constructor
    · intro hmem
      obtain ⟨node, hnode⟩ := List.getElem?_of_mem hmem
      have hlt := (List.getElem?_eq_some_iff.mp hnode).1
      rw [hlength] at hlt
      obtain ⟨place, component, hplaced, hmember⟩ := hplace node hlt
      rw [number_emitted hemitted hall filler hplaced hmember, Option.some.injEq] at hnode
      rw [← hnode]
      exact (List.getElem?_eq_some_iff.mp hplaced).1
    · intro hlt
      have hid : walk.emitted[id]? = some walk.emitted[id] := List.getElem?_eq_getElem hlt
      obtain ⟨node, hnode⟩ := List.exists_mem_of_ne_nil _
        (hemitted.nonempty _ (List.getElem_mem hlt))
      exact List.mem_of_getElem? (number_emitted hemitted hall filler hid hnode)
  · intro node hnode target hedge hapart
    obtain ⟨id, component, hid, hmem⟩ := hplace node hnode
    obtain ⟨other, hle, component', hother, htarget⟩ :=
      hemitted.order id component hid node hmem target hedge
    rw [hget hother htarget, hget hid hmem]
    refine Nat.lt_of_le_of_ne hle fun heq => hapart ?_
    rw [heq, hid] at hother
    rw [← hclass hid hmem, Option.some.inj hother]
    exact htarget

theorem IsIndex.count_le {count : Nat} {index : List Nat} (h : IsIndex adjacency count index) :
    count ≤ adjacency.length := by
  have hsubset : List.range count ⊆ index :=
    fun id hmem => (h.mem_iff id).mpr (List.mem_range.mp hmem)
  have hle := (List.subperm_of_subset List.nodup_range hsubset).length_le
  rwa [List.length_range, h.length_eq] at hle

theorem IsIndex.le_of_edge {count : Nat} {index : List Nat} (h : IsIndex adjacency count index)
    (hinside : adjacency.Inside) {node target : Nat} (hnode : node < adjacency.length)
    (hedge : target ∈ adjacency.edges node) : index.getD target 0 ≤ index.getD node 0 := by
  by_cases hconnected : Connected adjacency.edges node target
  · exact Nat.le_of_eq ((h.same_iff node hnode target (hinside node target hedge)).mpr hconnected).symm
  · exact Nat.le_of_lt (h.lower node hnode target hedge hconnected)

theorem sccComponentIndex_ok (h : adjacency.Inside) :
    ∃ index components, sccComponentIndex adjacency = .ok (some index) ∧
      tarjanScc adjacency = .ok (some components) ∧
        IsIndex adjacency components.length index ∧ IsComponents adjacency components := by
  obtain ⟨walk, htarjan, hemitted, hall⟩ := tarjan_spec h
  refine ⟨(walk.emitted.foldl number (List.replicate adjacency.length (2 ^ 64 - 1), 0)).1,
    walk.emitted.map List.reverse, ?_, ?_, ?_, isComponents_of_emitted hemitted hall⟩
  · unfold sccComponentIndex
    rw [validateAdjacency_ok h, htarjan]
    rfl
  · unfold tarjanScc
    rw [validateAdjacency_ok h, htarjan]
    rfl
  · rw [List.length_map]
    exact isIndex_of_emitted hemitted hall _

/-- The ids and the components of a graph whose edges stay in the node space are those of
mutual reachability, and any other graph is refused for an edge that leaves it. -/
theorem components_exact (adjacency : Adjacency) :
    (adjacency.Inside → ∃ index components,
      sccComponentIndex adjacency = .ok (some index) ∧
        tarjanScc adjacency = .ok (some components) ∧
          IsIndex adjacency components.length index ∧ IsComponents adjacency components) ∧
    (¬adjacency.Inside → ∃ source target,
      target ∈ adjacency.edges source ∧ adjacency.length ≤ target ∧
        sccComponentIndex adjacency = .error (.invalidEdge source target) ∧
          tarjanScc adjacency = .error (.invalidEdge source target)) := by
  constructor
  · exact sccComponentIndex_ok
  · intro h
    obtain ⟨source, target, hmem, hout, herror⟩ := validateAdjacency_error h
    refine ⟨source, target, hmem, hout, ?_, ?_⟩
    · unfold sccComponentIndex
      rw [herror]
    · unfold tarjanScc
      rw [herror]

end Purrdf.Graph
