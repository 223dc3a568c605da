import Mathlib.Data.List.Nodup
import Purrdf.Tarjan

/-!
# The invariant of the walk

The stack falls into one segment for each frame: its node, and above it the finished nodes
it reached whose component is still open. A finished node reaches a node further down the
stack, and no edge of a segment leads further down than the low link of its frame. So where
a low link is the node's own index, its segment reaches nothing below it and every node of
the segment reaches the last, and it is a component.
-/

namespace Purrdf.Graph

open Relation

variable {edges : Nat → List Nat}

def Reach (edges : Nat → List Nat) : Nat → Nat → Prop :=
  ReflTransGen fun source target => target ∈ edges source

theorem Reach.stays {inside : Nat → Prop} {source target : Nat} (h : Reach edges source target)
    (hclosed : ∀ node, inside node → ∀ next ∈ edges node, inside next) (hsource : inside source) :
    inside target := by
  induction h with
  | refl => exact hsource
  | tail _ hedge ih => exact hclosed _ ih _ hedge

def Connected (edges : Nat → List Nat) (first second : Nat) : Prop :=
  Reach edges first second ∧ Reach edges second first

namespace Walk

variable {walk : Walk}

def Visited (walk : Walk) (node : Nat) : Prop := walk.index node ≠ none

def rank (walk : Walk) (node : Nat) : Nat := (walk.index node).getD 0

theorem index_eq {node : Nat} (h : walk.Visited node) : walk.index node = some (walk.rank node) := by
  obtain ⟨index, hindex⟩ := Option.ne_none_iff_exists'.mp h
  rw [rank, hindex]
  rfl

def Seen (walk : Walk) (low target : Nat) : Prop :=
  walk.Visited target ∧ (target ∈ walk.stack → low ≤ walk.rank target)

theorem Seen.mono {low low' target : Nat} (h : walk.Seen low target) (hle : low' ≤ low) :
    walk.Seen low' target := ⟨h.1, fun hmem => Nat.le_trans hle (h.2 hmem)⟩

structure Segment where
  node : Nat
  rest : List Nat
  above : List Nat

def Segment.nodes (segment : Segment) : List Nat := segment.above ++ [segment.node]

def Segment.frame (segment : Segment) : Nat × List Nat := (segment.node, segment.rest)

structure Segment.Good (edges : Nat → List Nat) (walk : Walk) (segment : Segment) : Prop where
  low_le : walk.low segment.node ≤ walk.rank segment.node
  low_reached : ∃ target ∈ walk.stack, walk.rank target = walk.low segment.node ∧
    Reach edges segment.node target
  followed : ∃ passed, edges segment.node = passed ++ segment.rest ∧
    ∀ target ∈ passed, walk.Seen (walk.low segment.node) target
  reached : ∀ node ∈ segment.above, Reach edges segment.node node
  finished : ∀ node ∈ segment.above, ∀ target ∈ edges node, walk.Seen (walk.low segment.node) target
  descends : ∀ node ∈ segment.above, ∃ target ∈ walk.stack, walk.rank target < walk.rank node ∧
    Reach edges node target

structure Emitted (edges : Nat → List Nat) (walk : Walk) : Prop where
  mem_iff : ∀ node, (∃ component ∈ walk.emitted, node ∈ component) ↔
    walk.Visited node ∧ node ∉ walk.stack
  disjoint : walk.emitted.Pairwise List.Disjoint
  nodup : ∀ component ∈ walk.emitted, component.Nodup
  nonempty : ∀ component ∈ walk.emitted, component ≠ []
  classes : ∀ component ∈ walk.emitted, ∀ node ∈ component, ∀ other,
    other ∈ component ↔ Connected edges node other
  order : ∀ (id : Nat) (component : List Nat), walk.emitted[id]? = some component →
    ∀ node ∈ component, ∀ target ∈ edges node, ∃ other ≤ id, ∃ component,
      walk.emitted[other]? = some component ∧ target ∈ component

structure Settled (edges : Nat → List Nat) (walk : Walk) (segments : List Segment) : Prop where
  work_eq : walk.work = segments.map Segment.frame
  stack_eq : walk.stack = segments.flatMap Segment.nodes
  onStack_iff : ∀ node, walk.onStack node = true ↔ node ∈ walk.stack
  visited : ∀ node ∈ walk.stack, walk.Visited node
  index_lt : ∀ node, walk.Visited node → walk.rank node < walk.nextIndex
  sorted : walk.stack.Pairwise fun upper lower => walk.rank lower < walk.rank upper
  chain : segments.Pairwise fun upper lower => Reach edges lower.node upper.node
  good : ∀ segment ∈ segments, segment.Good edges walk
  emitted : Emitted edges walk

theorem Segment.node_mem {segment : Segment} : segment.node ∈ segment.nodes :=
  List.mem_append_right _ (List.mem_singleton_self _)

theorem Segment.mem_nodes {segment : Segment} {node : Nat} :
    node ∈ segment.nodes ↔ node ∈ segment.above ∨ node = segment.node := by
  simp [Segment.nodes]

/-- A scan follows edges up to the first to an unvisited node. -/
structure Scanned (walk : Walk) (low : Nat) (rest : List Nat)
    (result : Nat × Option (Nat × List Nat)) : Prop where
  low_le : result.1 ≤ low
  low_eq : result.1 = low ∨ ∃ target ∈ rest, walk.onStack target = true ∧ walk.Visited target ∧
    result.1 = walk.rank target
  followed : ∃ passed, rest = passed ++ (result.2.elim [] fun found => found.1 :: found.2) ∧
    ∀ target ∈ passed, walk.Visited target ∧
      (walk.onStack target = true → result.1 ≤ walk.rank target)
  found : ∀ child rest, result.2 = some (child, rest) → walk.index child = none

theorem scan_spec (walk : Walk) (low : Nat) (rest : List Nat) :
    Scanned walk low rest (walk.scan low rest) := by
  induction rest generalizing low with
  | nil => exact ⟨Nat.le_refl _, .inl rfl, ⟨[], rfl, nofun⟩, nofun⟩
  | cons child rest ih =>
    unfold scan
    split
    · next hnone =>
        refine ⟨Nat.le_refl _, .inl rfl, ⟨[], rfl, nofun⟩, ?_⟩
        intro found after heq
        cases heq
        exact hnone
    · next index hindex =>
        have hvisited : walk.Visited child := by simp [Visited, hindex]
        have hrank : walk.rank child = index := by simp [rank, hindex]
        have hnext := ih (if walk.onStack child then min low index else low)
        have hle : (if walk.onStack child then min low index else low) ≤ low := by
          split <;> omega
        refine ⟨Nat.le_trans hnext.low_le hle, ?_, ?_, hnext.found⟩
        · rcases hnext.low_eq with heq | ⟨target, hmem, hfacts⟩
          · rw [heq]
            split
            · next hon =>
                rcases Nat.le_total low index with hsmall | hlarge
                · exact .inl (Nat.min_eq_left hsmall)
                · refine .inr ⟨child, List.mem_cons_self, hon, hvisited, ?_⟩
                  rw [hrank, Nat.min_eq_right hlarge]
            · exact .inl rfl
          · exact .inr ⟨target, List.mem_cons_of_mem _ hmem, hfacts⟩
        · obtain ⟨passed, hrest, hpassed⟩ := hnext.followed
          refine ⟨child :: passed, congrArg (child :: ·) hrest, ?_⟩
          intro target hmem
          rcases List.mem_cons.mp hmem with rfl | hlater
          · refine ⟨hvisited, fun hon => ?_⟩
            have hlow := hnext.low_le
            rw [if_pos hon] at hlow ⊢
            rw [hrank]
            omega
          · exact hpassed target hlater

theorem cut_eq {node : Nat} {above below : List Nat} (h : node ∉ above) :
    cut node (above ++ node :: below) = (above ++ [node], below) := by
  induction above with
  | nil => simp [cut]
  | cons top above ih =>
    rw [List.mem_cons, not_or] at h
    have hne : top ≠ node := fun heq => h.1 heq.symm
    rw [List.cons_append, cut, if_neg hne, ih h.2]
    rfl

theorem foldl_clear (members : List Nat) (onStack : Nat → Bool) (node : Nat) :
    members.foldl (fun onStack member => Function.update onStack member false) onStack node = true ↔
      onStack node = true ∧ node ∉ members := by
  induction members generalizing onStack with
  | nil => simp
  | cons member members ih =>
    rw [List.foldl_cons, ih]
    by_cases h : node = member
    · subst h
      simp
    · simp [h]

end Walk

end Purrdf.Graph

/-!
## The steps of the walk

Entering a node opens a segment, scanning follows edges of the top one, and finishing either
hands a segment to the frame below it or emits it as a component.
-/

namespace Purrdf.Graph.Walk

open Relation

variable {edges : Nat → List Nat} {walk walk' : Walk} {segment lower : Segment}
  {segments : List Segment} {child : Nat}

/-! ### Where segments lie -/

variable {node : Nat}

theorem Settled.mem_stack (h : Settled edges walk segments) :
    node ∈ walk.stack ↔ ∃ segment ∈ segments, node ∈ segment.nodes := by
  rw [h.stack_eq, List.mem_flatMap]

theorem Settled.visited_of_mem (h : Settled edges walk segments) (hsegment : segment ∈ segments)
    (hnode : node ∈ segment.nodes) : walk.Visited node :=
  h.visited node (h.mem_stack.mpr ⟨segment, hsegment, hnode⟩)

theorem Settled.sorted_cons (h : Settled edges walk (segment :: segments)) :
    segment.nodes.Pairwise (fun upper lower => walk.rank lower < walk.rank upper) ∧
      (segments.flatMap Segment.nodes).Pairwise (fun upper lower => walk.rank lower < walk.rank upper) ∧
      ∀ upper ∈ segment.nodes, ∀ node ∈ segments.flatMap Segment.nodes,
        walk.rank node < walk.rank upper := by
  have hsorted := h.sorted
  rw [h.stack_eq, List.flatMap_cons] at hsorted
  exact List.pairwise_append.mp hsorted

theorem Settled.node_le (h : Settled edges walk (segment :: segments))
    (hnode : node ∈ segment.nodes) : walk.rank segment.node ≤ walk.rank node := by
  rcases Segment.mem_nodes.mp hnode with habove | rfl
  · have hpair := (List.pairwise_append.mp h.sorted_cons.1).2.2 node habove segment.node
      (List.mem_singleton_self _)
    exact Nat.le_of_lt hpair
  · exact Nat.le_refl _

theorem Settled.mem_below (h : Settled edges walk (segment :: segments))
    (hnode : node ∈ walk.stack) (hrank : walk.rank node < walk.rank segment.node) :
    node ∈ segments.flatMap Segment.nodes := by
  rw [h.stack_eq, List.flatMap_cons, List.mem_append] at hnode
  rcases hnode with htop | hbelow
  · exact absurd (h.node_le htop) (Nat.not_le.mpr hrank)
  · exact hbelow

theorem Settled.nodup (h : Settled edges walk segments) : walk.stack.Nodup :=
  h.sorted.imp fun hlt heq => by
    rw [heq] at hlt
    exact Nat.lt_irrefl _ hlt

theorem Settled.node_ne (h : Settled edges walk (segment :: segments)) (hlower : lower ∈ segments) :
    lower.node ≠ segment.node := by
  intro heq
  have hmem : lower.node ∈ segments.flatMap Segment.nodes :=
    List.mem_flatMap.mpr ⟨lower, hlower, Segment.node_mem⟩
  have hlt := h.sorted_cons.2.2 segment.node Segment.node_mem lower.node hmem
  rw [heq] at hlt
  exact Nat.lt_irrefl _ hlt

theorem Segment.Good.transfer (h : segment.Good edges walk)
    (hlow : walk'.low segment.node = walk.low segment.node)
    (hkept : ∀ node, walk.Visited node → walk'.Visited node ∧ walk'.rank node = walk.rank node ∧
      (node ∈ walk'.stack → node ∈ walk.stack))
    (hnodes : ∀ node ∈ segment.nodes, walk.Visited node)
    (hvisited : ∀ node ∈ walk.stack, walk.Visited node)
    (hbelow : ∀ node ∈ walk.stack, (∃ upper ∈ segment.nodes, walk.rank node ≤ walk.rank upper) →
      node ∈ walk'.stack) :
    segment.Good edges walk' := by
  have hseen : ∀ low target, walk.Seen low target → walk'.Seen low target := by
    intro low target hseen
    obtain ⟨hvisited, hrank, hstack⟩ := hkept target hseen.1
    refine ⟨hvisited, fun hmem => ?_⟩
    rw [hrank]
    exact hseen.2 (hstack hmem)
  refine ⟨?_, ?_, ?_, h.reached, ?_, ?_⟩
  · rw [hlow, (hkept _ (hnodes _ node_mem)).2.1]
    exact h.low_le
  · obtain ⟨target, hmem, hrank, hreach⟩ := h.low_reached
    refine ⟨target, hbelow target hmem ⟨segment.node, node_mem, ?_⟩, ?_, hreach⟩
    · rw [hrank]
      exact h.low_le
    · rw [(hkept target (hvisited target hmem)).2.1, hrank, hlow]
  · obtain ⟨passed, hedges, hpassed⟩ := h.followed
    rw [hlow]
    exact ⟨passed, hedges, fun target hmem => hseen _ _ (hpassed target hmem)⟩
  · rw [hlow]
    exact fun node habove target hedge => hseen _ _ (h.finished node habove target hedge)
  · intro node habove
    have hnode := mem_nodes.mpr (.inl habove)
    obtain ⟨target, hmem, hrank, hreach⟩ := h.descends node habove
    refine ⟨target, hbelow target hmem ⟨node, hnode, Nat.le_of_lt hrank⟩, ?_, hreach⟩
    rw [(hkept target (hvisited target hmem)).2.1, (hkept node (hnodes node hnode)).2.1]
    exact hrank

/-! ### Entering -/

theorem index_enter_of_visited (hnew : walk.index child = none) (hnode : walk.Visited node) :
    (walk.enter edges child).index node = walk.index node := by
  have hne : node ≠ child := fun heq => hnode (heq ▸ hnew)
  exact Function.update_of_ne hne _ _

theorem visited_enter :
    (walk.enter edges child).Visited node ↔ node = child ∨ walk.Visited node := by
  unfold Visited enter
  by_cases h : node = child <;> simp [h]

theorem rank_enter_self : (walk.enter edges child).rank child = walk.nextIndex := by
  simp [rank, enter]

theorem rank_enter (hnew : walk.index child = none) (hnode : walk.Visited node) :
    (walk.enter edges child).rank node = walk.rank node := by
  rw [rank, index_enter_of_visited hnew hnode, rank]

theorem Settled.good_enter (h : Settled edges walk segments) (hnew : walk.index child = none)
    (hsegment : segment ∈ segments) : segment.Good edges (walk.enter edges child) := by
  have hnode := h.visited_of_mem hsegment Segment.node_mem
  have hne : segment.node ≠ child := fun heq => hnode (heq ▸ hnew)
  apply (h.good segment hsegment).transfer
  · exact Function.update_of_ne hne _ _
  · intro node hvisited
    refine ⟨visited_enter.mpr (.inr hvisited), rank_enter hnew hvisited, fun hmem => ?_⟩
    rcases List.mem_cons.mp hmem with rfl | hold
    · exact absurd hnew hvisited
    · exact hold
  · exact fun node => h.visited_of_mem hsegment
  · exact h.visited
  · exact fun node hmem _ => List.mem_cons_of_mem _ hmem

theorem Emitted.enter (h : Emitted edges walk) (hnew : walk.index child = none) :
    Emitted edges (walk.enter edges child) := by
  refine ⟨fun node => ?_, h.disjoint, h.nodup, h.nonempty, h.classes, h.order⟩
  have hmem : node ∈ (walk.enter edges child).stack ↔ node = child ∨ node ∈ walk.stack :=
    List.mem_cons
  rw [visited_enter, hmem]
  refine (h.mem_iff node).trans ?_
  by_cases heq : node = child
  · subst heq
    simp [Visited, hnew]
  · simp [heq]

theorem Settled.enter (h : Settled edges walk segments) (hnew : walk.index child = none)
    (hreach : ∀ segment ∈ segments, Reach edges segment.node child) :
    Settled edges (walk.enter edges child) (⟨child, edges child, []⟩ :: segments) := by
  refine ⟨?_, ?_, ?_, ?_, ?_, ?_, ?_, ?_, h.emitted.enter hnew⟩
  · exact congrArg ((child, edges child) :: ·) h.work_eq
  · exact congrArg (child :: ·) h.stack_eq
  · intro node
    have hmem : node ∈ (walk.enter edges child).stack ↔ node = child ∨ node ∈ walk.stack :=
      List.mem_cons
    rw [hmem, ← h.onStack_iff node]
    by_cases heq : node = child <;> simp [Walk.enter, heq]
  · intro node hmem
    rcases List.mem_cons.mp hmem with rfl | hold
    · exact visited_enter.mpr (.inl rfl)
    · exact visited_enter.mpr (.inr (h.visited node hold))
  · intro node hvisited
    rcases visited_enter.mp hvisited with rfl | hold
    · rw [rank_enter_self]
      exact Nat.lt_succ_self _
    · rw [rank_enter hnew hold]
      exact Nat.lt_succ_of_lt (h.index_lt node hold)
  · refine List.pairwise_cons.mpr ⟨fun node hmem => ?_, h.sorted.imp_of_mem ?_⟩
    · rw [rank_enter_self, rank_enter hnew (h.visited node hmem)]
      exact h.index_lt node (h.visited node hmem)
    · intro upper node hupper hmem hlt
      rwa [rank_enter hnew (h.visited node hmem), rank_enter hnew (h.visited upper hupper)]
  · exact List.pairwise_cons.mpr ⟨hreach, h.chain⟩
  · intro segment hsegment
    rcases List.mem_cons.mp hsegment with rfl | hold
    · have hlow : (walk.enter edges child).low child = walk.nextIndex := by simp [Walk.enter]
      have hrank : (walk.enter edges child).rank child = (walk.enter edges child).low child :=
        rank_enter_self.trans hlow.symm
      exact ⟨Nat.le_of_eq hrank.symm, ⟨child, List.mem_cons_self, hrank, .refl⟩,
        ⟨[], rfl, nofun⟩, nofun, nofun, nofun⟩
    · exact h.good_enter hnew hold

/-! ### Following edges -/

theorem Segment.Good.work (h : segment.Good edges walk) (work : List (Nat × List Nat)) :
    segment.Good edges { walk with work := work } :=
  ⟨h.low_le, h.low_reached, h.followed, h.reached, h.finished, h.descends⟩

theorem Emitted.work (h : Emitted edges walk) (low : Nat → Nat) (work : List (Nat × List Nat)) :
    Emitted edges { walk with low := low, work := work } :=
  ⟨h.mem_iff, h.disjoint, h.nodup, h.nonempty, h.classes, h.order⟩

theorem Settled.scan {rest above : List Nat} {found : Option (Nat × List Nat)} {low : Nat}
    (h : Settled edges walk (⟨node, rest, above⟩ :: segments))
    (hscan : walk.scan (walk.low node) rest = (low, found)) :
    Settled edges
      { walk with
        low := Function.update walk.low node low
        work := (node, found.elim [] fun found => found.1 :: found.2) :: segments.map Segment.frame }
      (⟨node, found.elim [] fun found => found.1 :: found.2, above⟩ :: segments) := by
  have hscanned := scan_spec walk (walk.low node) rest
  rw [hscan] at hscanned
  have htop := h.good _ List.mem_cons_self
  obtain ⟨before, hedges, hbefore⟩ := htop.followed
  obtain ⟨passed, hrest, hpassed⟩ := hscanned.followed
  refine ⟨rfl, h.stack_eq, h.onStack_iff, h.visited, h.index_lt, h.sorted, ?_, ?_,
    h.emitted.work _ _⟩
  · exact List.pairwise_cons.mpr (List.pairwise_cons.mp h.chain)
  · intro segment hsegment
    rcases List.mem_cons.mp hsegment with rfl | hlower
    · have hlow : Function.update walk.low node low node = low := Function.update_self ..
      refine ⟨?_, ?_, ?_, htop.reached, ?_, htop.descends⟩
      · exact Nat.le_trans (Nat.le_of_eq hlow) (Nat.le_trans hscanned.low_le htop.low_le)
      · rcases hscanned.low_eq with hsame | ⟨target, hmem, hon, -, hrank⟩
        · obtain ⟨target, hmem, hrank, hreach⟩ := htop.low_reached
          exact ⟨target, hmem, hrank.trans (hsame.symm.trans hlow.symm), hreach⟩
        · refine ⟨target, (h.onStack_iff target).mp hon, hrank.symm.trans hlow.symm, ?_⟩
          refine .single ?_
          change target ∈ edges node
          rw [hedges]
          exact List.mem_append_right _ hmem
      · refine ⟨before ++ passed, ?_, fun target hmem => ?_⟩
        · rw [hedges, List.append_assoc]
          exact congrArg _ hrest
        · change walk.Seen (Function.update walk.low node low node) target
          rw [hlow]
          rcases List.mem_append.mp hmem with hold | hnew
          · exact (hbefore target hold).mono hscanned.low_le
          · obtain ⟨hvisited, hrank⟩ := hpassed target hnew
            exact ⟨hvisited, fun hstack => hrank ((h.onStack_iff target).mpr hstack)⟩
      · intro member habove target hedge
        change walk.Seen (Function.update walk.low node low node) target
        rw [hlow]
        exact (htop.finished member habove target hedge).mono hscanned.low_le
    · apply (h.good segment (List.mem_cons_of_mem _ hlower)).transfer
      · exact Function.update_of_ne (h.node_ne hlower) _ _
      · exact fun _ hvisited => ⟨hvisited, rfl, id⟩
      · exact fun _ => h.visited_of_mem (List.mem_cons_of_mem _ hlower)
      · exact h.visited
      · exact fun _ hmem _ => hmem

theorem Settled.advance {upper : Segment} {rest above : List Nat}
    (h : Settled edges walk (upper :: ⟨node, child :: rest, above⟩ :: segments))
    (hseen : walk.Seen (walk.low node) child) :
    Settled edges
      { walk with work := upper.frame :: (node, rest) :: segments.map Segment.frame }
      (upper :: ⟨node, rest, above⟩ :: segments) := by
  refine ⟨rfl, h.stack_eq, h.onStack_iff, h.visited, h.index_lt, h.sorted, ?_, ?_,
    h.emitted.work _ _⟩
  · obtain ⟨hupper, hchain⟩ := List.pairwise_cons.mp h.chain
    refine List.pairwise_cons.mpr ⟨?_, List.pairwise_cons.mpr (List.pairwise_cons.mp hchain)⟩
    intro lower hmem
    rcases List.mem_cons.mp hmem with rfl | hlower
    · exact hupper ⟨node, child :: rest, above⟩ List.mem_cons_self
    · exact hupper lower (List.mem_cons_of_mem _ hlower)
  · intro segment hsegment
    rcases List.mem_cons.mp hsegment with rfl | hsegment
    · exact (h.good _ List.mem_cons_self).work _
    · rcases List.mem_cons.mp hsegment with rfl | hlower
      · have hold := h.good _ (List.mem_cons_of_mem _ List.mem_cons_self)
        obtain ⟨passed, hedges, hpassed⟩ := hold.followed
        refine ⟨hold.low_le, hold.low_reached, ⟨passed ++ [child], ?_, fun target hmem => ?_⟩,
          hold.reached, hold.finished, hold.descends⟩
        · rw [hedges, List.append_assoc, List.singleton_append]
        · rcases List.mem_append.mp hmem with hbefore | hlast
          · exact hpassed target hbefore
          · rw [List.mem_singleton.mp hlast]
            exact hseen
      · exact (h.good _ (List.mem_cons_of_mem _ (List.mem_cons_of_mem _ hlower))).work _

theorem Settled.descend {rest above : List Nat}
    (h : Settled edges walk (⟨node, child :: rest, above⟩ :: segments))
    (hnew : walk.index child = none) :
    Settled edges
      ({ walk with work := (node, rest) :: segments.map Segment.frame }.enter edges child)
      (⟨child, edges child, []⟩ :: ⟨node, rest, above⟩ :: segments) := by
  obtain ⟨passed, hedges, -⟩ := (h.good _ List.mem_cons_self).followed
  have hedge : Reach edges node child := by
    refine .single ?_
    rw [hedges]
    exact List.mem_append_right _ List.mem_cons_self
  have hentered : Settled edges (walk.enter edges child)
      (⟨child, edges child, []⟩ :: ⟨node, child :: rest, above⟩ :: segments) := by
    apply h.enter hnew
    intro segment hsegment
    rcases List.mem_cons.mp hsegment with rfl | hlower
    · exact hedge
    · exact ((List.pairwise_cons.mp h.chain).1 segment hlower).trans hedge
  have hlow := (hentered.good _ (List.mem_cons_of_mem _ List.mem_cons_self)).low_le
  refine hentered.advance ⟨visited_enter.mpr (.inl rfl), fun _ => Nat.le_trans hlow ?_⟩
  have hnode : walk.Visited node := h.visited_of_mem List.mem_cons_self Segment.node_mem
  have hrank : (walk.enter edges child).rank node = walk.rank node := rank_enter hnew hnode
  rw [rank_enter_self]
  exact Nat.le_trans (Nat.le_of_eq hrank) (Nat.le_of_lt (h.index_lt node hnode))

end Purrdf.Graph.Walk
