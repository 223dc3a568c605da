import Mathlib.Data.Finset.Card
import Mathlib.Data.Finset.Range
import Purrdf.TarjanSteps

/-!
# Finishing a node

A finished node whose low link is below its index leaves its segment to the frame below.
Otherwise its segment is closed under edges, up to the components emitted already, and each
of its nodes descends to the last; so it is the next component.
-/

namespace Purrdf.Graph.Walk

open Relation

variable {edges : Nat → List Nat} {walk : Walk} {segment parent : Segment}
  {segments : List Segment}

theorem Segment.Good.edges_seen (h : segment.Good edges walk) (hrest : segment.rest = [])
    {node : Nat} (hnode : node ∈ segment.nodes) {target : Nat} (hedge : target ∈ edges node) :
    walk.Seen (walk.low segment.node) target := by
  rcases mem_nodes.mp hnode with habove | rfl
  · exact h.finished node habove target hedge
  · obtain ⟨passed, hedges, hpassed⟩ := h.followed
    rw [hrest, List.append_nil] at hedges
    rw [hedges] at hedge
    exact hpassed target hedge

theorem Segment.Good.reached_node (h : segment.Good edges walk) {node : Nat}
    (hnode : node ∈ segment.nodes) : Reach edges segment.node node := by
  rcases mem_nodes.mp hnode with habove | rfl
  · exact h.reached node habove
  · exact .refl

def Segment.join (segment parent : Segment) : Segment :=
  ⟨parent.node, parent.rest, segment.nodes ++ parent.above⟩

theorem Segment.Good.join (h : parent.Good edges walk) (hsegment : segment.Good edges walk)
    (hrest : segment.rest = []) (hbelow : walk.low segment.node < walk.rank segment.node)
    (hedge : Reach edges parent.node segment.node) (work : List (Nat × List Nat)) :
    (segment.join parent).Good edges
      { walk with
        low := Function.update walk.low parent.node
          (min (walk.low parent.node) (walk.low segment.node))
        work := work } := by
  have hlow : Function.update walk.low parent.node
      (min (walk.low parent.node) (walk.low segment.node)) parent.node =
        min (walk.low parent.node) (walk.low segment.node) := Function.update_self ..
  have hleft : min (walk.low parent.node) (walk.low segment.node) ≤ walk.low parent.node :=
    Nat.min_le_left _ _
  have hright : min (walk.low parent.node) (walk.low segment.node) ≤ walk.low segment.node :=
    Nat.min_le_right _ _
  refine ⟨?_, ?_, ?_, ?_, ?_, ?_⟩
  · exact Nat.le_trans (Nat.le_of_eq hlow) (Nat.le_trans hleft h.low_le)
  · rcases Nat.le_total (walk.low parent.node) (walk.low segment.node) with hle | hle
    · obtain ⟨target, hmem, hrank, hreach⟩ := h.low_reached
      exact ⟨target, hmem, hrank.trans ((Nat.min_eq_left hle).symm.trans hlow.symm), hreach⟩
    · obtain ⟨target, hmem, hrank, hreach⟩ := hsegment.low_reached
      exact ⟨target, hmem, hrank.trans ((Nat.min_eq_right hle).symm.trans hlow.symm),
        hedge.trans hreach⟩
  · obtain ⟨passed, hedges, hpassed⟩ := h.followed
    refine ⟨passed, hedges, fun target hmem => ?_⟩
    exact (hpassed target hmem).mono (Nat.le_trans (Nat.le_of_eq hlow) hleft)
  · intro node hmem
    rcases List.mem_append.mp hmem with hupper | hlower
    · exact hedge.trans (hsegment.reached_node hupper)
    · exact h.reached node hlower
  · intro node hmem target htarget
    rcases List.mem_append.mp hmem with hupper | hlower
    · exact (hsegment.edges_seen hrest hupper htarget).mono
        (Nat.le_trans (Nat.le_of_eq hlow) hright)
    · exact (h.finished node hlower target htarget).mono (Nat.le_trans (Nat.le_of_eq hlow) hleft)
  · intro node hmem
    rcases List.mem_append.mp hmem with hupper | hlower
    · rcases mem_nodes.mp hupper with habove | rfl
      · exact hsegment.descends node habove
      · obtain ⟨target, hstack, hrank, hreach⟩ := hsegment.low_reached
        exact ⟨target, hstack, Nat.lt_of_le_of_lt (Nat.le_of_eq hrank) hbelow, hreach⟩
    · exact h.descends node hlower

theorem Settled.join (h : Settled edges walk (segment :: parent :: segments))
    (hrest : segment.rest = []) (hbelow : walk.low segment.node < walk.rank segment.node) :
    Settled edges
      { walk with
        low := Function.update walk.low parent.node
          (min (walk.low parent.node) (walk.low segment.node))
        work := (parent :: segments).map Segment.frame }
      (segment.join parent :: segments) := by
  have hparent : parent ∈ segment :: parent :: segments :=
    List.mem_cons_of_mem _ List.mem_cons_self
  obtain ⟨hupper, hchain⟩ := List.pairwise_cons.mp h.chain
  refine ⟨rfl, ?_, h.onStack_iff, h.visited, h.index_lt, h.sorted, ?_, ?_, h.emitted.work _ _⟩
  · simp [h.stack_eq, Segment.nodes, Segment.join]
  · exact List.pairwise_cons.mpr (List.pairwise_cons.mp hchain)
  · intro lower hmem
    rcases List.mem_cons.mp hmem with rfl | hlower
    · exact (h.good parent hparent).join (h.good segment List.mem_cons_self) hrest hbelow
        (hupper parent List.mem_cons_self) _
    · have hlower' : lower ∈ segment :: parent :: segments :=
        List.mem_cons_of_mem _ (List.mem_cons_of_mem _ hlower)
      have hne : lower.node ≠ parent.node := by
        intro heq
        have hsorted := h.sorted_cons.2.1
        rw [List.flatMap_cons] at hsorted
        have hlt := (List.pairwise_append.mp hsorted).2.2 parent.node Segment.node_mem lower.node
          (List.mem_flatMap.mpr ⟨lower, hlower, Segment.node_mem⟩)
        rw [heq] at hlt
        exact Nat.lt_irrefl _ hlt
      apply (h.good lower hlower').transfer
      · exact Function.update_of_ne hne _ _
      · exact fun _ hvisited => ⟨hvisited, rfl, id⟩
      · exact fun _ => h.visited_of_mem hlower'
      · exact h.visited
      · exact fun _ hstack _ => hstack

theorem Settled.exists_parent (h : Settled edges walk (segment :: segments))
    (hbelow : walk.low segment.node < walk.rank segment.node) : segments ≠ [] := by
  rintro rfl
  obtain ⟨target, hstack, hrank, -⟩ := (h.good segment List.mem_cons_self).low_reached
  have hmem := h.mem_below hstack (Nat.lt_of_le_of_lt (Nat.le_of_eq hrank) hbelow)
  exact absurd hmem List.not_mem_nil

/-! ### A component -/

def IsEmitted (walk : Walk) (node : Nat) : Prop := ∃ component ∈ walk.emitted, node ∈ component

theorem Emitted.closed (h : Emitted edges walk) {node target : Nat} (hnode : walk.IsEmitted node)
    (hedge : target ∈ edges node) : walk.IsEmitted target := by
  obtain ⟨component, hmem, hnode⟩ := hnode
  obtain ⟨id, hid⟩ := List.getElem?_of_mem hmem
  obtain ⟨other, -, component, hother, htarget⟩ := h.order id component hid node hnode target hedge
  exact ⟨component, List.mem_of_getElem? hother, htarget⟩

section Root

variable (h : Settled edges walk (segment :: segments)) (hrest : segment.rest = [])
  (hroot : walk.low segment.node = walk.rank segment.node)
include h hrest hroot

theorem Settled.edge_root {node target : Nat} (hnode : node ∈ segment.nodes)
    (hedge : target ∈ edges node) : target ∈ segment.nodes ∨ walk.IsEmitted target := by
  have hseen := (h.good segment List.mem_cons_self).edges_seen hrest hnode hedge
  by_cases hstack : target ∈ walk.stack
  · left
    have hle := hseen.2 hstack
    rw [hroot] at hle
    rw [h.stack_eq, List.flatMap_cons] at hstack
    rcases List.mem_append.mp hstack with htop | hbelow
    · exact htop
    · exact absurd (h.sorted_cons.2.2 segment.node Segment.node_mem target hbelow)
        (Nat.not_lt.mpr hle)
  · exact .inr ((h.emitted.mem_iff target).mpr ⟨hseen.1, hstack⟩)

theorem Settled.reach_root {node target : Nat} (hnode : node ∈ segment.nodes)
    (hreach : Reach edges node target) : target ∈ segment.nodes ∨ walk.IsEmitted target := by
  have hinside : node ∈ segment.nodes ∨ walk.IsEmitted node := .inl hnode
  apply hreach.stays _ hinside
  intro middle hmiddle next hedge
  rcases hmiddle with hmem | hemitted
  · exact h.edge_root hrest hroot hmem hedge
  · exact .inr (h.emitted.closed hemitted hedge)

theorem Settled.to_root (rank : Nat) : ∀ node ∈ segment.nodes, walk.rank node = rank →
    Reach edges node segment.node := by
  induction rank using Nat.strongRecOn with
  | ind rank ih =>
    intro node hnode hrank
    rcases Segment.mem_nodes.mp hnode with habove | rfl
    · obtain ⟨target, hstack, hlt, hreach⟩ :=
        (h.good segment List.mem_cons_self).descends node habove
      rcases h.reach_root hrest hroot hnode hreach with hmem | hemitted
      · rw [hrank] at hlt
        exact hreach.trans (ih _ hlt target hmem rfl)
      · exact absurd hstack ((h.emitted.mem_iff target).mp hemitted).2
    · exact .refl

theorem Settled.mem_iff_connected {node : Nat} (hnode : node ∈ segment.nodes) (other : Nat) :
    other ∈ segment.nodes ↔ Connected edges node other := by
  have hgood := h.good segment List.mem_cons_self
  constructor
  · intro hother
    exact ⟨(h.to_root hrest hroot _ node hnode rfl).trans (hgood.reached_node hother),
      (h.to_root hrest hroot _ other hother rfl).trans (hgood.reached_node hnode)⟩
  · intro hconnected
    rcases h.reach_root hrest hroot hnode hconnected.1 with hmem | hemitted
    · exact hmem
    · have hback : walk.IsEmitted node :=
        hconnected.2.stays (fun _ hmiddle _ hedge => h.emitted.closed hmiddle hedge) hemitted
      have hstack := h.mem_stack.mpr ⟨segment, List.mem_cons_self, hnode⟩
      exact absurd hstack ((h.emitted.mem_iff node).mp hback).2

theorem Settled.emit :
    Settled edges
      { walk with
        onStack := segment.nodes.foldl (fun onStack member => Function.update onStack member false)
          walk.onStack
        stack := segments.flatMap Segment.nodes
        work := segments.map Segment.frame
        emitted := walk.emitted ++ [segment.nodes.reverse] }
      segments := by
  have hstack := h.stack_eq
  rw [List.flatMap_cons] at hstack
  have hnodup := h.nodup
  rw [hstack] at hnodup
  obtain ⟨hcomponent, -, hdisjoint⟩ := List.nodup_append'.mp hnodup
  have hbelow : ∀ node ∈ segments.flatMap Segment.nodes, node ∈ walk.stack := by
    intro node hmem
    rw [hstack]
    exact List.mem_append_right _ hmem
  have hmem : ∀ node, node ∈ walk.stack ↔
      node ∈ segment.nodes ∨ node ∈ segments.flatMap Segment.nodes := by
    intro node
    rw [hstack, List.mem_append]
  have hsplit : ∀ node ∈ segment.nodes, node ∉ segments.flatMap Segment.nodes :=
    fun node => hdisjoint (a := node)
  have hemitted : ∀ component ∈ walk.emitted, ∀ node ∈ component, node ∉ walk.stack :=
    fun component hold node hnode =>
      ((h.emitted.mem_iff node).mp ⟨component, hold, hnode⟩).2
  refine ⟨rfl, rfl, ?_, ?_, h.index_lt, h.sorted_cons.2.1, (List.pairwise_cons.mp h.chain).2, ?_,
    ⟨?_, ?_, ?_, ?_, ?_, ?_⟩⟩
  · intro node
    refine (foldl_clear segment.nodes walk.onStack node).trans ?_
    rw [h.onStack_iff, hmem]
    constructor
    · rintro ⟨hmember | hlower, hnot⟩
      · exact absurd hmember hnot
      · exact hlower
    · exact fun hlower => ⟨.inr hlower, fun hmember => hsplit node hmember hlower⟩
  · exact fun node hlower => h.visited node (hbelow node hlower)
  · intro lower hlower
    have hlower' : lower ∈ segment :: segments := List.mem_cons_of_mem _ hlower
    apply (h.good lower hlower').transfer
    · rfl
    · exact fun node hvisited => ⟨hvisited, rfl, hbelow node⟩
    · exact fun _ => h.visited_of_mem hlower'
    · exact h.visited
    · rintro node hnode ⟨upper, hupper, hle⟩
      rcases (hmem node).mp hnode with hmember | hkept
      · have hlt := h.sorted_cons.2.2 segment.node Segment.node_mem upper
          (List.mem_flatMap.mpr ⟨lower, hlower, hupper⟩)
        exact absurd (Nat.le_trans (h.node_le hmember) hle) (Nat.not_le.mpr hlt)
      · exact hkept
  · intro node
    change (∃ component ∈ walk.emitted ++ [segment.nodes.reverse], node ∈ component) ↔
      walk.Visited node ∧ node ∉ segments.flatMap Segment.nodes
    have hold := h.emitted.mem_iff node
    rw [hmem] at hold
    constructor
    · rintro ⟨component, hcomponent, hnode⟩
      rcases List.mem_append.mp hcomponent with hearlier | hlast
      · obtain ⟨hvisited, hnot⟩ := hold.mp ⟨component, hearlier, hnode⟩
        exact ⟨hvisited, fun hlower => hnot (.inr hlower)⟩
      · rw [List.mem_singleton.mp hlast, List.mem_reverse] at hnode
        exact ⟨h.visited_of_mem List.mem_cons_self hnode, hsplit node hnode⟩
    · rintro ⟨hvisited, hnot⟩
      by_cases hmember : node ∈ segment.nodes
      · exact ⟨_, List.mem_append_right _ (List.mem_singleton_self _),
          List.mem_reverse.mpr hmember⟩
      · obtain ⟨component, hearlier, hnode⟩ :=
          hold.mpr ⟨hvisited, fun hor => hor.elim hmember hnot⟩
        exact ⟨component, List.mem_append_left _ hearlier, hnode⟩
  · refine List.pairwise_append.mpr ⟨h.emitted.disjoint, List.pairwise_singleton .., ?_⟩
    intro component hold last hlast node hnode hmember
    rw [List.mem_singleton.mp hlast, List.mem_reverse] at hmember
    exact hemitted component hold node hnode ((hmem node).mpr (.inl hmember))
  · intro component hmember
    rcases List.mem_append.mp hmember with hold | hlast
    · exact h.emitted.nodup component hold
    · rw [List.mem_singleton.mp hlast]
      exact List.nodup_reverse.mpr hcomponent
  · intro component hmember
    rcases List.mem_append.mp hmember with hold | hlast
    · exact h.emitted.nonempty component hold
    · rw [List.mem_singleton.mp hlast]
      exact List.ne_nil_of_mem (List.mem_reverse.mpr Segment.node_mem)
  · intro component hmember node hnode other
    rcases List.mem_append.mp hmember with hold | hlast
    · exact h.emitted.classes component hold node hnode other
    · rw [List.mem_singleton.mp hlast, List.mem_reverse] at hnode ⊢
      exact h.mem_iff_connected hrest hroot hnode other
  · intro id component hid node hnode target hedge
    change (walk.emitted ++ [segment.nodes.reverse])[id]? = some component at hid
    change ∃ other ≤ id, ∃ component,
      (walk.emitted ++ [segment.nodes.reverse])[other]? = some component ∧ target ∈ component
    rcases Nat.lt_or_ge id walk.emitted.length with hlt | hge
    · rw [List.getElem?_append_left hlt] at hid
      obtain ⟨other, hle, found, hother, htarget⟩ :=
        h.emitted.order id component hid node hnode target hedge
      refine ⟨other, hle, found, ?_, htarget⟩
      rw [List.getElem?_append_left (Nat.lt_of_le_of_lt hle hlt)]
      exact hother
    · obtain rfl : id = walk.emitted.length := by
        have hbound := (List.getElem?_eq_some_iff.mp hid).1
        rw [List.length_append, List.length_singleton] at hbound
        exact Nat.le_antisymm (Nat.le_of_lt_succ hbound) hge
      rw [List.getElem?_concat_length, Option.some.injEq] at hid
      subst hid
      rw [List.mem_reverse] at hnode
      rcases h.edge_root hrest hroot hnode hedge with hmember | ⟨found, hold, htarget⟩
      · exact ⟨_, Nat.le_refl _, _, List.getElem?_concat_length, List.mem_reverse.mpr hmember⟩
      · obtain ⟨other, hother⟩ := List.getElem?_of_mem hold
        have hlt := (List.getElem?_eq_some_iff.mp hother).1
        refine ⟨other, Nat.le_of_lt hlt, found, ?_, htarget⟩
        rw [List.getElem?_append_left hlt]
        exact hother

end Root

theorem Settled.handOver_self (h : Settled edges walk (segment :: segments)) :
    walk.handOver segment.node (segments.map Segment.frame) segment.node =
      walk.low segment.node := by
  cases segments with
  | nil => rfl
  | cons parent segments => exact Function.update_of_ne (h.node_ne List.mem_cons_self).symm _ _

theorem Settled.handOver_root (h : Settled edges walk (segment :: segments))
    (hroot : walk.low segment.node = walk.rank segment.node) :
    walk.handOver segment.node (segments.map Segment.frame) = walk.low := by
  cases segments with
  | nil => rfl
  | cons parent segments =>
    refine Function.update_eq_self_iff.mpr (Nat.min_eq_left ?_)
    have hparent := h.good parent (List.mem_cons_of_mem _ List.mem_cons_self)
    have hlt := h.sorted_cons.2.2 segment.node Segment.node_mem parent.node
      (List.mem_flatMap.mpr ⟨parent, List.mem_cons_self, Segment.node_mem⟩)
    rw [hroot]
    exact Nat.le_trans hparent.low_le (Nat.le_of_lt hlt)

theorem Settled.cut_stack (h : Settled edges walk (segment :: segments)) :
    cut segment.node walk.stack = (segment.nodes, segments.flatMap Segment.nodes) := by
  have hnotin : segment.node ∉ segment.above := by
    intro habove
    have hpair := (List.pairwise_append.mp h.sorted_cons.1).2.2 segment.node habove segment.node
      (List.mem_singleton_self _)
    exact Nat.lt_irrefl _ hpair
  rw [h.stack_eq, List.flatMap_cons, Segment.nodes, List.append_assoc, List.singleton_append]
  exact cut_eq hnotin

theorem Settled.finish (h : Settled edges walk (segment :: segments)) (hrest : segment.rest = []) :
    ∃ segments', Settled edges (walk.finish segment.node (segments.map Segment.frame)) segments' ∧
      (walk.finish segment.node (segments.map Segment.frame)).index = walk.index ∧
      (walk.finish segment.node (segments.map Segment.frame)).work =
        segments.map Segment.frame := by
  have hindex := index_eq (h.visited_of_mem List.mem_cons_self Segment.node_mem)
  unfold Walk.finish
  simp only [h.handOver_self, hindex, Option.some.injEq]
  by_cases hroot : walk.low segment.node = walk.rank segment.node
  · rw [if_pos hroot, h.handOver_root hroot, h.cut_stack]
    exact ⟨segments, h.emit hrest hroot, rfl, rfl⟩
  · rw [if_neg hroot]
    have hbelow : walk.low segment.node < walk.rank segment.node :=
      Nat.lt_of_le_of_ne (h.good segment List.mem_cons_self).low_le hroot
    cases segments with
    | nil => exact absurd rfl (h.exists_parent hbelow)
    | cons parent segments => exact ⟨_, h.join hrest hbelow, rfl, rfl⟩

end Purrdf.Graph.Walk

/-!
## Runs of the walk

A turn either enters a node for the first time or closes a frame. So two turns for each node
of the graph, and one that finds no frame, end the walk from a root with an empty stack.
-/

namespace Purrdf.Graph.Walk

open Relation

variable {edges : Nat → List Nat} {walk : Walk} {segments : List Segment}
  {pending : Option Nat} {len : Nat}

structure Turned (edges : Nat → List Nat) (before : Walk) (after : Walk) (pending : Option Nat) :
    Prop where
  index_eq : after.index = before.index
  settled : ∃ segments, Settled edges (after.entered edges pending) segments
  progress : pending.elim (after.work.length + 1 = before.work.length) fun child =>
    after.work.length = before.work.length ∧ before.index child = none ∧
      ∃ source, child ∈ edges source

theorem Settled.turned {node : Nat} {rest above : List Nat}
    (h : Settled edges (walk.entered edges pending) (⟨node, rest, above⟩ :: segments)) :
    ∃ after next, walk.turn edges pending = (after, some next) ∧
      Turned edges (walk.entered edges pending) after next := by
  obtain ⟨low, found, hscan⟩ : ∃ low found,
      (walk.entered edges pending).scan ((walk.entered edges pending).low node) rest =
        (low, found) := ⟨_, _, rfl⟩
  have hscanned := h.scan hscan
  have hspec := scan_spec (walk.entered edges pending) ((walk.entered edges pending).low node) rest
  rw [hscan] at hspec
  have hwork : (walk.entered edges pending).work =
      (node, rest) :: segments.map Segment.frame := h.work_eq
  unfold turn
  simp only [hwork, hscan]
  cases found with
  | none =>
    obtain ⟨segments', hsettled, hindex, hframes⟩ := hscanned.finish rfl
    refine ⟨_, _, rfl, hindex, ⟨segments', hsettled⟩, ?_⟩
    rw [hwork]
    exact congrArg (List.length · + 1) hframes
  | some found =>
    obtain ⟨child, rest⟩ := found
    have hnew := hspec.found child rest rfl
    obtain ⟨passed, hedges, -⟩ := (hscanned.good _ List.mem_cons_self).followed
    refine ⟨_, _, rfl, rfl, ⟨_, hscanned.descend hnew⟩, ?_, hnew, node, ?_⟩
    · rw [hwork]
      rfl
    · change edges node = passed ++ child :: rest at hedges
      rw [hedges]
      exact List.mem_append_right _ List.mem_cons_self

theorem Settled.stopped (h : Settled edges (walk.entered edges pending) []) :
    walk.turn edges pending = (walk.entered edges pending, none) := by
  have hwork : (walk.entered edges pending).work = [] := h.work_eq
  unfold turn
  simp only [hwork]

/-! ### Termination -/

def unvisited (len : Nat) (walk : Walk) : Finset Nat :=
  (Finset.range len).filter fun node => walk.index node = none

theorem mem_unvisited {node : Nat} :
    node ∈ walk.unvisited len ↔ node < len ∧ walk.index node = none := by
  unfold unvisited
  rw [Finset.mem_filter, Finset.mem_range]

theorem unvisited_enter {child : Nat} (hchild : child < len) (hnew : walk.index child = none) :
    ((walk.enter edges child).unvisited len).card + 1 = (walk.unvisited len).card := by
  have herase : (walk.enter edges child).unvisited len = (walk.unvisited len).erase child := by
    ext node
    rw [Finset.mem_erase, mem_unvisited, mem_unvisited]
    by_cases h : node = child <;> simp [enter, h]
  rw [herase]
  exact Finset.card_erase_add_one (mem_unvisited.mpr ⟨hchild, hnew⟩)

theorem unvisited_card_le : (walk.unvisited len).card ≤ len := by
  have hle := Finset.card_filter_le (Finset.range len) fun node => walk.index node = none
  rw [Finset.card_range] at hle
  exact hle

theorem unvisited_congr {walk' : Walk} (h : walk'.index = walk.index) :
    walk'.unvisited len = walk.unvisited len := by
  unfold unvisited
  rw [h]

def turnsLeft (len : Nat) (walk : Walk) : Nat := 2 * (walk.unvisited len).card + walk.work.length

theorem Turned.turnsLeft_lt {after : Walk} {next : Option Nat} (h : Turned edges walk after next)
    (hrange : ∀ source, ∀ target ∈ edges source, target < len) :
    (after.entered edges next).turnsLeft len < walk.turnsLeft len := by
  have hsame : after.unvisited len = walk.unvisited len := unvisited_congr h.index_eq
  have hprogress := h.progress
  unfold turnsLeft
  cases next with
  | none =>
    change 2 * (after.unvisited len).card + after.work.length < _
    change after.work.length + 1 = walk.work.length at hprogress
    rw [hsame]
    omega
  | some child =>
    obtain ⟨hframes, hnew, source, hedge⟩ := hprogress
    rw [← h.index_eq] at hnew
    have hcard : ((after.enter edges child).unvisited len).card + 1 = _ :=
      unvisited_enter (hrange source child hedge) hnew
    rw [hsame] at hcard
    change 2 * ((after.enter edges child).unvisited len).card + (after.work.length + 1) < _
    omega

/-! ### A run -/

/-- The later of two walks has visited what the earlier had, and only nodes of the graph more. -/
structure Extends (len : Nat) (walk later : Walk) : Prop where
  kept : ∀ node, walk.Visited node → later.Visited node
  inside : ∀ node, later.Visited node → walk.Visited node ∨ node < len

theorem Extends.trans {middle later : Walk} (h : Extends len walk middle)
    (h' : Extends len middle later) : Extends len walk later := by
  refine ⟨fun node hnode => h'.kept node (h.kept node hnode), fun node hnode => ?_⟩
  rcases h'.inside node hnode with hmiddle | hlt
  · exact h.inside node hmiddle
  · exact .inr hlt

theorem Extends.refl (len : Nat) (walk : Walk) : Extends len walk walk :=
  ⟨fun _ => id, fun _ => .inl⟩

theorem Extends.enter {child : Nat} (hchild : child < len) :
    Extends len walk (walk.enter edges child) := by
  refine ⟨fun node hnode => visited_enter.mpr (.inr hnode), fun node hnode => ?_⟩
  rcases visited_enter.mp hnode with rfl | hold
  · exact .inr hchild
  · exact .inl hold

theorem Turned.extends {after : Walk} {next : Option Nat} (h : Turned edges walk after next)
    (hrange : ∀ source, ∀ target ∈ edges source, target < len) :
    Extends len walk (after.entered edges next) := by
  have hvisited : ∀ node, after.Visited node ↔ walk.Visited node := by
    intro node
    unfold Visited
    rw [h.index_eq]
  have hsame : Extends len walk after :=
    ⟨fun node => (hvisited node).mpr, fun node hnode => .inl ((hvisited node).mp hnode)⟩
  cases next with
  | none => exact hsame
  | some child =>
    obtain ⟨-, -, source, hedge⟩ := h.progress
    exact hsame.trans (Extends.enter (hrange source child hedge))

theorem Settled.run (hrange : ∀ source, ∀ target ∈ edges source, target < len) (fuel : Nat) :
    ∀ {walk : Walk} {pending : Option Nat} {segments : List Segment},
      Settled edges (walk.entered edges pending) segments →
      (walk.entered edges pending).turnsLeft len < fuel →
      ∃ later, run edges fuel pending walk = some later ∧ Settled edges later [] ∧
        Extends len (walk.entered edges pending) later := by
  induction fuel with
  | zero => exact fun _ hfuel => absurd hfuel (Nat.not_lt_zero _)
  | succ fuel ih =>
    intro walk pending segments h hfuel
    unfold Walk.run
    cases segments with
    | nil =>
      rw [h.stopped]
      exact ⟨_, rfl, h, Extends.refl _ _⟩
    | cons segment segments =>
      obtain ⟨after, next, hturn, hturned⟩ := h.turned
      rw [hturn]
      obtain ⟨segments', hsettled⟩ := hturned.settled
      have hless := hturned.turnsLeft_lt hrange
      obtain ⟨later, hrun, hlater, hextends⟩ := ih hsettled (by omega)
      exact ⟨later, hrun, hlater, (hturned.extends hrange).trans hextends⟩

theorem Settled.roots (hrange : ∀ source, ∀ target ∈ edges source, target < len)
    (roots : List Nat) : ∀ {walk : Walk}, Settled edges walk [] → (∀ root ∈ roots, root < len) →
      ∃ later, walk.roots edges (2 * len + 1) roots = some later ∧ Settled edges later [] ∧
        Extends len walk later ∧ ∀ root ∈ roots, later.Visited root := by
  induction roots with
  | nil => exact fun h _ => ⟨_, rfl, h, Extends.refl _ _, by simp⟩
  | cons root rest ih =>
    intro walk h hroots
    obtain ⟨hroot, hrest⟩ := List.forall_mem_cons.mp hroots
    unfold Walk.roots
    cases hindex : walk.index root with
    | some index =>
      have hvisited : walk.Visited root := by simp [Visited, hindex]
      obtain ⟨later, hrun, hlater, hextends, hall⟩ := ih h hrest
      exact ⟨later, hrun, hlater, hextends,
        List.forall_mem_cons.mpr ⟨hextends.kept root hvisited, hall⟩⟩
    | none =>
      have hentered : Settled edges (walk.entered edges (some root)) _ :=
        h.enter hindex (by simp)
      have hcard : ((walk.enter edges root).unvisited len).card + 1 = _ :=
        unvisited_enter hroot hindex
      have hle : (walk.unvisited len).card ≤ len := unvisited_card_le
      have hwork : walk.work = [] := h.work_eq
      have hfuel : (walk.entered edges (some root)).turnsLeft len < 2 * len + 1 := by
        change 2 * ((walk.enter edges root).unvisited len).card + (walk.work.length + 1) < _
        rw [hwork, List.length_nil]
        omega
      obtain ⟨middle, hrun, hmiddle, hextends⟩ := hentered.run hrange _ hfuel
      obtain ⟨later, hroots, hlater, hextends', hall⟩ := ih hmiddle hrest
      have hfirst : (walk.entered edges (some root)).Visited root := visited_enter.mpr (.inl rfl)
      simp only [hrun]
      exact ⟨later, hroots, hlater, (Extends.enter hroot).trans (hextends.trans hextends'),
        List.forall_mem_cons.mpr ⟨hextends'.kept root (hextends.kept root hfirst), hall⟩⟩

theorem settled_start (edges : Nat → List Nat) : Settled edges start [] where
  work_eq := rfl
  stack_eq := rfl
  onStack_iff _ := by simp [start]
  visited _ hmem := absurd hmem List.not_mem_nil
  index_lt _ hvisited := absurd rfl hvisited
  sorted := .nil
  chain := .nil
  good _ hmem := absurd hmem List.not_mem_nil
  emitted := by
    refine ⟨fun node => ?_, .nil, nofun, nofun, nofun, nofun⟩
    simp [start, Visited]

end Purrdf.Graph.Walk
