import Purrdf.ComponentIndex
import Purrdf.TerminationGraph

/-!
# Evidence and its check

The producer's graph of places is the refined position graph, so its component ids tell
whether a special edge lies on a cycle, and counted down they never fall along an edge. The
checker asks just that of any ranks, and along a cycle through a special edge they would rise.
-/

namespace Purrdf.Termination

open SortedSearch Graph

variable {Unread : Type} {arity : Nat} {program : List (DlClause Unread arity)}
  {positions : List SourcePosition}

structure Grown (added : Nat × Nat → Prop) (before after : Adjacency) : Prop where
  length_eq : after.length = before.length
  rising : ∀ node, Rising compare (after.edges node)
  mem_iff : ∀ pair : Nat × Nat,
    pair.2 ∈ after.edges pair.1 ↔ pair.2 ∈ before.edges pair.1 ∨ added pair

theorem Grown.trans {added added' : Nat × Nat → Prop} {first middle last : Adjacency}
    (h : Grown added first middle) (h' : Grown added' middle last) :
    Grown (fun pair => added pair ∨ added' pair) first last := by
  refine ⟨h'.length_eq.trans h.length_eq, h'.rising, fun pair => ?_⟩
  rw [h'.mem_iff, h.mem_iff, or_assoc]

theorem Grown.congr {added added' : Nat × Nat → Prop} {before after : Adjacency}
    (h : Grown added before after) (hsame : ∀ pair, added pair ↔ added' pair) :
    Grown added' before after :=
  ⟨h.length_eq, h.rising, fun pair => by rw [h.mem_iff, hsame]⟩

variable {specials : List (Nat × Nat)} {adjacency : Adjacency}

theorem insertEdge_grown {source : Nat} (target : Nat)
    (hrising : ∀ node, Rising compare (adjacency.edges node)) (hlt : source < adjacency.length) :
    ∃ after, insertEdge adjacency source target = .ok after ∧
      Grown (· = (source, target)) adjacency after := by
  obtain ⟨row, hinsert, hrow, hmem⟩ := insertSorted_lawful target (hrising source)
  have hedges : ∀ node, Adjacency.edges (adjacency.set source row) node =
      if node = source then row else adjacency.edges node := by
    intro node
    unfold Adjacency.edges
    rw [List.getD_eq_getElem?_getD, List.getElem?_set, List.getD_eq_getElem?_getD]
    by_cases h : node = source
    · subst h
      simp [hlt]
    · simp [h, Ne.symm h]
  unfold insertEdge insertNat
  rw [hinsert]
  refine ⟨_, rfl, List.length_set, fun node => ?_, fun pair => ?_⟩
  · rw [hedges]
    split
    · exact hrow
    · exact hrising node
  · obtain ⟨i, j⟩ := pair
    rw [hedges]
    by_cases h : i = source
    · subst h
      simp [hmem]
    · simp [h]

/-! ### Special pairs -/

instance : Std.TransCmp comparePair :=
  inferInstanceAs (Std.TransCmp (compareLex (compareOn Prod.fst) (compareOn Prod.snd)))

instance : Std.LawfulEqCmp comparePair where
  compare_self := by simp [comparePair]
  eq_of_compare {left right} h := by
    rw [comparePair, Ordering.then_eq_eq, Std.LawfulEqOrd.compare_eq_iff_eq,
      Std.LawfulEqOrd.compare_eq_iff_eq] at h
    exact Prod.ext h.1 h.2

structure Collected (program : List (DlClause Unread arity)) (positions : List SourcePosition)
    (edges : List PositionEdge) (before after : List (Nat × Nat)) : Prop where
  rising : Rising comparePair after
  mem_iff : ∀ pair, pair ∈ after ↔ pair ∈ before ∨
    ∃ edge ∈ edges, edge.special = true ∧ EdgeAt program positions edge pair

theorem collect_collected {edge : PositionEdge} {pair : Nat × Nat}
    (hat : ∀ other, EdgeAt program positions edge other ↔ other = pair)
    (hrising : Rising comparePair specials) :
    ∃ after, collect specials edge pair = .ok after ∧
      Collected program positions [edge] specials after := by
  unfold collect
  by_cases hspecial : edge.special = true
  · obtain ⟨after, hinsert, hafter, hmem⟩ := insertSorted_lawful pair hrising
    rw [if_pos hspecial]
    refine ⟨after, hinsert, hafter, fun other => ?_⟩
    simp [hmem, hspecial, hat]
  · rw [if_neg hspecial]
    exact ⟨specials, rfl, hrising, fun other => by simp [hspecial]⟩

theorem Collected.cons {edge : PositionEdge} {edges : List PositionEdge}
    {before middle after : List (Nat × Nat)}
    (h : Collected program positions [edge] before middle)
    (h' : Collected program positions edges middle after) :
    Collected program positions (edge :: edges) before after := by
  refine ⟨h'.rising, fun pair => ?_⟩
  rw [h'.mem_iff, h.mem_iff, or_assoc, List.exists_mem_cons_iff]
  simp

structure IsGraph (program : List (DlClause Unread arity)) (positions : List SourcePosition)
    (adjacency : Adjacency) (specials : List (Nat × Nat)) : Prop where
  length_eq : adjacency.length = positions.length
  mem_iff : ∀ source target,
    target ∈ adjacency.edges source ↔ PlaceEdge program positions source target
  specials : Collected program positions (walkEdges program) [] specials

theorem Exact.addEdges (h : Exact program positions) {edges : List PositionEdge}
    (hedges : ∀ edge ∈ edges, edge ∈ walkEdges program) :
    ∀ {built : Adjacency × List (Nat × Nat)}, built.1.length = positions.length →
      (∀ node, Rising compare (built.1.edges node)) → Rising comparePair built.2 →
      ∃ adjacency specials, edges.foldlM (addEdge program positions) built =
          .ok (adjacency, specials) ∧
        Grown (fun pair => ∃ edge ∈ edges, EdgeAt program positions edge pair) built.1 adjacency ∧
          Collected program positions edges built.2 specials := by
  induction edges with
  | nil =>
    intro built _ hrising hspecials
    exact ⟨built.1, built.2, rfl, ⟨rfl, hrising, by simp⟩, hspecials, by simp⟩
  | cons edge edges ih =>
    intro built hlength hrising hspecials
    obtain ⟨hedge, hrest⟩ := List.forall_mem_cons.mp hedges
    obtain ⟨source, target, hsource, htarget, hat⟩ := h.locate_edge hedge
    have hlt : source < built.1.length := by
      rw [hlength]
      exact ((hat (source, target)).mpr rfl).1.lt
    obtain ⟨adjacency, hinsert, hgrown⟩ := insertEdge_grown target hrising hlt
    obtain ⟨specials, hcollect, hcollected⟩ := collect_collected hat hspecials
    have hlength' : adjacency.length = positions.length := hgrown.length_eq.trans hlength
    obtain ⟨adjacency', specials', hfold, hgrown', hcollected'⟩ :=
      @ih hrest (adjacency, specials) hlength' hgrown.rising hcollected.rising
    refine ⟨adjacency', specials', ?_, (hgrown.trans hgrown').congr fun pair => ?_,
      hcollected.cons hcollected'⟩
    · rw [List.foldlM_cons, addEdge, hsource, htarget]
      change ((insertEdge built.1 source target >>= _) >>= _) = _
      rw [hinsert]
      change ((collect built.2 edge (source, target) >>= _) >>= _) = _
      rw [hcollect]
      exact hfold
    · rw [List.exists_mem_cons_iff, hat]

theorem joinPairs_grown {pairs : List (Nat × Nat)} :
    ∀ {adjacency : Adjacency}, (∀ node, Rising compare (adjacency.edges node)) →
      (∀ pair ∈ pairs, pair.1 < adjacency.length ∧ pair.2 < adjacency.length) →
      ∃ after, pairs.foldlM (fun adjacency pair => do
          insertEdge (← insertEdge adjacency pair.1 pair.2) pair.2 pair.1) adjacency = .ok after ∧
        Grown (fun pair => pair ∈ pairs ∨ pair.swap ∈ pairs) adjacency after := by
  induction pairs with
  | nil => exact fun hrising _ => ⟨_, rfl, rfl, hrising, by simp⟩
  | cons pair pairs ih =>
    intro adjacency hrising hinside
    obtain ⟨⟨hfirst, hsecond⟩, hrest⟩ := List.forall_mem_cons.mp hinside
    obtain ⟨middle, hthere, hgrown⟩ := insertEdge_grown pair.2 hrising hfirst
    rw [← hgrown.length_eq] at hsecond
    obtain ⟨middle', hback, hgrown'⟩ := insertEdge_grown pair.1 hgrown.rising hsecond
    have hboth := hgrown.trans hgrown'
    obtain ⟨after, hfold, hgrown''⟩ := ih hboth.rising
      (fun other hmem => by rw [hboth.length_eq]; exact hrest other hmem)
    refine ⟨after, ?_, (hboth.trans hgrown'').congr fun other => ?_⟩
    · rw [List.foldlM_cons, hthere]
      change (insertEdge middle pair.2 pair.1 >>= _) = _
      rw [hback]
      exact hfold
    · obtain ⟨i, j⟩ := other
      obtain ⟨source, target⟩ := pair
      simp only [List.mem_cons, Prod.swap_prod_mk, Prod.mk.injEq]
      tauto

theorem Exact.positionGraph (h : Exact program positions) :
    ∃ adjacency specials, positionGraph program positions = .ok (adjacency, specials) ∧
      IsGraph program positions adjacency specials := by
  have hempty : ∀ node, Adjacency.edges (List.replicate positions.length []) node = [] := by
    intro node
    unfold Adjacency.edges
    rw [List.getD_eq_getElem?_getD, List.getElem?_replicate]
    split <;> rfl
  have hstart : ∀ node, Rising compare (Adjacency.edges (List.replicate positions.length []) node) := by
    intro node
    rw [hempty]
    exact .nil
  obtain ⟨adjacency, specials, hfold, hgrown, hcollected⟩ := @Exact.addEdges _ _ _ _ h
    (walkEdges program) (fun _ => id) (List.replicate positions.length [], [])
    List.length_replicate hstart .nil
  obtain ⟨pairs, hpairs, hcompatibility⟩ := h.compatibility_eq fun adjacency source target => do
    insertEdge (← insertEdge adjacency source target) target source
  have hlength : adjacency.length = positions.length :=
    hgrown.length_eq.trans List.length_replicate
  have hinside : ∀ pair ∈ pairs, pair.1 < adjacency.length ∧ pair.2 < adjacency.length := by
    intro pair hmem
    obtain ⟨-, left, right, hleft, hright, -⟩ := (hpairs pair).mp hmem
    rw [hlength]
    exact ⟨hleft.lt, hright.lt⟩
  obtain ⟨after, hjoin, hgrown'⟩ := joinPairs_grown hgrown.rising hinside
  refine ⟨after, specials, ?_, ⟨hgrown'.length_eq.trans hlength, fun source target => ?_, hcollected⟩⟩
  · unfold Termination.positionGraph
    rw [hfold]
    change (compatibility program positions _ adjacency >>= _) = _
    rw [hcompatibility, hjoin]
    rfl
  · have hmem := (hgrown.trans hgrown').mem_iff (source, target)
    rw [hempty, hpairs, hpairs] at hmem
    unfold PlaceEdge
    simpa using hmem

/-! ### The checker -/

/-- Ranks rise along special edges and do not fall along others. -/
def RankOk (ranks : List Nat) (source target : Nat) (special : Bool) : Prop :=
  if special then ranks.getD source 0 < ranks.getD target 0
  else ranks.getD source 0 ≤ ranks.getD target 0

instance (ranks : List Nat) (source target : Nat) (special : Bool) :
    Decidable (RankOk ranks source target special) := by
  unfold RankOk
  infer_instance

theorem checkRank_eq (ranks : List Nat) (source target : Nat) (special : Bool) :
    checkRank ranks source target special =
      if RankOk ranks source target special then .ok () else .error .invalidEvidence := by
  unfold checkRank RankOk
  cases special <;> rfl

theorem RankOk.le {ranks : List Nat} {source target : Nat} {special : Bool}
    (h : RankOk ranks source target special) : ranks.getD source 0 ≤ ranks.getD target 0 := by
  cases special with
  | false => exact h
  | true => exact Nat.le_of_lt h

theorem Exact.checkEdges (h : Exact program positions) (ranks : List Nat)
    {edges : List PositionEdge} (hedges : ∀ edge ∈ edges, edge ∈ walkEdges program) :
    ∀ {specials : List (Nat × Nat)}, Rising comparePair specials →
      ((∀ edge ∈ edges, ∀ pair, EdgeAt program positions edge pair →
          RankOk ranks pair.1 pair.2 edge.special) ∧
        ∃ after, edges.foldlM (checkEdge program positions ranks) specials = .ok after ∧
          Collected program positions edges specials after) ∨
      ((¬∀ edge ∈ edges, ∀ pair, EdgeAt program positions edge pair →
          RankOk ranks pair.1 pair.2 edge.special) ∧
        edges.foldlM (checkEdge program positions ranks) specials = .error .invalidEvidence) := by
  induction edges with
  | nil => exact fun hspecials => .inl ⟨nofun, _, rfl, hspecials, by simp⟩
  | cons edge edges ih =>
    intro specials hspecials
    obtain ⟨hedge, hrest⟩ := List.forall_mem_cons.mp hedges
    obtain ⟨source, target, hsource, htarget, hat⟩ := h.locate_edge hedge
    have hedge_iff : (∀ pair, EdgeAt program positions edge pair →
        RankOk ranks pair.1 pair.2 edge.special) ↔ RankOk ranks source target edge.special := by
      simp [hat]
    have hstep : checkEdge program positions ranks specials edge =
        (checkRank ranks source target edge.special >>= fun _ =>
          collect specials edge (source, target)) := by
      unfold checkEdge
      rw [hsource, htarget]
      rfl
    rw [List.forall_mem_cons, hedge_iff, List.foldlM_cons, hstep, checkRank_eq]
    by_cases hrank : RankOk ranks source target edge.special
    · obtain ⟨middle, hcollect, hcollected⟩ := collect_collected hat hspecials
      rw [if_pos hrank]
      change _ ∧ (∃ after, (collect specials edge (source, target) >>= _) = _ ∧ _) ∨
        _ ∧ (collect specials edge (source, target) >>= _) = _
      rw [hcollect]
      rcases ih hrest hcollected.rising with ⟨hall, after, hfold, hcollected'⟩ | ⟨hnot, hfold⟩
      · exact .inl ⟨⟨hrank, hall⟩, after, hfold, hcollected.cons hcollected'⟩
      · exact .inr ⟨fun hboth => hnot hboth.2, hfold⟩
    · rw [if_neg hrank]
      exact .inr ⟨fun hboth => hrank hboth.1, rfl⟩

theorem checkPairs_ok (ranks : List Nat) (pairs : List (Nat × Nat)) :
    pairs.foldlM (fun _ pair => do
      checkRank ranks pair.1 pair.2 false
      checkRank ranks pair.2 pair.1 false) () = (.ok () : Except TerminationError Unit) ↔
        ∀ pair ∈ pairs, RankOk ranks pair.1 pair.2 false ∧ RankOk ranks pair.2 pair.1 false := by
  induction pairs with
  | nil => exact ⟨fun _ => nofun, fun _ => rfl⟩
  | cons pair pairs ih =>
    rw [List.foldlM_cons, List.forall_mem_cons, ← ih, checkRank_eq, checkRank_eq]
    by_cases hthere : RankOk ranks pair.1 pair.2 false
    · by_cases hback : RankOk ranks pair.2 pair.1 false
      · rw [if_pos hthere, if_pos hback]
        simp only [hthere, hback, true_and]
        exact Iff.rfl
      · rw [if_pos hthere, if_neg hback]
        simp only [hback, and_false, false_and, iff_false]
        exact nofun
    · rw [if_neg hthere]
      simp only [hthere, false_and, iff_false]
      exact nofun

structure Ranked (program : List (DlClause Unread arity)) (positions : List SourcePosition)
    (ranks : List Nat) : Prop where
  walked : ∀ edge ∈ walkEdges program, ∀ pair, EdgeAt program positions edge pair →
    RankOk ranks pair.1 pair.2 edge.special
  compatible : ∀ pair, CompatibleAt program positions pair →
    RankOk ranks pair.1 pair.2 false ∧ RankOk ranks pair.2 pair.1 false

/-- Evidence is accepted just where it is the positions of the program, as many ranks, in
order along the edges, and the number of special pairs. -/
theorem Exact.checkEvidence_ok (h : Exact program positions) (supplied : List SourcePosition)
    (ranks : List Nat) (existentialEdges : Nat) :
    checkEvidence program positions supplied ranks existentialEdges = .ok () ↔
      positions = supplied ∧ ranks.length = positions.length ∧ Ranked program positions ranks ∧
        ∃ specials, Collected program positions (walkEdges program) [] specials ∧
          specials.length = existentialEdges := by
  obtain ⟨pairs, hpairs, hcompatibility⟩ := h.compatibility_eq fun (_ : Unit) source target => do
    checkRank ranks source target false
    checkRank ranks target source false
  have hranked : Ranked program positions ranks ↔
      (∀ edge ∈ walkEdges program, ∀ pair, EdgeAt program positions edge pair →
        RankOk ranks pair.1 pair.2 edge.special) ∧
      ∀ pair ∈ pairs, RankOk ranks pair.1 pair.2 false ∧ RankOk ranks pair.2 pair.1 false :=
    ⟨fun hall => ⟨hall.walked, fun pair hmem => hall.compatible pair ((hpairs pair).mp hmem)⟩,
      fun hall => ⟨hall.1, fun pair hat => hall.2 pair ((hpairs pair).mpr hat)⟩⟩
  unfold checkEvidence
  by_cases hlengths : positions.length ≠ supplied.length ∨ ranks.length ≠ positions.length
  · rw [if_pos hlengths]
    refine ⟨nofun, ?_⟩
    rintro ⟨rfl, hlength, -, -⟩
    rcases hlengths with hne | hne
    · exact absurd rfl hne
    · exact absurd hlength hne
  · rw [if_neg hlengths]
    rw [not_or, not_not, not_not] at hlengths
    by_cases hsame : positions = supplied
    · rw [if_neg (not_not_intro hsame), hranked]
      have hstart : Rising comparePair ([] : List (Nat × Nat)) := .nil
      rcases h.checkEdges ranks (fun _ => id) hstart with ⟨hall, specials, hfold, hcollected⟩ |
        ⟨hnot, hfold⟩
      · rw [hfold]
        change (if specials.length ≠ existentialEdges then _ else _) = _ ↔ _
        by_cases hcount : specials.length = existentialEdges
        · rw [if_neg (not_not_intro hcount), hcompatibility]
          refine (checkPairs_ok ranks pairs).trans ⟨fun hcompatible => ?_, fun hfacts => ?_⟩
          · exact ⟨hsame, hlengths.2, ⟨hall, hcompatible⟩, specials, hcollected, hcount⟩
          · exact hfacts.2.2.1.2
        · rw [if_pos hcount]
          refine ⟨nofun, ?_⟩
          rintro ⟨-, -, -, other, hother, hlength⟩
          refine absurd (Eq.trans ?_ hlength) hcount
          exact hcollected.rising.length_eq hother.rising fun pair => by
            rw [hcollected.mem_iff, hother.mem_iff]
      · rw [hfold]
        exact ⟨nofun, fun hfacts => absurd hfacts.2.2.1.1 hnot⟩
    · rw [if_pos hsame]
      exact ⟨nofun, fun hfacts => absurd hfacts.1 hsame⟩

theorem Ranked.le_of_path {ranks : List Nat} (h : Ranked program positions ranks) {i j : Nat}
    (hpath : Relation.ReflTransGen (PlaceEdge program positions) i j) :
    ranks.getD i 0 ≤ ranks.getD j 0 := by
  induction hpath with
  | refl => exact Nat.le_refl _
  | tail _ hedge ih =>
    refine Nat.le_trans ih ?_
    rcases hedge with ⟨edge, hedge, hat⟩ | hthere | hback
    · exact (h.walked edge hedge _ hat).le
    · exact (h.compatible _ hthere).1.le
    · exact (h.compatible _ hback).2.le

/-- No cycle of the refined position graph goes through a special edge. -/
def NoSpecialCycle (program : List (DlClause Unread arity)) : Prop :=
  ∀ source target, Walked program true source target → ¬Leads program target source

theorem Exact.noSpecialCycle (h : Exact program positions) {ranks : List Nat}
    (hranked : Ranked program positions ranks) : NoSpecialCycle program := by
  rintro source target ⟨edge, hedge, hspecial, rfl, rfl⟩ hback
  obtain ⟨i, hi⟩ := h.exists_at ⟨edge.source, edge_source_mem hedge, rfl⟩
  obtain ⟨j, hj⟩ := h.exists_at ⟨edge.target, edge_target_mem hedge, rfl⟩
  have hrise := hranked.walked edge hedge (i, j) ⟨hi, hj⟩
  rw [hspecial] at hrise
  have hfall := hranked.le_of_path ((h.leads_iff hj hi).mp hback)
  exact absurd hrise (Nat.not_lt.mpr hfall)

/-! ### Completeness -/

/-- No special edge has both ends in one strongly connected component. -/
def SpecialsApart (program : List (DlClause Unread arity)) : Prop :=
  ∀ source target, Walked program true source target →
    ¬(Leads program source target ∧ Leads program target source)

theorem IsGraph.inside (h : IsGraph program positions adjacency specials) : adjacency.Inside := by
  intro source target hedge
  rw [h.length_eq]
  rcases (h.mem_iff source target).mp hedge with ⟨edge, -, -, hj⟩ |
    ⟨-, left, right, -, hj, -⟩ | ⟨-, left, right, hj, -, -⟩
  · exact hj.lt
  · exact hj.lt
  · exact hj.lt

theorem IsGraph.reach_iff (h : IsGraph program positions adjacency specials) (i j : Nat) :
    Reach adjacency.edges i j ↔ Relation.ReflTransGen (PlaceEdge program positions) i j := by
  unfold Reach
  rw [show (fun source target => target ∈ adjacency.edges source) = PlaceEdge program positions
    from funext fun source => funext fun target => propext (h.mem_iff source target)]

theorem IsGraph.specialsApart_iff (hexact : Exact program positions)
    (h : IsGraph program positions adjacency specials) :
    SpecialsApart program ↔
      ∀ pair ∈ specials, ¬Connected adjacency.edges pair.1 pair.2 := by
  have hconnected : ∀ {source target : Refined} {i j : Nat}, At program positions source i →
      At program positions target j →
      (Connected adjacency.edges i j ↔ Leads program source target ∧ Leads program target source) := by
    intro source target i j hi hj
    unfold Connected
    rw [h.reach_iff, h.reach_iff, hexact.leads_iff hi hj, hexact.leads_iff hj hi]
  constructor
  · rintro hapart ⟨i, j⟩ hmem hjoined
    rcases (h.specials.mem_iff (i, j)).mp hmem with hnone | ⟨edge, hedge, hspecial, hi, hj⟩
    · cases hnone
    · exact hapart _ _ ⟨edge, hedge, hspecial, rfl, rfl⟩ ((hconnected hi hj).mp hjoined)
  · rintro hapart source target ⟨edge, hedge, hspecial, rfl, rfl⟩ hleads
    obtain ⟨i, hi⟩ := hexact.exists_at ⟨edge.source, edge_source_mem hedge, rfl⟩
    obtain ⟨j, hj⟩ := hexact.exists_at ⟨edge.target, edge_target_mem hedge, rfl⟩
    refine hapart (i, j) ((h.specials.mem_iff (i, j)).mpr (.inr ⟨edge, hedge, hspecial, hi, hj⟩)) ?_
    exact (hconnected hi hj).mpr hleads

/-- Component ids counted down are in order where no special pair lies in a component. -/
theorem IsGraph.ranked (h : IsGraph program positions adjacency specials) {count : Nat}
    {index : List Nat} (hindex : IsIndex adjacency count index)
    (hapart : ∀ pair ∈ specials, ¬Connected adjacency.edges pair.1 pair.2) :
    Ranked program positions (index.map (positions.length - ·)) := by
  have hget : ∀ i < adjacency.length,
      (index.map (positions.length - ·)).getD i 0 = positions.length - index.getD i 0 := by
    intro i hi
    have hbound : i < index.length := by rwa [hindex.length_eq]
    simp [List.getD_eq_getElem?_getD, hbound]
  have hfall : ∀ {i j : Nat}, PlaceEdge program positions i j → i < adjacency.length →
      RankOk (index.map (positions.length - ·)) i j false := by
    intro i j hedge hi
    have hmem := (h.mem_iff i j).mpr hedge
    have hle := hindex.le_of_edge h.inside hi hmem
    have hj := h.inside i j hmem
    change (index.map (positions.length - ·)).getD i 0 ≤ (index.map (positions.length - ·)).getD j 0
    rw [hget i hi, hget j hj]
    exact Nat.sub_le_sub_left hle _
  constructor
  · rintro edge hedge ⟨i, j⟩ hat
    have hi : i < adjacency.length := by
      rw [h.length_eq]
      exact hat.1.lt
    have hplace : PlaceEdge program positions i j := .inl ⟨edge, hedge, hat⟩
    cases hspecial : edge.special with
    | false => exact hfall hplace hi
    | true =>
      have hpair := (h.specials.mem_iff (i, j)).mpr (.inr ⟨edge, hedge, hspecial, hat⟩)
      have hmem := (h.mem_iff i j).mpr hplace
      have hlt := hindex.lower i hi j hmem (hapart (i, j) hpair)
      have hbound : index.getD j 0 < positions.length := by
        have hcount := hindex.count_le
        have hid : index.getD i 0 ∈ index := by
          have hin : i < index.length := by rwa [hindex.length_eq]
          rw [List.getD_eq_getElem?_getD, List.getElem?_eq_getElem hin]
          exact List.getElem_mem hin
        have hless := (hindex.mem_iff _).mp hid
        rw [h.length_eq] at hcount
        omega
      change (index.map (positions.length - ·)).getD i 0 <
        (index.map (positions.length - ·)).getD j 0
      rw [hget i hi, hget j (h.inside i j hmem)]
      exact Nat.sub_lt_sub_left hbound hlt
  · rintro ⟨i, j⟩ hat
    have hplaces := hat
    obtain ⟨-, left, right, hi, hj, -⟩ := hplaces
    have hi' : i < adjacency.length := by
      rw [h.length_eq]
      exact hi.lt
    have hj' : j < adjacency.length := by
      rw [h.length_eq]
      exact hj.lt
    exact ⟨hfall (.inr (.inl hat)) hi', hfall (.inr (.inr hat)) hj'⟩

section Certificate

variable {Digest : Type} (canonicalRuleHash : List (DlClause Unread arity) → Digest)

structure Certifies (program : List (DlClause Unread arity)) (positions : List SourcePosition)
    (certificate : WaCertificate Digest) : Prop where
  program_eq : certificate.program = canonicalRuleHash program
  law_eq : certificate.law = waLawVersion
  arity_eq : certificate.arity = arity
  positions_eq : positions = certificate.positions
  ranks_length : certificate.ranks.length = positions.length
  ranked : Ranked program positions certificate.ranks
  specials : ∃ specials, Collected program positions (walkEdges program) [] specials ∧
    specials.length = certificate.existentialEdges

/-- The producer's evidence is in order, and it has some just where no special edge lies in a
component. -/
theorem certify_spec (hpositions : sourcePositions program = .ok positions)
    (hexact : Exact program positions) :
    (SpecialsApart program ∧ ∃ certificate, certify canonicalRuleHash program =
        some (.ok certificate) ∧ Certifies canonicalRuleHash program positions certificate) ∨
      (¬SpecialsApart program ∧ ∃ refusal,
        certify canonicalRuleHash program = some (.error refusal)) := by
  obtain ⟨adjacency, specials, hgraph, hspec⟩ := hexact.positionGraph
  obtain ⟨index, components, hindex, -, hids, -⟩ := sccComponentIndex_ok hspec.inside
  have hspecials : SpecialsApart program ↔
      specials.find? (fun pair => index.getD pair.1 0 = index.getD pair.2 0) = none := by
    rw [hspec.specialsApart_iff hexact, List.find?_eq_none]
    refine forall₂_congr fun pair hmem => ?_
    have hat : pair.1 < adjacency.length ∧ pair.2 < adjacency.length := by
      rw [hspec.length_eq]
      rcases (hspec.specials.mem_iff pair).mp hmem with hnone | ⟨edge, -, -, hi, hj⟩
      · cases hnone
      · exact ⟨hi.lt, hj.lt⟩
    rw [decide_eq_true_eq, hids.same_iff _ hat.1 _ hat.2]
  unfold certify
  simp only [hpositions, hgraph, hindex]
  cases hfound : specials.find? (fun pair => index.getD pair.1 0 = index.getD pair.2 0) with
  | some pair =>
    right
    refine ⟨fun hapart => ?_, _, rfl⟩
    rw [hspecials.mp hapart] at hfound
    cases hfound
  | none =>
    left
    refine ⟨hspecials.mpr hfound, _, rfl, rfl, rfl, rfl, rfl, ?_, ?_, specials, hspec.specials, rfl⟩
    · rw [List.length_map, hids.length_eq, hspec.length_eq]
    · exact hspec.ranked hids
        ((hspec.specialsApart_iff hexact).mp (hspecials.mpr hfound))

variable [DecidableEq Digest]

theorem verify_ok (hpositions : sourcePositions program = .ok positions)
    (hexact : Exact program positions) (certificate : WaCertificate Digest) :
    verify canonicalRuleHash certificate program = .ok () ↔
      Certifies canonicalRuleHash program positions certificate := by
  unfold verify
  by_cases hlaw : certificate.law ≠ waLawVersion ∨ certificate.arity ≠ arity
  · rw [if_pos hlaw]
    refine ⟨nofun, fun h => ?_⟩
    rcases hlaw with hne | hne
    · exact absurd h.law_eq hne
    · exact absurd h.arity_eq hne
  · rw [if_neg hlaw]
    rw [not_or, not_not, not_not] at hlaw
    by_cases hprogram : canonicalRuleHash program = certificate.program
    · rw [if_neg (not_not_intro hprogram), hpositions]
      refine (hexact.checkEvidence_ok _ _ _).trans ⟨?_, fun h => ?_⟩
      · rintro ⟨hsame, hlength, hranked, hspecials⟩
        exact ⟨hprogram.symm, hlaw.1, hlaw.2, hsame, hlength, hranked, hspecials⟩
      · exact ⟨h.positions_eq, h.ranks_length, h.ranked, h.specials⟩
    · rw [if_pos hprogram]
      exact ⟨nofun, fun h => absurd h.program_eq.symm hprogram⟩

/-- The producer finds evidence just where no special edge lies in a component, the checker
accepts it, and whatever evidence it accepts is the program's positions, ranked so that no
cycle goes through a special edge. -/
theorem evidence_exact (program : List (DlClause Unread arity)) :
    (∃ outcome, certify canonicalRuleHash program = some outcome ∧
      ((∃ certificate, outcome = .ok certificate) ↔ SpecialsApart program)) ∧
    (∀ certificate, certify canonicalRuleHash program = some (.ok certificate) →
      verify canonicalRuleHash certificate program = .ok ()) ∧
    (∀ certificate, verify canonicalRuleHash certificate program = .ok () →
      sourcePositions program = .ok certificate.positions ∧
        Exact program certificate.positions ∧ NoSpecialCycle program) := by
  obtain ⟨positions, hpositions, hexact⟩ := sourcePositions_exact program
  refine ⟨?_, ?_, ?_⟩
  · rcases certify_spec canonicalRuleHash hpositions hexact with
      ⟨hapart, certificate, hcertify, -⟩ | ⟨hnot, refusal, hcertify⟩
    · exact ⟨_, hcertify, fun _ => hapart, fun _ => ⟨certificate, rfl⟩⟩
    · exact ⟨_, hcertify, nofun, fun hapart => absurd hapart hnot⟩
  · intro certificate hok
    rw [verify_ok canonicalRuleHash hpositions hexact]
    rcases certify_spec canonicalRuleHash hpositions hexact with
      ⟨-, found, hcertify, hcertifies⟩ | ⟨-, refusal, hcertify⟩
    · rw [hcertify] at hok
      cases hok
      exact hcertifies
    · rw [hcertify] at hok
      cases hok
  · intro certificate hok
    have hcertifies := (verify_ok canonicalRuleHash hpositions hexact certificate).mp hok
    rw [← hcertifies.positions_eq]
    exact ⟨hpositions, hexact, hexact.noSpecialCycle hcertifies.ranked⟩

end Certificate

end Purrdf.Termination
