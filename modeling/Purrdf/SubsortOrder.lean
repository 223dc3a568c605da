import Mathlib.Algebra.Order.BigOperators.Group.List
import Mathlib.Data.List.Sublists
import Purrdf.Unify

/-!
# Building and validating a subsort order

A subsort order is built from covering edges by closing them under reflexivity
and transitivity. The closing loop runs passes until one adds nothing; a pass
reads the entries it has already updated. Its result is the reflexive-transitive
closure of the edges, and a validated order has a greatest lower bound for every
two named sorts that share a subsort.
-/

namespace Purrdf.SortOrder

/-- What `up` lists for every sort. -/
abbrev Supers := List (NodeId × List NodeId)

/-- `BTreeSet::extend`. -/
def extend (set added : List NodeId) : List NodeId :=
  added.foldl (fun set sort => if sort ∈ set then set else set ++ [sort]) set

def listed (up : Supers) (node : NodeId) : List NodeId := (up.lookup node).getD []

def addSupers : Supers → NodeId → List NodeId → Supers
  | [], node, added => [(node, extend [] added)]
  | (key, supers) :: up, node, added =>
    if key = node then (key, extend supers added) :: up
    else (key, supers) :: addSupers up node added

def closeEntry (state : Supers × Bool) (entry : NodeId × List NodeId) : Supers × Bool :=
  let additions := entry.2.flatMap fun mid => listed state.1 mid
  let next := addSupers state.1 entry.1 additions
  (next, state.2 || (listed next entry.1).length != (listed state.1 entry.1).length)

/-- A closing pass over a snapshot of the entries, and whether it added anything. -/
def closePass (up : Supers) : Supers × Bool := up.foldl closeEntry (up, false)

/-- Passes until one adds nothing. The bound is one more than the pairs there are
to add. -/
def closeLoop : Nat → Supers → Supers
  | 0, up => up
  | fuel + 1, up =>
    match closePass up with
    | (next, true) => closeLoop fuel next
    | (next, false) => next

def universeOf (edges : List (NodeId × NodeId)) : List NodeId :=
  (edges.flatMap fun edge => [edge.1, edge.2]).dedup.insertionSort (· ≤ ·)

def covering (edges : List (NodeId × NodeId)) : Supers :=
  (universeOf edges).foldl (fun up node => addSupers up node [node])
    (edges.foldl (fun up edge => addSupers up edge.1 [edge.2]) [])

/-- The reflexive-transitive closure of covering edges `(sub, super)`. -/
def fromSubclassEdges (edges : List (NodeId × NodeId)) : SortOrder where
  up := closeLoop ((universeOf edges).length * (universeOf edges).length + 1) (covering edges)
  sorts := universeOf edges

def validateFrom (order : SortOrder) : List NodeId → Except (NodeId × NodeId) Unit
  | [] => .ok ()
  | a :: rest =>
    match (a :: rest).find? fun b =>
      (order.sorts.any fun x => order.leq x a && order.leq x b) && (order.meet a b).isNone with
    | some b => .error (a, b)
    | none => validateFrom order rest

/-- Every two sorts that share a subsort have a unique greatest one, or the first
two that do not. -/
def validate (order : SortOrder) : Except (NodeId × NodeId) Unit :=
  validateFrom order order.sorts

/-! ### Entries as sets -/

@[simp] theorem extend_nil (set : List NodeId) : extend set [] = set := rfl

theorem prefix_extend (set added : List NodeId) : set <+: extend set added := by
  induction added generalizing set with
  | nil => exact List.prefix_refl _
  | cons sort added ih =>
    simp only [extend, List.foldl_cons]
    split
    · exact ih set
    · exact (List.prefix_append set [sort]).trans (ih (set ++ [sort]))

@[simp] theorem mem_extend {set added : List NodeId} {sort : NodeId} :
    sort ∈ extend set added ↔ sort ∈ set ∨ sort ∈ added := by
  induction added generalizing set with
  | nil => simp
  | cons first added ih =>
    have hstep : extend set (first :: added) =
        extend (if first ∈ set then set else set ++ [first]) added := rfl
    rw [hstep, ih]
    split
    · next hmem => simp only [List.mem_cons]; grind
    · simp only [List.mem_append, List.mem_cons, List.not_mem_nil, or_false]; grind

theorem nodup_extend {set added : List NodeId} (h : set.Nodup) : (extend set added).Nodup := by
  induction added generalizing set with
  | nil => exact h
  | cons sort added ih =>
    simp only [extend, List.foldl_cons]
    split
    · exact ih h
    · next hnew =>
        refine ih (h.append (List.nodup_singleton _) ?_)
        simpa [List.disjoint_singleton] using hnew

theorem extend_eq_of_length {set added : List NodeId}
    (h : (extend set added).length = set.length) : extend set added = set :=
  ((prefix_extend set added).eq_of_length h.symm).symm

/-! ### The entries as a map -/

theorem listed_addSupers (up : Supers) (node other : NodeId) (added : List NodeId) :
    listed (addSupers up node added) other =
      if other = node then extend (listed up node) added else listed up other := by
  induction up with
  | nil =>
    by_cases h : other = node
    · simp [listed, addSupers, h]
    · simp [listed, addSupers, h, List.lookup_cons, beq_eq_false_iff_ne.mpr h]
  | cons entry up ih =>
    obtain ⟨key, supers⟩ := entry
    simp only [listed] at ih
    by_cases hkey : key = node
    · subst hkey
      by_cases h : other = key
      · simp [listed, addSupers, h]
      · simp [listed, addSupers, h, List.lookup_cons, beq_eq_false_iff_ne.mpr h]
    · by_cases h : other = key
      · simp [listed, addSupers, hkey, h]
      · have hnode : ¬ node = key := fun heq => hkey heq.symm
        simp [listed, addSupers, hkey, List.lookup_cons, beq_eq_false_iff_ne.mpr h, ih,
          beq_eq_false_iff_ne.mpr hnode]

variable {up : Supers}

theorem mem_listed_addSupers {node other sort : NodeId} {added : List NodeId} :
    sort ∈ listed (addSupers up node added) other ↔
      sort ∈ listed up other ∨ (other = node ∧ sort ∈ added) := by
  rw [listed_addSupers]
  split
  · next h => simp [h]
  · next h => simp [h]

theorem keys_addSupers {node key : NodeId} {added : List NodeId} :
    key ∈ (addSupers up node added).map Prod.fst ↔ key ∈ up.map Prod.fst ∨ key = node := by
  induction up with
  | nil => simp [addSupers]
  | cons entry up ih =>
    obtain ⟨first, supers⟩ := entry
    simp only [addSupers]
    split
    · next h => simp only [List.map_cons, List.mem_cons]; grind
    · simp only [List.map_cons, List.mem_cons, ih]; grind

structure Proper (up : Supers) : Prop where
  keys : (up.map Prod.fst).Nodup
  entries : ∀ entry ∈ up, entry.2.Nodup

theorem Proper.addSupers (h : Proper up) (node : NodeId) (added : List NodeId) :
    Proper (addSupers up node added) := by
  induction up with
  | nil => exact ⟨by simp [SortOrder.addSupers],
      by simpa [SortOrder.addSupers] using nodup_extend List.nodup_nil⟩
  | cons entry up ih =>
    obtain ⟨key, supers⟩ := entry
    have hkeys := h.keys
    have hentries := h.entries
    simp only [List.map_cons, List.nodup_cons] at hkeys
    simp only [List.forall_mem_cons] at hentries
    simp only [SortOrder.addSupers]
    split
    · exact ⟨by simpa using hkeys, by
        simpa only [List.forall_mem_cons] using ⟨nodup_extend hentries.1, hentries.2⟩⟩
    · next hne =>
        obtain ⟨hkeys', hentries'⟩ := ih ⟨hkeys.2, hentries.2⟩
        refine ⟨?_, by simpa only [List.forall_mem_cons] using ⟨hentries.1, hentries'⟩⟩
        rw [List.map_cons, List.nodup_cons]
        refine ⟨fun hmem => ?_, hkeys'⟩
        exact (keys_addSupers.mp hmem).elim hkeys.1 hne

theorem Proper.listed (h : Proper up) {entry : NodeId × List NodeId} (hmem : entry ∈ up) :
    listed up entry.1 = entry.2 := by
  have hkeys := h.keys
  clear h
  induction up with
  | nil => cases hmem
  | cons first up ih =>
    simp only [List.map_cons, List.nodup_cons] at hkeys
    rcases List.mem_cons.mp hmem with rfl | hrest
    · obtain ⟨node, supers⟩ := entry
      simp [SortOrder.listed]
    · have hne : ¬ entry.1 = first.1 := fun heq =>
        hkeys.1 (heq ▸ List.mem_map_of_mem hrest)
      have := ih hrest hkeys.2
      obtain ⟨node, supers⟩ := first
      simpa [SortOrder.listed, List.lookup_cons, beq_eq_false_iff_ne.mpr hne] using this

theorem exists_entry {node sort : NodeId} (h : sort ∈ listed up node) :
    ∃ supers, (node, supers) ∈ up := by
  unfold listed at h
  cases hlookup : up.lookup node with
  | none => simp [hlookup] at h
  | some supers =>
    obtain ⟨before, after, hup, _⟩ := List.lookup_eq_some_iff.mp hlookup
    exact ⟨supers, by simp [hup]⟩

/-! ### One pass -/

def size (up : Supers) : Nat := (up.map fun entry => entry.2.length).sum

theorem size_addSupers (up : Supers) (node : NodeId) (added : List NodeId) :
    size (addSupers up node added) + (listed up node).length =
      size up + (listed (addSupers up node added) node).length := by
  induction up with
  | nil => simp [size, addSupers, listed]
  | cons entry up ih =>
    obtain ⟨key, supers⟩ := entry
    by_cases hkey : key = node
    · simp [size, addSupers, listed, hkey]
      omega
    · have hnode : ¬ node = key := fun heq => hkey heq.symm
      simp only [size, listed] at ih
      simp [size, addSupers, listed, hkey, List.lookup_cons, beq_eq_false_iff_ne.mpr hnode]
      omega

theorem addSupers_eq_self {node : NodeId} {added : List NodeId} (hkey : node ∈ up.map Prod.fst)
    (h : extend (listed up node) added = listed up node) :
    addSupers up node added = up := by
  induction up with
  | nil => cases hkey
  | cons entry up ih =>
    obtain ⟨key, supers⟩ := entry
    by_cases hnode : key = node
    · simp only [addSupers, hnode, if_true]
      simp only [listed, hnode, List.lookup_cons_self, Option.getD_some] at h
      rw [h]
    · have hne : ¬ node = key := fun heq => hnode heq.symm
      simp only [listed, List.lookup_cons, beq_eq_false_iff_ne.mpr hne] at h
      simp only [addSupers, hnode, if_false]
      rw [ih (by simpa [hne] using hkey) h]

/-- What closing keeps: the entries are those of the named sorts, they list the
covering edges and reflexivity, and nothing the edges do not lead to. -/
structure Closing (edges : List (NodeId × NodeId)) (up : Supers) : Prop where
  proper : Proper up
  keys : ∀ key ∈ up.map Prod.fst, key ∈ universeOf edges
  covers : ∀ edge ∈ edges, edge.2 ∈ listed up edge.1
  reflexive : ∀ sort ∈ universeOf edges, sort ∈ listed up sort
  sound : ∀ sub super, super ∈ listed up sub →
    Relation.ReflTransGen (fun a b => (a, b) ∈ edges) sub super

section

variable {edges : List (NodeId × NodeId)}

theorem Closing.addSupers {up : Supers} (h : Closing edges up) {node : NodeId}
    (hnode : node ∈ universeOf edges) {added : List NodeId}
    (hadded : ∀ super ∈ added, Relation.ReflTransGen (fun a b => (a, b) ∈ edges) node super) :
    Closing edges (addSupers up node added) where
  proper := h.proper.addSupers node added
  keys := by
    intro key hkey
    rcases keys_addSupers.mp hkey with hold | rfl
    · exact h.keys key hold
    · exact hnode
  covers := fun edge hedge => mem_listed_addSupers.mpr (Or.inl (h.covers edge hedge))
  reflexive := fun sort hsort => mem_listed_addSupers.mpr (Or.inl (h.reflexive sort hsort))
  sound := by
    intro sub super hsuper
    rcases mem_listed_addSupers.mp hsuper with hold | ⟨rfl, hnew⟩
    · exact h.sound sub super hold
    · exact hadded super hnew

theorem Closing.closeEntry {state : Supers × Bool} (h : Closing edges state.1)
    {entry : NodeId × List NodeId} (hnode : entry.1 ∈ universeOf edges)
    (hentry : ∀ mid ∈ entry.2,
      Relation.ReflTransGen (fun a b => (a, b) ∈ edges) entry.1 mid) :
    Closing edges (closeEntry state entry).1 := by
  apply h.addSupers hnode
  intro super hsuper
  obtain ⟨mid, hmid, hlisted⟩ := List.mem_flatMap.mp hsuper
  exact (hentry mid hmid).trans (h.sound mid super hlisted)

structure Passed (edges : List (NodeId × NodeId)) (entries : Supers)
    (start reached : Supers × Bool) : Prop where
  closing : Closing edges reached.1
  grows : size start.1 ≤ size reached.1
  changed : reached.2 = true → start.2 = true ∨ size start.1 < size reached.1
  unchanged : reached.2 = false → start.2 = false ∧ reached.1 = start.1 ∧
    ∀ entry ∈ entries, ∀ mid ∈ entry.2, ∀ super ∈ listed start.1 mid,
      super ∈ listed start.1 entry.1

theorem passed_closeEntry {state : Supers × Bool} (h : Closing edges state.1)
    {entry : NodeId × List NodeId} (hkey : entry.1 ∈ state.1.map Prod.fst)
    (hentry : ∀ mid ∈ entry.2,
      Relation.ReflTransGen (fun a b => (a, b) ∈ edges) entry.1 mid) :
    Passed edges [entry] state (closeEntry state entry) := by
  have hsize := size_addSupers state.1 entry.1
    (entry.2.flatMap fun mid => listed state.1 mid)
  have hlength := (prefix_extend (listed state.1 entry.1)
    (entry.2.flatMap fun mid => listed state.1 mid)).length_le
  have hlisted := listed_addSupers state.1 entry.1 entry.1
    (entry.2.flatMap fun mid => listed state.1 mid)
  rw [if_pos rfl] at hlisted
  rw [hlisted] at hsize
  refine ⟨h.closeEntry (h.keys _ hkey) hentry, ?_, ?_, ?_⟩
  · simp only [closeEntry]
    omega
  · simp only [closeEntry, hlisted, Bool.or_eq_true, bne_iff_ne]
    intro hchanged
    exact hchanged.imp_right fun hne => by omega
  · simp only [closeEntry, hlisted, Bool.or_eq_false_iff, bne_eq_false_iff_eq]
    rintro ⟨hbefore, hsame⟩
    have hextend := extend_eq_of_length hsame
    refine ⟨hbefore, addSupers_eq_self hkey hextend, ?_⟩
    intro other hother mid hmid super hsuper
    rw [List.mem_singleton.mp hother] at hmid ⊢
    rw [← hextend, mem_extend]
    exact Or.inr (List.mem_flatMap.mpr ⟨mid, hmid, hsuper⟩)

theorem passed_entries (entries : Supers) (state : Supers × Bool) (h : Closing edges state.1)
    (hkeys : ∀ entry ∈ entries, entry.1 ∈ state.1.map Prod.fst)
    (hentries : ∀ entry ∈ entries, ∀ mid ∈ entry.2,
      Relation.ReflTransGen (fun a b => (a, b) ∈ edges) entry.1 mid) :
    Passed edges entries state (entries.foldl closeEntry state) := by
  induction entries generalizing state with
  | nil => exact ⟨h, Nat.le_refl _, Or.inl, fun hfalse => ⟨hfalse, rfl, by simp⟩⟩
  | cons entry entries ih =>
    simp only [List.forall_mem_cons] at hkeys hentries
    have hfirst := passed_closeEntry h hkeys.1 hentries.1
    have hrest := ih (closeEntry state entry) hfirst.closing
      (fun other hmem => keys_addSupers.mpr (Or.inl (hkeys.2 other hmem))) hentries.2
    refine ⟨hrest.closing, Nat.le_trans hfirst.grows hrest.grows, ?_, ?_⟩
    · intro hchanged
      rcases hrest.changed hchanged with hmiddle | hlt
      · rcases hfirst.changed hmiddle with hstart | hlt
        · exact Or.inl hstart
        · exact Or.inr (Nat.lt_of_lt_of_le hlt hrest.grows)
      · exact Or.inr (Nat.lt_of_le_of_lt hfirst.grows hlt)
    · intro hfalse
      obtain ⟨hmiddle, hsame, hclosed⟩ := hrest.unchanged hfalse
      obtain ⟨hstart, hsame', hclosed'⟩ := hfirst.unchanged hmiddle
      rw [hsame'] at hsame hclosed
      refine ⟨hstart, hsame, ?_⟩
      simp only [List.forall_mem_cons]
      exact ⟨hclosed' entry (by simp), hclosed⟩

/-! ### The closing loop -/

theorem passed_closePass {up : Supers} (h : Closing edges up) :
    Passed edges up (up, false) (closePass up) := by
  apply passed_entries up (up, false) h
  · intro entry hmem
    exact List.mem_map_of_mem hmem
  · intro entry hmem mid hmid
    apply h.sound
    rw [h.proper.listed hmem]
    exact hmid

theorem mem_universeOf {sort : NodeId} :
    sort ∈ universeOf edges ↔ ∃ edge ∈ edges, sort = edge.1 ∨ sort = edge.2 := by
  simp [universeOf]

theorem reaches_named {sub super : NodeId} (hsub : sub ∈ universeOf edges)
    (hreach : Relation.ReflTransGen (fun a b => (a, b) ∈ edges) sub super) :
    super ∈ universeOf edges := by
  cases hreach with
  | refl => exact hsub
  | tail _ hedge => exact mem_universeOf.mpr ⟨_, hedge, Or.inr rfl⟩

theorem Closing.size_le {up : Supers} (h : Closing edges up) :
    size up ≤ (universeOf edges).length * (universeOf edges).length := by
  have hcount : up.length ≤ (universeOf edges).length := by
    simpa using (h.proper.keys.subperm h.keys).length_le
  have hentry : ∀ count ∈ up.map fun entry => entry.2.length,
      count ≤ (universeOf edges).length := by
    intro count hcount
    obtain ⟨entry, hmem, rfl⟩ := List.mem_map.mp hcount
    refine ((h.proper.entries entry hmem).subperm fun super hsuper => ?_).length_le
    apply reaches_named (h.keys entry.1 (List.mem_map_of_mem hmem))
    apply h.sound
    rw [h.proper.listed hmem]
    exact hsuper
  calc size up ≤ (up.map fun entry => entry.2.length).length • (universeOf edges).length :=
        List.sum_le_card_nsmul _ _ hentry
    _ = up.length * (universeOf edges).length := by simp
    _ ≤ (universeOf edges).length * (universeOf edges).length := Nat.mul_le_mul_right _ hcount

/-- The loop ends on entries that a pass leaves unchanged. -/
theorem closeLoop_closed {fuel : Nat} {up : Supers} (h : Closing edges up)
    (hfuel : (universeOf edges).length * (universeOf edges).length < size up + fuel) :
    Closing edges (closeLoop fuel up) ∧
      ∀ a b c, b ∈ listed (closeLoop fuel up) a → c ∈ listed (closeLoop fuel up) b →
        c ∈ listed (closeLoop fuel up) a := by
  induction fuel generalizing up with
  | zero =>
    have := h.size_le
    omega
  | succ fuel ih =>
    have hpass := passed_closePass h
    simp only [closeLoop]
    split
    · next next hchanged =>
        rw [hchanged] at hpass
        have hlt : size up < size next := (hpass.changed rfl).resolve_left (by simp)
        exact ih hpass.closing (by omega)
    · next next hsame =>
        rw [hsame] at hpass
        obtain ⟨_, rfl, hclosed⟩ := hpass.unchanged rfl
        refine ⟨h, fun a b c hab hbc => ?_⟩
        obtain ⟨supers, hmem⟩ := exists_entry hab
        have hlisted := h.proper.listed hmem
        rw [hlisted] at hab
        exact hclosed (a, supers) hmem b hab c hbc

theorem addSupers_pairs (pairs : List (NodeId × NodeId)) {up : Supers} (h : Proper up) :
    let reached := pairs.foldl (fun up pair => addSupers up pair.1 [pair.2]) up
    Proper reached ∧
    (∀ key, key ∈ reached.map Prod.fst ↔ key ∈ up.map Prod.fst ∨ ∃ pair ∈ pairs, key = pair.1) ∧
    ∀ sub super, super ∈ listed reached sub ↔ super ∈ listed up sub ∨ (sub, super) ∈ pairs := by
  induction pairs generalizing up with
  | nil => simpa using h
  | cons pair pairs ih =>
    obtain ⟨hproper, hkeys, hlisted⟩ := ih (h.addSupers pair.1 [pair.2])
    refine ⟨hproper, fun key => ?_, fun sub super => ?_⟩
    · rw [List.foldl_cons, hkeys, keys_addSupers, List.exists_mem_cons_iff, or_assoc]
    · rw [List.foldl_cons, hlisted, mem_listed_addSupers, or_assoc]
      simp only [List.mem_cons, List.not_mem_nil, or_false, Prod.ext_iff]

theorem covering_eq (edges : List (NodeId × NodeId)) :
    covering edges = (edges ++ (universeOf edges).map fun node => (node, node)).foldl
      (fun up pair => addSupers up pair.1 [pair.2]) [] := by
  rw [covering, List.foldl_append, List.foldl_map]

theorem closing_covering (edges : List (NodeId × NodeId)) :
    Closing edges (covering edges) := by
  have hempty : Proper [] := ⟨List.nodup_nil, by simp⟩
  have hpairs := addSupers_pairs (edges ++ (universeOf edges).map fun node => (node, node)) hempty
  rw [← covering_eq] at hpairs
  obtain ⟨hproper, hkeys, hlisted⟩ := hpairs
  refine ⟨hproper, ?_, ?_, ?_, ?_⟩
  · intro key hkey
    rcases (hkeys key).mp hkey with hnone | ⟨pair, hpair, rfl⟩
    · simp at hnone
    · rcases List.mem_append.mp hpair with hedge | hself
      · exact mem_universeOf.mpr ⟨pair, hedge, Or.inl rfl⟩
      · obtain ⟨node, hnode, rfl⟩ := List.mem_map.mp hself
        exact hnode
  · exact fun edge hedge => (hlisted _ _).mpr (Or.inr (List.mem_append_left _ hedge))
  · intro sort hsort
    exact (hlisted _ _).mpr (Or.inr (List.mem_append_right _ (List.mem_map_of_mem hsort)))
  · intro sub super hsuper
    rcases (hlisted sub super).mp hsuper with hnone | hpair
    · simp [listed] at hnone
    · rcases List.mem_append.mp hpair with hedge | hself
      · exact Relation.ReflTransGen.single hedge
      · obtain ⟨node, _, heq⟩ := List.mem_map.mp hself
        cases heq
        exact Relation.ReflTransGen.refl

end

section

variable {edges : List (NodeId × NodeId)}

theorem leq_fromSubclassEdges (a b : NodeId) : (fromSubclassEdges edges).leq a b = true ↔
    Relation.ReflTransGen (fun sub super => (sub, super) ∈ edges) a b := by
  have hfuel : (universeOf edges).length * (universeOf edges).length <
      size (covering edges) + ((universeOf edges).length * (universeOf edges).length + 1) := by
    omega
  obtain ⟨hclosing, hclosed⟩ := closeLoop_closed (closing_covering edges) hfuel
  have hleq : (fromSubclassEdges edges).leq a b = true ↔
      a = b ∨ b ∈ listed (fromSubclassEdges edges).up a := by
    unfold leq listed
    cases (fromSubclassEdges edges).up.lookup a <;> simp
  rw [hleq]
  constructor
  · rintro (rfl | hlisted)
    · exact Relation.ReflTransGen.refl
    · exact hclosing.sound a b hlisted
  · intro hreach
    clear hleq
    induction hreach with
    | refl => exact Or.inl rfl
    | tail _ hedge ih =>
      have hlast := hclosing.covers _ hedge
      rcases ih with rfl | hlisted
      · exact Or.inr hlast
      · exact Or.inr (hclosed _ _ _ hlisted hlast)

theorem leq_refl (order : SortOrder) (a : NodeId) : order.leq a a = true := by
  simp [leq]

theorem named_of_leq {a b : NodeId} (hab : (fromSubclassEdges edges).leq a b = true)
    (hb : b ∈ (fromSubclassEdges edges).sorts) : a ∈ (fromSubclassEdges edges).sorts := by
  rw [leq_fromSubclassEdges] at hab
  cases hab using Relation.ReflTransGen.head_induction_on with
  | refl => exact hb
  | head hedge _ => exact mem_universeOf.mpr ⟨_, hedge, Or.inl rfl⟩

end

section

variable {order : SortOrder} {a b glb : NodeId}

theorem meet_spec (h : order.meet a b = some glb) :
    (glb ∈ order.sorts ∧ order.leq glb a = true ∧ order.leq glb b = true) ∧
    ∀ x ∈ order.sorts, order.leq x a = true → order.leq x b = true →
      order.leq x glb = true := by
  unfold meet at h
  dsimp only at h
  split at h
  · next single hmaximal =>
      cases h
      have hmem := List.mem_singleton_self glb
      rw [← hmaximal] at hmem
      simp only [List.mem_filter, Bool.and_eq_true, List.all_eq_true] at hmem
      exact ⟨⟨hmem.1.1, hmem.1.2⟩, fun x hx ha hb => hmem.2 x ⟨hx, ha, hb⟩⟩
  · cases h

theorem meet_comm (a b : NodeId) : order.meet a b = order.meet b a := by
  simp only [meet, Bool.and_comm]

theorem validateFrom_ok {sorts : List NodeId} (h : order.validateFrom sorts = .ok ())
    (ha : a ∈ sorts) (hb : b ∈ sorts) {x : NodeId} (hx : x ∈ order.sorts)
    (hxa : order.leq x a = true) (hxb : order.leq x b = true) : (order.meet a b).isSome := by
  induction sorts with
  | nil => cases ha
  | cons first rest ih =>
    unfold validateFrom at h
    split at h
    · cases h
    · next hnone =>
        have hpair : ∀ other ∈ first :: rest, order.leq x first = true →
            order.leq x other = true → (order.meet first other).isSome := by
          intro other hother hfirst hother'
          have hfound := List.find?_eq_none.mp hnone other hother
          simp only [Bool.and_eq_true, List.any_eq_true, not_and, Option.isNone_iff_eq_none] at hfound
          exact Option.isSome_iff_ne_none.mpr (hfound ⟨x, hx, hfirst, hother'⟩)
        rcases List.mem_cons.mp ha with rfl | ha'
        · exact hpair b hb hxa hxb
        · rcases List.mem_cons.mp hb with rfl | hb'
          · rw [meet_comm]
            exact hpair a ha hxb hxa
          · exact ih h ha' hb'

end

/-! ### Validated orders -/

section

variable {order : SortOrder}

theorem validateFrom_of_meets {sorts : List NodeId}
    (hmeets : ∀ a ∈ sorts, ∀ b ∈ sorts, ∀ x ∈ order.sorts, order.leq x a = true →
      order.leq x b = true → (order.meet a b).isSome) :
    order.validateFrom sorts = .ok () := by
  induction sorts with
  | nil => rfl
  | cons first rest ih =>
    have hnone : (first :: rest).find? (fun b =>
        (order.sorts.any fun x => order.leq x first && order.leq x b) &&
          (order.meet first b).isNone) = none := by
      apply List.find?_eq_none.mpr
      intro other hother
      simp only [Bool.and_eq_true, List.any_eq_true, not_and, Option.isNone_iff_eq_none]
      rintro ⟨x, hx, hfirst, hsecond⟩
      exact Option.isSome_iff_ne_none.mp
        (hmeets first List.mem_cons_self other hother x hx hfirst hsecond)
    rw [validateFrom, hnone]
    exact ih fun a ha b hb =>
      hmeets a (List.mem_cons_of_mem _ ha) b (List.mem_cons_of_mem _ hb)

end

section

variable (edges : List (NodeId × NodeId))

def Subsort : NodeId → NodeId → Prop :=
  Relation.ReflTransGen fun sub super => (sub, super) ∈ edges

/-- The common subsorts of `a` and `b` are the subsorts of `glb`. -/
def MeetOf (a b glb : NodeId) : Prop :=
  ∀ x, Subsort edges x glb ↔ Subsort edges x a ∧ Subsort edges x b

variable {edges} {a b : NodeId}

theorem nodup_universeOf : (universeOf edges).Nodup :=
  (List.perm_insertionSort _ _).nodup_iff.mpr (List.nodup_dedup _)

theorem meet_eq_some_iff (ha : a ∈ universeOf edges) {glb : NodeId} :
    (fromSubclassEdges edges).meet a b = some glb ↔
      ∀ other, MeetOf edges a b other ↔ other = glb := by
  have hleq : ∀ x y, (fromSubclassEdges edges).leq x y = true ↔ Subsort edges x y :=
    leq_fromSubclassEdges
  obtain ⟨maximal, hmaximal⟩ : ∃ maximal, maximal =
      ((fromSubclassEdges edges).sorts.filter fun x => (fromSubclassEdges edges).leq x a &&
        (fromSubclassEdges edges).leq x b).filter fun c =>
          ((fromSubclassEdges edges).sorts.filter fun x => (fromSubclassEdges edges).leq x a &&
            (fromSubclassEdges edges).leq x b).all fun x => (fromSubclassEdges edges).leq x c :=
    ⟨_, rfl⟩
  have hmem : ∀ other, other ∈ maximal ↔ MeetOf edges a b other := by
    intro other
    simp only [hmaximal, List.mem_filter, Bool.and_eq_true, List.all_eq_true, hleq]
    constructor
    · rintro ⟨⟨_, hother, hother'⟩, hgreatest⟩ x
      refine ⟨fun hx => ⟨hx.trans hother, hx.trans hother'⟩, ?_⟩
      rintro ⟨hxa, hxb⟩
      exact hgreatest x ⟨named_of_leq ((hleq _ _).mpr hxa) ha, hxa, hxb⟩
    · intro hmeet
      obtain ⟨hother, hother'⟩ := (hmeet other).mp Relation.ReflTransGen.refl
      exact ⟨⟨named_of_leq ((hleq _ _).mpr hother) ha, hother, hother'⟩,
        fun x hx => (hmeet x).mpr hx.2⟩
  have hnodup : maximal.Nodup := by
    rw [hmaximal]
    exact (nodup_universeOf.filter _).filter _
  unfold meet
  dsimp only
  rw [← hmaximal]
  cases maximal with
  | nil =>
    constructor
    · intro hnone
      cases hnone
    · intro honly
      exact absurd ((hmem glb).mpr ((honly glb).mpr rfl)) List.not_mem_nil
  | cons first rest =>
    have hfirst := (hmem first).mp List.mem_cons_self
    cases rest with
    | nil =>
      constructor
      · intro hsame other
        obtain rfl := Option.some.inj hsame
        rw [← hmem, List.mem_singleton]
      · intro honly
        exact congrArg some ((honly first).mp hfirst)
    | cons second rest =>
      constructor
      · intro hnone
        cases hnone
      · intro honly
        have hsecond := (hmem second).mp (List.mem_cons_of_mem _ List.mem_cons_self)
        rw [(honly first).mp hfirst, (honly second).mp hsecond] at hnodup
        exact absurd List.mem_cons_self (List.nodup_cons.mp hnodup).1

end

/-- The order built from any covering edges is their reflexive-transitive closure, `meet` finds
exactly the unique greatest common subsort, and `validate` accepts exactly the orders in which
every two named sorts with a common subsort have one. -/
theorem subsort_orders_exact (edges : List (NodeId × NodeId)) :
    (∀ a b, (fromSubclassEdges edges).leq a b = true ↔ Subsort edges a b) ∧
    (∀ a ∈ universeOf edges, ∀ b glb, (fromSubclassEdges edges).meet a b = some glb ↔
      ∀ other, MeetOf edges a b other ↔ other = glb) ∧
    ((fromSubclassEdges edges).validate = .ok () ↔
      ∀ a ∈ universeOf edges, ∀ b ∈ universeOf edges, ∀ x, Subsort edges x a →
        Subsort edges x b → ∃ glb, ∀ other, MeetOf edges a b other ↔ other = glb) := by
  refine ⟨leq_fromSubclassEdges, fun a ha b glb => meet_eq_some_iff ha, ?_⟩
  constructor
  · intro hvalid a ha b hb x hxa hxb
    have hleq := (leq_fromSubclassEdges x a).mpr hxa
    have hsome := validateFrom_ok hvalid ha hb (named_of_leq hleq ha) hleq
      ((leq_fromSubclassEdges x b).mpr hxb)
    obtain ⟨glb, hglb⟩ := Option.isSome_iff_exists.mp hsome
    exact ⟨glb, (meet_eq_some_iff ha).mp hglb⟩
  · intro hmeets
    apply validateFrom_of_meets
    intro a ha b hb x _ hxa hxb
    obtain ⟨glb, hglb⟩ := hmeets a ha b hb x ((leq_fromSubclassEdges x a).mp hxa)
      ((leq_fromSubclassEdges x b).mp hxb)
    exact Option.isSome_iff_exists.mpr ⟨glb, (meet_eq_some_iff ha).mpr hglb⟩

end Purrdf.SortOrder
