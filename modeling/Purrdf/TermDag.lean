import Mathlib.Data.List.Forall2
import Mathlib.Data.List.Nodup
import Mathlib.Data.List.Sort
import Purrdf.Execution
import Purrdf.MetaTerm

/-!
# The hash-consed term arena

Nodes are stored in mint order and refer to earlier nodes by index. Interning
returns the index of an equal stored node when there is one, so equal structure
means equal index. The arena's invariants are fields of `TermDag`: a value that
breaks them cannot be built, and `intern` discharges them.

Every node denotes a term of `Purrdf.MetaTerm`; distinct nodes denote distinct
terms, and interning never changes what an existing node denotes. RDF values are
atomic here: they are a parameter `ρ`. Storage never runs out, other than by the
64-bit width of a handle.
-/

namespace Purrdf

open MetaTerm

abbrev NodeId := Nat
abbrev MetaId := Nat
abbrev SymId := Nat

/-- Why a term operation stops without a value. `panic` is a Rust panic and
`fuel` an exhausted recursion bound of the model. -/
inductive Fault where
  | sizeOverflow
  | capacity
  | panic
  | fuel
deriving DecidableEq, Repr

inductive NodeData (ρ : Type) where
  | rdf (atom : ρ)
  | leaf (symbol : SymId)
  | free (symbol : SymId)
  | metaVar (metaId : MetaId)
  | bound (debruijn : UInt32) (slot : UInt16)
  | app (op : NodeId) (args : List NodeId)
  | binder (op : NodeId) (sorts : List NodeId) (body : NodeId)
deriving DecidableEq, Repr

variable {ρ : Type}

def NodeData.children : NodeData ρ → List NodeId
  | rdf _ | leaf _ | free _ | metaVar _ | bound _ _ => []
  | app op args => op :: args
  | binder op sorts body => op :: body :: sorts

def mergeFreeMeta (left right : List MetaId) : List MetaId :=
  ((left ++ right).insertionSort (· ≤ ·)).dedup

def computeFreeMeta (cache : List (List MetaId)) : NodeData ρ → List MetaId
  | .rdf _ | .leaf _ | .free _ | .bound _ _ => []
  | .metaVar metaId => [metaId]
  | .app op args =>
    args.foldl (fun acc arg => mergeFreeMeta acc (cache.getD arg [])) (cache.getD op [])
  | .binder op sorts body =>
    mergeFreeMeta
      (sorts.foldl (fun acc sort => mergeFreeMeta acc (cache.getD sort [])) (cache.getD op []))
      (cache.getD body [])

structure TermDag (ρ : Type) where
  nodes : List (NodeData ρ) := []
  freeMeta : List (List MetaId) := []
  closed : ∀ (node : NodeId) (data : NodeData ρ), nodes[node]? = some data →
    ∀ child ∈ data.children, child < node
  distinct : nodes.Nodup
  cached : ∀ (node : NodeId) (data : NodeData ρ), nodes[node]? = some data →
    freeMeta[node]? = some (computeFreeMeta freeMeta data)
  lockstep : freeMeta.length = nodes.length

namespace TermDag

def len (dag : TermDag ρ) : Nat := dag.nodes.length

def empty : TermDag ρ where
  closed := by simp
  distinct := List.nodup_nil
  cached := by simp
  lockstep := rfl

/-- The node behind a handle. A handle this arena did not mint is a panic. -/
def data (dag : TermDag ρ) (node : NodeId) : Except Fault (NodeData ρ) :=
  match dag.nodes[node]? with
  | some data => .ok data
  | none => .error .panic

def freeMetaOf (dag : TermDag ρ) (node : NodeId) : Except Fault (List MetaId) :=
  match dag.freeMeta[node]? with
  | some metas => .ok metas
  | none => .error .panic

/-! ### Interning -/

theorem computeFreeMeta_congr {cache cache' : List (List MetaId)} {data : NodeData ρ}
    (h : ∀ child ∈ data.children, cache.getD child [] = cache'.getD child []) :
    computeFreeMeta cache data = computeFreeMeta cache' data := by
  have hfold : ∀ (children : List NodeId) (acc : List MetaId),
      (∀ child ∈ children, cache.getD child [] = cache'.getD child []) →
      children.foldl (fun acc child => mergeFreeMeta acc (cache.getD child [])) acc =
        children.foldl (fun acc child => mergeFreeMeta acc (cache'.getD child [])) acc := by
    intro children
    induction children with
    | nil => intro acc _; rfl
    | cons child children ih =>
      intro acc hchildren
      rw [List.foldl_cons, List.foldl_cons, hchildren child (by simp)]
      exact ih _ (fun c hc => hchildren c (by simp [hc]))
  cases data with
  | app op args =>
    simp only [computeFreeMeta]
    rw [h op (by simp [NodeData.children]),
      hfold args _ (fun c hc => h c (by simp [NodeData.children, hc]))]
  | binder op sorts body =>
    simp only [computeFreeMeta]
    rw [h op (by simp [NodeData.children]), h body (by simp [NodeData.children]),
      hfold sorts _ (fun c hc => h c (by simp [NodeData.children, hc]))]
  | _ => rfl

def push (dag : TermDag ρ) (data : NodeData ρ) (hnew : data ∉ dag.nodes)
    (hchildren : ∀ child ∈ data.children, child < dag.nodes.length) : TermDag ρ where
  nodes := dag.nodes ++ [data]
  freeMeta := dag.freeMeta ++ [computeFreeMeta dag.freeMeta data]
  closed := by
    intro node stored hstored child hchild
    rcases Nat.lt_or_ge node dag.nodes.length with hlt | hge
    · rw [List.getElem?_append_left hlt] at hstored
      exact dag.closed node stored hstored child hchild
    · rw [List.getElem?_append_right hge] at hstored
      obtain ⟨hindex, hdata⟩ := List.getElem?_eq_some_iff.mp hstored
      simp only [List.length_singleton] at hindex
      simp only [List.getElem_singleton] at hdata
      exact Nat.lt_of_lt_of_le (hchildren child (hdata ▸ hchild)) hge
  distinct := by
    rw [List.nodup_append]
    refine ⟨dag.distinct, List.nodup_singleton _, ?_⟩
    intro stored hstored other hother heq
    rw [List.mem_singleton.mp hother] at heq
    exact hnew (heq ▸ hstored)
  cached := by
    have hold : ∀ child, child < dag.nodes.length →
        dag.freeMeta.getD child [] =
          (dag.freeMeta ++ [computeFreeMeta dag.freeMeta data]).getD child [] := by
      intro child hlt
      rw [← dag.lockstep] at hlt
      simp only [List.getD_eq_getElem?_getD, List.getElem?_append_left hlt]
    intro node stored hstored
    rcases Nat.lt_or_ge node dag.nodes.length with hlt | hge
    · rw [List.getElem?_append_left hlt] at hstored
      rw [List.getElem?_append_left (by rw [dag.lockstep]; exact hlt),
        dag.cached node stored hstored]
      congr 1
      exact computeFreeMeta_congr fun child hchild =>
        hold child (Nat.lt_trans (dag.closed node stored hstored child hchild) hlt)
    · rw [List.getElem?_append_right hge] at hstored
      obtain ⟨hindex, hdata⟩ := List.getElem?_eq_some_iff.mp hstored
      simp only [List.length_singleton] at hindex
      simp only [List.getElem_singleton] at hdata
      rw [List.getElem?_append_right (by rw [dag.lockstep]; exact hge), dag.lockstep]
      have hzero : node - dag.nodes.length = 0 := Nat.lt_one_iff.mp hindex
      rw [hzero, List.getElem?_cons_zero, ← hdata]
      congr 1
      exact computeFreeMeta_congr fun child hchild => hold child (hchildren child hchild)
  lockstep := by
    rw [List.length_append, List.length_append, dag.lockstep]
    rfl

end TermDag

section

variable [DecidableEq ρ]

/-- Return the handle of an equal stored node, or store the node under the next
handle. A child this arena did not mint is a panic. -/
def intern (data : NodeData ρ) : Exec Fault (TermDag ρ) NodeId := fun dag =>
  if hnew : data ∉ dag.nodes then
    if dag.nodes.length < 2 ^ 64 - 1 then
      if hchildren : ∀ child ∈ data.children, child < dag.nodes.length then
        (.ok dag.nodes.length, dag.push data hnew hchildren)
      else (.error .panic, dag)
    else (.error .capacity, dag)
  else (.ok (dag.nodes.idxOf data), dag)

def internBound (debruijn : UInt32) (slot : UInt16) : Exec Fault (TermDag ρ) NodeId :=
  intern (.bound debruijn slot)

def internApp (op : NodeId) (args : List NodeId) : Exec Fault (TermDag ρ) NodeId :=
  intern (.app op args)

def internBinder (op : NodeId) (sorts : List NodeId) (body : NodeId) :
    Exec Fault (TermDag ρ) NodeId :=
  intern (.binder op sorts body)

end

/-! ### What nodes denote -/

/-- The constants of the terms the arena stores. -/
inductive Symbol (ρ : Type) where
  | rdf (atom : ρ)
  | leaf (symbol : SymId)
  | free (symbol : SymId)

abbrev DagTerm (ρ : Type) := Term (Symbol ρ) MetaId

def seq : List (DagTerm ρ) → DagTerm ρ
  | [] => .nil
  | t :: ts => .cons t (seq ts)

def NodeData.term (child : NodeId → DagTerm ρ) : NodeData ρ → DagTerm ρ
  | rdf atom => .const (.rdf atom)
  | leaf symbol => .const (.leaf symbol)
  | free symbol => .const (.free symbol)
  | metaVar metaId => .mvar metaId
  | bound debruijn slot => .bound debruijn.toNat slot.toNat
  | app op args => .app (child op) (seq (args.map child))
  | binder op sorts body => .binder (child op) (seq (sorts.map child)) (child body)

def terms (nodes : List (NodeData ρ)) : List (DagTerm ρ) :=
  nodes.foldl (fun built data => built ++ [data.term fun child => built.getD child .nil]) []

namespace TermDag

def denote (dag : TermDag ρ) (node : NodeId) : DagTerm ρ := (terms dag.nodes).getD node .nil

/-- Every node of `dag` is still there, under the same handle. -/
def Extends (dag dag' : TermDag ρ) : Prop := dag.nodes <+: dag'.nodes

/-- An arena that only minted handles, of which there are fewer than `2 ^ 64`. -/
structure Grows (dag dag' : TermDag ρ) : Prop where
  kept : dag.Extends dag'
  room : dag'.len ≤ max dag.len (2 ^ 64 - 1)

structure Holds (dag : TermDag ρ) (node : NodeId) (t : DagTerm ρ) : Prop where
  minted : node < dag.len
  denotes : dag.denote node = t

end TermDag

theorem terms_concat (nodes : List (NodeData ρ)) (data : NodeData ρ) :
    terms (nodes ++ [data]) =
      terms nodes ++ [data.term fun child => (terms nodes).getD child .nil] := by
  rw [terms, List.foldl_append, List.foldl_cons, List.foldl_nil, ← terms]

@[simp] theorem terms_length (nodes : List (NodeData ρ)) :
    (terms nodes).length = nodes.length := by
  induction nodes using List.reverseRecOn with
  | nil => rfl
  | append_singleton nodes data ih => simp [terms_concat, ih]

theorem terms_append (nodes more : List (NodeData ρ)) :
    terms nodes <+: terms (nodes ++ more) := by
  induction more using List.reverseRecOn with
  | nil => rw [List.append_nil]
  | append_singleton more data ih =>
    rw [← List.append_assoc, terms_concat]
    exact ih.trans (List.prefix_append _ _)

theorem NodeData.term_congr {child child' : NodeId → DagTerm ρ} {data : NodeData ρ}
    (h : ∀ node ∈ data.children, child node = child' node) :
    data.term child = data.term child' := by
  cases data with
  | app op args =>
    have hop := h op (by simp [children])
    have hargs : args.map child = args.map child' :=
      List.map_congr_left fun node hnode => h node (by simp [children, hnode])
    simp only [term, hop, hargs]
  | binder op sorts body =>
    have hop := h op (by simp [children])
    have hbody := h body (by simp [children])
    have hsorts : sorts.map child = sorts.map child' :=
      List.map_congr_left fun node hnode => h node (by simp [children, hnode])
    simp only [term, hop, hbody, hsorts]
  | _ => rfl

theorem seq_injective {left right : List (DagTerm ρ)} (h : seq left = seq right) :
    left = right := by
  induction left generalizing right with
  | nil =>
    cases right with
    | nil => rfl
    | cons t ts => cases h
  | cons t ts ih =>
    cases right with
    | nil => cases h
    | cons t' ts' =>
      injection h with hhead htail
      rw [hhead, ih htail]

/-- Shapes whose children the denotation tells apart build distinct terms. -/
theorem NodeData.term_injective {child : NodeId → DagTerm ρ} {shape shape' : NodeData ρ}
    (hinj : ∀ x ∈ shape.children, ∀ y ∈ shape'.children, child x = child y → x = y)
    (heq : shape.term child = shape'.term child) : shape = shape' := by
  have hlist : ∀ xs ys : List NodeId, (∀ x ∈ xs, ∀ y ∈ ys, child x = child y → x = y) →
      xs.map child = ys.map child → xs = ys := by
    intro xs
    induction xs with
    | nil =>
      intro ys _ hmap
      exact (List.map_eq_nil_iff.mp hmap.symm).symm
    | cons x xs ih =>
      intro ys hys hmap
      cases ys with
      | nil => simp at hmap
      | cons y ys =>
        simp only [List.map_cons, List.cons.injEq] at hmap
        rw [hys x (by simp) y (by simp) hmap.1,
          ih ys (fun a ha b hb => hys a (by simp [ha]) b (by simp [hb])) hmap.2]
  cases shape <;> cases shape' <;>
    simp only [NodeData.term, Term.const.injEq, Symbol.rdf.injEq, Symbol.leaf.injEq,
      Symbol.free.injEq, Term.mvar.injEq, Term.bound.injEq, Term.app.injEq, Term.binder.injEq,
      reduceCtorEq] at heq
  case rdf.rdf => rw [heq]
  case leaf.leaf => rw [heq]
  case free.free => rw [heq]
  case metaVar.metaVar => rw [heq]
  case bound.bound => rw [UInt32.toNat_inj.mp heq.1, UInt16.toNat_inj.mp heq.2]
  case app.app op args op' args' =>
    rw [hinj op (by simp [children]) op' (by simp [children]) heq.1,
      hlist args args' (fun a ha b hb => hinj a (by simp [children, ha]) b (by simp [children, hb]))
        (seq_injective heq.2)]
  case binder.binder op sorts body op' sorts' body' =>
    rw [hinj op (by simp [children]) op' (by simp [children]) heq.1,
      hinj body (by simp [children]) body' (by simp [children]) heq.2.2,
      hlist sorts sorts' (fun a ha b hb => hinj a (by simp [children, ha]) b
        (by simp [children, hb])) (seq_injective heq.2.1)]

namespace TermDag

theorem Extends.refl (dag : TermDag ρ) : dag.Extends dag := List.prefix_refl _

theorem Extends.trans {a b c : TermDag ρ} (hab : a.Extends b) (hbc : b.Extends c) :
    a.Extends c := List.IsPrefix.trans hab hbc

theorem Grows.refl (dag : TermDag ρ) : dag.Grows dag := ⟨.refl _, Nat.le_max_left _ _⟩

theorem Grows.trans {a b c : TermDag ρ} (hab : a.Grows b) (hbc : b.Grows c) : a.Grows c :=
  ⟨hab.kept.trans hbc.kept, hbc.room.trans (max_le hab.room (Nat.le_max_right _ _))⟩

variable {node : NodeId} {dag dag' : TermDag ρ}

theorem Extends.len_le (h : dag.Extends dag') : dag.len ≤ dag'.len :=
  h.length_le

theorem Extends.nodes (h : dag.Extends dag') {data : NodeData ρ}
    (hdata : dag.nodes[node]? = some data) :
    dag'.nodes[node]? = some data := by
  obtain ⟨more, hmore⟩ := h
  obtain ⟨hlt, _⟩ := List.getElem?_eq_some_iff.mp hdata
  rw [← hmore, List.getElem?_append_left hlt, hdata]

theorem Extends.denote (h : dag.Extends dag') (hnode : node < dag.len) :
    dag'.denote node = dag.denote node := by
  obtain ⟨more, hmore⟩ := h
  obtain ⟨rest, hrest⟩ := terms_append dag.nodes more
  rw [TermDag.denote, TermDag.denote, ← hmore, ← hrest]
  simp only [List.getD_eq_getElem?_getD]
  rw [List.getElem?_append_left (by rw [terms_length]; exact hnode)]

theorem Holds.mono (h : dag.Extends dag') {t : DagTerm ρ} (hholds : dag.Holds node t) :
    dag'.Holds node t :=
  ⟨Nat.lt_of_lt_of_le hholds.minted h.len_le, (h.denote hholds.minted).trans hholds.denotes⟩

theorem child_lt {dag : TermDag ρ} {data : NodeData ρ} (hdata : dag.nodes[node]? = some data)
    {child : NodeId} (hchild : child ∈ data.children) :
    child < dag.len :=
  Nat.lt_trans (dag.closed node data hdata child hchild)
    (List.getElem?_eq_some_iff.mp hdata).1

theorem denote_eq {dag : TermDag ρ} {data : NodeData ρ} (hdata : dag.nodes[node]? = some data) :
    dag.denote node = data.term dag.denote := by
  obtain ⟨hlt, hget⟩ := List.getElem?_eq_some_iff.mp hdata
  have hlength : (dag.nodes.take node).length = node := by
    rw [List.length_take, Nat.min_eq_left (Nat.le_of_lt hlt)]
  have hsplit : (dag.nodes.take node ++ [data]) ++ dag.nodes.drop (node + 1) = dag.nodes := by
    rw [List.append_assoc, List.singleton_append, ← hget, ← List.drop_eq_getElem_cons hlt,
      List.take_append_drop]
  obtain ⟨rest, hrest⟩ := terms_append (dag.nodes.take node ++ [data])
    (dag.nodes.drop (node + 1))
  rw [hsplit, terms_concat] at hrest
  have hbefore : (terms (dag.nodes.take node)).length = node := by rw [terms_length, hlength]
  have hchild : ∀ child ∈ data.children,
      (terms (dag.nodes.take node)).getD child .nil = dag.denote child := by
    intro child hmem
    have hearlier := dag.closed node data hdata child hmem
    rw [TermDag.denote, ← hrest, List.append_assoc]
    simp only [List.getD_eq_getElem?_getD]
    rw [List.getElem?_append_left (by rw [hbefore]; exact hearlier)]
  rw [← NodeData.term_congr hchild, TermDag.denote, ← hrest, List.append_assoc]
  simp only [List.getD_eq_getElem?_getD]
  rw [List.getElem?_append_right (Nat.le_of_eq hbefore), hbefore, Nat.sub_self]
  rfl

theorem holds_of_data {dag : TermDag ρ} {data : NodeData ρ} (hdata : dag.nodes[node]? = some data) :
    dag.Holds node (data.term dag.denote) :=
  ⟨(List.getElem?_eq_some_iff.mp hdata).1, denote_eq hdata⟩

theorem denote_injective {dag : TermDag ρ} {node other : NodeId} (hnode : node < dag.len)
    (hother : other < dag.len) (heq : dag.denote node = dag.denote other) : node = other := by
  induction node using Nat.strongRecOn generalizing other with
  | ind node ih =>
    obtain ⟨shape, hdata⟩ : ∃ data, dag.nodes[node]? = some data :=
      ⟨_, List.getElem?_eq_getElem hnode⟩
    obtain ⟨shape', hdata'⟩ : ∃ data, dag.nodes[other]? = some data :=
      ⟨_, List.getElem?_eq_getElem hother⟩
    have hbelow := dag.closed node shape hdata
    -- Children are earlier handles, so equal terms below mean equal children.
    have hsame : shape = shape' := by
      rw [denote_eq hdata, denote_eq hdata'] at heq
      refine NodeData.term_injective (fun x hx y hy h => ?_) heq
      exact ih x (hbelow x hx) (Nat.lt_trans (hbelow x hx) hnode) (child_lt hdata' hy) h
    exact (List.getElem?_inj hnode dag.distinct).mp (by rw [hdata, hdata', hsame])

/-! ### Stored terms -/

def Stored (dag : TermDag ρ) (t : DagTerm ρ) : Prop := ∃ node, dag.Holds node t

theorem Stored.mono (h : dag.Extends dag') {t : DagTerm ρ} (hstored : dag.Stored t) :
    dag'.Stored t := by
  obtain ⟨node, hholds⟩ := hstored
  exact ⟨node, hholds.mono h⟩

theorem Holds.shape {t : DagTerm ρ} (h : dag.Holds node t) : ∃ data, dag.nodes[node]? = some data ∧
    data.term dag.denote = t ∧ ∀ child ∈ data.children, child < dag.len := by
  have hdata : dag.nodes[node]? = some _ := List.getElem?_eq_getElem h.minted
  exact ⟨_, hdata, (denote_eq hdata).symm.trans h.denotes, fun child hmem => child_lt hdata hmem⟩

theorem stored_list {children : List NodeId} (h : ∀ child ∈ children, child < dag.len) :
    ∀ t ∈ children.map dag.denote, dag.Stored t := by
  intro t hmem
  obtain ⟨child, hchild, rfl⟩ := List.mem_map.mp hmem
  exact ⟨child, h child hchild, rfl⟩

theorem Stored.app {t u : DagTerm ρ} (h : dag.Stored (.app t u)) :
    ∃ ts, u = seq ts ∧ dag.Stored t ∧ ∀ v ∈ ts, dag.Stored v := by
  obtain ⟨node, hholds⟩ := h
  obtain ⟨data, _, hterm, hchild⟩ := hholds.shape
  cases data with
  | app op args =>
    cases hterm
    simp only [NodeData.children, List.mem_cons, forall_eq_or_imp] at hchild
    exact ⟨_, rfl, ⟨op, hchild.1, rfl⟩, stored_list hchild.2⟩
  | _ => cases hterm

theorem Stored.binder {t u body : DagTerm ρ} (h : dag.Stored (.binder t u body)) :
    ∃ ts, u = seq ts ∧ dag.Stored t ∧ (∀ v ∈ ts, dag.Stored v) ∧ dag.Stored body := by
  obtain ⟨node, hholds⟩ := h
  obtain ⟨data, _, hterm, hchild⟩ := hholds.shape
  cases data with
  | binder op sorts body =>
    cases hterm
    simp only [NodeData.children, List.mem_cons, forall_eq_or_imp] at hchild
    exact ⟨_, rfl, ⟨op, hchild.1, rfl⟩, stored_list hchild.2.2, ⟨body, hchild.2.1, rfl⟩⟩
  | _ => cases hterm

end TermDag

/-! ### Cached metavariables -/

namespace TermDag

end TermDag

/-- Interning a shape over minted children gives a handle of it and keeps every handle. It stops
only for want of a handle, which a shape that is stored does not need. -/
theorem ends_intern [DecidableEq ρ] (dag : TermDag ρ) {data : NodeData ρ}
    (hchildren : ∀ child ∈ data.children, child < dag.len) :
    Exec.Ends (fun fault => fault = .capacity ∧ ¬ dag.Stored (data.term dag.denote)) (intern data)
      dag fun node dag' => dag.Grows dag' ∧ dag'.nodes[node]? = some data := by
  unfold Exec.Ends intern
  by_cases hnew : data ∉ dag.nodes
  · rw [dif_pos hnew]
    by_cases hroom : dag.nodes.length < 2 ^ 64 - 1
    · have hminted : ∀ child ∈ data.children, child < dag.nodes.length := hchildren
      rw [if_pos hroom, dif_pos hminted]
      refine ⟨⟨List.prefix_append _ _, ?_⟩, by simp [TermDag.push]⟩
      simp only [TermDag.len, TermDag.push, List.length_append, List.length_singleton]
      omega
    · rw [if_neg hroom]
      refine ⟨rfl, ?_⟩
      rintro ⟨node, hholds⟩
      obtain ⟨shape, hshape, hterm, hbelow⟩ := hholds.shape
      have hsame : shape = data := NodeData.term_injective (fun x hx y hy h =>
        TermDag.denote_injective (hbelow x hx) (hchildren y hy) h) hterm
      exact hnew (hsame ▸ List.mem_of_getElem? hshape)
  · rw [dif_neg hnew]
    rw [not_not] at hnew
    refine ⟨TermDag.Grows.refl _, ?_⟩
    rw [List.getElem?_eq_getElem (List.idxOf_lt_length_of_mem hnew), List.getElem_idxOf]

end Purrdf
