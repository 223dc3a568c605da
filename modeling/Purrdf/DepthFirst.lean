import Mathlib.Data.Finset.Card
import Mathlib.Data.List.Basic
import Mathlib.Logic.Relation

/-!
# Depth-first search

A search for one vertex that remembers the vertices it has met. It says no only when the target
cannot be reached, and it needs no more turns than there are vertices with successors.
-/

namespace Purrdf.DepthFirst

variable {α : Type}

def searchAny (visit : α → List α → Option (Bool × List α)) :
    List α → List α → Option (Bool × List α)
  | [], seen => some (false, seen)
  | vertex :: rest, seen => do
      let answer ← visit vertex seen
      if answer.1 then some answer else searchAny visit rest answer.2

def search [DecidableEq α] (next : α → List α) (target : α) : Nat → α → List α → Option (Bool × List α)
  | 0, _, _ => none
  | turns + 1, vertex, seen =>
    if vertex = target then some (true, seen)
    else if vertex ∈ seen then some (false, seen)
    else searchAny (search next target turns) (next vertex) (vertex :: seen)

def Reaches (next : α → List α) : α → α → Prop :=
  Relation.ReflTransGen fun vertex other => other ∈ next vertex

variable {next : α → List α} {target : α}

/-! ### What a search knows -/

structure Explored (next : α → List α) (target : α) (seen after : List α) : Prop where
  grows : seen ⊆ after
  fresh : ∀ vertex ∈ after, vertex ∉ seen → vertex ≠ target ∧ next vertex ⊆ after

theorem Explored.refl (next : α → List α) (target : α) (seen : List α) :
    Explored next target seen seen :=
  ⟨List.Subset.refl seen, fun _ hhere hnew => absurd hhere hnew⟩

theorem Explored.trans {seen middle after : List α} (hfirst : Explored next target seen middle)
    (hsecond : Explored next target middle after) : Explored next target seen after := by
  refine ⟨List.Subset.trans hfirst.grows hsecond.grows, ?_⟩
  intro vertex hvertex hnew
  by_cases hmiddle : vertex ∈ middle
  · obtain ⟨hne, hnext⟩ := hfirst.fresh vertex hmiddle hnew
    exact ⟨hne, List.Subset.trans hnext hsecond.grows⟩
  · exact hsecond.fresh vertex hvertex hmiddle

def Tells (next : α → List α) (target : α) (vertices seen : List α)
    (answer : Bool × List α) : Prop :=
  if answer.1 then ∃ vertex ∈ vertices, Reaches next vertex target
  else Explored next target seen answer.2 ∧ vertices ⊆ answer.2

theorem searchAny_tells {visit : α → List α → Option (Bool × List α)}
    (hvisit : ∀ vertex seen answer, visit vertex seen = some answer →
      Tells next target [vertex] seen answer) (vertices : List α) {seen : List α}
    {answer : Bool × List α} (hsearch : searchAny visit vertices seen = some answer) :
    Tells next target vertices seen answer := by
  induction vertices generalizing seen with
  | nil =>
    obtain rfl := Option.some.inj hsearch
    exact ⟨Explored.refl next target seen, List.nil_subset _⟩
  | cons vertex rest ih =>
    rw [searchAny] at hsearch
    obtain ⟨first, hfirst, hrest⟩ := Option.bind_eq_some_iff.mp hsearch
    have htells := hvisit vertex seen first hfirst
    unfold Tells at htells
    split at hrest
    · rename_i hfound
      obtain rfl := Option.some.inj hrest
      rw [if_pos hfound] at htells
      obtain ⟨found, hmember, hreaches⟩ := htells
      obtain rfl := List.mem_singleton.mp hmember
      unfold Tells
      rw [if_pos hfound]
      exact ⟨found, List.mem_cons_self, hreaches⟩
    · rename_i hnothing
      rw [if_neg hnothing] at htells
      have hmore := ih hrest
      unfold Tells at hmore ⊢
      split at hmore
      · rename_i hfound
        obtain ⟨found, hmember, hreaches⟩ := hmore
        rw [if_pos hfound]
        exact ⟨found, List.mem_cons_of_mem _ hmember, hreaches⟩
      · rename_i hnone
        rw [if_neg hnone]
        refine ⟨htells.1.trans hmore.1, ?_⟩
        rw [List.cons_subset]
        exact ⟨hmore.1.grows (htells.2 (List.mem_singleton.mpr rfl)), hmore.2⟩

section
variable [DecidableEq α]

theorem search_tells (turns : Nat) (vertex : α) (seen : List α) (answer : Bool × List α)
    (hsearch : search next target turns vertex seen = some answer) :
    Tells next target [vertex] seen answer := by
  induction turns generalizing vertex seen answer with
  | zero => cases hsearch
  | succ turns ih =>
    rw [search] at hsearch
    split at hsearch
    · rename_i hsame
      obtain rfl := Option.some.inj hsearch
      exact ⟨vertex, List.mem_singleton.mpr rfl, hsame ▸ Relation.ReflTransGen.refl⟩
    · rename_i hne
      split at hsearch
      · rename_i hmet
        obtain rfl := Option.some.inj hsearch
        exact ⟨Explored.refl next target seen, by simpa using hmet⟩
      · have htells := searchAny_tells ih (next vertex) hsearch
        unfold Tells at htells ⊢
        split
        · rename_i hfound
          rw [if_pos hfound] at htells
          obtain ⟨other, hother, hreaches⟩ := htells
          exact ⟨vertex, List.mem_singleton.mpr rfl, Relation.ReflTransGen.head hother hreaches⟩
        · rename_i hnone
          rw [if_neg hnone] at htells
          obtain ⟨hexplored, hnext⟩ := htells
          have hhere := hexplored.grows List.mem_cons_self
          refine ⟨⟨List.Subset.trans (List.subset_cons_self _ _) hexplored.grows, ?_⟩, by simpa using hhere⟩
          intro other hother hnew
          by_cases hsame : other = vertex
          · rw [hsame]
            exact ⟨hne, hnext⟩
          · exact hexplored.fresh other hother (by simp [hsame, hnew])

theorem reaches_of_found {turns : Nat} {vertex : α} {seen after : List α}
    (hsearch : search next target turns vertex seen = some (true, after)) :
    Reaches next vertex target := by
  obtain ⟨found, hmember, hreaches⟩ := search_tells turns vertex seen _ hsearch
  rwa [List.mem_singleton.mp hmember] at hreaches

theorem not_reaches_of_missed {turns : Nat} {vertex : α} {after : List α}
    (hsearch : search next target turns vertex [] = some (false, after)) :
    ¬ Reaches next vertex target := by
  obtain ⟨hexplored, hhere⟩ := search_tells turns vertex [] _ hsearch
  have hall : ∀ other, Reaches next vertex other → other ∈ after := by
    intro other hreaches
    induction hreaches with
    | refl => exact hhere (List.mem_singleton.mpr rfl)
    | tail _ hstep ih => exact (hexplored.fresh _ ih List.not_mem_nil).2 hstep
  intro hreaches
  exact (hexplored.fresh target (hall target hreaches) List.not_mem_nil).1 rfl

end

theorem searchAny_total (visit : α → List α → Option (Bool × List α)) (known : List α)
    (hvisit : ∀ vertex seen, known ⊆ seen → ∃ answer, visit vertex seen = some answer ∧
      seen ⊆ answer.2) (vertices : List α) {seen : List α} (hseen : known ⊆ seen) :
    ∃ answer, searchAny visit vertices seen = some answer ∧ seen ⊆ answer.2 := by
  induction vertices generalizing seen with
  | nil => exact ⟨(false, seen), rfl, List.Subset.refl seen⟩
  | cons vertex rest ih =>
    obtain ⟨first, hfirst, hgrows⟩ := hvisit vertex seen hseen
    rw [searchAny, hfirst]
    by_cases hfound : first.1 = true
    · exact ⟨first, by simp [hfound], hgrows⟩
    · obtain ⟨answer, hanswer, hmore⟩ := ih (List.Subset.trans hseen hgrows)
      refine ⟨answer, ?_, List.Subset.trans hgrows hmore⟩
      simpa [hfound] using hanswer

theorem search_total [DecidableEq α] (next : α → List α) (target : α) {bound : Finset α}
    (hbound : ∀ vertex, vertex ∉ bound → next vertex = [])
    (turns : Nat) (vertex : α) (seen : List α)
    (hturns : (bound.filter (· ∉ seen)).card < turns) :
    ∃ answer, search next target turns vertex seen = some answer ∧ seen ⊆ answer.2 := by
  induction turns generalizing vertex seen with
  | zero => omega
  | succ turns ih =>
    rw [search]
    split
    · exact ⟨(true, seen), rfl, List.Subset.refl seen⟩
    · split
      · exact ⟨(false, seen), rfl, List.Subset.refl seen⟩
      · rename_i hnew
        have hstart : seen ⊆ vertex :: seen := List.subset_cons_self _ _
        by_cases hinside : vertex ∈ bound
        · have hfewer : (bound.filter (· ∉ vertex :: seen)).card < turns := by
            have hstrict : (bound.filter (· ∉ vertex :: seen)).card <
                (bound.filter (· ∉ seen)).card := by
              apply Finset.card_lt_card
              rw [Finset.ssubset_iff_of_subset]
              · exact ⟨vertex, by simp [hinside, hnew], by simp⟩
              · intro other
                simp only [Finset.mem_filter, List.mem_cons, not_or]
                exact fun hother => ⟨hother.1, hother.2.2⟩
            omega
          obtain ⟨answer, hanswer, hgrows⟩ := searchAny_total
            (search next target turns) (vertex :: seen) (fun other more hmore => by
              apply ih
              apply lt_of_le_of_lt (Finset.card_le_card _) hfewer
              intro third
              simp only [Finset.mem_filter]
              exact fun hthird => ⟨hthird.1, fun hknown => hthird.2 (hmore hknown)⟩)
            (next vertex) (List.Subset.refl _)
          exact ⟨answer, hanswer, List.Subset.trans hstart hgrows⟩
        · rw [hbound vertex hinside]
          exact ⟨(false, vertex :: seen), rfl, hstart⟩

end Purrdf.DepthFirst
