import Mathlib.Algebra.Group.Pointwise.Set.Basic
import Mathlib.Algebra.BigOperators.Group.Multiset.Basic

/-!
# Repeated sums of sets

How often the elements of a set may be added up, when every summand is itself a sum with a
bounded number of terms. The bounds multiply: a sum of sums has as many terms as some number
between the least and the most of all its parts together.
-/

namespace Purrdf.CountedSums

open scoped Pointwise

variable {M : Type*} [AddCommMonoid M]

def Allows (least : Nat) (most : Option Nat) (n : Nat) : Prop :=
  least ≤ n ∧ ∀ bound, most = some bound → n ≤ bound

def counted (least : Nat) (most : Option Nat) (body : Set M) : Set M :=
  {total | ∃ n, Allows least most n ∧ total ∈ n • body}

def AllowsTotal (least : Nat) (most : Option Nat) (parts terms : Nat) : Prop :=
  parts * least ≤ terms ∧ (∀ bound, most = some bound → terms ≤ parts * bound) ∧
    (parts = 0 → terms = 0)

theorem AllowsTotal.add_part {least : Nat} {most : Option Nat} {parts terms n : Nat}
    (total : AllowsTotal least most parts terms) (allows : Allows least most n) :
    AllowsTotal least most (parts + 1) (terms + n) := by
  obtain ⟨low, high, -⟩ := total
  refine ⟨?_, ?_, fun none => absurd none (Nat.succ_ne_zero _)⟩
  · rw [Nat.succ_mul]
    exact Nat.add_le_add low allows.1
  · intro bound same
    rw [Nat.succ_mul]
    exact Nat.add_le_add (high bound same) (allows.2 bound same)

theorem AllowsTotal.split {least : Nat} {most : Option Nat} {parts terms : Nat}
    (ordered : ∀ bound, most = some bound → least ≤ bound)
    (total : AllowsTotal least most (parts + 1) terms) :
    ∃ rest n, terms = rest + n ∧ AllowsTotal least most parts rest ∧ Allows least most n := by
  obtain ⟨low, high, -⟩ := total
  rw [Nat.succ_mul] at low
  by_cases last : parts = 0
  · refine ⟨0, terms, (Nat.zero_add _).symm, ⟨?_, fun _ _ => Nat.zero_le _, fun _ => rfl⟩, ?_, ?_⟩
    · rw [last, Nat.zero_mul]
    · omega
    · intro bound same
      have whole := high bound same
      rw [last, Nat.zero_add, Nat.one_mul] at whole
      exact whole
  · cases most with
    | none =>
      refine ⟨parts * least, terms - parts * least, by omega, ⟨le_rfl, ?_, ?_⟩, ?_, ?_⟩
      · exact fun bound same => absurd same (by simp)
      · exact fun none => absurd none last
      · omega
      · exact fun bound same => absurd same (by simp)
    | some bound =>
      have order := ordered bound rfl
      have whole := high bound rfl
      rw [Nat.succ_mul] at whole
      have spread : parts * least ≤ parts * bound := Nat.mul_le_mul_left _ order
      by_cases few : terms ≤ parts * bound + least
      · -- the last part takes its least
        refine ⟨terms - least, least, by omega, ⟨by omega, ?_, fun none => absurd none last⟩,
          le_rfl, ?_⟩
        · intro other same
          cases same
          omega
        · intro other same
          cases same
          exact order
      · -- the other parts take their most
        refine ⟨parts * bound, terms - parts * bound, by omega,
          ⟨spread, ?_, fun none => absurd none last⟩, by omega, ?_⟩
        · intro other same
          cases same
          exact le_rfl
        · intro other same
          cases same
          omega

theorem mem_nsmul_counted {least : Nat} {most : Option Nat} {body : Set M} {parts : Nat}
    {total : M} (ordered : ∀ bound, most = some bound → least ≤ bound) :
    total ∈ parts • counted least most body
      ↔ ∃ terms, AllowsTotal least most parts terms ∧ total ∈ terms • body := by
  induction parts generalizing total with
  | zero =>
    rw [zero_nsmul, Set.mem_zero]
    constructor
    · rintro rfl
      refine ⟨0, ⟨?_, fun _ _ => Nat.zero_le _, fun _ => rfl⟩, ?_⟩
      · rw [Nat.zero_mul]
      · rw [zero_nsmul, Set.mem_zero]
    · rintro ⟨terms, ⟨-, -, none⟩, member⟩
      rw [none rfl, zero_nsmul, Set.mem_zero] at member
      exact member
  | succ parts ih =>
    rw [succ_nsmul, Set.mem_add]
    constructor
    · rintro ⟨rest, others, part, ⟨n, allows, member⟩, rfl⟩
      obtain ⟨terms, allowed, rest_member⟩ := ih.mp others
      refine ⟨terms + n, allowed.add_part allows, ?_⟩
      rw [add_nsmul]
      exact Set.add_mem_add rest_member member
    · rintro ⟨terms, allowed, member⟩
      obtain ⟨rest, n, rfl, others, allows⟩ := allowed.split ordered
      rw [add_nsmul, Set.mem_add] at member
      obtain ⟨first, rest_member, part, part_member, rfl⟩ := member
      exact ⟨first, ih.mpr ⟨rest, others, rest_member⟩, part, ⟨n, allows, part_member⟩, rfl⟩

theorem mem_nsmul_union {left right : Set M} {terms : Nat} {total : M} :
    total ∈ terms • (left ∪ right)
      ↔ ∃ first second, first + second = terms ∧ total ∈ first • left + second • right := by
  induction terms generalizing total with
  | zero =>
    rw [zero_nsmul]
    constructor
    · intro none
      refine ⟨0, 0, rfl, ?_⟩
      rwa [zero_nsmul, zero_nsmul, add_zero]
    · rintro ⟨first, second, none, member⟩
      have no_first : first = 0 := by omega
      have no_second : second = 0 := by omega
      rwa [no_first, no_second, zero_nsmul, zero_nsmul, add_zero] at member
  | succ terms ih =>
    rw [succ_nsmul, Set.mem_add]
    constructor
    · rintro ⟨rest, others, last, kind, rfl⟩
      obtain ⟨first, second, rfl, member⟩ := ih.mp others
      rcases kind with here | there
      · refine ⟨first + 1, second, by omega, ?_⟩
        rw [succ_nsmul, add_right_comm]
        exact Set.add_mem_add member here
      · refine ⟨first, second + 1, by omega, ?_⟩
        rw [succ_nsmul, ← add_assoc]
        exact Set.add_mem_add member there
    · rintro ⟨first, second, whole, member⟩
      cases first with
      | succ first =>
        rw [succ_nsmul, add_right_comm, Set.mem_add] at member
        obtain ⟨rest, others, last, here, rfl⟩ := member
        exact ⟨rest, ih.mpr ⟨first, second, by omega, others⟩, last, Or.inl here, rfl⟩
      | zero =>
        cases second with
        | zero => omega
        | succ second =>
          rw [succ_nsmul, ← add_assoc, Set.mem_add] at member
          obtain ⟨rest, others, last, there, rfl⟩ := member
          exact ⟨rest, ih.mpr ⟨0, second, by omega, others⟩, last, Or.inr there, rfl⟩

theorem mem_nsmul_empty {terms : Nat} {total : M} :
    total ∈ terms • (∅ : Set M) ↔ terms = 0 ∧ total = 0 := by
  cases terms with
  | zero =>
    rw [zero_nsmul, Set.mem_zero]
    exact (and_iff_right rfl).symm
  | succ terms =>
    rw [succ_nsmul, Set.add_empty]
    simp

/-! ### Bags over disjoint supports -/

def MadeOf {α : Type*} (members : α → Prop) (bags : Set (Multiset α)) : Prop :=
  ∀ bag ∈ bags, ∀ x ∈ bag, members x

namespace MadeOf

variable {α : Type*} {members other : α → Prop} {bags left right : Set (Multiset α)}

theorem mono (made : MadeOf members bags) (weaker : ∀ x, members x → other x) :
    MadeOf other bags :=
  fun bag member x within => weaker x (made bag member x within)

theorem zero : MadeOf members (0 : Set (Multiset α)) := by
  intro bag member x within
  rw [Set.mem_zero] at member
  rw [member] at within
  exact absurd within (Multiset.notMem_zero x)

theorem add (left_made : MadeOf members left) (right_made : MadeOf members right) :
    MadeOf members (left + right) := by
  intro bag member x within
  obtain ⟨first, first_member, second, second_member, rfl⟩ := Set.mem_add.mp member
  rcases Multiset.mem_add.mp within with here | there
  · exact left_made first first_member x here
  · exact right_made second second_member x there

theorem union (left_made : MadeOf members left) (right_made : MadeOf members right) :
    MadeOf members (left ∪ right) := by
  rintro bag (here | there)
  · exact left_made bag here
  · exact right_made bag there

theorem nsmul (made : MadeOf members bags) (n : Nat) : MadeOf members (n • bags) := by
  induction n with
  | zero =>
    rw [zero_nsmul]
    exact zero
  | succ n ih =>
    rw [succ_nsmul]
    exact ih.add made

theorem counted (made : MadeOf members bags) (least : Nat) (most : Option Nat) :
    MadeOf members (CountedSums.counted least most bags) := by
  rintro bag ⟨n, -, member⟩
  exact made.nsmul n bag member

end MadeOf

/-- A sum of bags over disjoint supports has one way to be taken apart. -/
theorem mem_add_iff {α : Type*} {left right : Set (Multiset α)} {first second : Multiset α}
    {here there : α → Prop} (disjoint : ∀ x, here x → ¬ there x)
    (left_made : MadeOf here left) (right_made : MadeOf there right)
    (first_made : ∀ x ∈ first, here x) (second_made : ∀ x ∈ second, there x) :
    first + second ∈ left + right ↔ first ∈ left ∧ second ∈ right := by
  classical
  constructor
  · intro member
    obtain ⟨one, one_member, two, two_member, same⟩ := Set.mem_add.mp member
    have keep : ∀ bag : Multiset α, (∀ x ∈ bag, here x) → bag.filter here = bag :=
      fun bag made => Multiset.filter_eq_self.mpr made
    have drop : ∀ bag : Multiset α, (∀ x ∈ bag, there x) → bag.filter here = 0 :=
      fun bag made => Multiset.filter_eq_nil.mpr fun x within is_here =>
        disjoint x is_here (made x within)
    have first_eq : one = first := by
      have filtered := congrArg (Multiset.filter here) same
      rw [Multiset.filter_add, Multiset.filter_add, keep one (left_made one one_member),
        keep first first_made, drop two (right_made two two_member), drop second second_made,
        add_zero, add_zero] at filtered
      exact filtered
    subst first_eq
    have second_eq : two = second := add_left_cancel same
    subst second_eq
    exact ⟨one_member, two_member⟩
  · rintro ⟨first_member, second_member⟩
    exact Set.add_mem_add first_member second_member

theorem mem_nsmul_singleton {α : Type*} {n : Nat} {x : α} {bag : Multiset α} :
    bag ∈ n • ({{x}} : Set (Multiset α)) ↔ bag = Multiset.replicate n x := by
  rw [Set.nsmul_singleton, Multiset.nsmul_singleton, Set.mem_singleton_iff]

end Purrdf.CountedSums
