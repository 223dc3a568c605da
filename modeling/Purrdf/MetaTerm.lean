import Mathlib.Data.Finite.Defs
import Mathlib.Order.WellFoundedSet
import Mathlib.Data.Set.Basic
import Mathlib.Logic.Relation
import Mathlib.Tactic.Ring

/-!
# Locally nameless terms with metavariables

Terms whose bound variables are de Bruijn indices and whose metavariables stand
for terms outside every binder. Because a metavariable's value lives at depth 0,
instantiating it under binders shifts the value up, and solving it under binders
lowers a candidate down. The laws relating shifting, lowering and instantiation
are what unification under binders rests on.

The second half is about triangular substitutions: partial maps from
metavariables to terms that may mention further bound metavariables, and the
total assignments that satisfy all their equations.
-/

namespace Purrdf.MetaTerm

variable {α μ : Type}

/-- Terms over constants `α` and metavariables `μ`. Argument lists are spelled
with `nil` and `cons`; the body of a `binder` is one binder deeper. -/
inductive Term (α μ : Type) where
  | const (value : α)
  | mvar (name : μ)
  | bound (index slot : Nat)
  | nil
  | cons (head tail : Term α μ)
  | app (op args : Term α μ)
  | binder (op sorts body : Term α μ)

namespace Term

def size : Term α μ → Nat
  | const _ | mvar _ | bound _ _ | nil => 1
  | cons head tail => head.size + tail.size + 1
  | app op args => op.size + args.size + 1
  | binder op sorts body => op.size + sorts.size + body.size + 1

def Mentions (name : μ) : Term α μ → Prop
  | const _ | bound _ _ | nil => False
  | mvar other => other = name
  | cons head tail => head.Mentions name ∨ tail.Mentions name
  | app op args => op.Mentions name ∨ args.Mentions name
  | binder op sorts body => op.Mentions name ∨ sorts.Mentions name ∨ body.Mentions name

def RigidOps : Term α μ → Prop
  | const _ | mvar _ | bound _ _ | nil => True
  | cons head tail => head.RigidOps ∧ tail.RigidOps
  | app op args => (∀ name, ¬ op.Mentions name) ∧ args.RigidOps
  | binder op sorts body => (∀ name, ¬ op.Mentions name) ∧ sorts.RigidOps ∧ body.RigidOps

/-- Raise by `amount` every bound variable that points past `cutoff` binders. -/
def shift (amount : Nat) : Nat → Term α μ → Term α μ
  | _, const value => const value
  | _, mvar name => mvar name
  | cutoff, bound index slot =>
    if cutoff ≤ index then bound (index + amount) slot else bound index slot
  | _, nil => nil
  | cutoff, cons head tail => cons (head.shift amount cutoff) (tail.shift amount cutoff)
  | cutoff, app op args => app (op.shift amount cutoff) (args.shift amount cutoff)
  | cutoff, binder op sorts body =>
    binder (op.shift amount cutoff) (sorts.shift amount cutoff) (body.shift amount (cutoff + 1))

/-- Some bound variable of the term points at one of the `amount` binders just
past `cutoff`. -/
def Escapes (amount : Nat) : Nat → Term α μ → Prop
  | _, const _ | _, mvar _ | _, nil => False
  | cutoff, bound index _ => cutoff ≤ index ∧ index < cutoff + amount
  | cutoff, cons head tail => head.Escapes amount cutoff ∨ tail.Escapes amount cutoff
  | cutoff, app op args => op.Escapes amount cutoff ∨ args.Escapes amount cutoff
  | cutoff, binder op sorts body =>
    op.Escapes amount cutoff ∨ sorts.Escapes amount cutoff ∨ body.Escapes amount (cutoff + 1)

/-- Every bound variable satisfies `index` with the depth it is met at, and every binder is met at
a depth whose successor is below `limit`. -/
def Fits (limit : Nat) (index : Nat → Nat → Prop) : Nat → Term α μ → Prop
  | _, const _ | _, mvar _ | _, nil => True
  | depth, bound debruijn _ => index depth debruijn
  | depth, cons head tail => head.Fits limit index depth ∧ tail.Fits limit index depth
  | depth, app op args => op.Fits limit index depth ∧ args.Fits limit index depth
  | depth, binder op sorts body => op.Fits limit index depth ∧ sorts.Fits limit index depth ∧
    depth + 1 < limit ∧ body.Fits limit index (depth + 1)

def inst (σ : μ → Term α μ) : Nat → Term α μ → Term α μ
  | _, const value => const value
  | depth, mvar name => (σ name).shift depth 0
  | _, bound index slot => bound index slot
  | _, nil => nil
  | depth, cons head tail => cons (head.inst σ depth) (tail.inst σ depth)
  | depth, app op args => app (op.inst σ depth) (args.inst σ depth)
  | depth, binder op sorts body =>
    binder (op.inst σ depth) (sorts.inst σ depth) (body.inst σ (depth + 1))

attribute [local simp] size Mentions RigidOps shift Escapes inst

theorem size_pos (t : Term α μ) : 0 < t.size := by
  cases t <;> simp [size]

/-! ### Shifting -/

@[simp] theorem shift_zero (cutoff : Nat) (t : Term α μ) : t.shift 0 cutoff = t := by
  induction t generalizing cutoff <;> simp_all [shift]

theorem shift_shift_add (amount extra cutoff : Nat) (t : Term α μ) :
    (t.shift amount cutoff).shift extra (cutoff + amount) = t.shift (amount + extra) cutoff := by
  induction t generalizing cutoff with
  | bound index slot =>
    by_cases h : cutoff ≤ index
    · have hraised : cutoff + amount ≤ index + amount := by omega
      simp only [shift, h, hraised, if_true, Nat.add_assoc]
    · have hlow : ¬ cutoff + amount ≤ index := by omega
      simp only [shift, h, hlow, if_false]
  | binder op sorts body hop hsorts hbody =>
    have hcutoff : cutoff + amount + 1 = cutoff + 1 + amount := by omega
    simp only [shift, hop, hsorts, hcutoff, hbody]
  | _ => simp_all [shift]

@[simp] theorem size_shift (amount cutoff : Nat) (t : Term α μ) :
    (t.shift amount cutoff).size = t.size := by
  induction t generalizing cutoff with
  | bound index slot => simp only [shift]; split <;> rfl
  | _ => simp_all [shift, size]

@[simp] theorem mentions_shift {name : μ} (amount cutoff : Nat) (t : Term α μ) :
    (t.shift amount cutoff).Mentions name ↔ t.Mentions name := by
  induction t generalizing cutoff with
  | bound index slot => simp only [shift]; split <;> rfl
  | _ => simp_all [shift, Mentions]

@[simp] theorem rigidOps_shift (amount cutoff : Nat) (t : Term α μ) :
    (t.shift amount cutoff).RigidOps ↔ t.RigidOps := by
  induction t generalizing cutoff with
  | bound index slot => simp only [shift]; split <;> rfl
  | _ => simp_all [shift, RigidOps]

variable {t : Term α μ} {σ : μ → Term α μ}

theorem shift_injective {amount : Nat} {t u : Term α μ} :
    ∀ {cutoff : Nat}, t.shift amount cutoff = u.shift amount cutoff → t = u := by
  induction t generalizing u with
  | bound index slot =>
    intro cutoff heq
    cases u with
    | bound index' slot' =>
      simp only [shift] at heq
      split at heq <;> split at heq <;>
        (simp only [bound.injEq] at heq ⊢; omega)
    | _ => simp only [shift] at heq; split at heq <;> cases heq
  | _ =>
    intro cutoff heq
    cases u with
    | bound index' slot' => simp only [shift] at heq; split at heq <;> cases heq
    | _ => grind [shift]

theorem not_escapes_shift (amount cutoff : Nat) (t : Term α μ) :
    ¬ (t.shift amount cutoff).Escapes amount cutoff := by
  induction t generalizing cutoff with
  | bound index slot =>
    simp only [shift]
    split <;> (simp only [Escapes]; omega)
  | _ => simp_all [shift, Escapes]

theorem fits_shift {limit amount : Nat} {index index' : Nat → Nat → Prop} {cutoff : Nat}
    (hraised : ∀ depth debruijn, depth ≤ debruijn →
      (index depth (debruijn + amount) ↔ index' depth debruijn))
    (hkept : ∀ depth debruijn, debruijn < depth → (index depth debruijn ↔ index' depth debruijn))
    (t : Term α μ) :
    (t.shift amount cutoff).Fits limit index cutoff ↔ t.Fits limit index' cutoff := by
  induction t generalizing cutoff with
  | bound debruijn slot =>
    simp only [shift]
    split
    · next hle => exact hraised cutoff debruijn hle
    · next hlt => exact hkept cutoff debruijn (Nat.lt_of_not_le hlt)
  | _ => simp_all [shift, Fits]

/-! ### Instantiation -/

@[simp] theorem inst_mvar_zero (σ : μ → Term α μ) (name : μ) :
    (mvar name).inst σ 0 = σ name := by
  simp only [inst, shift_zero]

theorem shift_inst (σ : μ → Term α μ) (amount depth : Nat) (t : Term α μ) :
    (t.inst σ depth).shift amount depth = (t.shift amount depth).inst σ (depth + amount) := by
  induction t generalizing depth with
  | mvar name =>
    have h := shift_shift_add depth amount 0 (σ name)
    rw [Nat.zero_add] at h
    simp only [inst, shift, h]
  | bound index slot => simp only [inst, shift]; split <;> simp only [inst]
  | binder op sorts body hop hsorts hbody =>
    have hdepth : depth + amount + 1 = depth + 1 + amount := by omega
    simp only [inst, shift, hop, hsorts, hdepth, hbody]
  | _ => simp_all [inst, shift]

/-- A variable that escapes keeps escaping after instantiation: the values of
metavariables are shifted clear of it. -/
theorem escapes_inst {amount depth : Nat} (h : t.Escapes amount depth) :
    (t.inst σ (depth + amount)).Escapes amount depth := by
  induction t generalizing depth with
  | binder op sorts body hop hsorts hbody =>
    simp only [Escapes, inst] at h ⊢
    have hdepth : depth + amount + 1 = depth + 1 + amount := by omega
    rcases h with h | h | h
    · exact Or.inl (hop h)
    · exact Or.inr (Or.inl (hsorts h))
    · right; right
      rw [hdepth]
      exact hbody h
  | cons head tail hhead htail => exact h.imp hhead htail
  | app op args hop hargs => exact h.imp hop hargs
  | bound index slot => exact h
  | const value => exact h
  | mvar name => exact h.elim
  | nil => exact h

theorem size_le_inst {name : μ} (h : t.Mentions name) (depth : Nat) :
    (σ name).size ≤ (t.inst σ depth).size := by
  induction t generalizing depth with
  | mvar other =>
    cases h
    simp only [inst, size_shift, Nat.le_refl]
  | cons head tail hhead htail =>
    simp only [inst, size]
    rcases h with h | h
    · have := hhead h depth; omega
    · have := htail h depth; omega
  | app op args hop hargs =>
    simp only [inst, size]
    rcases h with h | h
    · have := hop h depth; omega
    · have := hargs h depth; omega
  | binder op sorts body hop hsorts hbody =>
    simp only [inst, size]
    rcases h with h | h | h
    · have := hop h depth; omega
    · have := hsorts h depth; omega
    · have := hbody h (depth + 1); omega
  | _ => exact h.elim

/-- It is strictly smaller unless the term is the metavariable itself. -/
theorem size_lt_inst {name : μ} (h : t.Mentions name) (hcompound : ∀ other, t ≠ mvar other)
    (depth : Nat) :
    (σ name).size < (t.inst σ depth).size := by
  cases t with
  | mvar other => exact absurd rfl (hcompound other)
  | cons head tail =>
    simp only [inst, size]
    rcases h with h | h
    · have := size_le_inst (σ := σ) h depth; omega
    · have := size_le_inst (σ := σ) h depth; omega
  | app op args =>
    simp only [inst, size]
    rcases h with h | h
    · have := size_le_inst (σ := σ) h depth; omega
    · have := size_le_inst (σ := σ) h depth; omega
  | binder op sorts body =>
    simp only [inst, size]
    rcases h with h | h | h
    · have := size_le_inst (σ := σ) h depth; omega
    · have := size_le_inst (σ := σ) h depth; omega
    · have := size_le_inst (σ := σ) h (depth + 1); omega
  | _ => exact h.elim

end Term

/-! ### Triangular substitutions -/

/-- A triangular substitution: a value may mention further bound metavariables. -/
abbrev Bindings (α μ : Type) := μ → Option (Term α μ)

variable {bindings : Bindings α μ}

/-- The value of `outer` mentions `inner`. -/
def Depends (bindings : Bindings α μ) (inner outer : μ) : Prop :=
  ∃ t, bindings outer = some t ∧ t.Mentions inner

def Acyclic (bindings : Bindings α μ) : Prop :=
  ∀ name, ¬ Relation.TransGen (Depends bindings) name name

def Satisfies (σ : μ → Term α μ) (bindings : Bindings α μ) : Prop :=
  ∀ name t, bindings name = some t → σ name = t.inst σ 0

/-- Finitely many bindings without a cycle are well founded: an infinite descent
stays among the bound metavariables, on which the dependency order is strict. -/
theorem Acyclic.wellFounded (hacyclic : Acyclic bindings)
    (hfinite : {name | bindings name ≠ none}.Finite) : WellFounded (Depends bindings) := by
  have hstrict : IsStrictOrder μ (Relation.TransGen (Depends bindings)) :=
    { irrefl := hacyclic
      trans := fun _ _ _ => Relation.TransGen.trans }
  have hon : {name | bindings name ≠ none}.WellFoundedOn
      (Relation.TransGen (Depends bindings)) := hfinite.wellFoundedOn
  have hmin : ∀ name, bindings name = none → Acc (Depends bindings) name := by
    intro name hnone
    refine ⟨name, fun inner hinner => ?_⟩
    obtain ⟨t, ht, _⟩ := hinner
    rw [hnone] at ht
    cases ht
  refine ⟨fun name => ?_⟩
  by_cases hname : bindings name = none
  · exact hmin name hname
  · refine hon.induction hname fun outer _ ih => ⟨outer, fun inner hinner => ?_⟩
    by_cases hbound : bindings inner = none
    · exact hmin inner hbound
    · exact ih inner hbound (Relation.TransGen.single hinner)

theorem Satisfies.size_le {σ : μ → Term α μ} (hσ : Satisfies σ bindings) {inner outer : μ}
    (hreach : Relation.ReflTransGen (Depends bindings) inner outer) :
    (σ inner).size ≤ (σ outer).size := by
  induction hreach with
  | refl => exact Nat.le_refl _
  | tail _ hstep ih =>
    obtain ⟨t, ht, hmentions⟩ := hstep
    rw [hσ _ t ht]
    exact Nat.le_trans ih (Term.size_le_inst hmentions 0)

def Occurs (bindings : Bindings α μ) (name : μ) (t : Term α μ) : Prop :=
  ∃ inner, t.Mentions inner ∧ Relation.ReflTransGen (Depends bindings) name inner

@[simp] theorem occurs_shift {name : μ} (amount cutoff : Nat) (t : Term α μ) :
    Occurs bindings name (t.shift amount cutoff) ↔ Occurs bindings name t := by
  simp only [Occurs, Term.mentions_shift]

theorem reach_of_unbound {name outer : μ} (hunbound : bindings outer = none)
    (hreach : Relation.ReflTransGen (Depends bindings) name outer) : name = outer := by
  cases hreach with
  | refl => rfl
  | tail _ hstep =>
    obtain ⟨t, ht, _⟩ := hstep
    rw [hunbound] at ht
    cases ht

theorem occurs_of_unbound {name : μ} {t : Term α μ}
    (hunbound : ∀ inner, t.Mentions inner → bindings inner = none) :
    Occurs bindings name t ↔ t.Mentions name := by
  constructor
  · rintro ⟨inner, hmentions, hreach⟩
    rw [reach_of_unbound (hunbound inner hmentions) hreach]
    exact hmentions
  · exact fun h => ⟨name, h, .refl⟩

theorem Satisfies.ne_of_occurs {σ : μ → Term α μ} (hσ : Satisfies σ bindings) {name : μ}
    {t : Term α μ} (hoccurs : Occurs bindings name t) (hcompound : ∀ other, t ≠ .mvar other)
    (depth : Nat) : (σ name).shift depth 0 ≠ t.inst σ depth := by
  intro heq
  obtain ⟨inner, hmentions, hreach⟩ := hoccurs
  have hle := hσ.size_le hreach
  have hlt := Term.size_lt_inst (σ := σ) hmentions hcompound depth
  rw [← heq, Term.size_shift] at hlt
  omega

section Assign

variable [DecidableEq μ]

def assign (bindings : Bindings α μ) (name : μ) (t : Term α μ) : Bindings α μ :=
  fun other => if other = name then some t else bindings other

variable {name : μ} {t : Term α μ}

/-- Binding a metavariable to a term it does not occur in keeps dependency well
founded. A metavariable from which `name` is out of reach only has the old
dependencies below it, and everything `name` now depends on is of that kind. -/
theorem wellFounded_assign (hwf : WellFounded (Depends bindings))
    (hoccurs : ¬ Occurs bindings name t) : WellFounded (Depends (assign bindings name t)) := by
  have hfree : ∀ outer, ¬ Relation.ReflTransGen (Depends bindings) name outer →
      Acc (Depends (assign bindings name t)) outer := by
    intro outer
    induction outer using hwf.induction with
    | _ outer ih =>
      intro hreach
      refine ⟨outer, fun inner hinner => ?_⟩
      obtain ⟨value, hvalue, hmentions⟩ := hinner
      have hother : outer ≠ name := by
        rintro rfl
        exact hreach .refl
      simp only [assign, hother, if_false] at hvalue
      have hdepends : Depends bindings inner outer := ⟨value, hvalue, hmentions⟩
      exact ih inner hdepends (fun h => hreach (h.tail hdepends))
  have hname : Acc (Depends (assign bindings name t)) name := by
    refine ⟨name, fun inner hinner => ?_⟩
    obtain ⟨value, hvalue, hmentions⟩ := hinner
    simp only [assign, if_true, Option.some.injEq] at hvalue
    subst hvalue
    exact hfree inner (fun h => hoccurs ⟨inner, hmentions, h⟩)
  refine ⟨fun outer => ?_⟩
  induction outer using hwf.induction with
  | _ outer ih =>
    by_cases hother : outer = name
    · rw [hother]
      exact hname
    · refine ⟨outer, fun inner hinner => ?_⟩
      obtain ⟨value, hvalue, hmentions⟩ := hinner
      simp only [assign, hother, if_false] at hvalue
      exact ih inner ⟨value, hvalue, hmentions⟩

theorem satisfies_assign (hunbound : bindings name = none) (σ : μ → Term α μ) :
    Satisfies σ (assign bindings name t) ↔ Satisfies σ bindings ∧ σ name = t.inst σ 0 := by
  constructor
  · intro h
    refine ⟨fun other value hvalue => h other value ?_, h name t ?_⟩
    · have hother : other ≠ name := by
        rintro rfl
        rw [hunbound] at hvalue
        cases hvalue
      simpa only [assign, hother, if_false] using hvalue
    · simp only [assign, if_true]
  · rintro ⟨hσ, hname⟩ other value hvalue
    by_cases hother : other = name
    · simp only [assign, hother, if_true, Option.some.injEq] at hvalue
      rw [hother, ← hvalue]
      exact hname
    · simp only [assign, hother, if_false] at hvalue
      exact hσ other value hvalue

end Assign

/-- A metavariable met under `depth` binders equals a term exactly when it equals,
at its own depth, what the term is a shift of. -/
theorem mvar_eq_shift_iff (σ : μ → Term α μ) (name : μ) (depth : Nat) (t : Term α μ) :
    (Term.mvar name).inst σ depth = (t.shift depth 0).inst σ depth ↔ σ name = t.inst σ 0 := by
  have h := Term.shift_inst σ depth 0 t
  rw [Nat.zero_add] at h
  rw [← h]
  exact ⟨fun heq => Term.shift_injective heq, fun heq => congrArg _ heq⟩

/-- A metavariable met under `depth` binders never equals a term that mentions
one of their variables. -/
theorem mvar_ne_of_escapes (σ : μ → Term α μ) (name : μ) {depth : Nat} {t : Term α μ}
    (hescapes : t.Escapes depth 0) : (Term.mvar name).inst σ depth ≠ t.inst σ depth := by
  intro heq
  have h := Term.escapes_inst (σ := σ) hescapes
  rw [Nat.zero_add, ← heq] at h
  exact Term.not_escapes_shift depth 0 (σ name) h

end Purrdf.MetaTerm
