import Mathlib.Data.List.Forall2

/-!
# Stateful computations that may stop

A computation over a mutable state that returns a value or stops with a fault.
The state reached survives a stop, as mutations through `&mut` do when a function
returns early with an error. `Ends` is the one judgement: what holds of the value
and the state whenever a value is returned, and of the fault otherwise.
-/

namespace Purrdf

/-- A computation over states `σ` with faults `ε`. -/
def Exec (ε σ α : Type) : Type := σ → Except ε α × σ

namespace Exec

variable {ε σ τ α β : Type}

protected def pure (value : α) : Exec ε σ α := fun state => (.ok value, state)

protected def bind (x : Exec ε σ α) (next : α → Exec ε σ β) : Exec ε σ β := fun state =>
  match x state with
  | (.ok value, reached) => next value reached
  | (.error fault, reached) => (.error fault, reached)

instance : Monad (Exec ε σ) where
  pure := Exec.pure
  bind := Exec.bind

def stop (fault : ε) : Exec ε σ α := fun state => (.error fault, state)

def get : Exec ε σ σ := fun state => (.ok state, state)

def set (next : σ) : Exec ε σ Unit := fun _ => (.ok (), next)

def lift (result : Except ε α) : Exec ε σ α := fun state => (result, state)

def onFst (x : Exec ε σ α) : Exec ε (σ × τ) α := fun state =>
  let (result, reached) := x state.1
  (result, reached, state.2)

/-- Run with a scratch component that starts at `scratch` and is dropped. -/
def withScratch (scratch : τ) (x : Exec ε (σ × τ) α) : Exec ε σ α := fun state =>
  let (result, reached) := x (state, scratch)
  (result, reached.1)

/-- Run over a list from left to right, stopping at the first fault. -/
def traverse (f : α → Exec ε σ β) : List α → Exec ε σ (List β)
  | [] => pure []
  | x :: xs => do
      let y ← f x
      let ys ← traverse f xs
      pure (y :: ys)

/-- Run over a list from left to right, stopping at the first `none`. -/
def traverseSome (f : α → Exec ε σ (Option β)) : List α → Exec ε σ (Option (List β))
  | [] => pure (some [])
  | x :: xs => do
      match ← f x with
      | none => pure none
      | some y =>
        match ← traverseSome f xs with
        | none => pure none
        | some ys => pure (some (y :: ys))

def replicate (x : Exec ε σ α) : Nat → Exec ε σ (List α)
  | 0 => pure []
  | count + 1 => do
      let value ← x
      let values ← replicate x count
      pure (value :: values)

def times (x : Exec ε σ Unit) : Nat → Exec ε σ Unit
  | 0 => pure ()
  | count + 1 => do
      x
      times x count

/-- What a run returns satisfies `post`, and a fault it stops with is one that `fails` admits. -/
def Ends (fails : ε → Prop) (x : Exec ε σ α) (state : σ) (post : α → σ → Prop) : Prop :=
  match x state with
  | (.ok value, reached) => post value reached
  | (.error fault, _) => fails fault

/-- `post` holds of every value `x` returns from `state`, and of the state it is
returned in. -/
abbrev Yields (x : Exec ε σ α) (state : σ) (post : α → σ → Prop) : Prop :=
  Ends (fun _ => True) x state post

section

variable {fails fails' : ε → Prop} {state : σ} {post mid : β → σ → Prop} {x : Exec ε σ β}

theorem ends_of_run (hok : ∀ value reached, x state = (.ok value, reached) → post value reached)
    (herror : ∀ fault reached, x state = (.error fault, reached) → fails fault) :
    Ends fails x state post := by
  unfold Ends
  split
  · next value reached hrun => exact hok value reached hrun
  · next fault reached hrun => exact herror fault reached hrun

theorem Ends.returned (hx : Ends fails x state post) {value : β} {reached : σ}
    (hrun : x state = (.ok value, reached)) : post value reached := by
  rwa [Ends, hrun] at hx

theorem Ends.stopped (hx : Ends fails x state post) {fault : ε}
    (hrun : (x state).1 = .error fault) : fails fault := by
  rwa [Ends, show x state = (.error fault, (x state).2) from Prod.ext hrun rfl] at hx

theorem Ends.mono (hx : Ends fails' x state mid) (hfails : ∀ fault, fails' fault → fails fault)
    (h : ∀ value reached, mid value reached → post value reached) : Ends fails x state post :=
  ends_of_run (fun _ _ hrun => h _ _ (hx.returned hrun)) fun _ _ hrun =>
    hfails _ (hx.stopped (congrArg Prod.fst hrun))

theorem Ends.imp (hx : Ends fails x state mid)
    (h : ∀ value reached, mid value reached → post value reached) : Ends fails x state post :=
  hx.mono (fun _ h => h) h

theorem Ends.yields (hx : Ends fails x state mid)
    (h : ∀ value reached, mid value reached → post value reached) : Yields x state post :=
  hx.mono (fun _ _ => trivial) h

theorem Ends.returns (hx : Ends fails x state post) (hnone : ∀ fault, ¬ fails fault) :
    ∃ value reached, x state = (.ok value, reached) ∧ post value reached := by
  cases hrun : x state with
  | mk result reached =>
    cases result with
    | ok value => exact ⟨value, reached, rfl, hx.returned hrun⟩
    | error fault => exact absurd (hx.stopped (congrArg Prod.fst hrun)) (hnone fault)

theorem ends_pure {value : β} (h : post value state) :
    Ends fails (pure value : Exec ε σ β) state post := h

theorem ends_bind {x : Exec ε σ α} {next : α → Exec ε σ β} (mid : α → σ → Prop)
    (hx : Ends fails x state mid)
    (hnext : ∀ value reached, mid value reached → Ends fails (next value) reached post) :
    Ends fails (x >>= next) state post := by
  change Ends fails (Exec.bind x next) state post
  cases hrun : x state with
  | mk outcome reached =>
    cases outcome with
    | ok value =>
      have h := hnext value reached (hx.returned hrun)
      rwa [Ends, Exec.bind, hrun]
    | error fault =>
      rw [Ends, Exec.bind, hrun]
      exact hx.stopped (congrArg Prod.fst hrun)

theorem ends_get_bind {next : σ → Exec ε σ β} (h : Ends fails (next state) state post) :
    Ends fails (get >>= next) state post := h

theorem ends_lift_bind {result : Except ε α} {next : α → Exec ε σ β}
    (hresult : ∀ fault, result = .error fault → fails fault)
    (h : ∀ value, result = .ok value → Ends fails (next value) state post) :
    Ends fails (lift result >>= next) state post := by
  cases result with
  | ok value => exact h value rfl
  | error fault => exact hresult fault rfl

theorem ends_onFst {scratch : τ} (h : Ends fails x state post) :
    Ends fails (onFst x) (state, scratch) fun value reached =>
      post value reached.1 ∧ reached.2 = scratch := by
  unfold Ends onFst at *
  cases hrun : x state with
  | mk outcome reached =>
    rw [hrun] at h
    cases outcome with
    | ok value => exact ⟨h, rfl⟩
    | error fault => exact h

theorem ends_withScratch {x : Exec ε (σ × τ) β} {scratch : τ}
    (h : Ends fails x (state, scratch) fun value reached => post value reached.1) :
    Ends fails (withScratch scratch x) state post := by
  unfold Ends withScratch at *
  cases hrun : x (state, scratch) with
  | mk outcome reached =>
    rw [hrun] at h
    cases outcome <;> exact h

/-- `hit` holds of a value, `miss` of the lack of one. -/
def OptionCases {β : Type} (hit : β → Prop) (miss : Prop) : Option β → Prop
  | some value => hit value
  | none => miss

variable {inv : σ → Prop} {le : σ → σ → Prop} (hrefl : ∀ s, le s s)
  (htrans : ∀ a b c, le a b → le b c → le a c) (hinv : inv state) {xs : List α}

include hrefl htrans hinv

/-- A traversal under an invariant `inv` whose states only move up along `le`:
each element's result keeps the relation `rel` to it in every later state. -/
theorem ends_traverse {f : α → Exec ε σ β} {rel : α → β → σ → Prop}
    (hmono : ∀ x y s s', le s s' → rel x y s → rel x y s')
    (hf : ∀ x ∈ xs, ∀ s, le state s → inv s →
      Ends fails (f x) s fun y s' => le s s' ∧ inv s' ∧ rel x y s') :
    Ends fails (traverse f xs) state fun ys s' =>
      le state s' ∧ inv s' ∧ List.Forall₂ (fun x y => rel x y s') xs ys := by
  induction xs generalizing state with
  | nil => exact ends_pure ⟨hrefl state, hinv, .nil⟩
  | cons x xs ih =>
    refine ends_bind _ (hf x (by simp) state (hrefl state) hinv) ?_
    rintro y s ⟨hle, hinvs, hrel⟩
    have htail := ih hinvs fun x' hx' s' hle' => hf x' (by simp [hx']) s' (htrans _ _ _ hle hle')
    refine ends_bind _ htail ?_
    rintro ys s' ⟨hle', hinvs', hall⟩
    exact ends_pure ⟨htrans _ _ _ hle hle', hinvs', .cons (hmono _ _ _ _ hle' hrel) hall⟩

/-- `traverseSome` under the same discipline; `miss` is what a `none` says about
the element it came from. -/
theorem ends_traverseSome {f : α → Exec ε σ (Option β)} {rel : α → β → σ → Prop} {miss : α → Prop}
    (hmono : ∀ x y s s', le s s' → rel x y s → rel x y s')
    (hf : ∀ x ∈ xs, ∀ s, le state s → inv s → Ends fails (f x) s fun r s' =>
      le s s' ∧ inv s' ∧ OptionCases (fun y => rel x y s') (miss x) r) :
    Ends fails (traverseSome f xs) state fun r s' => le state s' ∧ inv s' ∧
      OptionCases (fun ys => List.Forall₂ (fun x y => rel x y s') xs ys) (∃ x ∈ xs, miss x) r := by
  induction xs generalizing state with
  | nil => exact ends_pure ⟨hrefl state, hinv, .nil⟩
  | cons x xs ih =>
    refine ends_bind _ (hf x (by simp) state (hrefl state) hinv) ?_
    rintro r s ⟨hle, hinvs, hrel⟩
    cases r with
    | none => exact ends_pure ⟨hle, hinvs, x, by simp, hrel⟩
    | some y =>
      have htail := ih hinvs fun x' hx' s' hle' => hf x' (by simp [hx']) s' (htrans _ _ _ hle hle')
      refine ends_bind _ htail ?_
      rintro r' s' ⟨hle', hinvs', hall⟩
      cases r' with
      | none =>
        obtain ⟨x', hx', hmiss⟩ := hall
        exact ends_pure ⟨htrans _ _ _ hle hle', hinvs', x', by simp [hx'], hmiss⟩
      | some ys =>
        exact ends_pure ⟨htrans _ _ _ hle hle', hinvs', .cons (hmono _ _ _ _ hle' hrel) hall⟩

end

end Exec

end Purrdf
