import Purrdf.DotSegments
import Purrdf.IriComponents

/-!
# Resolving a reference

The transform of RFC 3986 as the resolver computes it and as the RFC describes it by component, and
when the text of the result reads back as the components it was made of.
-/

namespace Purrdf.Iri

namespace Parts

def sameDocument : Parts where
  scheme := none
  authority := none
  path := []
  query := none
  fragment := none

end Parts

/-- The base path up to its last slash, and the reference behind it. -/
def merge (base : Parts) (refPath : Text) : Text :=
  if base.authority.isSome ∧ base.path = [] then '/' :: refPath
  else
    match base.path.reverse.dropWhile (· != '/') with
    | [] => refPath
    | upToSlash => upToSlash.reverse ++ refPath

def transform (base r : Parts) : Parts :=
  if r.scheme.isSome then
    { scheme := r.scheme
      authority := r.authority
      path := removeDotSegments r.path
      query := r.query
      fragment := r.fragment }
  else if r.authority.isSome then
    { scheme := base.scheme
      authority := r.authority
      path := removeDotSegments r.path
      query := r.query
      fragment := r.fragment }
  else
    let (path, query) :=
      if r.path = [] then (base.path, if r.query.isSome then r.query else base.query)
      else if r.path.head? = some '/' then (removeDotSegments r.path, r.query)
      else (removeDotSegments (merge base r.path), r.query)
    { scheme := base.scheme
      authority := base.authority
      path
      query
      fragment := r.fragment }

def transformAndReparse (base : Iri) (r : Parts) : Except IriError Iri :=
  parse (transform base.parts r).recompose

def resolveIri (base r : Iri) : Except IriError Iri :=
  if base.parts.scheme.isNone then .error (.nonAbsoluteBase base.text)
  else transformAndReparse base r.parts

def resolve (base : Iri) (reference : Text) : Except IriError Iri :=
  if base.parts.scheme.isNone then .error (.nonAbsoluteBase base.text)
  else if reference = [] then transformAndReparse base .sameDocument
  else do
    let parsed ← parse reference
    resolveIri base parsed

/-! ### The target by component -/

def mergedPath (base : Parts) (refPath : Text) : Text :=
  if base.authority.isSome ∧ base.path = [] then '/' :: refPath
  else
    match segmentsOf base.path with
    | (_, []) => refPath
    | (first, rest) => first ++ slashed rest.dropLast ++ '/' :: refPath

def Parts.Own (r : Parts) : Prop :=
  r.scheme.isSome ∨ r.authority.isSome

instance (r : Parts) : Decidable r.Own :=
  inferInstanceAs (Decidable (r.scheme.isSome ∨ r.authority.isSome))

/-- The components of RFC 3986 section 5.2. -/
def target (base r : Parts) : Parts where
  scheme := r.scheme.or base.scheme
  authority := if r.Own then r.authority else base.authority
  path :=
    if r.Own ∨ r.path.head? = some '/' then (withoutDots r.path).text
    else if r.path = [] then base.path
    else (withoutDots (mergedPath base r.path)).text
  query := if r.Own ∨ r.path ≠ [] then r.query else r.query.or base.query
  fragment := r.fragment

theorem merge_eq (base : Parts) (refPath : Text) : merge base refPath = mergedPath base refPath := by
  obtain ⟨free, rest_free⟩ := segmentsOf_slashFree base.path
  have path_eq := segmentsOf_text base.path
  unfold merge mergedPath
  split
  · rfl
  · generalize segmentsOf base.path = segments at *
    obtain ⟨first, rest⟩ := segments
    dsimp only at *
    rw [← path_eq]
    rcases List.eq_nil_or_concat' rest with rfl | ⟨before, last, rfl⟩
    · rw [slashed, List.append_nil, upToSlash_lead free]
    · have last_free := rest_free last (List.mem_append_right _ (List.mem_singleton_self last))
      rw [slashed_append, ← List.append_assoc]
      change (match (first ++ slashed before ++ '/' :: (last ++ [])).reverse.dropWhile (· != '/') with
        | [] => refPath
        | upToSlash => upToSlash.reverse ++ refPath) = _
      rw [List.append_nil, upToSlash_slash _ last_free]
      dsimp only
      rw [List.reverse_cons, List.reverse_reverse, List.append_assoc]
      cases before with
      | nil => rfl
      | cons next others =>
        change _ = first ++ slashed (next :: others ++ [last]).dropLast ++ '/' :: refPath
        rw [List.dropLast_concat]
        rfl

theorem transform_eq_target (base r : Parts) : transform base r = target base r := by
  obtain ⟨scheme, authority, path, query, fragment⟩ := r
  unfold transform target Parts.Own
  cases scheme with
  | some scheme =>
    simp [removeDotSegments_eq]
  | none =>
    cases authority with
    | some authority =>
      simp [removeDotSegments_eq]
    | none =>
      simp only [removeDotSegments_eq, merge_eq]
      cases path with
      | nil => cases query <;> simp
      | cons c rest =>
        by_cases rooted : c = '/' <;> simp [rooted]

/-! ### What the path of the target is made of -/

def Valid (extras : Extras) (mode : Mode) (text : Text) : Prop :=
  ∃ offset, validateComponent extras mode text offset = .ok ()

theorem Valid.at {extras : Extras} {mode : Mode} {text : Text} (valid : Valid extras mode text)
    (offset : Nat) : validateComponent extras mode text offset = .ok () := by
  obtain ⟨other, ok⟩ := valid
  exact validateComponent_offset ok

theorem valid_nil (extras : Extras) (mode : Mode) : Valid extras mode [] :=
  ⟨0, rfl⟩

theorem valid_cons {extras : Extras} {mode : Mode} {c : Char} {rest : Text}
    (valid : Valid extras mode (c :: rest)) :
    (c ≠ '%' ∧ extras.admits mode c = true ∧ Valid extras mode rest) ∨
      (c = '%' ∧ ∃ high low tail, rest = high :: low :: tail ∧
        (isHexDigit high && isHexDigit low) = true ∧ Valid extras mode tail) := by
  obtain ⟨offset, ok⟩ := valid
  unfold validateComponent at ok
  split at ok
  · rename_i same
    cases same
  · rename_i high low tail same
    cases same
    split at ok
    · rename_i hex
      exact Or.inr ⟨rfl, high, low, tail, rfl, hex, _, ok⟩
    · cases ok
  · rename_i d others not_triplet same
    cases same
    split at ok
    · cases ok
    · rename_i not_percent
      split at ok
      · rename_i admits
        refine Or.inl ⟨?_, admits, _, ok⟩
        rintro rfl
        exact not_percent rfl
      · cases ok

theorem valid_of_cons {extras : Extras} {mode : Mode} {c : Char} {rest : Text} (not_percent : c ≠ '%')
    (admits : extras.admits mode c = true) (valid : Valid extras mode rest) :
    Valid extras mode (c :: rest) := by
  refine ⟨0, ?_⟩
  rw [validateComponent, if_neg (by rwa [beq_iff_eq]), if_pos admits]
  · exact valid.at _
  · rintro high low tail rfl
    exact absurd rfl not_percent

theorem valid_of_triplet {extras : Extras} {mode : Mode} {high low : Char} {rest : Text}
    (hex : (isHexDigit high && isHexDigit low) = true) (valid : Valid extras mode rest) :
    Valid extras mode ('%' :: high :: low :: rest) := by
  refine ⟨0, ?_⟩
  rw [validateComponent, if_pos hex]
  exact valid.at _

theorem valid_append {extras : Extras} {mode : Mode} :
    ∀ {left right : Text}, Valid extras mode left → Valid extras mode right →
      Valid extras mode (left ++ right)
  | [], _, _, right_valid => right_valid
  | c :: rest, right, left_valid, right_valid => by
    rcases valid_cons left_valid with ⟨not_percent, admits, rest_valid⟩ |
      ⟨rfl, high, low, tail, rfl, hex, tail_valid⟩
    · exact valid_of_cons not_percent admits (valid_append rest_valid right_valid)
    · exact valid_of_triplet hex (valid_append tail_valid right_valid)

theorem slash_admitted (mode : Mode) : Extras.path.admits mode '/' = true := by
  cases mode <;> decide

theorem valid_slash {mode : Mode} {text : Text} (valid : Valid .path mode text) :
    Valid .path mode ('/' :: text) :=
  valid_of_cons (by decide) (slash_admitted mode) valid

theorem valid_split {mode : Mode} :
    ∀ {left right : Text}, Valid .path mode (left ++ '/' :: right) →
      Valid .path mode left ∧ Valid .path mode right
  | [], right, valid => by
    rcases valid_cons valid with ⟨-, -, right_valid⟩ | ⟨slash, -⟩
    · exact ⟨valid_nil _ _, right_valid⟩
    · cases slash
  | c :: rest, right, valid => by
    rcases valid_cons valid with ⟨not_percent, admits, rest_valid⟩ |
      ⟨rfl, high, low, tail, same, hex, tail_valid⟩
    · obtain ⟨left_valid, right_valid⟩ := valid_split rest_valid
      exact ⟨valid_of_cons not_percent admits left_valid, right_valid⟩
    · match rest with
      | [] =>
        cases same
        cases hex
      | [first] =>
        cases same
        rw [Bool.and_eq_true] at hex
        exact absurd hex.2 (by decide)
      | first :: second :: others =>
        cases same
        obtain ⟨left_valid, right_valid⟩ := valid_split tail_valid
        exact ⟨valid_of_triplet hex left_valid, right_valid⟩

structure Segmental (property : Text → Prop) : Prop where
  empty : property []
  slash : ∀ left right, property (left ++ '/' :: right) ↔ property left ∧ property right

theorem segmental_valid (mode : Mode) : Segmental (Valid .path mode) where
  empty := valid_nil _ _
  slash _ _ :=
    ⟨valid_split, fun both => valid_append both.1 (valid_slash both.2)⟩

theorem segmental_inside : Segmental fun text => ∀ c ∈ text, pathEnd c = false where
  empty := fun c member => absurd member List.not_mem_nil
  slash left right := by
    rw [List.forall_mem_append, List.forall_mem_cons]
    exact and_congr_right' (and_iff_right rfl)

namespace Segmental

variable {property : Text → Prop}

theorem slashed (segmental : Segmental property) (first : Text) (rest : List Text) :
    property (first ++ slashed rest) ↔ property first ∧ ∀ segment ∈ rest, property segment := by
  induction rest generalizing first with
  | nil =>
    rw [Iri.slashed, List.append_nil]
    exact (and_iff_left fun segment member => absurd member List.not_mem_nil).symm
  | cons next rest ih =>
    rw [Iri.slashed, segmental.slash, ih next, List.forall_mem_cons]

theorem segments (segmental : Segmental property) {path : Text} (holds : property path) :
    property (segmentsOf path).1 ∧ ∀ segment ∈ (segmentsOf path).2, property segment := by
  rw [← segmental.slashed, segmentsOf_text]
  exact holds

theorem withoutDots (segmental : Segmental property) {path : Text} (holds : property path) :
    property (withoutDots path).text := by
  obtain ⟨here, each⟩ := segmental.segments holds
  apply (segmental.slashed _ _).mpr
  exact Stack.start_all segmental.empty (fun _ => here) fun segment member _ => each segment member

theorem mergedPath (segmental : Segmental property) {base : Parts} {refPath : Text}
    (base_holds : property base.path) (holds : property refPath) :
    property (mergedPath base refPath) := by
  obtain ⟨here, each⟩ := segmental.segments base_holds
  unfold Iri.mergedPath
  split
  · exact (segmental.slash [] refPath).mpr ⟨segmental.empty, holds⟩
  · generalize segmentsOf base.path = segments at *
    obtain ⟨first, rest⟩ := segments
    split
    · exact holds
    · rename_i same
      cases same
      apply (segmental.slash _ refPath).mpr
      refine ⟨(segmental.slashed _ _).mpr ⟨here, fun segment member => ?_⟩, holds⟩
      exact each segment ((List.dropLast_sublist _).subset member)

theorem target_path (segmental : Segmental property) {base r : Parts} (base_holds : property base.path)
    (holds : property r.path) : property (target base r).path := by
  unfold target
  dsimp only
  split
  · exact segmental.withoutDots holds
  · split
    · exact base_holds
    · exact segmental.withoutDots (segmental.mergedPath base_holds holds)

end Segmental

/-! ### Rooted paths -/

def Rooted (path : Text) : Prop :=
  ∃ rest, path = '/' :: rest

theorem Stack.pop_lead {stack : Stack} (lead : stack.lead = []) : stack.pop.lead = [] := by
  unfold Stack.pop
  split
  · rfl
  · exact lead

theorem Stack.reduce_rooted {segments : List Text} {stack : Stack} (lead : stack.lead = [])
    (some_segment : segments ≠ [] ∨ stack.segments ≠ []) :
    (stack.reduce segments).lead = [] ∧ (stack.reduce segments).segments ≠ [] := by
  have pushed : ∀ (other : Stack) segment, (other.push segment).segments ≠ [] :=
    fun other segment => List.append_ne_nil_of_right_ne_nil _ (List.cons_ne_nil _ _)
  induction segments generalizing stack with
  | nil => exact ⟨lead, some_segment.resolve_left fun absent => absent rfl⟩
  | cons segment rest ih =>
    rw [Stack.reduce]
    split
    · split
      · exact ⟨lead, pushed _ _⟩
      · rename_i more
        exact ih lead (Or.inl more)
    · split
      · split
        · exact ⟨Stack.pop_lead lead, pushed _ _⟩
        · rename_i more
          exact ih (Stack.pop_lead lead) (Or.inl more)
      · exact ih lead (Or.inr (pushed _ _))

theorem rooted_withoutDots {path : Text} (rooted : Rooted path) : Rooted (withoutDots path).text := by
  obtain ⟨rest, rfl⟩ := rooted
  have segments_eq : segmentsOf ('/' :: rest) = ([], (segmentsOf rest).1 :: (segmentsOf rest).2) := by
    rw [segmentsOf]
    exact if_pos rfl
  unfold withoutDots
  rw [segments_eq]
  dsimp only
  rw [Stack.start, if_neg (by decide)]
  have left := Stack.reduce_rooted (show (Stack.mk [] []).lead = [] from rfl)
    (Or.inl (List.cons_ne_nil (segmentsOf rest).1 (segmentsOf rest).2))
  generalize (Stack.mk [] []).reduce ((segmentsOf rest).1 :: (segmentsOf rest).2) = stack at left
  obtain ⟨lead, segments⟩ := stack
  obtain ⟨lead_eq, some_segment⟩ := left
  dsimp only at lead_eq some_segment
  subst lead_eq
  cases segments with
  | nil => exact absurd rfl some_segment
  | cons segment others => exact ⟨_, rfl⟩

theorem rooted_mergedPath {base : Parts} {refPath : Text} (authority : base.authority.isSome)
    (base_rooted : base.path = [] ∨ Rooted base.path) : Rooted (mergedPath base refPath) := by
  unfold mergedPath
  split
  · exact ⟨refPath, rfl⟩
  · rename_i some_path
    have some_path : base.path ≠ [] := fun none_path => some_path ⟨authority, none_path⟩
    obtain ⟨rest, path_eq⟩ := base_rooted.resolve_left some_path
    have segments_eq : segmentsOf base.path = ([], (segmentsOf rest).1 :: (segmentsOf rest).2) := by
      rw [path_eq, segmentsOf]
      exact if_pos rfl
    rw [segments_eq]
    dsimp only
    cases others : ((segmentsOf rest).1 :: (segmentsOf rest).2).dropLast with
    | nil => exact ⟨refPath, rfl⟩
    | cons next more => exact ⟨_, rfl⟩

/-! ### Reading the target back -/

structure Readable (parts : Parts) : Prop where
  separable : parts.Separable
  admitted : parts.Admitted .iri

theorem Readable.parsed {text : Text} {iri : Iri} (ok : parse text = .ok iri) :
    Readable iri.parts := by
  unfold parse parseInner at ok
  obtain ⟨parts, scan_eq, ok⟩ := bind_ok ok
  cases ok
  obtain ⟨-, separable, admitted⟩ := scan_ok scan_eq
  exact ⟨separable, admitted⟩

theorem target_from {base r : Parts} :
    ((target base r).scheme = r.scheme ∨ (target base r).scheme = base.scheme) ∧
    ((target base r).authority = r.authority ∨ (target base r).authority = base.authority) ∧
    ((target base r).query = r.query ∨ (target base r).query = base.query) := by
  unfold target
  dsimp only
  refine ⟨?_, ?_, ?_⟩
  · cases r.scheme with
    | none => exact Or.inr rfl
    | some scheme => exact Or.inl rfl
  · split
    · exact Or.inl rfl
    · exact Or.inr rfl
  · split
    · exact Or.inl rfl
    · cases r.query with
      | none => exact Or.inr rfl
      | some query => exact Or.inl rfl

theorem target_rooted {base r : Parts} (base_ok : base.Separable) (r_ok : r.Separable)
    (authority : (target base r).authority.isSome) :
    (target base r).path = [] ∨ Rooted (target base r).path := by
  have own_rooted : ∀ parts : Parts, parts.Separable → parts.authority.isSome →
      parts.path = [] ∨ Rooted parts.path := by
    intro parts separable some_authority
    obtain ⟨found, same⟩ := Option.isSome_iff_exists.mp some_authority
    exact (separable.authority found same).2
  unfold target at authority ⊢
  dsimp only at authority ⊢
  by_cases own : r.Own
  · rw [if_pos own] at authority
    rw [if_pos (Or.inl own)]
    rcases own_rooted r r_ok authority with empty | rooted
    · rw [empty]
      exact Or.inl rfl
    · exact Or.inr (rooted_withoutDots rooted)
  · rw [if_neg own] at authority
    have base_rooted := own_rooted base base_ok authority
    split
    · rename_i which
      right
      apply rooted_withoutDots
      have head := which.resolve_left own
      cases path_eq : r.path with
      | nil =>
        rw [path_eq] at head
        cases head
      | cons c rest =>
        rw [path_eq] at head
        cases head
        exact ⟨rest, rfl⟩
    · split
      · exact base_rooted
      · exact Or.inr (rooted_withoutDots (rooted_mergedPath authority base_rooted))

def Parts.Slashed (parts : Parts) : Prop :=
  parts.authority = none ∧ ∃ rest, parts.path = '/' :: '/' :: rest

/-- What stands between two leading slashes and the next one. -/
def secondSegment (path : Text) : Text :=
  (path.drop 2).takeWhile (· != '/')

def Parts.misread (parts : Parts) : Parts where
  scheme := parts.scheme
  authority := some (secondSegment parts.path)
  path := (parts.path.drop 2).dropWhile (· != '/')
  query := parts.query
  fragment := parts.fragment

def Parts.Misread (parts : Parts) : Prop :=
  parts.Slashed ∧ ∃ offset, validateAuthority .iri (secondSegment parts.path) offset = .ok ()

section Reading

variable {base r : Parts}

theorem target_delimited (base_ok : Readable base) (r_ok : Readable r) :
    (∀ scheme, (target base r).scheme = some scheme →
      scheme.head?.any Char.isAlpha = true ∧ ∀ c ∈ scheme, schemeEnd c = false) ∧
    (∀ c ∈ (target base r).path, pathEnd c = false) ∧
    (∀ query, (target base r).query = some query → ∀ c ∈ query, c ≠ '#') := by
  obtain ⟨scheme_from, -, query_from⟩ := @target_from base r
  refine ⟨?_, ?_, ?_⟩
  · intro scheme same
    rcases scheme_from with own | inherited
    · exact r_ok.separable.scheme scheme (own.symm.trans same)
    · exact base_ok.separable.scheme scheme (inherited.symm.trans same)
  · exact segmental_inside.target_path base_ok.separable.path r_ok.separable.path
  · intro query same
    rcases query_from with own | inherited
    · exact r_ok.separable.query query (own.symm.trans same)
    · exact base_ok.separable.query query (inherited.symm.trans same)

theorem target_separable (base_ok : Readable base) (r_ok : Readable r)
    (not_slashed : ¬ (target base r).Slashed) : (target base r).Separable := by
  obtain ⟨scheme_ok, path_ok, query_ok⟩ := target_delimited base_ok r_ok
  obtain ⟨-, authority_from, -⟩ := @target_from base r
  refine ⟨scheme_ok, ?_, ?_, path_ok, query_ok⟩
  · intro authority same
    refine ⟨?_, target_rooted base_ok.separable r_ok.separable (by rw [same]; rfl)⟩
    rcases authority_from with own | inherited
    · exact (r_ok.separable.authority authority (own.symm.trans same)).1
    · exact (base_ok.separable.authority authority (inherited.symm.trans same)).1
  · exact fun none_authority rest same => not_slashed ⟨none_authority, rest, same⟩

theorem target_scheme (absolute : base.scheme ≠ none) : (target base r).scheme ≠ none := by
  unfold target
  dsimp only
  cases r.scheme with
  | none => exact absolute
  | some scheme => exact Option.some_ne_none scheme

theorem target_admitted (absolute : base.scheme ≠ none) (base_ok : Readable base)
    (r_ok : Readable r) : (target base r).Admitted .iri := by
  obtain ⟨scheme_from, authority_from, query_from⟩ := @target_from base r
  refine ⟨?_, ?_, ?_, ?_, ?_, ?_⟩
  · intro scheme same
    rcases scheme_from with own | inherited
    · exact r_ok.admitted.scheme scheme (own.symm.trans same)
    · exact base_ok.admitted.scheme scheme (inherited.symm.trans same)
  · intro authority same
    rcases authority_from with own | inherited
    · exact r_ok.admitted.authority authority (own.symm.trans same)
    · exact base_ok.admitted.authority authority (inherited.symm.trans same)
  · exact (segmental_valid .iri).target_path base_ok.admitted.path r_ok.admitted.path
  · exact fun none_scheme => absurd none_scheme (target_scheme absolute)
  · intro query same
    rcases query_from with own | inherited
    · exact r_ok.admitted.query query (own.symm.trans same)
    · exact base_ok.admitted.query query (inherited.symm.trans same)
  · exact r_ok.admitted.fragment

theorem misread_recompose {parts : Parts} (slashed : parts.Slashed) :
    parts.misread.recompose = parts.recompose := by
  obtain ⟨scheme, authority, path, query, fragment⟩ := parts
  obtain ⟨authority_eq, rest, path_eq⟩ := slashed
  dsimp only at authority_eq path_eq
  subst authority_eq path_eq
  have joined : secondSegment ('/' :: '/' :: rest) ++
      (('/' :: '/' :: rest).drop 2).dropWhile (· != '/') = rest :=
    List.takeWhile_append_dropWhile
  unfold Parts.misread Parts.recompose behind
  dsimp only
  rw [List.nil_append, List.append_assoc, ← List.append_assoc (secondSegment _), joined]
  rfl

theorem misread_separable (base_ok : Readable base) (r_ok : Readable r) :
    (target base r).misread.Separable := by
  obtain ⟨scheme_ok, path_ok, query_ok⟩ := target_delimited base_ok r_ok
  have dropped : ∀ c ∈ (target base r).path.drop 2, pathEnd c = false :=
    fun c member => path_ok c (List.mem_of_mem_drop member)
  refine ⟨scheme_ok, ?_, by rintro ⟨⟩, ?_, query_ok⟩
  · rintro _ ⟨⟩
    refine ⟨fun c member => ?_, ?_⟩
    · have not_slash := takeWhile_inside (· == '/') _ c member
      have not_end := dropped c ((List.takeWhile_sublist _).subset member)
      unfold authorityEnd
      unfold pathEnd at not_end
      rw [Bool.or_assoc, not_end, Bool.or_false]
      exact not_slash
    · rcases dropWhile_ends (· == '/') ((target base r).path.drop 2) with empty | ⟨c, rest, same, slash⟩
      · exact Or.inl empty
      · rw [beq_iff_eq] at slash
        subst slash
        exact Or.inr ⟨rest, same⟩
  · exact fun c member => dropped c ((List.dropWhile_sublist _).subset member)

theorem misread_admitted_iff (absolute : base.scheme ≠ none) (base_ok : Readable base)
    (r_ok : Readable r) (slashed : (target base r).Slashed) :
    (target base r).misread.Admitted .iri ↔ (target base r).Misread := by
  have admitted := target_admitted absolute base_ok r_ok
  constructor
  · intro misread_ok
    exact ⟨slashed, misread_ok.authority _ rfl⟩
  · rintro ⟨-, authority_ok⟩
    refine ⟨admitted.scheme, ?_, ?_, ?_, admitted.query, admitted.fragment⟩
    · rintro _ ⟨⟩
      exact authority_ok
    · obtain ⟨-, rest, path_eq⟩ := slashed
      have path_valid : Valid .path .iri ([] ++ '/' :: ([] ++ '/' :: rest)) := by
        rw [List.nil_append, List.nil_append, ← path_eq]
        exact admitted.path
      have rest_valid := (valid_split (valid_split path_valid).2).2
      have dropped : (target base r).misread.path = rest.dropWhile (· != '/') := by
        unfold Parts.misread
        rw [path_eq]
        rfl
      rw [dropped]
      rcases dropWhile_ends (· == '/') rest with empty | ⟨c, tail, same, slash⟩
      · rw [show rest.dropWhile (· != '/') = [] from empty]
        exact valid_nil _ _
      · rw [beq_iff_eq] at slash
        subst slash
        have whole : rest.takeWhile (· != '/') ++ '/' :: tail = rest := by
          rw [← same]
          exact List.takeWhile_append_dropWhile
        rw [← whole] at rest_valid
        rw [show rest.dropWhile (· != '/') = '/' :: tail from same]
        exact valid_slash (valid_split rest_valid).2
    · exact fun none_scheme => absurd none_scheme (target_scheme absolute)

theorem parse_target (absolute : base.scheme ≠ none) (base_ok : Readable base)
    (r_ok : Readable r) (result : Iri) (ok : parse (target base r).recompose = .ok result) :
    result.parts = target base r ∨
      ((target base r).Misread ∧ result.parts = (target base r).misread) := by
  unfold parse parseInner at ok
  obtain ⟨parts, scan_eq, ok⟩ := bind_ok ok
  cases ok
  by_cases slashed : (target base r).Slashed
  · right
    have separable := misread_separable base_ok r_ok
    rw [← misread_recompose slashed] at scan_eq
    have read : parts = (target base r).misread :=
      separable.scan_read (target_scheme absolute) scan_eq
    rw [read] at scan_eq
    refine ⟨?_, read⟩
    rw [← misread_admitted_iff absolute base_ok r_ok slashed]
    exact (separable.scan_ok_iff (target_scheme absolute)).mp scan_eq
  · exact Or.inl ((target_separable base_ok r_ok slashed).scan_read (target_scheme absolute) scan_eq)

theorem parse_misread (absolute : base.scheme ≠ none) (base_ok : Readable base)
    (r_ok : Readable r) (misread : (target base r).Misread) :
    ∃ result, parse (target base r).recompose = .ok result ∧
      result.parts = (target base r).misread := by
  have scan_eq := ((misread_separable base_ok r_ok).scan_ok_iff (target_scheme absolute)).mpr
    ((misread_admitted_iff absolute base_ok r_ok misread.1).mpr misread)
  rw [misread_recompose misread.1] at scan_eq
  refine ⟨⟨(target base r).recompose, (target base r).misread⟩, ?_, rfl⟩
  unfold parse parseInner
  rw [scan_eq]
  rfl

end Reading

def Refers (reference : Text) (r : Parts) : Prop :=
  (reference = [] ∧ r = .sameDocument) ∨ ∃ iri, parse reference = .ok iri ∧ iri.parts = r

theorem readable_sameDocument : Readable .sameDocument where
  separable := by
    refine ⟨by rintro _ ⟨⟩, by rintro _ ⟨⟩, ?_, ?_, by rintro _ ⟨⟩⟩
    · rintro - rest ⟨⟩
    · exact fun c member => absurd member List.not_mem_nil
  admitted := by
    refine ⟨by rintro _ ⟨⟩, by rintro _ ⟨⟩, valid_nil _ _, ?_, by rintro _ ⟨⟩, by rintro _ ⟨⟩⟩
    exact fun _ _ => List.not_mem_nil

theorem Refers.readable {reference : Text} {r : Parts} (refers : Refers reference r) :
    Readable r := by
  rcases refers with ⟨-, rfl⟩ | ⟨iri, ok, rfl⟩
  · exact readable_sameDocument
  · exact Readable.parsed ok

theorem resolve_eq {base : Iri} {reference : Text} {r : Parts} (absolute : base.parts.scheme ≠ none)
    (refers : Refers reference r) :
    resolve base reference = parse (target base.parts r).recompose := by
  have is_absolute : ¬ base.parts.scheme.isNone = true := by
    rw [Option.isNone_iff_eq_none]
    exact absolute
  unfold resolve
  rw [if_neg is_absolute, ← transform_eq_target]
  rcases refers with ⟨rfl, rfl⟩ | ⟨iri, ok, rfl⟩
  · rw [if_pos rfl]
    rfl
  · have some_text : reference ≠ [] := by
      rintro rfl
      cases ok
    rw [if_neg some_text, ok]
    change resolveIri base iri = _
    unfold resolveIri
    rw [if_neg is_absolute]
    rfl

/-- What is expected of a resolution that succeeds: its components read back as those of the
target, and its authority is one that the base or the reference has. -/
def Faithful (base : Iri) (reference : Text) (r : Parts) : Prop :=
  ∀ result, resolve base reference = .ok result → result.parts = target base.parts r ∧
    (result.parts.authority.isSome → base.parts.authority.isSome ∨ r.authority.isSome)

/-- Resolution keeps the components of the RFC 3986 target unless the target is misread; and the
removal of dot segments leaves none and is idempotent. -/
theorem resolve_faithful_iff {baseText reference : Text} {base : Iri} {r : Parts}
    (base_ok : parse baseText = .ok base) (absolute : base.parts.scheme ≠ none)
    (refers : Refers reference r) :
    (Faithful base reference r ↔ ¬ (target base.parts r).Misread) ∧
      ∀ path : Text, removeDotSegments (removeDotSegments path) = removeDotSegments path ∧
        ¬ IsDot (segmentsOf (removeDotSegments path)).1 ∧
        ∀ segment ∈ (segmentsOf (removeDotSegments path)).2, ¬ IsDot segment := by
  have base_readable := Readable.parsed base_ok
  have r_readable := refers.readable
  refine ⟨?_, fun path => ⟨removeDotSegments_idempotent path, removeDotSegments_dotFree path⟩⟩
  unfold Faithful
  rw [resolve_eq absolute refers]
  constructor
  · intro faithful misread
    obtain ⟨result, ok, parts_eq⟩ := parse_misread absolute base_readable r_readable misread
    have kept := (faithful result ok).1
    rw [parts_eq] at kept
    have authority := congrArg Parts.authority kept
    rw [misread.1.1] at authority
    cases authority
  · intro not_misread result ok
    have parts_eq := (parse_target absolute base_readable r_readable result ok).resolve_right
      fun misread => not_misread misread.1
    refine ⟨parts_eq, fun some_authority => ?_⟩
    rw [parts_eq] at some_authority
    rcases (@target_from base.parts r).2.1 with own | inherited
    · rw [own] at some_authority
      exact Or.inr some_authority
    · rw [inherited] at some_authority
      exact Or.inl some_authority

/-- `a:b`. -/
def opaqueBase : Iri where
  text := ['a', ':', 'b']
  parts := { scheme := some ['a'], authority := none, path := ['b'], query := none, fragment := none }

def pathOnly (path : Text) : Parts where
  scheme := none
  authority := none
  path := path
  query := none
  fragment := none

/-- `a:b` with the reference `./c` is `a:c`. -/
theorem resolve_faithful_opaque : Faithful opaqueBase ['.', '/', 'c'] (pathOnly ['.', '/', 'c']) := by
  have base_ok : parse ['a', ':', 'b'] = .ok opaqueBase := by rfl
  have reference_ok : parse ['.', '/', 'c'] = .ok ⟨['.', '/', 'c'], pathOnly ['.', '/', 'c']⟩ := by
    rfl
  have path_eq : (target opaqueBase.parts (pathOnly ['.', '/', 'c'])).path = ['c'] := by decide
  refine (resolve_faithful_iff base_ok (by decide)
    (Or.inr ⟨_, reference_ok, rfl⟩)).1.mpr ?_
  rintro ⟨⟨-, rest, same⟩, -⟩
  rw [path_eq] at same
  cases same

/-- `a:b` with the reference `/.//c` is `a://c`, which has the authority `c`. -/
theorem resolve_misreads :
    parse ['a', ':', 'b'] = .ok opaqueBase ∧
    ∃ reference result, parse ['/', '.', '/', '/', 'c'] = .ok reference ∧
      resolve opaqueBase ['/', '.', '/', '/', 'c'] = .ok result ∧
      result.parts.authority = some ['c'] ∧ opaqueBase.parts.authority = none ∧
      reference.parts.authority = none ∧
      (target opaqueBase.parts reference.parts).path = ['/', '/', 'c'] ∧ result.parts.path = [] ∧
      ¬ Faithful opaqueBase ['/', '.', '/', '/', 'c'] reference.parts := by
  have reference_ok : parse ['/', '.', '/', '/', 'c']
      = .ok ⟨['/', '.', '/', '/', 'c'], pathOnly ['/', '.', '/', '/', 'c']⟩ := by rfl
  have resolved : ∃ result, resolve opaqueBase ['/', '.', '/', '/', 'c'] = .ok result ∧
      result.parts.authority = some ['c'] ∧ result.parts.path = [] := by
    rw [resolve_eq (by decide) (Or.inr ⟨_, reference_ok, rfl⟩)]
    exact ⟨_, rfl, rfl, rfl⟩
  obtain ⟨result, resolved, authority_eq, path_eq⟩ := resolved
  refine ⟨by rfl, _, result, reference_ok, resolved, authority_eq, rfl, rfl, by decide, path_eq, ?_⟩
  intro faithful
  have new_authority := (faithful _ resolved).2 (by rw [authority_eq]; rfl)
  revert new_authority
  decide

end Purrdf.Iri
