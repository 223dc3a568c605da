import Mathlib.Data.List.TakeWhile
import Purrdf.IriParse

/-!
# Components and their text

Recomposition, and which components come back when their text is read again.
-/

namespace Purrdf.Iri

def behind (delimiter : Text) : Option Text → Text
  | none => []
  | some component => delimiter ++ component

def schemeText : Option Text → Text
  | none => []
  | some scheme => scheme ++ [':']

namespace Parts

def recompose (parts : Parts) : Text :=
  schemeText parts.scheme ++ (behind ['/', '/'] parts.authority ++ (parts.path ++
    (behind ['?'] parts.query ++ behind ['#'] parts.fragment)))

structure Separable (parts : Parts) : Prop where
  scheme : ∀ scheme, parts.scheme = some scheme →
    scheme.head?.any Char.isAlpha = true ∧ ∀ c ∈ scheme, schemeEnd c = false
  authority : ∀ authority, parts.authority = some authority →
    (∀ c ∈ authority, authorityEnd c = false) ∧ (parts.path = [] ∨ ∃ rest, parts.path = '/' :: rest)
  no_authority : parts.authority = none → ∀ rest, parts.path ≠ '/' :: '/' :: rest
  path : ∀ c ∈ parts.path, pathEnd c = false
  query : ∀ query, parts.query = some query → ∀ c ∈ query, c ≠ '#'

structure Admitted (mode : Mode) (parts : Parts) : Prop where
  scheme : ∀ scheme, parts.scheme = some scheme → validateScheme scheme = .ok ()
  authority : ∀ authority, parts.authority = some authority →
    ∃ offset, validateAuthority mode authority offset = .ok ()
  path : ∃ offset, validateComponent .path mode parts.path offset = .ok ()
  no_scheme : parts.scheme = none → parts.authority = none →
    ':' ∉ parts.path.takeWhile (· != '/')
  query : ∀ query, parts.query = some query →
    ∃ offset, validateComponent .query mode query offset = .ok ()
  fragment : ∀ fragment, parts.fragment = some fragment →
    ∃ offset, validateComponent .fragment mode fragment offset = .ok ()

end Parts

/-! ### Offsets only name the place of an error -/

variable {mode : Mode} {offset other : Nat}

theorem validateComponent_offset {extras : Extras} {text : Text}
    (ok : validateComponent extras mode text offset = .ok ()) :
    validateComponent extras mode text other = .ok () := by
  fun_induction validateComponent extras mode text offset generalizing other with
  | case1 => rfl
  | case2 high low rest offset hex ih =>
    rw [validateComponent, if_pos hex]
    exact ih ok
  | case3 => cases ok
  | case4 => cases ok
  | case5 c rest offset not_triplet not_percent admits ih =>
    rw [validateComponent, if_neg not_percent, if_pos admits]
    · exact ih ok
    · exact not_triplet
  | case6 => cases ok

theorem requireAll_offset {member : Char → Bool} {text : Text}
    (ok : requireAll member text offset = .ok ()) : requireAll member text other = .ok () := by
  induction text generalizing offset other with
  | nil => rfl
  | cons c rest ih =>
    unfold requireAll at ok ⊢
    split at ok
    · rename_i within
      rw [if_pos within]
      exact ih ok
    · cases ok

theorem bind_ok {α β : Type} {first : Except IriError α} {next : α → Except IriError β} {b : β}
    (ok : (first >>= next) = .ok b) : ∃ a, first = .ok a ∧ next a = .ok b := by
  cases first with
  | error error => cases ok
  | ok a => exact ⟨a, rfl, ok⟩

theorem validateIpLiteral_offset {inner : Text} (ok : validateIpLiteral inner offset = .ok ()) :
    validateIpLiteral inner other = .ok () := by
  unfold validateIpLiteral at ok ⊢
  split at ok
  · rename_i first tail
    dsimp only at ok ⊢
    split at ok
    · rename_i future
      rw [if_pos future]
      split at ok
      · cases ok
      · rename_i dot address after
        split at ok
        · cases ok
        · rename_i some_each
          rw [if_neg some_each]
          obtain ⟨done, version_ok, address_ok⟩ := bind_ok ok
          rw [requireAll_offset version_ok]
          exact requireAll_offset address_ok
    · rename_i not_future
      rw [if_neg not_future]
      split at ok
      · rename_i address
        rw [if_pos address]
      · cases ok
  · cases ok

theorem validateHost_offset {host : Text} (ok : validateHost mode host offset = .ok ()) :
    validateHost mode host other = .ok () := by
  unfold validateHost at ok ⊢
  split at ok
  · exact validateIpLiteral_offset ok
  · exact validateComponent_offset ok

theorem hostThen_offset {host : Text} {here there : Nat}
    {next next' : Unit → Except IriError Unit} (later : next () = .ok () → next' () = .ok ())
    (ok : (validateHost mode host here >>= next) = .ok ()) :
    (validateHost mode host there >>= next') = .ok () := by
  obtain ⟨done, valid, ok⟩ := bind_ok ok
  rw [validateHost_offset valid]
  exact later ok

theorem bind_offset {α : Type} {parsed : Except IriError α} {next next' : α → Except IriError Unit}
    (later : ∀ parts, next parts = .ok () → next' parts = .ok ())
    (ok : (parsed >>= next) = .ok ()) : (parsed >>= next') = .ok () := by
  obtain ⟨parts, split_ok, ok⟩ := bind_ok ok
  rw [split_ok]
  exact later parts ok

theorem validateAuthority_offset {authority : Text}
    (ok : validateAuthority mode authority offset = .ok ()) :
    validateAuthority mode authority other = .ok () := by
  unfold validateAuthority at ok ⊢
  dsimp only at ok ⊢
  cases after : authority.dropWhile (· != '@') with
  | nil =>
    rw [after] at ok
    refine bind_offset ?_ ok
    rintro ⟨host, - | port⟩ ok
    · exact hostThen_offset (fun _ => rfl) ok
    · exact hostThen_offset requireAll_offset ok
  | cons sign rest =>
    rw [after] at ok
    obtain ⟨done, userinfo_ok, ok⟩ := bind_ok ok
    dsimp only
    rw [validateComponent_offset userinfo_ok]
    change (splitPort rest >>= fun _ => _) = _
    refine bind_offset ?_ ok
    rintro ⟨host, - | port⟩ ok
    · exact hostThen_offset (fun _ => rfl) ok
    · exact hostThen_offset requireAll_offset ok

/-! ### The split of a recomposed text -/

def Ends (ends : Char → Bool) (rest : Text) : Prop :=
  rest = [] ∨ ∃ c tail, rest = c :: tail ∧ ends c = true

theorem takeWhile_component {ends : Char → Bool} {component rest : Text}
    (inside : ∀ c ∈ component, ends c = false) (after : Ends ends rest) :
    (component ++ rest).takeWhile (!ends ·) = component ∧
      (component ++ rest).dropWhile (!ends ·) = rest := by
  have kept : ∀ c ∈ component, (!ends c) = true := by
    intro c member
    rw [inside c member]
    rfl
  have stops : rest.takeWhile (!ends ·) = [] ∧ rest.dropWhile (!ends ·) = rest := by
    rcases after with rfl | ⟨c, tail, rfl, stop⟩
    · exact ⟨rfl, rfl⟩
    · rw [List.takeWhile_cons_of_neg (by rw [stop]; decide),
        List.dropWhile_cons_of_neg (by rw [stop]; decide)]
      exact ⟨rfl, rfl⟩
  rw [List.takeWhile_append_of_pos kept, List.dropWhile_append_of_pos kept, stops.1, stops.2,
    List.append_nil]
  exact ⟨rfl, rfl⟩

theorem scanScheme_some {scheme rest : Text} (alpha : scheme.head?.any Char.isAlpha = true)
    (inside : ∀ c ∈ scheme, schemeEnd c = false) :
    scanScheme (schemeText (some scheme) ++ rest) = (do
      validateScheme scheme
      return (some scheme, rest, utf8Len scheme + 1)) := by
  have whole : schemeText (some scheme) ++ rest = scheme ++ ':' :: rest := by
    unfold schemeText
    rw [List.append_assoc]
    rfl
  have after : Ends schemeEnd (':' :: rest) := Or.inr ⟨':', rest, rfl, rfl⟩
  have head : (scheme ++ ':' :: rest).head?.any Char.isAlpha = true := by
    cases scheme with
    | nil => cases alpha
    | cons c tail => exact alpha
  unfold scanScheme
  dsimp only
  rw [whole, (takeWhile_component inside after).1, (takeWhile_component inside after).2, if_pos head]
  rfl

def checkAuthority (mode : Mode) (offset : Nat) : Option Text → Except IriError Unit
  | none => pure ()
  | some authority => validateAuthority mode authority (offset + 2)

theorem scanAuthority_behind (mode : Mode) {authority : Option Text} {rest : Text} (offset : Nat)
    (inside : ∀ text, authority = some text →
      (∀ c ∈ text, authorityEnd c = false) ∧ Ends authorityEnd rest)
    (without : authority = none → ∀ tail, rest ≠ '/' :: '/' :: tail) :
    ∃ after, scanAuthority mode (behind ['/', '/'] authority ++ rest) offset = (do
      checkAuthority mode offset authority
      return (authority, rest, after)) := by
  cases authority with
  | none =>
    refine ⟨offset, ?_⟩
    change scanAuthority mode rest offset = _
    unfold scanAuthority
    split
    · rename_i tail
      exact absurd rfl (without rfl tail)
    · rfl
  | some authority =>
    obtain ⟨inside, after⟩ := inside authority rfl
    refine ⟨offset + 2 + utf8Len authority, ?_⟩
    change scanAuthority mode ('/' :: '/' :: (authority ++ rest)) offset = _
    rw [scanAuthority]
    rw [(takeWhile_component inside after).1, (takeWhile_component inside after).2]
    rfl

theorem scanPath_append {path rest : Text} (offset : Nat) (inside : ∀ c ∈ path, pathEnd c = false)
    (after : Ends pathEnd rest) :
    scanPath mode false (path ++ rest) offset = (do
      validateComponent .path mode path offset
      return (path, rest, offset + utf8Len path)) := by
  unfold scanPath
  rw [(takeWhile_component inside after).1, (takeWhile_component inside after).2]
  rfl

def checkQuery (mode : Mode) (offset : Nat) : Option Text → Except IriError Unit
  | none => pure ()
  | some query => validateComponent .query mode query (offset + 1)

theorem scanQuery_behind (mode : Mode) {query : Option Text} (fragment : Option Text) (offset : Nat)
    (inside : ∀ text, query = some text → ∀ c ∈ text, c ≠ '#') :
    ∃ after, scanQuery mode (behind ['?'] query ++ behind ['#'] fragment) offset = (do
      checkQuery mode offset query
      return (query, behind ['#'] fragment, after)) := by
  cases query with
  | none =>
    refine ⟨offset, ?_⟩
    change scanQuery mode (behind ['#'] fragment) offset = _
    cases fragment <;> rfl
  | some query =>
    have after : Ends (· == '#') (behind ['#'] fragment) := by
      cases fragment with
      | none => exact Or.inl rfl
      | some fragment => exact Or.inr ⟨'#', fragment, rfl, rfl⟩
    have free : ∀ c ∈ query, (c == '#') = false := by
      intro c member
      rw [beq_eq_false_iff_ne]
      exact inside query rfl c member
    have parts := takeWhile_component free after
    refine ⟨offset + 1 + utf8Len query, ?_⟩
    change scanQuery mode ('?' :: (query ++ behind ['#'] fragment)) offset = _
    rw [scanQuery]
    dsimp only [bne]
    rw [parts.1, parts.2]
    rfl

def checkFragment (mode : Mode) (offset : Nat) : Option Text → Except IriError Unit
  | none => pure ()
  | some fragment => validateComponent .fragment mode fragment (offset + 1)

theorem scanFragment_behind (fragment : Option Text) (offset : Nat) :
    scanFragment mode (behind ['#'] fragment) offset = (do
      checkFragment mode offset fragment
      return fragment) := by
  cases fragment <;> rfl

namespace Parts

theorem ends_fragment (ends : Char → Bool) (fragment : Option Text) (at_hash : ends '#' = true) :
    Ends ends (behind ['#'] fragment) := by
  cases fragment with
  | none => exact Or.inl rfl
  | some fragment => exact Or.inr ⟨'#', fragment, rfl, at_hash⟩

theorem ends_query (ends : Char → Bool) (query fragment : Option Text) (at_query : ends '?' = true)
    (at_hash : ends '#' = true) : Ends ends (behind ['?'] query ++ behind ['#'] fragment) := by
  cases query with
  | none => exact ends_fragment ends fragment at_hash
  | some query => exact Or.inr ⟨'?', query ++ behind ['#'] fragment, rfl, at_query⟩

theorem Separable.scan_recompose {parts : Parts} (mode : Mode) {scheme : Text}
    (separable : parts.Separable) (absolute : parts.scheme = some scheme) :
    ∃ first second third fourth, scan mode parts.recompose = (do
      validateScheme scheme
      checkAuthority mode first parts.authority
      validateComponent .path mode parts.path second
      checkQuery mode third parts.query
      checkFragment mode fourth parts.fragment
      return parts) := by
  obtain ⟨_, authority, path, query, fragment⟩ := parts
  cases absolute
  obtain ⟨scheme_ok, authority_ok, no_authority, path_ok, query_ok⟩ := separable
  obtain ⟨alpha, scheme_inside⟩ := scheme_ok scheme rfl
  have after_path := ends_query pathEnd query fragment rfl rfl
  have some_text : (Parts.mk (some scheme) authority path query fragment).recompose ≠ [] := by
    unfold recompose schemeText
    simp
  have inside : ∀ text, authority = some text → (∀ c ∈ text, authorityEnd c = false) ∧
      Ends authorityEnd (path ++ (behind ['?'] query ++ behind ['#'] fragment)) := by
    rintro text rfl
    obtain ⟨inside, rooted⟩ := authority_ok text rfl
    refine ⟨inside, ?_⟩
    rcases rooted with rfl | ⟨tail, rfl⟩
    · exact ends_query authorityEnd query fragment rfl rfl
    · exact Or.inr ⟨'/', _, rfl, rfl⟩
  have without : authority = none → ∀ tail,
      path ++ (behind ['?'] query ++ behind ['#'] fragment) ≠ '/' :: '/' :: tail := by
    intro none_authority tail same
    have not_slash : ∀ tail, behind ['?'] query ++ behind ['#'] fragment ≠ '/' :: tail := by
      intro tail same
      rcases after_path with empty | ⟨c, rest, starts, stop⟩
      · rw [empty] at same
        cases same
      · rw [starts] at same
        cases same
        cases stop
    match path with
    | [] => exact not_slash _ same
    | [c] => exact not_slash _ (List.cons.inj same).2
    | c :: d :: rest =>
      have first := (List.cons.inj same).1
      have second := (List.cons.inj (List.cons.inj same).2).1
      exact no_authority none_authority rest (by rw [first, second])
  obtain ⟨second, authority_eq⟩ := scanAuthority_behind mode (utf8Len scheme + 1) inside without
  obtain ⟨third, query_eq⟩ := scanQuery_behind mode fragment (second + utf8Len path) query_ok
  refine ⟨utf8Len scheme + 1, second, second + utf8Len path, third, ?_⟩
  unfold scan
  rw [if_neg some_text]
  unfold recompose
  rw [scanScheme_some alpha scheme_inside]
  simp only [bind_assoc, pure_bind]
  rw [authority_eq]
  simp only [bind_assoc, pure_bind, Option.isNone_some, Bool.false_and]
  rw [scanPath_append second path_ok after_path]
  simp only [bind_assoc, pure_bind]
  rw [query_eq]
  simp only [bind_assoc, pure_bind, scanFragment_behind]

theorem Separable.scan_read {parts read : Parts} {mode : Mode} (separable : parts.Separable)
    (absolute : parts.scheme ≠ none) (ok : scan mode parts.recompose = .ok read) : read = parts := by
  obtain ⟨scheme, scheme_eq⟩ := Option.ne_none_iff_exists'.mp absolute
  obtain ⟨_, _, _, _, whole⟩ := separable.scan_recompose mode scheme_eq
  rw [whole] at ok
  obtain ⟨-, -, ok⟩ := bind_ok ok
  obtain ⟨-, -, ok⟩ := bind_ok ok
  obtain ⟨-, -, ok⟩ := bind_ok ok
  obtain ⟨-, -, ok⟩ := bind_ok ok
  obtain ⟨-, -, ok⟩ := bind_ok ok
  cases ok
  rfl

theorem Separable.scan_ok_iff {parts : Parts} {mode : Mode} (separable : parts.Separable)
    (absolute : parts.scheme ≠ none) :
    scan mode parts.recompose = .ok parts ↔ parts.Admitted mode := by
  obtain ⟨scheme, scheme_eq⟩ := Option.ne_none_iff_exists'.mp absolute
  obtain ⟨first, second, third, fourth, whole⟩ := separable.scan_recompose mode scheme_eq
  rw [whole]
  constructor
  · intro ok
    obtain ⟨done, scheme_ok, ok⟩ := bind_ok ok
    obtain ⟨done, authority_ok, ok⟩ := bind_ok ok
    obtain ⟨done, path_ok, ok⟩ := bind_ok ok
    obtain ⟨done, query_ok, ok⟩ := bind_ok ok
    obtain ⟨done, fragment_ok, ok⟩ := bind_ok ok
    refine ⟨?_, ?_, ⟨_, path_ok⟩, ?_, ?_, ?_⟩
    · intro other same
      rw [scheme_eq] at same
      cases same
      exact scheme_ok
    · intro authority same
      rw [same] at authority_ok
      exact ⟨_, authority_ok⟩
    · exact fun none_scheme => absurd none_scheme absolute
    · intro query same
      rw [same] at query_ok
      exact ⟨_, query_ok⟩
    · intro fragment same
      rw [same] at fragment_ok
      exact ⟨_, fragment_ok⟩
  · intro admitted
    obtain ⟨offset, path_ok⟩ := admitted.path
    have authority_ok : checkAuthority mode first parts.authority = .ok () := by
      cases same : parts.authority with
      | none => rfl
      | some authority =>
        obtain ⟨_, ok⟩ := admitted.authority authority same
        exact validateAuthority_offset ok
    have query_ok : checkQuery mode third parts.query = .ok () := by
      cases same : parts.query with
      | none => rfl
      | some query =>
        obtain ⟨_, ok⟩ := admitted.query query same
        exact validateComponent_offset ok
    have fragment_ok : checkFragment mode fourth parts.fragment = .ok () := by
      cases same : parts.fragment with
      | none => rfl
      | some fragment =>
        obtain ⟨_, ok⟩ := admitted.fragment fragment same
        exact validateComponent_offset ok
    rw [admitted.scheme scheme scheme_eq, authority_ok, validateComponent_offset path_ok, query_ok,
      fragment_ok]
    rfl

end Parts

/-! ### What a successful scan leaves -/

theorem takeWhile_inside (ends : Char → Bool) (text : Text) :
    ∀ c ∈ text.takeWhile (!ends ·), ends c = false := by
  intro c member
  have kept := List.mem_takeWhile_imp member
  rw [Bool.not_eq_true'] at kept
  exact kept

theorem dropWhile_ends (ends : Char → Bool) (text : Text) : Ends ends (text.dropWhile (!ends ·)) := by
  induction text with
  | nil => exact Or.inl rfl
  | cons c rest ih =>
    by_cases stop : ends c = true
    · rw [List.dropWhile_cons_of_neg (by rw [stop]; decide)]
      exact Or.inr ⟨c, rest, rfl, stop⟩
    · rw [List.dropWhile_cons_of_pos (by rw [Bool.not_eq_true] at stop; rw [stop]; rfl)]
      exact ih

theorem scanScheme_ok {text rest : Text} {scheme : Option Text} {offset : Nat}
    (ok : scanScheme text = .ok (scheme, rest, offset)) :
    schemeText scheme ++ rest = text ∧ ∀ found, scheme = some found →
      validateScheme found = .ok () ∧ found.head?.any Char.isAlpha = true ∧
        ∀ c ∈ found, schemeEnd c = false := by
  unfold scanScheme at ok
  dsimp only at ok
  split at ok
  · split at ok
    · rename_i tail after
      obtain ⟨done, valid, ok⟩ := bind_ok ok
      cases ok
      refine ⟨?_, ?_⟩
      · unfold schemeText
        rw [List.append_assoc]
        change _ ++ ':' :: rest = text
        rw [← after]
        exact List.takeWhile_append_dropWhile
      · rintro _ ⟨⟩
        refine ⟨valid, ?_, takeWhile_inside schemeEnd text⟩
        unfold validateScheme at valid
        split at valid
        · cases valid
        · rename_i first others same
          split at valid
          · rename_i good
            rw [same]
            rw [Bool.and_eq_true] at good
            exact good.1
          · cases valid
    · cases ok
      exact ⟨rfl, by rintro _ ⟨⟩⟩
  · cases ok
    exact ⟨rfl, by rintro _ ⟨⟩⟩

theorem scanAuthority_ok {text rest : Text} {authority : Option Text} {offset after : Nat}
    (ok : scanAuthority mode text offset = .ok (authority, rest, after)) :
    behind ['/', '/'] authority ++ rest = text ∧
      (∀ found, authority = some found → validateAuthority mode found (offset + 2) = .ok () ∧
        (∀ c ∈ found, authorityEnd c = false) ∧ Ends authorityEnd rest) ∧
      (authority = none → ∀ tail, rest ≠ '/' :: '/' :: tail) := by
  unfold scanAuthority at ok
  split at ok
  · rename_i tail
    obtain ⟨done, valid, ok⟩ := bind_ok ok
    cases ok
    refine ⟨?_, ?_, by rintro ⟨⟩⟩
    · change '/' :: '/' :: (tail.takeWhile _ ++ tail.dropWhile _) = _
      rw [List.takeWhile_append_dropWhile]
    · rintro _ ⟨⟩
      exact ⟨valid, takeWhile_inside authorityEnd tail, dropWhile_ends authorityEnd tail⟩
  · rename_i not_slashes
    cases ok
    refine ⟨rfl, by rintro _ ⟨⟩, ?_⟩
    rintro - tail rfl
    exact not_slashes tail rfl

theorem scanPath_ok {relative : Bool} {text path rest : Text} {offset after : Nat}
    (ok : scanPath mode relative text offset = .ok (path, rest, after)) :
    path ++ rest = text ∧ validateComponent .path mode path offset = .ok () ∧
      (∀ c ∈ path, pathEnd c = false) ∧ Ends pathEnd rest ∧
      (relative = true → ':' ∉ path.takeWhile (· != '/')) := by
  unfold scanPath at ok
  obtain ⟨done, valid, ok⟩ := bind_ok ok
  obtain ⟨other, no_scheme, ok⟩ := bind_ok ok
  cases ok
  refine ⟨List.takeWhile_append_dropWhile, valid, takeWhile_inside pathEnd text,
    dropWhile_ends pathEnd text, ?_⟩
  intro is_relative colon
  unfold checkNoScheme at no_scheme
  rw [if_pos ⟨is_relative, colon⟩] at no_scheme
  cases no_scheme

theorem scanQuery_ok {text rest : Text} {query : Option Text} {offset after : Nat}
    (ok : scanQuery mode text offset = .ok (query, rest, after)) (ends : Ends pathEnd text) :
    behind ['?'] query ++ rest = text ∧ Ends (· == '#') rest ∧
      ∀ found, query = some found → validateComponent .query mode found (offset + 1) = .ok () ∧
        ∀ c ∈ found, c ≠ '#' := by
  unfold scanQuery at ok
  split at ok
  · rename_i tail
    obtain ⟨done, valid, ok⟩ := bind_ok ok
    cases ok
    refine ⟨?_, dropWhile_ends (· == '#') tail, ?_⟩
    · change '?' :: (tail.takeWhile _ ++ tail.dropWhile _) = _
      rw [List.takeWhile_append_dropWhile]
    · rintro _ ⟨⟩
      refine ⟨valid, fun c member => ?_⟩
      rw [← beq_eq_false_iff_ne]
      exact takeWhile_inside (· == '#') tail c member
  · rename_i not_query
    cases ok
    refine ⟨rfl, ?_, by rintro _ ⟨⟩⟩
    rcases ends with rfl | ⟨c, tail, rfl, stop⟩
    · exact Or.inl rfl
    · refine Or.inr ⟨c, tail, rfl, ?_⟩
      unfold pathEnd at stop
      rw [Bool.or_eq_true] at stop
      rcases stop with question | hash
      · exact absurd (by rw [beq_iff_eq.mp question]) (not_query tail)
      · exact hash

theorem scanFragment_ok {text : Text} {fragment : Option Text} {offset : Nat}
    (ok : scanFragment mode text offset = .ok fragment) (ends : Ends (· == '#') text) :
    behind ['#'] fragment = text ∧ ∀ found, fragment = some found →
      validateComponent .fragment mode found (offset + 1) = .ok () := by
  unfold scanFragment at ok
  split at ok
  · obtain ⟨done, valid, ok⟩ := bind_ok ok
    cases ok
    refine ⟨rfl, ?_⟩
    rintro _ ⟨⟩
    exact valid
  · rename_i not_fragment
    cases ok
    refine ⟨?_, by rintro _ ⟨⟩⟩
    rcases ends with rfl | ⟨c, tail, rfl, stop⟩
    · rfl
    · exact absurd (by rw [beq_iff_eq.mp stop]) (not_fragment tail)

theorem scan_ok {text : Text} {parts : Parts} (ok : scan mode text = .ok parts) :
    parts.recompose = text ∧ parts.Separable ∧ parts.Admitted mode := by
  unfold scan at ok
  split at ok
  · cases ok
  · obtain ⟨⟨scheme, rest₁, offset₁⟩, scheme_ok, ok⟩ := bind_ok ok
    obtain ⟨⟨authority, rest₂, offset₂⟩, authority_ok, ok⟩ := bind_ok ok
    obtain ⟨⟨path, rest₃, offset₃⟩, path_ok, ok⟩ := bind_ok ok
    obtain ⟨⟨query, rest₄, offset₄⟩, query_ok, ok⟩ := bind_ok ok
    obtain ⟨fragment, fragment_ok, ok⟩ := bind_ok ok
    cases ok
    obtain ⟨scheme_eq, scheme_each⟩ := scanScheme_ok scheme_ok
    obtain ⟨authority_eq, authority_each, no_authority⟩ := scanAuthority_ok authority_ok
    obtain ⟨path_eq, path_valid, path_inside, path_ends, no_scheme⟩ := scanPath_ok path_ok
    obtain ⟨query_eq, query_ends, query_each⟩ := scanQuery_ok query_ok path_ends
    obtain ⟨fragment_eq, fragment_each⟩ := scanFragment_ok fragment_ok query_ends
    refine ⟨?_, ⟨?_, ?_, ?_, path_inside, ?_⟩, ⟨?_, ?_, ⟨_, path_valid⟩, ?_, ?_, ?_⟩⟩
    · unfold Parts.recompose
      rw [fragment_eq, query_eq, path_eq, authority_eq, scheme_eq]
    · exact fun found same => (scheme_each found same).2
    · intro found same
      obtain ⟨-, inside, ends⟩ := authority_each found same
      refine ⟨inside, ?_⟩
      cases path with
      | nil => exact Or.inl rfl
      | cons c tail =>
        right
        refine ⟨tail, ?_⟩
        have not_end := path_inside c List.mem_cons_self
        rw [← path_eq] at ends
        rcases ends with empty | ⟨d, others, starts, stop⟩
        · cases empty
        · cases starts
          unfold authorityEnd at stop
          unfold pathEnd at not_end
          rw [Bool.or_assoc, not_end, Bool.or_false] at stop
          rw [beq_iff_eq.mp stop]
    · rintro same tail rfl
      exact no_authority same _ path_eq.symm
    · exact fun found same => (query_each found same).2
    · exact fun found same => (scheme_each found same).1
    · exact fun found same => ⟨_, (authority_each found same).1⟩
    · intro none_scheme none_authority
      apply no_scheme
      dsimp only at none_scheme none_authority
      rw [none_scheme, none_authority]
      rfl
    · exact fun found same => ⟨_, (query_each found same).1⟩
    · exact fun found same => ⟨_, fragment_each found same⟩

end Purrdf.Iri
