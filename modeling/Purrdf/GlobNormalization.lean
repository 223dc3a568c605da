import Mathlib.Data.List.Forall2
import Purrdf.GlobProgram

/-!
# Normalized classes

Sorting and merging the ranges of a class keeps its members and makes the binary search
over them exact. Each class owns its slice of the table, so normalizing the classes one
after another in place normalizes them all.
-/

namespace Purrdf.Glob

/-! ### Sorting and merging -/

theorem rangeLe_iff {left right : Range} : rangeLe left right = true ↔
    left.1.toNat < right.1.toNat ∨ (left.1.toNat = right.1.toNat ∧ left.2.toNat ≤ right.2.toNat) := by
  simp [rangeLe, UInt32.lt_iff_toNat_lt, UInt32.le_iff_toNat_le, ← UInt32.toNat_inj]

theorem rangeLe_trans (first second third : Range) (h : rangeLe first second = true)
    (h' : rangeLe second third = true) : rangeLe first third = true := by
  rw [rangeLe_iff] at *
  omega

theorem rangeLe_total (first second : Range) :
    (rangeLe first second || rangeLe second first) = true := by
  rw [Bool.or_eq_true, rangeLe_iff, rangeLe_iff]
  omega

structure Ordered (ranges : List Range) : Prop where
  proper : Proper ranges
  apart : ranges.Pairwise fun left right => left.2 < right.1

theorem member_cons {cp : UInt32} {range : Range} {ranges : List Range} :
    Member cp (range :: ranges) ↔ (range.1 ≤ cp ∧ cp ≤ range.2) ∨ Member cp ranges := by
  simp [Member]

theorem member_reverse {cp : UInt32} {ranges : List Range} :
    Member cp ranges.reverse ↔ Member cp ranges := by
  simp [Member]

theorem saturatingSucc_toNat (value : UInt32) :
    (saturatingSucc value).toNat = min (value.toNat + 1) (2 ^ 32 - 1) := by
  rw [saturatingSucc]
  split
  · rename_i full
    rw [full]
    rfl
  · rename_i room
    have bound := value.toNat_lt
    have differs : value.toNat ≠ 4294967295 := fun same => room (UInt32.toNat_inj.mp same)
    rw [UInt32.toNat_add, UInt32.toNat_one]
    omega

theorem toNat_max (left right : UInt32) :
    (max left right).toNat = max left.toNat right.toNat := by
  show (if left ≤ right then right else left).toNat = _
  split
  · rename_i le
    rw [UInt32.le_iff_toNat_le] at le
    omega
  · rename_i gt
    rw [UInt32.le_iff_toNat_le] at gt
    omega

theorem left_le_max (left right : UInt32) : left ≤ max left right := by
  rw [UInt32.le_iff_toNat_le, toNat_max]
  exact Nat.le_max_left _ _

theorem merge_covers {cp : UInt32} {previous range : Range} (order : previous.1 ≤ range.1)
    (touch : range.1 ≤ saturatingSucc previous.2) :
    (previous.1 ≤ cp ∧ cp ≤ max previous.2 range.2) ↔
      (previous.1 ≤ cp ∧ cp ≤ previous.2) ∨ (range.1 ≤ cp ∧ cp ≤ range.2) := by
  rw [UInt32.le_iff_toNat_le, saturatingSucc_toNat] at touch
  simp only [UInt32.le_iff_toNat_le, toNat_max] at *
  omega

theorem mergeRanges_spec (kept rest : List Range) (ordered : Ordered kept.reverse)
    (sorted : rest.Pairwise fun left right => rangeLe left right = true) (proper : Proper rest)
    (below : ∀ previous ∈ kept.head?, ∀ range ∈ rest, previous.1 ≤ range.1) :
    Ordered (mergeRanges kept rest) ∧
      (mergeRanges kept rest).length ≤ kept.length + rest.length ∧
      ∀ cp, Member cp (mergeRanges kept rest) ↔ Member cp kept ∨ Member cp rest := by
  induction rest generalizing kept with
  | nil =>
    rw [mergeRanges]
    refine ⟨ordered, by simp, fun cp => ?_⟩
    rw [member_reverse]
    simp [Member]
  | cons range rest ih =>
    obtain ⟨first, sorted⟩ := List.pairwise_cons.mp sorted
    have proper' : Proper rest := fun other member => proper other (List.mem_cons_of_mem _ member)
    have head := proper range List.mem_cons_self
    have later : ∀ other ∈ rest, range.1 ≤ other.1 := by
      intro other member
      have le := rangeLe_iff.mp (first other member)
      rw [UInt32.le_iff_toNat_le]
      omega
    cases kept with
    | nil =>
      rw [mergeRanges]
      obtain ⟨ordered', length, members⟩ := ih [range]
        ⟨by simpa [Proper] using head, by simp⟩ sorted proper' (by simpa using later)
      refine ⟨ordered', Nat.le_trans length (by simp; omega), fun cp => ?_⟩
      rw [members, member_cons, member_cons]
      simp [Member]
    | cons previous kept =>
      have order : previous.1 ≤ range.1 := below previous rfl range List.mem_cons_self
      obtain ⟨properKept, apart⟩ := ordered
      rw [List.reverse_cons, List.pairwise_append] at apart
      obtain ⟨apartKept, -, apartLast⟩ := apart
      rw [mergeRanges]
      by_cases touch : range.1 ≤ saturatingSucc previous.2
      · rw [if_pos touch]
        have merged : Ordered ((previous.1, max previous.2 range.2) :: kept).reverse := by
          constructor
          · intro other member
            rcases List.mem_cons.mp (List.mem_reverse.mp member) with rfl | member
            · exact UInt32.le_trans (properKept previous (by simp)) (left_le_max _ _)
            · exact properKept other (by simp [member])
          · rw [List.reverse_cons, List.pairwise_append]
            refine ⟨apartKept, by simp, ?_⟩
            intro other member merged single
            rw [List.mem_singleton.mp single]
            exact apartLast other member previous List.mem_cons_self
        obtain ⟨ordered', length, members⟩ := ih _ merged sorted proper' (by
          intro merged same other member
          cases same
          exact UInt32.le_trans order (later other member))
        refine ⟨ordered', Nat.le_trans length (by simp), fun cp => ?_⟩
        rw [members, member_cons, member_cons, member_cons, merge_covers order touch]
        tauto
      · rw [if_neg touch]
        have gap : previous.2 < range.1 := by
          rw [UInt32.le_iff_toNat_le, saturatingSucc_toNat] at touch
          have bound := range.1.toNat_lt
          rw [UInt32.lt_iff_toNat_lt]
          omega
        have appended : Ordered (range :: previous :: kept).reverse := by
          constructor
          · intro other member
            rcases List.mem_cons.mp (List.mem_reverse.mp member) with rfl | member
            · exact head
            · exact properKept other (List.mem_reverse.mpr member)
          · rw [List.reverse_cons, List.pairwise_append, List.reverse_cons,
              List.pairwise_append]
            refine ⟨⟨apartKept, by simp, apartLast⟩, by simp, ?_⟩
            intro other member last single
            rw [List.mem_singleton.mp single]
            rcases List.mem_append.mp member with member | member
            · have before := apartLast other member previous List.mem_cons_self
              exact UInt32.lt_of_lt_of_le before order
            · rw [List.mem_singleton.mp member]
              exact gap
        obtain ⟨ordered', length, members⟩ := ih _ appended sorted proper' (by
          intro last same other member
          cases same
          exact later other member)
        refine ⟨ordered', Nat.le_trans length (by simp; omega), fun cp => ?_⟩
        rw [members, member_cons, member_cons, member_cons]
        tauto

theorem inRangesLoop_spec {cp : UInt32} {ranges : List Range} (ordered : Ordered ranges)
    (rounds lo hi : Nat) (within : hi ≤ ranges.length) (enough : hi - lo ≤ rounds)
    (window : ∀ (index : Nat) (range : Range), ranges[index]? = some range →
      range.1 ≤ cp ∧ cp ≤ range.2 → lo ≤ index ∧ index < hi) :
    inRangesLoop cp ranges rounds lo hi = true ↔ Member cp ranges := by
  have member_iff : Member cp ranges ↔ ∃ (index : Nat) (range : Range),
      ranges[index]? = some range ∧ range.1 ≤ cp ∧ cp ≤ range.2 := by
    constructor
    · rintro ⟨range, member, inside⟩
      obtain ⟨index, bound, rfl⟩ := List.mem_iff_getElem.mp member
      exact ⟨index, _, List.getElem?_eq_getElem bound, inside⟩
    · rintro ⟨index, range, at_index, inside⟩
      exact ⟨range, List.mem_of_getElem? at_index, inside⟩
  have apart : ∀ (i j : Nat) (left right : Range), ranges[i]? = some left →
      ranges[j]? = some right → i < j → left.2.toNat < right.1.toNat := by
    intro i j left right at_i at_j order
    obtain ⟨boundI, rfl⟩ := List.getElem?_eq_some_iff.mp at_i
    obtain ⟨boundJ, rfl⟩ := List.getElem?_eq_some_iff.mp at_j
    exact UInt32.lt_iff_toNat_lt.mp (List.pairwise_iff_getElem.mp ordered.apart i j boundI boundJ order)
  have proper : ∀ (i : Nat) (range : Range), ranges[i]? = some range →
      range.1.toNat ≤ range.2.toNat := fun i range at_i =>
    UInt32.le_iff_toNat_le.mp (ordered.proper range (List.mem_of_getElem? at_i))
  induction rounds generalizing lo hi with
  | zero =>
    rw [inRangesLoop, member_iff]
    constructor
    · intro h
      cases h
    · rintro ⟨index, range, at_index, inside⟩
      have := window index range at_index inside
      omega
  | succ rounds ih =>
    rw [inRangesLoop]
    by_cases order : lo < hi
    · rw [if_pos order]
      have bound : lo + (hi - lo) / 2 < ranges.length := by omega
      obtain ⟨mid, mid_eq⟩ : ∃ mid, lo + (hi - lo) / 2 = mid := ⟨_, rfl⟩
      rw [mid_eq] at bound
      have at_mid := List.getElem?_eq_getElem bound
      generalize ranges[mid] = middle at at_mid
      simp only [mid_eq, List.getD_eq_getElem?_getD, at_mid, Option.getD_some]
      by_cases left : cp < middle.1
      · rw [if_pos left]
        apply ih lo mid (by omega) (by omega)
        intro index range at_index inside
        have inWindow := window index range at_index inside
        refine ⟨inWindow.1, ?_⟩
        by_contra beyond
        have same : middle.1.toNat ≤ range.1.toNat := by
          rcases Nat.lt_or_ge mid index with later | same
          · have := apart mid index middle range at_mid at_index later
            have := proper mid middle at_mid
            omega
          · have : mid = index := by omega
            subst this
            rw [at_mid] at at_index
            cases at_index
            exact Nat.le_refl _
        rw [UInt32.lt_iff_toNat_lt] at left
        have inside' := UInt32.le_iff_toNat_le.mp inside.1
        omega
      · rw [if_neg left]
        by_cases right : middle.2 < cp
        · rw [if_pos right]
          apply ih (mid + 1) hi within (by omega)
          intro index range at_index inside
          have inWindow := window index range at_index inside
          refine ⟨?_, inWindow.2⟩
          by_contra before
          have same : range.2.toNat ≤ middle.2.toNat := by
            rcases Nat.lt_or_ge index mid with earlier | same
            · have := apart index mid range middle at_index at_mid earlier
              have := proper mid middle at_mid
              omega
            · have : mid = index := by omega
              subst this
              rw [at_mid] at at_index
              cases at_index
              exact Nat.le_refl _
          rw [UInt32.lt_iff_toNat_lt] at right
          have inside' := UInt32.le_iff_toNat_le.mp inside.2
          omega
        · rw [if_neg right, member_iff]
          simp only [true_iff]
          exact ⟨mid, middle, at_mid, UInt32.not_lt.mp left, UInt32.not_lt.mp right⟩
    · rw [if_neg order, member_iff]
      constructor
      · intro h
        cases h
      · rintro ⟨index, range, at_index, inside⟩
        have := window index range at_index inside
        omega

theorem inRanges_iff {cp : UInt32} {ranges : List Range} (ordered : Ordered ranges) :
    inRanges cp ranges = true ↔ Member cp ranges := by
  apply inRangesLoop_spec ordered ranges.length 0 ranges.length (Nat.le_refl _) (Nat.le_refl _)
  intro index range at_index inside
  obtain ⟨bound, -⟩ := List.getElem?_eq_some_iff.mp at_index
  exact ⟨Nat.zero_le _, bound⟩

/-! ### Normalizing in place -/

theorem classSlice_eq (ranges : List Range) (start stop : Nat) :
    classSlice ranges start stop = (ranges.drop start).take (stop - start) := by
  rw [classSlice, List.drop_take]

theorem mem_of_mem_classSlice {ranges : List Range} {start stop : Nat} {range : Range}
    (h : range ∈ classSlice ranges start stop) : range ∈ ranges :=
  List.mem_of_mem_take (List.mem_of_mem_drop h)

def Normalized (ranges ranges' : List Range) : Token → Token → Prop
  | .classRanges start stop negated, token => ∃ stop', token = .classRanges start stop' negated ∧
      Ordered (classSlice ranges' start stop') ∧
      ∀ cp, Member cp (classSlice ranges' start stop') ↔ Member cp (classSlice ranges start stop)
  | token, token' => token' = token

theorem normalizeClass_spec {ranges ranges' : List Range} {start stop kept : Nat}
    (run : normalizeClass ranges start stop = (ranges', kept)) (order : start ≤ stop)
    (within : stop ≤ ranges.length) (proper : Proper (classSlice ranges start stop)) :
    ranges'.length = ranges.length ∧ ranges'.take start = ranges.take start ∧
      ranges'.drop stop = ranges.drop stop ∧ start + kept ≤ stop ∧
      Ordered (classSlice ranges' start (start + kept)) ∧
      ∀ cp, Member cp (classSlice ranges' start (start + kept)) ↔
        Member cp (classSlice ranges start stop) := by
  obtain ⟨sorted, sorted_eq⟩ : ∃ sorted, (classSlice ranges start stop).mergeSort rangeLe = sorted :=
    ⟨_, rfl⟩
  have perm : sorted.Perm (classSlice ranges start stop) := by
    rw [← sorted_eq]
    exact List.mergeSort_perm _ _
  have length : sorted.length = stop - start := by
    rw [perm.length_eq, classSlice, List.length_drop, List.length_take, Nat.min_eq_left within]
  have properSorted : Proper sorted := fun range member =>
    proper range (perm.mem_iff.mp member)
  have inOrder : sorted.Pairwise fun left right => rangeLe left right = true := by
    rw [← sorted_eq]
    exact List.pairwise_mergeSort rangeLe_trans rangeLe_total _
  obtain ⟨ordered, fewer, members⟩ := mergeRanges_spec [] sorted ⟨by simp [Proper], by simp⟩ inOrder
    properSorted (by simp)
  rw [normalizeClass, sorted_eq] at run
  cases run
  obtain ⟨merged, merged_eq⟩ : ∃ merged, mergeRanges [] sorted = merged := ⟨_, rfl⟩
  rw [merged_eq] at ordered fewer members ⊢
  rw [List.length_nil, Nat.zero_add, length] at fewer
  have before : (ranges.take start).length = start := by
    rw [List.length_take]
    omega
  have middle : (merged ++ sorted.drop merged.length).length = stop - start := by
    rw [List.length_append, List.length_drop, length]
    omega
  have slice : classSlice (ranges.take start ++ (merged ++ sorted.drop merged.length) ++
      ranges.drop stop) start (start + merged.length) = merged := by
    rw [classSlice_eq, List.append_assoc, List.drop_left' before, Nat.add_sub_cancel_left,
      List.append_assoc, List.take_left' rfl]
  refine ⟨?_, ?_, ?_, by omega, ?_, ?_⟩
  · rw [List.length_append, List.length_append, before, middle, List.length_drop]
    omega
  · rw [List.append_assoc, List.take_left' before]
  · apply List.drop_left'
    rw [List.length_append, before, middle]
    omega
  · rw [slice]
    exact ordered
  · intro cp
    rw [slice, members]
    simp only [Member, List.not_mem_nil, false_and, exists_false, false_or, perm.mem_iff]

theorem normalize_cons {token : Token} {tokens : List Token} {ranges : List Range}
    (other : ∀ start stop negated, token ≠ .classRanges start stop negated) :
    normalize (token :: tokens) ranges =
      (token :: (normalize tokens ranges).1, (normalize tokens ranges).2) := by
  cases token with
  | classRanges start stop negated => exact absurd rfl (other start stop negated)
  | _ => rfl

theorem normalize_spec {tokens tokens' : List Token} {ranges ranges' original : List Range}
    {lower : Nat} (run : normalize tokens ranges = (tokens', ranges'))
    (slices : Slices lower tokens original.length) (length : ranges.length = original.length)
    (agree : ranges.drop lower = original.drop lower) (proper : Proper original) :
    ranges'.length = ranges.length ∧ ranges'.take lower = ranges.take lower ∧
      List.Forall₂ (Normalized original ranges') tokens tokens' := by
  induction tokens generalizing ranges lower tokens' with
  | nil =>
    cases run
    exact ⟨rfl, rfl, .nil⟩
  | cons token tokens ih =>
    rcases token with expected | - | - | - | - | - | ⟨start, stop, negated⟩
    case classRanges =>
      obtain ⟨above, nonempty, slices⟩ := slices
      have within := slices.le
      rw [normalize] at run
      rcases step : normalizeClass ranges start stop with ⟨middle, kept⟩
      rcases rest : normalize tokens middle with ⟨tokens'', ranges''⟩
      rw [step] at run
      dsimp only at run
      rw [rest] at run
      cases run
      have same : ranges.drop start = original.drop start := by
        rw [show start = lower + (start - lower) by omega, ← List.drop_drop, agree, List.drop_drop]
      -- The class still holds the ranges of the parse.
      have slice : classSlice ranges start stop = classSlice original start stop := by
        rw [classSlice_eq, same, ← classSlice_eq]
      obtain ⟨length', before, after, room, ordered, members⟩ :=
        normalizeClass_spec step (by omega) (by omega) (by
          rw [slice]
          exact fun range member => proper range (mem_of_mem_classSlice member))
      obtain ⟨length'', taken, normalized⟩ := ih rest slices (by omega) (by
        rw [after, show stop = start + (stop - start) by omega, ← List.drop_drop, same,
          List.drop_drop])
      have kept_eq : classSlice ranges'' start (start + kept) =
          classSlice middle start (start + kept) := by
        rw [classSlice, classSlice, ← Nat.min_eq_left room, ← List.take_take, taken, List.take_take]
      refine ⟨by omega, ?_, .cons ⟨_, rfl, ?_, ?_⟩ normalized⟩
      · rw [← Nat.min_eq_left (show lower ≤ stop by omega), ← List.take_take, taken, List.take_take,
          Nat.min_eq_left (show lower ≤ stop by omega), ← Nat.min_eq_left above, ← List.take_take,
          before, List.take_take]
      · rw [kept_eq]
        exact ordered
      · intro cp
        rw [kept_eq, members, slice]
    all_goals
      rw [normalize_cons (by simp)] at run
      cases run
      obtain ⟨length', taken, normalized⟩ := ih rfl slices length agree
      exact ⟨length', taken, .cons rfl normalized⟩

/-! ### The language is unchanged -/

def Tabled (ranges : List Range) (tokens : List Token) : Prop :=
  ∀ start stop negated, .classRanges start stop negated ∈ tokens →
    Ordered (classSlice ranges start stop)

section

variable {mode : Mode} {ranges ranges' : List Range} {tokens tokens' : List Token}

def Alike (ranges ranges' : List Range) : Token → Token → Prop
  | .classRanges start stop negated, token => ∃ start' stop',
      token = .classRanges start' stop' negated ∧
      ∀ cp, Member cp (classSlice ranges' start' stop') ↔ Member cp (classSlice ranges start stop)
  | token, token' => token' = token

theorem Normalized.alike {token token' : Token} (h : Normalized ranges ranges' token token') :
    Alike ranges ranges' token token' := by
  cases token with
  | classRanges start stop negated =>
    obtain ⟨stop', rfl, -, members⟩ := h
    exact ⟨start, stop', rfl, members⟩
  | _ => exact h

theorem Alike.eq_of_ne {token token' : Token} (h : Alike ranges ranges' token token')
    (other : ∀ start stop negated, token ≠ .classRanges start stop negated) : token' = token := by
  cases token with
  | classRanges start stop negated => exact absurd rfl (other start stop negated)
  | _ => exact h

theorem Alike.takes_iff {token token' : Token} {ch : Char}
    (h : Alike ranges ranges' token token') :
    token'.Takes mode ranges' ch ↔ token.Takes mode ranges ch := by
  cases token with
  | classRanges start stop negated =>
    obtain ⟨start', stop', rfl, members⟩ := h
    exact and_congr_right fun _ => iff_congr (members ch.val) Iff.rfl
  | _ =>
    rw [h.eq_of_ne (fun _ _ _ same => by cases same)]
    rfl

theorem Alike.trans {ranges'' : List Range} {token token' token'' : Token}
    (first : Alike ranges ranges' token token') (second : Alike ranges' ranges'' token' token'') :
    Alike ranges ranges'' token token'' := by
  cases token with
  | classRanges start stop negated =>
    obtain ⟨start', stop', rfl, members⟩ := first
    obtain ⟨start'', stop'', rfl, members'⟩ := second
    exact ⟨start'', stop'', rfl, fun cp => (members' cp).trans (members cp)⟩
  | _ =>
    obtain rfl := first.eq_of_ne (by simp)
    exact second

theorem matches_cons_tail {input : List Char} :
    Matches mode ranges (.tail :: tokens) input ↔ tokens = [] := by
  constructor
  · intro h
    cases h with
    | scalar takes => exact takes.elim
    | tail => rfl
  · rintro rfl
    exact .tail

theorem matches_alike (alike : List.Forall₂ (Alike ranges ranges') tokens tokens')
    (input : List Char) : Matches mode ranges' tokens' input ↔ Matches mode ranges tokens input := by
  induction alike generalizing input with
  | nil => simp
  | @cons token token' tokens tokens' head rest ih =>
    by_cases star : token = .star
    · subst star
      rw [head.eq_of_ne (by simp), matches_star, matches_star]
      simp only [ih]
    by_cases directories : token = .directories
    · subst directories
      rw [head.eq_of_ne (by simp), matches_directories, matches_directories]
      simp only [ih]
    by_cases tail : token = .tail
    · subst tail
      rw [head.eq_of_ne (by simp), matches_cons_tail, matches_cons_tail]
      constructor
      · rintro rfl
        cases rest
        rfl
      · rintro rfl
        cases rest
        rfl
    have kinds : token' ≠ .star ∧ token' ≠ .directories ∧ token' ≠ .tail := by
      cases token with
      | classRanges start stop negated =>
        obtain ⟨start', stop', rfl, -⟩ := head
        simp
      | _ =>
        rw [head.eq_of_ne (by simp)]
        exact ⟨star, directories, tail⟩
    rw [matches_scalar kinds.1 kinds.2.1 kinds.2.2, matches_scalar star directories tail]
    simp only [ih, head.takes_iff]

theorem Program.alike {componentStart : Bool} (program : Program mode componentStart tokens)
    (alike : List.Forall₂ (Alike ranges ranges') tokens tokens') :
    Program mode componentStart tokens' := by
  induction alike generalizing componentStart with
  | nil => trivial
  | @cons token token' tokens tokens' head rest ih =>
    cases token with
    | classRanges start stop negated =>
      obtain ⟨start', stop', rfl, -⟩ := head
      exact ih program
    | tail =>
      rw [head.eq_of_ne (by simp)]
      obtain ⟨path, rfl⟩ := program
      cases rest
      exact ⟨path, rfl⟩
    | literal expected =>
      rw [head.eq_of_ne (by simp)]
      exact ⟨program.1, ih program.2⟩
    | separator =>
      rw [head.eq_of_ne (by simp)]
      exact ⟨program.1, ih program.2⟩
    | directories =>
      rw [head.eq_of_ne (by simp)]
      exact ⟨program.1, program.2.1, ih program.2.2⟩
    | any =>
      rw [head.eq_of_ne (by simp)]
      exact ih program
    | star =>
      rw [head.eq_of_ne (by simp)]
      exact ih program

theorem alike_of_normalized (normalized : List.Forall₂ (Normalized ranges ranges') tokens tokens') :
    List.Forall₂ (Alike ranges ranges') tokens tokens' :=
  normalized.imp fun _ _ token => token.alike

theorem tabled_of_normalized (normalized : List.Forall₂ (Normalized ranges ranges') tokens tokens') :
    Tabled ranges' tokens' := by
  induction normalized with
  | nil =>
    intro start stop negated member
    cases member
  | @cons token token' tokens tokens' head rest ih =>
    intro start stop negated member
    rcases List.mem_cons.mp member with same | member
    · cases token with
      | classRanges start' stop' negated' =>
        obtain ⟨stop'', rfl, ordered, -⟩ := head
        cases same
        exact ordered
      | _ =>
        rw [head.alike.eq_of_ne (by simp)] at same
        cases same
    · exact ih start stop negated member

end

theorem compile_spec {source : List Char} {mode : Mode} {glob : CompiledGlob}
    (compiled : compile source mode = .ok glob) :
    ∃ out, parse source mode {} = .ok out ∧ glob.mode = mode ∧ Program mode true glob.tokens ∧
      Tabled glob.ranges glob.tokens ∧
      ∀ input, Matches mode glob.ranges glob.tokens input ↔
        Matches mode out.ranges out.tokens input := by
  simp only [compile, bind, Except.bind] at compiled
  rcases parsed : parse source mode {} with error | out
  · rw [parsed] at compiled
    cases compiled
  · rw [parsed] at compiled
    cases compiled
    obtain ⟨program, slices, proper⟩ := parse_spec parsed
    obtain ⟨-, -, normalized⟩ := normalize_spec rfl slices rfl rfl proper
    have alike := alike_of_normalized normalized
    exact ⟨out, rfl, rfl, program.alike alike, tabled_of_normalized normalized,
      matches_alike alike⟩

end Purrdf.Glob
