import Purrdf.CoverWalk

/-!
# Reconstruction is faithful

What is reconstructed has the stated length and digest and holds every span verbatim, and a
lawful cover of a document reconstructs it.
-/

namespace Purrdf.Cover

variable {Digest : Type} [DecidableEq Digest] {digesting : Digesting Digest} {sorting : Sorting}
  {byteLength : Nat} {sourceDigest : Digest} {spans : List ByteSpan} {document : List UInt8}

def Covers (spans : List ByteSpan) (document : List UInt8) : Prop :=
  ∀ i < document.length, ∃ span ∈ spans, span.byteStart ≤ i ∧ i < span.byteEnd

/-- A document of the stated length and digest, in which every span stands and whose every byte
some span holds. -/
structure Rebuilt (digesting : Digesting Digest) (byteLength : Nat) (sourceDigest : Digest)
    (spans : List ByteSpan) (out : List UInt8) : Prop where
  length : out.length = byteLength
  digest : digesting.of out = sourceDigest
  stands : ∀ span ∈ spans, Stands out span
  covers : Covers spans out

theorem mem_sorted {span : ByteSpan} :
    span ∈ sorting.sort (spans.filter filled)
      ↔ span ∈ spans ∧ span.byteStart < span.byteEnd := by
  rw [(sorting.perm _).mem_iff, List.mem_filter, filled, decide_eq_true_eq]

theorem sorted_sized (sized : ∀ span ∈ spans, Sized byteLength span) :
    ∀ span ∈ sorting.sort (spans.filter filled),
      Sized byteLength span ∧ span.byteStart < span.byteEnd := by
  intro span member
  obtain ⟨listed, some⟩ := mem_sorted.mp member
  exact ⟨sized span listed, some⟩

theorem Sized.stands_empty {span : ByteSpan} (sized : Sized document.length span)
    (empty : ¬span.byteStart < span.byteEnd) : Stands document span := by
  have payload := sized.payload
  have none : span.bytes = [] := List.eq_nil_of_length_eq_zero (by omega)
  refine ⟨sized.order, sized.inside, ?_⟩
  rw [none, List.drop_eq_nil_iff, List.length_take]
  omega

theorem reconstructBytes_safe (digesting : Digesting Digest) (sorting : Sorting)
    (byteLength : Nat) (sourceDigest : Digest) (spans : List ByteSpan) :
    Safe (reconstructBytes digesting sorting byteLength sourceDigest spans) fun out =>
      Rebuilt digesting byteLength sourceDigest spans out ∧
        ((∀ span ∈ spans, Utf8.IsUtf8 span.bytes) → Utf8.IsUtf8 out) := by
  rw [reconstructBytes, safe_bind]
  apply (collect_sized byteLength spans).mono
  rintro kept ⟨rfl, sized⟩
  dsimp only
  rw [safe_bind]
  apply (walkSpans_covered _ [] ⟨0, none⟩ [] (List.nil_append _).symm (sorting.sorted _)
    covered_empty (sorted_sized sized)).mono
  rintro last ⟨out, written, covered⟩
  split
  · exact safe_refuse rfl
  · rename_i reached
    rw [written]
    change Safe (if _ then _ else _) _
    split
    · exact safe_refuse rfl
    · rename_i digest
      have length : out.length = byteLength := by
        have reach := Nat.not_lt.mp reached
        rw [covered.length]
        rcases covered.ends with none | ⟨span, member, same⟩
        · omega
        · have inside := (sorted_sized sized span member).1.inside
          omega
      refine ⟨⟨length, not_not.mp digest, ?_, ?_⟩, ?_⟩
      · intro span member
        by_cases some : span.byteStart < span.byteEnd
        · exact covered.stands span (mem_sorted.mpr ⟨member, some⟩)
        · apply Sized.stands_empty _ some
          rw [length]
          exact sized span member
      · intro i inside
        rw [covered.length] at inside
        obtain ⟨span, member, holds⟩ := covered.covers i inside
        exact ⟨span, (mem_sorted.mp member).1, holds⟩
      · intro valid
        exact covered.utf8 fun span member => valid span (mem_sorted.mp member).1

/-! ### Completeness -/

def rangeLe (left right : ByteSpan) : Prop :=
  left.byteStart < right.byteStart ∨
    left.byteStart = right.byteStart ∧ left.byteEnd ≤ right.byteEnd

structure Lawful (spans : List ByteSpan) (document : List UInt8) : Prop where
  stands : ∀ span ∈ spans, Stands document span
  covers : Covers spans document
  /-- Where a span starts before an earlier one has ended, it continues a piece that starts
  strictly earlier and reaches the end of the overlap. -/
  declares : ∀ earlier span, [earlier, span].Subperm spans → rangeLe earlier span →
    earlier.byteStart < earlier.byteEnd → span.byteStart < span.byteEnd →
    span.byteStart < earlier.byteEnd →
      ∃ piece ∈ spans, span.continuing = some piece.range ∧
        piece.byteStart < span.byteStart ∧ min earlier.byteEnd span.byteEnd ≤ piece.byteEnd

theorem ByteSpan.keyLe.range {left right : ByteSpan} (order : left.keyLe right) :
    rangeLe left right := by
  rcases order with less | ⟨same, below | ⟨ends, -⟩⟩
  · exact Or.inl less
  · exact Or.inr ⟨same, below.le⟩
  · exact Or.inr ⟨same, ends.le⟩

theorem rangeBelow_iff {left right : Nat × Nat} :
    rangeBelow left right = true ↔ left.1 < right.1 ∨ left.1 = right.1 ∧ left.2 < right.2 := by
  simp [rangeBelow]

theorem find_of_mem {ordered : List ByteSpan} {piece : ByteSpan}
    (sorted : ordered.Pairwise ByteSpan.keyLe) (member : piece ∈ ordered) :
    ∃ found, find ordered piece.range = some found := by
  induction ordered with
  | nil => exact absurd member List.not_mem_nil
  | cons first rest ih =>
    rw [List.pairwise_cons] at sorted
    rw [find, List.takeWhile_cons]
    split
    · rename_i below
      rcases List.mem_cons.mp member with same | later
      · rw [same, rangeBelow_iff] at below
        omega
      · obtain ⟨found, search⟩ := ih sorted.2 later
        exact ⟨found, search⟩
    · rename_i reached
      refine ⟨first, ?_⟩
      have same : first.range = piece.range := by
        rcases List.mem_cons.mp member with same | later
        · rw [same]
        · have order := (sorted.1 piece later).range
          rw [rangeBelow_iff] at reached
          rw [rangeLe] at order
          change ¬(first.byteStart < piece.byteStart ∨
            first.byteStart = piece.byteStart ∧ first.byteEnd < piece.byteEnd) at reached
          rw [ByteSpan.range, ByteSpan.range, Prod.mk.injEq]
          omega
      simp [same]

structure Ready (ordered : List ByteSpan) (document : List UInt8) : Prop where
  sorted : ordered.Pairwise ByteSpan.keyLe
  stands : ∀ span ∈ ordered, Stands document span
  covers : Covers ordered document
  declares : ∀ earlier span, [earlier, span].Subperm ordered → rangeLe earlier span →
    span.byteStart < earlier.byteEnd → ∃ piece ∈ ordered, span.continuing = some piece.range ∧
      piece.byteStart < span.byteStart ∧ min earlier.byteEnd span.byteEnd ≤ piece.byteEnd

theorem Lawful.ready (lawful : Lawful spans document) (sorting : Sorting) :
    Ready (sorting.sort (spans.filter filled)) document := by
  constructor
  · exact sorting.sorted _
  · exact fun span member => lawful.stands span (mem_sorted.mp member).1
  · intro i inside
    obtain ⟨span, member, low, high⟩ := lawful.covers i inside
    exact ⟨span, mem_sorted.mpr ⟨member, low.trans_lt high⟩, low, high⟩
  · intro earlier span both order overlaps
    have first := (mem_sorted.mp (both.subset List.mem_cons_self)).2
    have second := (mem_sorted.mp (both.subset (List.mem_cons_of_mem _ List.mem_cons_self))).2
    have listed : [earlier, span].Subperm spans :=
      (both.trans (sorting.perm _).subperm).trans List.filter_sublist.subperm
    obtain ⟨piece, member, names, starts, reaches⟩ :=
      lawful.declares earlier span listed order first second overlaps
    exact ⟨piece, mem_sorted.mpr ⟨member, by omega⟩, names, starts, reaches⟩

section
variable {ordered passed rest : List ByteSpan} {span : ByteSpan} {walk : Walk}
  {bytes : List UInt8}

theorem Ready.reached (ready : Ready ordered document) (cut : Cut ordered passed span rest)
    (covered : Covered passed walk bytes) : span.byteStart ≤ walk.frontier := by
  by_contra gap
  have listed : span ∈ ordered := by
    rw [cut.split]
    exact List.mem_append_right _ List.mem_cons_self
  have stands := ready.stands span listed
  have order := stands.order
  have inside := stands.inside
  obtain ⟨other, member, low, high⟩ := ready.covers walk.frontier (by omega)
  have passed := cut.passed_of_start member (by omega)
  have within := (covered.stands other passed).inside
  rw [covered.length] at within
  omega

theorem Ready.declared (ready : Ready ordered document) (cut : Cut ordered passed span rest)
    (covered : Covered passed walk bytes) (overlaps : span.byteStart < walk.frontier) :
    ∃ piece, declared ordered span (min walk.frontier span.byteEnd) = some piece := by
  rcases covered.ends with none | ⟨earlier, member, same⟩
  · omega
  · have sorted := cut.sorted
    have both : [earlier, span].Subperm ordered := by
      rw [cut.split]
      exact (List.Sublist.append (List.singleton_sublist.mpr member)
        (List.singleton_sublist.mpr List.mem_cons_self)).subperm
    rw [cut.split, List.pairwise_append] at sorted
    have order := (sorted.2.2 earlier member span List.mem_cons_self).range
    rw [← same] at overlaps ⊢
    obtain ⟨piece, listed, names, starts, reaches⟩ :=
      ready.declares earlier span both order overlaps
    obtain ⟨found, search⟩ := find_of_mem ready.sorted listed
    have range := (find_mem search).2
    have start : found.byteStart = piece.byteStart := congrArg Prod.fst range
    have stop : found.byteEnd = piece.byteEnd := congrArg Prod.snd range
    refine ⟨found, ?_⟩
    rw [Cover.declared, names, Option.bind_some, search, Option.filter_some, if_pos]
    rw [start, stop]
    simpa using ⟨starts, by omega⟩

theorem Ready.walkStep (ready : Ready ordered document) (cut : Cut ordered passed span rest)
    (covered : Covered passed walk bytes) :
    walkStep ordered walk span = .ok (walk.advance span) := by
  have reached := ready.reached cut covered
  rw [Cover.walkStep, if_neg (Nat.not_lt.mpr reached)]
  split
  · rename_i overlaps
    have listed : span ∈ ordered := by
      rw [cut.split]
      exact List.mem_append_right _ List.mem_cons_self
    have stands := ready.stands span listed
    obtain ⟨covering, owner⟩ :=
      Option.isSome_iff_exists.mp (covered.owned (Nat.zero_lt_of_lt overlaps))
    obtain ⟨piece, answers⟩ := ready.declared cut covered overlaps
    obtain ⟨member, -, earlier, reaches⟩ := declared_spec answers
    obtain ⟨shared, own, start, other⟩ :=
      shared_eq stands.sized (ready.stands piece member) earlier overlaps reaches
    have agrees : span.bytes.take (min walk.frontier span.byteEnd - span.byteStart)
        = (document.take (min walk.frontier span.byteEnd)).drop span.byteStart := by
      have order : span.byteStart ≤ min walk.frontier span.byteEnd :=
        le_min overlaps.le stands.order
      have part := part_of_part document (Nat.le_refl span.byteStart) order
        (Nat.min_le_right walk.frontier span.byteEnd)
      rwa [Nat.sub_self, List.drop_zero, stands.verbatim] at part
    have checked : checkOverlap ordered walk span = .ok () := by
      rw [checkOverlap, owner]
      simp only [expect, bind, Except.bind, answers, shared, own, start, other, agrees, if_pos]
    rw [checked]
    rfl
  · rfl

theorem Ready.walkSpans (ready : Ready ordered document) (spans : List ByteSpan)
    (passed : List ByteSpan) (walk : Walk) (bytes : List UInt8) (split : ordered = passed ++ spans)
    (some : ∀ span ∈ ordered, span.byteStart < span.byteEnd)
    (covered : Covered passed walk bytes) : ∃ last, walkSpans ordered walk spans = .ok last := by
  induction spans generalizing passed walk bytes with
  | nil => exact ⟨walk, rfl⟩
  | cons span spans ih =>
    have cut : Cut ordered passed span spans := ⟨split, ready.sorted⟩
    have listed : span ∈ ordered := by
      rw [split]
      exact List.mem_append_right _ List.mem_cons_self
    have stepped := ready.walkStep cut covered
    have safe := walkStep_covered cut covered (ready.stands span listed).sized (some span listed)
    rw [stepped] at safe
    obtain ⟨more, -, onward⟩ := safe
    rw [Cover.walkSpans, stepped]
    apply ih (passed ++ [span]) _ more _ onward
    rw [split, List.append_assoc]
    rfl

theorem document_unique {other : List UInt8} (length : other.length = document.length)
    (covers : Covers spans document) (here : ∀ span ∈ spans, Stands document span)
    (there : ∀ span ∈ spans, Stands other span) : other = document := by
  apply List.ext_getElem length
  intro i left right
  obtain ⟨span, member, low, high⟩ := covers i right
  have first := (here span member).verbatim
  have second := (there span member).verbatim
  have same := congrArg (fun part => part[i - span.byteStart]?) (second.trans first.symm)
  have place : span.byteStart + (i - span.byteStart) = i := by omega
  simp only [List.getElem?_drop, place, List.getElem?_take, high, if_true] at same
  rw [List.getElem?_eq_getElem left, List.getElem?_eq_getElem right] at same
  exact Option.some.inj same

theorem Lawful.reconstructs (lawful : Lawful spans document)
    (digesting : Digesting Digest) (sorting : Sorting) :
    reconstructBytes digesting sorting document.length (digesting.of document) spans
      = .ok document := by
  have ready := lawful.ready sorting
  have sized : ∀ span ∈ spans, Sized document.length span :=
    fun span member => (lawful.stands span member).sized
  have collected := collect_eq sized
  obtain ⟨ordered, ordered_eq⟩ : ∃ ordered, sorting.sort (spans.filter filled) = ordered :=
    ⟨_, rfl⟩
  have listed : ∀ span ∈ sorting.sort (spans.filter filled),
      Sized document.length span ∧ span.byteStart < span.byteEnd := sorted_sized sized
  rw [ordered_eq] at ready listed
  obtain ⟨last, walked⟩ := ready.walkSpans ordered [] ⟨0, none⟩ [] (List.nil_append _).symm
    (fun span member => (listed span member).2) covered_empty
  have safe := walkSpans_covered ordered [] ⟨0, none⟩ [] (List.nil_append _).symm ready.sorted
    covered_empty listed
  rw [walked] at safe
  obtain ⟨out, written, covered⟩ := safe
  have within : ∀ span ∈ ordered, span.byteEnd ≤ last.frontier := by
    intro span member
    rw [← covered.length]
    exact (covered.stands span member).inside
  have reached : ¬last.frontier < document.length := by
    intro short
    obtain ⟨span, member, -, high⟩ := ready.covers last.frontier short
    exact absurd high (Nat.not_lt.mpr (within span member))
  have length : out.length = document.length := by
    rw [covered.length]
    apply Nat.le_antisymm _ (Nat.not_lt.mp reached)
    rcases covered.ends with none | ⟨span, member, same⟩
    · omega
    · rw [← same]
      exact (ready.stands span member).inside
  have same : out = document :=
    document_unique length ready.covers ready.stands covered.stands
  rw [reconstructBytes, collected]
  change (let ordered := sorting.sort (spans.filter filled)
    walkSpans ordered ⟨0, none⟩ ordered >>= _) = _
  dsimp only
  rw [ordered_eq, walked]
  change (if _ then _ else _) = _
  rw [if_neg reached, written, same]
  change (if _ then _ else _) = _
  rw [if_neg (not_not.mpr rfl)]
  rfl

end

theorem fromUtf8_ok {bytes : List UInt8} (valid : Utf8.IsUtf8 bytes) :
    ∃ text, fromUtf8 bytes = .ok text := by
  obtain ⟨chars, rfl⟩ := valid
  have whole : (Utf8.encode chars).toByteArray.IsValidUTF8 := ByteArray.isValidUTF8_utf8Encode
  rw [fromUtf8, String.fromUTF8?, dif_pos whole]
  exact ⟨_, rfl⟩

theorem reconstruct_safe (digesting : Digesting Digest) (sorting : Sorting) (byteLength : Nat)
    (sourceDigest : Digest) (texts : List VerbatimSpan) :
    Safe (reconstruct digesting sorting byteLength sourceDigest texts) fun _ => True := by
  rw [reconstruct, safe_bind]
  apply (reconstructBytes_safe digesting sorting byteLength sourceDigest
    (texts.map VerbatimSpan.toBytes)).mono
  rintro out ⟨-, utf8⟩
  have valid : Utf8.IsUtf8 out := by
    apply utf8
    intro span member
    obtain ⟨text, -, rfl⟩ := List.mem_map.mp member
    exact ⟨text.text.toList, rfl⟩
  obtain ⟨text, ok⟩ := fromUtf8_ok valid
  rw [ok]
  trivial

/-- Reconstruction is faithful to a cover, complete for a lawful one, and panics on none. -/
theorem reconstruct_faithful (digesting : Digesting Digest) (sorting : Sorting)
    (byteLength : Nat) (sourceDigest : Digest) (spans : List ByteSpan)
    (texts : List VerbatimSpan) :
    (∀ out, reconstructBytes digesting sorting byteLength sourceDigest spans = .ok out →
      Rebuilt digesting byteLength sourceDigest spans out) ∧
    (∀ document, document.length = byteLength → digesting.of document = sourceDigest →
      Lawful spans document →
        reconstructBytes digesting sorting byteLength sourceDigest spans = .ok document) ∧
    (∀ validUpTo, reconstruct digesting sorting byteLength sourceDigest texts
      ≠ .error (.refused (.invalidUtf8 validUpTo))) ∧
    reconstructBytes digesting sorting byteLength sourceDigest spans ≠ .error .panicked ∧
    reconstruct digesting sorting byteLength sourceDigest texts ≠ .error .panicked := by
  have safe := reconstructBytes_safe digesting sorting byteLength sourceDigest spans
  have text := reconstruct_safe digesting sorting byteLength sourceDigest texts
  refine ⟨?_, ?_, ?_, safe.ne_panicked, text.ne_panicked⟩
  · intro out ok
    exact (safe.of_ok ok).1
  · rintro document rfl rfl lawful
    exact lawful.reconstructs digesting sorting
  · intro validUpTo refused
    rw [refused] at text
    exact Bool.noConfusion text

end Purrdf.Cover
