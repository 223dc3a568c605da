import Mathlib.Data.List.Basic
import Mathlib.Data.List.TakeWhile
import Purrdf.IriParse

/-!
# Removing dot segments

The cursor that drains a path segment by segment, and the same path as a stack of segments: `.` is
skipped, `..` takes the last segment off, and either of them at the end leaves an empty segment.
-/

namespace Purrdf.Iri

def stripPrefix (start input : Text) : Option Text :=
  if start.isPrefixOf input then some (input.drop start.length) else none

theorem stripPrefix_eq_some {start input rest : Text} :
    stripPrefix start input = some rest ↔ input = start ++ rest := by
  unfold stripPrefix
  split
  · rename_i within
    rw [List.isPrefixOf_iff_prefix] at within
    obtain ⟨tail, rfl⟩ := within
    rw [List.drop_left, Option.some_inj, List.append_cancel_left_eq]
  · rename_i without
    refine iff_of_false (by rintro ⟨⟩) ?_
    rintro rfl
    exact without (List.isPrefixOf_iff_prefix.mpr (List.prefix_append start rest))

theorem stripPrefix_length {start input rest : Text} (stripped : stripPrefix start input = some rest) :
    rest.length + start.length = input.length := by
  rw [stripPrefix_eq_some.mp stripped, List.length_append, Nat.add_comm]

def popLastSegment (out : Text) : Text :=
  ((out.reverse.dropWhile (· != '/')).drop 1).reverse

def firstSegment (input : Text) : Text :=
  match input with
  | '/' :: tail => '/' :: tail.takeWhile (· != '/')
  | _ => input.takeWhile (· != '/')

theorem firstSegment_pos {c : Char} {tail : Text} : 0 < (firstSegment (c :: tail)).length := by
  unfold firstSegment
  split
  · exact Nat.succ_pos _
  · rename_i not_slash
    have here : c ≠ '/' := fun slash => not_slash tail (by rw [slash])
    rw [List.takeWhile_cons_of_pos (by simpa using here)]
    exact Nat.succ_pos _

/-- The loop of `remove_dot_segments`, by the cases of RFC 3986. -/
def removeDotSegmentsFrom (input out : Text) : Text :=
  match input with
  | [] => out
  | c :: tail =>
    match _a₁ : stripPrefix ['.', '.', '/'] (c :: tail) with
    | some rest => removeDotSegmentsFrom rest out
    | none =>
      match _a₂ : stripPrefix ['.', '/'] (c :: tail) with
      | some rest => removeDotSegmentsFrom rest out
      | none =>
        match _b : stripPrefix ['/', '.', '/'] (c :: tail) with
        | some rest => removeDotSegmentsFrom ('/' :: rest) out
        | none =>
          if _last : c :: tail = ['/', '.'] then removeDotSegmentsFrom ['/'] out
          else
            match _c : stripPrefix ['/', '.', '.', '/'] (c :: tail) with
            | some rest => removeDotSegmentsFrom ('/' :: rest) (popLastSegment out)
            | none =>
              if _last : c :: tail = ['/', '.', '.'] then
                removeDotSegmentsFrom ['/'] (popLastSegment out)
              else if c :: tail = ['.'] ∨ c :: tail = ['.', '.'] then out
              else
                removeDotSegmentsFrom ((c :: tail).drop (firstSegment (c :: tail)).length)
                  (out ++ firstSegment (c :: tail))
termination_by input.length
decreasing_by
  · have shorter := stripPrefix_length _a₁
    simp only [List.length_cons, List.length_nil] at shorter ⊢
    omega
  · have shorter := stripPrefix_length _a₂
    simp only [List.length_cons, List.length_nil] at shorter ⊢
    omega
  · have shorter := stripPrefix_length _b
    simp only [List.length_cons, List.length_nil] at shorter ⊢
    omega
  · rw [_last]
    exact Nat.lt_succ_self 1
  · have shorter := stripPrefix_length _c
    simp only [List.length_cons, List.length_nil] at shorter ⊢
    omega
  · rw [_last]
    exact Nat.lt_of_succ_lt (Nat.lt_succ_self 2)
  · rw [List.length_drop]
    exact Nat.sub_lt (Nat.succ_pos _) firstSegment_pos

def removeDotSegments (path : Text) : Text :=
  removeDotSegmentsFrom path []

/-! ### Paths as segments -/

def slashed : List Text → Text
  | [] => []
  | segment :: rest => '/' :: (segment ++ slashed rest)

def SlashFree (segment : Text) : Prop :=
  '/' ∉ segment

def IsDot (segment : Text) : Prop :=
  segment = ['.'] ∨ segment = ['.', '.']

instance : DecidablePred IsDot := fun segment =>
  inferInstanceAs (Decidable (segment = ['.'] ∨ segment = ['.', '.']))

/-- A path without its dot segments: a first segment without a slash, and segments behind one. -/
structure Stack where
  lead : Text
  segments : List Text
deriving DecidableEq, Repr

namespace Stack

def text (stack : Stack) : Text :=
  stack.lead ++ slashed stack.segments

def pop (stack : Stack) : Stack :=
  match stack.segments with
  | [] => { lead := [], segments := [] }
  | _ => { lead := stack.lead, segments := stack.segments.dropLast }

def push (stack : Stack) (segment : Text) : Stack :=
  { lead := stack.lead, segments := stack.segments ++ [segment] }

def reduce (stack : Stack) : List Text → Stack
  | [] => stack
  | segment :: rest =>
    if segment = ['.'] then
      if rest = [] then stack.push [] else stack.reduce rest
    else if segment = ['.', '.'] then
      if rest = [] then stack.pop.push [] else stack.pop.reduce rest
    else (stack.push segment).reduce rest

/-- Leading dot segments of a relative path are dropped. -/
def start (first : Text) : List Text → Stack
  | [] => if IsDot first then ⟨[], []⟩ else ⟨first, []⟩
  | next :: rest =>
    if IsDot first then start next rest else reduce ⟨first, []⟩ (next :: rest)

end Stack

/-- The segments of a path: what stands before its first slash, and what stands behind each. -/
def segmentsOf : Text → Text × List Text
  | [] => ([], [])
  | c :: rest =>
    let (first, others) := segmentsOf rest
    if c = '/' then ([], first :: others) else (c :: first, others)

def withoutDots (path : Text) : Stack :=
  Stack.start (segmentsOf path).1 (segmentsOf path).2

theorem segmentsOf_text (path : Text) :
    (segmentsOf path).1 ++ slashed (segmentsOf path).2 = path := by
  induction path with
  | nil => rfl
  | cons c rest ih =>
    unfold segmentsOf
    dsimp only
    split
    · rename_i slash
      rw [slash]
      exact congrArg (List.cons '/') ih
    · exact congrArg (List.cons c) ih

theorem segmentsOf_slashFree (path : Text) :
    SlashFree (segmentsOf path).1 ∧ ∀ segment ∈ (segmentsOf path).2, SlashFree segment := by
  induction path with
  | nil => exact ⟨List.not_mem_nil, fun segment member => absurd member List.not_mem_nil⟩
  | cons c rest ih =>
    unfold segmentsOf
    dsimp only
    split
    · refine ⟨List.not_mem_nil, fun segment member => ?_⟩
      rcases List.mem_cons.mp member with rfl | member
      · exact ih.1
      · exact ih.2 segment member
    · rename_i not_slash
      refine ⟨?_, ih.2⟩
      intro member
      rcases List.mem_cons.mp member with same | member
      · exact not_slash same.symm
      · exact ih.1 member

theorem slashed_append (left right : List Text) :
    slashed (left ++ right) = slashed left ++ slashed right := by
  induction left with
  | nil => rfl
  | cons segment rest ih =>
    rw [List.cons_append, slashed, slashed, ih, ← List.append_assoc]
    rfl

variable {rest : List Text} {property : Text → Prop} {segment : Text}

theorem takeWhile_segment (free : SlashFree segment) (rest : List Text) :
    (segment ++ slashed rest).takeWhile (· != '/') = segment ∧
      (segment ++ slashed rest).dropWhile (· != '/') = slashed rest := by
  have inside : ∀ c ∈ segment, (c != '/') = true := by
    intro c member
    rw [bne_iff_ne]
    rintro rfl
    exact free member
  have at_slash : (slashed rest).takeWhile (· != '/') = [] ∧
      (slashed rest).dropWhile (· != '/') = slashed rest := by
    cases rest with
    | nil => exact ⟨rfl, rfl⟩
    | cons next rest => exact ⟨rfl, rfl⟩
  rw [List.takeWhile_append_of_pos inside, List.dropWhile_append_of_pos inside, at_slash.1,
    at_slash.2, List.append_nil]
  exact ⟨rfl, rfl⟩

theorem segment_inj {left right : Text} {rest others : List Text} (left_free : SlashFree left)
    (right_free : SlashFree right) (same : left ++ slashed rest = right ++ slashed others) :
    left = right ∧ slashed rest = slashed others := by
  have taken := congrArg (List.takeWhile (· != '/')) same
  have dropped := congrArg (List.dropWhile (· != '/')) same
  rw [(takeWhile_segment left_free rest).1, (takeWhile_segment right_free others).1] at taken
  rw [(takeWhile_segment left_free rest).2, (takeWhile_segment right_free others).2] at dropped
  exact ⟨taken, dropped⟩

theorem firstSegment_slashed (free : SlashFree segment) (rest : List Text) :
    firstSegment ('/' :: (segment ++ slashed rest)) = '/' :: segment := by
  change '/' :: (segment ++ slashed rest).takeWhile (· != '/') = _
  rw [(takeWhile_segment free rest).1]

theorem firstSegment_lead {c : Char} {tail : Text} (free : SlashFree (c :: tail))
    (rest : List Text) : firstSegment (c :: tail ++ slashed rest) = c :: tail := by
  unfold firstSegment
  split
  · rename_i other same
    rw [List.cons_append] at same
    cases same
    exact absurd List.mem_cons_self free
  · exact (takeWhile_segment free rest).1

/-! ### The output as a stack -/

def Stack.All (property : Text → Prop) (stack : Stack) : Prop :=
  property stack.lead ∧ ∀ segment ∈ stack.segments, property segment

theorem Stack.All.push {stack : Stack} (all : stack.All property) (here : property segment) :
    (stack.push segment).All property := by
  refine ⟨all.1, fun other member => ?_⟩
  rcases List.mem_append.mp member with before | last
  · exact all.2 other before
  · rw [List.mem_singleton.mp last]
    exact here

theorem Stack.All.pop {stack : Stack} (all : stack.All property) (empty : property []) :
    stack.pop.All property := by
  unfold Stack.pop
  split
  · exact ⟨empty, fun segment member => absurd member List.not_mem_nil⟩
  · exact ⟨all.1, fun segment member => all.2 segment ((List.dropLast_sublist _).subset member)⟩

theorem Stack.reduce_all {segments : List Text} {stack : Stack} (all : stack.All property)
    (empty : property []) (each : ∀ segment ∈ segments, ¬ IsDot segment → property segment) :
    (stack.reduce segments).All property := by
  induction segments generalizing stack with
  | nil => exact all
  | cons segment rest ih =>
    have others : ∀ other ∈ rest, ¬ IsDot other → property other :=
      fun other member => each other (List.mem_cons_of_mem _ member)
    rw [Stack.reduce]
    split
    · split
      · exact all.push empty
      · exact ih all others
    · rename_i not_dot
      split
      · split
        · exact (all.pop empty).push empty
        · exact ih (all.pop empty) others
      · rename_i not_dots
        exact ih (all.push (each segment List.mem_cons_self fun dot => dot.elim not_dot not_dots))
          others

theorem Stack.start_all {first : Text} (empty : property [])
    (here : ¬ IsDot first → property first)
    (each : ∀ segment ∈ rest, ¬ IsDot segment → property segment) :
    (Stack.start first rest).All property := by
  induction rest generalizing first with
  | nil =>
    rw [Stack.start]
    split
    · exact ⟨empty, fun segment member => absurd member List.not_mem_nil⟩
    · rename_i not_dot
      exact ⟨here not_dot, fun segment member => absurd member List.not_mem_nil⟩
  | cons next rest ih =>
    rw [Stack.start]
    split
    · exact ih (each next List.mem_cons_self)
        fun segment member => each segment (List.mem_cons_of_mem _ member)
    · rename_i not_dot
      exact Stack.reduce_all
        ⟨here not_dot, fun segment member => absurd member List.not_mem_nil⟩ empty each

abbrev Stack.Free (stack : Stack) : Prop :=
  stack.All SlashFree

theorem slashFree_nil : SlashFree [] :=
  List.not_mem_nil

theorem upToSlash_slash {last : Text} (before : Text) (free : SlashFree last) :
    (before ++ '/' :: last).reverse.dropWhile (· != '/') = '/' :: before.reverse := by
  have inside : ∀ c ∈ last.reverse, (c != '/') = true := by
    intro c member
    rw [bne_iff_ne]
    rintro rfl
    exact free (List.mem_reverse.mp member)
  rw [List.reverse_append, List.reverse_cons, List.append_assoc,
    List.dropWhile_append_of_pos inside]
  rfl

theorem upToSlash_lead {lead : Text} (free : SlashFree lead) :
    lead.reverse.dropWhile (· != '/') = [] := by
  rw [List.dropWhile_eq_nil_iff]
  intro c member
  rw [bne_iff_ne]
  rintro rfl
  exact free (List.mem_reverse.mp member)

theorem popLastSegment_slash {last : Text} (before : Text) (free : SlashFree last) :
    popLastSegment (before ++ '/' :: last) = before := by
  unfold popLastSegment
  rw [upToSlash_slash before free]
  exact List.reverse_reverse before

theorem popLastSegment_lead {lead : Text} (free : SlashFree lead) : popLastSegment lead = [] := by
  unfold popLastSegment
  rw [upToSlash_lead free]
  rfl

theorem Stack.text_push (stack : Stack) (segment : Text) :
    (stack.push segment).text = stack.text ++ '/' :: segment := by
  unfold Stack.push Stack.text
  rw [slashed_append, slashed, slashed, List.append_nil, List.append_assoc]

theorem Stack.text_pop {stack : Stack} (free : stack.Free) :
    popLastSegment stack.text = stack.pop.text := by
  obtain ⟨lead, segments⟩ := stack
  rcases List.eq_nil_or_concat' segments with rfl | ⟨before, last, rfl⟩
  · unfold Stack.text
    rw [slashed, List.append_nil]
    exact popLastSegment_lead free.1
  · have last_free := free.2 last (List.mem_append_right _ (List.mem_singleton_self last))
    have popped : (Stack.mk lead (before ++ [last])).pop = ⟨lead, before⟩ := by
      unfold Stack.pop
      cases before with
      | nil => rfl
      | cons first others =>
        dsimp only [List.cons_append]
        rw [← List.cons_append, List.dropLast_concat]
    rw [popped]
    have whole := Stack.text_push ⟨lead, before⟩ last
    unfold Stack.push at whole
    rw [whole]
    exact popLastSegment_slash _ last_free

/-! ### One turn of the loop -/

theorem removeDotSegmentsFrom_nil (out : Text) : removeDotSegmentsFrom [] out = out := by
  rw [removeDotSegmentsFrom]

theorem stripPrefix_segment {dots segment rest : Text} {others : List Text}
    (dots_free : SlashFree dots) (free : SlashFree segment) :
    stripPrefix (dots ++ ['/']) (segment ++ slashed others) = some rest
      ↔ segment = dots ∧ slashed others = '/' :: rest := by
  rw [stripPrefix_eq_some, List.append_assoc]
  have as_segments : ['/'] ++ rest = slashed ((segmentsOf rest).1 :: (segmentsOf rest).2) := by
    rw [slashed, segmentsOf_text]
    rfl
  constructor
  · intro same
    rw [as_segments] at same
    obtain ⟨rfl, tail_eq⟩ := segment_inj free dots_free same
    rw [tail_eq, ← as_segments]
    exact ⟨rfl, rfl⟩
  · rintro ⟨rfl, tail_eq⟩
    rw [tail_eq]
    rfl

theorem stripPrefix_slash {start input : Text} :
    stripPrefix ('/' :: start) ('/' :: input) = stripPrefix start input := by
  unfold stripPrefix
  rw [List.isPrefixOf_cons_cons, beq_self_eq_true, Bool.true_and]
  rfl

theorem stripPrefix_dot_slash {start input : Text} :
    stripPrefix ('.' :: start) ('/' :: input) = none := by
  unfold stripPrefix
  rw [List.isPrefixOf_cons_cons]
  rfl

theorem segment_alone {others : List Text} (dots : Text) (dots_free : SlashFree dots)
    (free : SlashFree segment) :
    segment ++ slashed others = dots ↔ segment = dots ∧ others = [] := by
  constructor
  · intro same
    have whole : segment ++ slashed others = dots ++ slashed [] := by
      rw [same]
      exact (List.append_nil dots).symm
    obtain ⟨rfl, tail_eq⟩ := segment_inj free dots_free whole
    refine ⟨rfl, ?_⟩
    cases others with
    | nil => rfl
    | cons next rest => cases tail_eq
  · rintro ⟨rfl, rfl⟩
    exact List.append_nil segment

theorem dot_free : SlashFree ['.'] := by
  unfold SlashFree
  decide

theorem dots_free : SlashFree ['.', '.'] := by
  unfold SlashFree
  decide

theorem removeDotSegmentsFrom_slash (free : SlashFree segment) (out : Text) :
    removeDotSegmentsFrom (slashed (segment :: rest)) out =
      if segment = ['.'] then
        removeDotSegmentsFrom (if rest = [] then slashed [[]] else slashed rest) out
      else if segment = ['.', '.'] then
        removeDotSegmentsFrom (if rest = [] then slashed [[]] else slashed rest)
          (popLastSegment out)
      else removeDotSegmentsFrom (slashed rest) (out ++ '/' :: segment) := by
  have one : ∀ found, stripPrefix ['/', '.', '/'] ('/' :: (segment ++ slashed rest)) = some found
      ↔ segment = ['.'] ∧ slashed rest = '/' :: found := by
    intro found
    rw [stripPrefix_slash]
    exact stripPrefix_segment dot_free free
  have two : ∀ found, stripPrefix ['/', '.', '.', '/'] ('/' :: (segment ++ slashed rest)) = some found
      ↔ segment = ['.', '.'] ∧ slashed rest = '/' :: found := by
    intro found
    rw [stripPrefix_slash]
    exact stripPrefix_segment dots_free free
  have more : ∀ found, slashed rest = '/' :: found → rest ≠ [] := by
    rintro found same rfl
    cases same
  have exists_more : rest ≠ [] → ∃ found, slashed rest = '/' :: found := by
    intro some_rest
    cases rest with
    | nil => exact absurd rfl some_rest
    | cons next others => exact ⟨_, rfl⟩
  have distinct : ['.', '.'] ≠ ['.'] := by decide
  rw [slashed, removeDotSegmentsFrom]
  split
  · rename_i found stripped
    rw [stripPrefix_dot_slash] at stripped
    cases stripped
  · split
    · rename_i found stripped
      rw [stripPrefix_dot_slash] at stripped
      cases stripped
    · split
      · rename_i found stripped
        obtain ⟨same, tail_eq⟩ := (one found).mp stripped
        rw [if_pos same, if_neg (more found tail_eq), tail_eq]
      · rename_i not_one
        split
        · rename_i last
          obtain ⟨same, rfl⟩ := (segment_alone ['.'] dot_free free).mp (List.cons_inj_right _ |>.mp last)
          rw [if_pos same, if_pos rfl]
          rfl
        · rename_i not_last
          have not_dot : segment ≠ ['.'] := by
            rintro rfl
            by_cases none_left : rest = []
            · exact not_last (by rw [none_left]; rfl)
            · obtain ⟨found, tail_eq⟩ := exists_more none_left
              rw [(one found).mpr ⟨rfl, tail_eq⟩] at not_one
              cases not_one
          rw [if_neg not_dot]
          split
          · rename_i found stripped
            obtain ⟨same, tail_eq⟩ := (two found).mp stripped
            rw [if_pos same, if_neg (more found tail_eq), tail_eq]
          · rename_i not_two
            split
            · rename_i last
              obtain ⟨same, rfl⟩ := (segment_alone ['.', '.'] dots_free free).mp
                (List.cons_inj_right _ |>.mp last)
              rw [if_pos same, if_pos rfl]
              rfl
            · rename_i not_last_two
              have not_dots : segment ≠ ['.', '.'] := by
                rintro rfl
                by_cases none_left : rest = []
                · exact not_last_two (by rw [none_left]; rfl)
                · obtain ⟨found, tail_eq⟩ := exists_more none_left
                  rw [(two found).mpr ⟨rfl, tail_eq⟩] at not_two
                  cases not_two
              rw [if_neg not_dots, if_neg (by rintro (same | same) <;> cases same),
                firstSegment_slashed free]
              congr 1
              exact List.drop_left

theorem removeDotSegmentsFrom_lead {c : Char} {tail : Text} (free : SlashFree (c :: tail))
    (out : Text) :
    removeDotSegmentsFrom (c :: tail ++ slashed rest) out =
      if IsDot (c :: tail) then
        match rest with
        | [] => out
        | next :: others => removeDotSegmentsFrom (next ++ slashed others) out
      else removeDotSegmentsFrom (slashed rest) (out ++ (c :: tail)) := by
  have after : ∀ found, slashed rest = '/' :: found →
      removeDotSegmentsFrom found out = (match rest with
        | [] => out
        | next :: others => removeDotSegmentsFrom (next ++ slashed others) out) := by
    intro found tail_eq
    cases rest with
    | nil => cases tail_eq
    | cons next others =>
      cases tail_eq
      rfl
  have not_slash : c ≠ '/' := by
    rintro rfl
    exact free List.mem_cons_self
  have no_leading_slash : ∀ start found,
      stripPrefix ('/' :: start) (c :: (tail ++ slashed rest)) ≠ some found := by
    intro start found stripped
    exact not_slash (List.cons.inj (stripPrefix_eq_some.mp stripped)).1
  have two : ∀ found, stripPrefix ['.', '.', '/'] (c :: (tail ++ slashed rest)) = some found
      ↔ c :: tail = ['.', '.'] ∧ slashed rest = '/' :: found :=
    fun found => stripPrefix_segment dots_free free
  have one : ∀ found, stripPrefix ['.', '/'] (c :: (tail ++ slashed rest)) = some found
      ↔ c :: tail = ['.'] ∧ slashed rest = '/' :: found :=
    fun found => stripPrefix_segment dot_free free
  have exists_more : rest ≠ [] → ∃ found, slashed rest = '/' :: found := by
    intro some_rest
    cases rest with
    | nil => exact absurd rfl some_rest
    | cons next others => exact ⟨_, rfl⟩
  rw [List.cons_append, removeDotSegmentsFrom]
  split
  · rename_i found stripped
    obtain ⟨same, tail_eq⟩ := (two found).mp stripped
    rw [if_pos (show IsDot (c :: tail) from Or.inr same)]
    exact after found tail_eq
  · rename_i not_two
    split
    · rename_i found stripped
      obtain ⟨same, tail_eq⟩ := (one found).mp stripped
      rw [if_pos (show IsDot (c :: tail) from Or.inl same)]
      exact after found tail_eq
    · rename_i not_one
      split
      · rename_i found stripped
        exact absurd stripped (no_leading_slash _ _)
      · rw [dif_neg fun same => not_slash (List.cons.inj same).1]
        split
        · rename_i found stripped
          exact absurd stripped (no_leading_slash _ _)
        · rw [dif_neg fun same => not_slash (List.cons.inj same).1]
          have alone : ∀ dots, SlashFree dots →
              (c :: (tail ++ slashed rest) = dots ↔ c :: tail = dots ∧ rest = []) :=
            fun dots dots_free => segment_alone dots dots_free free
          by_cases dot : IsDot (c :: tail)
          · have none_left : rest = [] := by
              by_contra some_rest
              obtain ⟨found, tail_eq⟩ := exists_more some_rest
              rcases dot with same | same
              · exact absurd ((one found).mpr ⟨same, tail_eq⟩) (by rw [not_one]; rintro ⟨⟩)
              · exact absurd ((two found).mpr ⟨same, tail_eq⟩) (by rw [not_two]; rintro ⟨⟩)
            subst none_left
            rw [if_pos dot, if_pos (dot.imp (fun same => (alone _ dot_free).mpr ⟨same, rfl⟩)
              fun same => (alone _ dots_free).mpr ⟨same, rfl⟩)]
          · rw [if_neg dot, if_neg fun whole => dot (whole.imp
              (fun same => ((alone _ dot_free).mp same).1)
              fun same => ((alone _ dots_free).mp same).1)]
            have first := firstSegment_lead free rest
            rw [List.cons_append] at first
            rw [first]
            congr 1
            exact List.drop_left

theorem removeDotSegmentsFrom_last (stack : Stack) :
    removeDotSegmentsFrom (slashed [[]]) stack.text = (stack.push []).text := by
  rw [removeDotSegmentsFrom_slash List.not_mem_nil, if_neg (by decide), if_neg (by decide),
    Stack.text_push]
  exact removeDotSegmentsFrom_nil _

theorem removeDotSegmentsFrom_reduce {segments : List Text} {stack : Stack} (free : stack.Free)
    (segments_free : ∀ segment ∈ segments, SlashFree segment) :
    removeDotSegmentsFrom (slashed segments) stack.text = (stack.reduce segments).text := by
  induction segments generalizing stack with
  | nil => exact removeDotSegmentsFrom_nil _
  | cons segment rest ih =>
    have segment_free := segments_free segment List.mem_cons_self
    have rest_free : ∀ other ∈ rest, SlashFree other :=
      fun other member => segments_free other (List.mem_cons_of_mem _ member)
    rw [removeDotSegmentsFrom_slash segment_free, Stack.reduce]
    split
    · split
      · exact removeDotSegmentsFrom_last stack
      · exact ih free rest_free
    · split
      · rw [Stack.text_pop free]
        split
        · exact removeDotSegmentsFrom_last stack.pop
        · exact ih (free.pop slashFree_nil) rest_free
      · rw [← Stack.text_push]
        exact ih (free.push segment_free) rest_free

theorem removeDotSegmentsFrom_start {first : Text} (free : SlashFree first)
    (rest_free : ∀ segment ∈ rest, SlashFree segment) :
    removeDotSegmentsFrom (first ++ slashed rest) [] = (Stack.start first rest).text := by
  induction rest generalizing first with
  | nil =>
    rw [Stack.start]
    cases first with
    | nil =>
      rw [if_neg (by decide)]
      exact removeDotSegmentsFrom_nil _
    | cons c tail =>
      rw [removeDotSegmentsFrom_lead free]
      split
      · rfl
      · unfold Stack.text
        rw [slashed, removeDotSegmentsFrom_nil, List.append_nil]
        rfl
  | cons next rest ih =>
    have next_free := rest_free next List.mem_cons_self
    have others_free : ∀ segment ∈ rest, SlashFree segment :=
      fun segment member => rest_free segment (List.mem_cons_of_mem _ member)
    rw [Stack.start]
    cases first with
    | nil =>
      rw [if_neg (by decide)]
      have empty : Stack.Free ⟨[], []⟩ := ⟨free, fun segment member => absurd member List.not_mem_nil⟩
      exact removeDotSegmentsFrom_reduce empty rest_free
    | cons c tail =>
      rw [removeDotSegmentsFrom_lead free]
      split
      · exact ih next_free others_free
      · have lead : Stack.Free ⟨c :: tail, []⟩ :=
          ⟨free, fun segment member => absurd member List.not_mem_nil⟩
        rw [← removeDotSegmentsFrom_reduce lead rest_free]
        unfold Stack.text
        rw [slashed, List.append_nil]
        rfl

theorem removeDotSegments_eq (path : Text) :
    removeDotSegments path = (withoutDots path).text := by
  obtain ⟨free, rest_free⟩ := segmentsOf_slashFree path
  have followed := removeDotSegmentsFrom_start free rest_free
  rw [segmentsOf_text] at followed
  exact followed

/-! ### No dot segment is left -/

theorem withoutDots_free (path : Text) : (withoutDots path).Free :=
  Stack.start_all slashFree_nil (fun _ => (segmentsOf_slashFree path).1)
    fun segment member _ => (segmentsOf_slashFree path).2 segment member

theorem withoutDots_dotFree (path : Text) : (withoutDots path).All (¬ IsDot ·) :=
  Stack.start_all (by decide) id fun _ _ => id

theorem segmentsOf_slashed {first : Text} (free : SlashFree first)
    (rest_free : ∀ segment ∈ rest, SlashFree segment) :
    segmentsOf (first ++ slashed rest) = (first, rest) := by
  induction rest generalizing first with
  | nil =>
    induction first with
    | nil => rfl
    | cons c tail ih =>
      have not_slash : c ≠ '/' := fun slash => free (slash ▸ List.mem_cons_self)
      rw [List.cons_append, segmentsOf, ih fun member => free (List.mem_cons_of_mem c member)]
      exact if_neg not_slash
  | cons next rest ih =>
    have next_eq := ih (rest_free next List.mem_cons_self)
      fun segment member => rest_free segment (List.mem_cons_of_mem _ member)
    induction first with
    | nil =>
      rw [List.nil_append, slashed, segmentsOf, next_eq]
      exact if_pos rfl
    | cons c tail tail_ih =>
      have not_slash : c ≠ '/' := fun slash => free (slash ▸ List.mem_cons_self)
      rw [List.cons_append, segmentsOf, tail_ih fun member => free (List.mem_cons_of_mem c member)]
      exact if_neg not_slash

theorem Stack.reduce_of_dotFree {segments : List Text} (stack : Stack)
    (free : ∀ segment ∈ segments, ¬ IsDot segment) :
    stack.reduce segments = ⟨stack.lead, stack.segments ++ segments⟩ := by
  induction segments generalizing stack with
  | nil => rw [Stack.reduce, List.append_nil]
  | cons segment rest ih =>
    have not_dot := free segment List.mem_cons_self
    rw [Stack.reduce, if_neg fun same => not_dot (Or.inl same),
      if_neg fun same => not_dot (Or.inr same),
      ih _ fun other member => free other (List.mem_cons_of_mem _ member), Stack.push,
      List.append_assoc]
    rfl

theorem Stack.start_of_dotFree {first : Text} (not_dot : ¬ IsDot first)
    (free : ∀ segment ∈ rest, ¬ IsDot segment) : Stack.start first rest = ⟨first, rest⟩ := by
  cases rest with
  | nil => rw [Stack.start, if_neg not_dot]
  | cons next rest =>
    rw [Stack.start, if_neg not_dot]
    exact Stack.reduce_of_dotFree ⟨first, []⟩ free

theorem segmentsOf_removeDotSegments (path : Text) :
    segmentsOf (removeDotSegments path) = ((withoutDots path).lead, (withoutDots path).segments) := by
  rw [removeDotSegments_eq]
  exact segmentsOf_slashed (withoutDots_free path).1 (withoutDots_free path).2

theorem removeDotSegments_dotFree (path : Text) :
    ¬ IsDot (segmentsOf (removeDotSegments path)).1 ∧
      ∀ segment ∈ (segmentsOf (removeDotSegments path)).2, ¬ IsDot segment := by
  rw [segmentsOf_removeDotSegments]
  exact withoutDots_dotFree path

theorem removeDotSegments_idempotent (path : Text) :
    removeDotSegments (removeDotSegments path) = removeDotSegments path := by
  obtain ⟨not_dot, free⟩ := removeDotSegments_dotFree path
  have again : withoutDots (removeDotSegments path) = withoutDots path := by
    unfold withoutDots
    rw [Stack.start_of_dotFree not_dot free, segmentsOf_removeDotSegments]
    rfl
  rw [removeDotSegments_eq (removeDotSegments path), again, removeDotSegments_eq]

example : removeDotSegments "/a/b/c/./../../g".toList = "/a/g".toList := by
  rw [removeDotSegments_eq]
  decide

end Purrdf.Iri
