import Purrdf.CborDecode

/-!
# Reading CBOR heads

What one call of a reader takes from the front of the bytes that are left. A head
in its shortest form is taken for its argument, in either mode, and the
deterministic reader takes no other form.
-/

namespace Purrdf.Cbor

open CborHead (shiftIn argumentWidth)

namespace Slice

open ByteCursor

variable {source next : Slice}

theorem byte_iff {byte : UInt8} : source.byte = .ok (byte, next) ↔ Took source [byte] next := by
  unfold Slice.byte
  constructor
  · intro h
    split at h
    · next found hfound =>
        cases h
        refine ⟨rfl, ?_⟩
        obtain ⟨hlt, rfl⟩ := List.getElem?_eq_some_iff.mp hfound
        exact List.drop_eq_getElem_cons hlt
    · cases h
  · intro h
    have hhead : source.bytes[source.pos]? = some byte := by
      rw [← List.head?_drop]
      exact congrArg List.head? h.rest_eq
    rw [hhead, h.next_eq]
    rfl

theorem byte_end (h : source.rest = []) : source.byte = .error ⟨.truncated, source.pos⟩ := by
  have hnone : source.bytes[source.pos]? = none := by
    rw [← List.head?_drop]
    exact congrArg List.head? h
  rw [Slice.byte, hnone]

theorem take_iff {len : UInt64} {bytes : List UInt8} :
    source.take len = .ok (bytes, next) ↔
      Took source bytes next ∧ bytes.length = len.toNat := by
  unfold Slice.take
  rw [← List.length_drop]
  constructor
  · intro h
    split at h
    · next hfits =>
        cases h
        have hlength : (source.rest.take len.toNat).length = len.toNat :=
          List.length_take_of_le hfits
        refine ⟨⟨?_, ?_⟩, hlength⟩
        · exact congrArg (fun count => ByteCursor.mk source.bytes (source.pos + count)) hlength.symm
        · have hsplit := (List.take_append_drop len.toNat source.rest).symm
          rwa [← rest_advance] at hsplit
    · cases h
  · intro ⟨h, hlength⟩
    have hfits : len.toNat ≤ (source.bytes.drop source.pos).length := by
      change len.toNat ≤ source.rest.length
      rw [h.rest_eq, List.length_append, hlength]
      exact Nat.le_add_right _ _
    have hfront : source.rest.take len.toNat = bytes := by
      rw [h.rest_eq, ← hlength, List.take_left]
    rw [if_pos hfits, h.next_eq, hlength]
    exact congrArg (fun front => Except.ok (front, source.advance len.toNat)) hfront

end Slice

open ByteCursor Slice

variable {source next : Slice} {limits : Limits} {deterministic : Bool} {start : Nat}

theorem argumentBytes_iff {width : Nat} {value result : UInt64} :
    argumentBytes width value source = .ok (result, next) ↔
      ∃ taken, Took source taken next ∧ taken.length = width ∧
        taken.foldl shiftIn value = result := by
  induction width generalizing value source with
  | zero =>
    constructor
    · intro h
      cases h
      exact ⟨[], .nil _, rfl, rfl⟩
    · intro ⟨taken, htook, hlength, hvalue⟩
      rw [List.length_eq_zero_iff] at hlength
      subst hlength hvalue
      rw [htook.next_eq]
      rfl
  | succ width ih =>
    constructor
    · intro h
      rw [argumentBytes] at h
      split at h
      · next byte middle hbyte =>
          obtain ⟨taken, htook, hlength, hvalue⟩ := ih.mp h
          exact ⟨byte :: taken, (byte_iff.mp hbyte).trans htook, by simp [hlength], hvalue⟩
      · cases h
    · intro ⟨taken, htook, hlength, hvalue⟩
      obtain ⟨byte, taken, rfl⟩ := List.exists_cons_of_length_eq_add_one hlength
      have hsplit : source.rest = [byte] ++ (taken ++ next.rest) := htook.rest_eq
      obtain ⟨hfirst, hrest⟩ := took_advance hsplit
      have hnext : Took (source.advance 1) taken next := by
        refine ⟨?_, hrest⟩
        rw [htook.next_eq]
        simp [advance, Nat.add_assoc, Nat.add_comm 1]
      rw [argumentBytes, byte_iff.mpr hfirst]
      exact ih.mpr ⟨taken, hnext, Nat.succ_inj.mp hlength, hvalue⟩

/-! ### Heads in their shortest form -/

theorem initial_join (initial : UInt8) : (initial >>> 5) <<< 5 ||| (initial &&& 31) = initial := by
  have h : ∀ byte : Fin 256, (UInt8.ofNat byte.val >>> 5) <<< 5 ||| (UInt8.ofNat byte.val &&& 31) =
      UInt8.ofNat byte.val := by decide +kernel
  simpa using h ⟨initial.toNat, initial.toNat_lt⟩

theorem argumentWidth_cases {info : UInt8} {width : Nat} (h : argumentWidth info = some width) :
    (info = 24 ∧ width = 1) ∨ (info = 25 ∧ width = 2) ∨ (info = 26 ∧ width = 4) ∨
      (info = 27 ∧ width = 8) := by
  unfold CborHead.argumentWidth at h
  grind

theorem beBytes_one (value : UInt64) : beBytes 1 value.toNat = [value.toUInt8] := by
  simp only [beBytes, leBytes, List.reverse_cons, List.reverse_nil, List.nil_append]
  congr 1

variable {stack : List Open} {value : UInt64}

theorem encode_wide {info : UInt8} {width : Nat} (hwidth : argumentWidth info = some width)
    (hshortest : shortest width value = true) (hfit : value.toNat < 256 ^ width) (major : UInt8) :
    CborHead.encode major value = (major <<< 5 ||| info) :: beBytes width value.toNat := by
  unfold CborHead.encode
  rcases argumentWidth_cases hwidth with ⟨rfl, rfl⟩ | ⟨rfl, rfl⟩ | ⟨rfl, rfl⟩ | ⟨rfl, rfl⟩ <;>
    simp only [shortest, decide_eq_true_eq, UInt64.le_iff_toNat_le, UInt64.lt_iff_toNat_lt]
      at hshortest ⊢ <;>
    simp only [UInt64.reduceToNat, Nat.reducePow] at hshortest hfit ⊢
  · rw [if_neg (by omega), if_pos (by omega), beBytes_one]
  · rw [if_neg (by omega), if_neg (by omega), if_pos (by omega), beBytes_drop 2 6]
  · rw [if_neg (by omega), if_neg (by omega), if_neg (by omega), if_pos (by omega),
      beBytes_drop 4 4]
  · rw [if_neg (by omega), if_neg (by omega), if_neg (by omega), if_neg (by omega)]

theorem shortest_cases (value : UInt64) :
    value < 24 ∨ ∃ info width, argumentWidth info = some width ∧ shortest width value = true ∧
      value.toNat < 256 ^ width := by
  have h64 : value.toNat < 2 ^ 64 := value.toNat_lt
  by_cases h24 : value.toNat < 24
  · exact .inl (UInt64.lt_iff_toNat_lt.mpr h24)
  right
  by_cases hff : value.toNat < 256
  · refine ⟨24, 1, rfl, ?_, hff⟩
    simp [shortest, UInt64.le_iff_toNat_le]
    omega
  by_cases hffff : value.toNat < 256 ^ 2
  · refine ⟨25, 2, rfl, ?_, hffff⟩
    simp [shortest, UInt64.lt_iff_toNat_lt]
    omega
  by_cases hffffffff : value.toNat < 256 ^ 4
  · refine ⟨26, 4, rfl, ?_, hffffffff⟩
    simp [shortest, UInt64.lt_iff_toNat_lt]
    omega
  · refine ⟨27, 8, rfl, ?_, h64⟩
    simp [shortest, UInt64.lt_iff_toNat_lt]
    omega

theorem encode_short (major : UInt8) (h : value < 24) :
    CborHead.encode major value = [major <<< 5 ||| value.toUInt8] := by
  simp [CborHead.encode, h]

/-! ### Arguments -/

/-- The bytes after an initial byte, and the length or argument they give. -/
inductive Spells (initial : UInt8) : List UInt8 → Option UInt64 → Prop
  | short (h : initial &&& 31 ≤ 23) : Spells initial [] (some (initial &&& 31).toUInt64)
  | indefinite (h : initial &&& 31 = 31) : Spells initial [] none
  | wide {width tail} (h : argumentWidth (initial &&& 31) = some width)
      (hlength : tail.length = width) : Spells initial tail (some (tail.foldl shiftIn 0))

theorem foldl_beBytes {width : Nat} (hfit : value.toNat < 256 ^ width) :
    (beBytes width value.toNat).foldl shiftIn 0 = value := by
  have hvalue : beValue (beBytes width value.toNat) = value.toNat := beValue_beBytes_of_lt hfit
  apply UInt64.toNat_inj.mp
  rw [CborHead.foldl_shiftIn _ _ (by rw [hvalue]; simpa using value.toNat_lt), hvalue]
  simp

theorem beBytes_foldl {tail : List UInt8} (h : tail.length ≤ 8) :
    (tail.foldl shiftIn 0).toNat < 256 ^ tail.length ∧
      beBytes tail.length (tail.foldl shiftIn 0).toNat = tail := by
  have hlt : beValue tail < 256 ^ tail.length := by
    simpa [beValue] using leValue_lt tail.reverse
  have hpow : 256 ^ tail.length ≤ 2 ^ 64 :=
    Nat.pow_le_pow_right (n := 256) (by decide) h
  have hfold : (tail.foldl shiftIn 0).toNat = beValue tail := by
    rw [CborHead.foldl_shiftIn _ _ (by simp; omega)]
    simp
  rw [hfold]
  refine ⟨hlt, ?_⟩
  have hback := leBytes_leValue tail.reverse
  rw [List.length_reverse] at hback
  rw [beBytes, beValue, hback, List.reverse_reverse]

theorem argument_ok {initial : UInt8} {length : Option UInt64}
    (h : argument source initial start deterministic = .ok (length, next)) :
    ∃ tail, Took source tail next ∧ Spells initial tail length ∧
      (deterministic = true → initial >>> 5 ≠ 7 →
        length = none ∨ ∃ value, length = some value ∧
          initial :: tail = CborHead.encode (initial >>> 5) value) := by
  have hjoin := initial_join initial
  unfold argument at h
  dsimp only at h
  split at h
  · next hshort =>
      cases h
      refine ⟨[], .nil _, .short hshort, fun _ _ => .inr ⟨_, rfl, ?_⟩⟩
      have hlt : (initial &&& 31).toUInt64 < 24 := by
        rw [UInt64.lt_iff_toNat_lt, UInt8.toNat_toUInt64]
        exact Nat.lt_succ_of_le (UInt8.le_iff_toNat_le.mp hshort)
      rw [encode_short _ hlt, UInt8.toUInt8_toUInt64, hjoin]
  split at h
  · next hshort hindefinite =>
      cases h
      exact ⟨[], .nil _, .indefinite hindefinite, fun _ _ => .inl rfl⟩
  split at h
  · cases h
  · next width hwidth =>
      split at h
      · cases h
      · next value middle hbytes =>
          obtain ⟨tail, htook, hlength, hvalue⟩ := argumentBytes_iff.mp hbytes
          split at h
          · cases h
          · next hform =>
              cases h
              subst hvalue
              refine ⟨tail, htook, .wide hwidth hlength, fun hdet hmajor => .inr ⟨_, rfl, ?_⟩⟩
              have hbound : tail.length ≤ 8 := by
                have := argumentWidth_cases hwidth
                omega
              have hshortest : shortest width (tail.foldl shiftIn 0) = true := by
                simpa [hdet, hmajor] using hform
              obtain ⟨hfit, hback⟩ := beBytes_foldl hbound
              rw [hlength] at hfit hback
              rw [encode_wide hwidth hshortest hfit, hjoin, hback]

theorem argument_wide {initial : UInt8} {width : Nat}
    (hwidth : argumentWidth (initial &&& 31) = some width) (hfit : value.toNat < 256 ^ width)
    (hform : initial >>> 5 = 7 ∨ shortest width value = true)
    (htook : Took source (beBytes width value.toNat) next) :
    argument source initial start deterministic = .ok (some value, next) := by
  have hlong : ¬ initial &&& 31 ≤ 23 ∧ initial &&& 31 ≠ 31 := by
    rcases argumentWidth_cases hwidth with h | h | h | h <;> rw [h.1] <;> decide
  have hbytes : argumentBytes width 0 source = .ok (value, next) :=
    argumentBytes_iff.mpr ⟨_, htook, beBytes_length _ _, foldl_beBytes hfit⟩
  have haccept : (deterministic && initial >>> 5 != 7 && !shortest width value) = false := by
    rcases hform with h | h <;> simp [h]
  simp only [argument, if_neg hlong.1, if_neg hlong.2, hwidth, hbytes, haccept]
  rfl

theorem argument_encode {major initial : UInt8} {tail : List UInt8} (hmajor : major < 8)
    (hencode : CborHead.encode major value = initial :: tail) (htook : Took source tail next) :
    initial >>> 5 = major ∧ argument source initial start deterministic = .ok (some value, next) := by
  rcases shortest_cases value with h24 | ⟨info, width, hwidth, hshortest, hfit⟩
  · rw [encode_short _ h24] at hencode
    obtain ⟨rfl, rfl⟩ := List.cons.inj hencode
    have hnat : value.toNat < 24 := UInt64.lt_iff_toNat_lt.mp h24
    have hbyte : value.toUInt8.toNat = value.toNat := by
      rw [UInt64.toNat_toUInt8]; omega
    have hinfo : value.toUInt8 < 32 := by
      rw [UInt8.lt_iff_toNat_lt, hbyte]; exact Nat.lt_trans hnat (by decide)
    have hsmall : value.toUInt8 ≤ 23 := by
      rw [UInt8.le_iff_toNat_le, hbyte]; exact Nat.le_of_lt_succ hnat
    have hback : value.toUInt8.toUInt64 = value := by
      apply UInt64.toNat_inj.mp
      rw [UInt8.toNat_toUInt64, hbyte]
    refine ⟨CborHead.initial_major hmajor hinfo, ?_⟩
    rw [argument, CborHead.initial_info hmajor hinfo]
    simp only [if_pos hsmall, hback, htook.next_eq]
    rfl
  · rw [encode_wide hwidth hshortest hfit] at hencode
    obtain ⟨rfl, rfl⟩ := List.cons.inj hencode
    have hinfo : info < 32 := by
      rcases argumentWidth_cases hwidth with h | h | h | h <;> rw [h.1] <;> decide
    refine ⟨CborHead.initial_major hmajor hinfo, ?_⟩
    apply argument_wide _ hfit (.inr hshortest) htook
    rwa [CborHead.initial_info hmajor hinfo]

/-! ### Strings -/

theorem fromUtf8_encode (text : List Char) : fromUtf8 (Utf8.encode text) = some text := by
  rw [fromUtf8, Utf8.decode_encode, if_pos rfl]

theorem encode_of_fromUtf8 {bytes : List UInt8} {text : List Char}
    (h : fromUtf8 bytes = some text) : Utf8.encode text = bytes := by
  unfold fromUtf8 at h
  split at h
  · next hsame =>
      cases h
      exact hsame
  · cases h

theorem nextStringChunk_took {major : UInt8} {chunk : Option (UInt64 × Nat)}
    (h : nextStringChunk source major = .ok (chunk, next)) : ∃ taken, Took source taken next := by
  unfold nextStringChunk at h
  dsimp only at h
  split at h
  · cases h
  · next initial middle hbyte =>
      have hfirst := byte_iff.mp hbyte
      split at h
      · cases h
        exact ⟨_, hfirst⟩
      split at h
      · cases h
      split at h
      · cases h
      · cases h
      · next length after hargument =>
          cases h
          obtain ⟨tail, htook, _⟩ := argument_ok hargument
          exact ⟨_, hfirst.trans htook⟩

theorem stringChunks_took {major : UInt8} {left : Nat} {bytes result : List UInt8}
    (h : stringChunks major left bytes source = .ok (result, next)) :
    ∃ taken, Took source taken next := by
  induction left generalizing bytes source with
  | zero => cases h
  | succ left ih =>
    rw [stringChunks] at h
    split at h
    · cases h
    · next hchunk =>
        cases h
        exact nextStringChunk_took hchunk
    · next length start middle hchunk =>
        obtain ⟨head, hhead⟩ := nextStringChunk_took hchunk
        split at h
        · cases h
        · next chunk after htake =>
            split at h
            · cases h
            · obtain ⟨tail, htail⟩ := ih h
              exact ⟨_, (hhead.trans (take_iff.mp htake).1).trans htail⟩

theorem stringValue_took {major : UInt8} {length : Option UInt64} {value : Value}
    (h : stringValue source major length deterministic start = .ok (value, next)) :
    ∃ taken, Took source taken next := by
  have hbytes : ∀ bytes after,
      stringBytes source major length deterministic start = .ok (bytes, after) →
      ∃ taken, Took source taken after := by
    intro bytes after hread
    unfold stringBytes at hread
    split at hread
    · exact ⟨_, (take_iff.mp hread).1⟩
    · split at hread
      · cases hread
      · exact stringChunks_took hread
  unfold stringValue at h
  split at h
  · cases h
  · next bytes after hread =>
      obtain ⟨taken, htook⟩ := hbytes bytes after hread
      split at h
      · cases h
        exact ⟨taken, htook⟩
      · split at h
        · cases h
          exact ⟨taken, htook⟩
        · cases h

/-! ### Turns -/

def Progress.after : Progress → Slice
  | .item _ _ _ left => left
  | .opened _ left => left

theorem closeIndefinite_after {progress : Progress}
    (h : closeIndefinite stack source start = .ok progress) : progress.after = source := by
  unfold closeIndefinite at h
  split at h
  · cases h
    rfl
  · cases h
    rfl
  · cases h

theorem readBody_took {initial : UInt8} {length : Option UInt64} {progress : Progress}
    (h : readBody limits deterministic stack source initial length start = .ok progress) :
    ∃ taken, Took source taken progress.after := by
  unfold readBody at h
  dsimp only at h
  have hstring : ∀ value after,
      stringValue source (initial >>> 5) length deterministic start = .ok (value, after) →
      ∃ taken, Took source taken after := fun _ _ hread => stringValue_took hread
  repeat' split at h
  all_goals first
    | cases h; done
    | cases h; exact ⟨[], .nil _⟩
    | cases h; exact hstring _ _ ‹_›

theorem readItem_took {progress : Progress}
    (h : readItem limits deterministic stack source = .ok progress) :
    ∃ byte taken, Took source (byte :: taken) progress.after := by
  unfold readItem at h
  dsimp only at h
  split at h
  · cases h
  · next initial middle hbyte =>
      have hfirst := byte_iff.mp hbyte
      split at h
      · rw [closeIndefinite_after h]
        exact ⟨initial, [], hfirst⟩
      split at h
      · cases h
      · next length after hargument =>
          obtain ⟨tail, htail, _⟩ := argument_ok hargument
          obtain ⟨body, hbody⟩ := readBody_took h
          exact ⟨initial, tail ++ body, hfirst.trans (htail.trans hbody)⟩

theorem turn_took {stack stack' : List Open} {done : Option Value}
    (h : turn limits deterministic stack source = .ok (done, stack', next)) :
    ∃ byte taken, Took source (byte :: taken) next := by
  unfold turn at h
  split at h
  · cases h
  · next stack after hread =>
      cases h
      exact readItem_took hread
  · next value start stack after hread =>
      split at h
      · cases h
      · cases h
        exact readItem_took hread

def decodeFrom (limits : Limits) (deterministic : Bool) (stack : List Open) (source : Slice) :
    Except DecodeError (Value × Slice) :=
  decodeLoop limits deterministic source.rest.length stack source

theorem turn_end (h : source.rest = []) :
    turn limits deterministic stack source = .error ⟨.truncated, source.pos⟩ := by
  simp [turn, readItem, byte_end h]

theorem decodeLoop_end (h : source.rest = []) (left : Nat) :
    decodeLoop limits deterministic left stack source = .error ⟨.truncated, source.pos⟩ := by
  cases left with
  | zero => rfl
  | succ left => rw [decodeLoop, turn_end h]

theorem decodeLoop_enough {left right : Nat} (hleft : source.rest.length ≤ left)
    (hright : source.rest.length ≤ right) :
    decodeLoop limits deterministic left stack source =
      decodeLoop limits deterministic right stack source := by
  induction left generalizing right stack source with
  | zero =>
    have hrest := List.eq_nil_of_length_eq_zero (Nat.le_zero.mp hleft)
    rw [decodeLoop_end hrest, decodeLoop_end hrest]
  | succ left ih =>
    cases right with
    | zero =>
      have hrest := List.eq_nil_of_length_eq_zero (Nat.le_zero.mp hright)
      rw [decodeLoop_end hrest, decodeLoop_end hrest]
    | succ right =>
      rw [decodeLoop, decodeLoop]
      split
      · rfl
      · rfl
      · next stack' after hturn =>
          obtain ⟨byte, taken, htook⟩ := turn_took hturn
          have hlength := htook.length_rest
          rw [List.length_cons] at hlength
          exact ih (by omega) (by omega)

theorem decodeFrom_eq (stack : List Open) (source : Slice) :
    decodeFrom limits deterministic stack source =
      match turn limits deterministic stack source with
      | .error refusal => .error refusal
      | .ok (some value, _, after) => .ok (value, after)
      | .ok (none, stack', after) => decodeFrom limits deterministic stack' after := by
  unfold decodeFrom
  cases hrest : source.rest with
  | nil => rw [turn_end hrest]; rfl
  | cons first more =>
    rw [List.length_cons, decodeLoop]
    cases hturn : turn limits deterministic stack source with
    | error refusal => rfl
    | ok result =>
      obtain ⟨done, stack', after⟩ := result
      obtain ⟨byte, taken, htook⟩ := turn_took hturn
      have hlength := htook.length_rest
      rw [hrest, List.length_cons, List.length_cons] at hlength
      cases done with
      | some value => rfl
      | none => exact decodeLoop_enough (by omega) le_rfl

theorem decodeItem_eq (bytes : List UInt8) :
    decodeItem ⟨bytes, 0⟩ limits deterministic = decodeFrom limits deterministic [] ⟨bytes, 0⟩ :=
  rfl

end Purrdf.Cbor
