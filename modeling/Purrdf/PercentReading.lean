import Purrdf.Utf8Decoding

/-!
# Percent-encoding

The encoder over the sets the specifications define, the strict decoder and its form that works
in place, and normalization. Texts are given by their UTF-8 bytes.
-/

namespace Purrdf.Percent

def nibble (byte : UInt8) : Option UInt8 :=
  let decimal := byte - 0x30
  let letter := (byte ||| 0x20) - 0x61
  if decimal < 10 then some decimal else if letter < 6 then some (letter + 10) else none

def digit (n : UInt8) : UInt8 :=
  n + 0x30 + if 9 < n then 7 else 0

/-! ### Classes of bytes -/

def percent : UInt8 := 0x25

def isAlphanumeric (byte : UInt8) : Bool :=
  (0x30 ≤ byte && byte ≤ 0x39) || (0x41 ≤ byte && byte ≤ 0x5A) || (0x61 ≤ byte && byte ≤ 0x7A)

/-- `- . _ ~` beside the alphanumeric bytes. -/
def isUnreserved (byte : UInt8) : Bool :=
  isAlphanumeric byte || [0x2D, 0x2E, 0x5F, 0x7E].contains byte

/-- `! $ & ' ( ) * + , ; =` -/
def isSubDelim (byte : UInt8) : Bool :=
  [0x21, 0x24, 0x26, 0x27, 0x28, 0x29, 0x2A, 0x2B, 0x2C, 0x3B, 0x3D].contains byte

/-- `: / ? # [ ] @` -/
def isGenDelim (byte : UInt8) : Bool :=
  [0x3A, 0x2F, 0x3F, 0x23, 0x5B, 0x5D, 0x40].contains byte

abbrev EncodeSet := UInt8 → Bool

def unreserved : EncodeSet := isUnreserved

def unreservedSlash : EncodeSet := fun byte => isUnreserved byte || byte == 0x2F

def regName : EncodeSet := fun byte => isUnreserved byte || isSubDelim byte

def path : EncodeSet := fun byte =>
  isUnreserved byte || isSubDelim byte || [0x3A, 0x40, 0x2F].contains byte

def fragment : EncodeSet := fun byte =>
  isUnreserved byte || isSubDelim byte || [0x3A, 0x40, 0x2F, 0x3F].contains byte

def uriTemplateReserved : EncodeSet := fun byte =>
  isUnreserved byte || isSubDelim byte || isGenDelim byte || byte == percent

def nonAscii : EncodeSet := fun byte => byte < 0x80

def predefined : List EncodeSet :=
  [unreserved, unreservedSlash, regName, path, fragment, uriTemplateReserved, nonAscii]

def EncodeSet.first (set : EncodeSet) (bytes : List UInt8) : Option Nat :=
  bytes.findIdx? fun byte => !set byte

def isCharBoundary (bytes : List UInt8) (position : Nat) : Bool :=
  match bytes[position]? with
  | none => position == bytes.length
  | some byte => position == 0 || byte < 0x80 || 0xC0 ≤ byte

/-- A slice of a text. A cut inside a scalar value has none. -/
def slice (bytes : List UInt8) (start stop : Nat) : Option (List UInt8) :=
  if start ≤ stop ∧ isCharBoundary bytes start ∧ isCharBoundary bytes stop then
    some ((bytes.take stop).drop start)
  else none

def triplet (byte : UInt8) : List UInt8 :=
  [percent, digit (byte >>> 4), digit (byte &&& 0x0F)]

def runBetween (bytes : List UInt8) (runStart hit : Nat) : Option (List UInt8) :=
  if runStart < hit then slice bytes runStart hit else some []

/-- Encode from the stop at `hit`. Running out of turns counts as a panic. -/
def pushEncodedFrom (bytes : List UInt8) (set : EncodeSet) :
    Nat → Nat → Nat → List UInt8 → Option (List UInt8)
  | 0, _, _, _ => none
  | turns + 1, runStart, hit, out => do
      let run ← runBetween bytes runStart hit
      let byte ← bytes[hit]?
      match set.first (bytes.drop (hit + 1)) with
      | some offset =>
        pushEncodedFrom bytes set turns (hit + 1) (hit + 1 + offset) (out ++ run ++ triplet byte)
      | none =>
        let rest ← slice bytes (hit + 1) bytes.length
        some (out ++ run ++ triplet byte ++ rest)

def encode (bytes : List UInt8) (set : EncodeSet) : Option (List UInt8) :=
  match set.first bytes with
  | none => some bytes
  | some first => pushEncodedFrom bytes set bytes.length 0 first []

/-! ### Decoding -/

/-- Why decoding refused its input. -/
inductive PercentError where
  | malformed (offset : Nat)
  | notUtf8 (validUpTo : Nat)
deriving DecidableEq, Repr

def tripletAt (bytes : List UInt8) (position : Nat) : Option UInt8 := do
  let high ← bytes[position + 1]?.bind nibble
  let low ← bytes[position + 2]?.bind nibble
  some (high <<< 4 ||| low)

def decodeByte (plusIsSpace : Bool) (bytes : List UInt8) (position : Nat) (byte : UInt8) :
    Except PercentError (UInt8 × Nat) :=
  if byte = percent then
    match tripletAt bytes position with
    | none => .error (.malformed position)
    | some octet => .ok (octet, position + 3)
  else if plusIsSpace ∧ byte = 0x2B then .ok (0x20, position + 1)
  else .ok (byte, position + 1)

/-- Decode within the buffer, from one position to another: the buffer and how much of it is
decoded. A write outside the buffer, or running out of turns, counts as a panic. -/
def decodeBytes (plusIsSpace : Bool) :
    Nat → List UInt8 → Nat → Nat → Option (Except PercentError (List UInt8 × Nat))
  | 0, _, _, _ => none
  | turns + 1, bytes, position, written =>
    match bytes[position]? with
    | none => some (.ok (bytes, written))
    | some byte =>
      match decodeByte plusIsSpace bytes position byte with
      | .error error => some (.error error)
      | .ok (byte, next) =>
        if written < bytes.length then
          decodeBytes plusIsSpace turns (bytes.set written byte) next (written + 1)
        else none

def fromUtf8 (bytes : List UInt8) : Except PercentError (List UInt8) :=
  if Utf8.encode (Utf8.decode bytes) = bytes then .ok bytes
  else .error (.notUtf8 (Utf8.encode (Utf8.decode bytes)).length)

def decodeWith (plusIsSpace : Bool) (bytes : List UInt8) :
    Option (Except PercentError (List UInt8)) :=
  if bytes.any fun byte => byte == percent || (plusIsSpace && byte == 0x2B) then
    (decodeBytes plusIsSpace (bytes.length + 1) bytes 0 0).map fun decoded =>
      decoded.bind fun (out, length) => fromUtf8 (out.take length)
  else some (.ok bytes)

def decode (bytes : List UInt8) : Option (Except PercentError (List UInt8)) :=
  decodeWith false bytes

def decodeForm (bytes : List UInt8) : Option (Except PercentError (List UInt8)) :=
  decodeWith true bytes

def decodeInPlace (bytes : List UInt8) : Option (Except PercentError (List UInt8 × Nat)) :=
  (decodeBytes false (bytes.length + 1) bytes 0 0).map fun decoded =>
    decoded.bind fun (out, written) => (fromUtf8 (out.take written)).map fun _ => (out, written)

/-- Normalize from `at`, with everything before `copied` written. Running out of turns counts as a
panic. -/
def normalizeFrom (bytes : List UInt8) : Nat → Nat → Nat → List UInt8 → Option (List UInt8)
  | 0, _, _, _ => none
  | turns + 1, position, copied, out =>
    match bytes[position]? with
    | none => do
        let rest ← slice bytes copied bytes.length
        some (out ++ rest)
    | some byte =>
      match if byte = percent then tripletAt bytes position else none with
      | some octet => do
          let run ← slice bytes copied position
          let written :=
            if isUnreserved octet then Utf8.encode [Utf8.asciiChar octet] else triplet octet
          normalizeFrom bytes turns (position + 3) (position + 3) (out ++ run ++ written)
      | none => normalizeFrom bytes turns (position + 1) copied out

def normalize (bytes : List UInt8) : Option (List UInt8) :=
  match bytes.findIdx? (· == percent) with
  | none => some bytes
  | some first => do
      let out ← slice bytes 0 first
      normalizeFrom bytes (bytes.length + 1) first first out

example : normalize [0x25, 0x37, 0x65, 0x25, 0x32, 0x66] = some [0x7E, 0x25, 0x32, 0x46] := by
  decide

end Purrdf.Percent

/-!
## Texts with triplets

A text read from the front: a `%` opens a triplet or stands alone, and any other byte is itself.
Decoding and normalization write each triplet anew and copy the rest.
-/

namespace Purrdf.Percent

open Utf8

/-! ### Digits and triplets -/

def octetOf (high low : UInt8) : Option UInt8 := do
  let high ← nibble high
  let low ← nibble low
  some (high <<< 4 ||| low)

theorem forall_byte_iff {p : UInt8 → Prop} :
    (∀ n : Fin 256, p (UInt8.ofNat n.val)) ↔ ∀ byte, p byte := by
  refine ⟨fun hall byte => ?_, fun hall n => hall _⟩
  have hbyte := hall ⟨byte.toNat, byte.toNat_lt⟩
  rwa [UInt8.ofNat_toNat] at hbyte

instance decidableForallByte {p : UInt8 → Prop} [DecidablePred p] : Decidable (∀ byte, p byte) :=
  decidable_of_iff _ forall_byte_iff

theorem nibble_ascii : ∀ byte, (nibble byte).isSome → byte < 0x80 ∧ byte ≠ percent := by
  decide +kernel

theorem octetOf_digits : ∀ byte : UInt8,
    octetOf (digit (byte >>> 4)) (digit (byte &&& 0x0F)) = some byte := by
  decide +kernel

theorem digits_ascii : ∀ byte : UInt8,
    digit (byte >>> 4) < 0x80 ∧ digit (byte &&& 0x0F) < 0x80 := by
  decide +kernel

theorem unreserved_ascii : ∀ byte, isUnreserved byte → byte < 0x80 ∧ byte ≠ percent := by
  decide +kernel

theorem octetOf_ascii {high low octet : UInt8} (hoctet : octetOf high low = some octet) :
    (high < 0x80 ∧ high ≠ percent) ∧ low < 0x80 ∧ low ≠ percent := by
  unfold octetOf at hoctet
  simp only [Option.bind_eq_bind, Option.bind_eq_some_iff] at hoctet
  obtain ⟨_, hhigh, _, hlow, _⟩ := hoctet
  exact ⟨nibble_ascii high (by simp [hhigh]), nibble_ascii low (by simp [hlow])⟩

theorem tripletAt_drop (bytes : List UInt8) (position : Nat) :
    tripletAt bytes position = tripletAt (bytes.drop position) 0 := by
  simp [tripletAt]

@[simp] theorem tripletAt_cons (byte high low : UInt8) (after : List UInt8) :
    tripletAt (byte :: high :: low :: after) 0 = octetOf high low :=
  rfl

theorem tripletAt_some {byte octet : UInt8} {rest : List UInt8}
    (hoctet : tripletAt (byte :: rest) 0 = some octet) :
    ∃ high low after, rest = high :: low :: after ∧ octetOf high low = some octet := by
  match rest, hoctet with
  | [], hoctet => exact absurd hoctet (by simp [tripletAt])
  | [high], hoctet => exact absurd hoctet (by simp [tripletAt])
  | high :: low :: after, hoctet => exact ⟨high, low, after, rfl, hoctet⟩

/-! ### Reading a text -/

theorem reading {motive : List UInt8 → Prop} (nil : motive [])
    (plain : ∀ byte rest, byte ≠ percent → motive rest → motive (byte :: rest))
    (stray : ∀ rest, tripletAt (percent :: rest) 0 = none → motive rest →
      motive (percent :: rest))
    (triplet : ∀ high low octet after, octetOf high low = some octet → motive after →
      motive (percent :: high :: low :: after))
    (bytes : List UInt8) : motive bytes := by
  match bytes with
  | [] => exact nil
  | byte :: rest =>
    by_cases hbyte : byte = percent
    · subst hbyte
      cases hoctet : tripletAt (percent :: rest) 0 with
      | none => exact stray rest hoctet (reading nil plain stray triplet rest)
      | some octet =>
        obtain ⟨high, low, after, rfl, hdigits⟩ := tripletAt_some hoctet
        exact triplet high low octet after hdigits (reading nil plain stray triplet after)
    · exact plain byte rest hbyte (reading nil plain stray triplet rest)
termination_by bytes.length

def rewrite (write : UInt8 → List UInt8) : List UInt8 → List UInt8
  | [] => []
  | byte :: rest =>
    match if byte = percent then tripletAt (byte :: rest) 0 else none with
    | some octet => write octet ++ rewrite write (rest.drop 2)
    | none => byte :: rewrite write rest
termination_by bytes => bytes.length
decreasing_by all_goals simp <;> omega

section Rewrite

variable (write : UInt8 → List UInt8)

@[simp] theorem rewrite_nil : rewrite write [] = [] := by
  simp [rewrite]

@[simp] theorem rewrite_plain {byte : UInt8} (hbyte : byte ≠ percent) (rest : List UInt8) :
    rewrite write (byte :: rest) = byte :: rewrite write rest := by
  simp [rewrite, hbyte]

@[simp] theorem rewrite_stray {rest : List UInt8}
    (hstray : tripletAt (percent :: rest) 0 = none) :
    rewrite write (percent :: rest) = percent :: rewrite write rest := by
  simp [rewrite, hstray]

@[simp] theorem rewrite_triplet {high low octet : UInt8} (hoctet : octetOf high low = some octet)
    (after : List UInt8) :
    rewrite write (percent :: high :: low :: after) = write octet ++ rewrite write after := by
  simp [rewrite, hoctet]

theorem rewrite_isUtf8 (hwrite : ∀ octet, IsUtf8 (write octet)) {bytes : List UInt8}
    (hvalid : IsUtf8 bytes) : IsUtf8 (rewrite write bytes) := by
  suffices hgeneral : ∀ before, IsUtf8 (before ++ bytes) →
      IsUtf8 (before ++ rewrite write bytes) by
    exact hgeneral [] hvalid
  clear hvalid
  induction bytes using reading with
  | nil => simp
  | plain byte rest hbyte ih =>
    intro before hvalid
    have hwhole : IsUtf8 ((before ++ [byte]) ++ rest) := by simpa using hvalid
    simpa [hbyte] using ih (before ++ [byte]) hwhole
  | stray rest hstray ih =>
    intro before hvalid
    have hwhole : IsUtf8 ((before ++ [percent]) ++ rest) := by simpa using hvalid
    simpa [hstray] using ih (before ++ [percent]) hwhole
  | triplet high low octet after hoctet ih =>
    intro before hvalid
    have hascii := octetOf_ascii hoctet
    obtain ⟨hbefore, hrest⟩ := hvalid.cut (by decide)
    have hopen : IsUtf8 [percent, high, low] :=
      (isUtf8_ascii (by decide)).append
        ((isUtf8_ascii hascii.1.1).append (isUtf8_ascii hascii.2.1))
    have hwhole : IsUtf8 ([percent, high, low] ++ after) := hrest
    have hafter : IsUtf8 after := hwhole.rest hopen
    rw [rewrite_triplet write hoctet]
    exact hbefore.append ((hwrite octet).append (ih [] hafter))

end Rewrite

/-! ### What holds of every `%` of a text -/

/-- The property holds of what follows each `%`. -/
def AtPercents (p : List UInt8 → Prop) (bytes : List UInt8) : Prop :=
  ∀ rest, percent :: rest <:+ bytes → p rest

section AtPercents

variable {p : List UInt8 → Prop}

theorem atPercents_nil : AtPercents p [] := by
  intro rest hrest
  exact absurd hrest (by simp)

theorem atPercents_plain {byte : UInt8} {rest : List UInt8} (hbyte : byte ≠ percent) :
    AtPercents p (byte :: rest) ↔ AtPercents p rest := by
  refine ⟨fun hall after hafter => hall after (hafter.trans (List.suffix_cons _ _)),
    fun hall after hafter => ?_⟩
  rcases List.suffix_cons_iff.mp hafter with hsame | hinside
  · exact absurd (List.cons.inj hsame).1.symm hbyte
  · exact hall after hinside

theorem atPercents_percent {rest : List UInt8} :
    AtPercents p (percent :: rest) ↔ p rest ∧ AtPercents p rest := by
  refine ⟨fun hall => ⟨hall rest List.suffix_rfl,
    fun after hafter => hall after (hafter.trans (List.suffix_cons _ _))⟩,
    fun hall after hafter => ?_⟩
  rcases List.suffix_cons_iff.mp hafter with hsame | hinside
  · rw [(List.cons.inj hsame).2]
    exact hall.1
  · exact hall.2 after hinside

theorem atPercents_triplet {high low octet : UInt8} {after : List UInt8}
    (hoctet : octetOf high low = some octet) :
    AtPercents p (percent :: high :: low :: after) ↔
      p (high :: low :: after) ∧ AtPercents p after := by
  have hascii := octetOf_ascii hoctet
  rw [atPercents_percent, atPercents_plain hascii.1.2, atPercents_plain hascii.2.2]

end AtPercents

/-- Each `%` opens a triplet. -/
def Paired (bytes : List UInt8) : Prop :=
  AtPercents (fun rest => (tripletAt (percent :: rest) 0).isSome) bytes

theorem paired_plain {byte : UInt8} {rest : List UInt8} (hbyte : byte ≠ percent) :
    Paired (byte :: rest) ↔ Paired rest :=
  atPercents_plain hbyte

theorem not_paired_stray {rest : List UInt8} (hstray : tripletAt (percent :: rest) 0 = none) :
    ¬Paired (percent :: rest) := by
  intro hpaired
  have hopens := (atPercents_percent.mp hpaired).1
  simp [hstray] at hopens

theorem paired_triplet {high low octet : UInt8} {after : List UInt8}
    (hoctet : octetOf high low = some octet) :
    Paired (percent :: high :: low :: after) ↔ Paired after := by
  unfold Paired
  rw [atPercents_triplet hoctet]
  simp [hoctet]

/-! ### Decoding -/

/-- The octets of a text, or where its first stray `%` is. -/
def scan (plusIsSpace : Bool) (offset : Nat) : List UInt8 → Except PercentError (List UInt8)
  | [] => .ok []
  | byte :: rest =>
    if byte = percent then
      match tripletAt (byte :: rest) 0 with
      | none => .error (.malformed offset)
      | some octet => (scan plusIsSpace (offset + 3) (rest.drop 2)).map (octet :: ·)
    else
      (scan plusIsSpace (offset + 1) rest).map
        ((if plusIsSpace ∧ byte = 0x2B then 0x20 else byte) :: ·)
termination_by bytes => bytes.length
decreasing_by all_goals simp <;> omega

section Scan

variable (plusIsSpace : Bool) (offset : Nat)

@[simp] theorem scan_nil : scan plusIsSpace offset [] = .ok [] := by
  simp [scan]

theorem scan_plain {byte : UInt8} (hbyte : byte ≠ percent) (rest : List UInt8) :
    scan plusIsSpace offset (byte :: rest) = (scan plusIsSpace (offset + 1) rest).map
      ((if plusIsSpace ∧ byte = 0x2B then 0x20 else byte) :: ·) := by
  rw [scan, if_neg hbyte]

theorem scan_stray {rest : List UInt8} (hstray : tripletAt (percent :: rest) 0 = none) :
    scan plusIsSpace offset (percent :: rest) = .error (.malformed offset) := by
  simp [scan, hstray]

theorem scan_triplet {high low octet : UInt8} (hoctet : octetOf high low = some octet)
    (after : List UInt8) :
    scan plusIsSpace offset (percent :: high :: low :: after) =
      (scan plusIsSpace (offset + 3) after).map (octet :: ·) := by
  simp [scan, hoctet]

theorem scan_paired {bytes : List UInt8} (hpaired : Paired bytes) :
    scan false offset bytes = .ok (rewrite (fun octet => [octet]) bytes) := by
  induction bytes using reading generalizing offset with
  | nil => simp
  | plain byte rest hbyte ih =>
    rw [scan_plain false offset hbyte, ih (offset + 1) ((paired_plain hbyte).mp hpaired),
      rewrite_plain _ hbyte]
    simp [Except.map]
  | stray rest hstray ih => exact absurd hpaired (not_paired_stray hstray)
  | triplet high low octet after hoctet ih =>
    rw [scan_triplet false offset hoctet, ih (offset + 3) ((paired_triplet hoctet).mp hpaired),
      rewrite_triplet _ hoctet]
    rfl

theorem scan_plain_text {bytes : List UInt8}
    (hplain : ∀ byte ∈ bytes, byte ≠ percent ∧ ¬(plusIsSpace ∧ byte = 0x2B)) :
    scan plusIsSpace offset bytes = .ok bytes := by
  induction bytes generalizing offset with
  | nil => simp
  | cons byte rest ih =>
    have hbyte := hplain byte List.mem_cons_self
    rw [scan_plain plusIsSpace offset hbyte.1, if_neg hbyte.2,
      ih (offset + 1) fun other hother => hplain other (List.mem_cons_of_mem byte hother)]
    rfl

end Scan

/-! ### Encoding -/

def encoded (set : EncodeSet) (bytes : List UInt8) : List UInt8 :=
  bytes.flatMap fun byte => if set byte then [byte] else triplet byte

section Encoded

variable {set : EncodeSet}

theorem triplet_ascii (octet : UInt8) : ∀ byte ∈ triplet octet, byte < 0x80 := by
  have hdigits := digits_ascii octet
  intro byte hbyte
  simp only [triplet, List.mem_cons, List.not_mem_nil, or_false] at hbyte
  rcases hbyte with rfl | rfl | rfl
  · decide
  · exact hdigits.1
  · exact hdigits.2

theorem isUtf8_of_ascii {bytes : List UInt8} (hascii : ∀ byte ∈ bytes, byte < 0x80) :
    IsUtf8 bytes := by
  induction bytes with
  | nil => exact isUtf8_nil
  | cons byte rest ih =>
    have hrest := ih fun other hother => hascii other (List.mem_cons_of_mem byte hother)
    exact (isUtf8_ascii (hascii byte List.mem_cons_self)).append hrest

theorem encoded_isUtf8 (hset : ∀ byte, set byte → byte < 0x80) (bytes : List UInt8) :
    IsUtf8 (encoded set bytes) := by
  apply isUtf8_of_ascii
  intro byte hbyte
  obtain ⟨source, _, hpiece⟩ := List.mem_flatMap.mp hbyte
  by_cases hkept : set source
  · rw [if_pos hkept, List.mem_singleton] at hpiece
    exact hpiece ▸ hset source hkept
  · rw [if_neg hkept] at hpiece
    exact triplet_ascii source byte hpiece

/-- Encoding and the octets of the result, when `%` is encoded. -/
theorem scan_encoded (hpercent : set percent = false) (offset : Nat) (bytes : List UInt8) :
    scan false offset (encoded set bytes) = .ok bytes := by
  induction bytes generalizing offset with
  | nil => simp [encoded]
  | cons byte rest ih =>
    unfold encoded at ih ⊢
    rw [List.flatMap_cons]
    by_cases hkept : set byte
    · have hbyte : byte ≠ percent := by
        rintro rfl
        simp [hpercent] at hkept
      rw [if_pos hkept, List.singleton_append, scan_plain false offset hbyte, ih]
      simp [Except.map]
    · rw [if_neg hkept, triplet]
      simp only [List.cons_append, List.nil_append]
      rw [scan_triplet false offset (octetOf_digits byte), ih]
      rfl

end Encoded

end Purrdf.Percent
