import Purrdf.MatchCopy
import Purrdf.PackBits
import Purrdf.TableLookup

/-!
# The bit buffer

The buffer holds the next bits of the stream, and above them bits it will read again. Symbols
are confirmed from the buffered bits alone.
-/

namespace Purrdf.Deflate

open CanonicalCode

/-! ### Sound tables -/

structure DecodeTable.Sound (table : DecodeTable) (kind : Kind) : Prop where
  primary_pos : 0 < table.primaryBits
  primary_le : table.primaryBits ≤ 15
  decodes : ∃ lengths width, table.Decodes kind lengths width

namespace DecodeTable.Sound
variable {table : DecodeTable} {kind : Kind}

theorem bits_bounds (sound : table.Sound kind) (bits : Nat) :
    0 < (table.decode bits).bits ∧ (table.decode bits).bits ≤ 15 := by
  obtain ⟨lengths, width, decodes⟩ := sound.decodes
  exact (decodes.reaches bits).bounds decodes.fits decodes.widths sound.primary_pos
    sound.primary_le

theorem determined (sound : table.Sound kind) {bits other : Nat}
    (same : bits % 2 ^ (table.decode bits).bits = other % 2 ^ (table.decode bits).bits) :
    table.decode other = table.decode bits := by
  obtain ⟨lengths, width, decodes⟩ := sound.decodes
  exact (decodes.reaches other).unique
    ((decodes.reaches bits).determined decodes.fits decodes.widths same)

theorem determined_of_mod (sound : table.Sound kind) {bits other n : Nat}
    (enough : (table.decode bits).bits ≤ n) (same : bits % 2 ^ n = other % 2 ^ n) :
    table.decode other = table.decode bits := by
  apply sound.determined
  have divides := Nat.pow_dvd_pow 2 enough
  rw [← Nat.mod_mod_of_dvd bits divides, same, Nat.mod_mod_of_dvd other divides]

theorem symbol_or_invalid (sound : table.Sound kind) (bits : Nat) :
    (∃ symbol len, table.decode bits = kind.symbolEntry symbol len) ∨
      (table.decode bits).tag = .invalid := by
  obtain ⟨lengths, width, decodes⟩ := sound.decodes
  rcases (decodes.reaches bits).cases with ⟨symbol, -, same⟩ | ⟨-, same⟩
  · exact Or.inl ⟨symbol, _, same⟩
  · rw [same]
    exact Or.inr rfl

theorem length_bounds {table : DecodeTable} (sound : table.Sound .literalLength) {bits : Nat}
    (length : (table.decode bits).tag = .length) :
    (table.decode bits).aux ≤ 5 ∧
      (table.decode bits).value + 2 ^ (table.decode bits).aux ≤ maxMatch + 1 := by
  rcases sound.symbol_or_invalid bits with ⟨symbol, len, same⟩ | invalid
  · rw [same] at length ⊢
    exact Deflate.length_bounds length
  · rw [invalid] at length
    exact absurd length (by simp)

theorem distance_bounds {table : DecodeTable} (sound : table.Sound .distance) {bits : Nat}
    (distance : (table.decode bits).tag = .distance) :
    (table.decode bits).aux ≤ 13 ∧ 1 ≤ (table.decode bits).value ∧
      (table.decode bits).value + 2 ^ (table.decode bits).aux ≤ windowSize + 1 := by
  rcases sound.symbol_or_invalid bits with ⟨symbol, len, same⟩ | invalid
  · rw [same] at distance ⊢
    exact Deflate.distance_bounds distance
  · rw [invalid] at distance
    exact absurd distance (by simp)

end DecodeTable.Sound

theorem build_sound {table built : DecodeTable} {lengths : List Nat} {kind : Kind} {pairs : Bool}
    (positive : 0 < table.primaryBits) (bound : table.primaryBits ≤ 15)
    (bytes : pairs = true → kind = .literalLength)
    (ok : table.build lengths kind pairs = .ok built) :
    built.Sound kind ∧ built.primaryBits = table.primaryBits := by
  obtain ⟨primary, width, decodes⟩ := build_decodes positive bound bytes ok
  exact ⟨⟨primary ▸ positive, primary ▸ bound, lengths, width, decodes⟩, primary⟩

/-- An entry that stands for the next symbol, or for the next two literals. -/
inductive Stands (table : DecodeTable) (kind : Kind) (bits : Nat) (entry : Entry) : Prop where
  | single (tag : entry.tag ≠ .pair) (same : table.decode bits = entry)
  | pair (tag : entry.tag = .pair) (order : entry.aux < entry.bits) (bytes : kind = .literalLength)
      (first : table.decode bits = ⟨entry.aux, .literal, 0, entry.value % 256⟩)
      (second : table.decode (bits / 2 ^ entry.aux)
        = ⟨entry.bits - entry.aux, .literal, 0, entry.value / 256⟩)

theorem div_mod_congr {bits other n cut : Nat} (order : cut ≤ n)
    (same : bits % 2 ^ n = other % 2 ^ n) :
    bits / 2 ^ cut % 2 ^ (n - cut) = other / 2 ^ cut % 2 ^ (n - cut) := by
  have split : 2 ^ n = 2 ^ cut * 2 ^ (n - cut) := by
    rw [← pow_add, Nat.add_sub_cancel' order]
  rw [split] at same
  rw [← Nat.mod_mul_right_div_self, ← Nat.mod_mul_right_div_self, same]

theorem DecodeTable.Sound.stands {table : DecodeTable} {kind : Kind} (sound : table.Sound kind)
    {bitbuf bits n : Nat} {entry : Entry} (found : table.find bitbuf = some entry)
    (enough : entry.bits ≤ n) (same : bitbuf % 2 ^ n = bits % 2 ^ n) :
    Stands table kind bits entry := by
  obtain ⟨lengths, width, decodes⟩ := sound.decodes
  by_cases tag : entry.tag = .pair
  · obtain ⟨first, second, order, bytes⟩ := decodes.pair bitbuf entry found tag
    apply Stands.pair tag order bytes
    · rw [← first]
      apply sound.determined_of_mod (n := n) _ same
      rw [first]
      change entry.aux ≤ n
      omega
    · rw [← second]
      apply sound.determined_of_mod (n := n - entry.aux)
      · rw [second]
        change entry.bits - entry.aux ≤ n - entry.aux
        omega
      · exact div_mod_congr (by omega) same
  · have here : table.decode bitbuf = entry := by
      rw [decode_of_find found, alone_of_tag tag]
    apply Stands.single tag
    rw [← here]
    apply sound.determined_of_mod (n := n) _ same
    rw [here]
    exact enough

theorem confirmed_spec {table : DecodeTable} {kind : Kind} (sound : table.Sound kind)
    (bitbuf nbits : Nat) :
    (∃ entry, confirmed table bitbuf nbits = some (some entry) ∧ entry.bits ≤ nbits ∧
      ∀ bits, bitbuf % 2 ^ nbits = bits % 2 ^ nbits → Stands table kind bits entry) ∨
    (confirmed table bitbuf nbits = some none ∧ nbits < (table.decode bitbuf).bits) := by
  obtain ⟨lengths, width, decodes⟩ := sound.decodes
  obtain ⟨entry, found, tag, -⟩ := decodes.found bitbuf
  have found_def := found
  rw [DecodeTable.find] at found_def
  obtain ⟨primary, here, resolved⟩ := Option.bind_eq_some_iff.mp found_def
  rw [confirmed, here, Option.bind_eq_bind, Option.bind_some]
  by_cases unresolved : primary.tag = .link ∧ nbits < primary.bits
  · obtain ⟨link, short⟩ := unresolved
    obtain ⟨width_bits, past⟩ := decodes.link bitbuf primary here link
    rw [followLink, if_neg (by omega), Option.bind_some, if_neg (by simp [link]),
      if_neg (by simp [link])]
    exact Or.inr ⟨rfl, by omega⟩
  · -- the same entry as a lookup over every bit
    have same : followLink table bitbuf nbits primary = some entry := by
      rw [followLink]
      by_cases link : primary.tag = .link
      · rw [if_pos ⟨link, Nat.not_lt.mp fun short => unresolved ⟨link, short⟩⟩]
        rwa [if_pos link] at resolved
      · rw [if_neg fun both => link both.1]
        rwa [if_neg link] at resolved
    rw [same, Option.bind_some]
    by_cases enough : entry.bits ≤ nbits
    · rw [if_pos ⟨tag, enough⟩]
      exact Or.inl ⟨entry, rfl, enough, fun bits agree => sound.stands found enough agree⟩
    · rw [if_neg fun both => enough both.2]
      by_cases paired : entry.tag = .pair
      · obtain ⟨first, -, order⟩ := decodes.pair bitbuf entry found paired
        by_cases half : entry.aux ≤ nbits
        · rw [if_pos ⟨paired, half⟩]
          have low : entry.value &&& 0xFF = entry.value % 256 :=
            Nat.and_two_pow_sub_one_eq_mod entry.value 8
          refine Or.inl ⟨_, rfl, half, ?_⟩
          intro bits agree
          apply Stands.single (by simp)
          rw [low, ← first]
          apply sound.determined_of_mod (n := nbits) _ agree
          rw [first]
          exact half
        · rw [if_neg fun both => half both.2, first]
          exact Or.inr ⟨rfl, Nat.not_le.mp half⟩
      · rw [if_neg fun both => paired both.1, decode_of_find found, alone_of_tag paired]
        exact Or.inr ⟨rfl, Nat.not_le.mp enough⟩

/-! ### The buffer and the stream -/

/-- The buffer's low bits are the stream's, exactly so up to some bit, and the input carries on
where the counted bits end. -/
structure Buffer (future : List UInt8) (exact bitbuf nbits : Nat) (input : List UInt8)
    (bits unread : Nat) : Prop where
  buffer : bitbuf = bits % 2 ^ exact
  least : nbits ≤ exact
  few : nbits ≤ 63
  rest : bits / 2 ^ nbits = leValue (input ++ future)
  count : unread = nbits + 8 * (input.length + future.length)

section
variable {future input : List UInt8} {exact bitbuf nbits bits unread : Nat}

theorem Buffer.low (held : Buffer future exact bitbuf nbits input bits unread) {n : Nat}
    (enough : n ≤ nbits) : bitbuf % 2 ^ n = bits % 2 ^ n := by
  rw [held.buffer]
  exact Nat.mod_mod_of_dvd _ (Nat.pow_dvd_pow 2 (enough.trans held.least))

theorem Buffer.field (held : Buffer future exact bitbuf nbits input bits unread) (start n : Nat)
    (enough : start + n ≤ nbits) : bitbuf / 2 ^ start % 2 ^ n = bits / 2 ^ start % 2 ^ n := by
  have same := div_mod_congr (Nat.le_add_right start n) (held.low enough)
  rwa [Nat.add_sub_cancel_left] at same

theorem Buffer.consume (held : Buffer future exact bitbuf nbits input bits unread) {n : Nat}
    (enough : n ≤ nbits) :
    Buffer future (exact - n) (bitbuf / 2 ^ n) (nbits - n) input (bits / 2 ^ n) (unread - n) := by
  have least := held.least
  constructor
  · have split : 2 ^ exact = 2 ^ n * 2 ^ (exact - n) := by
      rw [← pow_add, Nat.add_sub_cancel' (enough.trans least)]
    rw [held.buffer, split, Nat.mod_mul_right_div_self]
  · omega
  · exact (Nat.sub_le _ _).trans held.few
  · rw [Nat.div_div_eq_div_mul, ← pow_add, Nat.add_sub_cancel' enough]
    exact held.rest
  · rw [held.count]
    omega

theorem Buffer.mask (held : Buffer future exact bitbuf nbits input bits unread) :
    Buffer future nbits (bitbuf % 2 ^ nbits) nbits input bits unread := by
  constructor
  · exact held.low le_rfl
  · exact le_rfl
  · exact held.few
  · exact held.rest
  · exact held.count

theorem mod_pow_add (bits low high : Nat) :
    bits % 2 ^ (low + high) = bits % 2 ^ low + 2 ^ low * (bits / 2 ^ low % 2 ^ high) := by
  rw [pow_add, Nat.mod_mul]

theorem or_shiftLeft_of_lt {low nbits : Nat} (small : low < 2 ^ nbits) (high : Nat) :
    low ||| high <<< nbits = low + 2 ^ nbits * high := by
  rw [Nat.or_comm, ← Nat.shiftLeft_add_eq_or_of_lt small, Nat.shiftLeft_eq]
  ring

theorem Buffer.pull {byte : UInt8}
    (held : Buffer future nbits bitbuf nbits (byte :: input) bits unread) (low : nbits ≤ 55) :
    Buffer future (nbits + 8) ((bitbuf ||| byte.toNat <<< nbits) % 2 ^ 64) (nbits + 8) input bits
      unread := by
  have small : bitbuf < 2 ^ nbits := by
    rw [held.buffer]
    exact Nat.mod_lt _ (Nat.two_pow_pos _)
  have byte_small : byte.toNat < 256 := byte.toNat_lt
  have rest : bits / 2 ^ nbits = byte.toNat + 256 * leValue (input ++ future) := held.rest
  have value : (bitbuf ||| byte.toNat <<< nbits) % 2 ^ 64 = bits % 2 ^ (nbits + 8) := by
    have next : bits / 2 ^ nbits % 2 ^ 8 = byte.toNat := by
      rw [rest]
      omega
    rw [or_shiftLeft_of_lt small, mod_pow_add, next, ← held.buffer]
    apply Nat.mod_eq_of_lt
    calc bitbuf + 2 ^ nbits * byte.toNat
        < 2 ^ nbits + 2 ^ nbits * byte.toNat := by omega
      _ = 2 ^ nbits * (byte.toNat + 1) := by ring
      _ ≤ 2 ^ 55 * 256 := Nat.mul_le_mul (Nat.pow_le_pow_right (by omega) low) byte_small
      _ ≤ 2 ^ 64 := by norm_num
  constructor
  · exact value
  · exact le_rfl
  · omega
  · rw [pow_add, ← Nat.div_div_eq_div_mul, rest]
    omega
  · rw [held.count, List.length_cons]
    omega

theorem Buffer.empty_future {n : Nat} (held : Buffer [] nbits bitbuf nbits [] bits unread)
    (short : nbits < n) : unread < n ∧ bits = bitbuf := by
  have none := held.rest
  have count := held.count
  have whole := Nat.div_add_mod bits (2 ^ nbits)
  have buffer := held.buffer
  simp only [List.append_nil, leValue] at none
  rw [none, Nat.mul_zero, Nat.zero_add] at whole
  constructor
  · simpa [count] using short
  · rw [buffer, whole]

theorem pull_spec {n : Nat} (bound : n ≤ 56) (held : Buffer future nbits bitbuf nbits input bits unread) :
    ∃ ready bitbuf' nbits' input', pull n bitbuf nbits input = (ready, bitbuf', nbits', input') ∧
      Buffer future nbits' bitbuf' nbits' input' bits unread ∧
      (ready = true → n ≤ nbits') ∧ (ready = false → input' = [] ∧ nbits' < n) := by
  induction input generalizing bitbuf nbits with
  | nil =>
    refine ⟨_, _, _, _, rfl, held, ?_, ?_⟩
    · intro ready
      simpa using ready
    · intro short
      exact ⟨rfl, by simpa using short⟩
  | cons byte input ih =>
    rw [pull]
    split
    · exact ih (held.pull (by omega))
    · rename_i enough
      exact ⟨_, _, _, _, rfl, held, fun _ => Nat.not_lt.mp enough, fun short => by simp at short⟩

theorem peekFrom_spec {table : DecodeTable} {kind : Kind} (sound : table.Sound kind)
    (held : Buffer future nbits bitbuf nbits input bits unread) :
    ∃ result bitbuf' nbits' input',
      peekFrom table bitbuf nbits input = some (result, bitbuf', nbits', input') ∧
      Buffer future nbits' bitbuf' nbits' input' bits unread ∧
      (∀ entry, result = some entry → entry.bits ≤ nbits' ∧ Stands table kind bits entry) ∧
      (result = none → input' = [] ∧ nbits' < (table.decode bitbuf').bits) := by
  induction input generalizing bitbuf nbits with
  | nil =>
    rw [peekFrom]
    rcases confirmed_spec sound bitbuf nbits with ⟨entry, here, enough, stands⟩ | ⟨here, short⟩
    · rw [here]
      refine ⟨_, _, _, _, rfl, held, ?_, fun none => by simp at none⟩
      intro other same
      cases same
      exact ⟨enough, stands bits (held.low le_rfl)⟩
    · rw [here]
      exact ⟨_, _, _, _, rfl, held, fun entry some => by simp at some, fun _ => ⟨rfl, short⟩⟩
  | cons byte input ih =>
    rw [peekFrom]
    rcases confirmed_spec sound bitbuf nbits with ⟨entry, here, enough, stands⟩ | ⟨here, short⟩
    · rw [here]
      refine ⟨_, _, _, _, rfl, held, ?_, fun none => by simp at none⟩
      intro other same
      cases same
      exact ⟨enough, stands bits (held.low le_rfl)⟩
    · rw [here]
      have bound := (sound.bits_bounds bitbuf).2
      exact ih (held.pull (by omega))

theorem Buffer.refill (held : Buffer future exact bitbuf nbits input bits unread)
    (eight : 8 ≤ input.length) :
    Buffer future 64 ((bitbuf ||| leValue (input.take 8) <<< nbits) % 2 ^ 64)
      (nbits + (63 - nbits) / 8 * 8) (input.drop ((63 - nbits) / 8)) bits unread := by
  have few := held.few
  have chunk : leValue (input.take 8) = bits / 2 ^ nbits % 2 ^ 64 := by
    have front : (input ++ future).take 8 = input.take 8 := List.take_append_of_le_length eight
    have eight_bytes : (256 : Nat) ^ 8 = 2 ^ 64 := by norm_num
    rw [← front, PackBits.leValue_take, ← held.rest, eight_bytes]
  constructor
  · apply Nat.eq_of_testBit_eq
    intro i
    rw [Nat.testBit_mod_two_pow, Nat.testBit_mod_two_pow, Nat.testBit_or, Nat.testBit_shiftLeft,
      chunk, held.buffer, Nat.testBit_mod_two_pow, Nat.testBit_mod_two_pow,
      Nat.testBit_div_two_pow]
    have least := held.least
    by_cases inside : i < 64
    · by_cases low : i < nbits
      · have below : i < exact := by omega
        have not_high : ¬nbits ≤ i := by omega
        simp [inside, below, not_high]
      · have high : nbits ≤ i := by omega
        have place : i - nbits + nbits = i := by omega
        have within : i - nbits < 64 := by omega
        simp [inside, high, place, within]
    · simp [inside]
  · omega
  · omega
  · have bytes : 2 ^ ((63 - nbits) / 8 * 8) = 256 ^ ((63 - nbits) / 8) := by
      rw [Nat.mul_comm, pow_mul]
      norm_num
    rw [pow_add, ← Nat.div_div_eq_div_mul, held.rest, bytes, ← PackBits.leValue_drop,
      List.drop_append_of_le_length (by omega)]
  · rw [held.count, List.length_drop]
    omega

end

end Purrdf.Deflate

/-!
## A decoder mirrors its stream

What a decoder in the middle of a call knows of the stream it decodes: its buffer and input
hold the unread bits, its window ends what has been decoded, and its state and tables are the
stream's. Pieces of a decoding step are followed one after the other.
-/

namespace Purrdf.Deflate

/-! ### What the pieces change -/

namespace Feed

def load (feed : Feed) (bitbuf nbits : Nat) (input : List UInt8) : Feed :=
  { self := { feed.self with bitbuf, nbits }, input }

def withBlock (feed : Feed) (block : Block) : Feed :=
  { feed with self := { feed.self with block } }

def withState (feed : Feed) (state : State) : Feed :=
  { feed with self := { feed.self with state } }

def withWindow (feed : Feed) (window : List UInt8) : Feed :=
  { feed with self := { feed.self with window } }

def withFixed (feed : Feed) (tablesFixed : Bool) : Feed :=
  { feed with self := { feed.self with tablesFixed } }

end Feed

/-! ### Following a piece of a step -/

/-- A piece ends well or refuses the stream, and never panics. -/
def Meets {α : Type} (piece : Decoding α) (feed : Feed) (ok : α → Feed → Prop)
    (bad : Error → Feed → Prop) : Prop :=
  match piece feed with
  | .ok value next => ok value next
  | .error (.refused error) next => bad error next
  | .error .panicked _ => False

section
variable {α β : Type} {feed : Feed} {bad : Error → Feed → Prop}

@[simp] theorem meets_bind (piece : Decoding α) (rest : α → Decoding β) {ok : β → Feed → Prop} :
    Meets (piece >>= rest) feed ok bad
      ↔ Meets piece feed (fun value next => Meets (rest value) next ok bad) bad := by
  simp only [Meets, bind, EStateM.bind]
  cases piece feed with
  | ok value next => rfl
  | error fault next => cases fault <;> rfl

@[simp] theorem meets_pure (value : α) {ok : α → Feed → Prop} :
    Meets (pure value) feed ok bad ↔ ok value feed :=
  Iff.rfl

@[simp] theorem meets_get {ok : Feed → Feed → Prop} :
    Meets get feed ok bad ↔ ok feed feed :=
  Iff.rfl

@[simp] theorem meets_set (next : Feed) {ok : PUnit → Feed → Prop} :
    Meets (set next) feed ok bad ↔ ok ⟨⟩ next :=
  Iff.rfl

variable {ok : Unit → Feed → Prop}

@[simp] theorem meets_update (change : Inflater → Inflater) :
    Meets (update change) feed ok bad ↔ ok () { feed with self := change feed.self } :=
  Iff.rfl

@[simp] theorem meets_updateBlock (change : Block → Block) :
    Meets (updateBlock change) feed ok bad
      ↔ ok () (feed.withBlock (change feed.self.block)) :=
  Iff.rfl

@[simp] theorem meets_refuse (error : Error) {ok : α → Feed → Prop} :
    Meets (refuse error) feed ok bad ↔ bad error feed :=
  Iff.rfl

@[simp] theorem meets_become (state : State) {ok : Option Step → Feed → Prop} :
    Meets (become state) feed ok bad
      ↔ ok none (feed.withState state) :=
  Iff.rfl

@[simp] theorem meets_actIf (condition : Bool) (action : Decoding Unit) :
    Meets (actIf condition action) feed ok bad
      ↔ if condition then Meets action feed ok bad else ok () feed := by
  cases condition <;> rfl

theorem Meets.mono {piece : Decoding α} {ok ok' : α → Feed → Prop} {bad' : Error → Feed → Prop}
    (meets : Meets piece feed ok bad) (good : ∀ value next, ok value next → ok' value next)
    (refused : ∀ error next, bad error next → bad' error next) :
    Meets piece feed ok' bad' := by
  rw [Meets] at meets ⊢
  split at meets
  · exact good _ _ meets
  · exact refused _ _ meets
  · exact meets

theorem meets_consume {n : Nat} (enough : n ≤ feed.self.nbits) :
    Meets (consume n) feed ok bad
      ↔ ok () (feed.load (feed.self.bitbuf / 2 ^ n) (feed.self.nbits - n) feed.input) := by
  rw [consume, meets_bind, meets_get, if_pos enough, meets_update]
  rfl

theorem meets_push {byte : Nat} (room : feed.self.window.length < bufLen + copySlack) :
    Meets (push byte) feed ok bad
      ↔ ok () (feed.withWindow (feed.self.window ++ [UInt8.ofNat byte])) := by
  rw [push, meets_bind, meets_get, if_pos room, meets_update]
  rfl

theorem meets_copyMatch {distance length : Nat} (positive : 1 ≤ distance)
    (inside : distance ≤ feed.self.window.length)
    (room : feed.self.window.length + length ≤ bufLen) :
    Meets (copyMatch distance length) feed ok bad
      ↔ ok () (feed.withWindow (appendCopy distance length feed.self.window)) := by
  have contract : 1 ≤ distance ∧ distance ≤ feed.self.window.length
      ∧ feed.self.window.length + length + copySlack ≤ bufLen + copySlack :=
    ⟨positive, inside, Nat.add_le_add_right room _⟩
  rw [copyMatch, meets_bind, meets_get]
  dsimp only
  rw [if_pos contract, meets_update, copied_eq positive inside]
  rfl

theorem meets_built {table : DecodeTable} {lengths : List Nat} {kind : Kind} {pairs : Bool}
    (bounded : ∀ len ∈ lengths, len ≤ 15) (size : lengths.length ≤ 288)
    {ok : DecodeTable → Feed → Prop} :
    Meets (built (table.build lengths kind pairs)) feed ok bad ↔
      (∀ result, table.build lengths kind pairs = .ok result → ok result feed) ∧
      (∀ error, table.build lengths kind pairs = .error (.refused error) → bad error feed) := by
  have total := build_total table kind pairs bounded size
  cases result : table.build lengths kind pairs with
  | ok built_table => simp [built]
  | error fault =>
    cases fault with
    | refused error =>
      change bad error feed ↔ _
      simp
    | panicked => exact absurd result total

theorem meets_ensure {future : List UInt8} {n bits unread : Nat} (bound : n ≤ 56)
    (held : Buffer future feed.self.nbits feed.self.bitbuf feed.self.nbits feed.input bits unread)
    {ok : Bool → Feed → Prop}
    (ready : ∀ bitbuf nbits input, Buffer future nbits bitbuf nbits input bits unread →
      n ≤ nbits → ok true (feed.load bitbuf nbits input))
    (short : ∀ bitbuf nbits, Buffer future nbits bitbuf nbits [] bits unread →
      nbits < n → ok false (feed.load bitbuf nbits [])) :
    Meets (ensure n) feed ok bad := by
  obtain ⟨state, bitbuf, nbits, input, pulled, kept, enough, none⟩ := pull_spec bound held
  rw [ensure, meets_bind, meets_get, pulled]
  dsimp only
  rw [meets_bind, meets_set, meets_pure]
  cases state with
  | true => exact ready bitbuf nbits input kept (enough rfl)
  | false =>
    obtain ⟨rfl, few⟩ := none rfl
    exact short bitbuf nbits kept few

theorem meets_peek {future : List UInt8} {table : DecodeTable} {kind : Kind} {bits unread : Nat}
    (sound : table.Sound kind)
    (held : Buffer future feed.self.nbits feed.self.bitbuf feed.self.nbits feed.input bits unread)
    {ok : Option Entry → Feed → Prop}
    (ready : ∀ entry bitbuf nbits input, Buffer future nbits bitbuf nbits input bits unread →
      entry.bits ≤ nbits → Stands table kind bits entry →
        ok (some entry) (feed.load bitbuf nbits input))
    (short : ∀ bitbuf nbits, Buffer future nbits bitbuf nbits [] bits unread →
      nbits < (table.decode bitbuf).bits →
        ok none (feed.load bitbuf nbits [])) :
    Meets (peek table) feed ok bad := by
  obtain ⟨result, bitbuf, nbits, input, peeked, kept, some, none⟩ := peekFrom_spec sound held
  rw [peek, meets_bind, meets_get, peeked]
  dsimp only
  rw [meets_bind, meets_set, meets_pure]
  cases result with
  | some entry =>
    obtain ⟨enough, stands⟩ := some entry rfl
    exact ready entry bitbuf nbits input kept enough stands
  | none =>
    obtain ⟨rfl, few⟩ := none rfl
    exact short bitbuf nbits kept few

end

/-! ### Sound states -/

structure Block.Tables (block : Block) : Prop where
  litlen : block.litlen.Sound .literalLength
  dist : block.dist.Sound .distance

structure Block.Counts (block : Block) : Prop where
  hlit : 257 ≤ block.hlit ∧ block.hlit ≤ litlenSymbols
  hdist : 1 ≤ block.hdist ∧ block.hdist ≤ 32
  hclen : block.hclen ≤ 19

structure Block.Widths (block : Block) : Prop where
  litlen : block.litlen.primaryBits = litlenBits
  dist : block.dist.primaryBits = distBits
  codeLength : block.codeLength.primaryBits = codeLengthBits

structure Block.Fixed (block : Block) : Prop where
  litlen : block.litlen.build fixedLitlenLengths .literalLength true = .ok block.litlen
  dist : block.dist.build fixedDistLengths .distance false = .ok block.dist

/-- What a stream's state says about its block, its bits and the bytes decoded. -/
def Stream.Sound (stream : Stream) : Prop :=
  match stream.state with
  | .stored _ => stream.unread % 8 = 0
  | .dynamicCodeLengths => stream.block.Counts ∧ stream.block.clIndex ≤ stream.block.hclen ∧
      stream.block.clLengths.length = 19 ∧ ∀ len ∈ stream.block.clLengths, len ≤ 15
  | .dynamicLengths => stream.block.Counts ∧ stream.block.codeLength.Sound .codeLength ∧
      stream.block.lengths.length ≤ stream.block.hlit + stream.block.hdist ∧
      ∀ len ∈ stream.block.lengths, len ≤ 15
  | .symbols => stream.block.Tables
  | .lengthExtra base extra =>
    stream.block.Tables ∧ extra ≤ 5 ∧ base + 2 ^ extra ≤ maxMatch + 1
  | .distance length => stream.block.Tables ∧ length ≤ maxMatch
  | .distanceExtra length base extra => stream.block.Tables ∧ length ≤ maxMatch ∧ extra ≤ 13 ∧
      1 ≤ base ∧ base + 2 ^ extra ≤ windowSize + 1
  | .copy length distance => stream.block.Tables ∧ length ≤ maxMatch ∧ 1 ≤ distance ∧
      distance ≤ windowSize ∧ distance ≤ stream.out.length
  | _ => True

/-! ### Mirroring -/

structure Written (limit sent : Nat) (before window : List UInt8) (base delivered cap : Nat)
    (out : List UInt8) : Prop where
  out : out = before ++ window
  base : base = before.length
  room : window.length ≤ bufLen
  history : before = [] ∨ windowSize ≤ window.length
  delivered : delivered = sent
  sent : sent ≤ window.length
  limit : cap = limit

structure Control where
  state : State
  block : Block
  tablesFixed : Bool
  trailing : List UInt8
  error : Option Error

def Inflater.control (self : Inflater) : Control :=
  { state := self.state, block := self.block, tablesFixed := self.tablesFixed,
    trailing := self.trailing, error := self.error }

structure Control.Follows (control : Control) (stream : Stream) : Prop where
  state : control.state = stream.state
  block : control.block = stream.block
  fixed : control.tablesFixed = true → stream.block.Fixed
  trailing : control.trailing = []
  error : control.error = none
  widths : stream.block.Widths
  sound : stream.Sound
  running : stream.state ≠ .done

/-- A decoder in the middle of its stream, with some input still to come. -/
structure Reading (limit sent : Nat) (before future : List UInt8) (exact : Nat) (feed : Feed)
    (stream : Stream) : Prop where
  buffer : Buffer future exact feed.self.bitbuf feed.self.nbits feed.input stream.bits
    stream.unread
  written : Written limit sent before feed.self.window feed.self.base feed.self.delivered
    feed.self.limit stream.out
  control : feed.self.control.Follows stream

theorem Reading.load {limit sent : Nat} {before future : List UInt8} {exact : Nat} {feed : Feed}
    {stream : Stream} (reading : Reading limit sent before future exact feed stream)
    {bitbuf nbits : Nat} {input : List UInt8}
    (held : Buffer future nbits bitbuf nbits input stream.bits stream.unread) :
    Reading limit sent before future nbits (feed.load bitbuf nbits input) stream :=
  ⟨held, reading.written, reading.control⟩

structure Finished (limit sent : Nat) (before future : List UInt8) (feed : Feed)
    (stream : Stream) : Prop where
  state : feed.self.state = .done
  done : stream.state = .done
  written : Written limit sent before feed.self.window feed.self.base feed.self.delivered
    feed.self.limit stream.out
  error : feed.self.error = none
  rest : stream.bits = leValue (feed.self.trailing ++ feed.input ++ future)
  unread : stream.unread = 8 * (feed.self.trailing ++ feed.input ++ future).length

def Mirrors (limit sent : Nat) (before future : List UInt8) (feed : Feed) (stream : Stream) :
    Prop :=
  Reading limit sent before future feed.self.nbits feed stream ∨
    Finished limit sent before future feed stream

def Turned (limit sent : Nat) (before future : List UInt8) (stream : Stream) :
    Option Step → Feed → Prop
  | none, next => ∃ later, Relation.TransGen (Stream.Moves limit) stream later ∧
      Mirrors limit sent before future next later
  | some .needsInput, next => next.input = [] ∧ ∃ later, Stream.Reaches limit stream later ∧
      Reading limit sent before future next.self.nbits next later ∧
      (future = [] → later.move limit = .ok none)
  | some .needsRoom, next => ∃ later, Stream.Reaches limit stream later ∧
      Reading limit sent before future next.self.nbits next later ∧
      next.self.window.length = bufLen
  | some .done, next => ∃ later, Stream.Reaches limit stream later ∧
      Finished limit sent before future next later

def Refused (limit : Nat) (stream : Stream) (error : Error) (_ : Feed) : Prop :=
  ∃ later, Stream.Reaches limit stream later ∧ later.move limit = .error (.refused error)

end Purrdf.Deflate
