import Purrdf.ParquetDictionary
import Purrdf.ParquetStrings

/-!
# Dictionary indexes and value bodies

The indexes of a page into its dictionary, as runs and bit-packed groups in a greedy
alternation, and the decoder of every value encoding.
-/

namespace Purrdf.Parquet

open PackBits

namespace Dictionary

end Dictionary

variable {rest : List UInt64}

variable {dictionary : Dictionary}

structure Indexed (dictionary : Dictionary) (width : Nat) (rest : List UInt64) : Prop where
  fits : ∀ index ∈ rest, index.toNat < 2 ^ width
  inside : ∀ index ∈ rest, index.toNat < dictionary.entries.length
  few : rest.length ≤ 2 ^ 29

theorem Indexed.drop {width : Nat} (indexed : Indexed dictionary width rest) (count : Nat) :
    Indexed dictionary width (rest.drop count) := by
  constructor
  · exact fun index member => indexed.fits index (List.mem_of_mem_drop member)
  · exact fun index member => indexed.inside index (List.mem_of_mem_drop member)
  · have few := indexed.few
    rw [List.length_drop]
    omega

end Purrdf.Parquet
