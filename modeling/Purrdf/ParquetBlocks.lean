import Purrdf.ParquetDelta

/-!
# Delta blocks round trip

The bytes a run of integers is written as, that the encoder writes them unless a limit
stops it, and that the decoder reads the integers back from them.
-/

namespace Purrdf.Parquet

open PackBits

def miniChunks : Nat → List Int64 → List (List Int64)
  | 0, _ => []
  | fuel + 1, deltas =>
    if deltas = [] then [] else deltas.take mini :: miniChunks fuel (deltas.drop mini)

def miniValues (minimum : Int64) (chunk : List Int64) : List UInt64 :=
  adjustments minimum chunk ++ List.replicate (mini - chunk.length) 0

def miniRun (minimum : Int64) (chunk : List Int64) : List UInt8 :=
  packBits (miniWidth minimum chunk) (miniValues minimum chunk)

def widthBytes (minimum : Int64) (fuel : Nat) (deltas : List Int64) : List UInt8 :=
  (miniChunks fuel deltas).map (fun chunk => UInt8.ofNat (miniWidth minimum chunk)) ++
    List.replicate (fuel - (miniChunks fuel deltas).length) 0

def runBytes (minimum : Int64) (fuel : Nat) (deltas : List Int64) : List UInt8 :=
  (miniChunks fuel deltas).flatMap (miniRun minimum)

def blockBytes (deltas : List Int64) : List UInt8 :=
  writeVarint (zigzagEncode (minimumOf deltas)) ++
    (widthBytes (minimumOf deltas) miniblockCount deltas ++
      runBytes (minimumOf deltas) miniblockCount deltas)

variable {bytes : List UInt8} {bits count : Nat}

end Purrdf.Parquet
