import Purrdf.RankSelectExact
import Purrdf.ParquetDelta

/-!
# A directory and its bytes

Freezing a bit sequence builds a directory of it, and the directory read back from its bytes is one
of the same bits.
-/

namespace Purrdf.PackBits

variable {kind : Bool} {bits : List Bool}

theorem length_fields (width : Nat) (xs : List Nat) :
    (xs.flatMap (leBytes width)).length = xs.length * width := by
  simp

theorem readLe_fields {width : Nat} {xs : List Nat} {i x : Nat} (at_place : xs[i]? = some x)
    (fits : x < 256 ^ width) (rest : List UInt8) :
    readLe (xs.flatMap (leBytes width) ++ rest) (i * width) width = some x := by
  obtain ⟨inside, rfl⟩ := List.getElem?_eq_some_iff.mp at_place
  have split : xs.flatMap (leBytes width) ++ rest = (xs.take i).flatMap (leBytes width) ++
      (leBytes width xs[i] ++ ((xs.drop (i + 1)).flatMap (leBytes width) ++ rest)) := by
    rw [← List.append_assoc, ← List.append_assoc, List.append_assoc ((xs.take i).flatMap _),
      ← List.flatMap_cons, ← List.drop_eq_getElem_cons inside, ← List.flatMap_append,
      List.take_append_drop]
  have start : ((xs.take i).flatMap (leBytes width)).length = i * width := by
    rw [length_fields, List.length_take, Nat.min_eq_left (Nat.le_of_lt inside)]
  rw [split, readLe, if_pos, List.drop_left' start, List.take_left' (leBytes_length _ _),
    leValue_leBytes_of_lt fits]
  rw [List.length_append, start, List.length_append, leBytes_length]
  omega

theorem DirOf.view {bitmap : RankSelect} (frozen : DirOf bits bitmap.dir)
    (blocks : bitmap.blockRank.length = bitmap.words.length) (sized : bits.length < 2 ^ 64) :
    ∃ view, RankSelectRef.fromBytes bitmap.toBytes = .ok view ∧ DirOf bits view.dir := by
  obtain ⟨len, totalOnes, wordList, superblockRank, blockRank⟩ := bitmap
  obtain ⟨words, words_eq⟩ : ∃ words, wordList.map UInt64.toNat = words := ⟨_, rfl⟩
  have words_length : words.length = wordList.length := by rw [← words_eq, List.length_map]
  obtain ⟨header, header_eq⟩ :
    ∃ header, [len, totalOnes, words.length, superblockRank.length] = header := ⟨_, rfl⟩
  have bytes_eq : (RankSelect.mk len totalOnes wordList superblockRank blockRank).toBytes =
      header.flatMap (leBytes 8) ++ (superblockRank.flatMap (leBytes 8) ++
        (blockRank.flatMap (leBytes 2) ++ words.flatMap (leBytes 8))) := by
    simp [RankSelect.toBytes, ← header_eq, ← words_eq, List.flatMap_map]
  have len_eq : len = bits.length := frozen.len
  have total : totalOnes = rank true bits bits.length := frozen.totalOnes
  have ones : rank true bits bits.length ≤ bits.length := Nat.count_le _
  have count : words.length = divCeil len 64 := words_length.trans (frozen.wordsLen.trans (by rw [len_eq]))
  have supers : superblockRank.length = divCeil words.length 8 := by
    rw [words_length]
    exact frozen.superblocks
  have bounds : words.length < 2 ^ 60 ∧ superblockRank.length < 2 ^ 60 := by
    rw [supers, count, divCeil, divCeil]
    omega
  have field : ∀ i x, header[i]? = some x → x < 2 ^ 64 →
      readHeaderU64 (header.flatMap (leBytes 8) ++ (superblockRank.flatMap (leBytes 8) ++
        (blockRank.flatMap (leBytes 2) ++ words.flatMap (leBytes 8)))) (i * 8) = .ok x := by
    intro i x at_place fits
    rw [readHeaderU64, readLe_fields at_place fits]
  have opened : (header.flatMap (leBytes 8)).length = 32 := by
    rw [length_fields, ← header_eq]
    rfl
  have second : (superblockRank.flatMap (leBytes 8)).length = superblockRank.length * 8 :=
    length_fields 8 superblockRank
  have third : (blockRank.flatMap (leBytes 2)).length = words.length * 2 := by
    rw [length_fields, blocks, ← words_length]
  have last : (words.flatMap (leBytes 8)).length = words.length * 8 := length_fields 8 words
  have parsed : RankSelectRef.fromBytes (RankSelect.mk len totalOnes wordList superblockRank
      blockRank).toBytes = .ok ⟨len, totalOnes, words.length, superblockRank.length,
        superblockRank.flatMap (leBytes 8), blockRank.flatMap (leBytes 2), words.flatMap (leBytes 8)⟩ := by
    rw [bytes_eq, RankSelectRef.fromBytes, field 0 len (by rw [← header_eq]; rfl) (by omega),
      field 1 totalOnes (by rw [← header_eq]; rfl) (by omega),
      field 2 words.length (by rw [← header_eq]; rfl) (by omega),
      field 3 superblockRank.length (by rw [← header_eq]; rfl) (by omega)]
    change (if len < totalOnes then _ else if words.length ≠ _ then _ else
      if superblockRank.length ≠ _ then _ else if _ < 32 + _ * 8 + _ * 2 + _ * 8 then _ else _) = _
    rw [if_neg (by omega), if_neg (not_not.mpr count), if_neg (not_not.mpr supers), if_neg]
    · rw [← List.drop_drop, List.drop_left' opened, ← List.drop_drop, ← List.drop_drop,
        List.drop_left' opened, List.drop_left' second, List.drop_left' third, List.take_left' second,
        List.take_left' third, ← last, List.take_length]
    · simp only [List.length_append, opened, second, third, last]
      omega
  have read : ∀ width (xs : List Nat) (i x : Nat), xs[i]? = some x → x < 256 ^ width →
      readLe (xs.flatMap (leBytes width)) (i * width) width = some x := fun width xs i x at_place fits => by
    have := readLe_fields at_place fits []
    rwa [List.append_nil] at this
  refine ⟨_, parsed, frozen.len, frozen.totalOnes, words_length.trans frozen.wordsLen, supers,
    fun w inside => ?_, fun sb inside => ?_, fun w inside => ?_⟩
  · obtain ⟨word, wide, at_place, marks⟩ := frozen.word w (inside.trans_eq words_length)
    refine ⟨word, wide, read 8 words w word ?_ wide, marks⟩
    rw [← words_eq, List.getElem?_map]
    exact at_place
  · have low : rank true bits (512 * sb) ≤ 512 * sb := Nat.count_le _
    change sb < superblockRank.length at inside
    refine read 8 _ sb _ (frozen.superblock sb inside) ?_
    rw [supers, count, divCeil, divCeil] at inside
    omega
  · have near := @rank_near true bits (512 * (w / 8)) (64 * (w % 8))
    rw [show 512 * (w / 8) + 64 * (w % 8) = 64 * w by omega] at near
    exact read 2 _ w _ (frozen.block w (inside.trans_eq words_length)) (by omega)

/-! ### Built sequences and vectors -/

def Answers (bits : List Bool) (dir : RankSelectDir) : Prop :=
  (∀ i ≤ bits.length, dir.rank1 i = some (rank true bits i) ∧ dir.rank0 i = some (rank false bits i)) ∧
    ∀ k, dir.select1 k = some (positions true bits)[k]? ∧ dir.select0 k = some (positions false bits)[k]?

theorem DirOf.answers {dir : RankSelectDir} (frozen : DirOf bits dir) : Answers bits dir :=
  ⟨fun _ inside => ⟨RankSelectDir.rank1_eq frozen inside, RankSelectDir.rank0_eq frozen inside⟩,
    fun k => ⟨RankSelectDir.select1_eq frozen k, RankSelectDir.select0_eq frozen k⟩⟩

end Purrdf.PackBits
