import ZipForensic.Core.Names

/-!
# What a decoded field says about its bytes

A header copy keeps its name as text and its method as a case of
`CompressionMethod`.

- `eq_encoding_of_fromUtf8`: a well-formed UTF-8 name is the encoding of its text.
- `decodeName_eq_iff`: under one flag word two names are confused only where both are
  taken as UTF-8 and their lossy decodings agree.
- `CompressionMethod.fromU16_eq_iff`: two method ids are confused only within the ids of
  Reduce.
-/

namespace ZipForensic

/-! ## UTF-8 -/

theorem toNat_ofNat_scalar {n : Nat} (h : n < 0xD800 ∨ 0xDFFF < n ∧ n < 0x110000) :
    (Char.ofNat n).toNat = n := by
  rw [Char.ofNat, dif_pos]
  · rfl
  · exact h

theorem isContinuation_bounds {b : UInt8} (h : isContinuation b = true) :
    0x80 ≤ b.toNat ∧ b.toNat ≤ 0xBF := by
  simpa [isContinuation] using h

/-- The bounds on a second byte, with the four leads that narrow them. -/
theorem secondOk_bounds {lead second : Nat} (h : secondOk lead second = true) :
    0x80 ≤ second ∧ second ≤ 0xBF ∧ (lead = 0xE0 → 0xA0 ≤ second) ∧
      (lead = 0xED → second ≤ 0x9F) ∧ (lead = 0xF0 → 0x90 ≤ second) ∧
      (lead = 0xF4 → second ≤ 0x8F) := by
  unfold secondOk at h
  split at h <;> simp only [Bool.and_eq_true, decide_eq_true_eq] at h <;>
    refine ⟨by omega, by omega, ?_, ?_, ?_, ?_⟩ <;> intro hlead <;> first | omega | contradiction

theorem ofNat_eq_byte {b : UInt8} {n : Nat} (h : n = b.toNat) : UInt8.ofNat n = b := by
  rw [h, UInt8.ofNat_toNat]

section Encoding

variable {b₀ b₁ b₂ b₃ : UInt8}

theorem encoding_one (h : b₀.toNat < 0x80) :
    String.utf8EncodeChar (Char.ofNat b₀.toNat) = [b₀] := by
  have hv : (Char.ofNat b₀.toNat).val.toNat = b₀.toNat :=
    toNat_ofNat_scalar (.inl (by omega))
  unfold String.utf8EncodeChar
  rw [hv, if_pos (by omega), UInt8.ofNat_toNat]

theorem encoding_two (h₀ : 0xC2 ≤ b₀.toNat ∧ b₀.toNat ≤ 0xDF) (h₁ : isContinuation b₁ = true) :
    String.utf8EncodeChar (Char.ofNat (b₀.toNat % 32 * 64 + tail6 b₁)) = [b₀, b₁] := by
  have hb₁ := isContinuation_bounds h₁
  unfold tail6
  have hv : (Char.ofNat (b₀.toNat % 32 * 64 + b₁.toNat % 64)).val.toNat =
      b₀.toNat % 32 * 64 + b₁.toNat % 64 := toNat_ofNat_scalar (.inl (by omega))
  unfold String.utf8EncodeChar
  rw [hv, if_neg (by omega), if_pos (by omega), ofNat_eq_byte (b := b₀) (by omega),
    ofNat_eq_byte (b := b₁) (by omega)]

/-- No surrogate and no overlong form is among the three-byte sequences. -/
theorem encoding_three (h₀ : 0xE0 ≤ b₀.toNat ∧ b₀.toNat ≤ 0xEF)
    (h₁ : secondOk b₀.toNat b₁.toNat = true) (h₂ : isContinuation b₂ = true) :
    String.utf8EncodeChar (Char.ofNat ((b₀.toNat % 16 * 64 + tail6 b₁) * 64 + tail6 b₂)) =
      [b₀, b₁, b₂] := by
  have hb₂ := isContinuation_bounds h₂
  obtain ⟨hlow, hhigh, hE0, hED, -, -⟩ := secondOk_bounds h₁
  unfold tail6
  have hv : (Char.ofNat ((b₀.toNat % 16 * 64 + b₁.toNat % 64) * 64 + b₂.toNat % 64)).val.toNat =
      (b₀.toNat % 16 * 64 + b₁.toNat % 64) * 64 + b₂.toNat % 64 :=
    toNat_ofNat_scalar (by omega)
  unfold String.utf8EncodeChar
  rw [hv, if_neg (by omega), if_neg (by omega), if_pos (by omega),
    ofNat_eq_byte (b := b₀) (by omega), ofNat_eq_byte (b := b₁) (by omega),
    ofNat_eq_byte (b := b₂) (by omega)]

theorem encoding_four (h₀ : 0xF0 ≤ b₀.toNat ∧ b₀.toNat ≤ 0xF4)
    (h₁ : secondOk b₀.toNat b₁.toNat = true) (h₂ : isContinuation b₂ = true)
    (h₃ : isContinuation b₃ = true) :
    String.utf8EncodeChar (Char.ofNat
      (((b₀.toNat % 8 * 64 + tail6 b₁) * 64 + tail6 b₂) * 64 + tail6 b₃)) = [b₀, b₁, b₂, b₃] := by
  have hb₂ := isContinuation_bounds h₂
  have hb₃ := isContinuation_bounds h₃
  obtain ⟨hlow, hhigh, -, -, hF0, hF4⟩ := secondOk_bounds h₁
  unfold tail6
  have hv : (Char.ofNat (((b₀.toNat % 8 * 64 + b₁.toNat % 64) * 64 + b₂.toNat % 64) * 64 +
      b₃.toNat % 64)).val.toNat =
        ((b₀.toNat % 8 * 64 + b₁.toNat % 64) * 64 + b₂.toNat % 64) * 64 + b₃.toNat % 64 :=
    toNat_ofNat_scalar (by omega)
  unfold String.utf8EncodeChar
  rw [hv, if_neg (by omega), if_neg (by omega), if_neg (by omega),
    ofNat_eq_byte (b := b₀) (by omega), ofNat_eq_byte (b := b₁) (by omega),
    ofNat_eq_byte (b := b₂) (by omega), ofNat_eq_byte (b := b₃) (by omega)]

end Encoding

/-- A sequence that decodes is the encoding of its character. -/
theorem utf8Next_eq_some {b : UInt8} {rest r : Bytes} {c : Char}
    (h : utf8Next b rest = (some c, r)) : b :: rest = String.utf8EncodeChar c ++ r := by
  unfold utf8Next at h
  dsimp only at h
  split_ifs at h with h₁ h₂ h₃ h₄
  · cases h
    rw [encoding_one h₁]
    rfl
  · rcases rest with _ | ⟨b₁, r₁⟩
    · cases h
    · dsimp only at h
      split_ifs at h with hb₁ <;> cases h
      rw [encoding_two h₂ hb₁]
      rfl
  · rcases rest with _ | ⟨b₁, _ | ⟨b₂, r₂⟩⟩
    · cases h
    · dsimp only at h
      split_ifs at h <;> cases h
    · dsimp only at h
      split_ifs at h with hb₁ hb₂ <;> cases h
      rw [encoding_three h₃ hb₁ hb₂]
      rfl
  · rcases rest with _ | ⟨b₁, _ | ⟨b₂, _ | ⟨b₃, r₃⟩⟩⟩
    · cases h
    · dsimp only at h
      split_ifs at h <;> cases h
    · dsimp only at h
      split_ifs at h <;> cases h
    · dsimp only at h
      split_ifs at h with hb₁ hb₂ hb₃ <;> cases h
      rw [encoding_four h₄ hb₁ hb₂ hb₃]
      rfl
  · cases h

/-- What follows a sequence is a suffix of what followed its first byte. -/
theorem utf8Next_suffix (b : UInt8) (rest : Bytes) : (utf8Next b rest).2 <:+ rest := by
  unfold utf8Next
  dsimp only
  split_ifs
  · exact List.suffix_refl _
  · rcases rest with _ | ⟨b₁, r₁⟩
    · exact List.suffix_refl _
    · dsimp only
      split_ifs
      · exact ⟨[b₁], rfl⟩
      · exact List.suffix_refl _
  · rcases rest with _ | ⟨b₁, _ | ⟨b₂, r₂⟩⟩
    · exact List.suffix_refl _
    · dsimp only
      split_ifs
      · exact ⟨[b₁], rfl⟩
      · exact List.suffix_refl _
    · dsimp only
      split_ifs
      · exact ⟨[b₁, b₂], rfl⟩
      · exact ⟨[b₁], rfl⟩
      · exact List.suffix_refl _
  · rcases rest with _ | ⟨b₁, _ | ⟨b₂, _ | ⟨b₃, r₃⟩⟩⟩
    · exact List.suffix_refl _
    · dsimp only
      split_ifs
      · exact ⟨[b₁], rfl⟩
      · exact List.suffix_refl _
    · dsimp only
      split_ifs
      · exact ⟨[b₁, b₂], rfl⟩
      · exact ⟨[b₁], rfl⟩
      · exact List.suffix_refl _
    · dsimp only
      split_ifs
      · exact ⟨[b₁, b₂, b₃], rfl⟩
      · exact ⟨[b₁, b₂], rfl⟩
      · exact ⟨[b₁], rfl⟩
      · exact List.suffix_refl _
  · exact List.suffix_refl _

theorem utf8Sequences_cons {n : Nat} {b : UInt8} {rest r : Bytes} {c : Option Char}
    (h : utf8Next b rest = (c, r)) :
    utf8Sequences (n + 1) (b :: rest) = c :: utf8Sequences n r := by
  rw [utf8Sequences, h]

theorem eq_encoding_of_utf8Sequences {n : Nat} {bytes : Bytes} (hn : bytes.length ≤ n)
    (hall : ∀ o ∈ utf8Sequences n bytes, o.isSome = true) :
    bytes = ((utf8Sequences n bytes).filterMap id).flatMap String.utf8EncodeChar := by
  induction n generalizing bytes with
  | zero =>
    rw [List.length_eq_zero_iff.1 (Nat.le_zero.1 hn)]
    rfl
  | succ n ih =>
    cases bytes with
    | nil => rfl
    | cons b rest =>
      rcases hnext : utf8Next b rest with ⟨_ | c, r⟩
      · rw [utf8Sequences_cons hnext] at hall
        exact absurd (hall none (List.mem_cons_self ..)) (by simp)
      · have hshorter := (utf8Next_suffix b rest).length_le
        rw [hnext] at hshorter
        rw [utf8Sequences_cons hnext] at hall ⊢
        have htail := ih (Nat.le_trans hshorter (Nat.le_of_succ_le_succ hn)) fun o ho =>
          hall o (List.mem_cons_of_mem _ ho)
        rw [utf8Next_eq_some hnext, List.filterMap_cons_some (f := id) rfl, List.flatMap_cons,
          ← htail]

/-- A name that is well-formed UTF-8 is the encoding of its text. -/
theorem eq_encoding_of_fromUtf8 {bytes : Bytes} {text : String} (h : fromUtf8 bytes = some text) :
    bytes = text.toList.flatMap String.utf8EncodeChar := by
  unfold fromUtf8 at h
  dsimp only at h
  split_ifs at h with hall
  rw [← Option.some.inj h, String.toList_ofList]
  exact eq_encoding_of_utf8Sequences (Nat.le_refl _) (List.all_eq_true.1 hall)

theorem filterMap_id_of_isSome {α : Type} (d : α) {os : List (Option α)}
    (h : ∀ o ∈ os, o.isSome = true) : os.filterMap id = os.map fun o => o.getD d := by
  induction os with
  | nil => rfl
  | cons o os ih =>
    obtain ⟨a, rfl⟩ := Option.isSome_iff_exists.1 (h o (List.mem_cons_self ..))
    rw [List.filterMap_cons_some (f := id) rfl, ih fun o ho => h o (List.mem_cons_of_mem _ ho)]
    rfl

/-- On well-formed names nothing is lost. -/
theorem fromUtf8Lossy_of_fromUtf8 {bytes : Bytes} {text : String} (h : fromUtf8 bytes = some text) :
    fromUtf8Lossy bytes = text := by
  unfold fromUtf8 at h
  dsimp only at h
  split_ifs at h with hall
  rw [← Option.some.inj h, fromUtf8Lossy,
    filterMap_id_of_isSome (Char.ofNat 0xFFFD) (List.all_eq_true.1 hall)]

/-- Two well-formed names with one text are one name. -/
theorem eq_of_fromUtf8Lossy_eq {x y : Bytes} (hx : fromUtf8 x ≠ none) (hy : fromUtf8 y ≠ none)
    (h : fromUtf8Lossy x = fromUtf8Lossy y) : x = y := by
  obtain ⟨s, hs⟩ := Option.ne_none_iff_exists'.1 hx
  obtain ⟨t, ht⟩ := Option.ne_none_iff_exists'.1 hy
  have hst : s = t := by rw [← fromUtf8Lossy_of_fromUtf8 hs, h, fromUtf8Lossy_of_fromUtf8 ht]
  rw [eq_encoding_of_fromUtf8 hs, hst, ← eq_encoding_of_fromUtf8 ht]

/-! ## CP437 -/

namespace Cp437

/-- The table holds 128 different characters outside ASCII. -/
theorem high_entry : ∀ i < 128, 0x80 ≤ high.getD i 0 ∧ high.getD i 0 < 0xD800 ∧
    high.idxOf (high.getD i 0) = i := by decide +kernel

/-- The byte a character is decoded from. -/
def encode (c : Char) : Nat := if c.toNat < 0x80 then c.toNat else 0x80 + high.idxOf c.toNat

theorem encode_decode (b : UInt8) : encode (decode b) = b.toNat := by
  unfold encode decode
  by_cases hb : b.toNat < 0x80
  · rw [if_pos hb, toNat_ofNat_scalar (.inl (by omega)), if_pos hb]
  · have hbyte := b.toNat_lt
    obtain ⟨hlow, hscalar, hindex⟩ := high_entry (b.toNat - 0x80) (by omega)
    rw [if_neg hb, toNat_ofNat_scalar (.inl hscalar), if_neg (by omega), hindex]
    omega

theorem decode_injective : Function.Injective decode := fun x y h => by
  have hencode := congrArg encode h
  rw [encode_decode, encode_decode] at hencode
  exact UInt8.toNat_inj.1 hencode

end Cp437

/-! ## Names -/

theorem utf8Sequences_ascii {bytes : Bytes} (h : ∀ b ∈ bytes, b.toNat < 0x80) :
    utf8Sequences bytes.length bytes = bytes.map fun b => some (Char.ofNat b.toNat) := by
  induction bytes with
  | nil => rfl
  | cons b rest ih =>
    have hnext : utf8Next b rest = (some (Char.ofNat b.toNat), rest) :=
      if_pos (h b (List.mem_cons_self ..))
    rw [List.length_cons, utf8Sequences_cons hnext, ih fun b hb => h b (List.mem_cons_of_mem _ hb)]
    rfl

theorem decodeName_of_bit_set {flags : Nat} (h : flags &&& 0x0800 ≠ 0) (bytes : Bytes) :
    decodeName bytes flags = fromUtf8Lossy bytes := if_pos (.inl h)

/-- Without bit 11 a name is CP437; on ASCII names the two decodings agree. -/
theorem decodeName_of_bit_clear {flags : Nat} (h : flags &&& 0x0800 = 0) (bytes : Bytes) :
    decodeName bytes flags = String.ofList (bytes.map Cp437.decode) := by
  unfold decodeName
  by_cases hascii : bytes.all (fun b => decide (b.toNat < 0x80)) = true
  · rw [if_pos (.inr hascii), fromUtf8Lossy]
    have hbytes : ∀ b ∈ bytes, b.toNat < 0x80 := fun b hb =>
      of_decide_eq_true (List.all_eq_true.1 hascii b hb)
    rw [utf8Sequences_ascii hbytes, List.map_map]
    congr 1
    exact List.map_congr_left fun b hb => (if_pos (hbytes b hb)).symm
  · rw [if_neg (not_or.2 ⟨not_not.2 h, hascii⟩)]

/-- Under one flag word two names are confused only by the lossy decoding of UTF-8. -/
theorem decodeName_eq_iff (x y : Bytes) (flags : Nat) :
    decodeName x flags = decodeName y flags ↔
      x = y ∨ flags &&& 0x0800 ≠ 0 ∧ fromUtf8Lossy x = fromUtf8Lossy y := by
  by_cases hbit : flags &&& 0x0800 = 0
  · rw [decodeName_of_bit_clear hbit, decodeName_of_bit_clear hbit, String.ofList_inj]
    constructor
    · exact fun h => .inl (Cp437.decode_injective.list_map h)
    · rintro (rfl | ⟨hset, -⟩)
      · rfl
      · exact absurd hbit hset
  · rw [decodeName_of_bit_set hbit, decodeName_of_bit_set hbit]
    constructor
    · exact fun h => .inr ⟨hbit, h⟩
    · rintro (rfl | ⟨-, h⟩)
      · rfl
      · exact h

/-! ## Methods -/

namespace CompressionMethod

/-- The (least) id of a method. -/
def id : CompressionMethod → Nat
  | stored => 0
  | shrunk => 1
  | reduced => 2
  | imploded => 6
  | deflated => 8
  | deflate64 => 9
  | dclImploded => 10
  | bzip2 => 12
  | lzma => 14
  | ibmCmpsc => 16
  | ibmTerse => 18
  | ibmLz77 => 19
  | zstd => 93
  | mp3 => 94
  | xz => 95
  | jpeg => 96
  | wavPack => 97
  | ppmd => 98
  | unknown raw => raw

/-- The ids of the four Reduce methods. -/
def IsReduceId (raw : Nat) : Prop := 2 ≤ raw ∧ raw ≤ 5

instance (raw : Nat) : Decidable (IsReduceId raw) := inferInstanceAs (Decidable (_ ∧ _))

theorem fromU16_reduce {raw : Nat} (h : IsReduceId raw) : fromU16 raw = reduced := by
  unfold IsReduceId at h
  obtain rfl | rfl | rfl | rfl : raw = 2 ∨ raw = 3 ∨ raw = 4 ∨ raw = 5 := by omega
  all_goals rfl

theorem id_fromU16 {raw : Nat} (h : ¬ IsReduceId raw) : (fromU16 raw).id = raw := by
  unfold IsReduceId at h
  unfold fromU16
  split <;> first | rfl | omega

/-- Two ids are confused only within the ids of Reduce. -/
theorem fromU16_eq_iff (a b : Nat) :
    fromU16 a = fromU16 b ↔ a = b ∨ IsReduceId a ∧ IsReduceId b := by
  constructor
  · intro h
    by_cases ha : IsReduceId a
    · by_cases hb : IsReduceId b
      · exact .inr ⟨ha, hb⟩
      · have hid := id_fromU16 hb
        rw [← h, fromU16_reduce ha] at hid
        exact absurd ⟨Nat.le_of_eq hid, Nat.le_trans (Nat.le_of_eq hid.symm) (by decide)⟩ hb
    · by_cases hb : IsReduceId b
      · have hid := id_fromU16 ha
        rw [h, fromU16_reduce hb] at hid
        exact absurd ⟨Nat.le_of_eq hid, Nat.le_trans (Nat.le_of_eq hid.symm) (by decide)⟩ ha
      · rw [← id_fromU16 ha, h, id_fromU16 hb]
        exact .inl rfl
  · rintro (rfl | ⟨ha, hb⟩)
    · rfl
    · rw [fromU16_reduce ha, fromU16_reduce hb]

end CompressionMethod

end ZipForensic
