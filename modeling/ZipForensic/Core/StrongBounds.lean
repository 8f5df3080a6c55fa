import ZipForensic.Core.FailedChecks
import ZipForensic.Core.StrongRoundTrip

/-!
# The indices of the strong-encryption header (crypto.rs)

`parse_strong_layout` checks size fields that `read_strong_header` then cuts the remainder
buffer by. Here both take every byte by an index, every slice by its bounds and every
difference on `usize`, each of which can panic (`…Indexed`).

- `parseStrongLayoutIndexed_eq`, `unlockStrongIndexed_eq`: none does, so they agree with the
  functions on slices.
- `StrongLayout.Tiles`: what a layout says about the buffer it was read from.
- `readStrongHeader_exact`: for every stream, the header is as long as what was consumed.
-/

namespace ZipForensic

variable {k : Crates}

section Indexed

variable {ε : Type}

/-- `b[i]`. -/
def byteAt (b : Bytes) (i : Nat) : Res ε UInt8 :=
  match b[i]? with
  | some x => .ok x
  | none => .error .panic

/-- `from_le_bytes([b[off], b[off + 1], …])` of `w` bytes. -/
def leAt (b : Bytes) : Nat → Nat → Res ε Nat
  | _, 0 => .ok 0
  | off, w + 1 => do
    let low ← byteAt b off
    let high ← leAt b (off + 1) w
    return low.toNat + 256 * high

theorem leAt_eq {b : Bytes} {off w : Nat} (h : off + w ≤ b.length) :
    (leAt b off w : Res ε Nat) = .ok (leNat (slice b off w)) := by
  induction w generalizing off with
  | zero => rfl
  | succ w ih =>
    have hoff : off < b.length := by omega
    have hbyte : (byteAt b off : Res ε UInt8) = .ok b[off] := by
      rw [byteAt, List.getElem?_eq_getElem hoff]
    have hcons : slice b off (w + 1) = b[off] :: slice b (off + 1) w := by
      rw [slice, List.drop_eq_getElem_cons hoff, List.take_succ_cons]
      rfl
    rw [leAt, hbyte, Res.bind_ok, ih (by omega), Res.bind_ok, hcons]
    rfl

theorem sliceRange_front {b : Bytes} {n : Nat} (h : n ≤ b.length) :
    (sliceRange b 0 n : Res ε Bytes) = .ok (b.take n) :=
  if_pos ⟨Nat.zero_le n, h⟩

end Indexed

/-- `parse_strong_layout`, with its indices. -/
def parseStrongLayoutIndexed (p : Bytes) (entry : String) : Res ZipCoreError StrongLayout := do
  let refuse {α : Type} (reason : String) : Res ZipCoreError α :=
    Res.err (.unsupportedEncryption entry reason)
  let remSize := p.length
  let format ← leAt p 0 2
  if format ≠ 3 then
    refuse s!"strong-encryption format {format} (expected 3)"
  let alg ← leAt p 2 2
  if alg < algAes128 ∨ algAes128 + 2 < alg then
    refuse s!"strong-encryption AlgID {hexText 6 alg} is not AES (0x660E/0F/10)"
  let algIdx ← subU64 alg algAes128
  let bitLen ← leAt p 4 2
  let flags ← leAt p 6 2
  let keySize := 16 + algIdx * 8
  if keySize * 8 ≠ bitLen then
    refuse s!"strong-encryption BitLen {bitLen} does not match AlgID key size {keySize}"
  if flags &&& 0x4000 ≠ 0 then
    refuse "strong-encryption uses 3DES for the ERD (unsupported)"
  if flags &&& 0x0002 ≠ 0 then
    refuse "strong-encryption is certificate-based (no private key)"
  if flags &&& 0x0001 = 0 then
    refuse "strong-encryption header sets neither the password nor certificate flag"
  let rdSize ← leAt p 8 2
  if remSize < rdSize + 16 then
    refuse s!"strong-encryption ERD size {rdSize} overflows the {remSize}-byte header"
  if rdSize < aesBlock ∨ rdSize % aesBlock ≠ 0 then
    refuse s!"strong-encryption ERD size {rdSize} is not a positive multiple of {aesBlock}"
  let reservedOff ← addU64 10 rdSize
  let reserved ← leAt p reservedOff 4
  if reserved ≠ 0 then
    refuse (s!"strong-encryption Reserved1 {hexText 0 reserved} " ++
      "(certificate recipient list, unsupported)")
  let vsizeOff ← addU64 reservedOff 4
  let validSize ← leAt p vsizeOff 2
  let validOff ← addU64 vsizeOff 2
  if validSize < 4 ∨ validSize % aesBlock ≠ 0 ∨ validOff + validSize ≠ remSize then
    refuse s!"strong-encryption validation blob size {validSize} is inconsistent with the header"
  return { keySize, rdSize, validOff, validSize }

/-- A check that refuses, on both sides. -/
theorem refuse_lift {ε α β γ : Type} {c : Prop} [Decidable c] {e : ε} {f : β → Res ε α}
    {g : γ → Except ε α} {x : Res ε α} {y : Except ε α} (h : ¬ c → x = Res.lift y) :
    (if c then (Res.err e : Res ε β) >>= f else x) =
      Res.lift (if c then (.error e : Except ε γ) >>= g else y) := by
  by_cases hc : c
  · rw [if_pos hc, if_pos hc]
    rfl
  · rw [if_neg hc, if_neg hc, h hc]

/-- No index of the layout checks is out of range. -/
theorem parseStrongLayoutIndexed_eq {p : Bytes} (hlen : 16 ≤ p.length) (entry : String) :
    parseStrongLayoutIndexed p entry = Res.lift (parseStrongLayout p entry) := by
  have hword : ∀ off, off ≤ 14 → (leAt p off 2 : Res ZipCoreError Nat) =
      .ok (leNat (slice p off 2)) := fun off hoff => leAt_eq (by omega)
  have hrange : ∀ n, n < 65536 + 32 → n ≤ u64Max := fun n hn => by
    unfold u64Max
    omega
  have hrd : leNat (slice p 8 2) < 65536 := leNat_slice_lt p 8 2
  unfold parseStrongLayoutIndexed parseStrongLayout
  rw [hword 0 (by decide), Res.bind_ok]
  refine refuse_lift fun _ => ?_
  rw [hword 2 (by decide), Res.bind_ok]
  refine refuse_lift fun halg => ?_
  -- the fixed fields are within the ten bytes that every remainder has
  rw [subU64_eq (by omega), Res.bind_ok, hword 4 (by decide), Res.bind_ok, hword 6 (by decide),
    Res.bind_ok]
  refine refuse_lift fun _ => refuse_lift fun _ => refuse_lift fun _ => refuse_lift fun _ => ?_
  rw [hword 8 (by decide), Res.bind_ok]
  refine refuse_lift fun hroom => refuse_lift fun _ => ?_
  -- the fields behind the ERD: its size leaves room for six bytes
  rw [addU64_eq (hrange _ (by omega)), Res.bind_ok, leAt_eq (by omega), Res.bind_ok]
  refine refuse_lift fun _ => ?_
  rw [addU64_eq (hrange _ (by omega)), Res.bind_ok, leAt_eq (by omega), Res.bind_ok,
    addU64_eq (hrange _ (by omega)), Res.bind_ok]
  exact refuse_lift fun _ => rfl

/-! ## What a layout says about its buffer -/

/-- The buffer is ten fixed bytes with the size of the ERD in the last two of them, the ERD,
four zero bytes, two bytes with the size of the validation data, and the validation data. -/
structure StrongLayout.Tiles (layout : StrongLayout) (p fixed erd vdata : Bytes) : Prop where
  tiles : p = fixed ++ erd ++ [0, 0, 0, 0] ++ leBytes 2 vdata.length ++ vdata
  fixed_length : fixed.length = 10
  erdSize : leNat (slice fixed 8 2) = erd.length
  erd_length : erd.length = layout.rdSize
  erd_whole : 0 < layout.rdSize ∧ 16 ∣ layout.rdSize
  vdata_length : vdata.length = layout.validSize
  vdata_whole : 0 < layout.validSize ∧ 16 ∣ layout.validSize
  validOff : layout.validOff = 10 + layout.rdSize + 4 + 2

theorem of_refuse_ok {ε α β : Type} {c : Prop} [Decidable c] {e : ε} {g : β → Except ε α}
    {y : Except ε α} {a : α} (h : (if c then (.error e : Except ε β) >>= g else y) = .ok a) :
    ¬ c ∧ y = .ok a := by
  by_cases hc : c
  · rw [if_pos hc] at h
    cases h
  · rw [if_neg hc] at h
    exact ⟨hc, h⟩

/-- The sizes a layout holds, and what was checked of them. -/
theorem of_parseStrongLayout_ok {p : Bytes} {entry : String} {layout : StrongLayout}
    (h : parseStrongLayout p entry = .ok layout) :
    layout.rdSize = leNat (slice p 8 2) ∧
      ¬ (layout.rdSize < aesBlock ∨ layout.rdSize % aesBlock ≠ 0) ∧
      ¬ leNat (slice p (10 + layout.rdSize) 4) ≠ 0 ∧
      layout.validSize = leNat (slice p (10 + layout.rdSize + 4) 2) ∧
      layout.validOff = 10 + layout.rdSize + 4 + 2 ∧
      ¬ (layout.validSize < 4 ∨ layout.validSize % aesBlock ≠ 0 ∨
        layout.validOff + layout.validSize ≠ p.length) := by
  unfold parseStrongLayout at h
  obtain ⟨-, h⟩ := of_refuse_ok h
  obtain ⟨-, h⟩ := of_refuse_ok h
  obtain ⟨-, h⟩ := of_refuse_ok h
  obtain ⟨-, h⟩ := of_refuse_ok h
  obtain ⟨-, h⟩ := of_refuse_ok h
  obtain ⟨-, h⟩ := of_refuse_ok h
  obtain ⟨-, h⟩ := of_refuse_ok h
  obtain ⟨herd, h⟩ := of_refuse_ok h
  obtain ⟨hreserved, h⟩ := of_refuse_ok h
  obtain ⟨hvalid, h⟩ := of_refuse_ok h
  obtain rfl := Except.ok.inj h
  exact ⟨rfl, herd, hreserved, rfl, rfl, hvalid⟩

/-- **A layout tiles its buffer.** -/
theorem tiles_of_parseStrongLayout {p : Bytes} {entry : String} {layout : StrongLayout}
    (h : parseStrongLayout p entry = .ok layout) :
    layout.Tiles p (p.take 10) (slice p 10 layout.rdSize)
      (slice p layout.validOff layout.validSize) := by
  obtain ⟨hrd, herd, hreserved, hvsize, hoff, hvalid⟩ := of_parseStrongLayout_ok h
  unfold aesBlock at herd hvalid
  have hlen : 10 + layout.rdSize + 4 + 2 + layout.validSize = p.length := by omega
  have hvdata : (slice p layout.validOff layout.validSize).length = layout.validSize :=
    length_slice (by omega)
  -- a field that reads as a number is the bytes of that number
  have hzero : slice p (10 + layout.rdSize) 4 = [0, 0, 0, 0] := by
    have hback := leBytes_leNat (slice p (10 + layout.rdSize) 4)
    rw [length_slice (by omega), not_not.1 hreserved] at hback
    exact hback.symm
  have hsize : slice p (10 + layout.rdSize + 4) 2 = leBytes 2 layout.validSize := by
    have hback := leBytes_leNat (slice p (10 + layout.rdSize + 4) 2)
    rw [length_slice (by omega), ← hvsize] at hback
    exact hback.symm
  have htake : ∀ m n, slice p 0 m ++ slice p m n = slice p 0 (m + n) := fun m n => by
    have hadd := slice_add p 0 m n
    rwa [Nat.zero_add] at hadd
  refine ⟨?_, by rw [List.length_take]; omega, ?_, length_slice (by omega), ⟨by omega, by omega⟩,
    hvdata, ⟨by omega, by omega⟩, hoff⟩
  · show p = slice p 0 10 ++ _ ++ _ ++ _ ++ _
    rw [hvdata, ← hzero, ← hsize, hoff, htake, htake, htake, htake, hlen]
    exact (List.take_of_length_le (Nat.le_refl _)).symm
  · show leNat (slice (slice p 0 10) 8 2) = _
    rw [slice_slice (by decide), length_slice (by omega), hrd]

/-! ## What the password unlocks -/

/-- A buffer keeps its length. -/
theorem CbcDec.length_decryptBlocks (hb : k.AesBlocks) {blocks : Nat} {c : CbcDec} {data : Bytes}
    (hkey : AesKeySize c.key.length) (hprev : c.prev.length = aesBlock)
    (hblocks : blocks * aesBlock ≤ data.length) :
    (c.decryptBlocks k blocks data).length = data.length := by
  induction blocks generalizing c data with
  | zero => rfl
  | succ blocks ih =>
    rw [Nat.succ_mul] at hblocks
    have htake : (data.take aesBlock).length = aesBlock := by
      rw [List.length_take]
      omega
    have hrest : (decryptBlocks k blocks (c.decryptBlock k (data.take aesBlock)).2
        (data.drop aesBlock)).length = (data.drop aesBlock).length :=
      ih hkey htake (by rw [List.length_drop]; omega)
    have hblock : (c.decryptBlock k (data.take aesBlock)).1.length = aesBlock := by
      show (List.zipWith _ _ _).length = _
      rw [List.length_zipWith, hb _ _ hkey htake, hprev, Nat.min_self]
    rw [decryptBlocks, List.length_append, hrest, hblock, List.length_drop]
    omega

theorem length_of_cbcDecryptBuffer_ok (hb : k.AesBlocks) {key iv data out : Bytes} {entry : String}
    (hiv : iv.length = aesBlock) (h : cbcDecryptBuffer k key iv data entry = .ok out) :
    out.length = data.length := by
  obtain ⟨dec, hdec, h⟩ := Res.of_bind_ok h
  unfold CbcDec.new at hdec
  by_cases hkey : AesKeySize key.length
  · obtain rfl := Except.ok.inj ((if_pos hkey).symm.trans hdec)
    obtain rfl := Except.ok.inj h
    exact CbcDec.length_decryptBlocks hb hkey hiv (Nat.div_mul_le_self _ _)
  · cases (if_neg hkey).symm.trans hdec

/-- What the password unlocks, with the indices of `read_strong_header` on its buffers. -/
def unlockStrongIndexed (k : Crates) (p password iv : Bytes) (ivUsed : Nat) (entry : String) :
    Res ZipCoreError (Bytes × Bytes) := do
  let layout ← parseStrongLayoutIndexed p entry
  let masterKey := cryptDeriveKey k (k.sha1 password) layout.keySize
  let erdEnd ← addU64 10 layout.rdSize
  let erdCipher ← sliceRange p 10 erdEnd
  let erd ← Res.lift (cbcDecryptBuffer k masterKey iv erdCipher entry)
  let rdLen ← subU64 layout.rdSize aesBlock
  let pad ← sliceFrom erd rdLen
  if pad.any fun b => b.toNat ≠ aesBlock then
    Res.err (.wrongPassword entry)
  let rd ← sliceRange erd 0 rdLen
  let used ← sliceRange iv 0 ivUsed
  let fileKey := cryptDeriveKey k (k.sha1 (used ++ rd)) layout.keySize
  let validEnd ← addU64 layout.validOff layout.validSize
  let validCipher ← sliceRange p layout.validOff validEnd
  let vdata ← Res.lift (cbcDecryptBuffer k fileKey iv validCipher entry)
  let split ← subU64 layout.validSize 4
  let want ← leAt vdata split 4
  let checked ← sliceRange vdata 0 split
  if (k.crc32 checked).toNat ≠ want then
    Res.err (.wrongPassword entry)
  let ivOff ← subU64 p.length aesBlock
  let fileIv ← sliceRange p ivOff p.length
  return (fileIv, fileKey)

theorem bind_lift {ε α β : Type} {x : Except ε α} {f : α → Res ε β} {g : α → Except ε β}
    (h : ∀ a, x = .ok a → f a = Res.lift (g a)) : (Res.lift x >>= f) = Res.lift (x >>= g) := by
  cases x with
  | error e => rfl
  | ok a => exact h a rfl

/-- No index of the buffers is out of range. -/
theorem unlockStrongIndexed_eq (hb : k.AesBlocks) {p iv : Bytes} {ivUsed : Nat}
    (hlen : 16 ≤ p.length) (hroom : p.length ≤ maxStrongRem) (hiv : iv.length = aesBlock)
    (hused : ivUsed ≤ aesBlock) (password : Bytes) (entry : String) :
    unlockStrongIndexed k p password iv ivUsed entry =
      Res.lift (unlockStrong k p password iv ivUsed entry) := by
  have hrange : ∀ n, n ≤ p.length → n ≤ u64Max := fun n hn => by
    unfold u64Max
    unfold maxStrongRem at hroom
    omega
  unfold unlockStrongIndexed unlockStrong
  rw [parseStrongLayoutIndexed_eq hlen]
  refine bind_lift fun layout hlayout => ?_
  obtain ⟨-, herd, -, -, hoff, hvalid⟩ := of_parseStrongLayout_ok hlayout
  have hfits : 10 + layout.rdSize ≤ p.length ∧ layout.validOff + layout.validSize = p.length ∧
      aesBlock ≤ layout.rdSize ∧ 4 ≤ layout.validSize := by omega
  obtain ⟨herdEnd, hend, hrd, hfour⟩ := hfits
  -- decryption in place keeps the lengths, and so the pad and the checksum are there
  rw [addU64_eq (hrange _ herdEnd), Res.bind_ok, sliceRange_eq herdEnd, Res.bind_ok]
  refine bind_lift fun erd hcipher => ?_
  have herdLen := length_of_cbcDecryptBuffer_ok hb hiv hcipher
  rw [length_slice herdEnd] at herdLen
  rw [subU64_eq hrd, Res.bind_ok, sliceFrom_eq (by omega), Res.bind_ok]
  refine refuse_lift fun _ => ?_
  rw [sliceRange_front (by omega), Res.bind_ok, sliceRange_front (by omega), Res.bind_ok,
    addU64_eq (hrange _ (by omega)), Res.bind_ok, sliceRange_eq (by omega), Res.bind_ok]
  refine bind_lift fun vdata hcipher => ?_
  have hvdataLen := length_of_cbcDecryptBuffer_ok hb hiv hcipher
  rw [length_slice (by omega)] at hvdataLen
  rw [subU64_eq hfour, Res.bind_ok, leAt_eq (by omega), Res.bind_ok, sliceRange_front (by omega),
    Res.bind_ok]
  refine refuse_lift fun _ => ?_
  dsimp only
  have hlast : p.length - aesBlock + aesBlock = p.length := Nat.sub_add_cancel hlen
  have hfileIv : (sliceRange p (p.length - aesBlock) p.length : Res ZipCoreError Bytes) =
      .ok (slice p (p.length - aesBlock) aesBlock) := by
    have hslice := sliceRange_eq (ε := ZipCoreError) (n := aesBlock) (Nat.le_of_eq hlast)
    rwa [hlast] at hslice
  rw [subU64_eq (show aesBlock ≤ p.length from hlen), Res.bind_ok, hfileIv, Res.bind_ok]
  rfl

/-! ## The header -/

section Header

variable {ρ : Type} [Read IoError ρ]

/-- `read_strong_header`, with its indices. -/
def readStrongHeaderIndexed (k : Crates) (password : Bytes) (crc : UInt32) (unpackSize : Nat)
    (entry : String) : ReadM ρ (Fault ZipCoreError) StrongHeader := do
  let (iv, ivUsed, ivLen) ← ExceptT.adapt Fault.error (readStrongIv crc unpackSize entry)
  let sizeEnd ← ReadM.ofExcept (addU64 ivLen 4)
  let p ← ExceptT.adapt Fault.error (readStrongRemainder entry)
  let headerLen ← ReadM.ofExcept (addU64 sizeEnd p.length)
  let (fileIv, fileKey) ← ReadM.ofExcept (unlockStrongIndexed k p password iv ivUsed entry)
  return { iv := fileIv, fileKey, headerLen }

omit [Read IoError ρ] in
theorem runOn_adapt_error {ε α : Type} (x : ReadM ρ ε α) (r : ρ) :
    ReadM.runOn (ExceptT.adapt Fault.error x) r =
      (Res.lift (ReadM.runOn x r).1, (ReadM.runOn x r).2) := by
  rcases hx : ReadM.runOn x r with ⟨e | a, r'⟩
  · show ((Except.mapError Fault.error (ReadM.runOn x r).1), (ReadM.runOn x r).2) = _
    rw [hx]
    rfl
  · show ((Except.mapError Fault.error (ReadM.runOn x r).1), (ReadM.runOn x r).2) = _
    rw [hx]
    rfl

/-- The parts of a decryption header: the explicit IV, if there is one, and the remainder
with its layout. -/
structure HeaderParts (entry : String) where
  ivData : Bytes
  p : Bytes
  layout : StrongLayout
  fixed : Bytes
  erd : Bytes
  vdata : Bytes
  length_ivData : ivData = [] ∨ ivData.length = aesBlock
  parses : parseStrongLayout p entry = .ok layout
  tiles : layout.Tiles p fixed erd vdata

/-- IVSize, IVData, Size and the remainder. -/
def HeaderParts.bytes {entry : String} (h : HeaderParts entry) : Bytes :=
  leBytes 2 h.ivData.length ++ h.ivData ++ (leBytes 4 h.p.length ++ h.p)

variable [LawfulRead IoError ρ] {entry : String} {r r' : ρ}

/-- A header that is read is as long as what it was read from. -/
theorem of_readStrongHeader_ok {password : Bytes} {crc : UInt32} {unpackSize : Nat}
    {hdr : StrongHeader}
    (h : ReadM.runOn (readStrongHeader k password crc unpackSize entry) r = (.ok hdr, r')) :
    ∃ parts : HeaderParts entry, Consumes r parts.bytes r' ∧
      hdr.headerLen = parts.bytes.length := by
  obtain ⟨⟨iv, ivUsed, ivLen⟩, r₁, hiv, h⟩ := ReadM.of_runOn_bind_ok h
  obtain ⟨-, -, ivData, hivData, hivLen, hconsumes⟩ := of_readStrongIv_ok hiv
  obtain ⟨p, r₂, hp, h⟩ := ReadM.of_runOn_bind_ok h
  obtain ⟨-, -, hconsumes'⟩ := of_readStrongRemainder_ok hp
  obtain ⟨keys, r₃, hkeys, h⟩ := ReadM.of_runOn_bind_ok h
  rw [ReadM.runOn_ofExcept] at hkeys
  obtain ⟨hunlock, rfl⟩ := Prod.mk.inj hkeys
  obtain ⟨layout, hlayout, -⟩ := Res.of_bind_ok hunlock
  cases h
  refine ⟨⟨ivData, p, layout, _, _, _, hivData, hlayout, tiles_of_parseStrongLayout hlayout⟩,
    hconsumes.trans hconsumes', ?_⟩
  show ivLen + 4 + p.length = List.length (_ ++ _ ++ (_ ++ _))
  rw [hivLen]
  simp only [List.length_append, length_leBytes]
  omega

/-- The header is read without a panic. -/
theorem runOn_readStrongHeaderIndexed (hb : k.AesBlocks) (password : Bytes) (crc : UInt32)
    (unpackSize : Nat) (entry : String) (r : ρ) :
    ReadM.runOn (readStrongHeaderIndexed k password crc unpackSize entry) r =
      (Res.lift (ReadM.runOn (readStrongHeader k password crc unpackSize entry) r).1,
        (ReadM.runOn (readStrongHeader k password crc unpackSize entry) r).2) := by
  unfold readStrongHeaderIndexed readStrongHeader
  rw [ReadM.runOn_bind, ReadM.runOn_bind, runOn_adapt_error]
  rcases hiv : ReadM.runOn (readStrongIv crc unpackSize entry) r with ⟨e | ⟨iv, ivUsed, ivLen⟩, r₁⟩
  · rfl
  obtain ⟨hiv16, hused, ivData, hivData, hlen, -⟩ := of_readStrongIv_ok hiv
  have hfits : ivLen + 4 + maxStrongRem ≤ u64Max := by
    unfold aesBlock at hivData
    unfold maxStrongRem u64Max
    rcases hivData with rfl | hivData
    · rw [hlen]
      decide
    · rw [hlen, hivData]
      decide
  dsimp only [Res.lift]
  rw [addU64_eq (by omega), ReadM.runOn_bind_ok _ (ReadM.runOn_ofExcept _ _), ReadM.runOn_bind,
    ReadM.runOn_bind, runOn_adapt_error]
  rcases hp : ReadM.runOn (readStrongRemainder entry) r₁ with ⟨e | p, r₂⟩
  · rfl
  obtain ⟨hfront, hroom, -⟩ := of_readStrongRemainder_ok hp
  dsimp only [Res.lift]
  rw [addU64_eq (by omega), ReadM.runOn_bind_ok _ (ReadM.runOn_ofExcept _ _), ReadM.runOn_bind,
    ReadM.runOn_bind, ReadM.runOn_ofExcept, ReadM.runOn_ofExcept,
    unlockStrongIndexed_eq hb hfront hroom hiv16 hused]
  rcases unlockStrong k p password iv ivUsed entry with e | keys
  · rfl
  · rfl

theorem Res.lift_ne_panic {ε α : Type} (x : Except ε α) : Res.lift x ≠ .error .panic := by
  cases x <;> exact nofun

end Header

/-! ## The entry's data -/

section Entry

variable {password : Bytes} {entry : String}

/-- Of the data of an entry, the header takes what it is long and no more than there is. -/
theorem of_readStrongHeader_take_ok {crc : UInt32} {unpackSize compressedSize : Nat}
    {hdr : StrongHeader} {c : Source} {t : Take Source}
    (h : ReadM.runOn (readStrongHeader k password crc unpackSize entry)
      (⟨c, compressedSize⟩ : Take Source) = (.ok hdr, t)) :
    hdr.headerLen ≤ compressedSize ∧
      t = ⟨⟨c.bytes, c.pos + hdr.headerLen⟩, compressedSize - hdr.headerLen⟩ ∧
      ∃ parts : HeaderParts entry, slice c.bytes c.pos hdr.headerLen = parts.bytes := by
  obtain ⟨parts, hconsumes, hlen⟩ := of_readStrongHeader_ok h
  obtain ⟨hinner, hlimit⟩ := hconsumes.take
  obtain ⟨hpos, hbytes⟩ := hinner.cursor
  obtain ⟨inner, limit⟩ := t
  dsimp only at hinner hlimit hpos hbytes
  rw [hlen]
  refine ⟨by omega, ?_, parts, hbytes.symm⟩
  rw [hpos, ← hlimit, Nat.add_sub_cancel_left]

/-- The reader of the file data starts behind the header, with the rest of the data. -/
theorem reader_of_openStrongDecrypt {a : ZipArchive} {m : CentralEntry}
    {f : ZipFile k (Take Source)} (h : a.openStrongDecrypt m password = .ok f) :
    ∃ fields dataStart hdr, ∃ strong : StrongAesReader k (Take Source), ∃ d,
      lfhAt a.reader.bytes m.lfhOffset = .ok (fields, dataStart) ∧
      ReadM.runOn (readStrongHeader k password m.crc32 m.uncompressedSize m.name)
        (entryWindow a.reader.bytes m dataStart) = (.ok hdr, strong.inner) ∧
      strong.inner = ⟨⟨a.reader.bytes, dataStart + hdr.headerLen⟩,
        m.compressedSize - hdr.headerLen⟩ ∧
      hdr.headerLen + strong.remaining = m.compressedSize ∧
      Decoder.new m.method m.uncompressedSize
        (if m.method = .stored then .strongTake ⟨strong, m.uncompressedSize⟩ else .strong strong) =
          .ok d ∧
      f = .start m dataStart true d := by
  obtain ⟨fields, dataStart, hlfh, hset⟩ := ZipArchive.exists_lfh_of_openAt h
  obtain ⟨hdr, window, strong, d, hheader, hnew, hd, rfl⟩ := ZipFile.reader_of_openStrong hset
  obtain ⟨hle, hwindow, -⟩ := of_readStrongHeader_take_ok hheader
  obtain ⟨cipher, -, hstrong⟩ := Res.of_bind_ok hnew
  obtain rfl := Except.ok.inj hstrong
  exact ⟨fields, dataStart, hdr, _, d, hlfh, hheader, hwindow, Nat.add_sub_cancel' hle, hd, rfl⟩

end Entry

/-- **Reading the header is total and exact.** From every reader it is read without a panic,
and a header that is read is as long as what it took off the reader, which a layout tiles. Off
the data of an entry it takes no more than there is, and the reader of the file data is set up
behind it, for the rest of the data. -/
theorem readStrongHeader_exact (hb : k.AesBlocks) (password : Bytes) :
    (∀ {ρ : Type} [Read IoError ρ] [LawfulRead IoError ρ] (crc : UInt32) (unpackSize : Nat)
      (entry : String) (r : ρ),
      (ReadM.runOn (readStrongHeaderIndexed k password crc unpackSize entry) r).1 ≠ .error .panic ∧
      ReadM.runOn (readStrongHeaderIndexed k password crc unpackSize entry) r =
        (Res.lift (ReadM.runOn (readStrongHeader k password crc unpackSize entry) r).1,
          (ReadM.runOn (readStrongHeader k password crc unpackSize entry) r).2) ∧
      ∀ hdr r', ReadM.runOn (readStrongHeader k password crc unpackSize entry) r = (.ok hdr, r') →
        ∃ parts : HeaderParts entry, Consumes r parts.bytes r' ∧
          hdr.headerLen = parts.bytes.length) ∧
    (∀ (crc : UInt32) (unpackSize : Nat) (entry : String) (c : Source) (compressedSize : Nat) hdr t,
      ReadM.runOn (readStrongHeader k password crc unpackSize entry)
        (⟨c, compressedSize⟩ : Take Source) = (.ok hdr, t) →
      hdr.headerLen ≤ compressedSize ∧
        t = ⟨⟨c.bytes, c.pos + hdr.headerLen⟩, compressedSize - hdr.headerLen⟩ ∧
        ∃ parts : HeaderParts entry, slice c.bytes c.pos hdr.headerLen = parts.bytes) ∧
    ∀ (a : ZipArchive) (m : CentralEntry) (f : ZipFile k (Take Source)),
      a.openStrongDecrypt m password = .ok f →
      ∃ fields dataStart hdr, ∃ strong : StrongAesReader k (Take Source), ∃ d,
        lfhAt a.reader.bytes m.lfhOffset = .ok (fields, dataStart) ∧
        ReadM.runOn (readStrongHeader k password m.crc32 m.uncompressedSize m.name)
          (entryWindow a.reader.bytes m dataStart) = (.ok hdr, strong.inner) ∧
        strong.inner = ⟨⟨a.reader.bytes, dataStart + hdr.headerLen⟩,
          m.compressedSize - hdr.headerLen⟩ ∧
        hdr.headerLen + strong.remaining = m.compressedSize ∧
        Decoder.new m.method m.uncompressedSize
          (if m.method = .stored then .strongTake ⟨strong, m.uncompressedSize⟩
            else .strong strong) = .ok d ∧
        f = .start m dataStart true d := by
  refine ⟨?_, fun _ _ _ _ _ _ _ h => of_readStrongHeader_take_ok h,
    fun _ _ _ h => reader_of_openStrongDecrypt h⟩
  intro ρ _ _ crc unpackSize entry r
  have hrun := runOn_readStrongHeaderIndexed hb password crc unpackSize entry r
  refine ⟨?_, hrun, fun _ _ h => of_readStrongHeader_ok h⟩
  rw [hrun]
  exact Res.lift_ne_panic _

theorem ZipArchive.openDecrypt_strong {a : ZipArchive} {m : CentralEntry} {password : Bytes}
    (hdisk : checkLocalDisk m a.summary.diskNumber a.summary.cdStartDisk = .ok ())
    (hencrypted : m.flags &&& 0x0001 ≠ 0) (hunmasked : m.flags &&& 0x2000 = 0)
    (haes : m.aes = none) (hstrong : m.flags &&& 0x0040 ≠ 0) :
    (a.openDecrypt m password : Opened k) = a.openStrongDecrypt m password := by
  unfold openDecrypt
  rw [hdisk]
  dsimp only
  rw [if_neg fun hplain => hencrypted hplain.1, if_neg (not_not_intro hunmasked),
    if_pos ⟨haes, hstrong⟩]

/-- The header of the sample member has 54 bytes, and behind it is one block of file data. -/
theorem strongArchive_header :
    ∃ a, ∃ f : ZipFile strongSample (Take Source), ZipArchive.new ⟨strongArchive, 0⟩ = .ok a ∧
      a.openStrongDecrypt strongMember [0x70, 0x77] = .ok f ∧
      ∃ strong : StrongAesReader strongSample (Take Source), ∃ d,
        strong.inner = ⟨⟨strongArchive, 31 + 54⟩, 70 - 54⟩ ∧ 54 + strong.remaining = 70 ∧
        f = .start strongMember 31 true d := by
  have hb : strongSample.AesBlocks := fun key block hkey hblock =>
    (strongSample_primitives.aes key hkey).length_dec block hblock
  obtain ⟨pos, hnew⟩ := new_of_directoryOf directoryOf_strongArchive 0
  have hstored := storedIn_strongArchive pos
  obtain ⟨start, hopened⟩ := hstored.openedDecrypt strongSample_primitives rfl
  obtain ⟨f, hdecrypt, -⟩ := exists_of_view ((view_openDecrypt _ strongMember _).trans hopened)
  have hopen := (ZipArchive.openDecrypt_strong hstored.disk hstored.encrypted hstored.unmasked rfl
    hstored.strong).symm.trans hdecrypt
  obtain ⟨fields, dataStart, hdr, strong, d, hlfh, hheader, hinner, hrest, -, hf⟩ :=
    (readStrongHeader_exact hb [0x70, 0x77]).2.2 _ _ _ hopen
  have hstart : dataStart = 31 := by
    have hmap : (lfhAt strongArchive 0).map Prod.snd = .ok 31 := by decide +kernel
    exact Except.ok.inj ((congrArg (Except.map Prod.snd) hlfh).symm.trans hmap)
  have hlen : hdr.headerLen = 54 := by
    have hdata : Take.window (entryWindow strongArchive strongMember dataStart) =
        ⟨sampleStrongEntry.data strongSample sampleEncrypt [0x70, 0x77]⟩ := by
      rw [← hstored.data, entryData, hlfh]
      rfl
    have hwindow := natural_readStrongHeader (k := strongSample) readHom_window [0x70, 0x77]
      strongMember.crc32 sampleStrongEntry.plaintext.length strongMember.name
      (entryWindow strongArchive strongMember dataStart)
    rw [hdata, hstored.crc32, sampleStrongEntry.runOn_readStrongHeader strongSample_primitives]
      at hwindow
    have hsame := (Prod.mk.inj hwindow).1.trans (congrArg Prod.fst (hstored.crc32 ▸ hheader))
    rw [← Except.ok.inj hsame]
    show _ + 4 + List.length _ = 54
    rw [sampleStrongEntry.length_remainder strongSample_primitives]
    rfl
  subst hstart
  rw [hlen] at hinner hrest
  exact ⟨_, f, hnew, hopen, strong, d, hinner, hrest, hf⟩

end ZipForensic
