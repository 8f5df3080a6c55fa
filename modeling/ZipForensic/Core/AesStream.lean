import ZipForensic.Cipher.Keystream
import ZipForensic.Core.EntryView
import ZipForensic.Stream.FrameCodec

/-!
# The WinZip AES stream over an entry's bytes (crypto.rs)

An AES entry is a salt, a password verifier, the ciphertext and a 10-byte
authentication code (`AesEntry`). Its reader goes through phases:

- `Quiet`: ciphertext is still delivered, or the last of it just was; the code was not
  looked at. Every read that delivers stays here (`Quiet.read_more`).
- `Authenticated`: the code was read and is that of the whole ciphertext.
- `Checked`: a read at the end of the ciphertext looked for the code. The reader notes
  that before the comparison, so a failed check leaves it here as well, and every further
  read reports the end of the stream.

What a read at the end of the ciphertext does is decided by the entry alone: it fails
for good if the ciphertext is cut short (`Quiet.read_truncated`), authenticates if the
code is right (`Quiet.read_authentic`), and fails once if it is not
(`Quiet.read_forged`).
-/

namespace ZipForensic

/-- A WinZip AES entry as it lies in the file, with the password it is opened with. -/
structure AesEntry where
  info : AesInfo
  compressedSize : Nat
  /-- The entry's data, as far as the file has it. -/
  data : Bytes
  password : Bytes
  length_le : data.length ≤ compressedSize

namespace AesEntry

variable (k : Crates) (x : AesEntry)

/-- Where the ciphertext begins. -/
def start : Nat := saltLen x.info.strength + 2

/-- The number of ciphertext bytes. -/
def total : Nat := x.compressedSize - AesReader.overhead x.info.strength

def ciphertext : Bytes := slice x.data x.start x.total

def authCode : Bytes := slice x.data (x.start + x.total) 10

/-- The encryption key, the MAC key and the password verifier. -/
def derived : Bytes :=
  k.pbkdf2HmacSha1 x.password (x.data.take (saltLen x.info.strength)) 1000
    (2 * keyLen x.info.strength + 2)

def encKey : Bytes := (x.derived k).take (keyLen x.info.strength)

def macKey : Bytes := slice (x.derived k) (keyLen x.info.strength) (keyLen x.info.strength)

/-- The compressed data: the ciphertext, xored with the keystream from its first byte on. -/
def plaintext : Bytes := combined (· ^^^ ·) (k.aesCtr (x.encKey k)) 0 x.ciphertext

/-- The file ends within the ciphertext. -/
def Truncated : Prop := x.ciphertext.length < x.total

/-- The authentication code is there and is that of the ciphertext. -/
def Authentic : Prop :=
  x.authCode.length = 10 ∧ (k.hmacSha1 (x.macKey k) x.ciphertext).take 10 = x.authCode

instance : Decidable x.Truncated := inferInstanceAs (Decidable (_ < _))

instance : Decidable (x.Authentic k) := inferInstanceAs (Decidable (_ ∧ _))

/-- The reader at the start of the ciphertext. -/
def reader (name : String) : AesReader k (Window IoError) where
  inner := ⟨x.data.drop x.start⟩
  cipher := ⟨x.encKey k, 0⟩
  hmac := ⟨x.macKey k, []⟩
  remaining := x.total
  entry := name
  done := false

variable {k x}

theorem not_truncated_of_authCode (hcode : x.authCode.length = 10) : ¬ x.Truncated := by
  intro hshort
  rw [Truncated, ciphertext, slice, List.length_take, List.length_drop] at hshort
  rw [authCode, slice, List.length_take, List.length_drop] at hcode
  omega

theorem Authentic.not_truncated (h : x.Authentic k) : ¬ x.Truncated := not_truncated_of_authCode h.1

theorem length_ciphertext (h : ¬ x.Truncated) : x.ciphertext.length = x.total := by
  have hle : x.ciphertext.length ≤ x.total := List.length_take_le _ _
  unfold Truncated at h
  omega

end AesEntry

/-- Reading an exact number of bytes off a window. -/
theorem runOn_readExactCore (n : Nat) (bs : Bytes) :
    ReadM.runOn (readExactCore n) (⟨bs⟩ : Window IoError) =
      if n ≤ bs.length then (.ok (bs.take n), ⟨bs.drop n⟩) else (.error (.io .shortRead), ⟨[]⟩) := by
  rw [readExactCore, ReadM.runOn_readExact, Window.readExact_eq]
  by_cases h : n ≤ bs.length
  · rw [if_pos h, if_pos h]
  · rw [if_neg h, if_neg h]

/-- `apply_keystream` is the exclusive or with the keystream, and moves on behind the bytes. -/
theorem AesCtr.apply_eq (k : Crates) (c : AesCtr) (buf : Bytes) :
    c.apply k buf =
      (combined (· ^^^ ·) (k.aesCtr c.key) c.pos buf, ⟨c.key, c.pos + buf.length⟩) := by
  rw [AesCtr.apply]
  congr 1
  refine List.ext_getElem (by simp) fun i hi hi' => ?_
  rw [List.getElem_mapIdx, getElem_combined _ _ _ _ _ hi' (by simpa using hi)]

theorem AesCtr.apply_append (k : Crates) (c : AesCtr) (xs ys : Bytes) :
    (c.apply k (xs ++ ys)).1 = (c.apply k xs).1 ++ ((c.apply k xs).2.apply k ys).1 := by
  simp only [AesCtr.apply_eq, combined_append]

theorem AesCtr.apply_take (k : Crates) (c : AesCtr) (xs : Bytes) (n : Nat) :
    (c.apply k (xs.take n)).1 = (c.apply k xs).1.take n := by
  rcases Nat.le_total n xs.length with hle | hle
  · have hsplit := AesCtr.apply_append k c (xs.take n) (xs.drop n)
    rw [List.take_append_drop] at hsplit
    have hlength := AesReader.length_apply (k := k) c (xs.take n)
    rw [List.length_take, Nat.min_eq_left hle] at hlength
    rw [hsplit, List.take_left' hlength]
  · rw [List.take_of_length_le hle, List.take_of_length_le]
    rw [AesReader.length_apply]
    exact hle

/-- The decryption of the ciphertext from its start is the plaintext. -/
theorem AesEntry.apply_ciphertext (k : Crates) (x : AesEntry) :
    (AesCtr.apply k ⟨x.encKey k, 0⟩ x.ciphertext).1 = x.plaintext k := by
  rw [AesCtr.apply_eq, AesEntry.plaintext]

namespace AesReader

variable {k : Crates} {x : AesEntry}

/-- Opening succeeds if salt and verifier are there and the password fits, and stops at the
start of the ciphertext. -/
theorem new_eq_ok_iff {name : String} {r : AesReader k (Window IoError)} :
    AesReader.new ⟨x.data⟩ x.password x.info x.compressedSize name = .ok r ↔
      overhead x.info.strength ≤ x.compressedSize ∧ x.start ≤ x.data.length ∧
        slice (x.derived k) (2 * keyLen x.info.strength) 2 =
          slice x.data (saltLen x.info.strength) 2 ∧ r = x.reader k name := by
  have hstart : x.start = saltLen x.info.strength + 2 := rfl
  unfold AesReader.new ReadM.build header
  by_cases hroom : x.compressedSize < overhead x.info.strength
  · rw [if_pos hroom, ReadM.runOn_throw]
    exact ⟨nofun, fun h => absurd hroom (Nat.not_lt.2 h.1)⟩
  · rw [if_neg hroom]
    by_cases hsalt : saltLen x.info.strength ≤ x.data.length
    · rw [ReadM.runOn_bind_ok _ ((runOn_readExactCore _ _).trans (if_pos hsalt))]
      by_cases hverify : 2 ≤ (x.data.drop (saltLen x.info.strength)).length
      · rw [ReadM.runOn_bind_ok _ ((runOn_readExactCore _ _).trans (if_pos hverify))]
        rw [List.length_drop] at hverify
        dsimp only
        by_cases hpassword : slice (k.pbkdf2HmacSha1 x.password (x.data.take (saltLen x.info.strength))
            1000 (2 * keyLen x.info.strength + 2)) (2 * keyLen x.info.strength) 2 =
              (x.data.drop (saltLen x.info.strength)).take 2
        · have hrest : (x.data.drop (saltLen x.info.strength)).drop 2 = x.data.drop x.start := by
            rw [List.drop_drop, hstart]
          rw [if_pos hpassword, ReadM.runOn_pure, hrest]
          constructor
          · exact fun h => ⟨Nat.not_lt.1 hroom, by omega, hpassword, (Except.ok.inj h).symm⟩
          · rintro ⟨-, -, -, rfl⟩
            rfl
        · rw [if_neg hpassword, ReadM.runOn_throw]
          exact ⟨nofun, fun h => absurd h.2.2.1 hpassword⟩
      · rw [ReadM.runOn_bind_error _ ((runOn_readExactCore _ _).trans (if_neg hverify))]
        rw [List.length_drop] at hverify
        exact ⟨nofun, fun h => by omega⟩
    · rw [ReadM.runOn_bind_error _ ((runOn_readExactCore _ _).trans (if_neg hsalt))]
      exact ⟨nofun, fun h => by omega⟩

/-! ## Single reads -/

section Reads

variable {r : AesReader k (Window IoError)} {n : Nat}

/-- The ciphertext the next read of up to `n` bytes takes. -/
def piece (r : AesReader k (Window IoError)) (n : Nat) : Bytes :=
  r.inner.rest.take (min n r.remaining)

/-- The reader behind that piece. -/
def advance (r : AesReader k (Window IoError)) (n : Nat) : AesReader k (Window IoError) :=
  { r with
    inner := ⟨r.inner.rest.drop (min n r.remaining)⟩
    cipher := (r.cipher.apply k (r.piece n)).2
    hmac := r.hmac.update (r.piece n)
    remaining := r.remaining - (r.piece n).length }

theorem piece_ne_nil (hrem : r.remaining ≠ 0) (hrest : r.inner.rest ≠ []) (hn : 0 < n) :
    r.piece n ≠ [] := by
  have hlen : 0 < r.inner.rest.length := List.length_pos_of_ne_nil hrest
  refine List.ne_nil_of_length_pos ?_
  rw [piece, List.length_take]
  omega

theorem read_more (hrem : r.remaining ≠ 0) (hrest : r.inner.rest ≠ []) (hn : 0 < n) :
    read n r = (.ok (r.cipher.apply k (r.piece n)).1, r.advance n) := by
  have hpiece := piece_ne_nil hrem hrest hn
  simp only [Read.read, if_neg hrem]
  rw [show r.inner.rest.take (min n r.remaining) = r.piece n from rfl]
  unfold advance
  cases h : r.piece n with
  | nil => exact absurd h hpiece
  | cons b bs => rfl

theorem read_short (hrem : r.remaining ≠ 0) (hrest : r.inner.rest = []) :
    read n r = (.error r.refuse, r) := by
  obtain ⟨⟨bs⟩, cipher, hmac, remaining, entry, done⟩ := r
  obtain rfl : bs = [] := hrest
  simp only [Read.read, if_neg hrem, List.take_nil, List.drop_nil]

theorem read_done (hrem : r.remaining = 0) (hdone : r.done = true) : read n r = (.ok [], r) := by
  simp only [Read.read, if_pos hrem, if_pos hdone]

/-- The first read behind the ciphertext looks for the authentication code. -/
theorem read_code (hrem : r.remaining = 0) (hdone : r.done = false) :
    read n r =
      if 10 ≤ r.inner.rest.length then
        (if (r.hmac.finalize k).take 10 = r.inner.rest.take 10 then .ok [] else .error r.refuse,
          { r with inner := ⟨r.inner.rest.drop 10⟩, done := true })
      else (.error .shortRead, { r with inner := ⟨[]⟩, done := true }) := by
  simp only [Read.read, if_pos hrem, hdone, Bool.false_eq_true, if_false, finish]
  rw [Window.readExact_eq]
  by_cases hroom : 10 ≤ r.inner.rest.length
  · rw [if_pos hroom, if_pos hroom]
    dsimp only
    by_cases hcode : (r.hmac.finalize k).take 10 = r.inner.rest.take 10
    · rw [if_pos hcode, if_pos hcode]
    · rw [if_neg hcode, if_neg hcode]
      rfl
  · rw [if_neg hroom, if_neg hroom]

theorem length_piece_le (r : AesReader k (Window IoError)) (n : Nat) :
    (r.piece n).length ≤ r.remaining := by
  rw [piece, List.length_take]
  omega

/-- A read takes its piece off what is left of the ciphertext. -/
theorem piece_append_rest (r : AesReader k (Window IoError)) (n : Nat) :
    r.piece n ++ (r.advance n).inner.rest.take (r.advance n).remaining =
      r.inner.rest.take r.remaining := by
  show r.inner.rest.take _ ++ (r.inner.rest.drop _).take (_ - (r.inner.rest.take _).length) = _
  rw [List.length_take]
  by_cases hlong : min n r.remaining ≤ r.inner.rest.length
  · rw [Nat.min_eq_left hlong, ← List.take_add]
    congr 1
    omega
  · rw [List.drop_eq_nil_of_le (by omega), List.take_nil, List.append_nil,
      List.take_of_length_le (by omega), List.take_of_length_le (by omega)]

end Reads

/-- What the reader still delivers, decrypted. -/
def delivers (k : Crates) : Delivers IoError (AesReader k (Window IoError)) where
  rest r := (r.cipher.apply k (r.inner.rest.take r.remaining)).1
  read_rest {r n} hne hn := by
    have hlen := List.length_pos_of_ne_nil hne
    rw [length_apply, List.length_take] at hlen
    have hrem : r.remaining ≠ 0 := by omega
    have hrest : r.inner.rest ≠ [] := List.ne_nil_of_length_pos (by omega)
    rw [read_more hrem hrest hn, ← piece_append_rest r n, AesCtr.apply_append]
    have hpiece := List.length_pos_of_ne_nil (piece_ne_nil hrem hrest hn)
    rw [← length_apply (k := k) r.cipher] at hpiece
    dsimp only
    cases hout : (r.cipher.apply k (r.piece n)).1 with
    | nil =>
      rw [hout] at hpiece
      exact absurd hpiece (Nat.lt_irrefl 0)
    | cons b bs => exact ⟨b, bs, rfl, rfl⟩
  read_end {r n} hend hn := by
    have hlen := congrArg List.length hend
    rw [length_apply, List.length_take, List.length_nil] at hlen
    by_cases hrem : r.remaining = 0
    · cases hdone : r.done with
      | true =>
        rw [read_done hrem hdone]
        exact ⟨hend, fun bs h => (Except.ok.inj h).symm⟩
      | false =>
        rw [read_code hrem hdone]
        refine ⟨?_, fun bs h => ?_⟩
        · split_ifs <;> dsimp only <;> rw [hrem, List.take_zero] <;> rfl
        · split_ifs at h
          · exact (Except.ok.inj h).symm
    · have hrest : r.inner.rest = [] := List.length_eq_zero_iff.1 (by omega)
      rw [read_short hrem hrest]
      exact ⟨hend, nofun⟩

/-! ## Phases -/

/-- Ciphertext is still delivered, or the last of it just was. -/
structure Quiet (x : AesEntry) (r : AesReader k (Window IoError)) : Prop where
  done : r.done = false
  key : r.hmac.key = x.macKey k
  fed : r.hmac.fed ++ r.inner.rest = x.data.drop x.start
  remaining : r.remaining + r.hmac.fed.length = x.total

/-- The check was made, or failed, and is not made again. -/
structure Checked (r : AesReader k (Window IoError)) : Prop where
  done : r.done = true
  spent : r.remaining = 0

/-- The whole ciphertext was fed to the HMAC, and the authentication code was read and is
equal to it. -/
structure Authenticated {ρ : Type} [Read IoError ρ] (x : AesEntry) (r : AesReader k ρ) : Prop where
  done : r.done = true
  spent : r.remaining = 0
  fed : r.hmac = ⟨x.macKey k, x.ciphertext⟩
  whole : x.ciphertext.length = x.total
  drained : avail r.inner = 0
  code : x.authCode.length = 10
  equal : (r.hmac.finalize k).take 10 = x.authCode

section Phases

variable {r : AesReader k (Window IoError)} {n : Nat}

theorem quiet_reader (name : String) : Quiet x (x.reader k name) where
  done := rfl
  key := rfl
  fed := List.nil_append _
  remaining := Nat.add_zero _

theorem Quiet.not_authenticated (h : Quiet x r) : ¬ Authenticated x r := fun hauth => by
  have hdone := hauth.done
  rw [h.done] at hdone
  cases hdone

theorem Authenticated.authentic (h : Authenticated x r) : x.Authentic k := by
  have hequal := h.equal
  rw [h.fed] at hequal
  exact ⟨h.code, hequal⟩

theorem Checked.read (h : Checked r) : read n r = (.ok [], r) := read_done h.spent h.done

theorem Authenticated.read (h : Authenticated x r) : read n r = (.ok [], r) :=
  read_done h.spent h.done

theorem rest_nil_iff : (delivers k).rest r = [] ↔ r.remaining = 0 ∨ r.inner.rest = [] := by
  rw [← List.length_eq_zero_iff]
  show (r.cipher.apply k (r.inner.rest.take r.remaining)).1.length = 0 ↔ _
  rw [length_apply, List.length_take, ← List.length_eq_zero_iff]
  omega

theorem Quiet.read_more (h : Quiet x r) (hrest : (delivers k).rest r ≠ []) (hn : 0 < n) :
    Quiet x (ZipForensic.read n r).2 := by
  rw [ne_eq, rest_nil_iff, not_or] at hrest
  rw [AesReader.read_more hrest.1 hrest.2 hn]
  refine ⟨h.done, h.key, ?_, ?_⟩
  · show r.hmac.fed ++ r.inner.rest.take _ ++ r.inner.rest.drop _ = _
    rw [List.append_assoc, List.take_append_drop, h.fed]
  · have hle := length_piece_le r n
    have htotal := h.remaining
    show r.remaining - (r.piece n).length + (r.hmac.fed ++ r.piece n).length = _
    rw [List.length_append]
    omega

/-- The ciphertext in terms of what was fed and what is left. -/
theorem Quiet.ciphertext_eq (h : Quiet x r) :
    x.ciphertext = (r.hmac.fed ++ r.inner.rest).take x.total := by
  rw [h.fed]
  rfl

/-- A file that ends within the ciphertext leaves the reader waiting for more. -/
theorem Quiet.waiting (h : Quiet x r) (hrest : (delivers k).rest r = []) (ht : x.Truncated) :
    r.remaining ≠ 0 ∧ r.inner.rest = [] := by
  have htotal := h.remaining
  rw [AesEntry.Truncated, h.ciphertext_eq, List.length_take, List.length_append] at ht
  have hrem : r.remaining ≠ 0 := by omega
  exact ⟨hrem, (rest_nil_iff.1 hrest).resolve_left hrem⟩

/-- Otherwise the whole ciphertext was fed, and the code comes next. -/
theorem Quiet.at_code (h : Quiet x r) (hrest : (delivers k).rest r = []) (ht : ¬ x.Truncated) :
    r.remaining = 0 ∧ r.hmac = ⟨x.macKey k, x.ciphertext⟩ ∧
      r.inner.rest = x.data.drop (x.start + x.total) := by
  have htotal := h.remaining
  have hfed : r.hmac.fed.length = x.total := by
    rw [AesEntry.Truncated, h.ciphertext_eq, List.length_take, List.length_append] at ht
    rcases rest_nil_iff.1 hrest with hrem | hnil
    · omega
    · rw [hnil, List.length_nil] at ht
      omega
  refine ⟨by omega, ?_, ?_⟩
  · rw [h.ciphertext_eq, List.take_append_of_le_length (Nat.le_of_eq hfed.symm),
      List.take_of_length_le (Nat.le_of_eq hfed), ← h.key]
  · rw [← List.drop_drop, ← h.fed, List.drop_append_of_le_length (Nat.le_of_eq hfed.symm),
      List.drop_of_length_le (Nat.le_of_eq hfed), List.nil_append]

/-- The read behind the last byte of the ciphertext makes the check. -/
theorem Quiet.read_at_code (h : Quiet x r) (hrest : (delivers k).rest r = [])
    (ht : ¬ x.Truncated) :
    (ZipForensic.read n r).1 =
        (if x.authCode.length = 10 then
          if (k.hmacSha1 (x.macKey k) x.ciphertext).take 10 = x.authCode then .ok []
          else .error r.refuse
        else .error .shortRead) ∧
      Checked (ZipForensic.read n r).2 := by
  obtain ⟨hrem, hhmac, hinner⟩ := h.at_code hrest ht
  have htake : r.inner.rest.take 10 = x.authCode := by rw [hinner]; rfl
  have hroom : 10 ≤ r.inner.rest.length ↔ x.authCode.length = 10 := by
    rw [← htake, List.length_take]
    omega
  have hfinal : r.hmac.finalize k = k.hmacSha1 (x.macKey k) x.ciphertext := by
    rw [hhmac]
    rfl
  rw [read_code hrem h.done, htake, hfinal]
  by_cases hcode : x.authCode.length = 10
  · rw [if_pos (hroom.2 hcode), if_pos hcode]
    exact ⟨rfl, rfl, hrem⟩
  · rw [if_neg fun hlong => hcode (hroom.1 hlong), if_neg hcode]
    exact ⟨rfl, rfl, hrem⟩

theorem Quiet.read_truncated (h : Quiet x r) (hrest : (delivers k).rest r = [])
    (ht : x.Truncated) : ZipForensic.read n r = (.error r.refuse, r) :=
  read_short (h.waiting hrest ht).1 (h.waiting hrest ht).2

theorem Quiet.read_authentic (h : Quiet x r) (hrest : (delivers k).rest r = [])
    (ha : x.Authentic k) :
    (ZipForensic.read n r).1 = .ok [] ∧ Authenticated x (ZipForensic.read n r).2 := by
  obtain ⟨hrem, hhmac, hinner⟩ := h.at_code hrest ha.not_truncated
  obtain ⟨hcode, hequal⟩ := id ha
  have htake : r.inner.rest.take 10 = x.authCode := by rw [hinner]; rfl
  have hroom : 10 ≤ r.inner.rest.length := by
    rw [← htake, List.length_take] at hcode
    omega
  have hfinal : (r.hmac.finalize k).take 10 = x.authCode := by
    rw [hhmac]
    exact hequal
  rw [read_code hrem h.done, if_pos hroom, htake, if_pos hfinal]
  refine ⟨rfl, rfl, hrem, hhmac, AesEntry.length_ciphertext ha.not_truncated, ?_, hcode, hfinal⟩
  -- the window ends with the code
  show (r.inner.rest.drop 10).length = 0
  have hle := x.length_le
  rw [hinner, List.length_drop, List.length_drop, AesEntry.start, AesEntry.total,
    AesReader.overhead]
  omega

theorem Quiet.read_forged (h : Quiet x r) (hrest : (delivers k).rest r = [])
    (ht : ¬ x.Truncated) (ha : ¬ x.Authentic k) :
    (∃ e, (ZipForensic.read n r).1 = .error e) ∧ Checked (ZipForensic.read n r).2 := by
  obtain ⟨hanswer, hnext⟩ := h.read_at_code hrest ht (n := n)
  refine ⟨?_, hnext⟩
  rw [hanswer]
  by_cases hcode : x.authCode.length = 10
  · rw [if_pos hcode, if_neg fun hequal => ha ⟨hcode, hequal⟩]
    exact ⟨_, rfl⟩
  · rw [if_neg hcode]
    exact ⟨_, rfl⟩

/-- A read takes the plaintext of its length, as far as there is ciphertext. -/
theorem read_take (hne : (delivers k).rest r ≠ []) (hn : 0 < n) :
    (read n r).1 = .ok (((delivers k).rest r).take n) ∧
      (delivers k).rest (read n r).2 = ((delivers k).rest r).drop n := by
  obtain ⟨hrem, hrest⟩ := not_or.1 (mt rest_nil_iff.2 hne)
  rw [read_more hrem hrest hn]
  have htake : (r.cipher.apply k (r.piece n)).1 = ((delivers k).rest r).take n := by
    rw [piece, ← List.take_take, AesCtr.apply_take]
    rfl
  have hsplit : (r.cipher.apply k (r.piece n)).1 ++ (delivers k).rest (r.advance n) =
      (delivers k).rest r := by
    show _ = (r.cipher.apply k (r.inner.rest.take r.remaining)).1
    rw [← piece_append_rest r n, AesCtr.apply_append]
    rfl
  rw [htake] at hsplit
  exact ⟨congrArg Except.ok htake,
    List.append_cancel_left (hsplit.trans (List.take_append_drop n _).symm)⟩

/-- What is left is what is still counted, unless the file ends within it. -/
theorem Quiet.remaining_eq (h : Quiet x r) (ht : ¬ x.Truncated) :
    r.remaining = ((delivers k).rest r).length := by
  have hwhole := AesEntry.length_ciphertext ht
  have htotal := h.remaining
  rw [h.ciphertext_eq, List.length_take, List.length_append] at hwhole
  show r.remaining = (r.cipher.apply k (r.inner.rest.take r.remaining)).1.length
  rw [length_apply, List.length_take]
  omega

end Phases

end AesReader

end ZipForensic
